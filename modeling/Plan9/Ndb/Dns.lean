/-
Messages of the domain name system (`ndb/dns.h`), unpacked.

A domain name or a string is the bytes of a C string, without its NUL. The hash
table of names (`dnlookup`) is left out: a `DN` is the name and the class that are
looked up. The parts of an `RR` that lie in unions are kept apart by their names in
the source; `none` is a nil pointer, and a `Block` that has not been read has no data.
What formats, parses or inspects memory outside of the message is in `Env`.
-/
import Plan9.Lib.Bytes

namespace Plan9.Ndb

open Bytes

/-- A C string. -/
abbrev Str := List UInt8

def ta : Nat := 1
def tns : Nat := 2
def tmd : Nat := 3
def tmf : Nat := 4
def tcname : Nat := 5
def tsoa : Nat := 6
def tmb : Nat := 7
def tmg : Nat := 8
def tmr : Nat := 9
def tnull : Nat := 10
def tptr : Nat := 12
def thinfo : Nat := 13
def tminfo : Nat := 14
def tmx : Nat := 15
def ttxt : Nat := 16
def trp : Nat := 17
def tsig : Nat := 24
def tkey : Nat := 25
def taaaa : Nat := 28
def tsrv : Nat := 33
def tcert : Nat := 37

def csym : Nat := 0
def cin : Nat := 1

def rok : Nat := 0
def rformat : Nat := 1

/-- `Ftrunc` -/
def ftrunc : Nat := 2 ^ 9

/-- `Domlen`, with the NUL. -/
def domlen : Nat := 256

/-- `Labellen`, with the NUL. -/
def labellen : Nat := 64

/-- `Strlen`, with the NUL. -/
def strlen : Nat := 256

/-- `Maxpayload` -/
def maxpayload : Nat := 4096

structure DN where
  name : Str
  cls : Nat
  deriving DecidableEq, Repr

/-- The parts of records that are names. -/
inductive DnPart
  | host | cpu | os | mb | rmb | ip | ptr | rp | signer
  deriving DecidableEq, Repr

/-- The parts of records that are numbers. -/
inductive NumPart
  | pref | port | pri | weight
  | serial | refresh | retry | expire | minttl
  | flags | proto | alg | type | tag | labels | ttl | exp | incep
  deriving DecidableEq, Repr

structure RR where
  owner : DN
  type : Nat
  ttl : Nat
  /-- From the database: `ttl` is no point in time. -/
  db : Bool
  dn : DnPart → Option DN
  num : NumPart → Nat
  /-- `txt` -/
  txt : List Str
  /-- `dlen` bytes of `data`, of a key, a cert, a sig or a null. -/
  data : Option (List UInt8)

structure DNSmsg where
  id : Nat
  flags : Nat
  qdcount : Nat
  qd : List RR
  ancount : Nat
  an : List RR
  nscount : Nat
  ns : List RR
  arcount : Nat
  ar : List RR

structure Env where
  now : Nat
  /-- `parseip`, and `v6tov4` -/
  pv4 : Str → List UInt8
  /-- `parseip` -/
  pv6 : Str → List UInt8
  /-- `%V` -/
  fmtV : List UInt8 → Str
  /-- `%I` -/
  fmtI : List UInt8 → Str
  /-- A newline in the memory of the DN: `strchr((char *)rp->host, '\n') != nil` -/
  newline : DN → Bool
  pv4_length : ∀ s, (pv4 s).length = 4
  pv6_length : ∀ s, (pv6 s).length = 16

/-- What the macros of the two converters do to one part of a record. -/
inductive Field
  | name (x : DnPart)
  | symbol (x : DnPart)
  /-- `STRING` of a name. -/
  | string (x : DnPart)
  | ushort (x : NumPart)
  | uchar (x : NumPart)
  | ulong (x : NumPart)
  | v4addr (x : DnPart)
  | v6addr (x : DnPart)
  /-- The loop over `txt`. -/
  | txt
  | bytes
  deriving DecidableEq, Repr

/-- Big endian. -/
def beBytes (n v : Nat) : List UInt8 := (leBytes n v).reverse

def beNat (bs : List UInt8) : Nat := leNat bs.reverse

@[simp]
theorem length_beBytes (n v : Nat) : (beBytes n v).length = n := by
  unfold beBytes
  rw [List.length_reverse, length_leBytes]

theorem beNat_lt (bs : List UInt8) : beNat bs < 256 ^ bs.length := by
  rw [← List.length_reverse]
  exact leNat_lt _

end Plan9.Ndb
