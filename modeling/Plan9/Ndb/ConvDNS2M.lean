/-
Packing of messages (`ndb/convDNS2M.c`).

Where the source has `p`, `Pack` has the bytes from the start of the message to it, and
`past` when `p` is `ep + 1`. Bytes behind `p` that an abandoned record leaves are not
kept: the message ends at `p`. The dictionary has its names themselves, `used` bytes of
`buf` in all. `none` is a nil pointer dereferenced.
-/
import Plan9.Ndb.Dns

namespace Plan9.Ndb

def ndict : Nat := 64

/-- `sizeof buf` -/
def dictbuf : Nat := 16 * 1024

structure Dict where
  /-- Offsets and names. -/
  x : List (Nat × Str)
  used : Nat
  deriving DecidableEq, Repr

structure Pack where
  out : List UInt8
  past : Bool
  deriving DecidableEq, Repr

/-- `p - dp->start` -/
def Pack.off (s : Pack) (ep : Nat) : Nat := if s.past then ep + 1 else s.out.length

/-- `if(ep - p < n) return ep+1` -/
def Pack.put (s : Pack) (ep : Nat) (bs : List UInt8) : Pack :=
  if s.past ∨ ep < s.out.length + bs.length then { s with past := true } else { s with out := s.out ++ bs }

def psym (ep : Nat) (np : Str) (s : Pack) : Pack :=
  let n := if np.length ≥ strlen then strlen - 1 else np.length
  s.put ep (UInt8.ofNat n :: np.take n)

/-- `'.'` -/
def dot : UInt8 := 46

/-- The next component. -/
def label (np : Str) : Str := np.takeWhile (· ≠ dot)

/-- What is behind its `'.'`. -/
def parent (np : Str) : Str := (np.dropWhile (· ≠ dot)).drop 1

/-- "If there's room, enter this name in dictionary": `last` is the name with the component packed before. -/
def Dict.enter (dp : Dict) (np : Str) (last : Option Str) (off : Nat) : Dict × Option Str :=
  if dp.x.length < ndict then
    match last with
    | some last => ({ dp with x := dp.x ++ [(off % 2 ^ 16, parent last)] }, some (parent last))
    | none =>
      if dp.used + np.length + 1 < dictbuf then
        ({ x := dp.x ++ [(off % 2 ^ 16, np)], used := dp.used + (np.length + 1) }, some np)
      else (dp, none)
  else (dp, last)

/-- The loop over the components, a number of turns. -/
def pnameLoop (ep : Nat) : Nat → Str → Option Str → Pack → Dict → Pack × Dict
  | 0, _, _, s, dp => (s, dp)
  | turns + 1, np, last, s, dp =>
    if np = [] then (s.put ep [0], dp)
    else match dp.x.find? (·.2 = np) with
      | some (offset, _) => (s.put ep [UInt8.ofNat (offset >>> 8) ||| 0xc0, UInt8.ofNat offset], dp)
      | none =>
        let (dp, last) := dp.enter np last (s.off ep)
        let s := s.put ep (UInt8.ofNat (label np).length :: label np)
        if s.past then (s, dp)
        else if (label np).length > labellen then ({ s with past := true }, dp)
        else pnameLoop ep turns (parent np) last s dp

def pname (ep : Nat) (np : Str) (s : Pack) (dp : Dict) : Pack × Dict :=
  if np.length ≥ domlen then ({ s with past := true }, dp) else pnameLoop ep (np.length + 1) np none s dp

/-- The switch of `convRR2M`. -/
def packs (type : Nat) : List Field :=
  if type = thinfo then [.symbol .cpu, .symbol .os]
  else if type = tcname ∨ type = tmb ∨ type = tmd ∨ type = tmf ∨ type = tns then [.name .host]
  else if type = tmg ∨ type = tmr then [.name .mb]
  else if type = tminfo then [.name .rmb, .name .mb]
  else if type = tmx then [.ushort .pref, .name .host]
  else if type = ta then [.v4addr .ip]
  else if type = taaaa then [.v6addr .ip]
  else if type = tptr then [.name .ptr]
  else if type = tsoa then
    [.name .host, .name .rmb, .ulong .serial, .ulong .refresh, .ulong .retry, .ulong .expire, .ulong .minttl]
  else if type = tsrv then [.ushort .pri, .ushort .weight, .ushort .port, .string .host]
  else if type = ttxt then [.txt]
  else if type = tnull then [.bytes]
  else if type = trp then [.name .rmb, .name .rp]
  else if type = tkey then [.ushort .flags, .uchar .proto, .uchar .alg, .bytes]
  else if type = tsig then
    [.ushort .type, .uchar .alg, .uchar .labels, .ulong .ttl, .ulong .exp, .ulong .incep, .ushort .tag, .name .signer, .bytes]
  else if type = tcert then [.ushort .type, .ushort .tag, .uchar .alg, .bytes]
  else []

/-- One part of the record data. -/
def packField (env : Env) (ep : Nat) (rp : RR) (f : Field) (s : Pack) (dp : Dict) : Option (Pack × Dict) :=
  match f with
  | .name x => (rp.dn x).map fun dn => pname ep dn.name s dp
  | .symbol x | .string x => (rp.dn x).map fun dn => (psym ep dn.name s, dp)
  | .ushort x => some (s.put ep (beBytes 2 (rp.num x)), dp)
  | .uchar x => some (s.put ep (beBytes 1 (rp.num x)), dp)
  | .ulong x => some (s.put ep (beBytes 4 (rp.num x)), dp)
  | .v4addr x => (rp.dn x).map fun dn => (s.put ep (env.pv4 dn.name), dp)
  | .v6addr x => (rp.dn x).map fun dn => (s.put ep (env.pv6 dn.name), dp)
  | .txt => some (rp.txt.foldl (fun s t => psym ep t s) s, dp)
  | .bytes => some (s.put ep (rp.data.getD []), dp)

def packFields (env : Env) (ep : Nat) (rp : RR) : List Field → Pack → Dict → Option (Pack × Dict)
  | [], s, dp => some (s, dp)
  | f :: fs, s, dp => (packField env ep rp f s dp).bind fun (s, dp) => packFields env ep rp fs s dp

/-- "Egregious overuse of ttl (it's absolute time in the cache)" -/
def RR.packedTtl (rp : RR) (now : Nat) : Nat :=
  let ttl : Int := if rp.db then rp.ttl else rp.ttl - now
  -- as an int
  let ttl := ttl.bmod (2 ^ 32)
  if ttl < 0 then 0 else ttl.toNat

def convRR2M (env : Env) (ep : Nat) (rp : RR) (s : Pack) (dp : Dict) : Option (Pack × Dict) :=
  let (s, dp) := pname ep rp.owner.name s dp
  let s := ((s.put ep (beBytes 2 rp.type)).put ep (beBytes 2 rp.owner.cls)).put ep (beBytes 4 (rp.packedTtl env.now))
  -- "leave room for the rdata length"
  if s.past ∨ s.out.length + 2 ≥ ep then some ({ s with past := true }, dp)
  else
    match packFields env ep rp (packs rp.type) { s with out := s.out ++ [0, 0] } dp with
    | none => none
    | some (s', dp) =>
      if s'.past then some (s', dp)
      else
        let data := s'.out.drop (s.out.length + 2)
        some ({ s' with out := s.out ++ (beBytes 2 data.length ++ data) }, dp)

def convQ2M (ep : Nat) (rp : RR) (s : Pack) (dp : Dict) : Pack × Dict :=
  let (s, dp) := pname ep rp.owner.name s dp
  ((s.put ep (beBytes 2 rp.type)).put ep (beBytes 2 rp.owner.cls), dp)

/-- With how many are packed. -/
def packLoop (env : Env) (ep : Nat) (quest : Bool) : List RR → List UInt8 → Dict → Option (List UInt8 × Dict × Nat)
  | [], out, dp => some (out, dp, 0)
  | rp :: rps, out, dp =>
    if out.length < ep then
      match (if quest then some (convQ2M ep rp ⟨out, false⟩ dp) else convRR2M env ep rp ⟨out, false⟩ dp) with
      | none => none
      | some (s, dp) =>
        if s.past then some (out, dp, 0)
        else (packLoop env ep quest rps s.out dp).map fun (out, dp, count) => (out, dp, count + 1)
    else some (out, dp, 0)

end Plan9.Ndb
