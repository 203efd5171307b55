/-
Fragments of IPv4 datagrams (`9/ip/ip.c`): `ipoput4` makes them, of a datagram or
of a fragment that passes through (`gating`), and `ip4reassemble` puts them together.

A header is its fields, as numbers; one has 20 bytes. What follows it in a chain of
blocks is a list for each block, the first without the header. The interface is
found and gives `medialen`; statistics and the log are left out. A fragment on a
reassembly queue (`Frag`) is a block whose memory after the header reaches to `lim`,
with the `foff` and `flen` that are kept before its `rp`. `NOW` is a `ulong` of
milliseconds, and so is the `age` of a queue: the end of its 30 seconds may wrap.
-/
import Mathlib.Data.Nat.Bitwise
import Mathlib.Tactic.Ring

namespace Plan9.Ip

/-- `IP4HDR` -/
def ip4hdr : Nat := 20

/-- `IP_MF` -/
def ipmf : Nat := 0x2000

/-- `IP_DF` -/
def ipdf : Nat := 0x4000

/-- `IP_MAX` -/
def ipmax : Nat := 64 * 1024

structure Ip4hdr where
  vihl : Nat
  tos : Nat
  length : Nat
  id : Nat
  frag : Nat
  ttl : Nat
  proto : Nat
  cksum : Nat
  src : Nat
  dst : Nat
  deriving DecidableEq, Repr

/-- `IP_VER4|IP_HLEN4` -/
def ipver4hlen4 : Nat := 0x45

def ipcsum (h : Ip4hdr) : Nat :=
  let sum := (h.vihl <<< 8 ||| h.tos) + h.length + h.id + h.frag + (h.ttl <<< 8 ||| h.proto) + h.cksum +
    (h.src / 2 ^ 16 + h.src % 2 ^ 16) + (h.dst / 2 ^ 16 + h.dst % 2 ^ 16)
  let sum := sum % 2 ^ 16 + sum / 2 ^ 16
  let sum := sum % 2 ^ 16 + sum / 2 ^ 16
  (sum ^^^ 0xffff) % 2 ^ 16

/-- `feh->cksum` from all the rest. -/
def Ip4hdr.summed (h : Ip4hdr) : Ip4hdr := { h with cksum := ipcsum { h with cksum := 0 } }

/-- A packet on the wire, in one block. -/
structure Packet where
  hdr : Ip4hdr
  data : List UInt8
  deriving DecidableEq, Repr

/-! ## Sending -/

/-- "Copy up the data area": so many bytes off a chain of blocks, if it has them. -/
def copyup : Nat → List (List UInt8) → Option (List UInt8 × List (List UInt8))
  | 0, xp => some ([], xp)
  | _ + 1, [] => none
  | chunk + 1, b :: xp =>
    if b.length ≤ chunk + 1 then
      match copyup (chunk + 1 - b.length) xp with
      | none => none
      | some (bytes, xp) => some (b ++ bytes, xp)
    else some (b.take (chunk + 1), b.drop (chunk + 1) :: xp)

/-- The loop that makes and sends the fragments, a number of turns: those sent, and whether the chain had all of it. -/
def sendfrags (eh : Ip4hdr) (lid dlen seglen : Nat) : Nat → Nat → List (List UInt8) → List Packet × Bool
  | 0, _, _ => ([], true)
  | turns + 1, fragoff, xp =>
    if fragoff < dlen then
      let last := fragoff + seglen ≥ dlen
      let len := if last then dlen - fragoff else seglen
      let frag := if last then fragoff >>> 3 else fragoff >>> 3 ||| ipmf
      match copyup len xp with
      | none => ([], false)
      | some (bytes, xp) =>
        let feh := { eh with frag := frag % 2 ^ 16, length := (len + ip4hdr) % 2 ^ 16, id := lid % 2 ^ 16 }
        let (ps, all) := sendfrags eh lid dlen seglen turns (fragoff + seglen) xp
        (⟨feh.summed, bytes⟩ :: ps, all)
    else ([], true)

/-- What becomes of a datagram. -/
inductive Output
  | sent (ps : List Packet)
  /-- With what has been sent of it. -/
  | discarded (ps : List Packet)
  /-- `assert(bp->next == nil)` -/
  | fault
  deriving Repr

/-- The first block has the header `eh`. `id4` is what `incref(&ip->id4)` gives. -/
def ipoput4 (medialen : Int) (gating : Bool) (ttl tos id4 : Nat) (eh : Ip4hdr) (bp : List (List UInt8)) : Output :=
  let blocklen := ip4hdr + (bp.map List.length).sum
  if gating ∧ eh.length > blocklen then .discarded []
  else
    let len := if gating ∧ eh.length < blocklen then eh.length else blocklen
    if len ≥ ipmax then .discarded []
    else
      let eh := { eh with
        vihl := if gating then eh.vihl else ipver4hlen4
        ttl := ttl
        tos := if gating then eh.tos else tos }
      if len ≤ medialen then
        match bp with
        | _ :: _ :: _ => .fault
        | bp =>
          let eh := { eh with
            id := if gating then eh.id else id4 % 2 ^ 16
            length := len
            frag := if gating then eh.frag else 0 }
          .sent [⟨eh.summed, bp.flatten⟩]
      else if eh.frag &&& ipdf ≠ 0 then .discarded []
      else
        let seglen := (medialen - ip4hdr) / 8 * 8
        if seglen < 8 then .discarded []
        else
          let fragoff := if gating then eh.frag <<< 3 else 0
          let lid := if gating then eh.id else id4
          let dlen := len - ip4hdr + fragoff
          let (ps, all) := sendfrags eh lid dlen seglen.toNat (dlen + 1) fragoff bp
          if all then .sent ps else .discarded ps

/-! ## The reassembly queues -/

/-- A block on a queue: its header, its memory from there to `lim`, and how much of that lies before `wp`. -/
structure Frag where
  hdr : Ip4hdr
  mem : List UInt8
  len : Nat
  foff : Nat
  flen : Nat
  deriving DecidableEq, Repr

/-- `(BLKIP(bl)->frag[0]&(IP_MF>>8)) == 0` -/
def Frag.final (bl : Frag) : Bool := bl.hdr.frag &&& ipmf == 0

/-- Successors that `fend` reaches beyond are taken out, or lose their beginning. -/
def cover (fend : Nat) : List Frag → List Frag
  | [] => []
  | l :: ls =>
    let ovlap : Int := fend - l.foff
    if ovlap ≤ 0 then l :: ls
    else if ovlap < l.flen then
      let l := { l with
        flen := l.flen - ovlap.toNat
        foff := (l.foff + ovlap.toNat) % 2 ^ 16
        mem := l.mem.drop ovlap.toNat
        len := l.len - ovlap.toNat }
      l :: ls
    else cover fend ls

/-- The fragment in its place, and what overlaps with it trimmed; or none, if the one before has all of it. -/
def enqueue (bp : Frag) (blist : List Frag) : Option (List Frag) :=
  let before := blist.takeWhile (·.foff < bp.foff)
  let rest := bp :: cover (bp.foff + bp.flen) (blist.dropWhile (·.foff < bp.foff))
  match before.getLast? with
  | none => some rest
  | some prev =>
    let ovlap : Int := prev.foff + prev.flen - bp.foff
    if ovlap > 0 then
      if ovlap ≥ bp.flen then none
      else some (before.dropLast ++ { prev with flen := prev.flen - ovlap.toNat } :: rest)
    else some (before ++ rest)

/-- From `pktposn` on no byte is missing up to a last fragment. -/
def complete (pktposn : Nat) : List Frag → Bool
  | [] => false
  | bl :: bls => if bl.foff ≠ pktposn then false else if bl.final then true else complete (pktposn + bl.flen) bls

/-- A block of a packet that is returned, from its data on. -/
structure Blk where
  mem : List UInt8
  /-- Where `wp` is. -/
  len : Nat
  deriving DecidableEq, Repr

structure Datagram where
  hdr : Ip4hdr
  blocks : List Blk
  deriving DecidableEq, Repr

def Datagram.payload (d : Datagram) : List UInt8 := d.blocks.flatMap fun b => b.mem.take b.len

/-- "Pullup all the fragment headers". -/
def assemble : List Frag → Option Datagram
  | [] => none
  | bl :: bls =>
    let len := bl.hdr.length + (bls.map Frag.flen).sum
    let blocks := ⟨bl.mem, bl.hdr.length - ip4hdr⟩ :: bls.map fun bl => ⟨bl.mem, bl.flen⟩
    some ⟨{ bl.hdr with length := len % 2 ^ 16 }, blocks⟩

structure Fragment4 where
  blist : List Frag
  src : Nat
  id : Nat
  dst : Nat
  age : Nat
  deriving DecidableEq, Repr

structure IP where
  /-- `flisthead4` -/
  flist : List Fragment4
  /-- The entries on `fragfree4`. -/
  free : Nat
  deriving Repr

def Fragment4.isOf (f : Fragment4) (h : Ip4hdr) : Bool := f.src == h.src && f.dst == h.dst && f.id == h.id

/-- The search for a queue: those before it that have timed out are freed. -/
def expire (now : Nat) (h : Ip4hdr) : List Fragment4 → List Fragment4
  | [] => []
  | f :: fs => if f.isOf h then f :: fs else if f.age < now then expire now h fs else f :: expire now h fs

/-- Frees the queue that the search has found. -/
def IP.ipfragfree4 (ip : IP) (h : Ip4hdr) : IP := { flist := ip.flist.eraseP (·.isOf h), free := ip.free + 1 }

/-- With no free entry the last queue goes. -/
def IP.ipfragallo4 (ip : IP) (now : Nat) (h : Ip4hdr) (bp : Frag) : IP :=
  let f : Fragment4 := ⟨[bp], h.src, h.id, h.dst, (now + 30000) % 2 ^ 32⟩
  if ip.free = 0 then { ip with flist := f :: ip.flist.dropLast } else { flist := f :: ip.flist, free := ip.free - 1 }

def IP.setblist (ip : IP) (h : Ip4hdr) (blist : List Frag) : IP :=
  { ip with flist := ip.flist.map fun f => if f.isOf h then { f with blist := blist } else f }

/-- The block is one, with its data to `wp` and its memory to `lim`. -/
def ip4reassemble (ip : IP) (now offset : Nat) (h : Ip4hdr) (bp : Blk) : IP × Option Datagram :=
  let flist := expire now h ip.flist
  let ip := { flist := flist, free := ip.free + (ip.flist.length - flist.length) }
  let f := flist.find? (·.isOf h)
  if h.tos = 0 ∧ offset &&& 0x9fff = 0 then
    (if f.isSome then ip.ipfragfree4 h else ip, some ⟨h, [bp]⟩)
  else
    let bl : Frag := ⟨h, bp.mem, bp.len, (offset <<< 3) % 2 ^ 16, h.length - ip4hdr⟩
    match f with
    | none => (ip.ipfragallo4 now h bl, none)
    | some f =>
      match enqueue bl f.blist with
      | none => (ip, none)
      | some blist =>
        if complete 0 blist then (ip.ipfragfree4 h, assemble blist)
        else (ip.setblist h blist, none)

/-- `tos` is whether `IP_MF` is set. -/
def Ip4hdr.marked (h : Ip4hdr) : Ip4hdr := { h with tos := if h.frag &&& ipmf ≠ 0 then 1 else 0 }

/-- The end of `ipiput4`, for a packet that is for this host. -/
def ipiput4 (ip : IP) (now : Nat) (h : Ip4hdr) (bp : Blk) : IP × Option Datagram :=
  let (ip, d) :=
    if h.frag ≠ 0 then ip4reassemble ip now h.frag h.marked bp
    else (ip, some ⟨h, [bp]⟩)
  -- "don't let any frag info go up the stack"
  (ip, d.map fun d => { d with hdr := { d.hdr with frag := 0 } })

end Plan9.Ip
