/-
The packets of libventi, `packet.c`.

The records live where `vtbrk` put them and are used again with their old fields in
place: two fragments in every packet, the others, the memories. A fragment's pointers
`rp` and `wp` are offsets from the `bp` of its memory, or from the start of `text`, the
caller's memory, where it has none. A run that comes to no good end is an error. Loops along the
fragments take the number of rounds they may make, at least the number of
fragments there are.
-/
import Plan9.Lib.CInt
import Plan9.Lib.Memory

namespace Plan9.Venti.Packets

open CInt

def maxFragSize : Nat := 9 * 1024
def bigMemSize : Nat := maxFragSize
def smallMemSize : Nat := bigMemSize / 8

/-- How a run ends that does not go on. -/
inductive Fault where
  | nilDeref
  | assert
  /-- `assert(f->free==nil && f->a==nil)` of `fragdup` -/
  | assertForeign
  | abort
  /-- The loop does not end. -/
  | rounds
  deriving DecidableEq, Repr

/-- What a pointer points to. -/
def deref {α : Type} : Option α → Except Fault α
  | none => .error .nilDeref
  | some x => .ok x

/-! ## Records -/

/-- `PFront`, `PMiddle` and `PEnd` -/
inductive Pos where
  | pFront
  | pMiddle
  | pEnd
  deriving DecidableEq

structure Mem where
  ref : Int
  /-- `ep - bp` -/
  size : Nat
  rp : Nat
  wp : Nat
  /-- What is stored from `bp` on. -/
  data : Nat → UInt8

inductive FragState where
  | fragLocalFree
  | fragLocalAlloc
  | fragGlobal
  deriving DecidableEq

/-- `&packet->local[i]`, or a fragment from `vtbrk`. -/
inductive FragId where
  | loc (p i : Nat)
  | glob (k : Nat)
  deriving DecidableEq

structure Frag where
  state : FragState
  mem : Option Nat
  rp : Nat
  wp : Nat
  next : Option FragId
  free : Option Nat
  a : Option Nat

structure Packet where
  size : Int
  asize : Int
  first : Option FragId
  last : Option FragId

/-- The fragments and memories, and what `freelist` has of them. -/
structure Heap where
  frag : FragId → Frag
  nfrag : Nat
  freeFrag : Option FragId
  mem : Nat → Mem
  nmem : Nat
  smallmem : List Nat
  bigmem : List Nat
  text : Nat → UInt8

structure State where
  heap : Heap
  packet : Nat → Packet
  npacket : Nat
  freePacket : List Nat

def Heap.setFrag (h : Heap) (f : FragId) (r : Frag) : Heap := { h with frag := Function.update h.frag f r }

def Heap.setMem (h : Heap) (m : Nat) (r : Mem) : Heap := { h with mem := Function.update h.mem m r }

def State.setPacket (s : State) (p : Nat) (r : Packet) : State := { s with packet := Function.update s.packet p r }

/-- `FRAGSIZE(f)` -/
def Heap.fragsize (h : Heap) (f : FragId) : Int := (h.frag f).wp - (h.frag f).rp

/-- `FRAGASIZE(f)` -/
def Heap.fragasize (h : Heap) (f : FragId) : Int :=
  match (h.frag f).mem with
  | none => 0
  | some m => (h.mem m).size

/-- The memory that `rp` and `wp` point into. -/
def Heap.dataOf (h : Heap) (f : FragId) : Nat → UInt8 :=
  match (h.frag f).mem with
  | none => h.text
  | some m => (h.mem m).data

/-- `memmove(m->bp + p, buf, buf's length)` -/
def Heap.store (h : Heap) (m p : Nat) (buf : List UInt8) : Heap :=
  h.setMem m { h.mem m with data := Memory.store (h.mem m).data p buf }

/-! ## Memories -/

/-- The memory from the free list, or a new one. -/
def memget (h : Heap) (n : Int) : Nat × Heap :=
  if n ≤ smallMemSize then
    match h.smallmem with
    | m :: l => (m, { h with smallmem := l })
    | [] => (h.nmem, { h.setMem h.nmem { h.mem h.nmem with size := smallMemSize } with nmem := h.nmem + 1 })
  else
    match h.bigmem with
    | m :: l => (m, { h with bigmem := l })
    | [] => (h.nmem, { h.setMem h.nmem { h.mem h.nmem with size := bigMemSize } with nmem := h.nmem + 1 })

/-- `m->rp` -/
def carve (pos : Pos) (size : Nat) (n : Int) : Int :=
  let rp : Int := match pos with
    | .pFront => 0
    | .pMiddle => size - n - 32
    | .pEnd => size - n
  if rp < 0 then 0 else rp

def memalloc (h : Heap) (n : Int) (pos : Pos) : Except Fault (Option Nat × Heap) :=
  if n < 0 ∨ n > maxFragSize then .ok (none, h)
  else
    let (m, h) := memget h n
    let r := h.mem m
    if r.ref ≠ 0 then .error .assert
    else
      let rp := carve pos r.size n
      let wp := rp + n
      if wp > r.size then .error .assert
      else .ok (some m, h.setMem m { r with ref := 1, rp := rp.toNat, wp := wp.toNat })

def memfree (h : Heap) (m : Nat) : Except Fault Heap :=
  let h := h.setMem m { h.mem m with ref := (h.mem m).ref - 1 }
  if (h.mem m).ref > 0 then .ok h
  else if (h.mem m).ref ≠ 0 then .error .assert
  else if (h.mem m).size = smallMemSize then .ok { h with smallmem := m :: h.smallmem }
  else if (h.mem m).size = bigMemSize then .ok { h with bigmem := m :: h.bigmem }
  else .error .assert

/-! ## Fragments -/

/-- The record: one of the packet's own, one from the free list, or a new one. -/
def fragget (h : Heap) (p : Nat) : FragId × Heap :=
  let local0 := h.frag (.loc p 0)
  let local1 := h.frag (.loc p 1)
  if local0.state = .fragLocalFree then (.loc p 0, h.setFrag (.loc p 0) { local0 with state := .fragLocalAlloc })
  else if local1.state = .fragLocalFree then (.loc p 1, h.setFrag (.loc p 1) { local1 with state := .fragLocalAlloc })
  else
    match h.freeFrag with
    | some f => (f, { h with freeFrag := (h.frag f).next })
    | none =>
      let f := .glob h.nfrag
      (f, { h.setFrag f { h.frag f with state := .fragGlobal } with nfrag := h.nfrag + 1 })

def fragalloc (h : Heap) (p : Nat) (n : Int) (pos : Pos) (next : Option FragId) : Except Fault (FragId × Heap) := do
  let (f, h) := fragget h p
  let h := h.setFrag f { h.frag f with next := next }
  if n = 0 then return (f, h.setFrag f { h.frag f with mem := none, rp := 0, wp := 0 })
  let pos := if pos = .pEnd ∧ next = none then .pMiddle else pos
  let (m, h) ← memalloc h n pos
  let m ← deref m
  return (f, h.setFrag f { h.frag f with mem := some m, rp := (h.mem m).rp, wp := (h.mem m).wp })

/-- The pointers of the memory can be out of date: they are those of its only fragment. -/
def memupdate (h : Heap) (f : FragId) : Heap :=
  match (h.frag f).mem with
  | none => h
  | some m => if (h.mem m).ref = 1 then h.setMem m { h.mem m with rp := (h.frag f).rp, wp := (h.frag f).wp } else h

def fragdup (h : Heap) (p : Nat) (f : FragId) : Except Fault (FragId × Heap) := do
  let (ff, h) ← fragalloc (memupdate h f) p 0 .pFront none
  let r := h.frag f
  let h := h.setFrag ff { h.frag ff with mem := r.mem, rp := r.rp, wp := r.wp, next := r.next }
  if r.free ≠ none ∨ r.a ≠ none then throw .assertForeign
  match r.mem with
  | none => return (ff, h)
  | some m => return (ff, h.setMem m { h.mem m with ref := (h.mem m).ref + 1 })

def fragfree (h : Heap) (f : FragId) : Except Fault Heap := do
  let h ← match (h.frag f).mem with
    -- the destructor is called here
    | none => pure h
    | some m => do
      let h ← memfree h m
      pure (h.setFrag f { h.frag f with mem := none })
  if (h.frag f).state = .fragLocalAlloc then
    return h.setFrag f { h.frag f with state := .fragLocalFree }
  return { h.setFrag f { h.frag f with next := h.freeFrag } with freeFrag := some f }

/-- `for(; f != nil; f=ff) { p->asize -= FRAGASIZE(f); ff = f->next; fragfree(f); }`. Where the source leaves `asize`
alone, it is not looked at. -/
def freeLoop : Nat → Heap → Option FragId → Int → Except Fault (Heap × Int)
  | _, h, none, asize => .ok (h, asize)
  | 0, _, some _, _ => .error .rounds
  | k + 1, h, some f, asize => do
    let asize := asize - h.fragasize f
    let ff := (h.frag f).next
    let h ← fragfree h f
    freeLoop k h ff asize

/-! ## Packets -/

/-- As many rounds as there are fragments, and one. -/
def State.rounds (s : State) : Nat := 2 * s.npacket + s.heap.nfrag + 1

/-- `NOTFREE(p)` -/
def State.notfree (s : State) (p : Nat) : Except Fault Unit := if (s.packet p).size ≥ 0 then .ok () else .error .assert

def packetalloc (s : State) : Except Fault (Nat × State) :=
  let fresh : Packet := { size := 0, asize := 0, first := none, last := none }
  match s.freePacket with
  | [] => .ok (s.npacket, { s.setPacket s.npacket fresh with npacket := s.npacket + 1 })
  | p :: l => if (s.packet p).size ≠ -1 then .error .assert else .ok (p, { s.setPacket p fresh with freePacket := l })

/-- `first` and `last` are `0xDeadBeef` afterwards, which nothing reads. -/
def packetfree (s : State) (p : Nat) : Except Fault State := do
  s.notfree p
  let (h, _) ← freeLoop s.rounds s.heap (s.packet p).first 0
  let s := { s with heap := h }
  let s := s.setPacket p { s.packet p with first := none, last := none, size := -1 }
  return { s with freePacket := p :: s.freePacket }

/-- `for(; offset >= FRAGSIZE(f); f=f->next) offset -= FRAGSIZE(f);` -/
def skipLoop (h : Heap) : Nat → Option FragId → Int → Except Fault (FragId × Int)
  | 0, _, _ => .error .rounds
  | k + 1, f, offset => do
    let f ← deref f
    if offset ≥ h.fragsize f then skipLoop h k (h.frag f).next (offset - h.fragsize f) else return (f, offset)

/-- `while(n > 0)` of `packetdup`: the last fragment, `n` and `asize` at the end. -/
def dupLoop (pp : Nat) : Nat → Heap → FragId → FragId → Int → Int → Except Fault (Heap × FragId × Int × Int)
  | 0, _, _, _, _, _ => .error .rounds
  | k + 1, h, f, ff, n, asize => do
    if n ≤ 0 then return (h, ff, n, asize)
    let f ← deref (h.frag f).next
    let (ff', h) ← fragdup h pp f
    let h := h.setFrag ff { h.frag ff with next := some ff' }
    dupLoop pp k h f ff' (n - h.fragsize ff') (asize + h.fragasize ff')

def packetdup (s : State) (p : Nat) (offset n : Int) : Except Fault (Option Nat × State) := do
  s.notfree p
  if offset < 0 ∨ n < 0 ∨ int32 (offset + n) > (s.packet p).size then return (none, s)
  let (pp, s) ← packetalloc s
  if n = 0 then return (some pp, s)
  let (f, offset) ← skipLoop s.heap s.rounds (s.packet p).first offset
  let (ff, h) ← fragdup s.heap pp f
  let h := h.setFrag ff { h.frag ff with rp := (h.frag ff).rp + offset.toNat }
  let first := ff
  let asize := (s.packet pp).asize + h.fragasize ff
  let (h, ff, n', asize) ← dupLoop pp s.rounds h f ff (n - h.fragsize ff) asize
  -- n is not positive here
  let h := h.setFrag ff { h.frag ff with wp := ((h.frag ff).wp + n').toNat, next := none }
  let s := { s with heap := h }
  return (some pp, s.setPacket pp { size := n, asize := asize, first := some first, last := some ff })

/-- `for(f=p->first; n > 0 && n >= FRAGSIZE(f); f=f->next)`: `f`, `ff`, `n`, and what moves between the `asize`s. -/
def splitLoop (h : Heap) : Nat → Option FragId → Option FragId → Int → Int →
    Except Fault (Option FragId × Option FragId × Int × Int)
  | 0, _, _, _, _ => .error .rounds
  | k + 1, f, ff, n, asize =>
    if n > 0 then do
      let f ← deref f
      if n ≥ h.fragsize f then splitLoop h k (h.frag f).next (some f) (n - h.fragsize f) (asize + h.fragasize f)
      else return (some f, ff, n, asize)
    else return (f, ff, n, asize)

/-- Where `n` is in a fragment, this is cut in two: `f`, `ff`, and the `asize` that both have then. -/
def splitFrag (h : Heap) (p : Nat) (f ff : Option FragId) (n : Int) : Except Fault (Option FragId × FragId × Int × Heap) :=
  if n > 0 then do
    let ff ← deref f
    let (f, h) ← fragdup h p ff
    let shared := h.fragasize ff
    let h := h.setFrag ff { h.frag ff with wp := (h.frag ff).rp + n.toNat }
    let h := h.setFrag f { h.frag f with rp := (h.frag f).rp + n.toNat }
    return (some f, ff, shared, h)
  else do
    let ff ← deref ff
    return (f, ff, 0, h)

/-- `p->last`: `if(f == nil || f->next == nil) p->last = f;` -/
def splitLast (h : Heap) (f last : Option FragId) : Option FragId :=
  match f with
  | none => none
  | some g => if (h.frag g).next = none then f else last

def packetsplit (s : State) (p : Nat) (n : Int) : Except Fault (Option Nat × State) := do
  s.notfree p
  if n < 0 ∨ n > (s.packet p).size then return (none, s)
  let (pp, s) ← packetalloc s
  if n = 0 then return (some pp, s)
  let (f, ff, n', moved) ← splitLoop s.heap s.rounds (s.packet p).first none n 0
  let (f, ff, shared, h) ← splitFrag s.heap p f ff n'
  let h := h.setFrag ff { h.frag ff with next := none }
  let q := s.packet p
  let s := { s with heap := h }
  let s := s.setPacket pp { size := n, asize := moved + shared, first := q.first, last := some ff }
  return (some pp, s.setPacket p { size := q.size - n, asize := q.asize - moved, first := f, last := splitLast h f q.last })

/-- `for(f=p->first; offset >= FRAGSIZE(f); f=ff)` of `packettrim` -/
def trimLoop : Nat → Heap → Option FragId → Int → Int → Except Fault (Heap × FragId × Int × Int)
  | 0, _, _, _, _ => .error .rounds
  | k + 1, h, f, offset, asize => do
    let f ← deref f
    if offset ≥ h.fragsize f then
      let asize := asize - h.fragasize f
      let offset := offset - h.fragsize f
      let ff := (h.frag f).next
      let h ← fragfree h f
      trimLoop k h ff offset asize
    else return (h, f, offset, asize)

/-- `for(; n > 0 && n > FRAGSIZE(f); f=f->next) n -= FRAGSIZE(f);` -/
def middleLoop (h : Heap) : Nat → FragId → Int → Except Fault (FragId × Int)
  | 0, _, _ => .error .rounds
  | k + 1, f, n =>
    if n > 0 ∧ n > h.fragsize f then do
      let f' ← deref (h.frag f).next
      middleLoop h k f' (n - h.fragsize f)
    else .ok (f, n)

/-- The error is the result -1. -/
def packettrim (s : State) (p : Nat) (offset n : Int) : Except Fault (Bool × State) := do
  s.notfree p
  if offset < 0 ∨ offset > (s.packet p).size then return (false, s)
  if n < 0 ∨ int32 (offset + n) > (s.packet p).size then return (false, s)
  let q := s.packet p
  if n = 0 then
    let (h, _) ← freeLoop s.rounds s.heap q.first 0
    let s := { s with heap := h }
    return (true, s.setPacket p { size := n, asize := 0, first := none, last := none })
  let (h, f, offset, asize) ← trimLoop s.rounds s.heap q.first offset q.asize
  let h := h.setFrag f { h.frag f with rp := (h.frag f).rp + offset.toNat }
  let first := f
  let (f, n') ← middleLoop h s.rounds f n
  let ff := (h.frag f).next
  let h := h.setFrag f { h.frag f with wp := (h.frag f).rp + n'.toNat, next := none }
  let (h, asize) ← freeLoop s.rounds h ff asize
  let s := { s with heap := h }
  return (true, s.setPacket p { size := n, asize := asize, first := some first, last := some f })

/-- `if(n <= f->rp - f->mem->bp)` of `packetheader`: there is room in the memory before the first fragment. -/
def headerInPlace (s : State) (p : Nat) (f : FragId) (m : Nat) (n : Int) : Except Fault (Option (Nat × Nat) × State) := do
  -- otherwise `memhead`, which aborts
  if (s.heap.mem m).ref ≠ 1 then throw .abort
  let s := { s with heap := s.heap.setFrag f { s.heap.frag f with rp := (s.heap.frag f).rp - n.toNat } }
  s.notfree p
  return (some (m, (s.heap.frag f).rp), s)

/-- A new first fragment. -/
def headerAlloc (s : State) (p : Nat) (n : Int) : Except Fault (Option (Nat × Nat) × State) := do
  let q := s.packet p
  let (f, h) ← fragalloc s.heap p n .pEnd q.first
  let s := { s with heap := h }
  let last := if q.first = none then some f else q.last
  let s := s.setPacket p { q with asize := q.asize + h.fragasize f, first := some f, last := last }
  s.notfree p
  let m ← deref (h.frag f).mem
  return (some (m, (h.frag f).rp), s)

/-- What is returned is where the space is: a memory and an offset. -/
def packetheader (s : State) (p : Nat) (n : Int) : Except Fault (Option (Nat × Nat) × State) := do
  s.notfree p
  if n ≤ 0 ∨ n > maxFragSize then return (none, s)
  let s := s.setPacket p { s.packet p with size := int32 ((s.packet p).size + n) }
  match (s.packet p).first with
  | some f =>
    let m ← deref (s.heap.frag f).mem
    if n ≤ (s.heap.frag f).rp then headerInPlace s p f m n else headerAlloc s p n
  | none => headerAlloc s p n

/-- `p->first = f` or `p->last->next = f`, and `p->last = f` -/
def State.link (s : State) (p : Nat) (f : FragId) : Except Fault State := do
  let q := s.packet p
  match q.first with
  | none => return s.setPacket p { q with first := some f, last := some f }
  | some _ => do
    let last ← deref q.last
    let s := { s with heap := s.heap.setFrag last { s.heap.frag last with next := some f } }
    return s.setPacket p { q with last := some f }

/-- `if(n <= f->mem->ep - f->wp)` of `packettrailer`: there is room in the memory behind the last fragment. -/
def trailerInPlace (s : State) (p : Nat) (f : FragId) (m : Nat) (n : Int) : Except Fault (Option (Nat × Nat) × State) := do
  -- otherwise `memtail`, which aborts
  if (s.heap.mem m).ref ≠ 1 then throw .abort
  let wp := (s.heap.frag f).wp
  let s := { s with heap := s.heap.setFrag f { s.heap.frag f with wp := wp + n.toNat } }
  s.notfree p
  return (some (m, wp), s)

/-- A new last fragment. -/
def trailerAlloc (s : State) (p : Nat) (n : Int) : Except Fault (Option (Nat × Nat) × State) := do
  let q := s.packet p
  let (f, h) ← fragalloc s.heap p n (if q.first = none then .pMiddle else .pFront) none
  let s := { s with heap := h }
  let s := s.setPacket p { q with asize := q.asize + h.fragasize f }
  let s ← s.link p f
  s.notfree p
  let m ← deref (h.frag f).mem
  return (some (m, (h.frag f).rp), s)

def packettrailer (s : State) (p : Nat) (n : Int) : Except Fault (Option (Nat × Nat) × State) := do
  s.notfree p
  if n ≤ 0 ∨ n > maxFragSize then return (none, s)
  let s := s.setPacket p { s.packet p with size := int32 ((s.packet p).size + n) }
  match (s.packet p).first with
  | some _ =>
    let f ← deref (s.packet p).last
    let m ← deref (s.heap.frag f).mem
    if n ≤ (s.heap.mem m).size - (s.heap.frag f).wp then trailerInPlace s p f m n else trailerAlloc s p n
  | none => trailerAlloc s p n

/-- `while(n > 0)` of `packetprefix`, in at most `k` rounds. The bytes left are the first `n` of `buf`. -/
def prefixLoop (p : Nat) : Nat → State → List UInt8 → Int → Except Fault State
  | 0, s, _, _ => .ok s
  | k + 1, s, buf, n => do
    if n ≤ 0 then return s
    let nn : Int := if n > maxFragSize then maxFragSize else n
    let q := s.packet p
    let (f, h) ← fragalloc s.heap p nn .pEnd q.first
    let last := if q.first = none then some f else q.last
    let s := s.setPacket p { q with asize := q.asize + h.fragasize f, first := some f, last := last }
    let m ← deref (h.frag f).mem
    let s := { s with heap := h.store m (h.frag f).rp ((buf.drop (n - nn).toNat).take nn.toNat) }
    prefixLoop p k s buf (n - nn)

def packetprefix (s : State) (p : Nat) (buf : List UInt8) (n : Int) : Except Fault State := do
  s.notfree p
  if n ≤ 0 then return s
  let q := { s.packet p with size := int32 ((s.packet p).size + n) }
  let s := s.setPacket p q
  let (s, n) ← match q.first with
    | none => pure (s, n)
    | some f => do
      let m ← deref (s.heap.frag f).mem
      let rp := (s.heap.frag f).rp
      let nn : Int := if rp > n then n else rp
      -- otherwise `memhead`, which aborts
      if (s.heap.mem m).ref ≠ 1 then throw .abort
      let h := s.heap.setFrag f { s.heap.frag f with rp := rp - nn.toNat }
      let h := h.store m (rp - nn.toNat) ((buf.drop (n - nn).toNat).take nn.toNat)
      pure ({ s with heap := h }, n - nn)
  let s ← prefixLoop p n.toNat s buf n
  s.notfree p
  return s

/-- `while(n > 0)` of `packetappend`, in at most `k` rounds. -/
def appendLoop (p : Nat) : Nat → State → List UInt8 → Int → Except Fault State
  | 0, s, _, _ => .ok s
  | k + 1, s, buf, n => do
    if n ≤ 0 then return s
    let nn : Int := if n > maxFragSize then maxFragSize else n
    let (f, h) ← fragalloc s.heap p nn (if (s.packet p).first = none then .pMiddle else .pFront) none
    let s := { s with heap := h }
    let s ← s.link p f
    let m ← deref (s.heap.frag f).mem
    let s := { s with heap := s.heap.store m (s.heap.frag f).rp (buf.take nn.toNat) }
    appendLoop p k s (buf.drop nn.toNat) (n - nn)

def packetappend (s : State) (p : Nat) (buf : List UInt8) (n : Int) : Except Fault State := do
  s.notfree p
  if n ≤ 0 then return s
  let q := { s.packet p with size := int32 ((s.packet p).size + n) }
  let s := s.setPacket p q
  let (s, buf, n) ← match q.first with
    | none => pure (s, buf, n)
    | some _ => do
      let f ← deref q.last
      let m ← deref (s.heap.frag f).mem
      let wp := (s.heap.frag f).wp
      let nn : Int := (s.heap.mem m).size - wp
      let nn := if nn > n then n else nn
      -- otherwise `memtail`, which aborts
      if (s.heap.mem m).ref ≠ 1 then throw .abort
      let h := s.heap.store m wp (buf.take nn.toNat)
      let h := h.setFrag f { h.frag f with wp := wp + nn.toNat }
      pure ({ s with heap := h }, buf.drop nn.toNat, n - nn)
  let s ← appendLoop p n.toNat s buf n
  s.notfree p
  return s

/-- `if(p->first != nil) p->last->next = pp->first; else p->first = pp->first;` -/
def State.join (s : State) (p : Nat) (first : Option FragId) : Except Fault State := do
  match (s.packet p).first with
  | some _ =>
    let last ← deref (s.packet p).last
    return { s with heap := s.heap.setFrag last { s.heap.frag last with next := first } }
  | none => return s.setPacket p { s.packet p with first := first }

def packetconcat (s : State) (p pp : Nat) : Except Fault State := do
  s.notfree p
  s.notfree pp
  let q := s.packet pp
  if q.size = 0 then return s
  let r := s.packet p
  let s := s.setPacket p { r with size := int32 (r.size + q.size), asize := r.asize + q.asize }
  let s ← s.join p q.first
  let s := s.setPacket p { s.packet p with last := q.last }
  let s := s.setPacket pp { size := 0, asize := 0, first := none, last := none }
  s.notfree p
  s.notfree pp
  return s

/-- `for(b=buf; n>0; n -= nn)` of `packetpeek`: what is stored at `buf`. -/
def peekLoop (h : Heap) : Nat → Option FragId → Int → Int → Except Fault (List UInt8)
  | 0, _, _, _ => .error .rounds
  | k + 1, f, offset, n =>
    if n > 0 then do
      let f ← deref f
      let nn := h.fragsize f - offset
      let nn := if nn > n then n else nn
      let b ← peekLoop h k (h.frag f).next 0 (n - nn)
      return Memory.load (h.dataOf f) ((h.frag f).rp + offset.toNat) nn.toNat ++ b
    else return []

/-- What is stored at `buf`; `none` is the result -1. -/
def packetcopy (s : State) (p : Nat) (offset n : Int) : Except Fault (Option (List UInt8)) := do
  s.notfree p
  if n = 0 then return some []
  if offset < 0 ∨ offset ≥ (s.packet p).size then return none
  if n < 0 ∨ int32 (offset + n) > (s.packet p).size then return none
  let (f, offset) ← skipLoop s.heap s.rounds (s.packet p).first offset
  if int32 (offset + n) ≤ s.heap.fragsize f then
    return some (Memory.load (s.heap.dataOf f) ((s.heap.frag f).rp + offset.toNat) n.toNat)
  let b ← peekLoop s.heap s.rounds (some f) offset n
  return some b

/-- With a `buf` or without; what is stored there. -/
def packetconsume (s : State) (p : Nat) (buf : Bool) (n : Int) : Except Fault (Option (List UInt8) × State) := do
  s.notfree p
  let b ← if buf then packetcopy s p 0 n else pure (some [])
  match b with
  | none => return (none, s)
  | some b => do
    let (ok, s) ← packettrim s p n (int32 ((s.packet p).size - n))
    return (if ok then some b else none, s)

/-- The sign of `memcmp`. -/
def memcmp : List UInt8 → List UInt8 → Int
  | a :: l, b :: l' => if a < b then -1 else if b < a then 1 else memcmp l l'
  | _, _ => 0

/-- `f->wp - n0` and `n` bytes from there. -/
def Heap.back (h : Heap) (f : FragId) (n0 n : Int) : List UInt8 :=
  Memory.load (h.dataOf f) ((h.frag f).wp - n0.toNat) n.toNat

/-- `for(;;)` of `packetcmp` -/
def cmpLoop (h : Heap) : Nat → FragId → FragId → Int → Int → Except Fault Int
  | 0, _, _, _, _ => .error .rounds
  | k + 1, f0, f1, n0, n1 =>
    if n0 < n1 then
      let x := memcmp (h.back f0 n0 n0) (h.back f1 n1 n0)
      if x ≠ 0 then .ok x
      else
        match (h.frag f0).next with
        | none => .ok (-1)
        | some f0 => cmpLoop h k f0 f1 (h.fragsize f0) (n1 - n0)
    else if n0 > n1 then
      let x := memcmp (h.back f0 n0 n1) (h.back f1 n1 n1)
      if x ≠ 0 then .ok x
      else
        match (h.frag f1).next with
        | none => .ok 1
        | some f1 => cmpLoop h k f0 f1 (n0 - n1) (h.fragsize f1)
    else
      let x := memcmp (h.back f0 n0 n0) (h.back f1 n1 n0)
      if x ≠ 0 then .ok x
      else
        match (h.frag f0).next, (h.frag f1).next with
        | none, none => .ok 0
        | none, some _ => .ok (-1)
        | some _, none => .ok 1
        | some f0, some f1 => cmpLoop h k f0 f1 (h.fragsize f0) (h.fragsize f1)

/-- The sign of the result. -/
def packetcmp (s : State) (p0 p1 : Nat) : Except Fault Int := do
  s.notfree p0
  s.notfree p1
  match (s.packet p0).first, (s.packet p1).first with
  | none, none => return 0
  | none, some _ => return -1
  | some _, none => return 1
  | some f0, some f1 => cmpLoop s.heap (2 * s.rounds) f0 f1 (s.heap.fragsize f0) (s.heap.fragsize f1)

/-- `packetforeign(buf, n, free, a)` -/
def packetforeign (s : State) (buf : Nat) (n : Int) (free a : Option Nat) : Except Fault (Nat × State) := do
  let (p, s) ← packetalloc s
  let (f, h) ← fragalloc s.heap p 0 .pFront none
  let h := h.setFrag f { h.frag f with free := free, a := a, next := none, rp := buf, wp := (buf + n).toNat }
  let s := { s with heap := h }
  let s := s.setPacket p { s.packet p with first := some f, last := some f, size := n }
  s.notfree p
  return (p, s)

/-! ## Runs -/

/-- Nothing allocated: what `vtbrk` gives is zero. -/
def State.init (text : Nat → UInt8) : State :=
  let mem : Mem := { ref := 0, size := 0, rp := 0, wp := 0, data := fun _ => 0 }
  let frag : Frag := { state := .fragLocalFree, mem := none, rp := 0, wp := 0, next := none, free := none, a := none }
  let heap : Heap := { frag := fun _ => frag, nfrag := 0, freeFrag := none, mem := fun _ => mem, nmem := 0,
                       smallmem := [], bigmem := [], text := text }
  { heap := heap, packet := fun _ => { size := 0, asize := 0, first := none, last := none }, npacket := 0, freePacket := [] }

/-- The calls, on packets that are not free. The bytes that the caller puts in the space it was given come
with `header` and `trailer`. -/
inductive Op where
  | alloc
  | append (p : Nat) (buf : List UInt8)
  | prefixed (p : Nat) (buf : List UInt8)
  | header (p : Nat) (n : Int) (fill : List UInt8)
  | trailer (p : Nat) (n : Int) (fill : List UInt8)
  | dup (p : Nat) (offset n : Int)
  | split (p : Nat) (n : Int)
  | trim (p : Nat) (offset n : Int)
  | consume (p : Nat) (buf : Bool) (n : Int)
  | concat (p pp : Nat)
  | copy (p : Nat) (offset n : Int)
  | cmp (p pp : Nat)
  | free (p : Nat)
  | foreign (buf : Nat) (n : Int) (free a : Option Nat)

/-- What a call gives back. -/
inductive Res where
  | done
  | fail
  | packet (p : Nat)
  | bytes (b : List UInt8)
  | sign (x : Int)

def fillSpace (fill : List UInt8) : Option (Nat × Nat) × State → Res × State
  | (none, s) => (.fail, s)
  | (some (m, pos), s) => (.done, { s with heap := s.heap.store m pos fill })

def newPacket : Option Nat × State → Res × State
  | (none, s) => (.fail, s)
  | (some p, s) => (.packet p, s)

def step (s : State) : Op → Except Fault (Res × State)
  | .alloc => do
    let (p, s) ← packetalloc s
    return (.packet p, s)
  | .append p buf => do return (.done, ← packetappend s p buf buf.length)
  | .prefixed p buf => do return (.done, ← packetprefix s p buf buf.length)
  | .header p n fill => do return fillSpace fill (← packetheader s p n)
  | .trailer p n fill => do return fillSpace fill (← packettrailer s p n)
  | .dup p offset n => do return newPacket (← packetdup s p offset n)
  | .split p n => do return newPacket (← packetsplit s p n)
  | .trim p offset n => do
    let (ok, s) ← packettrim s p offset n
    return (if ok then .done else .fail, s)
  | .consume p buf n => do
    let (b, s) ← packetconsume s p buf n
    return (match b with | none => .fail | some b => .bytes b, s)
  | .concat p pp => do return (.done, ← packetconcat s p pp)
  | .copy p offset n => do
    return (match ← packetcopy s p offset n with | none => .fail | some b => .bytes b, s)
  | .cmp p pp => do return (.sign (← packetcmp s p pp), s)
  | .free p => do return (.done, ← packetfree s p)
  | .foreign buf n free a => do
    let (p, s) ← packetforeign s buf n free a
    return (.packet p, s)

end Plan9.Venti.Packets
