/-
The victims of fossil's block cache (`fossil/cache.c`): the heap of the blocks that
nobody holds, which gives the block to be used again.

Blocks are numbered as in `c->blocks`. The clock `now` and the times of use are words, and
are compared as `used - now`, which goes round with the clock. Of `blockPut` the last
reference is put, and of the states of a block only what that looks at is kept; that
`heapwait` is woken is not modelled.
-/
import Mathlib.Data.UInt
import Plan9.Lib.Run

namespace Plan9.Fossil

/-- `heap` is meant up to `nheap`. `bheap` is the field `heap` of a block, `none` for `BadHeap`. -/
structure Victims where
  now : UInt32
  nheap : Nat
  heap : Nat → Nat
  bheap : Nat → Option Nat
  used : Nat → UInt32

namespace Victims

/-- `b->used - now` -/
def key (c : Victims) (b : Nat) : UInt32 := c.used b - c.now

/-- `c->heap[i] = b; b->heap = i` -/
def put (c : Victims) (i b : Nat) : Victims :=
  { c with heap := Function.update c.heap i b, bheap := Function.update c.bheap b (some i) }

/-- `for(; i != 0; i = p)`, for fewer than `i` rounds. -/
def upHeapLoop (b : Nat) : Nat → Nat → Victims → Nat × Victims
  | 0, i, c => (i, c)
  | fuel + 1, i, c =>
    if i = 0 then (i, c)
    else
      let p := (i - 1) / 2
      let bb := c.heap p
      if c.key b ≥ c.key bb then (i, c) else upHeapLoop b fuel p (c.put i bb)

def upHeap (i b : Nat) (c : Victims) : Nat × Victims :=
  let (i, c) := upHeapLoop b i i c
  (i, c.put i b)

/-- `for(; ; i = k)`, for at most `c->nheap` rounds. -/
def downHeapLoop (b : Nat) : Nat → Nat → Victims → Nat × Victims
  | 0, i, c => (i, c)
  | fuel + 1, i, c =>
    let k := 2 * i + 1
    if k ≥ c.nheap then (i, c)
    else
      let k := if k + 1 < c.nheap ∧ c.key (c.heap k) > c.key (c.heap (k + 1)) then k + 1 else k
      let bb := c.heap k
      if c.key b ≤ c.key bb then (i, c) else downHeapLoop b fuel k (c.put i bb)

def downHeap (i b : Nat) (c : Victims) : Nat × Victims :=
  let (i, c) := downHeapLoop b c.nheap i c
  (i, c.put i b)

/-- `b->heap = BadHeap; c->nheap--` -/
def takeOut (c : Victims) (b : Nat) : Victims :=
  { c with bheap := Function.update c.bheap b none, nheap := c.nheap - 1 }

def heapDel (b : Nat) (c : Victims) : Victims :=
  match c.bheap b with
  | none => c
  | some si =>
    let c := c.takeOut b
    if si = c.nheap then c
    else
      let b := c.heap c.nheap
      let (i, c) := upHeap si b c
      if i = si then (downHeap i b c).2 else c

/-- It is asserted that the block is not in the heap. -/
def heapIns (b : Nat) (c : Victims) : Option Victims :=
  if c.bheap b = none then some (upHeap c.nheap b { c with nheap := c.nheap + 1 }).2 else none

/-- What `blockPut` looks at: the block is empty or has only its label, is to be written, or is anything else. -/
inductive PutState
  | unused
  | dirty
  | other

def blockPut (b : Nat) (iostate : PutState) (c : Victims) : Option Victims :=
  match iostate with
  | .other => heapIns b { c with used := Function.update c.used b c.now, now := c.now + 1 }
  | .unused =>
    if c.nheap = 0 then heapIns b { c with used := Function.update c.used b c.now, now := c.now + 1 }
    else heapIns b { c with used := Function.update c.used b (c.used (c.heap 0)) }
  | .dirty => some c

/-- What `cacheAlloc` leaves: all blocks, which nobody has used. -/
def cacheAlloc (nblocks : Nat) : Victims :=
  ⟨0, nblocks, fun i => i, fun b => if b < nblocks then some b else none, fun _ => 0⟩

end Victims

/-! ## Runs -/

/-- Beside the cache, how often the clock has gone on, and what it had come to when a block was last used. -/
structure Clocked where
  c : Victims
  time : Nat
  last : Nat → Nat

/-- `used` and `now` are what a word holds of the times. -/
def Clocked.Shows (s : Clocked) : Prop := s.c.now = UInt32.ofNat s.time ∧ ∀ b, s.c.used b = UInt32.ofNat (s.last b)

inductive VictimOp
  | tick
  | heapIns (b : Nat)
  | heapDel (b : Nat)
  | blockPut (b : Nat) (iostate : Victims.PutState)

/-- When `blockPut` has a block used last: now, or, where nothing was read into it, when the first victim was. -/
def Clocked.put (s : Clocked) (b : Nat) : Victims.PutState → Clocked
  | .other => { s with time := s.time + 1, last := Function.update s.last b s.time }
  | .unused =>
    if s.c.nheap = 0 then { s with time := s.time + 1, last := Function.update s.last b s.time }
    else { s with last := Function.update s.last b (s.last (s.c.heap 0)) }
  | .dirty => s

/-- The clock may go on at any time. An operation on one of the `n` blocks is a step if no assertion fails. -/
inductive VictimStep (n : Nat) (s : Clocked) : VictimOp → Clocked → Prop
  | tick : VictimStep n s .tick { s with c := { s.c with now := s.c.now + 1 }, time := s.time + 1 }
  | heapIns {b : Nat} {c : Victims} : b < n → s.c.heapIns b = some c → VictimStep n s (.heapIns b) { s with c := c }
  | heapDel {b : Nat} : b < n → VictimStep n s (.heapDel b) { s with c := s.c.heapDel b }
  | blockPut {b : Nat} {iostate : Victims.PutState} {c : Victims} : b < n → s.c.blockPut b iostate = some c →
      VictimStep n s (.blockPut b iostate) { s.put b iostate with c := c }

/-- The cache when it was allocated, or an empty heap and blocks that were used at any times before. -/
inductive VictimStart (n : Nat) : Clocked → Prop
  | alloc : VictimStart n ⟨.cacheAlloc n, 0, fun _ => 0⟩
  | empty {s : Clocked} : s.c.nheap = 0 → (∀ b, s.c.bheap b = none) → s.Shows → (∀ b, s.last b < s.time) → VictimStart n s

/-- Each block in the heap was last used fewer than `2 ^ 32` ticks before the last tick. -/
def Clocked.Recent (s : Clocked) : Prop := ∀ i < s.c.nheap, s.time ≤ s.last (s.c.heap i) + 2 ^ 32

instance (s : Clocked) : Decidable s.Recent :=
  inferInstanceAs (Decidable (∀ i < s.c.nheap, s.time ≤ s.last (s.c.heap i) + 2 ^ 32))

/-- What a run comes to in which this is always so. -/
def VictimsReached (n : Nat) : Clocked → Prop :=
  Trans.Reachable (VictimStart n) (fun s a s' => VictimStep n s a s' ∧ s'.Recent)

end Plan9.Fossil
