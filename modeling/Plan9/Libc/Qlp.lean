/-
The slots processes wait in (`QLp` of `9sys/qlock.c`) and the queues the locks
keep of them.

The slots are one static array, `ql.x`, shared by every lock of the program; a
process takes a free one (`getqlp`), chains it into a queue and calls
rendezvous on its address. A pointer to a slot is its index. `getqlp` aborts
when it has been once round the array; so do the functions here, with `none`.
-/
import Mathlib.Data.Fintype.Card
import Plan9.Lib.Chain

namespace Plan9.Libc

open Function

/-- What the process in a slot waits for, `p->state`. -/
inductive QState
  | Queuing
  | QueuingR
  | QueuingW
  | Sleeping
  deriving DecidableEq, Repr

/-- A `QLp*` into `ql.x`. -/
abbrev QLp := Fin 1024

instance QLp.neZero : NeZero 1024 := ⟨by decide⟩

structure QLpCell where
  inuse : Bool
  next : Option QLp
  state : QState

structure Ql where
  /-- The slot taken last, where the next search starts. -/
  p : QLp
  x : QLp → QLpCell

/-- `head` and `tail` of a `QLock`, a `RWLock` or a `Rendez`. -/
structure WaitQ where
  head : Option QLp
  tail : Option QLp
  deriving DecidableEq, Repr

namespace Ql

def inuse (ql : Ql) (a : QLp) : Bool := (ql.x a).inuse

def next (ql : Ql) (a : QLp) : Option QLp := (ql.x a).next

def state (ql : Ql) (a : QLp) : QState := (ql.x a).state

def setInuse (ql : Ql) (a : QLp) (b : Bool) : Ql :=
  { ql with x := Function.update ql.x a { ql.x a with inuse := b } }

def setNext (ql : Ql) (a : QLp) (n : Option QLp) : Ql :=
  { ql with x := Function.update ql.x a { ql.x a with next := n } }

def setState (ql : Ql) (a : QLp) (st : QState) : Ql :=
  { ql with x := Function.update ql.x a { ql.x a with state := st } }

@[simp] theorem inuse_setInuse (ql : Ql) (a : QLp) (b : Bool) :
    (ql.setInuse a b).inuse = update ql.inuse a b := by
  funext c; by_cases h : c = a <;> simp [inuse, setInuse, update, h]

@[simp] theorem next_setInuse (ql : Ql) (a : QLp) (b : Bool) : (ql.setInuse a b).next = ql.next := by
  funext c; by_cases h : c = a <;> simp [next, setInuse, update, h]

@[simp] theorem state_setInuse (ql : Ql) (a : QLp) (b : Bool) : (ql.setInuse a b).state = ql.state := by
  funext c; by_cases h : c = a <;> simp [state, setInuse, update, h]

@[simp] theorem inuse_setNext (ql : Ql) (a : QLp) (n : Option QLp) : (ql.setNext a n).inuse = ql.inuse := by
  funext c; by_cases h : c = a <;> simp [inuse, setNext, update, h]

@[simp] theorem next_setNext (ql : Ql) (a : QLp) (n : Option QLp) :
    (ql.setNext a n).next = update ql.next a n := by
  funext c; by_cases h : c = a <;> simp [next, setNext, update, h]

@[simp] theorem state_setNext (ql : Ql) (a : QLp) (n : Option QLp) : (ql.setNext a n).state = ql.state := by
  funext c; by_cases h : c = a <;> simp [state, setNext, update, h]

@[simp] theorem inuse_setState (ql : Ql) (a : QLp) (st : QState) : (ql.setState a st).inuse = ql.inuse := by
  funext c; by_cases h : c = a <;> simp [inuse, setState, update, h]

@[simp] theorem next_setState (ql : Ql) (a : QLp) (st : QState) : (ql.setState a st).next = ql.next := by
  funext c; by_cases h : c = a <;> simp [next, setState, update, h]

@[simp] theorem state_setState (ql : Ql) (a : QLp) (st : QState) :
    (ql.setState a st).state = update ql.state a st := by
  funext c; by_cases h : c = a <;> simp [state, setState, update, h]

end Ql

/-! ## Taking a slot -/

/-- The loop of `getqlp` from slot `p` on, for at most `n` slots: it gives up on coming round to `op`. -/
def getqlpFrom (inuse : QLp → Bool) (op : QLp) : Nat → QLp → Option QLp
  | 0, _ => none
  | n + 1, p => if p = op then none else if inuse p = false then some p else getqlpFrom inuse op n (p + 1)

def getqlp (ql : Ql) : Option (QLp × Ql) :=
  match getqlpFrom ql.inuse ql.p 1024 (ql.p + 1) with
  | none => none
  | some p => some (p, ({ ql with p := p }.setInuse p true).setNext p none)

theorem getqlpFrom_free {inuse : QLp → Bool} {op : QLp} : ∀ {n : Nat} {p mp : QLp},
    getqlpFrom inuse op n p = some mp → inuse mp = false
  | 0, _, _, h => by simp [getqlpFrom] at h
  | n + 1, p, mp, h => by
    rw [getqlpFrom] at h
    split at h
    · exact absurd h (by simp)
    · split at h
      · cases h; assumption
      · exact getqlpFrom_free h

variable {q : WaitQ} {ql : Ql} {l : List QLp} {mp : QLp}

theorem getqlp_eq {ql' : Ql} (h : getqlp ql = some (mp, ql')) :
    ql.inuse mp = false ∧ ql'.inuse = update ql.inuse mp true ∧
    ql'.next = update ql.next mp none ∧ ql'.state = ql.state := by
  rw [getqlp] at h
  cases hf : getqlpFrom ql.inuse ql.p 1024 (ql.p + 1) with
  | none => rw [hf] at h; exact absurd h (by simp)
  | some p =>
    rw [hf] at h
    obtain ⟨rfl, rfl⟩ := h
    refine ⟨getqlpFrom_free hf, ?_, ?_, ?_⟩
    · rw [Ql.inuse_setNext, Ql.inuse_setInuse]; rfl
    · rw [Ql.next_setNext, Ql.next_setInuse]; rfl
    · rw [Ql.state_setNext, Ql.state_setInuse]; rfl

/-! ## The two ends of a queue -/

/-- `p = q->tail; if(p == nil) q->head = mp; else p->next = mp; q->tail = mp;` -/
def WaitQ.link (q : WaitQ) (mp : QLp) (ql : Ql) : WaitQ × Ql :=
  match q.tail with
  | none => (⟨some mp, some mp⟩, ql)
  | some p => (⟨q.head, some mp⟩, ql.setNext p (some mp))

/-- `q->head = p->next; if(q->head == nil) q->tail = nil;` -/
def WaitQ.unlink (q : WaitQ) (p : QLp) (ql : Ql) : WaitQ :=
  ⟨ql.next p, if (ql.next p).isNone then none else q.tail⟩

/-- The slots of `l`, in order. -/
def WaitQ.Holds (q : WaitQ) (ql : Ql) (l : List QLp) : Prop := Chain.IsQueue ql.next q.head q.tail l

/-- The queue as a list, read off the pointers. -/
def WaitQ.toList (q : WaitQ) (ql : Ql) : List QLp := Chain.toList ql.next 1024 q.head

theorem WaitQ.Holds.length_le (h : q.Holds ql l) : l.length ≤ 1024 := by
  have hle := List.Nodup.length_le_card h.nodup
  rwa [Fintype.card_fin] at hle

theorem WaitQ.Holds.toList_eq (h : q.Holds ql l) : q.toList ql = l :=
  h.linked.toList_eq h.length_le

theorem WaitQ.Holds.congr {ql' : Ql} (h : q.Holds ql l)
    (hn : ∀ a ∈ l, ql'.next a = ql.next a) : q.Holds ql' l :=
  Chain.IsQueue.congr h hn

theorem WaitQ.Holds.link (h : q.Holds ql l) (hmp : mp ∉ l)
    (hn : ql.next mp = none) : (q.link mp ql).1.Holds (q.link mp ql).2 (l ++ [mp]) := by
  unfold WaitQ.Holds at h
  unfold WaitQ.Holds WaitQ.link
  cases ht : q.tail with
  | none =>
    rw [ht] at h
    exact h.enqueue_empty hn
  | some p =>
    rw [ht] at h
    simpa using h.enqueue hmp hn

theorem WaitQ.link_frame (h : q.Holds ql l) :
    (q.link mp ql).2.inuse = ql.inuse ∧ (q.link mp ql).2.state = ql.state ∧
    ∀ a, a ∉ l → (q.link mp ql).2.next a = ql.next a := by
  have ht := h.tail
  unfold WaitQ.link
  cases htail : q.tail with
  | none => exact ⟨rfl, rfl, fun _ _ => rfl⟩
  | some p =>
    refine ⟨Ql.inuse_setNext _ _ _, Ql.state_setNext _ _ _, ?_⟩
    intro a ha
    have hp : p ∈ l := List.mem_of_getLast? (ht.symm.trans htail)
    have hne : a ≠ p := fun e => ha (e ▸ hp)
    rw [Ql.next_setNext, update_of_ne hne]

theorem WaitQ.Holds.unlink {p : QLp} (h : q.Holds ql (p :: l)) :
    (q.unlink p ql).Holds ql l :=
  Chain.IsQueue.dequeue h

end Plan9.Libc
