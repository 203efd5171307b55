/-
The readers-writer lock of `9sys/qlock.c`, and the processes that use it.

Each function is what it does under `q->lock`; the slot it then calls
rendezvous on is part of its result, and `none` is `abort()`. `wunlock` calls
rendezvous on the readers it wakes before it lets go of `q->lock`.

`RWSys` puts the lock among processes. A process is outside the functions, or
in one of them at a rendezvous, as the waiter or as the waker, or about to give
its slot back. The slots are shared with the other locks of the program, whose
use of them is the step `other`.
-/
import Plan9.Lib.CInt
import Plan9.Lib.Run
import Plan9.Libc.Qlp

namespace Plan9.Libc

open CInt

structure RWLock extends WaitQ where
  readers : Int
  writer : Int

/-! ## The functions -/

/-- The slow path of `rlock` and `wlock`. -/
def rwWait (st : QState) (q : RWLock) (ql : Ql) : Option (RWLock × Ql × Option QLp) :=
  match getqlp ql with
  | none => none
  | some (mp, ql) =>
    let (w, ql) := q.toWaitQ.link mp ql
    some ({ q with toWaitQ := w }, (ql.setNext mp none).setState mp st, some mp)

/-- With `none` for the slot the caller has the lock. -/
def rlock (q : RWLock) (ql : Ql) : Option (RWLock × Ql × Option QLp) :=
  if q.writer = 0 ∧ q.head = none then
    some ({ q with readers := int32 (q.readers + 1) }, ql, none)
  else
    rwWait .QueuingR q ql

def canrlock (q : RWLock) : RWLock × Bool :=
  if q.writer = 0 ∧ q.head = none then ({ q with readers := int32 (q.readers + 1) }, true) else (q, false)

/-- The slot is that of the writer to wake. -/
def runlock (q : RWLock) (ql : Ql) : Option (RWLock × Option QLp) :=
  if q.readers ≤ 0 then none
  else
    let readers := int32 (q.readers - 1)
    if readers > 0 then some ({ q with readers := readers }, none)
    else
      match q.head with
      | none => some ({ q with readers := readers }, none)
      | some p =>
        if ql.state p ≠ .QueuingW then none
        else some ({ toWaitQ := q.unlink p ql, readers := readers, writer := 1 }, some p)

def wlock (q : RWLock) (ql : Ql) : Option (RWLock × Ql × Option QLp) :=
  if q.readers = 0 ∧ q.writer = 0 then some ({ q with writer := 1 }, ql, none) else rwWait .QueuingW q ql

def canwlock (q : RWLock) : RWLock × Bool :=
  if q.readers = 0 ∧ q.writer = 0 then ({ q with writer := 1 }, true) else (q, false)

/-- The loop of `wunlock`: `q->head` and `q->readers` after it, and the slots it called rendezvous on. The queue
has at most `n` slots. -/
def wakeReaders (ql : Ql) : Nat → Option QLp → Int → Option QLp × Int × List QLp
  | 0, head, readers => (head, readers, [])
  | _ + 1, none, readers => (none, readers, [])
  | n + 1, some p, readers =>
    if ql.state p = .QueuingR then
      let (head, readers, ps) := wakeReaders ql n (ql.next p) (int32 (readers + 1))
      (head, readers, p :: ps)
    else (some p, readers, [])

/-- The list has the readers woken under the lock, the slot is that of a writer to wake after it. -/
def wunlock (q : RWLock) (ql : Ql) : Option (RWLock × List QLp × Option QLp) :=
  if q.writer = 0 then none
  else
    match q.head with
    | none => some ({ q with writer := 0 }, [], none)
    | some p =>
      if ql.state p = .QueuingW then some ({ q with toWaitQ := q.unlink p ql }, [], some p)
      else if ql.state p ≠ .QueuingR then none
      else
        let (head, readers, ps) := wakeReaders ql 1024 (some p) q.readers
        some ({ head := head, tail := if head.isNone then none else q.tail, readers := readers, writer := 0 },
          ps, none)

/-! ## The processes -/

/-- Which function a process waits in. -/
inductive Mode
  | r
  | w
  deriving DecidableEq, Repr

def Mode.state : Mode → QState
  | .r => .QueuingR
  | .w => .QueuingW

inductive RWPc
  | idle
  /-- In `rlock` or `wlock`, at the rendezvous on its own slot. -/
  | waiting (mp : QLp) (m : Mode)
  /-- In `runlock` or `wunlock`, at the rendezvous on the slot of a writer. -/
  | waking (p : QLp)
  /-- Past the rendezvous in `rlock` or `wlock`, before `mp->inuse = 0`. -/
  | returning (mp : QLp)
  deriving DecidableEq, Repr

/-- The slot a process is in. -/
def RWPc.slot : RWPc → Option QLp
  | .waiting mp _ => some mp
  | .returning mp => some mp
  | _ => none

variable {P : Type}

/-- `reading` has each process once for every read lock it holds, `writing` for every write lock. -/
structure RWSys (P : Type) where
  q : RWLock
  ql : Ql
  pc : P → RWPc
  reading : Multiset P
  writing : Multiset P

inductive RWAct (P : Type)
  | rlock (i : P)
  | canrlock (i : P)
  | runlock (i : P)
  | wlock (i : P)
  | canwlock (i : P)
  | wunlock (i : P)
  | rendezvous (p : QLp)
  | free (i : P)
  | other

namespace RWSys

def hold (s : RWSys P) (i : P) : Mode → RWSys P
  | .r => { s with reading := i ::ₘ s.reading }
  | .w => { s with writing := i ::ₘ s.writing }

variable [DecidableEq P]

def goto (s : RWSys P) (i : P) (pc : RWPc) : RWSys P := { s with pc := Function.update s.pc i pc }

/-- What follows the critical section of `rlock` or `wlock`. -/
def enter (s : RWSys P) (i : P) (m : Mode) : Option QLp → RWSys P
  | none => s.hold i m
  | some mp => s.goto i (.waiting mp m)

/-- What follows that of `canrlock` or `canwlock`. -/
def tried (s : RWSys P) (i : P) (m : Mode) : Bool → RWSys P
  | true => s.hold i m
  | false => s

/-- What follows that of `runlock` or `wunlock`. -/
def wake (s : RWSys P) (i : P) : Option QLp → RWSys P
  | none => s
  | some p => s.goto i (.waking p)

/-- The waiter's side of a rendezvous on slot `p`: it has the lock it waited for. -/
inductive Meet : RWSys P → QLp → RWSys P → Prop
  | mk {s : RWSys P} {j : P} {p : QLp} {m : Mode} :
      s.pc j = .waiting p m → Meet s p ((s.goto j (.returning p)).hold j m)

/-- One rendezvous after the other. -/
inductive Meets : RWSys P → List QLp → RWSys P → Prop
  | nil {s : RWSys P} : Meets s [] s
  | cons {s s₁ s' : RWSys P} {p : QLp} {ps : List QLp} : Meet s p s₁ → Meets s₁ ps s' → Meets s (p :: ps) s'

inductive Step : RWSys P → RWAct P → RWSys P → Prop
  | rlock {s : RWSys P} {i : P} {q : RWLock} {ql : Ql} {w : Option QLp} :
      s.pc i = .idle → Libc.rlock s.q s.ql = some (q, ql, w) →
      Step s (.rlock i) ({ s with q := q, ql := ql }.enter i .r w)
  | canrlock {s : RWSys P} {i : P} {q : RWLock} {ok : Bool} :
      s.pc i = .idle → Libc.canrlock s.q = (q, ok) → Step s (.canrlock i) ({ s with q := q }.tried i .r ok)
  | runlock {s : RWSys P} {i : P} {q : RWLock} {w : Option QLp} :
      s.pc i = .idle → i ∈ s.reading → Libc.runlock s.q s.ql = some (q, w) →
      Step s (.runlock i) ({ s with q := q, reading := s.reading.erase i }.wake i w)
  | wlock {s : RWSys P} {i : P} {q : RWLock} {ql : Ql} {w : Option QLp} :
      s.pc i = .idle → Libc.wlock s.q s.ql = some (q, ql, w) →
      Step s (.wlock i) ({ s with q := q, ql := ql }.enter i .w w)
  | canwlock {s : RWSys P} {i : P} {q : RWLock} {ok : Bool} :
      s.pc i = .idle → Libc.canwlock s.q = (q, ok) → Step s (.canwlock i) ({ s with q := q }.tried i .w ok)
  | wunlock {s s' : RWSys P} {i : P} {q : RWLock} {ps : List QLp} {w : Option QLp} :
      s.pc i = .idle → i ∈ s.writing → Libc.wunlock s.q s.ql = some (q, ps, w) →
      Meets { s with q := q, writing := s.writing.erase i } ps s' → Step s (.wunlock i) (s'.wake i w)
  | rendezvous {s s' : RWSys P} {i : P} {p : QLp} :
      s.pc i = .waking p → Meet (s.goto i .idle) p s' → Step s (.rendezvous p) s'
  | free {s : RWSys P} {i : P} {mp : QLp} :
      s.pc i = .returning mp → Step s (.free i) ({ s with ql := s.ql.setInuse mp false }.goto i .idle)
  -- The other locks keep off the slots processes of this one are in.
  | other {s : RWSys P} {ql : Ql} :
      (∀ i mp, (s.pc i).slot = some mp → ql.x mp = s.ql.x mp) → Step s .other { s with ql := ql }

/-- A lock just zeroed, and nobody in it. -/
structure Init (s : RWSys P) : Prop where
  q : s.q = ⟨⟨none, none⟩, 0, 0⟩
  pc : ∀ i, s.pc i = .idle
  reading : s.reading = 0
  writing : s.writing = 0

/-- The slots of the processes that wait, in the order of the queue. -/
def queue (s : RWSys P) : List QLp := s.q.toList s.ql

end RWSys

end Plan9.Libc
