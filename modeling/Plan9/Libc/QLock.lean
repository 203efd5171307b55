/-
The queueing lock and the sleep and wakeup on it of `9sys/qlock.c`, and the
processes that use them.

As for the readers-writer lock, each function is what it does under the
spin lock, with the slot it then calls rendezvous on in its result, and `none`
is `abort()` or a nil pointer followed. `QSys` has one lock and the `Rendez`
bound to it, any number of them. `rwakeupall` takes the spin lock anew for each
process it wakes, so a process can be in the middle of it.
-/
import Plan9.Lib.Run
import Plan9.Libc.Qlp

namespace Plan9.Libc

structure QLock extends WaitQ where
  locked : Bool

structure Rendez extends WaitQ where
  /-- `r->l` is set, to the lock of the system. -/
  l : Bool

/-! ## The functions -/

/-- With `none` for the slot the caller has the lock. -/
def qlock (q : QLock) (ql : Ql) : Option (QLock × Ql × Option QLp) :=
  if q.locked = false then some ({ q with locked := true }, ql, none)
  else
    match getqlp ql with
    | none => none
    | some (mp, ql) =>
      let (w, ql) := q.toWaitQ.link mp ql
      some ({ q with toWaitQ := w }, ql.setState mp .Queuing, some mp)

/-- The slot is that of the process to wake; the `Bool` says whether "qunlock called with qlock not held" is
printed. -/
def qunlock (q : QLock) (ql : Ql) : QLock × Option QLp × Bool :=
  match q.head with
  | some p => ({ q with toWaitQ := q.unlink p ql }, some p, q.locked == false)
  | none => ({ q with locked := false }, none, q.locked == false)

/-- `got` is what `canlock` returns. -/
def canqlock (q : QLock) (got : Bool) : QLock × Bool :=
  if got = false then (q, false)
  else if q.locked = false then ({ q with locked := true }, true)
  else (q, false)

/-- `rsleep` adds its slot to the wait list by whether there is a first, not by whether there is a last. -/
def Rendez.link (r : Rendez) (me : QLp) (ql : Ql) : Option (Rendez × Ql) :=
  match r.head with
  | none => some ({ r with head := some me, tail := some me }, ql.setNext me none)
  | some _ =>
    match r.tail with
    | none => none
    | some p => some ({ r with tail := some me }, (ql.setNext p (some me)).setNext me none)

/-- The slots are that of the caller and that of the process the lock is passed to. -/
def rsleep (r : Rendez) (q : QLock) (ql : Ql) : Option (Rendez × QLock × Ql × QLp × Option QLp) :=
  if r.l = false then none
  else if q.locked = false then none
  else
    match getqlp ql with
    | none => none
    | some (me, ql) =>
      match r.link me (ql.setState me .Sleeping) with
      | none => none
      | some (r, ql) =>
        match q.head with
        | some t => some (r, { q with toWaitQ := q.unlink t ql }, ql, me, some t)
        | none => some (r, { q with locked := false }, ql, me, none)

/-- The `Bool` is the value returned, whether a process was woken. -/
def rwakeup (r : Rendez) (q : QLock) (ql : Ql) : Option (Rendez × QLock × Ql × Bool) :=
  if r.l = false then none
  else if q.locked = false then none
  else
    match r.head with
    | none => some (r, q, ql, false)
    | some t =>
      some ({ r with toWaitQ := r.unlink t ql },
        { q with head := some t, tail := if q.tail.isNone then some t else q.tail },
        (ql.setNext t q.head).setState t .Queuing, true)

/-! ## The processes -/

/-- Which function a process waits in. -/
inductive QCall
  | qlock
  | rsleep
  deriving DecidableEq, Repr

inductive QPc (R : Type)
  | idle
  /-- In `qlock` or `rsleep`, at the rendezvous on its own slot. -/
  | waiting (mp : QLp) (c : QCall)
  /-- In `qunlock` or `rsleep`, at the rendezvous on the slot of the next; from `rsleep` it goes on to wait. -/
  | waking (p : QLp) (me : Option QLp)
  /-- Past the rendezvous in `qlock` or `rsleep`, before `mp->inuse = 0`. -/
  | returning (mp : QLp)
  /-- In `rwakeupall`, between two calls of `rwakeup`, with `i` woken. -/
  | rwakeupall (r : R) (i : Nat)

variable {P R : Type}

/-- The slot a process is in. -/
def QPc.slot : QPc R → Option QLp
  | .waiting mp _ => some mp
  | .waking _ me => me
  | .returning mp => some mp
  | _ => none

/-- `owning` has the processes that hold the lock. -/
structure QSys (P R : Type) where
  q : QLock
  r : R → Rendez
  ql : Ql
  pc : P → QPc R
  owning : Multiset P

inductive QAct (P R : Type)
  | qlock (i : P)
  | qunlock (i : P)
  | canqlock (i : P)
  | rsleep (i : P) (r : R)
  | rwakeup (i : P) (r : R)
  | rwakeupall (i : P) (r : R)
  | rendezvous (p : QLp)
  | free (i : P)
  | other

namespace QSys

/-- A lock and what is bound to it just set up, and nobody in them. -/
structure Init (s : QSys P R) : Prop where
  q : s.q = ⟨⟨none, none⟩, false⟩
  r : ∀ r, s.r r = ⟨⟨none, none⟩, true⟩
  pc : ∀ i, s.pc i = .idle
  owning : s.owning = 0

/-- The slots of the processes that wait for the lock, in the order of its queue. -/
def lockQueue (s : QSys P R) : List QLp := s.q.toList s.ql

/-- The slots of the processes that sleep on `r`. -/
def rendezQueue (s : QSys P R) (r : R) : List QLp := (s.r r).toList s.ql

def hold (s : QSys P R) (i : P) : QSys P R := { s with owning := i ::ₘ s.owning }

/-- Where a process is after its rendezvous as the waker. -/
def woke : Option QLp → QPc R
  | none => .idle
  | some me => .waiting me .rsleep

variable [DecidableEq P]

def goto (s : QSys P R) (i : P) (pc : QPc R) : QSys P R := { s with pc := Function.update s.pc i pc }

def drop (s : QSys P R) (i : P) : QSys P R := { s with owning := s.owning.erase i }

/-- What follows the critical section of `qlock`. -/
def enter (s : QSys P R) (i : P) : Option QLp → QSys P R
  | none => s.hold i
  | some mp => s.goto i (.waiting mp .qlock)

/-- What follows that of `qunlock`. -/
def wake (s : QSys P R) (i : P) : Option QLp → QSys P R
  | none => s
  | some p => s.goto i (.waking p none)

/-- What follows that of `rsleep`. -/
def sleep (s : QSys P R) (i : P) (me : QLp) : Option QLp → QSys P R
  | none => s.goto i (.waiting me .rsleep)
  | some t => s.goto i (.waking t (some me))

variable [DecidableEq R]

/-- The critical section of `rwakeup`. -/
inductive Wakeup : QSys P R → R → Bool → QSys P R → Prop
  | mk {s : QSys P R} {r : R} {rz : Rendez} {q : QLock} {ql : Ql} {ok : Bool} :
      rwakeup (s.r r) s.q s.ql = some (rz, q, ql, ok) →
      Wakeup s r ok { s with r := Function.update s.r r rz, q := q, ql := ql }

/-- The functions that need the lock are called by its owner only. -/
inductive Step : QSys P R → QAct P R → QSys P R → Prop
  | qlock {s : QSys P R} {i : P} {q : QLock} {ql : Ql} {w : Option QLp} :
      s.pc i = .idle → Libc.qlock s.q s.ql = some (q, ql, w) →
      Step s (.qlock i) ({ s with q := q, ql := ql }.enter i w)
  | qunlock {s : QSys P R} {i : P} {q : QLock} {w : Option QLp} {msg : Bool} :
      s.pc i = .idle → i ∈ s.owning → Libc.qunlock s.q s.ql = (q, w, msg) →
      Step s (.qunlock i) (({ s with q := q }.drop i).wake i w)
  | canqlock {s : QSys P R} {i : P} {got : Bool} {q : QLock} :
      s.pc i = .idle → Libc.canqlock s.q got = (q, true) → Step s (.canqlock i) ({ s with q := q }.hold i)
  | cannotqlock {s : QSys P R} {i : P} {got : Bool} {q : QLock} :
      s.pc i = .idle → Libc.canqlock s.q got = (q, false) → Step s (.canqlock i) { s with q := q }
  | rsleep {s : QSys P R} {i : P} {r : R} {rz : Rendez} {q : QLock} {ql : Ql} {me : QLp} {t : Option QLp} :
      s.pc i = .idle → i ∈ s.owning → Libc.rsleep (s.r r) s.q s.ql = some (rz, q, ql, me, t) →
      Step s (.rsleep i r) (({ s with r := Function.update s.r r rz, q := q, ql := ql }.drop i).sleep i me t)
  | rwakeup {s s' : QSys P R} {i : P} {r : R} {ok : Bool} :
      s.pc i = .idle → i ∈ s.owning → Wakeup s r ok s' → Step s (.rwakeup i r) s'
  | rwakeupall {s : QSys P R} {i : P} {r : R} :
      s.pc i = .idle → i ∈ s.owning → Step s (.rwakeupall i r) (s.goto i (.rwakeupall r 0))
  | wokeone {s s' : QSys P R} {i : P} {r : R} {n : Nat} :
      s.pc i = .rwakeupall r n → Wakeup s r true s' → Step s (.rwakeupall i r) (s'.goto i (.rwakeupall r (n + 1)))
  | wokeall {s s' : QSys P R} {i : P} {r : R} {n : Nat} :
      s.pc i = .rwakeupall r n → Wakeup s r false s' → Step s (.rwakeupall i r) (s'.goto i .idle)
  | rendezvous {s : QSys P R} {i j : P} {p : QLp} {me : Option QLp} {c : QCall} :
      s.pc i = .waking p me → s.pc j = .waiting p c →
      Step s (.rendezvous p) (((s.goto i (woke me)).goto j (.returning p)).hold j)
  | free {s : QSys P R} {i : P} {mp : QLp} :
      s.pc i = .returning mp → Step s (.free i) ({ s with ql := s.ql.setInuse mp false }.goto i .idle)
  -- The other locks keep off the slots processes of this one are in.
  | other {s : QSys P R} {ql : Ql} :
      (∀ i mp, (s.pc i).slot = some mp → ql.x mp = s.ql.x mp) → Step s .other { s with ql := ql }

end QSys

end Plan9.Libc
