/-
The channels of `libthread/channel.c`: `alt`, `chanclose`, and `send` and its like,
which are `alt` with one entry.

All that is done under `chanlock` is one step. An `Alt` is named by the thread that
has it in its array and its place there, for a thread is in one `alt` at a time; the
`tag` of its entries is its variable `c`. A thread that is at the rendezvous on the tag
of another, in `altexec` or `chanclose`, goes round again when it is interrupted, so
only the interrupt of the other is a step. What `nrand` chooses is left open.

The size of the elements, `chanfree` and the note handlers are left out.
-/
import Plan9.Lib.Ring
import Plan9.Lib.Run

namespace Plan9.Libthread

/-- The ends of an array are no entries of it. -/
inductive ChanOp
  | CHANSND
  | CHANRCV
  | CHANNOP
  deriving DecidableEq, Repr

/-- The value that is at `v`, `none` for a nil pointer. `err` is whether it is `errcl`. -/
structure Alt (C V : Type) where
  c : Option C
  v : Option V
  op : ChanOp
  err : Bool

/-- `v` has the values by their number in the buffer. -/
structure Channel (T V : Type) where
  s : Nat
  f : Nat
  n : Nat
  closed : Nat
  qentry : List (Option (T × Nat))
  v : Nat → V

/-- What the variable `c` of `alt` has. -/
inductive Tag (C : Type)
  | nil
  | chan (c : C)
  | intred
  deriving DecidableEq

/-- What `_threadrendezvous` returns. -/
inductive Rend
  | nil
  | closed
  | intred
  deriving DecidableEq, Repr

inductive Pc (T C : Type)
  | idle
  /-- In `alt`, at the rendezvous on its own tag. -/
  | waiting
  /-- Past it, before the lock. -/
  | woken (r : Rend)
  /-- In `altexec` for the entry `i`, at the rendezvous on the tag of `w`. -/
  | meeting (w : T) (i : Nat)
  /-- In `chanclose` with `i`, at that rendezvous. -/
  | closing (w : T) (c : C) (i : Nat)
  /-- Past it, before the lock. -/
  | closed (c : C) (i : Nat)
  /-- `alt` has returned. -/
  | returned (r : Int)

/-- `calls`, `did`, `sent` and `recvd` are no fields of the source: how many times the thread has called `alt`; the entry
that was carried out in that call; and, of what was carried out on a channel, the thread, its call and the value. -/
structure Chans (T C V : Type) where
  chan : C → Channel T V
  pc : T → Pc T C
  alts : T → List (Alt C V)
  noblk : T → Bool
  tag : T → Tag C
  aborted : Bool
  calls : T → Nat
  did : T → Option Nat
  sent : C → List (T × Nat × V)
  recvd : C → List (T × Nat × V)

/-! ## The queue of a channel -/

variable {T C V : Type}

def emptyentry (q : List (Option (T × Nat))) : Nat × List (Option (T × Nat)) :=
  match q.findIdx? Option.isNone with
  | some i => (i, q)
  | none => (q.length, q ++ List.replicate 16 none)

def enqueue (q : List (Option (T × Nat))) (a : T × Nat) : List (Option (T × Nat)) :=
  (emptyentry q).2.set (emptyentry q).1 (some a)

def dequeue [DecidableEq T] (q : List (Option (T × Nat))) (a : T × Nat) : List (Option (T × Nat)) :=
  match q.findIdx? (· == some a) with
  | some i => q.set i none
  | none => q

/-! ## What can proceed -/

def isopenfor (c : Channel T V) (op : ChanOp) : Bool :=
  c.closed == 0 || op == .CHANRCV && decide (0 < c.n)

/-- `(CHANSND+CHANRCV) - op` -/
def otherop : ChanOp → ChanOp
  | .CHANSND => .CHANRCV
  | .CHANRCV => .CHANSND
  | .CHANNOP => .CHANNOP

namespace Chans

def entry (s : Chans T C V) (p : T × Nat) : Option (Alt C V) := (s.alts p.1)[p.2]?

variable [DecidableEq C]

/-- `p` is of the operation and its tag is nil. -/
def blocked (s : Chans T C V) (op : ChanOp) (p : T × Nat) : Bool :=
  (s.entry p).any (·.op == op) && s.tag p.1 == .nil

def canexec (s : Chans T C V) (c : C) (op : ChanOp) : Bool :=
  (s.chan c).qentry.any (·.any (s.blocked (otherop op))) ||
    (op == .CHANSND && decide ((s.chan c).n < (s.chan c).s) || op == .CHANRCV && decide (0 < (s.chan c).n))

/-- The channel of an entry that is open for it. -/
def opens (s : Chans T C V) (a : Alt C V) : Option C :=
  match a.c with
  | some c => if a.op ≠ .CHANNOP ∧ isopenfor (s.chan c) a.op then some c else none
  | none => none

/-- The channel of an entry that can proceed. -/
def ready (s : Chans T C V) (a : Alt C V) : Option C :=
  match s.opens a with
  | some c => if s.canexec c a.op then some c else none
  | none => none

/-! ## Carrying out -/

def setChan (s : Chans T C V) (c : C) (ch : Channel T V) : Chans T C V := { s with chan := Function.update s.chan c ch }

variable [DecidableEq T]

def goto (s : Chans T C V) (t : T) (pc : Pc T C) : Chans T C V := { s with pc := Function.update s.pc t pc }

def setTag (s : Chans T C V) (t : T) (tag : Tag C) : Chans T C V := { s with tag := Function.update s.tag t tag }

/-- What the `v` of an entry points to is written. -/
def store (s : Chans T C V) (p : T × Nat) (v : Option V) : Chans T C V :=
  { s with alts := Function.update s.alts p.1 ((s.alts p.1).modify p.2 fun a => { a with v := v }) }

/-- The entry `p` is carried out with the value. -/
def carry (s : Chans T C V) (p : T × Nat) (op : ChanOp) (c : C) (v : V) : Chans T C V :=
  let log := (p.1, s.calls p.1, v)
  { s with
    did := Function.update s.did p.1 (some p.2)
    sent := if op = .CHANSND then Function.update s.sent c (s.sent c ++ [log]) else s.sent
    recvd := if op = .CHANRCV then Function.update s.recvd c (s.recvd c ++ [log]) else s.recvd }

def abort (s : Chans T C V) : Chans T C V := { s with aborted := true }

end Chans

/-- The place in the buffer; `none` is `abort()`. -/
def altexecbuffered (c : Channel T V) (op : ChanOp) (willreplace : Bool) : Option (Nat × Channel T V) :=
  if op = .CHANRCV ∧ 0 < c.n then
    some (c.f % c.s, { c with n := if willreplace then c.n else c.n - 1, f := (c.f + 1) % 2 ^ 32 })
  else if op = .CHANSND ∧ c.n < c.s then
    some ((c.f + c.n) % 2 ^ 32 % c.s, { c with n := if willreplace then c.n else c.n + 1 })
  else none

/-- What is at `dst`. The memory at a nil `src` counts as zeros. -/
def altcopy (zero : V) (dst src : Option V) : Option V := dst.map fun _ => src.getD zero

namespace Chans

variable [DecidableEq C] [DecidableEq T]

/-- What `altexec` of the entry `i` of `t` does that meets `b`, up to `*b->tag = c`. -/
def meet (zero : V) (s : Chans T C V) (t : T) (i : Nat) (a : Alt C V) (c : C) (p : T × Nat) (b : Alt C V) :
    Option (Chans T C V) :=
  let ch := s.chan c
  if ch.s ≠ 0 ∧ ch.n ≠ 0 then
    if a.op ≠ .CHANRCV then none
    else
      match altexecbuffered ch .CHANRCV true with
      | none => none
      | some (buf, ch') =>
        let s := s.setChan c { ch' with v := Function.update ch'.v buf (b.v.getD zero) }
        let s := s.store (t, i) (altcopy zero a.v (some (ch.v buf)))
        some ((s.carry (t, i) .CHANRCV c (ch.v buf)).carry p .CHANSND c (b.v.getD zero))
  else if a.op = .CHANRCV then
    let s := s.store (t, i) (altcopy zero a.v b.v)
    some ((s.carry p .CHANSND c (b.v.getD zero)).carry (t, i) .CHANRCV c (b.v.getD zero))
  else
    let s := s.store p (altcopy zero b.v a.v)
    some ((s.carry (t, i) .CHANSND c (a.v.getD zero)).carry p .CHANRCV c (a.v.getD zero))

/-- What it does with the buffer. -/
def buffered (zero : V) (s : Chans T C V) (t : T) (i : Nat) (a : Alt C V) (c : C) : Option (Chans T C V) :=
  match altexecbuffered (s.chan c) a.op false with
  | none => none
  | some (buf, ch) =>
    if a.op = .CHANRCV then
      let s' := (s.setChan c ch).store (t, i) (altcopy zero a.v (some (ch.v buf)))
      some (s'.carry (t, i) .CHANRCV c (ch.v buf))
    else
      let s' := s.setChan c { ch with v := Function.update ch.v buf (a.v.getD zero) }
      some (s'.carry (t, i) .CHANSND c (a.v.getD zero))

/-! ## `alt` -/

/-- `alt` is called. -/
def begin (s : Chans T C V) (t : T) (alts : List (Alt C V)) (noblk : Bool) : Chans T C V :=
  { s with
    alts := Function.update s.alts t alts
    noblk := Function.update s.noblk t noblk
    tag := Function.update s.tag t .nil
    calls := Function.update s.calls t (s.calls t + 1)
    did := Function.update s.did t none }

/-- "enqueue on all channels open for us", from the entry `i` on. -/
def enqueueAll (s : Chans T C V) (t : T) : Nat → List (Alt C V) → Chans T C V
  | _, [] => s
  | i, a :: as =>
    match s.opens a with
    | some c => (s.setChan c { s.chan c with qentry := enqueue (s.chan c).qentry (t, i) }).enqueueAll t (i + 1) as
    | none => s.enqueueAll t (i + 1) as

def dequeueAll (s : Chans T C V) (t : T) : Nat → List (Alt C V) → Chans T C V
  | _, [] => s
  | i, a :: as =>
    match a.c with
    | some c =>
      if a.op = .CHANNOP then s.dequeueAll t (i + 1) as
      else (s.setChan c { s.chan c with qentry := dequeue (s.chan c).qentry (t, i) }).dequeueAll t (i + 1) as
    | none => s.dequeueAll t (i + 1) as

end Chans

/-- The last for which a loop over the entries from the number `i` on sets its variable. -/
def lastOf {α : Type} (f : α → Bool) : Nat → List α → Option Nat
  | _, [] => none
  | i, a :: as => (lastOf f (i + 1) as).or (if f a then some i else none)

/-- `xa->c == c` -/
def selects [DecidableEq C] (tag : Tag C) (a : Alt C V) : Bool :=
  match tag with
  | .chan c => a.op != .CHANNOP && a.c == some c
  | _ => false

namespace Chans

variable [DecidableEq C] [DecidableEq T]

/-- An entry that is not open, and whether it is the first time that is found. -/
def shut (s : Chans T C V) (err : Bool) (a : Alt C V) : Bool := a.op != .CHANNOP && (s.opens a).isNone && a.err == err

/-- Nothing can proceed, and the array does not end with `CHANNOBLK`. -/
def await (s : Chans T C V) (t : T) (alts : List (Alt C V)) : Chans T C V :=
  if alts.any fun a => (s.opens a).isSome then (s.enqueueAll t 0 alts).goto t .waiting
  else
    match lastOf (s.shut false) 0 alts with
    | some i =>
      { s with alts := Function.update s.alts t (alts.modify i fun a => { a with err := true }) }.goto t (.returned i)
    | none => if alts.any (s.shut true) then s.goto t (.returned (-1)) else s.goto t .waiting

/-- From the lock after the rendezvous that returned `r`. -/
def resume (s : Chans T C V) (t : T) (r : Rend) : Chans T C V :=
  if r = .intred ∧ s.tag t ≠ .nil then s.goto t .waiting
  else
    let s := if r = .intred then s.setTag t .intred else s
    let sel := selects (s.tag t)
    let alts := s.alts t
    let s := { s with alts := Function.update s.alts t (alts.map fun a => if sel a then { a with err := r == Rend.closed } else a) }
    let s := s.dequeueAll t 0 alts
    match lastOf sel 0 alts with
    | some i => s.goto t (.returned i)
    | none => if s.tag t = .intred then s.goto t (.returned (-1)) else s.abort

/-! ## `chanclose` -/

/-- The next entry that fails, from the number `i` on. -/
def closeScan (s : Chans T C V) (c : C) : Nat → List (Option (T × Nat)) → Option (Nat × (T × Nat))
  | _, [] => none
  | i, none :: q => s.closeScan c (i + 1) q
  | i, some a :: q =>
    if s.blocked .CHANSND a || s.blocked .CHANRCV a && (s.chan c).n == 0 then some (i, a) else s.closeScan c (i + 1) q

/-- From the lock on, with `i`. -/
def closeFrom (s : Chans T C V) (t : T) (c : C) (i : Nat) : Chans T C V :=
  match s.closeScan c i ((s.chan c).qentry.drop i) with
  | some (j, a) => (s.setTag a.1 (.chan c)).goto t (.closing a.1 c j)
  | none => (s.setChan c { s.chan c with closed := 2 }).goto t .idle

end Chans

/-! ## `send` and its like -/

/-- The array that `runop` calls `alt` with. -/
def runop (op : ChanOp) (c : Option C) (v : Option V) : List (Alt C V) := [⟨c, v, op, false⟩]

/-- What it returns; `none` is `abort()`. -/
def runopReturn (r : Int) (err : Bool) : Option Int :=
  if r = -1 then some (-1)
  else if r = 1 then some 0
  else if r = 0 then (if err then some (-1) else some 1)
  else none

/-! ## The threads -/

/-- `mate` is the entry of another that a call of `alt` meets. -/
inductive ChanAct (T C V : Type)
  | alt (t : T) (alts : List (Alt C V)) (noblk : Bool) (mate : Option (T × Nat))
  | interrupt (t : T)
  | rendezvous (p w : T)
  | resume (t : T)
  | chanclose (t : T) (c : C)
  | close (t : T)

namespace Chans

/-- The thread is in none of the functions. -/
def Free (s : Chans T C V) (t : T) : Prop := s.pc t = .idle ∨ ∃ r, s.pc t = .returned r

structure Init (s : Chans T C V) : Prop where
  pc : ∀ t, s.pc t = .idle
  chan : ∀ c, (s.chan c).f = 0 ∧ (s.chan c).n = 0 ∧ (s.chan c).closed = 0 ∧ (s.chan c).qentry = []
  aborted : s.aborted = false
  did : ∀ t, s.did t = none
  sent : ∀ c, s.sent c = []
  recvd : ∀ c, s.recvd c = []

variable [DecidableEq C] [DecidableEq T]

/-- What a call of `alt` with no nil channel does up to its rendezvous, or to its end. -/
inductive Alts (zero : V) (s : Chans T C V) (t : T) (alts : List (Alt C V)) : Option (T × Nat) → Chans T C V → Prop
  | meet {i : Nat} {a b : Alt C V} {c : C} {p : T × Nat} {s' : Chans T C V} :
      alts[i]? = some a → s.ready a = some c → some p ∈ (s.chan c).qentry → s.blocked (otherop a.op) p = true →
      s.entry p = some b → s.meet zero t i a c p b = some s' →
      Alts zero s t alts (some p) ((s'.setTag p.1 (.chan c)).goto t (.meeting p.1 i))
  | buffered {i : Nat} {a : Alt C V} {c : C} {s' : Chans T C V} :
      alts[i]? = some a → s.ready a = some c → (s.chan c).qentry.any (·.any (s.blocked (otherop a.op))) = false →
      s.buffered zero t i a c = some s' → Alts zero s t alts none (s'.goto t (.returned i))
  | meetAborts {i : Nat} {a b : Alt C V} {c : C} {p : T × Nat} :
      alts[i]? = some a → s.ready a = some c → some p ∈ (s.chan c).qentry → s.blocked (otherop a.op) p = true →
      s.entry p = some b → s.meet zero t i a c p b = none → Alts zero s t alts (some p) s.abort
  | bufferedAborts {i : Nat} {a : Alt C V} {c : C} :
      alts[i]? = some a → s.ready a = some c → (s.chan c).qentry.any (·.any (s.blocked (otherop a.op))) = false →
      s.buffered zero t i a c = none → Alts zero s t alts none s.abort
  | noblk : (∀ a ∈ alts, s.ready a = none) → s.noblk t = true →
      Alts zero s t alts none (s.goto t (.returned alts.length))
  | await : (∀ a ∈ alts, s.ready a = none) → s.noblk t = false → Alts zero s t alts none (s.await t alts)

inductive Step (zero : V) : Chans T C V → ChanAct T C V → Chans T C V → Prop
  | nilchan {s : Chans T C V} {t : T} {alts : List (Alt C V)} {noblk : Bool} :
      s.Free t → (∃ a ∈ alts, a.op ≠ .CHANNOP ∧ a.c = none) →
      Step zero s (.alt t alts noblk none) ((s.begin t alts noblk).goto t (.returned (-1)))
  | alt {s s' : Chans T C V} {t : T} {alts : List (Alt C V)} {noblk : Bool} {mate : Option (T × Nat)} :
      s.Free t → (∀ a ∈ alts, a.op ≠ .CHANNOP → a.c ≠ none) → Alts zero (s.begin t alts noblk) t alts mate s' →
      Step zero s (.alt t alts noblk mate) s'
  | interrupt {s : Chans T C V} {t : T} : s.pc t = .waiting → Step zero s (.interrupt t) (s.goto t (.woken .intred))
  | meeting {s : Chans T C V} {p w : T} {i : Nat} : s.pc p = .meeting w i → s.pc w = .waiting →
      Step zero s (.rendezvous p w) ((s.goto p (.returned i)).goto w (.woken .nil))
  | closing {s : Chans T C V} {p w : T} {c : C} {i : Nat} : s.pc p = .closing w c i → s.pc w = .waiting →
      Step zero s (.rendezvous p w) ((s.goto p (.closed c (i + 1))).goto w (.woken .closed))
  | resume {s : Chans T C V} {t : T} {r : Rend} : s.pc t = .woken r → Step zero s (.resume t) (s.resume t r)
  | already {s : Chans T C V} {t : T} {c : C} : s.Free t → (s.chan c).closed ≠ 0 →
      Step zero s (.chanclose t c) (s.goto t .idle)
  | chanclose {s : Chans T C V} {t : T} {c : C} : s.Free t → (s.chan c).closed = 0 →
      Step zero s (.chanclose t c) ((s.setChan c { s.chan c with closed := 1 }).closeFrom t c 0)
  | close {s : Chans T C V} {t : T} {c : C} {i : Nat} : s.pc t = .closed c i →
      Step zero s (.close t) (s.closeFrom t c i)

end Chans

end Plan9.Libthread
