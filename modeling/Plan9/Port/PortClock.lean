/-
The timers of `9/port/portclock.c`: `timeradd`, `timerdel` and `timerintr`.

A timer is named by `K` and a processor by `M`. What a function does with the list
of a processor locked is one step, so that between the steps of one function the
others take theirs: `timeradd` and `timerdel` hold the lock of the timer from their
first step to their last, `timerintr` holds none while the handler runs. What the
handler does is left open, for the steps of the rest can come then.

What `timerset` sets, the count of turns that `timerintr` complains of and the call
of `hzclock` are left out: nothing here reads them.
-/
import Plan9.Lib.Place
import Plan9.Lib.Run

namespace Plan9.Port

open Chain (Place)

/-- What differs from one kind of processor to the next. -/
structure Cpu where
  /-- A `Tval` as it is compared: some have it signed. -/
  tval : Nat → Int
  ns2fastticks : Nat → Nat

def Trelative : Int := 0

def Tperiodic : Int := 1

structure Timer (K M : Type) where
  tmode : Int
  tns : Int
  tt : Option M
  twhen : Nat
  tnext : Option K

structure Timers (K M : Type) where
  head : M → Option K
  timer : K → Timer K M

/-- How a function does not come to its end. -/
inductive Halt
  | assert
  | panic
  /-- A loop has taken the turns it was given. -/
  | turns
  deriving DecidableEq, Repr

variable {K M : Type}

def Timers.tnext (q : Timers K M) (t : K) : Option K := (q.timer t).tnext

variable [DecidableEq K] [DecidableEq M]

/-- A timer is changed. -/
def Timers.set (q : Timers K M) (t : K) (x : Timer K M) : Timers K M :=
  { q with timer := Function.update q.timer t x }

/-- `*last = v` -/
def Timers.store (q : Timers K M) (tt : M) (v : Option K) : Place K → Timers K M
  | .first => { q with head := Function.update q.head tt v }
  | .behind t => q.set t { q.timer t with tnext := v }

def Timers.deref (q : Timers K M) (tt : M) (last : Place K) : Option K := Chain.deref q.tnext (q.head tt) last

def Timers.seek (q : Timers K M) (tt : M) (stop : Timer K M → Bool) (turns : Nat) : Option (Place K) :=
  Chain.seek q.tnext (q.head tt) (fun t => stop (q.timer t)) turns .first

/-! ## The functions -/

/-- The switch of `tadd`: `tns` and `twhen`. -/
def due (c : Cpu) (turns fastticks : Nat) (q : Timers K M) (tt : M) (nt : Timer K M) : Except Halt (Int × Nat) :=
  if nt.tmode = Trelative then
    let tns := if nt.tns ≤ 0 then 1 else nt.tns
    .ok (tns, (fastticks + c.ns2fastticks tns.toNat) % 2 ^ 64)
  else if nt.tmode = Tperiodic then
    if nt.tns < 100000 then .error .assert  -- "At least 100 µs period"
    else if nt.twhen = 0 then
      -- "look for another timer at same frequency for combining"
      match q.seek tt (fun t => t.tmode == Tperiodic && t.tns == nt.tns) turns with
      | none => .error .turns
      | some last =>
        let twhen := match q.deref tt last with
          | some t => (q.timer t).twhen
          | none => fastticks
        .ok (nt.tns, (twhen + c.ns2fastticks nt.tns.toNat) % 2 ^ 64)
    else .ok (nt.tns, (nt.twhen + c.ns2fastticks nt.tns.toNat) % 2 ^ 64)
  else .error .panic

def tadd (c : Cpu) (turns fastticks : Nat) (q : Timers K M) (tt : M) (nt : K) : Except Halt (Timers K M × Nat) :=
  if (q.timer nt).tt.isSome then .error .assert
  else
    match due c turns fastticks q tt (q.timer nt) with
    | .error e => .error e
    | .ok (tns, twhen) =>
      match q.seek tt (fun t => decide (c.tval twhen < c.tval t.twhen)) turns with
      | none => .error .turns
      | some last =>
        let nt' := { q.timer nt with tns := tns, twhen := twhen, tnext := q.deref tt last, tt := some tt }
        let q' := (q.set nt nt').store tt (some nt) last
        .ok (q', if last = .first then twhen else 0)

/-- The assertion in the loop is of what was tested before it. -/
def tdel (turns : Nat) (q : Timers K M) (dt : K) : Except Halt (Timers K M × Nat) :=
  match (q.timer dt).tt with
  | none => .ok (q, 0)
  | some tt =>
    match Chain.seek q.tnext (q.head tt) (· == dt) turns .first with
    | none => .error .turns
    | some last =>
      let q' := match q.deref tt last with
        | none => q
        | some _ => (q.set dt { q.timer dt with tt := none }).store tt (q.tnext dt) last
      .ok (q', match last, q'.head tt with
        | .first, some h => (q'.timer h).twhen
        | _, _ => 0)

/-- From `while((t = tt->head) != nil)` to where the list is unlocked, with the timer whose handler is called. -/
def look (now : Nat) (q : Timers K M) (tt : M) : Except Halt (Timers K M × Option K) :=
  match q.head tt with
  | none => .ok (q, none)
  | some t =>
    if now < (q.timer t).twhen then .ok (q, none)
    else if (q.timer t).tt ≠ some tt then .error .assert
    else .ok ({ q with head := Function.update q.head tt (q.tnext t) }.set t { q.timer t with tt := none }, some t)

/-- From where the list is locked again, the handler of `t` having returned. -/
def readd (c : Cpu) (turns fastticks now : Nat) (q : Timers K M) (tt : M) (t : K) : Except Halt (Timers K M × Option K) :=
  if (q.timer t).tmode = Tperiodic then
    match tadd c turns fastticks q tt t with
    | .error e => .error e
    | .ok (q, _) => look now q tt
  else look now q tt

/-! ## The processors -/

/-- Where a caller of `timeradd` or `timerdel` is. -/
inductive TimerPc (K M : Type)
  | idle
  /-- Before `ilock(tt)` and `tdel`, in `timeradd` if `adding`. -/
  | tdel (adding : Bool) (t : K) (tt : M)
  /-- In `timeradd`, before `ilock(tt)` and `tadd`. -/
  | tadd (t : K)

/-- The timer whose lock is held. -/
def TimerPc.timer : TimerPc K M → Option K
  | .idle => none
  | .tdel _ t _ => some t
  | .tadd t => some t

inductive IntrPc (K : Type)
  | idle
  /-- The time is read, the list not yet locked. -/
  | entered (now : Nat)
  /-- The list is not locked and the handler of `t` runs. -/
  | handler (t : K) (now : Nat)

/-- `deleted` and `touched` are no fields of the source: `timerdel` of the timer has returned, with no `timeradd` of it
since; and `timeradd` or `timerdel` has had a look at the timer whose handler the processor runs. -/
structure TimerSys (P K M : Type) where
  q : Timers K M
  pc : P → TimerPc K M
  intr : M → IntrPc K
  halted : Option Halt
  deleted : K → Bool
  touched : M → Bool

inductive TimerAct (P K M : Type)
  | set (t : K) (tmode tns : Int)
  | clear (t : K)
  | timeradd (i : P) (t : K)
  | timerdel (i : P) (t : K)
  | tdel (i : P)
  | tadd (i : P) (m : M) (fastticks : Nat)
  | timerintr (m : M) (now : Nat)
  | look (m : M)
  | readd (m : M) (fastticks : Nat)

namespace TimerSys

variable {P : Type} [DecidableEq P]

/-- No timer is in a list and no function is called. -/
structure Init (s : TimerSys P K M) : Prop where
  head : ∀ m, s.q.head m = none
  tt : ∀ t, (s.q.timer t).tt = none
  pc : ∀ i, s.pc i = .idle
  intr : ∀ m, s.intr m = .idle
  halted : s.halted = none
  deleted : ∀ t, s.deleted t = false

def goto (s : TimerSys P K M) (i : P) (pc : TimerPc K M) : TimerSys P K M := { s with pc := Function.update s.pc i pc }

/-- A step of `timeradd` or `timerdel` of `t`. -/
def touch (s : TimerSys P K M) (t : K) : TimerSys P K M :=
  { s with touched := fun m => match s.intr m with
      | .handler t' _ => s.touched m || decide (t' = t)
      | _ => s.touched m }

/-- `timerdel` of `t` returns. -/
def del (s : TimerSys P K M) (t : K) : TimerSys P K M := { s with deleted := Function.update s.deleted t true }

/-- `timeradd` of `t` begins. -/
def add (s : TimerSys P K M) (t : K) : TimerSys P K M := { s with deleted := Function.update s.deleted t false }

/-- Nobody has the lock of `t`. -/
def Unlocked (s : TimerSys P K M) (t : K) : Prop := ∀ i, (s.pc i).timer ≠ some t

/-- After the first step of `timeradd`. -/
def enter (s : TimerSys P K M) (i : P) (t : K) : TimerSys P K M :=
  match (s.q.timer t).tt with
  | some tt => s.goto i (.tdel true t tt)
  | none => s.goto i (.tadd t)

/-- After that of `timerdel`. -/
def leave (s : TimerSys P K M) (i : P) (t : K) : TimerSys P K M :=
  match (s.q.timer t).tt with
  | some tt => s.goto i (.tdel false t tt)
  | none => s.del t

/-- After `tdel`. -/
def after (s : TimerSys P K M) (i : P) (adding : Bool) (t : K) : TimerSys P K M :=
  if adding then s.goto i (.tadd t) else (s.goto i .idle).del t

/-- After the list is unlocked by `timerintr`. -/
def run (s : TimerSys P K M) (m : M) (now : Nat) : Option K → TimerSys P K M
  | none => { s with intr := Function.update s.intr m .idle }
  | some t => { s with intr := Function.update s.intr m (.handler t now), touched := Function.update s.touched m false }

/-- What a function comes to: it goes on, or all stops. -/
def ends {α : Type} (s : TimerSys P K M) (f : α → TimerSys P K M) : Except Halt α → TimerSys P K M
  | .ok a => f a
  | .error e => { s with halted := some e }

/-- The callers set the public fields when they like, and `twhen` to zero when the timer is in no list. -/
inductive Step (c : Cpu) : TimerSys P K M → TimerAct P K M → TimerSys P K M → Prop
  | set {s : TimerSys P K M} {t : K} {tmode tns : Int} : s.halted = none →
      Step c s (.set t tmode tns) { s with q := s.q.set t { s.q.timer t with tmode := tmode, tns := tns } }
  | clear {s : TimerSys P K M} {t : K} : s.halted = none → (s.q.timer t).tt = none →
      Step c s (.clear t) { s with q := s.q.set t { s.q.timer t with twhen := 0 } }
  | timeradd {s : TimerSys P K M} {i : P} {t : K} : s.halted = none → s.pc i = .idle → s.Unlocked t →
      Step c s (.timeradd i t) (((s.add t).touch t).enter i t)
  | timerdel {s : TimerSys P K M} {i : P} {t : K} : s.halted = none → s.pc i = .idle → s.Unlocked t →
      Step c s (.timerdel i t) ((s.touch t).leave i t)
  | tdel {s : TimerSys P K M} {i : P} {adding : Bool} {t : K} {tt : M} {turns : Nat}
      {r : Except Halt (Timers K M × Nat)} :
      s.halted = none → s.pc i = .tdel adding t tt → Port.tdel turns s.q t = r → r ≠ .error .turns →
      Step c s (.tdel i) (s.ends (fun (q, _) => ({ s with q := q }.touch t).after i adding t) r)
  | tadd {s : TimerSys P K M} {i : P} {t : K} {m : M} {turns fastticks : Nat} {r : Except Halt (Timers K M × Nat)} :
      s.halted = none → s.pc i = .tadd t → Port.tadd c turns fastticks s.q m t = r → r ≠ .error .turns →
      Step c s (.tadd i m fastticks) (s.ends (fun (q, _) => ({ s with q := q }.touch t).goto i .idle) r)
  | timerintr {s : TimerSys P K M} {m : M} {now : Nat} : s.halted = none → s.intr m = .idle → now ≠ 0 →
      Step c s (.timerintr m now) { s with intr := Function.update s.intr m (.entered now) }
  | zero {s : TimerSys P K M} {m : M} : s.halted = none → s.intr m = .idle →
      Step c s (.timerintr m 0) { s with halted := some .panic }
  | look {s : TimerSys P K M} {m : M} {now : Nat} {r : Except Halt (Timers K M × Option K)} :
      s.halted = none → s.intr m = .entered now → Port.look now s.q m = r →
      Step c s (.look m) (s.ends (fun (q, t) => { s with q := q }.run m now t) r)
  | readd {s : TimerSys P K M} {m : M} {t : K} {now turns fastticks : Nat} {r : Except Halt (Timers K M × Option K)} :
      s.halted = none → s.intr m = .handler t now → Port.readd c turns fastticks now s.q m t = r → r ≠ .error .turns →
      Step c s (.readd m fastticks) (s.ends (fun (q, t) => { s with q := q }.run m now t) r)

end TimerSys

end Plan9.Port
