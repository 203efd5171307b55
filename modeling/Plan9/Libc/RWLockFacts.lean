/-
The readers-writer lock keeps its promises as long as fewer than 2^31 read
locks are held at a time, which is what its count has room for.

The invariant has two halves. `Places` says where each process is: in the
queue, or a writer that was handed the lock and waits for its waker to call
rendezvous. `Owners` ties the counts of the lock to the locks held; what makes
it inductive is that while there are readers the first of the queue is a
writer. A step takes a prefix off the queue and adds to its end, and while
somebody waits the owners only get fewer (`Moves`); that the queue moves on
follows from the two.
-/
import Mathlib.Data.Prod.Lex
import Plan9.Libc.RWLock

namespace Plan9.Libc

open CInt Function Option List

namespace RWSys

variable {P : Type}

/-! ## Where the processes are -/

/-- The queue is `l`, and `h` the slot of the writer handed the lock, if it is still in it. -/
structure Places (pc : P → RWPc) (ql : Ql) (q : WaitQ) (l : List QLp) (h : Option QLp) : Prop where
  queue : q.Holds ql l
  inj : ∀ {i j : P} {p : QLp}, (pc i).slot = some p → (pc j).slot = some p → i = j
  inuse : ∀ {i : P} {p : QLp}, (pc i).slot = some p → ql.inuse p = true
  queued : ∀ {p : QLp}, p ∈ l → ∃ i m, pc i = .waiting p m ∧ ql.state p = m.state
  waiting : ∀ {i : P} {p : QLp} {m : Mode}, pc i = .waiting p m → p ∈ l ∨ h = some p ∧ m = .w
  handed : ∀ {p : QLp}, h = some p → p ∉ l ∧ (∃ i, pc i = .waiting p .w) ∧ ∃ j, pc j = .waking p
  waking : ∀ {j : P} {p : QLp}, pc j = .waking p → h = some p
  waker : ∀ {i j : P} {p : QLp}, pc i = .waking p → pc j = .waking p → i = j

section

variable {pc : P → RWPc} {ql : Ql} {q : WaitQ} {l : List QLp} {h : Option QLp}

theorem slot_waiting {i : P} {p : QLp} {m : Mode} (hp : pc i = .waiting p m) : (pc i).slot = some p := by
  rw [hp]; rfl

theorem Places.mode (hs : Places pc ql q l h) {j : P} {p : QLp} {m : Mode} (hj : pc j = .waiting p m) (hp : p ∈ l) :
    ql.state p = m.state := by
  obtain ⟨i, _, hi, hst⟩ := hs.queued hp
  obtain rfl : i = j := hs.inj (slot_waiting hi) (slot_waiting hj)
  rw [hj] at hi
  cases hi
  exact hst

theorem Places.ne_of_free (hs : Places pc ql q l h) {mp : QLp} (hf : ql.inuse mp = false) {i : P} {p : QLp}
    (hi : (pc i).slot = some p) : p ≠ mp := by
  intro e
  have := hs.inuse hi
  rw [e, hf] at this
  exact absurd this (by simp)

theorem Places.other_x {ql' : Ql} (hs : Places pc ql q l h)
    (hx : ∀ i mp, (pc i).slot = some mp → ql'.x mp = ql.x mp) {a : QLp} (ha : a ∈ l) : ql'.x a = ql.x a := by
  obtain ⟨i, m, hi, -⟩ := hs.queued ha
  exact hx i a (slot_waiting hi)

theorem Places.other {ql' : Ql} (hs : Places pc ql q l h)
    (hx : ∀ i mp, (pc i).slot = some mp → ql'.x mp = ql.x mp) : Places pc ql' q l h := by
  refine ⟨hs.queue.congr ?_, hs.inj, ?_, ?_, hs.waiting, hs.handed, hs.waking, hs.waker⟩
  · intro a ha
    unfold Ql.next
    rw [hs.other_x hx ha]
  · intro i p hi
    have := hs.inuse hi
    unfold Ql.inuse at this ⊢
    rwa [hx i p hi]
  intro p hp
  obtain ⟨i, m, hi, hst⟩ := hs.queued hp
  refine ⟨i, m, hi, ?_⟩
  unfold Ql.state at hst ⊢
  rwa [hs.other_x hx hp]

end

/-! ## Who has the lock -/

/-- The lock with `r` readers and `w` writers, one handed the lock counted. -/
structure Owners (q : RWLock) (ql : Ql) (r w : Nat) (l : List QLp) : Prop where
  readers : q.readers = r
  small : r < 2 ^ 31
  writer : q.writer = w
  one : w ≤ 1
  excl : w = 0 ∨ r = 0
  owned : l ≠ [] → 0 < r + w
  first : r ≠ 0 → ∀ p, l.head? = some p → ql.state p = .QueuingW

theorem Owners.congr {q : RWLock} {ql ql' : Ql} {r w : Nat} {l : List QLp} (ho : Owners q ql r w l)
    (hst : ∀ p ∈ l, ql'.state p = ql.state p) : Owners q ql' r w l := by
  refine { ho with first := ?_ }
  intro hr p hp
  rw [hst p (mem_of_mem_head? hp)]
  exact ho.first hr p hp

def writers (s : RWSys P) (h : Option QLp) : Nat := s.writing.card + if h.isSome then 1 else 0

structure Inv (s : RWSys P) (l : List QLp) (h : Option QLp) : Prop where
  places : Places s.pc s.ql s.q.toWaitQ l h
  owners : Owners s.q s.ql s.reading.card (s.writers h) l

theorem Inv.init {s : RWSys P} (hs : s.Init) : Inv s [] none := by
  have hslot : ∀ {i : P} {p : QLp}, (s.pc i).slot ≠ some p := by
    intro i p
    rw [hs.pc i]
    simp [RWPc.slot]
  refine ⟨⟨?_, ?_, ?_, ?_, ?_, ?_, ?_, ?_⟩, ?_⟩
  · rw [hs.q]; exact Chain.IsQueue.empty _
  · intro i j p hi
    exact absurd hi hslot
  · intro i p hi
    exact absurd hi hslot
  · intro p hp
    exact absurd hp (by simp)
  · intro i p m hi
    exact absurd (slot_waiting hi) hslot
  · intro p hp
    exact absurd hp (by simp)
  · intro j p hj
    rw [hs.pc j] at hj
    cases hj
  · intro i j p hi
    rw [hs.pc i] at hi
    cases hi
  rw [hs.q, hs.reading]
  refine ⟨rfl, by simp, by simp [writers, hs.writing], by simp [writers, hs.writing], .inr rfl, ?_, ?_⟩
  · intro h; exact absurd rfl h
  · intro h; exact absurd rfl h

theorem Inv.queue_eq {s : RWSys P} {l : List QLp} {h : Option QLp} (hi : Inv s l h) : s.queue = l :=
  hi.places.queue.toList_eq

/-! ## What a step does to the queue -/

/-- What a queue waits for: a lock handed over counts twice, for the rendezvous and for the unlock after it. -/
def weight (s : RWSys P) (h : Option QLp) : Nat :=
  s.reading.card + s.writing.card + if h.isSome then 2 else 0

end RWSys

def RWAct.Unlocks {P : Type} : RWAct P → Prop
  | .runlock _ => True
  | .wunlock _ => True
  | _ => False

/-- The steps the processes owe each other. -/
def RWAct.Releases {P : Type} : RWAct P → Prop
  | .runlock _ => True
  | .wunlock _ => True
  | .rendezvous _ => True
  | _ => False

namespace RWSys

variable {P : Type}

/-- From queue `l` and weight `n` to `l'` and `n'`: some of the front go, and then it was an unlock, or some
come to the end; if nobody goes, the weight does not grow, and falls with each release. -/
structure Moves (a : RWAct P) (l l' : List QLp) (n n' : Nat) : Prop where
  shift : ∃ woken rest new, l = woken ++ rest ∧ l' = rest ++ new ∧ (woken ≠ [] → a.Unlocks ∧ new = []) ∧
    (woken = [] → l ≠ [] → n' ≤ n ∧ (a.Releases → n' < n))

theorem Moves.same {a : RWAct P} (ha : ¬ a.Releases) (l : List QLp) (n : Nat) : Moves a l l n n :=
  ⟨[], l, [], rfl, (append_nil l).symm, fun h => absurd rfl h, fun _ _ => ⟨Nat.le_refl n, fun h => absurd h ha⟩⟩

theorem Moves.append {a : RWAct P} (ha : ¬ a.Releases) (l : List QLp) (mp : QLp) (n : Nat) :
    Moves a l (l ++ [mp]) n n :=
  ⟨[], l, [mp], rfl, rfl, fun h => absurd rfl h, fun _ _ => ⟨Nat.le_refl n, fun h => absurd h ha⟩⟩

theorem Moves.of_nil (a : RWAct P) (n n' : Nat) : Moves a [] [] n n' :=
  ⟨[], [], [], rfl, rfl, fun h => absurd rfl h, fun _ h => absurd rfl h⟩

theorem Moves.progress {a : RWAct P} {l l' : List QLp} {n n' : Nat} (hm : Moves a l l' n n') (hnd : l.Nodup)
    {p : QLp} (hp : p ∈ l) :
    a.Unlocks ∧ p ∉ l' ∨ p ∈ l' ∧ (Prod.Lex (· < ·) (· < ·) (l'.idxOf p, n') (l.idxOf p, n) ∨
      l'.idxOf p = l.idxOf p ∧ n' = n ∧ ¬ a.Releases) := by
  obtain ⟨woken, rest, _, rfl, rfl, hwoken, hstay⟩ := hm.shift
  by_cases hr : p ∈ rest
  · right
    refine ⟨mem_append_left _ hr, ?_⟩
    have hw : p ∉ woken := fun hw => (nodup_append.mp hnd).2.2 p hw p hr rfl
    rw [idxOf_append_of_mem hr, idxOf_append_of_notMem hw]
    cases woken with
    | cons b woken =>
      left
      exact Prod.Lex.left _ _ (by rw [length_cons]; omega)
    | nil =>
      obtain ⟨_, hlt⟩ := hstay rfl (ne_nil_of_mem hr)
      rw [length_nil, Nat.zero_add]
      by_cases heq : n' = n
      · right
        exact ⟨rfl, heq, fun hrel => absurd (hlt hrel) (by omega)⟩
      · left
        exact Prod.Lex.right _ (by omega)
  left
  have hw : p ∈ woken := (mem_append.mp hp).resolve_right hr
  obtain ⟨hu, rfl⟩ := hwoken (ne_nil_of_mem hw)
  exact ⟨hu, by rwa [append_nil]⟩

/-! ### `rlock` and `wlock` -/

theorem rwWait_eq {st : QState} {q q' : RWLock} {ql ql' : Ql} {w : Option QLp}
    (h : rwWait st q ql = some (q', ql', w)) : ∃ mp ql1, getqlp ql = some (mp, ql1) ∧ w = some mp ∧
      q' = { q with toWaitQ := (q.toWaitQ.link mp ql1).1 } ∧
      ql' = ((q.toWaitQ.link mp ql1).2.setNext mp none).setState mp st := by
  rw [rwWait] at h
  cases hg : getqlp ql with
  | none => rw [hg] at h; exact absurd h (by simp)
  | some r =>
    obtain ⟨mp, ql1⟩ := r
    rw [hg] at h
    cases h
    exact ⟨mp, ql1, rfl, rfl, rfl, rfl⟩

section

variable {s s' : RWSys P} {l : List QLp} {h : Option QLp} {i : P}

theorem Inv.hold_r (hs : Inv s l h) (hw : s.q.writer = 0) (hl : s.q.head = none)
    (hb : s.reading.card + 1 < 2 ^ 31) :
    Inv ({ s with q := { s.q with readers := int32 (s.q.readers + 1) } }.hold i .r) l h := by
  have ho := hs.owners
  have hr := ho.readers
  have hw' := ho.writer
  refine ⟨hs.places, ⟨?_, ?_, hw', ho.one, ?_, ?_, ?_⟩⟩
  · change int32 (s.q.readers + 1) = ((i ::ₘ s.reading).card : Int)
    rw [int32_eq (by omega) (by omega), Multiset.card_cons]
    omega
  · change (i ::ₘ s.reading).card < 2 ^ 31
    rwa [Multiset.card_cons]
  · left
    change s.writers h = 0
    omega
  · intro hne
    exact absurd (hs.places.queue.head_none_iff.mp hl) hne
  · intro _ p hp
    rw [hs.places.queue.head_none_iff.mp hl] at hp
    exact absurd hp (by simp)

theorem Inv.hold_w (hs : Inv s l h) (hr : s.q.readers = 0) (hw : s.q.writer = 0) :
    l = [] ∧ Inv ({ s with q := { s.q with writer := 1 } }.hold i .w) l h := by
  have ho := hs.owners
  have hr' := ho.readers
  have hw' := ho.writer
  have hl : l = [] := by
    by_contra hne
    have := ho.owned hne
    omega
  have hwr : writers ({ s with q := { s.q with writer := 1 } }.hold i .w) h = s.writers h + 1 := by
    change (i ::ₘ s.writing).card + _ = s.writing.card + _ + 1
    rw [Multiset.card_cons]
    omega
  refine ⟨hl, hs.places, ?_⟩
  refine ⟨hr', ho.small, ?_, ?_, ?_, ?_, ho.first⟩
  · change (1 : Int) = _
    omega
  · omega
  · right
    change s.reading.card = 0
    omega
  · intro hne
    exact absurd hl hne

/-! ### `runlock` and `wunlock` -/

theorem writers_eq_zero (hz : s.writers h = 0) : h = none ∧ s.writing.card = 0 := by
  unfold writers at hz
  cases h with
  | none => exact ⟨rfl, by simpa using hz⟩
  | some p => exact absurd hz (by simp)

/-- A reader has company, or a writer or nobody behind it. -/
theorem Inv.runlock_cases (hs : Inv s l h) (hm : i ∈ s.reading) :
    h = none ∧ s.writing.card = 0 ∧ s.q.readers = s.reading.card ∧
    (1 < s.reading.card ∧ Libc.runlock s.q s.ql = some ({ s.q with readers := s.q.readers - 1 }, none) ∨
     s.reading.card = 1 ∧ l = [] ∧ Libc.runlock s.q s.ql = some ({ s.q with readers := 0 }, none) ∨
     ∃ p rest, s.reading.card = 1 ∧ l = p :: rest ∧ s.ql.state p = .QueuingW ∧
       Libc.runlock s.q s.ql = some ({ toWaitQ := s.q.unlink p s.ql, readers := 0, writer := 1 }, some p)) := by
  have ho := hs.owners
  have hr := ho.readers
  have hsmall := ho.small
  have hpos : 0 < s.reading.card := Multiset.card_pos_iff_exists_mem.mpr ⟨i, hm⟩
  have hz : s.writers h = 0 := by
    rcases ho.excl with hz | hz <;> omega
  have hint : int32 (s.q.readers - 1) = s.q.readers - 1 := int32_eq (by omega) (by omega)
  refine ⟨(writers_eq_zero hz).1, (writers_eq_zero hz).2, hr, ?_⟩
  unfold Libc.runlock
  rw [if_neg (by omega)]
  simp only [hint]
  by_cases hone : 1 < s.reading.card
  · left
    exact ⟨hone, if_pos (by omega)⟩
  right
  have hcard : s.reading.card = 1 := by omega
  have hzero : s.q.readers - 1 = 0 := by omega
  rw [if_neg (by omega), hs.places.queue.head, hzero]
  cases l with
  | nil => exact .inl ⟨hcard, rfl, rfl⟩
  | cons p rest =>
    have hst := ho.first (by omega) p rfl
    exact .inr ⟨p, rest, hcard, rfl, hst, by simp [hst]⟩

theorem wakeReaders_eq {ql : Ql} : ∀ {l : List QLp} {head : Option QLp} {n : Nat} {r : Int},
    Chain.Linked ql.next head l → l.length ≤ n → 0 ≤ r → r + l.length < 2 ^ 31 →
    ∃ ps rest, l = ps ++ rest ∧ (∀ p ∈ ps, ql.state p = .QueuingR) ∧
      (∀ p, rest.head? = some p → ql.state p ≠ .QueuingR) ∧ Chain.Linked ql.next rest.head? rest ∧
      wakeReaders ql n head r = (rest.head?, r + ps.length, ps)
  | [], head, n, r, hl, _, _, _ => by
    obtain rfl : head = none := hl
    refine ⟨[], [], rfl, by simp, by simp, rfl, ?_⟩
    cases n with
    | zero => simp [wakeReaders]
    | succ n => simp [wakeReaders]
  | a :: l, head, n, r, hl, hn, hr, hsum => by
    obtain rfl : head = some a := hl.1
    cases n with
    | zero => exact absurd hn (by simp)
    | succ n =>
      rw [length_cons] at hn hsum
      by_cases hst : ql.state a = .QueuingR
      · have hint : int32 (r + 1) = r + 1 := int32_eq (by omega) (by omega)
        obtain ⟨ps, rest, rfl, hps, hrest, hlink, heq⟩ :=
          wakeReaders_eq hl.2 (Nat.le_of_succ_le_succ hn) (show 0 ≤ r + 1 by omega) (by omega)
        refine ⟨a :: ps, rest, rfl, ?_, hrest, hlink, ?_⟩
        · intro p hp
          rcases mem_cons.mp hp with rfl | hp
          · exact hst
          · exact hps p hp
        · rw [wakeReaders, if_pos hst, hint, heq]
          simp only [length_cons, Prod.mk.injEq, and_true, true_and]
          omega
      refine ⟨[], a :: l, rfl, by simp, ?_, hl, ?_⟩
      · intro p hp
        obtain rfl : a = p := some.inj hp
        exact hst
      · rw [wakeReaders, if_neg hst]
        simp

/-- A writer has nobody behind it, or a writer, or readers, and those all go together. -/
theorem Inv.wunlock_cases (hs : Inv s l h) (hm : i ∈ s.writing) :
    h = none ∧ s.writing.card = 1 ∧ s.reading.card = 0 ∧
    (l = [] ∧ Libc.wunlock s.q s.ql = some ({ s.q with writer := 0 }, [], none) ∨
     (∃ p rest, l = p :: rest ∧ s.ql.state p = .QueuingW ∧
       Libc.wunlock s.q s.ql = some ({ s.q with toWaitQ := s.q.unlink p s.ql }, [], some p)) ∨
     ∃ ps rest, l = ps ++ rest ∧ ps ≠ [] ∧ (∀ p ∈ ps, s.ql.state p = .QueuingR) ∧
       (∀ p, rest.head? = some p → s.ql.state p = .QueuingW) ∧
       WaitQ.Holds ⟨rest.head?, if rest.head?.isNone then none else s.q.tail⟩ s.ql rest ∧
       Libc.wunlock s.q s.ql = some (⟨⟨rest.head?, if rest.head?.isNone then none else s.q.tail⟩, ps.length, 0⟩,
         ps, none)) := by
  have ho := hs.owners
  have hr := ho.readers
  have hw := ho.writer
  have hone := ho.one
  have hpos : 0 < s.writing.card := Multiset.card_pos_iff_exists_mem.mpr ⟨i, hm⟩
  have hh : h = none ∧ s.writing.card = 1 ∧ s.writers h = 1 := by
    cases h with
    | none =>
      change s.writing.card + 0 ≤ 1 at hone
      exact ⟨rfl, by omega, show s.writing.card + 0 = 1 by omega⟩
    | some p =>
      change s.writing.card + 1 ≤ 1 at hone
      omega
  obtain ⟨rfl, hcard, _⟩ := hh
  have hrz : s.reading.card = 0 := by
    rcases ho.excl with hz | hz <;> omega
  refine ⟨rfl, hcard, hrz, ?_⟩
  unfold Libc.wunlock
  rw [if_neg (by omega), hs.places.queue.head]
  cases l with
  | nil => exact .inl ⟨rfl, rfl⟩
  | cons p rest =>
    right
    obtain ⟨j, m, _, hst⟩ := hs.places.queued (mem_cons_self ..)
    cases m with
    | w =>
      left
      refine ⟨p, rest, rfl, hst, ?_⟩
      simp [hst, Mode.state]
    | r =>
      right
      have hlen := hs.places.queue.length_le
      obtain ⟨ps, rest', heq, hps, hrest, hlink, hloop⟩ :=
        @wakeReaders_eq s.ql (p :: rest) (some p) 1024 s.q.readers ⟨rfl, hs.places.queue.linked.2⟩ hlen
          (by omega) (by omega)
      have hne : ps ≠ [] := by
        intro e
        rw [e, nil_append] at heq
        exact hrest p (by rw [← heq]; rfl) hst
      have hq : WaitQ.Holds ⟨rest'.head?, if rest'.head?.isNone then none else s.q.tail⟩ s.ql rest' :=
        Chain.IsQueue.suffix (heq ▸ hs.places.queue) hlink
      refine ⟨ps, rest', heq, hne, hps, ?_, hq, ?_⟩
      · intro a ha
        have hmem : a ∈ p :: rest := by
          rw [heq]
          exact mem_append_right _ (mem_of_mem_head? ha)
        obtain ⟨k, m, _, hst'⟩ := hs.places.queued hmem
        cases m with
        | w => exact hst'
        | r => exact absurd hst' (hrest a ha)
      have hzero : s.q.readers = 0 := by omega
      rw [hzero] at hloop
      simp only [head?_cons, hst, hzero, hloop]
      simp [Mode.state]

end

variable [DecidableEq P]

/-! ## The queue and the rendezvous -/

section

variable {pc : P → RWPc} {ql : Ql} {q : WaitQ} {l : List QLp} {h : Option QLp}

theorem Places.enqueue (hs : Places pc ql q l h) {i : P} {m : Mode} {mp : QLp} {ql1 : Ql} (hi : pc i = .idle)
    (hg : getqlp ql = some (mp, ql1)) :
    Places (update pc i (.waiting mp m))
      (((q.link mp ql1).2.setNext mp none).setState mp m.state) (q.link mp ql1).1 (l ++ [mp]) h := by
  obtain ⟨hfree, hinuse, hnext, hstate⟩ := getqlp_eq hg
  have hmp : mp ∉ l := by
    intro hm
    obtain ⟨j, m', hj, -⟩ := hs.queued hm
    exact hs.ne_of_free hfree (slot_waiting hj) rfl
  have hq1 : q.Holds ql1 l := by
    refine hs.queue.congr fun a ha => ?_
    have hne : a ≠ mp := fun e => hmp (e ▸ ha)
    rw [hnext, update_of_ne hne]
  have hmpn : ql1.next mp = none := by rw [hnext, update_self]
  obtain ⟨hli, hls, hln⟩ := @WaitQ.link_frame q ql1 l mp hq1
  have hslot : ∀ p m, RWPc.slot (.waiting p m) = some p := fun _ _ => rfl
  have hinuse' := @hs.inuse
  refine ⟨?_, ?_, ?_, ?_, ?_, ?_, ?_, ?_⟩
  · refine (hq1.link hmp hmpn).congr fun a _ => ?_
    rw [Ql.next_setState, Ql.next_setNext]
    by_cases ha : a = mp
    · rw [ha, update_self, hln mp hmp, hmpn]
    · rw [update_of_ne ha]
  · intro j k p hj hk
    have hinj := @hs.inj j k p
    grind [update_apply]
  · intro j p hj
    simp only [Ql.inuse_setState, Ql.inuse_setNext, hli, hinuse]
    grind [update_apply]
  · intro p hp
    simp only [Ql.state_setState, Ql.state_setNext, hls, hstate]
    rcases mem_append.mp hp with hp | hp
    · obtain ⟨j, m', hj, _⟩ := hs.queued hp
      exact ⟨j, m', by grind [update_apply], by grind [update_apply]⟩
    · obtain rfl : p = mp := mem_singleton.mp hp
      exact ⟨i, m, update_self .., update_self ..⟩
  · intro j p m' hj
    have hwait := @hs.waiting j p m'
    grind [update_apply]
  · intro p hp
    obtain ⟨hpl, ⟨j, hj⟩, k, hk⟩ := hs.handed hp
    have hne := hs.ne_of_free hfree (slot_waiting hj)
    exact ⟨by simp [hpl, hne], ⟨j, by grind [update_apply]⟩, k, by grind [update_apply]⟩
  · intro j p hj
    have hwaking := @hs.waking j p
    grind [update_apply]
  · intro j k p hj hk
    have hwaker := @hs.waker j k p
    grind [update_apply]

theorem Places.hand {p : QLp} (hs : Places pc ql q (p :: l) none) {i : P} (hi : pc i = .idle)
    (hw : ql.state p = .QueuingW) : Places (update pc i (.waking p)) ql (q.unlink p ql) l (some p) := by
  obtain ⟨j, m, _, hst⟩ := hs.queued (mem_cons_self ..)
  obtain rfl : m = .w := by
    cases m with
    | r => rw [hst] at hw; exact absurd hw (by decide)
    | w => rfl
  have hpl : p ∉ l := (nodup_cons.mp hs.queue.nodup).1
  have hnone : ∀ {k : P} {a : QLp}, pc k ≠ .waking a := fun hk => absurd (hs.waking hk) (by simp)
  have hslot : ∀ {k : P}, (update pc i (.waking p) k).slot = (pc k).slot := by
    intro k
    by_cases hki : k = i
    · rw [hki, update_self, hi]; rfl
    · rw [update_of_ne hki]
  refine ⟨hs.queue.unlink, ?_, ?_, ?_, ?_, ?_, ?_, ?_⟩
  · intro k k' a hk hk'
    exact hs.inj (hslot ▸ hk) (hslot ▸ hk')
  · intro k a hk
    exact hs.inuse (hslot ▸ hk)
  · intro a ha
    obtain ⟨k, m, hk, hst⟩ := hs.queued (mem_cons_of_mem _ ha)
    exact ⟨k, m, by grind [update_apply], hst⟩
  · intro k a m hk
    have hwait := @hs.waiting k a m
    have hmode := @Places.mode _ _ _ _ _ _ hs k a m
    cases m <;> grind [update_apply, Mode.state]
  · intro a ha
    obtain rfl : p = a := some.inj ha
    exact ⟨hpl, ⟨j, by grind [update_apply]⟩, i, update_self ..⟩
  · intro k a hk
    grind [update_apply]
  · intro k k' a hk hk'
    grind [update_apply]

theorem Places.meet {p : QLp} {m : Mode} (hs : Places pc ql q l h) {i j : P} (hi : pc i = .waking p)
    (hj : update pc i .idle j = .waiting p m) :
    m = .w ∧ h = some p ∧ Places (update (update pc i .idle) j (.returning p)) ql q l none := by
  obtain rfl : h = some p := hs.waking hi
  have hji : j ≠ i := by
    intro e
    rw [e, update_self] at hj
    exact absurd hj (by simp)
  rw [update_of_ne hji] at hj
  have hpl := (hs.handed rfl).1
  have hm : m = .w := by
    rcases hs.waiting hj with hp | hp
    · exact absurd hp hpl
    · exact hp.2
  have hslot : ∀ {k : P}, (update (update pc i .idle) j (.returning p) k).slot = (pc k).slot := by
    intro k
    by_cases hkj : k = j
    · rw [hkj, update_self, hj]; rfl
    rw [update_of_ne hkj]
    by_cases hki : k = i
    · rw [hki, update_self, hi]; rfl
    · rw [update_of_ne hki]
  refine ⟨hm, rfl, hs.queue, ?_, ?_, ?_, ?_, ?_, ?_, ?_⟩
  · intro k k' a hk hk'
    exact hs.inj (hslot ▸ hk) (hslot ▸ hk')
  · intro k a hk
    exact hs.inuse (hslot ▸ hk)
  · intro a ha
    obtain ⟨k, m', hk, hst⟩ := hs.queued ha
    exact ⟨k, m', by grind [update_apply], hst⟩
  · intro k a m' hk
    have hwait := @hs.waiting k a m'
    have hinj := @hs.inj k j a
    have hsl := slot_waiting hj
    grind [update_apply]
  · intro a ha
    exact absurd ha (by simp)
  · intro k a hk
    have hwaking := @hs.waking k a
    have hwaker := @hs.waker k i a
    grind [update_apply]
  · intro k k' a hk hk'
    have hwaker := @hs.waker k k' a
    grind [update_apply]

theorem Places.meet_head {p : QLp} {m : Mode} (hs : Places pc ql q (p :: l) none) {j : P}
    (hj : pc j = .waiting p m) : Places (update pc j (.returning p)) ql (q.unlink p ql) l none := by
  have hpl : p ∉ l := (nodup_cons.mp hs.queue.nodup).1
  have hnone : ∀ {k : P} {a : QLp}, pc k ≠ .waking a := fun hk => absurd (hs.waking hk) (by simp)
  have hslot : ∀ {k : P}, (update pc j (.returning p) k).slot = (pc k).slot := by
    intro k
    by_cases hkj : k = j
    · rw [hkj, update_self, hj]; rfl
    · rw [update_of_ne hkj]
  refine ⟨hs.queue.unlink, ?_, ?_, ?_, ?_, ?_, ?_, ?_⟩
  · intro k k' a hk hk'
    exact hs.inj (hslot ▸ hk) (hslot ▸ hk')
  · intro k a hk
    exact hs.inuse (hslot ▸ hk)
  · intro a ha
    obtain ⟨k, m', hk, hst⟩ := hs.queued (mem_cons_of_mem _ ha)
    exact ⟨k, m', by grind [update_apply], hst⟩
  · intro k a m' hk
    have hwait := @hs.waiting k a m'
    have hinj := @hs.inj k j a
    have hsl' : ∀ b m', RWPc.slot (.waiting b m') = some b := fun _ _ => rfl
    grind [update_apply]
  · intro a ha
    exact absurd ha (by simp)
  · intro k a hk
    have hnone' := @hnone k a
    grind [update_apply]
  · intro k k' a hk hk'
    grind [update_apply]

theorem Places.free {mp : QLp} (hs : Places pc ql q l h) {i : P} (hi : pc i = .returning mp) :
    Places (update pc i .idle) (ql.setInuse mp false) q l h := by
  have hslot : ∀ {k : P} {a : QLp}, (update pc i .idle k).slot = some a → (pc k).slot = some a ∧ k ≠ i := by
    intro k a hk
    by_cases hki : k = i
    · rw [hki, update_self] at hk
      exact absurd hk (by simp [RWPc.slot])
    · rw [update_of_ne hki] at hk
      exact ⟨hk, hki⟩
  refine ⟨hs.queue.congr (by simp), ?_, ?_, ?_, ?_, ?_, ?_, ?_⟩
  · intro k k' a hk hk'
    exact hs.inj (hslot hk).1 (hslot hk').1
  · intro k a hk
    obtain ⟨hk, hki⟩ := hslot hk
    have hne : a ≠ mp := by
      intro e
      exact hki (hs.inj hk (by rw [hi, e]; rfl))
    rw [Ql.inuse_setInuse, update_of_ne hne, hs.inuse hk]
  · intro a ha
    obtain ⟨k, m', hk, _⟩ := hs.queued ha
    exact ⟨k, m', by grind [update_apply], by rwa [Ql.state_setInuse]⟩
  · intro k a m' hk
    have hwait := @hs.waiting k a m'
    grind [update_apply]
  · intro a ha
    obtain ⟨hpl, ⟨j, _⟩, k, hk⟩ := hs.handed ha
    exact ⟨hpl, ⟨j, by grind [update_apply]⟩, k, by grind [update_apply]⟩
  · intro k a hk
    have hwaking := @hs.waking k a
    grind [update_apply]
  · intro k k' a hk hk'
    have hwaker := @hs.waker k k' a
    grind [update_apply]

end

variable {s s' : RWSys P} {l : List QLp} {h : Option QLp} {i : P}

theorem Inv.wait (hs : Inv s l h) {m : Mode} {q : RWLock} {ql : Ql} {w : Option QLp} (hi : s.pc i = .idle)
    (hq : rwWait m.state s.q s.ql = some (q, ql, w)) (hown : 0 < s.reading.card + s.writers h)
    (hfirst : l = [] → s.reading.card ≠ 0 → m = .w) :
    ∃ mp, w = some mp ∧ Inv ({ s with q := q, ql := ql }.enter i m w) (l ++ [mp]) h := by
  obtain ⟨mp, _, hg, rfl, rfl, rfl⟩ := rwWait_eq hq
  have ho := hs.owners
  have hp := hs.places.enqueue (m := m) hi hg
  refine ⟨mp, rfl, hp, ho.readers, ho.small, ho.writer, ho.one, ho.excl, fun _ => hown, ?_⟩
  intro hr p hhead
  cases l with
  | nil =>
    obtain rfl : mp = p := some.inj hhead
    obtain rfl : m = .w := hfirst rfl hr
    exact hp.mode (update_self ..) (by simp)
  | cons a l =>
    obtain rfl : a = p := some.inj hhead
    obtain ⟨j, _, hj, hst⟩ := hs.places.queued (mem_cons_self ..)
    have hji : j ≠ i := by
      intro e
      rw [e, hi] at hj
      cases hj
    have hst' := hp.mode (by rwa [update_of_ne hji]) (by simp)
    exact hst'.trans (hst.symm.trans (ho.first hr a rfl))

/-! ## The unlocks -/

theorem Inv.runlock (hs : Inv s l h) {q : RWLock} {w : Option QLp} (hi : s.pc i = .idle) (hm : i ∈ s.reading)
    (hq : Libc.runlock s.q s.ql = some (q, w)) :
    ∃ l' h', Inv ({ s with q := q, reading := s.reading.erase i }.wake i w) l' h' ∧
      Moves (.runlock i) l l' (s.weight h)
        (weight ({ s with q := q, reading := s.reading.erase i }.wake i w) h') := by
  obtain ⟨rfl, hwz, _, hcases⟩ := hs.runlock_cases hm
  have ho := hs.owners
  have herase : (s.reading.erase i).card = s.reading.card - 1 := Multiset.card_erase_of_mem hm
  rcases hcases with ⟨hone, heq⟩ | ⟨hone, rfl, heq⟩ | ⟨p, rest, hone, rfl, hst, heq⟩
  · rw [heq] at hq
    cases hq
    have hlt : (s.reading.erase i).card < s.reading.card := by omega
    refine ⟨l, none, ⟨hs.places, ⟨?_, ?_, ho.writer, ho.one, .inl hwz, ?_, ?_⟩⟩, ⟨[], l, [], rfl, by simp, ?_, ?_⟩⟩
    · change s.q.readers - 1 = ((s.reading.erase i).card : Int)
      omega
    · exact Nat.lt_trans hlt ho.small
    · intro _
      change 0 < (s.reading.erase i).card + _
      omega
    · intro _
      exact ho.first (by omega)
    · intro hne
      exact absurd rfl hne
    intro _ _
    have hw : weight { s with q := { s.q with readers := s.q.readers - 1 }, reading := s.reading.erase i } none <
        s.weight none := by
      unfold weight
      simpa using hlt
    exact ⟨Nat.le_of_lt hw, fun _ => hw⟩
  · rw [heq] at hq
    cases hq
    have hcard : (s.reading.erase i).card = 0 := by omega
    refine ⟨[], none, ⟨hs.places, ⟨?_, ?_, ho.writer, ho.one, .inl hwz, ?_, ?_⟩⟩, Moves.of_nil ..⟩
    · change (0 : Int) = ((s.reading.erase i).card : Int)
      omega
    · change (s.reading.erase i).card < _
      omega
    · intro hne
      exact absurd rfl hne
    · intro _ p hp
      exact absurd hp (by simp)
  rw [heq] at hq
  cases hq
  have hcard : (s.reading.erase i).card = 0 := by omega
  have hpl := hs.places.hand hi hst
  refine ⟨rest, some p, ⟨hpl, ⟨?_, ?_, ?_, ?_, .inr hcard, ?_, ?_⟩⟩, ⟨[p], rest, [], rfl, by simp, ?_, ?_⟩⟩
  · change (0 : Int) = ((s.reading.erase i).card : Int)
    omega
  · change (s.reading.erase i).card < _
    omega
  · change (1 : Int) = ((s.writing.card + 1 : Nat) : Int)
    omega
  · change s.writing.card + 1 ≤ 1
    omega
  · intro _
    change 0 < _ + (s.writing.card + 1)
    omega
  · intro hne
    exact absurd hcard hne
  · intro _
    exact ⟨trivial, rfl⟩
  · intro hne
    exact absurd hne (by simp)

theorem Meets.spec {ps : List QLp} (hm : Meets s ps s') : ∀ {q : WaitQ} {l : List QLp},
    Places s.pc s.ql q (ps ++ l) none → (∀ p ∈ ps, s.ql.state p = .QueuingR) →
    (∃ q', Places s'.pc s.ql q' l none) ∧ s'.q = s.q ∧ s'.ql = s.ql ∧ s'.writing = s.writing ∧
      s'.reading.card = s.reading.card + ps.length := by
  induction hm with
  | nil =>
    intro q l hp _
    exact ⟨⟨q, hp⟩, rfl, rfl, rfl, rfl⟩
  | @cons s s₁ s' p ps hmeet _ ih =>
    intro q l hp hst
    cases hmeet with
    | @mk j _ m hj =>
      have hmode := hp.mode hj (by simp)
      rw [hst p (by simp)] at hmode
      cases m with
      | w => exact absurd hmode (by decide)
      | r =>
        obtain ⟨hp', hq, hql, hw, hr⟩ := ih (hp.meet_head hj) fun a ha => hst a (by simp [ha])
        refine ⟨hp', hq, hql, hw, ?_⟩
        rw [hr]
        change (j ::ₘ s.reading).card + _ = _
        rw [Multiset.card_cons, length_cons]
        omega

theorem Meets.exists {ps : List QLp} : ∀ {s : RWSys P} {q : WaitQ} {l : List QLp},
    Places s.pc s.ql q (ps ++ l) none → ∃ s', Meets s ps s' := by
  induction ps with
  | nil => intro s q l _; exact ⟨s, .nil⟩
  | cons p ps ih =>
    intro s q l hp
    obtain ⟨j, m, hj, -⟩ := hp.queued (mem_cons_self ..)
    have hp' := hp.meet_head hj
    have hpc : ((s.goto j (.returning p)).hold j m).pc = update s.pc j (.returning p) := by
      cases m <;> rfl
    have hql : ((s.goto j (.returning p)).hold j m).ql = s.ql := by
      cases m <;> rfl
    obtain ⟨s', hs'⟩ := @ih ((s.goto j (.returning p)).hold j m) _ l (by rw [hpc, hql]; exact hp')
    exact ⟨s', .cons (.mk hj) hs'⟩

theorem Inv.wunlock (hs : Inv s l h) {s₁ : RWSys P} {q : RWLock} {ps : List QLp} {w : Option QLp}
    (hi : s.pc i = .idle) (hm : i ∈ s.writing) (hq : Libc.wunlock s.q s.ql = some (q, ps, w))
    (hmeets : Meets { s with q := q, writing := s.writing.erase i } ps s₁) :
    ∃ l' h', Inv (s₁.wake i w) l' h' ∧ Moves (.wunlock i) l l' (s.weight h) (weight (s₁.wake i w) h') := by
  obtain ⟨rfl, hwo, hrz, hcases⟩ := hs.wunlock_cases hm
  have ho := hs.owners
  have hr := ho.readers
  have herase : (s.writing.erase i).card = 0 := by
    rw [Multiset.card_erase_of_mem hm, hwo]; rfl
  rcases hcases with ⟨rfl, heq⟩ | ⟨p, rest, rfl, hst, heq⟩ | ⟨_, rest, rfl, hne, hread, hwrite, hhold, heq⟩
  · rw [heq] at hq
    cases hq
    cases hmeets
    refine ⟨[], none, ⟨hs.places, ⟨hr, ho.small, ?_, ?_, .inr hrz, ?_, ?_⟩⟩, Moves.of_nil ..⟩
    · change (0 : Int) = (((s.writing.erase i).card + 0 : Nat) : Int)
      omega
    · change (s.writing.erase i).card + 0 ≤ 1
      omega
    · intro hne
      exact absurd rfl hne
    · intro hne
      exact absurd hrz hne
  · rw [heq] at hq
    cases hq
    cases hmeets
    refine ⟨rest, some p, ⟨hs.places.hand hi hst, ⟨hr, ho.small, ?_, ?_, .inr hrz, ?_, ?_⟩⟩,
      ⟨[p], rest, [], rfl, by simp, fun _ => ⟨trivial, rfl⟩, fun e => absurd e (by simp)⟩⟩
    · change s.q.writer = (((s.writing.erase i).card + 1 : Nat) : Int)
      have hw := ho.writer
      change s.q.writer = ((s.writing.card + 0 : Nat) : Int) at hw
      omega
    · change (s.writing.erase i).card + 1 ≤ 1
      omega
    · intro _
      change 0 < _ + ((s.writing.erase i).card + 1)
      omega
    · intro hne
      exact absurd hrz hne
  rw [heq] at hq
  cases hq
  obtain ⟨⟨_, hp'⟩, hq1, hql1, hw1, hr1⟩ := hmeets.spec hs.places hread
  have hlen : ps.length ≤ 1024 := by
    have hall := hs.places.queue.length_le
    rw [length_append] at hall
    omega
  have hr1' : s₁.reading.card = ps.length := by
    rw [hr1]
    change s.reading.card + _ = _
    omega
  have hw1' : s₁.writing.card = 0 := by rw [hw1]; exact herase
  refine ⟨rest, none, ⟨?_, ?_⟩, ⟨ps, rest, [], rfl, by simp, fun _ => ⟨trivial, rfl⟩, fun e => absurd e hne⟩⟩
  · change Places s₁.pc s₁.ql s₁.q.toWaitQ rest none
    rw [hq1, hql1]
    exact { hp' with queue := hhold }
  change Owners s₁.q s₁.ql s₁.reading.card (s₁.writing.card + 0) rest
  rw [hq1, hql1, hr1', hw1']
  refine ⟨rfl, by omega, rfl, by omega, .inl rfl, ?_, ?_⟩
  · intro _
    have := length_pos_iff.mpr hne
    omega
  · intro _
    exact hwrite

/-! ## Every step -/

theorem Inv.rendezvous (hs : Inv s l h) {p : QLp} (hi : s.pc i = .waking p) (hmeet : Meet (s.goto i .idle) p s') :
    Inv s' l none ∧ s'.weight none < s.weight h := by
  cases hmeet with
  | @mk j _ m hj =>
    have ho := hs.owners
    obtain ⟨rfl, rfl, hp⟩ := hs.places.meet hi hj
    have hwr : writers ((s.goto i .idle).goto j (.returning p) |>.hold j .w) none = s.writers (some p) := by
      change (j ::ₘ s.writing).card + 0 = s.writing.card + 1
      rw [Multiset.card_cons]
    refine ⟨⟨hp, ?_⟩, ?_⟩
    · rw [hwr]
      exact ho
    · change s.reading.card + (j ::ₘ s.writing).card + 0 < s.reading.card + s.writing.card + 2
      rw [Multiset.card_cons]
      omega

/-- **A step keeps the invariant.** -/
theorem Step.inv {a : RWAct P} (hstep : Step s a s') (hs : Inv s l h) (hb : s'.reading.card < 2 ^ 31) :
    ∃ l' h', Inv s' l' h' ∧ Moves a l l' (s.weight h) (s'.weight h') := by
  have ho := hs.owners
  have hr := ho.readers
  have hw := ho.writer
  cases hstep with
  | @rlock i q ql w hi hq =>
    unfold Libc.rlock at hq
    by_cases hfast : s.q.writer = 0 ∧ s.q.head = none
    · rw [if_pos hfast] at hq
      cases hq
      obtain rfl : l = [] := hs.places.queue.head_none_iff.mp hfast.2
      have hb' : s.reading.card + 1 < 2 ^ 31 := by
        change (i ::ₘ s.reading).card < _ at hb
        rwa [Multiset.card_cons] at hb
      exact ⟨[], h, hs.hold_r hfast.1 hfast.2 hb', Moves.of_nil ..⟩
    rw [if_neg hfast] at hq
    have hown : l = [] → s.writers h ≠ 0 := by
      intro hl hz
      refine hfast ⟨by omega, hs.places.queue.head_none_iff.mpr hl⟩
    have hpos : 0 < s.reading.card + s.writers h := by
      by_cases hl : l = []
      · have := hown hl
        omega
      · exact ho.owned hl
    obtain ⟨mp, rfl, hinv⟩ := hs.wait (m := .r) hi hq hpos (by
      intro hl hne
      have := hown hl
      rcases ho.excl with hz | hz <;> omega)
    exact ⟨l ++ [mp], h, hinv, Moves.append id l mp _⟩
  | @canrlock i q ok hi hq =>
    unfold Libc.canrlock at hq
    by_cases hfast : s.q.writer = 0 ∧ s.q.head = none
    · rw [if_pos hfast] at hq
      cases hq
      obtain rfl : l = [] := hs.places.queue.head_none_iff.mp hfast.2
      have hb' : s.reading.card + 1 < 2 ^ 31 := by
        change (i ::ₘ s.reading).card < _ at hb
        rwa [Multiset.card_cons] at hb
      exact ⟨[], h, hs.hold_r hfast.1 hfast.2 hb', Moves.of_nil ..⟩
    · rw [if_neg hfast] at hq
      cases hq
      exact ⟨l, h, hs, Moves.same id l _⟩
  | @runlock i q w hi hm hq => exact hs.runlock hi hm hq
  | @wlock i q ql w hi hq =>
    unfold Libc.wlock at hq
    by_cases hfast : s.q.readers = 0 ∧ s.q.writer = 0
    · rw [if_pos hfast] at hq
      cases hq
      obtain ⟨rfl, hinv⟩ := hs.hold_w hfast.1 hfast.2
      exact ⟨[], h, hinv, Moves.of_nil ..⟩
    rw [if_neg hfast] at hq
    have hpos : 0 < s.reading.card + s.writers h := by omega
    obtain ⟨mp, rfl, hinv⟩ := hs.wait (m := .w) hi hq hpos fun _ _ => rfl
    exact ⟨l ++ [mp], h, hinv, Moves.append id l mp _⟩
  | @canwlock i q ok hi hq =>
    unfold Libc.canwlock at hq
    by_cases hfast : s.q.readers = 0 ∧ s.q.writer = 0
    · rw [if_pos hfast] at hq
      cases hq
      obtain ⟨rfl, hinv⟩ := hs.hold_w hfast.1 hfast.2
      exact ⟨[], h, hinv, Moves.of_nil ..⟩
    · rw [if_neg hfast] at hq
      cases hq
      exact ⟨l, h, hs, Moves.same id l _⟩
  | @wunlock s₁ i q ps w hi hm hq hmeets => exact hs.wunlock hi hm hq hmeets
  | @rendezvous _ i p hi hmeet =>
    obtain ⟨hinv, hlt⟩ := hs.rendezvous hi hmeet
    exact ⟨l, none, hinv, [], l, [], rfl, by simp, fun e => absurd rfl e, fun _ _ => ⟨Nat.le_of_lt hlt, fun _ => hlt⟩⟩
  | @free i mp hi => exact ⟨l, h, ⟨hs.places.free hi, ho.congr fun p _ => congrFun (Ql.state_setInuse ..) p⟩, Moves.same id l _⟩
  | @other ql hx => exact ⟨l, h, ⟨hs.places.other hx, ho.congr fun p hp => congrArg QLpCell.state (hs.places.other_x hx hp)⟩, Moves.same id l _⟩

end RWSys

end Plan9.Libc
