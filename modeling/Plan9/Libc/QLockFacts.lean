/-
The queueing lock and `rsleep`, `rwakeup`: in every state that can be reached
the lock has one owner at most and every process that waits is in one queue.

`Places` says where each process is: in the queue of the lock, in that of one
`Rendez`, or taken off the first with its waker at the rendezvous. While one is
so handed the lock nobody owns it, so nothing that needs the lock can be done.
-/
import Plan9.Libc.QLock

namespace Plan9.Libc

open Function List

theorem Rendez.link_holds {r : Rendez} {ql : Ql} {l : List QLp} {me : QLp} (hq : r.toWaitQ.Holds ql l) (hme : me ∉ l)
    (hn : ql.next me = none) : ∃ r' ql', r.link me ql = some (r', ql') ∧ r'.l = r.l ∧ r'.toWaitQ.Holds ql' (l ++ [me]) ∧
      ql'.inuse = ql.inuse ∧ ∀ a, a ∉ l → ql'.next a = ql.next a := by
  have hhead := hq.head
  have htail := hq.tail
  unfold WaitQ.Holds at hq
  cases l with
  | nil =>
    have hh : r.head = none := hhead
    have ht : r.tail = none := htail
    rw [ht] at hq
    refine ⟨{ r with head := some me, tail := some me }, ql.setNext me none, by rw [Rendez.link, hh], rfl, ?_,
      Ql.inuse_setNext .., ?_⟩
    · refine Chain.IsQueue.congr (hq.enqueue_empty hn) ?_
      intro a _
      rw [Ql.next_setNext, ← hn, update_eq_self]
    · intro a _
      rw [Ql.next_setNext, ← hn, update_eq_self]
  | cons b l =>
    have hh : r.head = some b := hhead
    obtain ⟨p, hp⟩ : ∃ p, (b :: l).getLast? = some p := ⟨_, getLast?_eq_some_getLast (by simp)⟩
    have ht : r.tail = some p := htail.trans hp
    have hpl : p ∈ b :: l := mem_of_getLast? hp
    have hnext : ((ql.setNext p (some me)).setNext me none).next = update ql.next p (some me) := by
      rw [Ql.next_setNext, Ql.next_setNext, update_eq_iff]
      refine ⟨?_, fun _ _ => rfl⟩
      have hne : me ≠ p := fun e => hme (e ▸ hpl)
      rw [update_of_ne hne, hn]
    rw [ht] at hq
    refine ⟨{ r with tail := some me }, (ql.setNext p (some me)).setNext me none, by rw [Rendez.link, hh, ht], rfl, ?_,
      by rw [Ql.inuse_setNext, Ql.inuse_setNext], ?_⟩
    · refine Chain.IsQueue.congr (hq.enqueue hme hn) ?_
      intro a _
      rw [hnext]
    · intro a ha
      have hne : a ≠ p := fun e => ha (e ▸ hpl)
      rw [hnext, update_of_ne hne]

/-- Where a process is only as the owner: on its way out of `qlock` or `rsleep`, or in `rwakeupall`. -/
def QPc.Mine {R : Type} : QPc R → Prop
  | .returning _ => True
  | .rwakeupall _ _ => True
  | _ => False

namespace QSys

variable {P R : Type}

/-! ## Where the processes are -/

/-- The queue of the lock is `l`, that of `r` is `ls r`, and `h` the slot of the process handed the lock, if it is
still in it. -/
structure Places (pc : P → QPc R) (ql : Ql) (q : WaitQ) (rq : R → WaitQ) (l : List QLp) (ls : R → List QLp)
    (h : Option QLp) : Prop where
  queue : q.Holds ql l
  rqueue : ∀ r, (rq r).Holds ql (ls r)
  disj : ∀ {r : R} {p : QLp}, p ∈ l → p ∉ ls r
  rdisj : ∀ {r r' : R} {p : QLp}, p ∈ ls r → p ∈ ls r' → r = r'
  inj : ∀ {i j : P} {p : QLp}, (pc i).slot = some p → (pc j).slot = some p → i = j
  inuse : ∀ {i : P} {p : QLp}, (pc i).slot = some p → ql.inuse p = true
  queued : ∀ {p : QLp}, p ∈ l → ∃ i c, pc i = .waiting p c
  slept : ∀ {r : R} {p : QLp}, p ∈ ls r → ∃ i, pc i = .waiting p .rsleep ∨ ∃ t, pc i = .waking t (some p)
  waiting : ∀ {i : P} {p : QLp} {c : QCall}, pc i = .waiting p c → p ∈ l ∨ (∃ r, p ∈ ls r) ∨ h = some p
  sleeping : ∀ {i : P} {t p : QLp}, pc i = .waking t (some p) → ∃ r, p ∈ ls r
  handed : ∀ {p : QLp}, h = some p → p ∉ l ∧ (∀ r, p ∉ ls r) ∧ (∃ i c, pc i = .waiting p c) ∧
    ∃ j me, pc j = .waking p me
  waking : ∀ {j : P} {p : QLp} {me : Option QLp}, pc j = .waking p me → h = some p
  waker : ∀ {i j : P} {p : QLp} {me me' : Option QLp}, pc i = .waking p me → pc j = .waking p me' → i = j

variable {r : R} {mp p : QLp} {x : QPc R} {ql' ql1 : Ql} {j : P}

section

variable {pc : P → QPc R} {ql : Ql} {q : WaitQ} {rq : R → WaitQ} {l : List QLp} {ls : R → List QLp} {h : Option QLp}

theorem slot_waiting {i : P} {c : QCall} (hp : pc i = .waiting p c) : (pc i).slot = some p := by
  rw [hp]; rfl

theorem Places.slot_slept (hs : Places pc ql q rq l ls h) (hp : p ∈ ls r) :
    ∃ i, (pc i).slot = some p := by
  obtain ⟨i, hi | ⟨t, hi⟩⟩ := hs.slept hp
  · exact ⟨i, slot_waiting hi⟩
  · exact ⟨i, by rw [hi]; rfl⟩

theorem Places.ne_of_free (hs : Places pc ql q rq l ls h) (hf : ql.inuse mp = false) {i : P}
    (hi : (pc i).slot = some p) : p ≠ mp := by
  intro e
  have := hs.inuse hi
  rw [e, hf] at this
  exact absurd this (by simp)

theorem Places.free_not_mem (hs : Places pc ql q rq l ls h) (hf : ql.inuse mp = false) :
    mp ∉ l ∧ ∀ r, mp ∉ ls r := by
  refine ⟨?_, ?_⟩
  · intro hm
    obtain ⟨j, c, hj⟩ := hs.queued hm
    exact hs.ne_of_free hf (slot_waiting hj) rfl
  · intro r hm
    obtain ⟨j, hj⟩ := hs.slot_slept hm
    exact hs.ne_of_free hf hj rfl

theorem Places.keep (hs : Places pc ql q rq l ls h) (hn : ∀ a, a ∈ l → ql'.next a = ql.next a)
    (hrn : ∀ r a, a ∈ ls r → ql'.next a = ql.next a)
    (hu : ∀ i p, (pc i).slot = some p → ql'.inuse p = true) : Places pc ql' q rq l ls h :=
  { hs with
    queue := hs.queue.congr hn
    rqueue := fun r => (hs.rqueue r).congr (hrn r)
    inuse := fun {i p} hi => hu i p hi }

theorem Places.other (hs : Places pc ql q rq l ls h)
    (hx : ∀ i mp, (pc i).slot = some mp → ql'.x mp = ql.x mp) : Places pc ql' q rq l ls h := by
  refine hs.keep ?_ ?_ ?_
  · intro a ha
    obtain ⟨i, c, hi⟩ := hs.queued ha
    exact congrArg QLpCell.next (hx i a (slot_waiting hi))
  · intro r a ha
    obtain ⟨i, hi⟩ := hs.slot_slept ha
    exact congrArg QLpCell.next (hx i a hi)
  · intro i p hi
    exact (congrArg QLpCell.inuse (hx i p hi)).trans (hs.inuse hi)

end

section

variable [DecidableEq R]
variable {pc : P → QPc R} {ql : Ql} {q : WaitQ} {rq : R → WaitQ} {l : List QLp} {ls : R → List QLp} {h : Option QLp}

theorem Places.move (hs : Places pc ql q rq l ls none) {t : QLp} {rest : List QLp} (hr : ls r = t :: rest) :
    Places pc ((ql.setNext t q.head).setState t .Queuing) ⟨some t, if q.tail.isNone then some t else q.tail⟩
      (update rq r ((rq r).unlink t ql)) (t :: l) (update ls r rest) none := by
  have htr : t ∈ ls r := by rw [hr]; simp
  have htl : t ∉ l := fun ht => hs.disj ht htr
  have htrest : t ∉ rest := (nodup_cons.mp (hr ▸ (hs.rqueue r).nodup)).1
  have hnone : ∀ {k : P} {a : QLp} {m : Option QLp}, pc k ≠ .waking a m := fun hk => absurd (hs.waking hk) (by simp)
  have hmem : ∀ {r' : R} {a : QLp}, a ∈ update ls r rest r' ↔ a ∈ ls r' ∧ ¬ (r' = r ∧ a = t) := by
    intro r' a
    by_cases hr' : r' = r
    · rw [hr', update_self, hr]
      constructor
      · intro ha
        exact ⟨mem_cons_of_mem _ ha, fun e => htrest (e.2 ▸ ha)⟩
      · intro ha
        exact (mem_cons.mp ha.1).resolve_left fun e => ha.2 ⟨rfl, e⟩
    · rw [update_of_ne hr']
      exact ⟨fun ha => ⟨ha, fun e => hr' e.1⟩, fun ha => ha.1⟩
  have hnext : ∀ {a : QLp}, a ≠ t → ((ql.setNext t q.head).setState t .Queuing).next a = ql.next a := by
    intro a ha
    rw [Ql.next_setState, Ql.next_setNext, update_of_ne ha]
  refine ⟨?_, ?_, ?_, ?_, hs.inj, ?_, ?_, ?_, ?_, ?_, ?_, ?_, ?_⟩
  · have hpush := Chain.IsQueue.push hs.queue htl
    unfold WaitQ.Holds
    rw [Ql.next_setState, Ql.next_setNext]
    exact hpush
  · intro r'
    by_cases hr' : r' = r
    · subst hr'
      rw [update_self, update_self]
      have hun : ((rq r').unlink t ql).Holds ql rest := (hr ▸ hs.rqueue r').unlink
      exact hun.congr fun a ha => hnext fun e => htrest (e ▸ ha)
    rw [update_of_ne hr', update_of_ne hr']
    refine (hs.rqueue r').congr fun a ha => hnext ?_
    intro e
    exact hr' (hs.rdisj (e ▸ ha) htr)
  · intro r' a ha
    have hdisj := @hs.disj r' a
    have hrdisj := @hs.rdisj r' r a
    grind
  · intro r' r'' a ha ha'
    exact hs.rdisj (hmem.mp ha).1 (hmem.mp ha').1
  · intro i p hp
    rw [Ql.inuse_setState, Ql.inuse_setNext]
    exact hs.inuse hp
  · intro p hp
    rcases mem_cons.mp hp with rfl | hp
    · obtain ⟨i, hi | ⟨u, hi⟩⟩ := hs.slept htr
      · exact ⟨i, .rsleep, hi⟩
      · exact absurd hi hnone
    · exact hs.queued hp
  · intro r' p hp
    exact hs.slept (hmem.mp hp).1
  · intro i p c hi
    rcases hs.waiting hi with hp | ⟨r', hp⟩ | hp
    · exact .inl (mem_cons_of_mem _ hp)
    · by_cases hpt : r' = r ∧ p = t
      · exact .inl (by rw [hpt.2]; simp)
      · exact .inr (.inl ⟨r', hmem.mpr ⟨hp, hpt⟩⟩)
    · exact .inr (.inr hp)
  · intro i u p hi
    exact absurd hi hnone
  · intro p hp
    exact absurd hp (by simp)
  · intro j p me hj
    exact absurd hj hnone
  · intro j k p me me' hj
    exact absurd hj hnone

end

section

variable [DecidableEq P]
variable {pc : P → QPc R} {ql : Ql} {q : WaitQ} {rq : R → WaitQ} {l : List QLp} {ls : R → List QLp} {h : Option QLp}

variable (hs : Places pc ql q rq l ls h)

include hs in
theorem Places.enqueue {i : P} (hi : pc i = .idle)
    (hg : getqlp ql = some (mp, ql1)) :
    Places (update pc i (.waiting mp .qlock)) ((q.link mp ql1).2.setState mp .Queuing) (q.link mp ql1).1 rq
      (l ++ [mp]) ls h := by
  obtain ⟨hfree, hinuse, hnext, -⟩ := getqlp_eq hg
  obtain ⟨hmp, hrmp⟩ := hs.free_not_mem hfree
  have hnext' : ∀ {a : QLp}, a ≠ mp → ql1.next a = ql.next a := by
    intro a ha
    rw [hnext, update_of_ne ha]
  have hq1 : q.Holds ql1 l := hs.queue.congr fun a ha => hnext' fun e => hmp (e ▸ ha)
  have hmpn : ql1.next mp = none := by rw [hnext, update_self]
  obtain ⟨hli, -, hln⟩ := @WaitQ.link_frame q ql1 l mp hq1
  have hslot : ∀ p c, QPc.slot (R := R) (.waiting p c) = some p := fun _ _ => rfl
  have hinuse' := @hs.inuse
  refine ⟨?_, ?_, ?_, hs.rdisj, ?_, ?_, ?_, ?_, ?_, ?_, ?_, ?_, ?_⟩
  · refine (hq1.link hmp hmpn).congr fun a _ => ?_
    rw [Ql.next_setState]
  · intro r
    refine (hs.rqueue r).congr fun a ha => ?_
    rw [Ql.next_setState, hln a (fun hl => hs.disj hl ha), hnext' fun e => hrmp r (e ▸ ha)]
  · intro r p hp
    rcases mem_append.mp hp with hp | hp
    · exact hs.disj hp
    · obtain rfl : p = mp := mem_singleton.mp hp
      exact hrmp r
  · intro j k p hj hk
    have hinj := @hs.inj j k p
    grind [update_apply]
  · intro j p hj
    simp only [Ql.inuse_setState, hli, hinuse]
    grind [update_apply]
  · intro p hp
    rcases mem_append.mp hp with hp | hp
    · obtain ⟨j, c, hj⟩ := hs.queued hp
      exact ⟨j, c, by grind [update_apply]⟩
    · obtain rfl : p = mp := mem_singleton.mp hp
      exact ⟨i, .qlock, update_self ..⟩
  · intro r p hp
    obtain ⟨j, hj⟩ := hs.slept hp
    exact ⟨j, by grind [update_apply]⟩
  · intro j p c hj
    have hwait := @hs.waiting j p c
    grind [update_apply]
  · intro j t p hj
    have hsleep := @hs.sleeping j t p
    grind [update_apply]
  · intro p hp
    obtain ⟨hpl, hpr, ⟨j, c, hj⟩, k, me, hk⟩ := hs.handed hp
    have hne := hs.ne_of_free hfree (slot_waiting hj)
    exact ⟨by simp [hpl, hne], hpr, ⟨j, c, by grind [update_apply]⟩, k, me, by grind [update_apply]⟩
  · intro j p me hj
    have hwaking := @hs.waking j p me
    grind [update_apply]
  · intro j k p me me' hj hk
    have hwaker := @hs.waker j k p me me'
    grind [update_apply]

/-- A process that was told to, or that has a place to sleep in, passes the lock to the first of its queue. -/
theorem Places.hand (hs : Places pc ql q rq (p :: l) ls none) {i : P} (me : Option QLp)
    (hi : pc i = woke me) (hme : ∀ m, me = some m → ∃ r, m ∈ ls r) :
    Places (update pc i (.waking p me)) ql (q.unlink p ql) rq l ls (some p) := by
  obtain ⟨j, c, hj⟩ := hs.queued (mem_cons_self ..)
  have hpl : p ∉ l := (nodup_cons.mp hs.queue.nodup).1
  have hnone : ∀ {k : P} {a : QLp} {m : Option QLp}, pc k ≠ .waking a m := fun hk => absurd (hs.waking hk) (by simp)
  have hij : j ≠ i := by
    intro e
    rw [e, hi] at hj
    cases me with
    | none => cases hj
    | some m =>
      cases hj
      obtain ⟨r, hr⟩ := hme p rfl
      exact hs.disj (mem_cons_self ..) hr
  have hslot : ∀ {k : P}, (update pc i (.waking p me) k).slot = (pc k).slot := by
    intro k
    by_cases hki : k = i
    · rw [hki, update_self, hi]
      cases me <;> rfl
    · rw [update_of_ne hki]
  refine ⟨hs.queue.unlink, hs.rqueue, ?_, hs.rdisj, ?_, ?_, ?_, ?_, ?_, ?_, ?_, ?_, ?_⟩
  · intro r a ha
    exact hs.disj (mem_cons_of_mem _ ha)
  · intro k k' a hk hk'
    exact hs.inj (hslot ▸ hk) (hslot ▸ hk')
  · intro k a hk
    exact hs.inuse (hslot ▸ hk)
  · intro a ha
    obtain ⟨k, c', hk⟩ := hs.queued (mem_cons_of_mem _ ha)
    refine ⟨k, c', ?_⟩
    rw [update_of_ne, hk]
    intro e
    rw [e, hi] at hk
    cases me with
    | none => cases hk
    | some m =>
      cases hk
      obtain ⟨r, hr⟩ := hme a rfl
      exact hs.disj (mem_cons_of_mem _ ha) hr
  · intro r a ha
    obtain ⟨k, hk | ⟨t, hk⟩⟩ := hs.slept ha
    · refine ⟨k, ?_⟩
      by_cases hki : k = i
      · right
        refine ⟨p, ?_⟩
        rw [hki, update_self]
        rw [hki, hi] at hk
        cases me with
        | none => cases hk
        | some m => cases hk; rfl
      · left
        rw [update_of_ne hki, hk]
    · exact absurd hk hnone
  · intro k a c' hk
    have hwait := @hs.waiting k a c'
    grind [update_apply]
  · intro k t a hk
    have hnone' := @hnone k t (some a)
    grind [update_apply]
  · intro a ha
    obtain rfl : p = a := Option.some.inj ha
    refine ⟨hpl, fun r => hs.disj (mem_cons_self ..), ⟨j, c, ?_⟩, i, me, update_self ..⟩
    rw [update_of_ne hij, hj]
  · intro k a m hk
    grind [update_apply]
  · intro k k' a m m' hk hk'
    grind [update_apply]

include hs in
theorem Places.meet {me : Option QLp} {c : QCall} {i : P}
    (hi : pc i = .waking p me) (hj : pc j = .waiting p c) :
    h = some p ∧
    Places (update (update pc i (woke me)) j (.returning p)) ql q rq l ls none := by
  obtain rfl : h = some p := hs.waking hi
  obtain ⟨hpl, hpr, -, -⟩ := hs.handed rfl
  have hji : j ≠ i := by
    intro e
    rw [e, hi] at hj
    cases hj
  have hslot : ∀ {k : P}, (update (update pc i (woke me)) j (.returning p) k).slot =
      (pc k).slot := by
    intro k
    by_cases hkj : k = j
    · rw [hkj, update_self, hj]; rfl
    rw [update_of_ne hkj]
    by_cases hki : k = i
    · rw [hki, update_self, hi]
      cases me <;> rfl
    · rw [update_of_ne hki]
  have hpc : ∀ {k : P}, k ≠ i → k ≠ j →
      update (update pc i (woke me)) j (.returning p) k = pc k := by
    intro k hki hkj
    rw [update_of_ne hkj, update_of_ne hki]
  have hpci : update (update pc i (woke me)) j (.returning p) i = woke me := by
    rw [update_of_ne (Ne.symm hji), update_self]
  refine ⟨rfl, hs.queue, hs.rqueue, hs.disj, hs.rdisj, ?_, ?_, ?_, ?_, ?_, ?_, ?_, ?_, ?_⟩
  · intro k k' a hk hk'
    exact hs.inj (hslot ▸ hk) (hslot ▸ hk')
  · intro k a hk
    exact hs.inuse (hslot ▸ hk)
  · intro a ha
    obtain ⟨k, c', hk⟩ := hs.queued ha
    refine ⟨k, c', ?_⟩
    rw [hpc, hk]
    · intro e
      rw [e, hi] at hk
      cases hk
    intro e
    rw [e, hj] at hk
    cases hk
    exact hpl ha
  · intro r a ha
    obtain ⟨k, hk | ⟨t, hk⟩⟩ := hs.slept ha
    · refine ⟨k, .inl ?_⟩
      rw [hpc, hk]
      · intro e
        rw [e, hi] at hk
        cases hk
      intro e
      rw [e, hj] at hk
      cases hk
      exact hpr r ha
    -- The waker of `t` is the waker of `p`; it is past its rendezvous and waits now.
    obtain rfl : p = t := Option.some.inj (hs.waking hk)
    obtain rfl : k = i := hs.waker hk hi
    rw [hi] at hk
    cases hk
    exact ⟨k, .inl hpci⟩
  · intro k a c' hk
    by_cases hkj : k = j
    · rw [hkj, update_self] at hk
      cases hk
    by_cases hki : k = i
    · rw [hki, hpci] at hk
      cases me with
      | none => cases hk
      | some m =>
        cases hk
        exact .inr (.inl (hs.sleeping hi))
    rw [hpc hki hkj] at hk
    rcases hs.waiting hk with ha | ha | ha
    · exact .inl ha
    · exact .inr (.inl ha)
    · obtain rfl : p = a := Option.some.inj ha
      exact absurd (hs.inj (slot_waiting hk) (slot_waiting hj)) hkj
  · intro k t a hk
    have hsleep := @hs.sleeping k t a
    cases me <;> grind [update_apply, woke]
  · intro a ha
    exact absurd ha (by simp)
  · intro k a m hk
    have hwaking := @hs.waking k a m
    have hwaker := @hs.waker k i a m me
    cases me <;> grind [update_apply, woke]
  · intro k k' a m m' hk hk'
    have hwaker := @hs.waker k k' a m m'
    cases me <;> grind [update_apply, woke]

include hs in
theorem Places.quiet {i : P} (hi : (pc i).slot = none)
    (hiw : ∀ p me, pc i ≠ .waking p me) (hx : x.slot = none) (hxw : ∀ p me, x ≠ .waking p me) :
    Places (update pc i x) ql q rq l ls h := by
  have hiwait : ∀ p c, pc i ≠ .waiting p c := fun p c e => by rw [e] at hi; cases hi
  have hxwait : ∀ p c, x ≠ .waiting p c := fun p c e => by rw [e] at hx; cases hx
  have hslot : ∀ {k : P}, (update pc i x k).slot = (pc k).slot := by
    intro k
    by_cases hki : k = i
    · rw [hki, update_self, hi, hx]
    · rw [update_of_ne hki]
  refine ⟨hs.queue, hs.rqueue, hs.disj, hs.rdisj, ?_, ?_, ?_, ?_, ?_, ?_, ?_, ?_, ?_⟩
  · intro k k' a hk hk'
    exact hs.inj (hslot ▸ hk) (hslot ▸ hk')
  · intro k a hk
    exact hs.inuse (hslot ▸ hk)
  · intro a ha
    obtain ⟨k, c, hk⟩ := hs.queued ha
    exact ⟨k, c, by grind [update_apply]⟩
  · intro r a ha
    obtain ⟨k, hk⟩ := hs.slept ha
    exact ⟨k, by grind [update_apply]⟩
  · intro k a c hk
    have hwait := @hs.waiting k a c
    grind [update_apply]
  · intro k t a hk
    have hsleep := @hs.sleeping k t a
    grind [update_apply]
  · intro a ha
    obtain ⟨hpl, hpr, ⟨j, c, hj⟩, k, me, hk⟩ := hs.handed ha
    exact ⟨hpl, hpr, ⟨j, c, by grind [update_apply]⟩, k, me, by grind [update_apply]⟩
  · intro k a m hk
    have hwaking := @hs.waking k a m
    grind [update_apply]
  · intro k k' a m m' hk hk'
    have hwaker := @hs.waker k k' a m m'
    grind [update_apply]

include hs in
theorem Places.free {i : P} (hi : pc i = .returning mp) :
    Places (update pc i .idle) (ql.setInuse mp false) q rq l ls h := by
  have hslot : ∀ {k : P} {a : QLp}, (update pc i .idle k).slot = some a → (pc k).slot = some a ∧ k ≠ i := by
    intro k a hk
    by_cases hki : k = i
    · rw [hki, update_self] at hk
      exact absurd hk (by simp [QPc.slot])
    · rw [update_of_ne hki] at hk
      exact ⟨hk, hki⟩
  refine ⟨hs.queue.congr (by simp), fun r => (hs.rqueue r).congr (by simp), hs.disj, hs.rdisj,
    ?_, ?_, ?_, ?_, ?_, ?_, ?_, ?_, ?_⟩
  · intro k k' a hk hk'
    exact hs.inj (hslot hk).1 (hslot hk').1
  · intro k a hk
    obtain ⟨hk, hki⟩ := hslot hk
    have hne : a ≠ mp := by
      intro e
      exact hki (hs.inj hk (by rw [hi, e]; rfl))
    rw [Ql.inuse_setInuse, update_of_ne hne, hs.inuse hk]
  · intro a ha
    obtain ⟨k, c, hk⟩ := hs.queued ha
    exact ⟨k, c, by grind [update_apply]⟩
  · intro r a ha
    obtain ⟨k, hk⟩ := hs.slept ha
    exact ⟨k, by grind [update_apply]⟩
  · intro k a c hk
    have hwait := @hs.waiting k a c
    grind [update_apply]
  · intro k t a hk
    have hsleep := @hs.sleeping k t a
    grind [update_apply]
  · intro a ha
    obtain ⟨hpl, hpr, ⟨j, c, hj⟩, k, me, hk⟩ := hs.handed ha
    exact ⟨hpl, hpr, ⟨j, c, by grind [update_apply]⟩, k, me, by grind [update_apply]⟩
  · intro k a m hk
    have hwaking := @hs.waking k a m
    grind [update_apply]
  · intro k k' a m m' hk hk'
    have hwaker := @hs.waker k k' a m m'
    grind [update_apply]

variable [DecidableEq R]

include hs in
theorem Places.sleep {i : P} {w : WaitQ}
    (hi : pc i = .idle) (hg : getqlp ql = some (mp, ql1)) (hw : w.Holds ql' (ls r ++ [mp]))
    (hu : ql'.inuse = ql1.inuse) (hn : ∀ a, a ∉ ls r → ql'.next a = ql1.next a) :
    Places (update pc i (.waiting mp .rsleep)) ql' q (update rq r w) l
      (update ls r (ls r ++ [mp])) h := by
  obtain ⟨hfree, hinuse, hnext, -⟩ := getqlp_eq hg
  obtain ⟨hmp, hrmp⟩ := hs.free_not_mem hfree
  have hnext' : ∀ {a : QLp}, a ≠ mp → a ∉ ls r → ql'.next a = ql.next a := by
    intro a ha har
    rw [hn a har, hnext, update_of_ne ha]
  have hslot : ∀ p c, QPc.slot (R := R) (.waiting p c) = some p := fun _ _ => rfl
  have hmem : ∀ {r' : R} {a : QLp}, a ∈ update ls r (ls r ++ [mp]) r' ↔ a ∈ ls r' ∨ r' = r ∧ a = mp := by
    intro r' a
    by_cases hr : r' = r
    · rw [hr, update_self]
      simp
    · simp [hr]
  have hinuse' := @hs.inuse
  refine ⟨?_, ?_, ?_, ?_, ?_, ?_, ?_, ?_, ?_, ?_, ?_, ?_, ?_⟩
  · exact hs.queue.congr fun a ha => hnext' (fun e => hmp (e ▸ ha)) (hs.disj ha)
  · intro r'
    by_cases hr : r' = r
    · subst hr
      rw [update_self, update_self]
      exact hw
    rw [update_of_ne hr, update_of_ne hr]
    refine (hs.rqueue r').congr fun a ha => hnext' (fun e => hrmp r' (e ▸ ha)) ?_
    intro ha'
    exact hr (hs.rdisj ha ha')
  · intro r' a ha
    rw [hmem]
    rintro (ha' | ⟨-, rfl⟩)
    · exact hs.disj ha ha'
    · exact hmp ha
  · intro r' r'' a ha ha'
    have hrdisj := @hs.rdisj r' r'' a
    grind
  · intro j k p hj hk
    have hinj := @hs.inj j k p
    grind [update_apply]
  · intro j p hj
    rw [hu, hinuse]
    grind [update_apply]
  · intro p hp
    obtain ⟨j, c, hj⟩ := hs.queued hp
    exact ⟨j, c, by grind [update_apply]⟩
  · intro r' p hp
    rw [hmem] at hp
    rcases hp with hp | ⟨-, rfl⟩
    · obtain ⟨j, hj⟩ := hs.slept hp
      exact ⟨j, by grind [update_apply]⟩
    · exact ⟨i, .inl (update_self ..)⟩
  · intro j p c hj
    by_cases hji : j = i
    · rw [hji, update_self] at hj
      cases hj
      exact .inr (.inl ⟨r, hmem.mpr (.inr ⟨rfl, rfl⟩)⟩)
    rw [update_of_ne hji] at hj
    rcases hs.waiting hj with hp | ⟨r', hp⟩ | hp
    · exact .inl hp
    · exact .inr (.inl ⟨r', hmem.mpr (.inl hp)⟩)
    · exact .inr (.inr hp)
  · intro j t p hj
    have hj' : pc j = .waking t (some p) := by grind [update_apply]
    obtain ⟨r', hp⟩ := hs.sleeping hj'
    exact ⟨r', hmem.mpr (.inl hp)⟩
  · intro p hp
    obtain ⟨hpl, hpr, ⟨j, c, hj⟩, k, me, hk⟩ := hs.handed hp
    have hne := hs.ne_of_free hfree (slot_waiting hj)
    refine ⟨hpl, ?_, ⟨j, c, by grind [update_apply]⟩, k, me, by grind [update_apply]⟩
    intro r'
    rw [hmem]
    rintro (hp' | ⟨-, e⟩)
    · exact hpr r' hp'
    · exact hne e
  · intro j p me hj
    have hwaking := @hs.waking j p me
    grind [update_apply]
  · intro j k p me me' hj hk
    have hwaker := @hs.waker j k p me me'
    grind [update_apply]

end

/-! ## Who has the lock -/

/-- The lock is locked for the one process that owns it or is handed it, and locked while somebody waits. -/
structure Owners (q : QLock) (n : Nat) (l : List QLp) (h : Option QLp) : Prop where
  one : (n + if h.isSome then 1 else 0) = if q.locked then 1 else 0
  wait : l ≠ [] → q.locked = true

structure Inv (s : QSys P R) (l : List QLp) (ls : R → List QLp) (h : Option QLp) : Prop where
  places : Places s.pc s.ql s.q.toWaitQ (fun r => (s.r r).toWaitQ) l ls h
  owners : Owners s.q s.owning.card l h
  bound : ∀ r, (s.r r).l = true
  mine : ∀ {i : P}, (s.pc i).Mine → i ∈ s.owning

theorem Inv.init {s : QSys P R} (hs : s.Init) : Inv s [] (fun _ => []) none := by
  have hslot : ∀ {i : P} {p : QLp}, (s.pc i).slot ≠ some p := by
    intro i p
    rw [hs.pc i]
    simp [QPc.slot]
  have hpc : ∀ {i : P} {x : QPc R}, s.pc i = x → x = .idle := fun e => e.symm.trans (hs.pc _)
  refine ⟨⟨?_, ?_, ?_, ?_, ?_, ?_, ?_, ?_, ?_, ?_, ?_, ?_, ?_⟩, ⟨?_, ?_⟩, ?_, ?_⟩
  · rw [hs.q]; exact Chain.IsQueue.empty _
  · intro r
    rw [hs.r]; exact Chain.IsQueue.empty _
  · intro r p hp
    exact absurd hp (by simp)
  · intro r r' p hp
    exact absurd hp (by simp)
  · intro i j p hi
    exact absurd hi hslot
  · intro i p hi
    exact absurd hi hslot
  · intro p hp
    exact absurd hp (by simp)
  · intro r p hp
    exact absurd hp (by simp)
  · intro i p c hi
    exact absurd (hpc hi) (by simp)
  · intro i t p hi
    exact absurd (hpc hi) (by simp)
  · intro p hp
    exact absurd hp (by simp)
  · intro j p me hj
    exact absurd (hpc hj) (by simp)
  · intro i j p me me' hi
    exact absurd (hpc hi) (by simp)
  · rw [hs.q, hs.owning]; rfl
  · intro hne
    exact absurd rfl hne
  · intro r
    rw [hs.r]
  · intro i hi
    rw [hs.pc i] at hi
    exact hi.elim

section

variable {s : QSys P R} {l : List QLp} {ls : R → List QLp} {h : Option QLp} {i : P}

theorem Inv.lockQueue_eq (hs : Inv s l ls h) : s.lockQueue = l := hs.places.queue.toList_eq

theorem Inv.rendezQueue_eq (hs : Inv s l ls h) : s.rendezQueue = ls := funext fun r => (hs.places.rqueue r).toList_eq

theorem Inv.owner (hs : Inv s l ls h) (hi : i ∈ s.owning) :
    h = none ∧ s.owning = {i} ∧ s.q.locked = true := by
  have hone := hs.owners.one
  have hpos : 0 < s.owning.card := Multiset.card_pos_iff_exists_mem.mpr ⟨i, hi⟩
  cases h with
  | some p =>
    change s.owning.card + 1 = _ at hone
    split at hone <;> omega
  | none =>
    cases hl : s.q.locked with
    | false =>
      rw [hl] at hone
      change s.owning.card + 0 = 0 at hone
      omega
    | true =>
      rw [hl] at hone
      obtain ⟨j, hj⟩ := Multiset.card_eq_one.mp (show s.owning.card = 1 from hone)
      rw [hj, Multiset.mem_singleton] at hi
      exact ⟨rfl, by rw [hj, hi], rfl⟩

theorem Inv.unlocked (hs : Inv s l ls h) (hq : s.q.locked = false) : h = none ∧ s.owning = 0 ∧ l = [] := by
  have hone := hs.owners.one
  rw [hq] at hone
  have hl : l = [] := by
    by_contra hne
    exact absurd (hs.owners.wait hne) (by simp [hq])
  cases h with
  | some p =>
    change s.owning.card + 1 = 0 at hone
    omega
  | none =>
    exact ⟨rfl, Multiset.card_eq_zero.mp hone, hl⟩

theorem Inv.take (hs : Inv s l ls h) (hq : s.q.locked = false) :
    Inv ({ s with q := { s.q with locked := true } }.hold i) l ls h := by
  obtain ⟨rfl, hown, rfl⟩ := hs.unlocked hq
  refine ⟨hs.places, ⟨?_, fun _ => rfl⟩, hs.bound, ?_⟩
  · rw [hown]; rfl
  · intro j hj
    exact Multiset.mem_cons_of_mem (hs.mine hj)

theorem Inv.rsleep_eq (hs : Inv s l ls h) (hown : i ∈ s.owning) (r : R)
    (hg : getqlp s.ql = some (mp, ql1)) :
    ∃ rz ql, rz.l = true ∧ rz.toWaitQ.Holds ql (ls r ++ [mp]) ∧ ql.inuse = ql1.inuse ∧
      (∀ a, a ∉ ls r → ql.next a = ql1.next a) ∧
      Libc.rsleep (s.r r) s.q s.ql = some (match l with
        | [] => (rz, { s.q with locked := false }, ql, mp, none)
        | t :: _ => (rz, { s.q with toWaitQ := s.q.unlink t ql }, ql, mp, some t)) := by
  obtain ⟨-, -, hlocked⟩ := hs.owner hown
  obtain ⟨hfree, -, hnext, -⟩ := getqlp_eq hg
  have hmp := (hs.places.free_not_mem hfree).2 r
  have hrq : (s.r r).toWaitQ.Holds (ql1.setState mp .Sleeping) (ls r) := by
    refine (hs.places.rqueue r).congr fun a ha => ?_
    have hne : a ≠ mp := fun e => hmp (e ▸ ha)
    rw [Ql.next_setState, hnext, update_of_ne hne]
  have hmpn : (ql1.setState mp .Sleeping).next mp = none := by
    rw [Ql.next_setState, hnext, update_self]
  obtain ⟨rz, ql, hlink, hl, hholds, hu, hn⟩ := Rendez.link_holds hrq hmp hmpn
  rw [Ql.inuse_setState] at hu
  rw [Ql.next_setState] at hn
  refine ⟨rz, ql, hl.trans (hs.bound r), hholds, hu, hn, ?_⟩
  unfold Libc.rsleep
  rw [if_neg (by simp [hs.bound r]), if_neg (by simp [hlocked])]
  simp only [hg, hlink]
  rw [hs.places.queue.head]
  cases l with
  | nil => rfl
  | cons t l => rfl

theorem Inv.mine_drop [DecidableEq P] (hs : Inv s l ls h) (hx : ¬ x.Mine)
    (hj : (update s.pc i x j).Mine) : j ∈ s.owning.erase i := by
  by_cases hji : j = i
  · rw [hji, update_self] at hj
    exact absurd hj hx
  · rw [update_of_ne hji] at hj
    exact (Multiset.mem_erase_of_ne hji).mpr (hs.mine hj)

theorem mine_update [DecidableEq P] {pc : P → QPc R} {own : Multiset P}
    (hpc : ∀ {j : P}, (pc j).Mine → j ∈ own) (hx : x.Mine → i ∈ own)
    (hj : (update pc i x j).Mine) : j ∈ own := by
  by_cases hji : j = i
  · subst hji
    rw [update_self] at hj
    exact hx hj
  · rw [update_of_ne hji] at hj
    exact hpc hj

theorem toWaitQ_update [DecidableEq R] (f : R → Rendez) (r : R) (x : Rendez) :
    (fun r' => (update f r x r').toWaitQ) = update (fun r' => (f r').toWaitQ) r x.toWaitQ := by
  funext r'
  by_cases hr : r' = r
  · rw [hr, update_self, update_self]
  · rw [update_of_ne hr, update_of_ne hr]

end

/-! ## Every reachable state -/

structure Safe (s : QSys P R) : Prop where
  owner : s.owning.card ≤ 1
  ends : (s.q.head = none ↔ s.q.tail = none) ∧ ∀ r, (s.r r).head = none ↔ (s.r r).tail = none
  nodup : s.lockQueue.Nodup ∧ ∀ r, (s.rendezQueue r).Nodup
  /-- A process at the rendezvous on its slot, with nobody on the other side, is in one queue. -/
  blocked : ∀ i p c, s.pc i = .waiting p c → (∀ j me, s.pc j ≠ .waking p me) →
    p ∈ s.lockQueue ∧ (∀ r, p ∉ s.rendezQueue r) ∨ p ∉ s.lockQueue ∧ ∃! r, p ∈ s.rendezQueue r
  /-- A process that passes the lock on before it sleeps is in the queue it sleeps in. -/
  passing : ∀ i t p, s.pc i = .waking t (some p) → p ∉ s.lockQueue ∧ ∃! r, p ∈ s.rendezQueue r
  /-- A waker has somebody on the other side, who is in no queue. -/
  waking : ∀ j p me, s.pc j = .waking p me →
    (∃ i c, s.pc i = .waiting p c) ∧ p ∉ s.lockQueue ∧ ∀ r, p ∉ s.rendezQueue r
  /-- What is in a queue is the slot of a process. -/
  queued : ∀ p, p ∈ s.lockQueue ∨ (∃ r, p ∈ s.rendezQueue r) → ∃! i, (s.pc i).slot = some p
  /-- Past the rendezvous the process has the lock. -/
  returning : ∀ i p, s.pc i = .returning p → s.owning = {i} ∧ s.q.locked = true
  /-- The owner gets no complaint and no `abort()`, except from `getqlp`. -/
  aborts : ∀ i, i ∈ s.owning → (qunlock s.q s.ql).2.2 = false ∧
    ∀ r, rwakeup (s.r r) s.q s.ql ≠ none ∧ (rsleep (s.r r) s.q s.ql = none → getqlp s.ql = none)

theorem Inv.safe {s : QSys P R} {l : List QLp} {ls : R → List QLp} {h : Option QLp} (hs : Inv s l ls h) : s.Safe := by
  have hp := hs.places
  have hone := hs.owners.one
  have honer : ∀ {p : QLp} {r : R}, p ∈ ls r → p ∉ l ∧ ∃! r, p ∈ ls r :=
    fun hr => ⟨fun hl => hp.disj hl hr, _, hr, fun _ hr' => hp.rdisj hr' hr⟩
  refine ⟨?_, ⟨?_, ?_⟩, ?_, ?_, ?_, ?_, ?_, ?_, ?_⟩
  · split at hone <;> split at hone <;> omega
  · rw [hp.queue.head_none_iff, hp.queue.tail_none_iff]
  · intro r
    rw [(hp.rqueue r).head_none_iff, (hp.rqueue r).tail_none_iff]
  · rw [hs.lockQueue_eq, hs.rendezQueue_eq]
    exact ⟨hp.queue.nodup, fun r => (hp.rqueue r).nodup⟩
  · intro i p c hi hno
    rw [hs.lockQueue_eq, hs.rendezQueue_eq]
    rcases hp.waiting hi with hl | ⟨r, hr⟩ | hh
    · exact .inl ⟨hl, fun r => hp.disj hl⟩
    · exact .inr (honer hr)
    · obtain ⟨-, -, -, j, me, hj⟩ := hp.handed hh
      exact absurd hj (hno j me)
  · intro i t p hi
    rw [hs.lockQueue_eq, hs.rendezQueue_eq]
    obtain ⟨r, hr⟩ := hp.sleeping hi
    exact honer hr
  · intro j p me hj
    rw [hs.lockQueue_eq, hs.rendezQueue_eq]
    obtain ⟨hpl, hpr, hwait, -⟩ := hp.handed (hp.waking hj)
    exact ⟨hwait, hpl, hpr⟩
  · intro p hq
    rw [hs.lockQueue_eq, hs.rendezQueue_eq] at hq
    obtain ⟨i, hi⟩ : ∃ i, (s.pc i).slot = some p := by
      rcases hq with hl | ⟨r, hr⟩
      · obtain ⟨i, c, hi⟩ := hp.queued hl
        exact ⟨i, slot_waiting hi⟩
      · exact hp.slot_slept hr
    exact ⟨i, hi, fun j hj => hp.inj hj hi⟩
  · intro i p hi
    exact (hs.owner (hs.mine (by rw [hi]; trivial))).2
  intro i hi
  obtain ⟨-, -, hlocked⟩ := hs.owner hi
  refine ⟨?_, ?_⟩
  · unfold Libc.qunlock
    rw [hlocked]
    cases s.q.head with
    | none => rfl
    | some p => rfl
  intro r
  refine ⟨?_, ?_⟩
  · unfold Libc.rwakeup
    rw [if_neg (by simp [hs.bound r]), if_neg (by simp [hlocked])]
    cases (s.r r).head with
    | none => simp
    | some t => simp
  intro hnone
  cases hg : getqlp s.ql with
  | none => rfl
  | some g =>
    obtain ⟨rz, ql, -, -, -, -, heq⟩ := hs.rsleep_eq hi r hg
    rw [heq] at hnone
    exact absurd hnone (by simp)

end QSys

end Plan9.Libc
