/-
What holds in every state the readers-writer lock reaches, and what every run
of it comes to.

Whoever holds the lock is taken to let go of it at some time, and a process at
the rendezvous with a writer it woke to get past it (`Fair`). A slot in the
queue then leaves it: the pair of its place in the queue and of the weight of
the owners falls with every release (`Moves.progress`).
-/
import Plan9.Libc.RWLockFacts

namespace Plan9.Libc

open CInt Function

namespace RWSys

variable {P : Type} [DecidableEq P]

/-- The readers fit the count. -/
def Few (s : RWSys P) : Prop := s.reading.card < 2 ^ 31

/-- A step to a state in which they do. -/
def FewStep (s : RWSys P) (a : RWAct P) (s' : RWSys P) : Prop := Step s a s' ∧ s'.Few

variable {s s' : RWSys P} {l : List QLp} {h : Option QLp} {t : Nat} {p a : QLp} {m : Mode} {i : P}

theorem Inv.of_reachable (hs : Trans.Reachable Init FewStep s) : ∃ l h, Inv s l h := by
  refine hs.invariant (fun s => ∃ l h, Inv s l h) ?_ ?_
  · intro s hinit
    exact ⟨[], none, Inv.init hinit⟩
  intro s a s' hinv hstep
  obtain ⟨l, h, hinv⟩ := hinv
  obtain ⟨l', h', hinv', -⟩ := hstep.1.inv hinv hstep.2
  exact ⟨l', h', hinv'⟩

/-! ## Every reachable state -/

structure Safe (s : RWSys P) : Prop where
  /-- At most one writer, and no reader beside it. -/
  writing : s.writing.card ≤ 1 ∧ (s.writing ≠ 0 → s.reading = 0)
  /-- A writer woken and not yet back from `wlock` has the lock for itself as well. -/
  handed : ∀ i p, s.pc i = .waiting p .w → p ∉ s.queue → s.writing = 0 ∧ s.reading = 0
  /-- No `abort()` in `runlock`, nor in `wunlock`. -/
  runlock : ∀ i, i ∈ s.reading → Libc.runlock s.q s.ql ≠ none
  wunlock : ∀ i, i ∈ s.writing → Libc.wunlock s.q s.ql ≠ none
  /-- The readers `wunlock` waits for under the lock are there, and so is a writer woken after it. -/
  unlocks : ∀ i, i ∈ s.writing → s.pc i = .idle → ∃ s', Step s (.wunlock i) s'
  meets : ∀ i p, s.pc i = .waking p → ∃ s', Step s (.rendezvous p) s'
  /-- While the queue is not empty the lock is held, or on its way to a writer. -/
  held : s.q.head ≠ none → s.reading ≠ 0 ∨ s.writing ≠ 0 ∨
    ∃ i p, s.pc i = .waiting p .w ∧ p ∉ s.queue ∧ ∃ j, s.pc j = .waking p
  /-- Who waits is in the queue, or somebody calls rendezvous on its slot. -/
  waiting : ∀ i p m, s.pc i = .waiting p m → p ∈ s.queue ∨ ∃ j, s.pc j = .waking p

theorem Inv.safe (hs : Inv s l h) : s.Safe := by
  have ho := hs.owners
  have hone := ho.one
  have hqueue := hs.queue_eq
  refine ⟨⟨?_, ?_⟩, ?_, ?_, ?_, ?_, ?_, ?_, ?_⟩
  · exact Nat.le_trans (Nat.le_add_right _ _) hone
  · intro hne
    rcases ho.excl with hz | hz
    · exact absurd (Multiset.card_eq_zero.mp (writers_eq_zero hz).2) hne
    · exact Multiset.card_eq_zero.mp hz
  · intro i p hi hp
    rw [hqueue] at hp
    rcases hs.places.waiting hi with hp' | ⟨rfl, -⟩
    · exact absurd hp' hp
    change s.writing.card + 1 ≤ 1 at hone
    refine ⟨Multiset.card_eq_zero.mp (by omega), Multiset.card_eq_zero.mp ?_⟩
    rcases ho.excl with hz | hz
    · exact absurd (writers_eq_zero hz).1 (by simp)
    · exact hz
  · intro i hi
    obtain ⟨-, -, -, ⟨-, heq⟩ | ⟨-, -, heq⟩ | ⟨p, rest, -, -, -, heq⟩⟩ := hs.runlock_cases hi <;>
      rw [heq] <;> simp
  · intro i hi
    obtain ⟨-, -, -, ⟨-, heq⟩ | ⟨p, rest, -, -, heq⟩ | ⟨ps, rest, -, -, -, -, -, heq⟩⟩ := hs.wunlock_cases hi <;>
      rw [heq] <;> simp
  · intro i hi hidle
    obtain ⟨rfl, -, -, ⟨rfl, heq⟩ | ⟨p, rest, rfl, -, heq⟩ | ⟨ps, rest, rfl, -, -, -, -, heq⟩⟩ := hs.wunlock_cases hi
    · exact ⟨_, .wunlock hidle hi heq .nil⟩
    · exact ⟨_, .wunlock hidle hi heq .nil⟩
    · obtain ⟨s', hmeets⟩ := Meets.exists (s := { s with q := _, writing := s.writing.erase i }) hs.places
      exact ⟨_, .wunlock hidle hi heq hmeets⟩
  · intro i p hi
    obtain ⟨-, ⟨j, hj⟩, -⟩ := hs.places.handed (hs.places.waking hi)
    have hji : j ≠ i := by
      intro e
      rw [e, hi] at hj
      cases hj
    exact ⟨_, .rendezvous hi (.mk ((update_of_ne hji ..).trans hj))⟩
  · intro hhead
    have hl : l ≠ [] := fun e => hhead (hs.places.queue.head_none_iff.mpr e)
    have hown := ho.owned hl
    cases h with
    | some p =>
      obtain ⟨hp, ⟨i, hi⟩, j, hj⟩ := hs.places.handed rfl
      exact .inr (.inr ⟨i, p, hi, hqueue ▸ hp, j, hj⟩)
    | none =>
      change 0 < s.reading.card + (s.writing.card + 0) at hown
      by_cases hr : s.reading = 0
      · right; left
        intro hw
        rw [hr, hw] at hown
        exact absurd hown (by simp)
      · exact .inl hr
  intro i p m hi
  rcases hs.places.waiting hi with hp | ⟨hh, -⟩
  · exact .inl (hqueue ▸ hp)
  · exact .inr (hs.places.handed hh).2.2

/-! ## Runs -/

/-- What a process waiting in mode `m` waits to have. -/
def Has (s : RWSys P) (i : P) : Mode → Prop
  | .r => i ∈ s.reading
  | .w => i ∈ s.writing

/-- What the processes owe each other is done at some time. -/
structure Fair (run : Trans.Run (Init (P := P)) Step) : Prop where
  runlock : ∀ t i, i ∈ (run.state t).reading → ∃ u, t ≤ u ∧ run.act u = some (.runlock i)
  wunlock : ∀ t i, i ∈ (run.state t).writing → ∃ u, t ≤ u ∧ run.act u = some (.wunlock i)
  rendezvous : ∀ t i p, (run.state t).pc i = .waking p → ∃ u, t ≤ u ∧ run.act u = some (.rendezvous p)

variable {run : Trans.Run (Init (P := P)) Step}

theorem Inv.tick (hf : ∀ t, (run.state t).Few)
    (hs : Inv (run.state t) l h) : ∃ l' h', Inv (run.state (t + 1)) l' h' ∧
      (run.act t = none ∧ run.state (t + 1) = run.state t ∧ l' = l ∧ h' = h ∨
       ∃ a, run.act t = some a ∧ Moves a l l' ((run.state t).weight h) ((run.state (t + 1)).weight h')) := by
  have hnext := run.next t
  cases ha : run.act t with
  | none =>
    rw [ha] at hnext
    exact ⟨l, h, hnext ▸ hs, .inl ⟨rfl, hnext, rfl, rfl⟩⟩
  | some a =>
    rw [ha] at hnext
    obtain ⟨l', h', hinv, hmoves⟩ := hnext.inv hs (hf (t + 1))
    exact ⟨l', h', hinv, .inr ⟨a, rfl, hmoves⟩⟩

theorem Inv.of_run (hf : ∀ t, (run.state t).Few) (t : Nat) : ∃ l h, Inv (run.state t) l h := by
  induction t with
  | zero => exact ⟨[], none, Inv.init run.start⟩
  | succ t ih =>
    obtain ⟨l, h, hs⟩ := ih
    obtain ⟨l', h', hs', -⟩ := hs.tick hf
    exact ⟨l', h', hs'⟩

/-- Where `p` is in the queue, and the weight on it. -/
def At (run : Trans.Run (Init (P := P)) Step) (p : QLp) (t : Nat) (m : Nat × Nat) : Prop :=
  ∃ l h, Inv (run.state t) l h ∧ p ∈ l ∧ m = (l.idxOf p, (run.state t).weight h)

/-- An unlock takes `p` off the queue. -/
def Woken (run : Trans.Run (Init (P := P)) Step) (p : QLp) (t : Nat) : Prop :=
  (∃ a, run.act t = some a ∧ a.Unlocks) ∧ p ∈ (run.state t).queue ∧ p ∉ (run.state (t + 1)).queue

theorem At.tick (hf : ∀ t, (run.state t).Few) {m : Nat × Nat} (hat : At run p t m) :
    Woken run p t ∨ (∃ m', Prod.Lex (· < ·) (· < ·) m' m ∧ At run p (t + 1) m') ∨
    At run p (t + 1) m ∧ ∀ a, run.act t = some a → ¬ a.Releases := by
  obtain ⟨l, h, hs, hp, rfl⟩ := hat
  obtain ⟨l', h', hs', ⟨hact, hstate, rfl, rfl⟩ | ⟨a, hact, hmoves⟩⟩ := hs.tick hf
  · right; right
    refine ⟨⟨l', h', hs', hp, by rw [hstate]⟩, ?_⟩
    intro a ha
    rw [hact] at ha
    exact absurd ha (by simp)
  rcases hmoves.progress hs.places.queue.nodup hp with ⟨hu, hp'⟩ | ⟨hp', hlt | ⟨hidx, hn, hrel⟩⟩
  · left
    exact ⟨⟨a, hact, hu⟩, hs.queue_eq ▸ hp, hs'.queue_eq ▸ hp'⟩
  · right; left
    exact ⟨_, hlt, l', h', hs', hp', rfl⟩
  right; right
  refine ⟨⟨l', h', hs', hp', by rw [hidx, hn]⟩, ?_⟩
  intro b hb
  rw [hact] at hb
  cases hb
  exact hrel

theorem Fair.release (hfair : Fair run) (hs : Inv (run.state t) l h)
    (hl : l ≠ []) : ∃ u a, t ≤ u ∧ run.act u = some a ∧ a.Releases := by
  have hhead : (run.state t).q.head ≠ none := fun e => hl (hs.places.queue.head_none_iff.mp e)
  rcases hs.safe.held hhead with hr | hw | ⟨i, p, -, -, j, hj⟩
  · obtain ⟨i, hi⟩ := Multiset.exists_mem_of_ne_zero hr
    obtain ⟨u, htu, hu⟩ := hfair.runlock t i hi
    exact ⟨u, _, htu, hu, trivial⟩
  · obtain ⟨i, hi⟩ := Multiset.exists_mem_of_ne_zero hw
    obtain ⟨u, htu, hu⟩ := hfair.wunlock t i hi
    exact ⟨u, _, htu, hu, trivial⟩
  · obtain ⟨u, htu, hu⟩ := hfair.rendezvous t j p hj
    exact ⟨u, _, htu, hu, trivial⟩

theorem Woken.eventually (hf : ∀ t, (run.state t).Few) (hfair : Fair run)
    (hp : p ∈ (run.state t).queue) : ∃ u, t ≤ u ∧ Woken run p u := by
  obtain ⟨l, h, hs⟩ := Inv.of_run hf t
  have hwf : WellFounded (Prod.Lex (· < ·) (· < ·) : Nat × Nat → Nat × Nat → Prop) :=
    (Prod.lex ⟨_, Nat.lt_wfRel.wf⟩ ⟨_, Nat.lt_wfRel.wf⟩).wf
  refine Trans.eventually_of_measure hwf (P := At run p) ?_ ⟨l, h, hs, hs.queue_eq ▸ hp, rfl⟩
  intro t m hat
  obtain ⟨u, a, htu, hact, hrel⟩ : ∃ u a, t ≤ u ∧ run.act u = some a ∧ a.Releases := by
    obtain ⟨l, h, hs, hp, -⟩ := hat
    exact hfair.release hs (List.ne_nil_of_mem hp)
  -- Until the release the measure stays, unless something better happens first.
  have hstay := Trans.lasts_until (P := fun t => At run p t m)
    (Q := fun t => Woken run p t ∨ ∃ m', Prod.Lex (· < ·) (· < ·) m' m ∧ At run p (t + 1) m')
    (fun v hv => by
      rcases hv.tick hf with hw | hlt | ⟨hat', -⟩
      · exact .inr (.inl hw)
      · exact .inr (.inr hlt)
      · exact .inl hat') htu hat
  rcases hstay with hu | ⟨v, htv, -, hw | ⟨m', hlt, hv⟩⟩
  · rcases hu.tick hf with hw | ⟨m', hlt, hv⟩ | ⟨-, hno⟩
    · exact ⟨u, htu, .inl hw⟩
    · exact ⟨u + 1, Nat.le_succ_of_le htu, .inr ⟨m', hlt, hv⟩⟩
    · exact absurd hrel (hno a hact)
  · exact ⟨v, htv, .inl hw⟩
  · exact ⟨v + 1, Nat.le_succ_of_le htv, .inr ⟨m', hlt, hv⟩⟩

/-! ### The waiter's side -/

theorem Meet.waiting (hm : Meet s a s')
    (hi : s.pc i = .waiting p m) : s'.pc i = .waiting p m ∨ s'.Has i m := by
  cases hm with
  | @mk j _ m' hj =>
    by_cases hij : i = j
    · subst hij
      rw [hj] at hi
      cases hi
      right
      cases m with
      | r => exact Multiset.mem_cons_self ..
      | w => exact Multiset.mem_cons_self ..
    left
    have hpc : ((s.goto j (.returning a)).hold j m').pc i = s.pc i := by
      cases m' <;> exact update_of_ne hij ..
    rw [hpc, hi]

theorem Meet.has (hm : Meet s a s') (hi : s.Has i m) : s'.Has i m := by
  cases hm with
  | @mk j _ m' hj => cases m' <;> cases m <;> first | exact hi | exact Multiset.mem_cons_of_mem hi

theorem Meets.waiting {ps : List QLp} (hm : Meets s ps s') :
    s.pc i = .waiting p m ∨ s.Has i m → s'.pc i = .waiting p m ∨ s'.Has i m := by
  induction hm with
  | nil => exact id
  | cons hmeet _ ih =>
    intro hi
    refine ih ?_
    rcases hi with hi | hi
    · exact hmeet.waiting hi
    · exact .inr (hmeet.has hi)

theorem Step.waiting {a : RWAct P} (hstep : Step s a s')
    (hi : s.pc i = .waiting p m) : s'.pc i = .waiting p m ∨ s'.Has i m := by
  have hne : ∀ {j : P} {x : RWPc}, s.pc j = x → x ≠ .waiting p m → i ≠ j := by
    intro j x hj hx hij
    rw [← hij, hi] at hj
    exact hx hj.symm
  cases hstep with
  | @rlock j q ql w hj hq =>
    left
    cases w with
    | none => exact hi
    | some mp => exact (update_of_ne (hne hj (by simp)) ..).trans hi
  | @canrlock j q ok hj hq =>
    left
    cases ok with
    | true => exact hi
    | false => exact hi
  | @runlock j q w hj hm hq =>
    left
    cases w with
    | none => exact hi
    | some mp => exact (update_of_ne (hne hj (by simp)) ..).trans hi
  | @wlock j q ql w hj hq =>
    left
    cases w with
    | none => exact hi
    | some mp => exact (update_of_ne (hne hj (by simp)) ..).trans hi
  | @canwlock j q ok hj hq =>
    left
    cases ok with
    | true => exact hi
    | false => exact hi
  | @wunlock s₁ j q ps w hj hm hq hmeets =>
    have h1 := hmeets.waiting (.inl hi)
    cases w with
    | none => exact h1
    | some mp =>
      rcases h1 with h1 | h1
      · exact .inl ((update_of_ne (hne hj (by simp)) ..).trans h1)
      right
      cases m with
      | r => exact h1
      | w => exact h1
  | @rendezvous _ j a hj hmeet =>
    exact hmeet.waiting ((update_of_ne (hne hj (by simp)) ..).trans hi)
  | @free j mp hj =>
    left
    exact (update_of_ne (hne hj (by simp)) ..).trans hi
  | @other ql hx =>
    left
    exact hi

theorem Inv.rendezvous_has (hs : Inv s l h) (hi : s.pc i = .waiting p m) (hstep : Step s (.rendezvous p) s') : s'.Has i m := by
  cases hstep with
  | @rendezvous _ j a hj hmeet =>
    cases hmeet with
    | @mk k _ m' hk =>
      have hkj : k ≠ j := by
        intro e
        rw [e] at hk
        exact absurd ((update_self ..).symm.trans hk) (by simp)
      have hk' : s.pc k = .waiting p m' := (update_of_ne hkj ..).symm.trans hk
      obtain rfl : k = i := hs.places.inj (slot_waiting hk') (slot_waiting hi)
      rw [hi] at hk'
      cases hk'
      cases m with
      | r => exact Multiset.mem_cons_self ..
      | w => exact Multiset.mem_cons_self ..

theorem waits_until_has {u : Nat} (htu : t ≤ u)
    (hi : (run.state t).pc i = .waiting p m) :
    (run.state u).pc i = .waiting p m ∨ ∃ v, t < v ∧ (run.state v).Has i m := by
  have hlast := Trans.lasts_until (P := fun t => (run.state t).pc i = .waiting p m)
    (Q := fun t => (run.state (t + 1)).Has i m)
    (fun v hv => by
      have hnext := run.next v
      cases ha : run.act v with
      | none =>
        rw [ha] at hnext
        left
        rw [hnext]
        exact hv
      | some a =>
        rw [ha] at hnext
        exact hnext.waiting hv) htu hi
  rcases hlast with hu | ⟨v, htv, -, hv⟩
  · exact .inl hu
  · exact .inr ⟨v + 1, Nat.lt_succ_of_le htv, hv⟩

theorem Has.eventually (hf : ∀ t, (run.state t).Few) (hfair : Fair run)
    (hi : (run.state t).pc i = .waiting p m) : ∃ u, t < u ∧ (run.state u).Has i m := by
  obtain ⟨u, htu, hout⟩ : ∃ u, t ≤ u ∧ p ∉ (run.state u).queue := by
    by_cases hp : p ∈ (run.state t).queue
    · obtain ⟨u, htu, hw⟩ := Woken.eventually hf hfair hp
      exact ⟨u + 1, Nat.le_succ_of_le htu, hw.2.2⟩
    · exact ⟨t, Nat.le_refl t, hp⟩
  rcases waits_until_has htu hi with hu | hhas
  · obtain ⟨l, h, hs⟩ := Inv.of_run hf u
    obtain ⟨j, hj⟩ := (hs.safe.waiting i p m hu).resolve_left hout
    obtain ⟨v, huv, hact⟩ := hfair.rendezvous u j p hj
    rcases waits_until_has (Nat.le_trans htu huv) hi with hv | hhas
    · obtain ⟨l, h, hs⟩ := Inv.of_run hf v
      exact ⟨v + 1, by omega, hs.rendezvous_has hv (run.step_of_act hact)⟩
    · exact hhas
  · exact hhas

/-! ### First come, first served -/

theorem ahead_tick (hf : ∀ t, (run.state t).Few) {b : QLp}
    (hab : List.Sublist [a, b] (run.state t).queue) :
    List.Sublist [a, b] (run.state (t + 1)).queue ∨ Woken run a t := by
  obtain ⟨l, h, hs⟩ := Inv.of_run hf t
  obtain ⟨l', h', hs', hmove⟩ := hs.tick hf
  have hnd := hs.places.queue.nodup
  rw [hs.queue_eq] at hab
  have hal : a ∈ l := hab.subset (by simp)
  unfold Woken
  rw [hs.queue_eq, hs'.queue_eq]
  rcases hmove with ⟨-, -, rfl, -⟩ | ⟨act, hact, hmove⟩
  · exact .inl hab
  rcases hmove.progress hnd hal with ⟨hu, ha⟩ | ⟨ha, -⟩
  · exact .inr ⟨⟨act, hact, hu⟩, hal, ha⟩
  left
  obtain ⟨woken, rest, new, rfl, rfl, hwoken, -⟩ := hmove.shift
  cases woken with
  | nil => exact hab.trans (List.sublist_append_left rest new)
  | cons c woken =>
    obtain ⟨-, rfl⟩ := hwoken (by simp)
    rw [List.append_nil] at ha ⊢
    -- `a` is not among the woken, so nothing of `[a, b]` is.
    have hnot : a ∉ c :: woken := fun hw => (List.nodup_append.mp hnd).2.2 a hw a ha rfl
    obtain ⟨xs, ys, heq, hxs, hys⟩ := List.sublist_append_iff.mp hab
    cases xs with
    | nil => rw [List.nil_append] at heq; rwa [heq]
    | cons x xs =>
      obtain rfl : a = x := (List.cons.inj heq).1
      exact absurd (hxs.subset (by simp)) hnot

theorem fifo (hf : ∀ t, (run.state t).Few) {b : QLp} {u : Nat} (htu : t ≤ u)
    (hab : List.Sublist [a, b] (run.state t).queue) (hb : b ∉ (run.state u).queue) :
    ∃ v, t ≤ v ∧ v < u ∧ Woken run a v := by
  have hlast := Trans.lasts_until (P := fun v => List.Sublist [a, b] (run.state v).queue) (Q := Woken run a)
    (fun _ hv => ahead_tick hf hv) htu hab
  rcases hlast with hu | hv
  · exact absurd (hu.subset (by simp)) hb
  · exact hv

/-! ## The lock -/

/-- **The readers-writer lock**, as long as fewer than 2^31 read locks are held at a time. In every state that can
be reached it is safe; in every fair run a slot of the queue is taken off it by an unlock, and the process in it
comes to have the lock; and no slot is taken off before those ahead of it, whatever the run. -/
theorem rwlock_safe_live_fifo :
    (∀ s : RWSys P, Trans.Reachable Init FewStep s → s.Safe) ∧
    ∀ run : Trans.Run (Init (P := P)) Step, (∀ t, (run.state t).Few) →
      (Fair run →
        (∀ t p, p ∈ (run.state t).queue → ∃ u, t ≤ u ∧ Woken run p u) ∧
        ∀ t i p m, (run.state t).pc i = .waiting p m → ∃ u, t < u ∧ (run.state u).Has i m) ∧
      ∀ t u a b, t ≤ u → List.Sublist [a, b] (run.state t).queue → b ∉ (run.state u).queue →
        ∃ v, t ≤ v ∧ v < u ∧ Woken run a v := by
  refine ⟨?_, ?_⟩
  · intro s hs
    obtain ⟨l, h, hinv⟩ := Inv.of_reachable hs
    exact hinv.safe
  intro run hf
  refine ⟨?_, ?_⟩
  · intro hfair
    refine ⟨?_, ?_⟩
    · intro t p hp
      exact Woken.eventually hf hfair hp
    · intro t i p m hi
      exact Has.eventually hf hfair hi
  · intro t u a b htu hab hb
    exact fifo hf htu hab hb

/-! ### Two writers, one after the other -/

namespace Two

def s₀ : RWSys Bool := ⟨⟨⟨none, none⟩, 0, 0⟩, ⟨0, fun _ => ⟨false, none, .Queuing⟩⟩, fun _ => .idle, 0, 0⟩

def s₁ : RWSys Bool := { s₀ with q := { s₀.q with writer := 1 } }.hold false .w

def s₂ : RWSys Bool :=
  { s₁ with
    q := { s₁.q with head := some 1, tail := some 1 }
    ql := ((({ s₁.ql with p := 1 }.setInuse 1 true).setNext 1 none).setNext 1 none).setState 1 .QueuingW }.enter
    true .w (some 1)

def s₃ : RWSys Bool :=
  { s₂ with q := { s₂.q with head := none, tail := none }, writing := s₂.writing.erase false }.wake false (some 1)

def s₄ : RWSys Bool := ((s₃.goto false .idle).goto true (.returning 1)).hold true .w

def s₅ : RWSys Bool := { s₄ with ql := s₄.ql.setInuse 1 false }.goto true .idle

def s₆ : RWSys Bool := { s₅ with q := { s₅.q with writer := 0 }, writing := s₅.writing.erase true }

def state : Nat → RWSys Bool
  | 0 => s₀
  | 1 => s₁
  | 2 => s₂
  | 3 => s₃
  | 4 => s₄
  | 5 => s₅
  | _ => s₆

def act : Nat → Option (RWAct Bool)
  | 0 => some (.wlock false)
  | 1 => some (.wlock true)
  | 2 => some (.wunlock false)
  | 3 => some (.rendezvous 1)
  | 4 => some (.free true)
  | 5 => some (.wunlock true)
  | _ => none

theorem step₀ : Step s₀ (.wlock false) s₁ := by
  exact @Step.wlock _ _ s₀ false { s₀.q with writer := 1 } s₀.ql none rfl rfl

theorem step₁ : Step s₁ (.wlock true) s₂ := by
  exact @Step.wlock _ _ s₁ true _ _ (some 1) rfl rfl

theorem step₂ : Step s₂ (.wunlock false) s₃ := by
  exact @Step.wunlock _ _ s₂ _ false _ [] (some 1) rfl (show false ∈ false ::ₘ 0 by simp) rfl .nil

theorem step₃ : Step s₃ (.rendezvous 1) s₄ := by
  exact @Step.rendezvous _ _ s₃ _ false 1 rfl (@Meet.mk _ _ _ true 1 .w rfl)

theorem step₄ : Step s₄ (.free true) s₅ := by
  exact @Step.free _ _ s₄ true 1 rfl

theorem step₅ : Step s₅ (.wunlock true) s₆ := by
  exact @Step.wunlock _ _ s₅ _ true _ [] none rfl (Multiset.mem_cons_self true s₃.writing) rfl .nil

def trace : Trans.Run (Init (P := Bool)) Step where
  state := state
  act := act
  start := ⟨rfl, fun _ => rfl, rfl, rfl⟩
  next
    | 0 => step₀
    | 1 => step₁
    | 2 => step₂
    | 3 => step₃
    | 4 => step₄
    | 5 => step₅
    | _ + 6 => rfl

theorem few : ∀ t, (trace.state t).Few
  | 0 | 1 | 2 | 3 | 4 | 5 | _ + 6 => show (0 : Nat) < 2 ^ 31 by decide

theorem reading : ∀ t, (trace.state t).reading = 0
  | 0 | 1 | 2 | 3 | 4 | 5 | _ + 6 => rfl

theorem writing : ∀ t, (trace.state t).writing =
    if t = 1 ∨ t = 2 then {false} else if t = 4 ∨ t = 5 then {true} else 0
  | 0 | 1 | 2 | 3 | 4 | 5 | _ + 6 => by rfl

theorem waking : ∀ t i p, (trace.state t).pc i = .waking p → t = 3 ∧ p = 1 := by
  intro t i p h
  match t, i, h with
  | 3, false, h => cases h; exact ⟨rfl, rfl⟩
  | 4, false, h => cases h
  | 4, true, h => cases h
  | 5, false, h => cases h
  | 5, true, h => cases h
  | _ + 6, false, h => cases h
  | _ + 6, true, h => cases h

theorem fair : Fair trace := by
  refine ⟨?_, ?_, ?_⟩
  · intro t i hi
    rw [reading] at hi
    exact absurd hi (by simp)
  · intro t i hi
    rw [writing] at hi
    split at hi
    · obtain rfl : i = false := by simpa using hi
      exact ⟨2, by omega, rfl⟩
    split at hi
    · obtain rfl : i = true := by simpa using hi
      exact ⟨5, by omega, rfl⟩
    · exact absurd hi (by simp)
  · intro t i p hi
    obtain ⟨rfl, rfl⟩ := waking t i p hi
    exact ⟨3, Nat.le_refl 3, rfl⟩

end Two

theorem rwlock_safe_live_fifo_two : (1 : QLp) ∈ (Two.trace.state 2).queue ∧
    (∃ u, 2 ≤ u ∧ Woken Two.trace 1 u) ∧ ∃ u, 2 < u ∧ (Two.trace.state u).Has true .w := by
  have hlive := ((rwlock_safe_live_fifo (P := Bool)).2 Two.trace Two.few).1 Two.fair
  have hq : (1 : QLp) ∈ (Two.trace.state 2).queue := List.mem_cons_self ..
  exact ⟨hq, hlive.1 2 1 hq, hlive.2 2 true 1 .w rfl⟩

/-! ### Too many readers -/

/-- One process with `n` read locks. -/
def nested (ql : Ql) (n : Nat) : RWSys Unit :=
  ⟨⟨⟨none, none⟩, int32 n, 0⟩, ql, fun _ => .idle, Multiset.replicate n (), 0⟩

theorem nested_reachable (ql : Ql) (n : Nat) : Trans.Reachable Init Step (nested ql n) := by
  induction n with
  | zero => exact .start ⟨rfl, fun _ => rfl, rfl, rfl⟩
  | succ n ih =>
    have hlock : Libc.rlock (nested ql n).q (nested ql n).ql =
        some (⟨⟨none, none⟩, int32 (int32 n + 1), 0⟩, ql, none) := by
      simp [Libc.rlock, nested]
    have hnext := Trans.Reachable.next ih (Step.rlock (i := ()) rfl hlock)
    rw [int32_add] at hnext
    have heq : nested ql (n + 1) = { nested ql n with q := ⟨⟨none, none⟩, int32 (n + 1), 0⟩ }.hold () .r := by
      unfold nested hold
      rw [Multiset.replicate_succ, Int.natCast_succ]
    exact hnext

/-- With 2^31 read locks the count is negative, and `runlock` aborts on a reader. -/
theorem runlock_aborts : ∃ s : RWSys Unit, Trans.Reachable Init Step s ∧ s.pc () = .idle ∧ () ∈ s.reading ∧
    Libc.runlock s.q s.ql = none := by
  refine ⟨_, nested_reachable ⟨0, fun _ => ⟨false, none, .Queuing⟩⟩ (2 ^ 31), rfl, ?_, ?_⟩
  · exact Multiset.mem_replicate.mpr ⟨by decide, rfl⟩
  · exact if_pos (by decide)

end RWSys

end Plan9.Libc
