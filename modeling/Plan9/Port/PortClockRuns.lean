/-
What holds of the timers in every state they reach.

A handler runs with the list unlocked, and when it returns a periodic timer is put
back, whatever has been done with the timer meanwhile. Where nothing has (`Careful`),
the timer is still `timerintr`'s to put back (`Mine`) and all is well; where `timerdel`
has, the timer comes back, and where `timeradd` has, an assertion fails.
-/
import Plan9.Port.PortClockFacts

namespace Plan9.Port

open Function Option

namespace TimerSys

variable {P K M : Type} {c : Cpu} {s s' : TimerSys P K M} {l : M → List K}
  {i : P} {m : M} {t : K} {now : Nat}

/-- A processor may put the timer back whose handler it runs. -/
structure Mine (s : TimerSys P K M) (m : M) (t : K) : Prop where
  tt : (s.q.timer t).tt = none
  deleted : s.deleted t = false
  tadd : ∀ i, s.pc i ≠ .tadd t
  tdel : ∀ i adding tt, s.pc i = .tdel adding t tt → tt = m
  one : ∀ m' now, s.intr m' = .handler t now → s.touched m' = false → m' = m

structure Inv (c : Cpu) (s : TimerSys P K M) (l : M → List K) : Prop where
  lists : Lists c s.q l
  assert : s.halted ≠ some .assert
  lock : ∀ i j t, (s.pc i).timer = some t → (s.pc j).timer = some t → i = j
  tdel : ∀ i adding t tt, s.pc i = .tdel adding t tt → (s.q.timer t).tt = none ∨ (s.q.timer t).tt = some tt
  tadd : ∀ i t, s.pc i = .tadd t → (s.q.timer t).tt = none
  adding : ∀ i t, s.pc i = .tadd t ∨ (∃ tt, s.pc i = .tdel true t tt) → s.deleted t = false
  deleted : ∀ t, s.deleted t = true → (s.q.timer t).tt = none
  mine : ∀ m t now, s.intr m = .handler t now → s.touched m = false → s.Mine m t

theorem Inv.init (h : Init s) : Inv c s fun _ => [] := by
  refine ⟨⟨fun m => h.head m, fun _ => List.nodup_nil, fun _ => .nil, ?_⟩, ?_, ?_, ?_, ?_, ?_, ?_, ?_⟩
  · intro m t
    rw [h.tt t]
    simp
  · rw [h.halted]
    simp
  · intro i j t hi
    rw [h.pc i] at hi
    cases hi
  · intro i adding t tt hi
    rw [h.pc i] at hi
    cases hi
  · intro i t hi
    rw [h.pc i] at hi
    cases hi
  · intro i t _
    exact h.deleted t
  · intro t ht
    rw [h.deleted t] at ht
    cases ht
  · intro m t now hm
    rw [h.intr m] at hm
    cases hm

/-! ## The steps -/

variable {q : Timers K M} {a : TimerAct P K M} {l' : M → List K} {turns : Nat}

theorem Inv.set (hs : Inv c s l) (hlists : Lists c q l) (htt : ∀ t, (q.timer t).tt = (s.q.timer t).tt) :
    Inv c { s with q := q } l := by
  refine ⟨hlists, hs.assert, hs.lock, ?_, ?_, hs.adding, ?_, ?_⟩
  · intro i adding t tt hi
    rw [htt t]
    exact hs.tdel i adding t tt hi
  · intro i t hi
    rw [htt t]
    exact hs.tadd i t hi
  · intro t ht
    rw [htt t]
    exact hs.deleted t ht
  · intro m t now hm htouched
    obtain ⟨h1, h2, h3, h4, h5⟩ := hs.mine m t now hm htouched
    exact ⟨(htt t).trans h1, h2, h3, h4, h5⟩

theorem Inv.halt (hs : Inv c s l) {e : Halt} (he : e ≠ .assert) : Inv c { s with halted := some e } l := by
  refine ⟨hs.lists, ?_, hs.lock, hs.tdel, hs.tadd, hs.adding, hs.deleted, ?_⟩
  · intro h
    exact he (some.inj h)
  · intro m t now hm htouched
    obtain ⟨h1, h2, h3, h4, h5⟩ := hs.mine m t now hm htouched
    exact ⟨h1, h2, h3, h4, h5⟩

variable [DecidableEq K]

theorem touch_touched {t' : K} (hm : s.intr m = .handler t' now) (h : (s.touch t).touched m = false) :
    t' ≠ t ∧ s.touched m = false := by
  simp only [touch, hm, Bool.or_eq_false_iff, decide_eq_false_iff_not] at h
  exact ⟨h.2, h.1⟩

variable [DecidableEq P]

/-- What a step of `timeradd` or `timerdel` of `t` must leave. -/
structure Touches (s : TimerSys P K M) (i : P) (t : K) (x : TimerPc K M) (s' : TimerSys P K M) : Prop where
  lock : ∀ j, j ≠ i → (s.pc j).timer ≠ some t
  pc : s'.pc = Function.update s.pc i x
  timer : ∀ t', x.timer = some t' → t' = t
  intr : s'.intr = s.intr
  touched : s'.touched = (s.touch t).touched
  halted : s'.halted = s.halted
  other : ∀ t', t' ≠ t → (s'.q.timer t').tt = (s.q.timer t').tt ∧ s'.deleted t' = s.deleted t'
  tdel : ∀ adding tt, x = .tdel adding t tt → (s'.q.timer t).tt = none ∨ (s'.q.timer t).tt = some tt
  tadd : x = .tadd t → (s'.q.timer t).tt = none
  adding : x = .tadd t ∨ (∃ tt, x = .tdel true t tt) → s'.deleted t = false
  deleted : s'.deleted t = true → (s'.q.timer t).tt = none

theorem Touches.idle (hlock : ∀ j, j ≠ i → (s.pc j).timer ≠ some t) (hpc : s'.pc = update s.pc i .idle)
    (hintr : s'.intr = s.intr) (htouched : s'.touched = (s.touch t).touched) (hhalted : s'.halted = s.halted)
    (hother : ∀ t', t' ≠ t → (s'.q.timer t').tt = (s.q.timer t').tt ∧ s'.deleted t' = s.deleted t')
    (hdeleted : s'.deleted t = true → (s'.q.timer t).tt = none) : Touches s i t .idle s' := by
  refine ⟨hlock, hpc, ?_, hintr, htouched, hhalted, hother, ?_, ?_, ?_, hdeleted⟩
  · intro t' ht'
    cases ht'
  · intro adding tt hx
    cases hx
  · intro hx
    cases hx
  · intro hx
    rcases hx with hx | ⟨tt, hx⟩ <;> cases hx

theorem Touches.toTdel {adding : Bool} {tt : M} (hlock : ∀ j, j ≠ i → (s.pc j).timer ≠ some t)
    (hpc : s'.pc = update s.pc i (.tdel adding t tt)) (hintr : s'.intr = s.intr)
    (htouched : s'.touched = (s.touch t).touched) (hhalted : s'.halted = s.halted) (hq : s'.q = s.q)
    (hother : ∀ t', t' ≠ t → s'.deleted t' = s.deleted t') (htt : (s.q.timer t).tt = some tt)
    (hdeleted : s'.deleted t = false) : Touches s i t (.tdel adding t tt) s' := by
  refine ⟨hlock, hpc, ?_, hintr, htouched, hhalted, fun t' ht => ⟨by rw [hq], hother t' ht⟩, ?_, ?_, fun _ => hdeleted, ?_⟩
  · intro t' ht'
    exact (some.inj ht').symm
  · intro adding tt' hx
    cases hx
    rw [hq]
    exact .inr htt
  · intro hx
    cases hx
  · intro hdel
    rw [hdeleted] at hdel
    cases hdel

theorem Touches.toTadd (hlock : ∀ j, j ≠ i → (s.pc j).timer ≠ some t) (hpc : s'.pc = update s.pc i (.tadd t))
    (hintr : s'.intr = s.intr) (htouched : s'.touched = (s.touch t).touched) (hhalted : s'.halted = s.halted)
    (hother : ∀ t', t' ≠ t → (s'.q.timer t').tt = (s.q.timer t').tt ∧ s'.deleted t' = s.deleted t')
    (htt : (s'.q.timer t).tt = none) (hdeleted : s'.deleted t = false) : Touches s i t (.tadd t) s' := by
  refine ⟨hlock, hpc, ?_, hintr, htouched, hhalted, hother, ?_, fun _ => htt, fun _ => hdeleted, fun _ => htt⟩
  · intro t' ht'
    exact (some.inj ht').symm
  · intro adding tt hx
    cases hx

theorem Touches.pc_cases {x y : TimerPc K M} (h : Touches s i t x s') {j : P} (hj : s'.pc j = y) :
    j = i ∧ x = y ∨ j ≠ i ∧ s.pc j = y ∧ y.timer ≠ some t := by
  rw [h.pc] at hj
  by_cases hji : j = i
  · subst hji
    rw [update_self] at hj
    exact .inl ⟨rfl, hj⟩
  · rw [update_of_ne hji] at hj
    exact .inr ⟨hji, hj, hj ▸ h.lock j hji⟩

theorem Inv.touches (hs : Inv c s l) {x : TimerPc K M} (h : Touches s i t x s')
    (hlists : Lists c s'.q l') : Inv c s' l' := by
  refine ⟨hlists, ?_, ?_, ?_, ?_, ?_, ?_, ?_⟩
  · rw [h.halted]
    exact hs.assert
  · intro j k t' hj hk
    rcases h.pc_cases (y := s'.pc j) rfl with ⟨rfl, hx⟩ | ⟨hji, hj', hjt⟩
    · rcases h.pc_cases (y := s'.pc k) rfl with ⟨rfl, -⟩ | ⟨hki, hk', hkt⟩
      · rfl
      · rw [← hx] at hj
        rw [h.timer t' hj] at hk
        exact absurd hk hkt
    rcases h.pc_cases (y := s'.pc k) rfl with ⟨rfl, hx⟩ | ⟨hki, hk', hkt⟩
    · rw [← hx] at hk
      rw [h.timer t' hk] at hj
      exact absurd hj hjt
    · rw [← hj'] at hj
      rw [← hk'] at hk
      exact hs.lock j k t' hj hk
  · intro j adding t' tt hj
    rcases h.pc_cases hj with ⟨rfl, hx⟩ | ⟨hji, hj', hjt⟩
    · obtain rfl := h.timer t' (by rw [hx]; rfl)
      exact h.tdel adding tt hx
    · rw [(h.other t' fun ht => hjt (by rw [ht]; rfl)).1]
      exact hs.tdel j adding t' tt hj'
  · intro j t' hj
    rcases h.pc_cases hj with ⟨rfl, hx⟩ | ⟨hji, hj', hjt⟩
    · obtain rfl := h.timer t' (by rw [hx]; rfl)
      exact h.tadd hx
    · rw [(h.other t' fun ht => hjt (by rw [ht]; rfl)).1]
      exact hs.tadd j t' hj'
  · intro j t' hj
    by_cases ht : t' = t
    · subst ht
      refine h.adding ?_
      rcases hj with hj | ⟨tt, hj⟩
      · rcases h.pc_cases hj with ⟨-, hx⟩ | ⟨-, -, hjt⟩
        · exact .inl hx
        · exact absurd rfl hjt
      · rcases h.pc_cases hj with ⟨-, hx⟩ | ⟨-, -, hjt⟩
        · exact .inr ⟨tt, hx⟩
        · exact absurd rfl hjt
    rw [(h.other t' ht).2]
    refine hs.adding j t' ?_
    rcases hj with hj | ⟨tt, hj⟩
    · rcases h.pc_cases hj with ⟨-, hx⟩ | ⟨-, hj', -⟩
      · exact absurd (h.timer t' (by rw [hx]; rfl)) ht
      · exact .inl hj'
    · rcases h.pc_cases hj with ⟨-, hx⟩ | ⟨-, hj', -⟩
      · exact absurd (h.timer t' (by rw [hx]; rfl)) ht
      · exact .inr ⟨tt, hj'⟩
  · intro t' ht'
    by_cases ht : t' = t
    · subst ht
      exact h.deleted ht'
    · rw [(h.other t' ht).1]
      rw [(h.other t' ht).2] at ht'
      exact hs.deleted t' ht'
  intro m t' now hm htouched
  rw [h.intr] at hm
  rw [h.touched] at htouched
  obtain ⟨hne, htouched⟩ := touch_touched hm htouched
  obtain ⟨h1, h2, h3, h4, h5⟩ := hs.mine m t' now hm htouched
  refine ⟨?_, ?_, ?_, ?_, ?_⟩
  · rw [(h.other t' hne).1]
    exact h1
  · rw [(h.other t' hne).2]
    exact h2
  · intro j hj
    rcases h.pc_cases hj with ⟨-, hx⟩ | ⟨-, hj', -⟩
    · exact hne (h.timer t' (by rw [hx]; rfl))
    · exact h3 j hj'
  · intro j adding tt hj
    rcases h.pc_cases hj with ⟨-, hx⟩ | ⟨-, hj', -⟩
    · exact absurd (h.timer t' (by rw [hx]; rfl)) hne
    · exact h4 j adding tt hj'
  intro m' now' hm' htouched'
  rw [h.intr] at hm'
  rw [h.touched] at htouched'
  exact h5 m' now' hm' (touch_touched hm' htouched').2

omit [DecidableEq P] [DecidableEq K] in
theorem Inv.noHandler [DecidableEq M] (hs : Inv c s l) {x : IntrPc K} (hx : ∀ t now, x ≠ .handler t now) :
    Inv c { s with intr := update s.intr m x } l := by
  refine ⟨hs.lists, hs.assert, hs.lock, hs.tdel, hs.tadd, hs.adding, hs.deleted, ?_⟩
  -- A handler that runs is another processor's.
  have hrun : ∀ {m' t' now'}, update s.intr m x m' = .handler t' now' → s.intr m' = .handler t' now' := by
    intro m' t' now' hm'
    by_cases hmm : m' = m
    · rw [hmm, update_self] at hm'
      exact absurd hm' (hx t' now')
    · rwa [update_of_ne hmm] at hm'
  intro m' t' now' hm' htouched
  obtain ⟨h1, h2, h3, h4, h5⟩ := hs.mine m' t' now' (hrun hm') htouched
  exact ⟨h1, h2, h3, h4, fun m'' now'' hm'' => h5 m'' now'' (hrun hm'')⟩

variable [DecidableEq M]

omit [DecidableEq P] in
theorem Inv.popped (hs : Inv c s l) (htt : (s.q.timer t).tt = some m)
    (hlists : Lists c q l') (hmoved : Moved s.q t none q) :
    Inv c ({ s with q := q }.run m now (some t)) l' := by
  have hother : ∀ t', t' ≠ t → (q.timer t').tt = (s.q.timer t').tt := fun t' ht => (hmoved.like t' ht).tt
  have hnone : ∀ {t'}, (s.q.timer t').tt = none → (q.timer t').tt = none := by
    intro t' ht'
    by_cases ht : t' = t
    · rw [ht]
      exact hmoved.tt
    · rw [hother t' ht, ht']
  -- What an earlier handler may put back is not this timer.
  have hrun : ∀ {m' t' now'}, update s.intr m (.handler t now) m' = .handler t' now' →
      update s.touched m false m' = false → m' = m ∧ t' = t ∨ m' ≠ m ∧ t' ≠ t ∧ s.Mine m' t' := by
    intro m' t' now' hm' htouched
    by_cases hmm : m' = m
    · subst hmm
      rw [update_self] at hm'
      cases hm'
      exact .inl ⟨rfl, rfl⟩
    rw [update_of_ne hmm] at hm' htouched
    have hmine := hs.mine m' t' now' hm' htouched
    refine .inr ⟨hmm, ?_, hmine⟩
    intro ht
    rw [← ht, hmine.tt] at htt
    cases htt
  refine ⟨hlists, hs.assert, hs.lock, ?_, fun i t' hi => hnone (hs.tadd i t' hi), hs.adding,
    fun t' ht' => hnone (hs.deleted t' ht'), ?_⟩
  · intro i adding t' tt hi
    rcases hs.tdel i adding t' tt hi with h | h
    · exact .inl (hnone h)
    by_cases ht : t' = t
    · rw [ht]
      exact .inl hmoved.tt
    · exact .inr ((hother t' ht).trans h)
  intro m' t' now' hm' htouched
  rcases hrun hm' htouched with ⟨rfl, rfl⟩ | ⟨hmm, ht, h1, h2, h3, h4, h5⟩
  · refine ⟨hmoved.tt, ?_, ?_, ?_, ?_⟩
    · refine eq_false_of_ne_true ?_
      intro hdel
      rw [hs.deleted t' hdel] at htt
      cases htt
    · intro i hi
      rw [hs.tadd i t' hi] at htt
      cases htt
    · intro i adding tt hi
      rcases hs.tdel i adding t' tt hi with h | h
      · rw [h] at htt
        cases htt
      · rw [h] at htt
        exact some.inj htt
    intro m'' now'' hm'' htouched''
    rcases hrun hm'' htouched'' with ⟨h, -⟩ | ⟨-, hne, -⟩
    · exact h
    · exact absurd rfl hne
  refine ⟨hnone h1, h2, h3, h4, ?_⟩
  intro m'' now'' hm'' htouched''
  rcases hrun hm'' htouched'' with ⟨-, h⟩ | ⟨hm, -, -⟩
  · exact absurd h ht
  · dsimp only [run] at hm'' htouched''
    rw [update_of_ne hm] at hm'' htouched''
    exact h5 m'' now'' hm'' htouched''

omit [DecidableEq P] in
theorem Inv.putBack (hs : Inv c s l) (hm : s.intr m = .handler t now)
    (htouched : s.touched m = false) (hlists : Lists c q l') (hmoved : Moved s.q t (some m) q) :
    Inv c { s with q := q, intr := update s.intr m .idle } l' := by
  have hmine := hs.mine m t now hm htouched
  have hother : ∀ t', t' ≠ t → (q.timer t').tt = (s.q.timer t').tt := fun t' ht => (hmoved.like t' ht).tt
  refine ⟨hlists, hs.assert, hs.lock, ?_, ?_, hs.adding, ?_, ?_⟩
  · intro i adding t' tt hi
    by_cases ht : t' = t
    · subst ht
      rw [hmine.tdel i adding tt hi]
      exact .inr hmoved.tt
    · rw [hother t' ht]
      exact hs.tdel i adding t' tt hi
  · intro i t' hi
    by_cases ht : t' = t
    · exact absurd (ht ▸ hi) (hmine.tadd i)
    · exact (hother t' ht).trans (hs.tadd i t' hi)
  · intro t' ht'
    by_cases ht : t' = t
    · rw [ht, hmine.deleted] at ht'
      cases ht'
    · exact (hother t' ht).trans (hs.deleted t' ht')
  have hrun : ∀ {m' t' now'}, update s.intr m .idle m' = .handler t' now' →
      m' ≠ m ∧ s.intr m' = .handler t' now' := by
    intro m' t' now' hm'
    by_cases hmm : m' = m
    · rw [hmm, update_self] at hm'
      cases hm'
    · rw [update_of_ne hmm] at hm'
      exact ⟨hmm, hm'⟩
  intro m' t' now' hm' htouched'
  obtain ⟨hmm, hm'⟩ := hrun hm'
  obtain ⟨h1, h2, h3, h4, h5⟩ := hs.mine m' t' now' hm' htouched'
  have ht : t' ≠ t := fun ht => hmm (hmine.one m' now' (ht ▸ hm') htouched')
  exact ⟨(hother t' ht).trans h1, h2, h3, h4, fun m'' now'' hm'' => h5 m'' now'' (hrun hm'').2⟩

omit [DecidableEq P] in
theorem Inv.look (hs : Inv c s l) {r : Except Halt (Timers K M × Option K)} (hr : Port.look now s.q m = r) :
    ∃ q t l', r = .ok (q, t) ∧ Inv c ({ s with q := q }.run m now t) l' := by
  rcases hs.lists.look hr with rfl | ⟨q', t, l', rfl, htt, hlists, hmoved⟩
  · exact ⟨s.q, none, l, rfl, hs.noHandler (by simp)⟩
  · exact ⟨q', some t, l', rfl, hs.popped htt hlists hmoved⟩

omit [DecidableEq P] in
theorem Inv.readd (hs : Inv c s l) {fastticks : Nat} {r : Except Halt (Timers K M × Option K)}
    (hm : s.intr m = .handler t now) (hr : Port.readd c turns fastticks now s.q m t = r) (hturns : r ≠ .error .turns)
    (hcare : (s.q.timer t).tmode = Tperiodic → s.touched m = false ∧ 100000 ≤ (s.q.timer t).tns) :
    r = .error .panic ∨ ∃ q t' l', r = .ok (q, t') ∧ Inv c ({ s with q := q }.run m now t') l' := by
  unfold Port.readd at hr
  by_cases hper : (s.q.timer t).tmode = Tperiodic
  · obtain ⟨htouched, htns⟩ := hcare hper
    have hnone := (hs.mine m t now hm htouched).tt
    rw [if_pos hper] at hr
    cases hadd : Port.tadd c turns fastticks s.q m t with
    | error e =>
      rw [hadd] at hr
      subst hr
      have hne : (.error e : Except Halt (Timers K M × Nat)) ≠ .error .turns := by
        intro he
        cases he
        exact hturns rfl
      rcases hs.lists.tadd hnone hadd hne with he | ⟨he, -, hlt⟩ | ⟨_, _, _, he, -⟩
      · cases he
        exact .inl rfl
      · exact absurd htns (Int.not_le.2 hlt)
      · cases he
    | ok x =>
      rw [hadd] at hr
      rcases hs.lists.tadd hnone hadd (by simp) with he | ⟨he, -⟩ | ⟨q₁, w, l1, he, hlists, hmoved⟩
      · cases he
      · cases he
      cases he
      obtain ⟨q, t', l', hok, hinv⟩ := (hs.putBack hm htouched hlists hmoved).look hr
      refine .inr ⟨q, t', l', hok, ?_⟩
      cases t' with
      | none => simpa only [run, update_idem] using hinv
      | some t' => simpa only [run, update_idem] using hinv
  · rw [if_neg hper] at hr
    exact .inr (hs.look hr)

/-! ## `timeradd` and `timerdel` -/

omit [DecidableEq M] in
theorem Inv.enter (hs : Inv c s l) (hfree : s.Unlocked t) : Inv c (((s.add t).touch t).enter i t) l := by
  have hother : ∀ t', t' ≠ t → update s.deleted t false t' = s.deleted t' :=
    fun t' ht => update_of_ne ht ..
  have hdel : update s.deleted t false t = false := update_self ..
  cases htt : (s.q.timer t).tt with
  | none =>
    have heq : ((s.add t).touch t).enter i t = ((s.add t).touch t).goto i (.tadd t) := by
      rw [TimerSys.enter, show (((s.add t).touch t).q.timer t).tt = none from htt]
    rw [heq]
    have h : Touches s i t (.tadd t) (((s.add t).touch t).goto i (.tadd t)) :=
      .toTadd (fun j _ => hfree j) rfl rfl rfl rfl (fun t' ht => ⟨rfl, hother t' ht⟩) htt hdel
    exact hs.touches h hs.lists
  | some tt =>
    have heq : ((s.add t).touch t).enter i t = ((s.add t).touch t).goto i (.tdel true t tt) := by
      rw [TimerSys.enter, show (((s.add t).touch t).q.timer t).tt = some tt from htt]
    rw [heq]
    have h : Touches s i t (.tdel true t tt) (((s.add t).touch t).goto i (.tdel true t tt)) :=
      .toTdel (fun j _ => hfree j) rfl rfl rfl rfl rfl hother htt hdel
    exact hs.touches h hs.lists

omit [DecidableEq M] in
theorem Inv.leave (hs : Inv c s l) (hi : s.pc i = .idle) (hfree : s.Unlocked t) : Inv c ((s.touch t).leave i t) l := by
  cases htt : (s.q.timer t).tt with
  | none =>
    have heq : (s.touch t).leave i t = (s.touch t).del t := by
      rw [TimerSys.leave, show ((s.touch t).q.timer t).tt = none from htt]
    rw [heq]
    have hpc : s.pc = update s.pc i .idle := by
      rw [← hi]
      exact (update_eq_self i s.pc).symm
    have h : Touches s i t .idle ((s.touch t).del t) :=
      .idle (fun j _ => hfree j) hpc rfl rfl rfl (fun t' ht => ⟨rfl, update_of_ne ht ..⟩) fun _ => htt
    exact hs.touches h hs.lists
  | some tt =>
    have heq : (s.touch t).leave i t = (s.touch t).goto i (.tdel false t tt) := by
      rw [TimerSys.leave, show ((s.touch t).q.timer t).tt = some tt from htt]
    rw [heq]
    have hdel : s.deleted t = false := by
      refine eq_false_of_ne_true ?_
      intro hdel
      rw [hs.deleted t hdel] at htt
      cases htt
    have h : Touches s i t (.tdel false t tt) ((s.touch t).goto i (.tdel false t tt)) :=
      .toTdel (fun j _ => hfree j) rfl rfl rfl rfl rfl (fun _ _ => rfl) htt hdel
    exact hs.touches h hs.lists

theorem Inv.tdel' (hs : Inv c s l) {adding : Bool} {tt : M} {r : Except Halt (Timers K M × Nat)}
    (hi : s.pc i = .tdel adding t tt) (hr : Port.tdel turns s.q t = r) (hturns : r ≠ .error .turns) :
    ∃ q w l', r = .ok (q, w) ∧ Inv c ((({ s with q := q } : TimerSys P K M).touch t).after i adding t) l' := by
  obtain ⟨q, w, l', rfl, hlists, hmoved⟩ := hs.lists.tdel hr hturns
  have hlock : ∀ j, j ≠ i → (s.pc j).timer ≠ some t := by
    intro j hji hj
    exact hji (hs.lock j i t hj (by rw [hi]; rfl))
  have hother : ∀ t', t' ≠ t → (q.timer t').tt = (s.q.timer t').tt := fun t' ht => (hmoved.like t' ht).tt
  refine ⟨q, w, l', rfl, ?_⟩
  cases adding with
  | true =>
    have h : Touches s i t (.tadd t) ((({ s with q := q } : TimerSys P K M).touch t).goto i (.tadd t)) :=
      .toTadd hlock rfl rfl rfl rfl (fun t' ht => ⟨hother t' ht, rfl⟩) hmoved.tt (hs.adding i t (.inr ⟨tt, hi⟩))
    exact hs.touches h hlists
  | false =>
    have h : Touches s i t .idle (((({ s with q := q } : TimerSys P K M).touch t).goto i .idle).del t) :=
      .idle hlock rfl rfl rfl rfl (fun t' ht => ⟨hother t' ht, update_of_ne ht ..⟩) fun _ => hmoved.tt
    exact hs.touches h hlists

theorem Inv.tadd' (hs : Inv c s l) {fastticks : Nat} {r : Except Halt (Timers K M × Nat)} (hi : s.pc i = .tadd t)
    (hr : Port.tadd c turns fastticks s.q m t = r) (hturns : r ≠ .error .turns)
    (hcare : (s.q.timer t).tmode = Tperiodic → 100000 ≤ (s.q.timer t).tns) :
    r = .error .panic ∨
      ∃ q w l', r = .ok (q, w) ∧ Inv c ((({ s with q := q } : TimerSys P K M).touch t).goto i .idle) l' := by
  rcases hs.lists.tadd (hs.tadd i t hi) hr hturns with rfl | ⟨-, hper, htns⟩ | ⟨q, w, l', rfl, hlists, hmoved⟩
  · exact .inl rfl
  · exact absurd (hcare hper) (Int.not_le.2 htns)
  have hlock : ∀ j, j ≠ i → (s.pc j).timer ≠ some t := by
    intro j hji hj
    exact hji (hs.lock j i t hj (by rw [hi]; rfl))
  have hdel : s.deleted t = false := hs.adding i t (.inl hi)
  have h : Touches s i t .idle ((({ s with q := q } : TimerSys P K M).touch t).goto i .idle) :=
    .idle hlock rfl rfl rfl rfl (fun t' ht => ⟨(hmoved.like t' ht).tt, rfl⟩) fun h => absurd (hdel.symm.trans h) (by simp)
  exact .inr ⟨q, w, l', rfl, hs.touches h hlists⟩

/-! ## Every step -/

/-- A timer that `timerintr` puts back is one that nobody has added or deleted since it was taken out, and the period of
a periodic timer that is added is not too short. -/
def Careful (s : TimerSys P K M) : TimerAct P K M → Prop
  | .tadd i _ _ => ∀ t, s.pc i = .tadd t → (s.q.timer t).tmode = Tperiodic → 100000 ≤ (s.q.timer t).tns
  | .readd m _ => ∀ t now, s.intr m = .handler t now → (s.q.timer t).tmode = Tperiodic →
      s.touched m = false ∧ 100000 ≤ (s.q.timer t).tns
  | _ => True

omit [DecidableEq M] in
theorem set_keeps {x : Timer K M} (hnext : x.tnext = (q.timer t).tnext) (htt : x.tt = (q.timer t).tt) (t' : K) :
    (q.set t x).tnext t' = q.tnext t' ∧ ((q.set t x).timer t').tt = (q.timer t').tt ∧
      (x.twhen = (q.timer t).twhen ∨ t' ≠ t → ((q.set t x).timer t').twhen = (q.timer t').twhen) := by
  rw [Timers.set_tnext, Timers.set_timer]
  by_cases ht : t' = t
  · subst ht
    rw [update_self, update_self]
    exact ⟨hnext, htt, fun h => h.resolve_right fun hne => hne rfl⟩
  · rw [update_of_ne ht, update_of_ne ht]
    exact ⟨rfl, rfl, fun _ => rfl⟩

/-- **A careful step keeps the invariant.** -/
theorem Step.inv (hstep : Step c s a s') (ha : s.Careful a) (hs : Inv c s l) : ∃ l', Inv c s' l' := by
  cases hstep with
  | @set t tmode tns _ =>
    have hkeep := @set_keeps K M t s.q _ { s.q.timer t with tmode := tmode, tns := tns } rfl rfl
    exact ⟨l, hs.set (hs.lists.congr rfl (fun t' => (hkeep t').1) (fun t' => (hkeep t').2.1)
      fun m t' _ => (hkeep t').2.2 (.inl rfl)) fun t' => (hkeep t').2.1⟩
  | @clear t _ hnone =>
    have hkeep := @set_keeps K M t s.q _ { s.q.timer t with twhen := 0 } rfl rfl
    refine ⟨l, hs.set (hs.lists.congr rfl (fun t' => (hkeep t').1) (fun t' => (hkeep t').2.1) ?_) fun t' => (hkeep t').2.1⟩
    intro m t' ht'
    refine (hkeep t').2.2 (.inr ?_)
    intro ht
    rw [hs.lists.mem m t', ht, hnone] at ht'
    cases ht'
  | timeradd _ hi hfree => exact ⟨l, hs.enter hfree⟩
  | timerdel _ hi hfree => exact ⟨l, hs.leave hi hfree⟩
  | tdel _ hi hr hturns =>
    obtain ⟨q, w, l', rfl, hinv⟩ := hs.tdel' hi hr hturns
    exact ⟨l', hinv⟩
  | @tadd i t m _ _ _ _ hi hr hturns =>
    rcases hs.tadd' hi hr hturns (ha t hi) with rfl | ⟨q, w, l', rfl, hinv⟩
    · exact ⟨l, hs.halt (by simp)⟩
    · exact ⟨l', hinv⟩
  | timerintr => exact ⟨l, hs.noHandler (by simp)⟩
  | zero => exact ⟨l, hs.halt (by simp)⟩
  | look _ _ hr =>
    obtain ⟨q, t, l', rfl, hinv⟩ := hs.look hr
    exact ⟨l', hinv⟩
  | @readd m t now _ _ _ _ hm hr hturns =>
    rcases hs.readd hm hr hturns (ha t now hm) with rfl | ⟨q, t', l', rfl, hinv⟩
    · exact ⟨l, hs.halt (by simp)⟩
    · exact ⟨l', hinv⟩

/-- What `timerdel` has taken out stays out until `timeradd`. -/
theorem Step.deleted (hstep : Step c s a s') (ht : s.deleted t = true) (ha : ∀ i, a ≠ .timeradd i t) :
    s'.deleted t = true := by
  have hdel : ∀ t', update s.deleted t' true t = true := by
    intro t'
    by_cases htt : t = t'
    · rw [htt, update_self]
    · rwa [update_of_ne htt]
  cases hstep with
  | @timeradd i t' _ hi hfree =>
    have htt : t ≠ t' := fun htt => ha i (by rw [htt])
    have hkeep : update s.deleted t' false t = true := by rwa [update_of_ne htt]
    unfold enter
    split <;> exact hkeep
  | @timerdel i t' _ hi hfree =>
    unfold leave
    split
    · exact ht
    · exact hdel t'
  | @tdel i adding t' tt turns r _ hi hr hturns =>
    cases r with
    | error e => exact ht
    | ok x =>
      cases adding with
      | true => exact ht
      | false => exact hdel t'
  | @tadd _ _ _ _ _ r _ hi hr hturns => cases r <;> exact ht
  | @look _ _ r _ _ hr =>
    rcases r with e | ⟨q, x⟩
    · exact ht
    · cases x <;> exact ht
  | @readd _ _ _ _ _ r _ hm hr hturns =>
    rcases r with e | ⟨q, x⟩
    · exact ht
    · cases x <;> exact ht
  | set => exact ht
  | clear => exact ht
  | timerintr => exact ht
  | zero => exact ht

theorem Step.returned (hstep : Step c s a s')
    (ha : a = .timerdel i t ∨ a = .tdel i ∧ ∃ tt, s.pc i = .tdel false t tt) (hi : s'.pc i = .idle) :
    s'.deleted t = true := by
  rcases ha with rfl | ⟨rfl, tt, hpc⟩
  · cases hstep with
    | timerdel _ _ _ =>
      unfold leave at hi ⊢
      split at hi
      · dsimp only [goto] at hi
        rw [update_self] at hi
        cases hi
      · exact update_self ..
  cases hstep with
  | @tdel _ adding t' tt' turns r _ hpc' hr hturns =>
    rw [hpc] at hpc'
    cases hpc'
    cases r with
    | error e =>
      rw [ends, hpc] at hi
      cases hi
    | ok x => exact update_self ..

/-- What is to hold in every state. -/
structure Safe (c : Cpu) (s : TimerSys P K M) : Prop where
  assert : s.halted ≠ some .assert
  lists : ∃ l, Lists c s.q l ∧ ∀ t, s.deleted t = true → ∀ m, t ∉ l m
  tadd_ends : ∀ fastticks m t, ∃ turns, Port.tadd c turns fastticks s.q m t ≠ .error .turns
  tdel_ends : ∀ t, ∃ turns, Port.tdel turns s.q t ≠ .error .turns

omit [DecidableEq P] in
theorem Inv.safe (hs : Inv c s l) : s.Safe c := by
  refine ⟨hs.assert, ⟨l, hs.lists, ?_⟩, hs.lists.tadd_ends, hs.lists.tdel_ends⟩
  intro t ht m hmem
  rw [hs.lists.mem m t, hs.deleted t ht] at hmem
  cases hmem

/-- A step with what makes it careful. -/
def CarefulStep (c : Cpu) (s : TimerSys P K M) (a : TimerAct P K M) (s' : TimerSys P K M) : Prop :=
  Step c s a s' ∧ s.Careful a

/-- **The timers are safe where every step is careful**; and from the return of `timerdel` to the next `timeradd` the
timer is in no list. -/
theorem timers_safe (c : Cpu) (s : TimerSys P K M) (hs : Trans.Reachable Init (CarefulStep c) s) :
    s.Safe c ∧
    (∀ a s' i t, CarefulStep c s a s' → a = .timerdel i t ∨ a = .tdel i ∧ (∃ tt, s.pc i = .tdel false t tt) →
      s'.pc i = .idle → s'.deleted t = true) ∧
    ∀ as s' t, Trans.Path (CarefulStep c) s as s' → s.deleted t = true → (∀ a ∈ as, ∀ i, a ≠ .timeradd i t) →
      s'.Safe c ∧ s'.deleted t = true := by
  have hreach : ∀ s, Trans.Reachable Init (CarefulStep (P := P) (K := K) (M := M) c) s → ∃ l, Inv c s l := by
    intro s hs
    refine hs.invariant (fun s => ∃ l, Inv c s l) ?_ ?_
    · intro s hinit
      exact ⟨_, Inv.init hinit⟩
    · intro s a s' hinv hstep
      obtain ⟨l, hinv⟩ := hinv
      exact hstep.1.inv hstep.2 hinv
  obtain ⟨l, hinv⟩ := hreach s hs
  refine ⟨hinv.safe, fun a s' i t hstep ha hi => hstep.1.returned ha hi, ?_⟩
  intro as s' t hpath hdel has
  have hrun : (∃ l, Inv c s' l) ∧ s'.deleted t = true := by
    refine hpath.invariant (fun _ s' => (∃ l, Inv c s' l) ∧ s'.deleted t = true) ⟨⟨l, hinv⟩, hdel⟩ ?_ has
    intro _ s₁ a s₂ hs1 ha hstep
    obtain ⟨⟨l1, hinv1⟩, hdel1⟩ := hs1
    exact ⟨hstep.1.inv hstep.2 hinv1, hstep.1.deleted hdel1 ha⟩
  obtain ⟨⟨l', hinv'⟩, hdel'⟩ := hrun
  exact ⟨hinv'.safe, hdel'⟩

/-! ### One timer, one processor -/

namespace One

def cpu : Cpu := ⟨Int.ofNat, id⟩

/-- A periodic timer, in no list. -/
def s₀ : TimerSys Unit Unit Unit :=
  ⟨⟨fun _ => none, fun _ => ⟨Tperiodic, 100000, none, 0, none⟩⟩, fun _ => .idle, fun _ => .idle, none, fun _ => false,
    fun _ => false⟩

def addTo (s : TimerSys Unit Unit Unit) (fastticks : Nat) : TimerSys Unit Unit Unit :=
  s.ends (fun (q, _) => ({ s with q := q }.touch ()).goto () .idle) (Port.tadd cpu 2 fastticks s.q () ())

def looked (s : TimerSys Unit Unit Unit) (now : Nat) : TimerSys Unit Unit Unit :=
  s.ends (fun (q, t) => { s with q := q }.run () now t) (Port.look now s.q ())

def putBack (s : TimerSys Unit Unit Unit) (fastticks now : Nat) : TimerSys Unit Unit Unit :=
  s.ends (fun (q, t) => { s with q := q }.run () now t) (Port.readd cpu 2 fastticks now s.q () ())

def s₁ : TimerSys Unit Unit Unit := ((s₀.add ()).touch ()).enter () ()

def s₂ : TimerSys Unit Unit Unit := addTo s₁ 1

def s₃ : TimerSys Unit Unit Unit := { s₂ with intr := Function.update s₂.intr () (.entered 100001) }

/-- The handler runs. -/
def s₄ : TimerSys Unit Unit Unit := looked s₃ 100001

/-- It has returned. -/
def s₅ : TimerSys Unit Unit Unit := putBack s₄ 1 100001

def s₆ : TimerSys Unit Unit Unit := (s₅.touch ()).leave () ()

def s₇ : TimerSys Unit Unit Unit :=
  s₆.ends (fun (q, _) => ({ s₆ with q := q }.touch ()).after () false ()) (Port.tdel 2 s₆.q ())

theorem start : Init s₀ := ⟨fun _ => rfl, fun _ => rfl, fun _ => rfl, fun _ => rfl, rfl, fun _ => rfl⟩

theorem step₁ : Step cpu s₀ (.timeradd () ()) s₁ := .timeradd rfl rfl fun _ => nofun

theorem step₂ : Step cpu s₁ (.tadd () () 1) s₂ := @Step.tadd _ _ _ _ _ _ cpu s₁ () () () 2 1 _ rfl rfl rfl nofun

theorem step₃ : Step cpu s₂ (.timerintr () 100001) s₃ := .timerintr rfl rfl (by simp)

theorem step₄ : Step cpu s₃ (.look ()) s₄ := @Step.look _ _ _ _ _ _ cpu s₃ () 100001 _ rfl rfl rfl

theorem step₅ : Step cpu s₄ (.readd () 1) s₅ := @Step.readd _ _ _ _ _ _ cpu s₄ () () 100001 2 1 _ rfl rfl rfl nofun

theorem step₆ : Step cpu s₅ (.timerdel () ()) s₆ := .timerdel rfl rfl fun _ => nofun

theorem step₇ : Step cpu s₆ (.tdel ()) s₇ := @Step.tdel _ _ _ _ _ _ cpu s₆ () false () () 2 _ rfl rfl rfl nofun

theorem reachable : Trans.Reachable Init (CarefulStep cpu) s₇ := by
  have h4 : Trans.Reachable Init (CarefulStep cpu) s₄ := by
    refine .next (.next (.next (.next (.start start) ⟨step₁, trivial⟩) ⟨step₂, ?_⟩) ⟨step₃, trivial⟩) ⟨step₄, trivial⟩
    intro _ _ _
    exact Int.le_refl 100000
  refine .next (.next (.next h4 ⟨step₅, ?_⟩) ⟨step₆, trivial⟩) ⟨step₇, trivial⟩
  intro _ _ _ _
  exact ⟨rfl, Int.le_refl 100000⟩

theorem handling : Trans.Reachable Init (Step cpu) s₄ :=
  .next (.next (.next (.next (.start start) step₁) step₂) step₃) step₄

/-- The handler deletes its timer. -/
def d₅ : TimerSys Unit Unit Unit := (s₄.touch ()).leave () ()

def d₆ : TimerSys Unit Unit Unit := putBack d₅ 1 100001

/-- The handler adds its timer. -/
def a₅ : TimerSys Unit Unit Unit := ((s₄.add ()).touch ()).enter () ()

def a₆ : TimerSys Unit Unit Unit := addTo a₅ 1

def a₇ : TimerSys Unit Unit Unit := putBack a₆ 1 100001

theorem adds : Trans.Reachable Init (Step cpu) a₇ := by
  have h5 : Step cpu s₄ (.timeradd () ()) a₅ := .timeradd rfl rfl fun _ => nofun
  have h6 : Step cpu a₅ (.tadd () () 1) a₆ := @Step.tadd _ _ _ _ _ _ cpu a₅ () () () 2 1 _ rfl rfl rfl nofun
  have h7 : Step cpu a₆ (.readd () 1) a₇ := @Step.readd _ _ _ _ _ _ cpu a₆ () () 100001 2 1 _ rfl rfl rfl nofun
  exact ((handling.next h5).next h6).next h7

end One

theorem timers_safe_one : One.s₇.Safe One.cpu := (timers_safe One.cpu One.s₇ One.reachable).1

/-- A periodic timer that its handler deletes comes back, and one that its handler adds fails the assertion. -/
theorem timers_unsafe :
    ¬ (∀ s : TimerSys Unit Unit Unit, Trans.Reachable Init (Step One.cpu) s → s.Safe One.cpu) ∧
    (One.d₆.deleted () = true ∧ (One.d₆.q.timer ()).tt = some ()) ∧ One.a₇.halted = some .assert := by
  refine ⟨?_, ⟨rfl, rfl⟩, rfl⟩
  intro h
  exact (h One.a₇ One.adds).assert rfl

end TimerSys

end Plan9.Port
