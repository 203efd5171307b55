/-
What the functions on the timers do to the lists of the processors.

`Lists` is what the lists are, each sorted and the `tt` of a timer the one that has
it. `tadd` puts a timer that is in none into one, `tdel` and `look` take one out, and
all but the links of the other timers stays as it is.
-/
import Plan9.Port.PortClock

namespace Plan9.Port

open Function List

open Chain (Place)

variable {K M : Type} {c : Cpu} {q q' : Timers K M} {l : M → List K} {t : K} {m : M}
  {turns fastticks now : Nat}

/-- The same but for the link. -/
structure Timer.Like (x y : Timer K M) : Prop where
  tmode : x.tmode = y.tmode
  tns : x.tns = y.tns
  tt : x.tt = y.tt
  twhen : x.twhen = y.twhen

theorem Timer.Like.refl (x : Timer K M) : x.Like x := ⟨rfl, rfl, rfl, rfl⟩

/-- One timer goes into a list or out of one. -/
structure Moved (q : Timers K M) (t : K) (tt : Option M) (q' : Timers K M) : Prop where
  tt : (q'.timer t).tt = tt
  tmode : (q'.timer t).tmode = (q.timer t).tmode
  like : ∀ t', t' ≠ t → (q'.timer t').Like (q.timer t')

structure Lists (c : Cpu) (q : Timers K M) (l : M → List K) : Prop where
  linked : ∀ m, Chain.Linked q.tnext (q.head m) (l m)
  nodup : ∀ m, (l m).Nodup
  sorted : ∀ m, (l m).Pairwise fun a b => c.tval (q.timer a).twhen ≤ c.tval (q.timer b).twhen
  mem : ∀ m t, t ∈ l m ↔ (q.timer t).tt = some m

/-! ## Changing a timer -/

theorem Lists.congr (h : Lists c q l) (hhead : q'.head = q.head) (hnext : ∀ t, q'.tnext t = q.tnext t)
    (htt : ∀ t, (q'.timer t).tt = (q.timer t).tt) (htwhen : ∀ m, ∀ t ∈ l m, (q'.timer t).twhen = (q.timer t).twhen) :
    Lists c q' l := by
  refine ⟨?_, h.nodup, ?_, ?_⟩
  · intro m
    rw [hhead]
    exact (h.linked m).congr fun a _ => hnext a
  · intro m
    refine (h.sorted m).imp_of_mem ?_
    intro a b ha hb hle
    rwa [htwhen m a ha, htwhen m b hb]
  · intro m t
    rw [htt t]
    exact h.mem m t

variable [DecidableEq K]

@[simp] theorem Timers.set_timer (x : Timer K M) : (q.set t x).timer = update q.timer t x := rfl

theorem Timers.set_tnext (x : Timer K M) : (q.set t x).tnext = update q.tnext t x.tnext := by
  funext k
  by_cases hk : k = t
  · subst hk
    simp [Timers.tnext]
  · simp [Timers.tnext, hk]

variable [DecidableEq M]

omit [DecidableEq K] in
theorem Lists.change (h : Lists c q l) {l' : List K} (hlinked : Chain.Linked q'.tnext (q'.head m) l') (hnodup : l'.Nodup)
    (hsorted : l'.Pairwise fun a b => c.tval (q'.timer a).twhen ≤ c.tval (q'.timer b).twhen)
    (hmem : ∀ t, t ∈ l' ↔ (q'.timer t).tt = some m) (hhead : ∀ m', m' ≠ m → q'.head m' = q.head m')
    (hother : ∀ m', m' ≠ m → ∀ t ∈ l m', q'.tnext t = q.tnext t ∧ (q'.timer t).twhen = (q.timer t).twhen)
    (htt : ∀ m' t, m' ≠ m → ((q'.timer t).tt = some m' ↔ (q.timer t).tt = some m')) :
    Lists c q' (update l m l') := by
  refine ⟨?_, ?_, ?_, ?_⟩
  · intro m'
    by_cases hm : m' = m
    · subst hm
      rwa [update_self]
    · rw [update_of_ne hm, hhead m' hm]
      exact (h.linked m').congr fun a ha => (hother m' hm a ha).1
  · intro m'
    by_cases hm : m' = m
    · subst hm
      rwa [update_self]
    · rw [update_of_ne hm]
      exact h.nodup m'
  · intro m'
    by_cases hm : m' = m
    · subst hm
      rwa [update_self]
    rw [update_of_ne hm]
    refine (h.sorted m').imp_of_mem ?_
    intro a b ha hb hle
    rwa [(hother m' hm a ha).2, (hother m' hm b hb).2]
  intro m' t
  by_cases hm : m' = m
  · subst hm
    rw [update_self]
    exact hmem t
  · rw [update_of_ne hm, htt m' t hm]
    exact h.mem m' t

/-! ## Storing through a place -/

theorem Timers.store_like (q : Timers K M) (tt : M) (v : Option K) (last : Place K) (t : K) :
    ((q.store tt v last).timer t).Like (q.timer t) := by
  cases last with
  | first => exact Timer.Like.refl _
  | behind a =>
    by_cases ht : t = a
    · subst ht
      simp only [Timers.store, Timers.set_timer, update_self]
      exact ⟨rfl, rfl, rfl, rfl⟩
    · simp only [Timers.store, Timers.set_timer, update_of_ne ht]
      exact Timer.Like.refl _

theorem Timers.store_tnext (q : Timers K M) (tt : M) (v : Option K) (last : Place K) :
    (q.store tt v last).tnext = Chain.storeNext q.tnext v last := by
  cases last with
  | first => rfl
  | behind a => exact Timers.set_tnext _

theorem Timers.store_head (q : Timers K M) (tt : M) (v : Option K) (last : Place K) :
    (q.store tt v last).head = update q.head tt (Chain.storeHead (q.head tt) v last) := by
  cases last with
  | first => rfl
  | behind a => exact (update_eq_self tt q.head).symm

omit [DecidableEq M] in
theorem Lists.store_tnext_of_ne (h : Lists c q l) {l1 l2 : List K} (hl : l m = l1 ++ l2) {next : K → Option K}
    {v : Option K} {m' : M} (hm : m' ≠ m) (ht : t ∈ l m') : Chain.storeNext next v (.past l1) t = next t := by
  refine Chain.storeNext_of_ne ?_
  intro hpast
  have hmem : t ∈ l m := by
    rw [hl]
    exact mem_append_left _ (Place.mem_of_past hpast)
  have htt := (h.mem m t).1 hmem
  rw [(h.mem m' t).1 ht] at htt
  exact hm (Option.some.inj htt)

/-! ## Putting in -/

theorem Lists.insert (h : Lists c q l) {nt : K} {nt' : Timer K M} {l1 l2 : List K} (hnone : (q.timer nt).tt = none)
    (hl : l m = l1 ++ l2) (hle : ∀ a ∈ l1, c.tval (q.timer a).twhen ≤ c.tval nt'.twhen)
    (hgt : ∀ a l, l2 = a :: l → c.tval nt'.twhen < c.tval (q.timer a).twhen) (htt : nt'.tt = some m)
    (hnext : nt'.tnext = q.deref m (.past l1)) :
    Lists c ((q.set nt nt').store m (some nt) (.past l1)) (update l m (l1 ++ nt :: l2)) := by
  have hlinked : Chain.Linked q.tnext (q.head m) (l1 ++ l2) := hl ▸ h.linked m
  have hnd : (l1 ++ l2).Nodup := hl ▸ h.nodup m
  have hout : ∀ m', nt ∉ l m' := by
    intro m' hmem
    rw [(h.mem m' nt).1 hmem] at hnone
    cases hnone
  have hnt : nt ∉ l1 ++ l2 := hl ▸ hout m
  have hne : ∀ t ∈ l1 ++ l2, t ≠ nt := by
    intro t ht htn
    exact hnt (htn ▸ ht)
  have htwhen : ∀ t, (((q.set nt nt').store m (some nt) (.past l1)).timer t).twhen =
      (update q.timer nt nt' t).twhen := fun t => (Timers.store_like ..).twhen
  have htts : ∀ t, (((q.set nt nt').store m (some nt) (.past l1)).timer t).tt = (update q.timer nt nt' t).tt :=
    fun t => (Timers.store_like ..).tt
  refine h.change ?_ ?_ ?_ ?_ ?_ ?_ ?_
  · rw [Timers.store_tnext, Timers.store_head, update_self, Timers.set_tnext, hnext]
    exact hlinked.insert hnd hnt
  · rw [nodup_middle, nodup_cons]
    exact ⟨hnt, hnd⟩
  · have hsorted := h.sorted m
    rw [hl, pairwise_append] at hsorted
    obtain ⟨hs1, hs2, hs₁₂⟩ := hsorted
    have hgt' : ∀ a ∈ l2, c.tval nt'.twhen ≤ c.tval (q.timer a).twhen := by
      intro a ha
      cases l2 with
      | nil => cases ha
      | cons b l2 =>
        have hb := Int.le_of_lt (hgt b l2 rfl)
        rcases mem_cons.1 ha with rfl | ha
        · exact hb
        · exact Int.le_trans hb ((pairwise_cons.1 hs2).1 a ha)
    have hkeep : ∀ a ∈ l1 ++ l2, (((q.set nt nt').store m (some nt) (.past l1)).timer a).twhen = (q.timer a).twhen := by
      intro a ha
      rw [htwhen, update_of_ne (hne a ha)]
    have hnew : (((q.set nt nt').store m (some nt) (.past l1)).timer nt).twhen = nt'.twhen := by
      rw [htwhen, update_self]
    rw [pairwise_append]
    refine ⟨hs1.imp_of_mem ?_, pairwise_cons.2 ⟨?_, hs2.imp_of_mem ?_⟩, ?_⟩
    · intro a b ha hb hab
      rwa [hkeep a (mem_append_left _ ha), hkeep b (mem_append_left _ hb)]
    · intro a ha
      rw [hnew, hkeep a (mem_append_right _ ha)]
      exact hgt' a ha
    · intro a b ha hb hab
      rwa [hkeep a (mem_append_right _ ha), hkeep b (mem_append_right _ hb)]
    intro a ha b hb
    rw [hkeep a (mem_append_left _ ha)]
    rcases mem_cons.1 hb with rfl | hb
    · rw [hnew]
      exact hle a ha
    · rw [hkeep b (mem_append_right _ hb)]
      exact hs₁₂ a ha b hb
  · intro t
    rw [htts]
    by_cases ht : t = nt
    · subst ht
      rw [update_self, htt]
      simp
    · rw [update_of_ne ht, ← h.mem m t, hl]
      simp [ht]
  · intro m' hm
    rw [Timers.store_head, update_of_ne hm]
    rfl
  · intro m' hm t ht
    have htn : t ≠ nt := by
      intro htn
      exact hout m' (htn ▸ ht)
    refine ⟨?_, ?_⟩
    · rw [Timers.store_tnext, h.store_tnext_of_ne hl hm ht, Timers.set_tnext, update_of_ne htn]
    · rw [htwhen, update_of_ne htn]
  intro m' t hm
  rw [htts]
  by_cases ht : t = nt
  · subst ht
    rw [update_self, htt, hnone]
    simp [Ne.symm hm]
  · rw [update_of_ne ht]

theorem Moved.store {x : Timer K M} {tt : Option M} (v : Option K) (last : Place K)
    (hmode : x.tmode = (q.timer t).tmode) (htt : x.tt = tt) : Moved q t tt ((q.set t x).store m v last) := by
  have hlike := (q.set t x).store_like m v last
  refine ⟨?_, ?_, ?_⟩
  · rw [(hlike t).tt, Timers.set_timer, update_self, htt]
  · rw [(hlike t).tmode, Timers.set_timer, update_self, hmode]
  · intro t' ht
    have ht' := hlike t'
    rwa [Timers.set_timer, update_of_ne ht] at ht'

omit [DecidableEq K] [DecidableEq M] in
/-- What the switch of `tadd` can come to. -/
theorem due_cases {nt : Timer K M} {r : Except Halt (Int × Nat)} (hr : due c turns fastticks q m nt = r)
    (hturns : r ≠ .error .turns) :
    r = .error .panic ∨ r = .error .assert ∧ nt.tmode = Tperiodic ∧ nt.tns < 100000 ∨ ∃ tns twhen, r = .ok (tns, twhen) := by
  subst hr
  unfold due at hturns ⊢
  by_cases hrel : nt.tmode = Trelative
  · rw [if_pos hrel]
    exact .inr (.inr ⟨_, _, rfl⟩)
  rw [if_neg hrel] at hturns ⊢
  by_cases hper : nt.tmode = Tperiodic
  · rw [if_pos hper] at hturns ⊢
    by_cases htns : nt.tns < 100000
    · rw [if_pos htns]
      exact .inr (.inl ⟨rfl, hper, htns⟩)
    rw [if_neg htns] at hturns ⊢
    by_cases hzero : nt.twhen = 0
    · rw [if_pos hzero] at hturns ⊢
      cases hseek : q.seek m (fun t => t.tmode == Tperiodic && t.tns == nt.tns) turns with
      | none => rw [hseek] at hturns; exact absurd rfl hturns
      | some last => exact .inr (.inr ⟨_, _, rfl⟩)
    · rw [if_neg hzero]
      exact .inr (.inr ⟨_, _, rfl⟩)
  · rw [if_neg hper]
    exact .inl rfl

/-- **`tadd`** of a timer that is in no list. -/
theorem Lists.tadd (h : Lists c q l) {nt : K} {r : Except Halt (Timers K M × Nat)} (hnone : (q.timer nt).tt = none)
    (hr : Port.tadd c turns fastticks q m nt = r) (hturns : r ≠ .error .turns) :
    r = .error .panic ∨ r = .error .assert ∧ (q.timer nt).tmode = Tperiodic ∧ (q.timer nt).tns < 100000 ∨
      ∃ q' w l', r = .ok (q', w) ∧ Lists c q' l' ∧ Moved q nt (some m) q' := by
  subst hr
  unfold Port.tadd at hturns ⊢
  rw [if_neg (by rw [hnone]; simp)] at hturns ⊢
  cases hdue : due c turns fastticks q m (q.timer nt) with
  | error e =>
    rw [hdue] at hturns
    rcases due_cases hdue (fun he => hturns (by cases he; rfl)) with he | ⟨he, hbad⟩ | ⟨_, _, he⟩
    · cases he
      exact .inl rfl
    · cases he
      exact .inr (.inl ⟨rfl, hbad⟩)
    · cases he
  | ok x =>
    obtain ⟨_, twhen⟩ := x
    rw [hdue] at hturns
    dsimp only at hturns ⊢
    cases hseek : q.seek m (fun t => decide (c.tval twhen < c.tval t.twhen)) turns with
    | none => rw [hseek] at hturns; exact absurd rfl hturns
    | some last =>
      obtain ⟨_, _, hl, rfl, hbefore, hbehind⟩ := (h.linked m).seek_split hseek
      refine .inr (.inr ⟨_, _, _, rfl, h.insert hnone hl ?_ ?_ rfl rfl, .store _ _ (by rfl) (by rfl)⟩)
      · intro a ha
        exact Int.not_lt.1 (of_decide_eq_false (hbefore a ha))
      · intro a l' hcons
        exact of_decide_eq_true (hbehind a l' hcons)

theorem Lists.tadd_ends (h : Lists c q l) (fastticks : Nat) (m : M) (nt : K) :
    ∃ turns, Port.tadd c turns fastticks q m nt ≠ .error .turns := by
  have hends : ∀ stop, ∃ last, q.seek m stop ((l m).length + 1) = some last :=
    fun stop => (h.linked m).seek_ends (Nat.lt_succ_self _)
  refine ⟨(l m).length + 1, ?_⟩
  have hdue : due c ((l m).length + 1) fastticks q m (q.timer nt) ≠ .error .turns := by
    unfold due
    obtain ⟨last, hlast⟩ := hends fun t => t.tmode == Tperiodic && t.tns == (q.timer nt).tns
    rw [hlast]
    split
    · simp
    split
    · split
      · simp
      · split <;> simp
    · simp
  unfold Port.tadd
  split
  · simp
  cases hd : due c ((l m).length + 1) fastticks q m (q.timer nt) with
  | error e =>
    intro he
    cases he
    exact hdue hd
  | ok x =>
    obtain ⟨_, twhen⟩ := x
    obtain ⟨last, hlast⟩ := hends fun t => decide (c.tval twhen < c.tval t.twhen)
    dsimp only
    rw [hlast]
    simp

/-! ## Taking out -/

theorem Lists.remove (h : Lists c q l) {l1 l2 : List K} (hl : l m = l1 ++ t :: l2) :
    Lists c ((q.set t { q.timer t with tt := none }).store m (q.tnext t) (.past l1)) (update l m (l1 ++ l2)) := by
  have hlinked : Chain.Linked q.tnext (q.head m) (l1 ++ t :: l2) := hl ▸ h.linked m
  have hnd : (l1 ++ t :: l2).Nodup := hl ▸ h.nodup m
  have htt := (h.mem m t).1 (by rw [hl]; simp)
  have hnext : (q.set t { q.timer t with tt := none }).tnext = q.tnext := by
    rw [Timers.set_tnext]
    exact update_eq_self t q.tnext
  have htwhen : ∀ a, (((q.set t { q.timer t with tt := none }).store m (q.tnext t) (.past l1)).timer a).twhen =
      (q.timer a).twhen := by
    intro a
    rw [(Timers.store_like ..).twhen, Timers.set_timer]
    by_cases ha : a = t
    · rw [ha, update_self]
    · rw [update_of_ne ha]
  have htts : ∀ a, (((q.set t { q.timer t with tt := none }).store m (q.tnext t) (.past l1)).timer a).tt =
      if a = t then none else (q.timer a).tt := by
    intro a
    rw [(Timers.store_like ..).tt, Timers.set_timer]
    by_cases ha : a = t
    · rw [ha, update_self, if_pos rfl]
    · rw [update_of_ne ha, if_neg ha]
  have hnd' : t ∉ l1 ++ l2 ∧ (l1 ++ l2).Nodup := by rwa [nodup_middle, nodup_cons] at hnd
  have hsub : (l1 ++ l2).Sublist (l m) := by
    rw [hl]
    exact List.Sublist.append (List.Sublist.refl l1) (sublist_cons_self t l2)
  refine h.change ?_ hnd'.2 ?_ ?_ ?_ ?_ ?_
  · rw [Timers.store_tnext, Timers.store_head, update_self, hnext]
    exact hlinked.remove hnd
  · refine ((h.sorted m).sublist hsub).imp ?_
    intro a b hab
    rwa [htwhen a, htwhen b]
  · intro a
    rw [htts]
    by_cases ha : a = t
    · rw [if_pos ha, ha]
      simp [hnd'.1]
    · rw [if_neg ha, ← h.mem m a, hl]
      simp [ha]
  · intro m' hm
    rw [Timers.store_head, update_of_ne hm]
    rfl
  · intro m' hm a ha
    exact ⟨by rw [Timers.store_tnext, h.store_tnext_of_ne hl hm ha, hnext], htwhen a⟩
  intro m' a hm
  rw [htts]
  by_cases ha : a = t
  · rw [if_pos ha, ha, htt]
    simp [Ne.symm hm]
  · rw [if_neg ha]

/-- **`tdel`** comes to its end, with the timer in no list. -/
theorem Lists.tdel (h : Lists c q l) {r : Except Halt (Timers K M × Nat)} (hr : Port.tdel turns q t = r)
    (hturns : r ≠ .error .turns) : ∃ q' w l', r = .ok (q', w) ∧ Lists c q' l' ∧ Moved q t none q' := by
  subst hr
  unfold Port.tdel at hturns ⊢
  cases htt : (q.timer t).tt with
  | none => exact ⟨q, 0, l, rfl, h, htt, rfl, fun t' _ => Timer.Like.refl _⟩
  | some tt =>
    rw [htt] at hturns
    dsimp only at hturns ⊢
    cases hseek : Chain.seek q.tnext (q.head tt) (· == t) turns .first with
    | none => rw [hseek] at hturns; exact absurd rfl hturns
    | some last =>
      obtain ⟨l1, l2, hl, rfl, hbefore, hbehind⟩ := (h.linked tt).seek_split hseek
      have hderef : q.deref tt (.past l1) = l2.head? := Chain.Linked.deref_past (hl ▸ h.linked tt)
      cases l2 with
      | nil =>
        -- It is in the list, for the list is that of its `tt`.
        have hmem : t ∈ l1 := by
          have hmem := (h.mem tt t).2 htt
          rwa [hl, append_nil] at hmem
        have hnot := hbefore t hmem
        simp at hnot
      | cons a l2 =>
        obtain rfl : a = t := by simpa using hbehind a l2 rfl
        dsimp only
        rw [hderef]
        exact ⟨_, _, _, rfl, h.remove hl, .store _ _ (by rfl) (by rfl)⟩

theorem Lists.tdel_ends (h : Lists c q l) (t : K) : ∃ turns, Port.tdel turns q t ≠ .error .turns := by
  unfold Port.tdel
  cases (q.timer t).tt with
  | none => exact ⟨0, by simp⟩
  | some tt =>
    refine ⟨(l tt).length + 1, ?_⟩
    obtain ⟨last, hlast⟩ : ∃ last, Chain.seek q.tnext (q.head tt) (· == t) ((l tt).length + 1) .first = some last :=
      (h.linked tt).seek_ends (Nat.lt_succ_self _)
    dsimp only
    rw [hlast]
    simp

/-- **`look`**: either the list is left as it is, or its first timer is taken out. -/
theorem Lists.look (h : Lists c q l) {r : Except Halt (Timers K M × Option K)} (hr : Port.look now q m = r) :
    r = .ok (q, none) ∨
      ∃ q' t l', r = .ok (q', some t) ∧ (q.timer t).tt = some m ∧ Lists c q' l' ∧ Moved q t none q' := by
  subst hr
  unfold Port.look
  have hhead := (h.linked m).head
  cases hl : l m with
  | nil =>
    rw [hl] at hhead
    rw [hhead]
    exact .inl rfl
  | cons t l2 =>
    rw [hl] at hhead
    rw [hhead]
    have htt := (h.mem m t).1 (by rw [hl]; simp)
    dsimp only [head?_cons]
    by_cases hnow : now < (q.timer t).twhen
    · rw [if_pos hnow]
      exact .inl rfl
    rw [if_neg hnow, if_neg (fun hne => hne htt)]
    have hmoved : Moved q t none ((q.set t { q.timer t with tt := none }).store m (q.tnext t) .first) :=
      .store _ _ (by rfl) (by rfl)
    have hlists := h.remove (show l m = [] ++ t :: l2 from hl)
    exact .inr ⟨_, t, _, rfl, htt, hlists, hmoved⟩

end Plan9.Port
