/-
What can be taken back: to turn an action in the state that it has led to gives the state
before it, and an action that turned in that state gives both again.

Actions are on two stacks, those done and those undone, and bear stamps. What is undone or
done again at a time is the actions at the top with one stamp (`lead`).
-/
import Mathlib.Data.List.TakeWhile
import Mathlib.Tactic.Ring

variable {σ α : Type}

structure Reversal (σ α : Type) where
  stamp : α → Nat
  turn : α → σ → α × σ
  Fits : α → σ → Prop
  turn_stamp : ∀ a s, stamp (turn a s).1 = stamp a
  turn_fits : ∀ a s, Fits a s → Fits (turn a s).1 (turn a s).2
  turn_turn : ∀ a s, Fits a s → turn (turn a s).1 (turn a s).2 = (a, s)

namespace Reversal

open List

open Function

variable (r : Reversal σ α)

/-- Turns actions from the top on, and puts what they turn into on a stack. -/
def rewind : List α → σ → List α → σ × List α
  | [], s, us => (s, us)
  | a :: as, s, us => rewind as (r.turn a s).2 ((r.turn a s).1 :: us)

/-- They fit one after another. -/
def Along : List α → σ → Prop
  | [], _ => True
  | a :: as, s => r.Fits a s ∧ Along as (r.turn a s).2

variable {r}

theorem rewind_append (as bs : List α) (s : σ) (us : List α) :
    r.rewind (as ++ bs) s us = r.rewind bs (r.rewind as s us).1 (r.rewind as s us).2 := by
  induction as generalizing s us with
  | nil => rfl
  | cons a as ih => exact ih _ _

theorem along_append (as bs : List α) (s : σ) (us : List α) :
    r.Along (as ++ bs) s ↔ r.Along as s ∧ r.Along bs (r.rewind as s us).1 := by
  induction as generalizing s us with
  | nil => exact (and_iff_right trivial).symm
  | cons a as ih => exact (and_congr_right fun _ => ih _ _).trans and_assoc.symm

theorem rewind_stack (as : List α) (s : σ) (us : List α) :
    r.rewind as s us = ((r.rewind as s []).1, (r.rewind as s []).2 ++ us) := by
  induction as generalizing s us with
  | nil => rfl
  | cons a as ih =>
    rw [rewind, rewind, ih, ih _ [_], append_assoc]
    rfl

theorem rewind_stamps (as : List α) (s : σ) : (r.rewind as s []).2.map r.stamp = (as.map r.stamp).reverse := by
  induction as generalizing s with
  | nil => rfl
  | cons a as ih =>
    rw [rewind, rewind_stack, map_append, ih, map_singleton, r.turn_stamp, map_cons, reverse_cons]

theorem along_rewind {as : List α} {s : σ} {us : List α} (h : r.Along as s) (hu : r.Along us s) :
    r.Along (r.rewind as s us).2 (r.rewind as s us).1 := by
  induction as generalizing s us with
  | nil => exact hu
  | cons a as ih =>
    refine ih h.2 ⟨r.turn_fits a s h.1, ?_⟩
    rw [r.turn_turn a s h.1]
    exact hu

/-- **Turned again**, actions are what they were. -/
theorem rewind_rewind {as : List α} {s : σ} (h : r.Along as s) (us : List α) :
    r.rewind (r.rewind as s []).2 (r.rewind as s []).1 us = (s, as ++ us) := by
  induction as generalizing s us with
  | nil => rfl
  | cons a as ih =>
    have hback : r.rewind (r.rewind as (r.turn a s).2 []).2 (r.rewind as (r.turn a s).2 []).1 us = _ := ih h.2 us
    rw [rewind, rewind_stack as, rewind_append, hback, rewind, r.turn_turn a s h.1]
    rfl

/-! ## Two stacks -/

/-- A state, what has been done to come to it, and what has been undone. -/
structure Journal (σ α : Type) where
  now : σ
  done : List α
  undone : List α

namespace Journal

def flip (j : Journal σ α) : Journal σ α := ⟨j.now, j.undone, j.done⟩

variable (r)

/-- The actions at the top that have one stamp are taken back. -/
def undo (j : Journal σ α) : Journal σ α :=
  match j.done with
  | [] => j
  | a :: _ =>
    let (now, undone) := r.rewind (j.done.takeWhile fun b => r.stamp b = r.stamp a) j.now j.undone
    ⟨now, j.done.dropWhile fun b => r.stamp b = r.stamp a, undone⟩

def redo (j : Journal σ α) : Journal σ α := (undo r j.flip).flip

/-- The actions of a group, with others below them. -/
structure Group (k : Nat) (as bs : List α) : Prop where
  ne : as ≠ []
  stamp : ∀ a ∈ as, r.stamp a = k
  below : ∀ b ∈ bs.head?, r.stamp b ≠ k

variable {r} {k : Nat} {as bs us : List α} {s : σ}

theorem undo_group (h : Group r k as bs) :
    undo r ⟨s, as ++ bs, us⟩ = ⟨(r.rewind as s us).1, bs, (r.rewind as s us).2⟩ := by
  obtain ⟨a, as', rfl⟩ := exists_cons_of_ne_nil h.ne
  have hk : r.stamp a = k := h.stamp a mem_cons_self
  have hall : ∀ b ∈ a :: as', decide (r.stamp b = k) = true := fun b hb => decide_eq_true (h.stamp b hb)
  have htop : bs.takeWhile (fun b => r.stamp b = k) = [] ∧ bs.dropWhile (fun b => r.stamp b = k) = bs := by
    cases bs with
    | nil => exact ⟨rfl, rfl⟩
    | cons b bs =>
      have hb := decide_eq_false (h.below b rfl)
      exact ⟨takeWhile_cons_of_neg (Bool.eq_false_iff.1 hb), dropWhile_cons_of_neg (Bool.eq_false_iff.1 hb)⟩
  change (let (now, undone) := r.rewind ((a :: as' ++ bs).takeWhile fun b => r.stamp b = r.stamp a) s us
    (⟨now, (a :: as' ++ bs).dropWhile fun b => r.stamp b = r.stamp a, undone⟩ : Journal σ α)) = _
  rw [hk, takeWhile_append_of_pos hall, dropWhile_append_of_pos hall, htop.1, htop.2, append_nil]

theorem exists_group (h : as ≠ []) : ∃ k g bs, as = g ++ bs ∧ Group r k g bs := by
  obtain ⟨a, as', rfl⟩ := exists_cons_of_ne_nil h
  refine ⟨r.stamp a, (a :: as').takeWhile fun b => r.stamp b = r.stamp a, (a :: as').dropWhile fun b => r.stamp b = r.stamp a,
    takeWhile_append_dropWhile.symm, ?_, ?_, ?_⟩
  · have ha : decide (r.stamp a = r.stamp a) = true := decide_eq_true rfl
    rw [takeWhile_cons, if_pos ha]
    exact cons_ne_nil _ _
  · intro b hb
    exact of_decide_eq_true (mem_takeWhile_imp (p := fun b => decide (r.stamp b = r.stamp a)) hb)
  intro b hb
  have hdrop := head?_dropWhile_not (fun b => decide (r.stamp b = r.stamp a)) (a :: as')
  rw [hb] at hdrop
  exact of_decide_eq_false hdrop

variable (r) in
/-- The older an action is the smaller is its stamp, and what has been undone fits on what is done. -/
structure InOrder (lt : Nat → Nat → Prop) (j : Journal σ α) : Prop where
  done : r.Along j.done j.now
  undone : r.Along j.undone j.now
  falls : (j.done.map r.stamp).Pairwise fun m n => ¬ lt m n
  rises : (j.undone.map r.stamp).Pairwise fun m n => ¬ lt n m
  before : ∀ a ∈ j.done, ∀ b ∈ j.undone, lt (r.stamp a) (r.stamp b)

variable {j : Journal σ α}

theorem stamps_append {R : Nat → Nat → Prop} (h : ((as ++ bs).map r.stamp).Pairwise R) :
    (as.map r.stamp).Pairwise R ∧ (bs.map r.stamp).Pairwise R ∧ ∀ a ∈ as, ∀ b ∈ bs, R (r.stamp a) (r.stamp b) := by
  rw [map_append, pairwise_append] at h
  exact ⟨h.1, h.2.1, fun a ha b hb => h.2.2 _ (mem_map_of_mem ha) _ (mem_map_of_mem hb)⟩

theorem mem_rewind {g : List α} {k : Nat} (hg : ∀ a ∈ g, r.stamp a = k) (s : σ) :
    ∀ a ∈ (r.rewind g s []).2, r.stamp a = k := by
  intro a ha
  have hmem := mem_map_of_mem (f := r.stamp) ha
  rw [rewind_stamps, mem_reverse] at hmem
  obtain ⟨b, hb, he⟩ := mem_map.1 hmem
  rw [← he]
  exact hg b hb

theorem stamps_pairwise {R : Nat → Nat → Prop} (hR : ∀ n, R n n) {g : List α} {k : Nat} (hg : ∀ a ∈ g, r.stamp a = k) :
    (g.map r.stamp).Pairwise R := by
  rw [pairwise_map]
  refine pairwise_of_forall_mem_list fun a ha b hb => ?_
  rw [hg a ha, hg b hb]
  exact hR k

theorem InOrder.flip {lt : Nat → Nat → Prop} (h : InOrder r lt j) : InOrder r (fun m n => lt n m) j.flip :=
  ⟨h.undone, h.done, h.rises, h.falls, fun a ha b hb => h.before b hb a ha⟩

section

variable {lt : Nat → Nat → Prop} [IsStrictTotalOrder Nat lt]

theorem Group.below_lt (hg : Group r k as bs) (h : ((as ++ bs).map r.stamp).Pairwise fun m n => ¬ lt m n) :
    ∀ b ∈ bs, lt (r.stamp b) k := by
  obtain ⟨-, hbs, hcut⟩ := stamps_append h
  obtain ⟨a, ha⟩ := exists_mem_of_ne_nil as hg.ne
  have hle : ∀ b ∈ bs, ¬ lt k (r.stamp b) := fun b hb => hg.stamp a ha ▸ hcut a ha b hb
  cases bs with
  | nil => nofun
  | cons c bs =>
    have hc : lt (r.stamp c) k := by
      rcases trichotomous_of lt (r.stamp c) k with hlt | heq | hgt
      · exact hlt
      · exact absurd heq (hg.below c rfl)
      · exact absurd hgt (hle c mem_cons_self)
    rw [map_cons, pairwise_cons] at hbs
    intro b hb
    rcases mem_cons.1 hb with rfl | hb
    · exact hc
    rcases trichotomous_of lt (r.stamp b) k with hlt | heq | hgt
    · exact hlt
    · exact absurd (heq ▸ hc) (hbs.1 _ (mem_map_of_mem hb))
    · exact absurd hgt (hle b (mem_cons_of_mem _ hb))

theorem InOrder.undo (h : InOrder r lt j) : InOrder r lt (undo r j) := by
  obtain ⟨s, ds, us⟩ := j
  cases ds with
  | nil => exact h
  | cons d ds =>
    obtain ⟨k, g, bs, he, hg⟩ := exists_group (r := r) (cons_ne_nil d ds)
    obtain ⟨hdone, hundone, hfalls, hrises, hbefore⟩ := h
    rw [he] at hdone hfalls hbefore ⊢
    have hbs := (stamps_append hfalls).2.1
    have hbelow := hg.below_lt hfalls
    have halong := (along_append g bs s us).1 hdone
    have hk := mem_rewind hg.stamp s
    obtain ⟨c, hc⟩ := exists_mem_of_ne_nil g hg.ne
    have hover : ∀ b ∈ us, lt k (r.stamp b) := fun b hb => hg.stamp c hc ▸ hbefore c (mem_append_left _ hc) b hb
    have hstack : (r.rewind g s us).2 = (r.rewind g s []).2 ++ us := by rw [rewind_stack]
    rw [undo_group hg]
    refine ⟨halong.2, along_rewind halong.1 hundone, hbs, ?_, ?_⟩
    · rw [hstack, map_append, pairwise_append]
      refine ⟨stamps_pairwise (fun n => irrefl_of lt n) hk, hrises, ?_⟩
      intro m hm n hn
      obtain ⟨a, ha, rfl⟩ := mem_map.1 hm
      obtain ⟨b, hb, rfl⟩ := mem_map.1 hn
      rw [hk a ha]
      exact asymm_of lt (hover b hb)
    intro b hb a ha
    rw [hstack] at ha
    rcases mem_append.1 ha with ha | ha
    · rw [hk a ha]
      exact hbelow b hb
    · exact hbefore b (mem_append_right _ hb) a ha

theorem InOrder.redo (h : InOrder r lt j) : InOrder r lt (redo r j) := by
  have hflip : InOrder r (fun m n => lt n m) j.flip := h.flip
  exact hflip.undo.flip

theorem Group.rewind (hg : Group r k as bs) (hover : ∀ b ∈ us.head?, r.stamp b ≠ k) :
    Group r k (r.rewind as s []).2 us := by
  refine ⟨fun h => hg.ne ?_, mem_rewind hg.stamp s, hover⟩
  have hlen := congrArg length (rewind_stamps (r := r) as s)
  rw [h] at hlen
  rw [length_map, length_reverse, length_map] at hlen
  exact eq_nil_of_length_eq_zero hlen.symm

/-- **What is undone and done again** is as if nothing were. -/
theorem redo_undo (h : InOrder r lt j) (hne : j.done ≠ []) : redo r (Journal.undo r j) = j := by
  obtain ⟨s, _, us⟩ := j
  obtain ⟨k, g, bs, he, hg⟩ := exists_group (r := r) hne
  obtain ⟨hdone, -, -, -, hbefore⟩ := h
  subst he
  obtain ⟨c, hc⟩ := exists_mem_of_ne_nil g hg.ne
  have hover : ∀ b ∈ us.head?, r.stamp b ≠ k := by
    intro b hb heq
    have := hbefore c (mem_append_left _ hc) b (mem_of_mem_head? hb)
    rw [hg.stamp c hc, heq] at this
    exact irrefl_of lt k this
  have halong := (along_append g bs s us).1 hdone
  have hgroup : Group r k (r.rewind g s []).2 us := hg.rewind hover
  rw [undo_group hg, rewind_stack]
  change (Journal.undo r ⟨_, _ ++ us, bs⟩).flip = _
  rw [undo_group hgroup, rewind_rewind halong.1]
  rfl

/-- As many groups as have been undone can be done again. -/
theorem redo_iterate (h : InOrder r lt j) {n i : Nat} (hne : ∀ m < n, ((Journal.undo r)^[m] j).done ≠ []) (hi : i ≤ n) :
    (Journal.redo r)^[i] ((Journal.undo r)^[n] j) = (Journal.undo r)^[n - i] j := by
  induction i with
  | zero => rfl
  | succ i ih =>
    have hsub : n - i = (n - (i + 1)) + 1 := by omega
    have horder : InOrder r lt ((Journal.undo r)^[n - (i + 1)] j) :=
      Function.Iterate.rec (InOrder r lt) h (fun _ h => h.undo) _
    rw [iterate_succ_apply', ih (Nat.le_of_succ_le hi), hsub, iterate_succ_apply']
    exact redo_undo horder (hne _ (by omega))

end

/-! ## A group more -/

/-- The state and what has been done to come to it. -/
def base (j : Journal σ α) : σ × List α := (j.now, j.done)

theorem base_undo {j' : Journal σ α} (h : j.base = j'.base) : (Journal.undo r j).base = (Journal.undo r j').base := by
  obtain ⟨s, ds, _⟩ := j
  obtain ⟨_, _, us'⟩ := j'
  cases h
  cases ds with
  | nil => rfl
  | cons d ds =>
    obtain ⟨k, g, _, he, hg⟩ := exists_group (r := r) (cons_ne_nil d ds)
    rw [he, undo_group hg, undo_group hg, rewind_stack, rewind_stack g s us']
    rfl

theorem base_iterate {j' : Journal σ α} (h : j.base = j'.base) (n : Nat) :
    ((Journal.undo r)^[n] j).base = ((Journal.undo r)^[n] j').base := by
  induction n with
  | zero => exact h
  | succ n ih =>
    rw [iterate_succ_apply', iterate_succ_apply']
    exact base_undo ih

variable (r) in
/-- A group of actions with a stamp larger than any that is done, which lead to `s` from where one is; nothing is left
to be done again. -/
structure Added (k : Nat) (j j' : Journal σ α) : Prop where
  group : ∃ g s, g ≠ [] ∧ (∀ a ∈ g, r.stamp a = k) ∧ r.Along g s ∧ (r.rewind g s []).1 = j.now ∧ j' = ⟨s, g ++ j.done, []⟩
  larger : ∀ a ∈ j.done, r.stamp a < k

variable {j' : Journal σ α}

theorem Added.inOrder (h : Added r k j j') (hj : InOrder r (· < ·) j) : InOrder r (· < ·) j' := by
  obtain ⟨⟨g, s, -, hstamp, halong, hback, rfl⟩, hlarger⟩ := h
  refine ⟨(along_append g j.done s []).2 ⟨halong, hback ▸ hj.done⟩, trivial, ?_, .nil, fun _ _ _ => nofun⟩
  rw [map_append, pairwise_append]
  refine ⟨stamps_pairwise Nat.lt_irrefl hstamp, hj.falls, ?_⟩
  intro m hm n hn
  obtain ⟨a, ha, rfl⟩ := mem_map.1 hm
  obtain ⟨b, hb, rfl⟩ := mem_map.1 hn
  rw [hstamp a ha]
  exact Nat.lt_asymm (hlarger b hb)

/-- **The group is taken back** by the next undo. -/
theorem Added.undo (h : Added r k j j') : (Journal.undo r j').base = j.base := by
  obtain ⟨⟨g, s, hne, hstamp, -, hback, rfl⟩, hlarger⟩ := h
  have hg : Group r k g j.done :=
    ⟨hne, hstamp, fun b hb => Nat.ne_of_lt (hlarger b (mem_of_mem_head? hb))⟩
  rw [undo_group hg, rewind_stack]
  exact Prod.ext hback rfl

theorem Added.done_ne (h : Added r k j j') : j'.done ≠ [] := by
  obtain ⟨⟨g, s, hne, -, -, -, rfl⟩, -⟩ := h
  exact fun he => hne (append_eq_nil_iff.1 he).1

variable (r) in
/-- `j'` has `n` groups more than `j`. -/
structure Over (n : Nat) (j j' : Journal σ α) : Prop where
  back : ((Journal.undo r)^[n] j').base = j.base
  ne : ∀ i < n, ((Journal.undo r)^[i] j').done ≠ []

theorem Over.zero (j : Journal σ α) : Over r 0 j j := ⟨rfl, nofun⟩

theorem Over.succ {n : Nat} {j'' : Journal σ α} (h : Over r n j j') (ha : Added r k j' j'') : Over r (n + 1) j j'' := by
  refine ⟨?_, fun i hi => ?_⟩
  · rw [iterate_succ_apply, base_iterate ha.undo]
    exact h.back
  cases i with
  | zero => exact ha.done_ne
  | succ i =>
    have hbase := congrArg Prod.snd (base_iterate (r := r) ha.undo i)
    exact fun he => h.ne i (Nat.lt_of_succ_lt_succ hi) (hbase.symm.trans he)

theorem Over.trans {n n' : Nat} {j'' : Journal σ α} (h : Over r n j j') (h' : Over r n' j' j'') : Over r (n + n') j j'' := by
  refine ⟨?_, fun i hi => ?_⟩
  · rw [iterate_add_apply, base_iterate h'.back]
    exact h.back
  by_cases hlt : i < n'
  · exact h'.ne i hlt
  obtain ⟨m, rfl⟩ : ∃ m, i = m + n' := ⟨i - n', by omega⟩
  rw [iterate_add_apply]
  have hbase := congrArg Prod.snd (base_iterate (r := r) h'.back m)
  exact fun he => h.ne m (by omega) (hbase.symm.trans he)

end Journal

end Reversal
