/-
The tree in memory is the tree: each operation of `Heap` does to the links what
the operation of the same name does to a `Tree`.

`Rep h tp t` is what it is for `t` to hang at a place: kids, parents and balances
as stored. An operation at a place touches only that place and the nodes of the
tree there (`Frame`), so what hangs elsewhere still hangs there.
-/
import Plan9.Libavl.Avl
import Plan9.Libavl.TreeFacts

namespace Plan9.Libavl

open Tree

variable {A : Type}

variable {l r : Tree A} {a : A} {b : Int}

theorem Tree.nodup_node : (node l a b r).toList.Nodup ↔
    l.toList.Nodup ∧ r.toList.Nodup ∧ a ∉ l.toList ∧ a ∉ r.toList ∧ ∀ x ∈ l.toList, x ∉ r.toList := by
  rw [toList, List.nodup_append, List.nodup_cons]
  constructor
  · rintro ⟨hl, ⟨har, hr⟩, hlr⟩
    refine ⟨hl, hr, fun hal => hlr a hal a (by simp) rfl, har, fun x hx hxr => hlr x hx x (by simp [hxr]) rfl⟩
  rintro ⟨hl, hr, hal, har, hlr⟩
  refine ⟨hl, ⟨har, hr⟩, ?_⟩
  rintro x hx y hy rfl
  rcases List.mem_cons.1 hy with rfl | hy
  · exact hal hx
  · exact hlr x hx hy

namespace Heap

/-! ## Reading after writing -/

attribute [grind] Place.owner

section

variable [DecidableEq A]

@[simp, grind =] theorem load_store (h : Heap A) (tp x : Place A) (v : Option A) :
    (h.store tp v).load x = if x = tp then v else h.load x := by
  simp [store, Function.update_apply]

@[simp, grind =] theorem p_store (h : Heap A) (tp : Place A) (v : Option A) (x : A) : (h.store tp v).p x = h.p x := rfl

@[simp, grind =] theorem bal_store (h : Heap A) (tp : Place A) (v : Option A) (x : A) : (h.store tp v).bal x = h.bal x := rfl

@[simp, grind =] theorem load_setP (h : Heap A) (a : A) (p : Option A) (x : Place A) : (h.setP a p).load x = h.load x := rfl

@[simp, grind =] theorem p_setP (h : Heap A) (a x : A) (p : Option A) : (h.setP a p).p x = if x = a then p else h.p x := by
  simp [setP, Function.update_apply]

@[simp, grind =] theorem bal_setP (h : Heap A) (a : A) (p : Option A) (x : A) : (h.setP a p).bal x = h.bal x := rfl

@[simp, grind =] theorem load_setBal (h : Heap A) (a : A) (b : Int) (x : Place A) : (h.setBal a b).load x = h.load x := rfl

@[simp, grind =] theorem p_setBal (h : Heap A) (a : A) (b : Int) (x : A) : (h.setBal a b).p x = h.p x := rfl

@[simp, grind =] theorem bal_setBal (h : Heap A) (a x : A) (b : Int) : (h.setBal a b).bal x = if x = a then b else h.bal x := by
  simp [setBal, Function.update_apply]

@[simp, grind =] theorem load_link (h : Heap A) (tp x : Place A) (v p : Option A) :
    (h.link tp v p).load x = if x = tp then v else h.load x := by
  cases v <;> simp [link]

@[simp, grind =] theorem p_link (h : Heap A) (tp : Place A) (v p : Option A) (x : A) :
    (h.link tp v p).p x = if v = some x then p else h.p x := by
  cases v with
  | none => simp [link]
  | some y => simp [link, eq_comm]

@[simp, grind =] theorem bal_link (h : Heap A) (tp : Place A) (v p : Option A) (x : A) : (h.link tp v p).bal x = h.bal x := by
  cases v <;> rfl

@[simp, grind =] theorem load_adopt (h : Heap A) (r : A) (i : Bool) (x : Place A) : (h.adopt r i).load x = h.load x := by
  rw [adopt]
  split <;> rfl

@[simp, grind =] theorem p_adopt (h : Heap A) (r : A) (i : Bool) (x : A) :
    (h.adopt r i).p x = if h.load (.n r i) = some x then some r else h.p x := by
  rw [adopt]
  cases h.load (.n r i) with
  | none => simp
  | some y => simp [eq_comm]

@[simp, grind =] theorem bal_adopt (h : Heap A) (r : A) (i : Bool) (x : A) : (h.adopt r i).bal x = h.bal x := by
  rw [adopt]
  split <;> rfl

end

/-! ## What hangs at a place -/

def Rep (h : Heap A) : Place A → Tree A → Prop
  | tp, .nil => h.load tp = none
  | tp, .node l a b r =>
    h.load tp = some a ∧ h.p a = tp.owner ∧ h.bal a = b ∧ Rep h (.n a false) l ∧ Rep h (.n a true) r

variable {h h' : Heap A} {tp tp' : Place A} {t t' : Tree A}

theorem Rep.load (H : Rep h tp t) : h.load tp = t.root := by
  cases t with
  | nil => exact H
  | node l a b r => exact H.1

theorem Rep.same : ∀ {t : Tree A} {tp : Place A}, Rep h tp t → h'.load tp = h.load tp →
    (∀ a ∈ t.toList, h'.p a = h.p a ∧ h'.bal a = h.bal a ∧ ∀ i, h'.load (.n a i) = h.load (.n a i)) → Rep h' tp t := by
  intro t
  induction t with
  | nil =>
    intro tp H hl _
    exact hl.trans H
  | node l a b r ihl ihr =>
    rintro tp ⟨hload, hp, hb, hl, hr⟩ hl' hin
    obtain ⟨hpa, hba, hna⟩ := hin a (by simp)
    refine ⟨hl'.trans hload, hpa.trans hp, hba.trans hb, ?_, ?_⟩
    · exact ihl hl (hna false) (fun x hx => hin x (by simp [hx]))
    · exact ihr hr (hna true) (fun x hx => hin x (by simp [hx]))

/-- What hangs at one place hangs at another when the pointer is copied and its node's parent set. -/
theorem Rep.move (H : Rep h tp t) (hl : h'.load tp' = h.load tp)
    (hroot : ∀ a, t.root = some a → h'.p a = tp'.owner)
    (hin : ∀ a ∈ t.toList, (t.root ≠ some a → h'.p a = h.p a) ∧ h'.bal a = h.bal a ∧
      ∀ i, h'.load (.n a i) = h.load (.n a i)) (hn : t.toList.Nodup) : Rep h' tp' t := by
  cases t with
  | nil => exact hl.trans H
  | node l a b r =>
    obtain ⟨hload, -, hb, hleft, hright⟩ := H
    obtain ⟨-, hba, hna⟩ := hin a (by simp)
    have hne : ∀ x, x ∈ l.toList ∨ x ∈ r.toList → (node l a b r).root ≠ some x := by
      rintro x hx hroot
      cases hroot
      obtain ⟨-, -, hal, har, -⟩ := nodup_node.1 hn
      exact hx.elim hal har
    refine ⟨hl.trans hload, hroot a rfl, hba.trans hb, ?_, ?_⟩
    · refine hleft.same (hna false) (fun x hx => ?_)
      obtain ⟨hpx, hbx, hnx⟩ := hin x (by simp [hx])
      exact ⟨hpx (hne x (Or.inl hx)), hbx, hnx⟩
    · refine hright.same (hna true) (fun x hx => ?_)
      obtain ⟨hpx, hbx, hnx⟩ := hin x (by simp [hx])
      exact ⟨hpx (hne x (Or.inr hx)), hbx, hnx⟩

/-- Only the place and the nodes of `S` are touched. -/
structure Frame (h h' : Heap A) (tp : Place A) (S : List A) : Prop where
  load : ∀ x, x ≠ tp → (∀ a ∈ S, x.owner ≠ some a) → h'.load x = h.load x
  p : ∀ a, a ∉ S → h'.p a = h.p a
  bal : ∀ a, a ∉ S → h'.bal a = h.bal a

theorem Frame.refl (h : Heap A) (tp : Place A) (S : List A) : Frame h h tp S :=
  ⟨fun _ _ _ => rfl, fun _ _ => rfl, fun _ _ => rfl⟩

theorem Frame.trans {h'' : Heap A} {S : List A} (H : Frame h h' tp S) (H' : Frame h' h'' tp S) :
    Frame h h'' tp S :=
  ⟨fun x hx hS => (H'.load x hx hS).trans (H.load x hx hS), fun a ha => (H'.p a ha).trans (H.p a ha),
    fun a ha => (H'.bal a ha).trans (H.bal a ha)⟩

theorem Frame.lift {S S' : List A} (H : Frame h h' tp' S') (hsub : ∀ a ∈ S', a ∈ S)
    (htp : tp' = tp ∨ ∃ a ∈ S, tp'.owner = some a) : Frame h h' tp S := by
  refine ⟨fun x hx hS => H.load x ?_ (fun a ha => hS a (hsub a ha)), fun a ha => H.p a (fun h => ha (hsub a h)),
    fun a ha => H.bal a (fun h => ha (hsub a h))⟩
  rintro rfl
  rcases htp with rfl | ⟨a, ha, ho⟩
  · exact hx rfl
  · exact hS a ha ho

theorem Frame.rep {S : List A} (H : Frame h h' tp S) (R : Rep h tp' t)
    (htp : tp' ≠ tp) (howner : ∀ a ∈ S, tp'.owner ≠ some a) (hS : ∀ a ∈ t.toList, a ∉ S) (hout : ∀ a ∈ t.toList, tp.owner ≠ some a) :
    Rep h' tp' t := by
  refine R.same (H.load tp' htp howner) (fun a ha => ⟨H.p a (hS a ha), H.bal a (hS a ha), fun i => ?_⟩)
  refine H.load (.n a i) ?_ ?_
  · rintro rfl
    exact hout a ha rfl
  · rintro b hb hab
    cases hab
    exact hS a ha hb

/-- `t` hangs at `tp`, which is not in one of its nodes. -/
structure Hangs (h : Heap A) (tp : Place A) (t : Tree A) : Prop where
  rep : Rep h tp t
  nodup : t.toList.Nodup
  out : ∀ a ∈ t.toList, tp.owner ≠ some a

theorem Hangs.left (H : Hangs h tp (node l a b r)) :
    Hangs h (.n a false) l := by
  obtain ⟨⟨-, -, -, hl, -⟩, hn, -⟩ := H
  obtain ⟨hnl, -, hal, -, -⟩ := nodup_node.1 hn
  refine ⟨hl, hnl, ?_⟩
  rintro x hx ⟨⟩
  exact hal hx

theorem Hangs.right (H : Hangs h tp (node l a b r)) :
    Hangs h (.n a true) r := by
  obtain ⟨⟨-, -, -, -, hr⟩, hn, -⟩ := H
  obtain ⟨-, hnr, -, har, -⟩ := nodup_node.1 hn
  refine ⟨hr, hnr, ?_⟩
  rintro x hx ⟨⟩
  exact har hx

theorem Hangs.setLeft {l' : Tree A} {S : List A}
    (H : Hangs h tp (node l a b r)) (R : Rep h' (.n a false) l') (F : Frame h h' (.n a false) S)
    (hS : ∀ x ∈ S, x ≠ a ∧ x ∉ r.toList ∧ tp.owner ≠ some x) : Rep h' tp (node l' a b r) := by
  obtain ⟨⟨hload, hp, hb, -, hr⟩, hn, hout⟩ := H
  obtain ⟨-, -, -, har, -⟩ := nodup_node.1 hn
  have haS : a ∉ S := fun ha => (hS a ha).1 rfl
  refine ⟨(F.load tp ?_ (fun x hx => (hS x hx).2.2)).trans hload, (F.p a haS).trans hp, (F.bal a haS).trans hb, R, ?_⟩
  · rintro rfl
    exact hout a (by simp) rfl
  refine F.rep hr (by simp) ?_ (fun x hx hxS => (hS x hxS).2.1 hx) ?_
  · rintro x hx ⟨⟩
    exact haS hx
  · rintro x hx ⟨⟩
    exact har hx

theorem Hangs.setRight {r' : Tree A} {S : List A}
    (H : Hangs h tp (node l a b r)) (R : Rep h' (.n a true) r') (F : Frame h h' (.n a true) S)
    (hS : ∀ x ∈ S, x ≠ a ∧ x ∉ l.toList ∧ tp.owner ≠ some x) : Rep h' tp (node l a b r') := by
  obtain ⟨⟨hload, hp, hb, hl, -⟩, hn, hout⟩ := H
  obtain ⟨-, -, hal, -, -⟩ := nodup_node.1 hn
  have haS : a ∉ S := fun ha => (hS a ha).1 rfl
  refine ⟨(F.load tp ?_ (fun x hx => (hS x hx).2.2)).trans hload, (F.p a haS).trans hp, (F.bal a haS).trans hb, ?_, R⟩
  · rintro rfl
    exact hout a (by simp) rfl
  refine F.rep hl (by simp) ?_ (fun x hx hxS => (hS x hxS).2.1 hx) ?_
  · rintro x hx ⟨⟩
    exact haS hx
  · rintro x hx ⟨⟩
    exact hal hx

theorem Hangs.apart (H : Hangs h tp (node l a b r)) :
    (∀ x ∈ l.toList, x ≠ a ∧ x ∉ r.toList ∧ tp.owner ≠ some x) ∧ ∀ x ∈ r.toList, x ≠ a ∧ x ∉ l.toList ∧ tp.owner ≠ some x := by
  obtain ⟨-, -, hal, har, hlr⟩ := nodup_node.1 H.nodup
  refine ⟨fun x hx => ⟨?_, hlr x hx, H.out x (by simp [hx])⟩, fun x hx => ⟨?_, fun hxl => hlr x hxl hx, H.out x (by simp [hx])⟩⟩
  · rintro rfl
    exact hal hx
  · rintro rfl
    exact har hx

theorem root_mem (h : t.root = some a) : a ∈ t.toList := by
  cases t with
  | nil => cases h
  | node l c b r => cases h; simp

/-! ## Rotations -/

variable [DecidableEq A]

theorem Rep.setBal {b' : Int} (H : Rep h tp (node l a b r))
    (hn : (node l a b r).toList.Nodup) : Rep (h.setBal a b') tp (node l a b' r) := by
  obtain ⟨hload, hp, _, hl, hr⟩ := H
  obtain ⟨-, -, _, _, -⟩ := nodup_node.1 hn
  refine ⟨hload, hp, by simp, hl.same rfl ?_, hr.same rfl ?_⟩
  · grind
  · grind

theorem Frame.setBal {S : List A} (b : Int) (H : Frame h h' tp S) (ha : a ∈ S) :
    Frame h (h'.setBal a b) tp S := by
  refine ⟨H.load, H.p, fun x hx => ?_⟩
  rw [bal_setBal, if_neg (by grind)]
  exact H.bal x hx

theorem singleleft_refines (H : Hangs h tp t) (ht : Tree.singleleft t = some t') :
    ∃ h', h.singleleft tp tp.owner = some h' ∧ Rep h' tp t' ∧ Frame h h' tp t.toList := by
  cases t with
  | nil => cases ht
  | node x a ba r =>
    cases r with
    | nil => cases ht
    | node y c r2 z =>
      cases ht
      obtain ⟨⟨hload, _, _, hx, hload', _, _, hy, hz⟩, hn, hout⟩ := H
      obtain ⟨_, hnr, _, har, hxr⟩ := nodup_node.1 hn
      obtain ⟨hny, _, _, _, _⟩ := nodup_node.1 hnr
      simp only [mem_node] at hout har hxr
      have hyl := hy.load
      have hroot : ∀ u, y.root = some u → u ∈ y.toList := fun u hu => root_mem hu
      rw [singleleft]
      simp only [hload, hload', hyl]
      refine ⟨_, rfl, ⟨by grind, by grind, by grind, ⟨by grind, by grind, by grind, ?_, ?_⟩, ?_⟩, ?_, ?_, ?_⟩
      · refine hx.same (by grind) (fun u hu => ⟨by grind, by grind, fun i => by grind⟩)
      · refine hy.move (by grind) (by grind) (fun u hu => ⟨by grind, by grind, fun i => by grind⟩) hny
      · refine hz.same (by grind) (fun u hu => ⟨by grind, by grind, fun i => by grind⟩)
      · intro u hu hS
        have ha := hS a (by simp)
        have hc := hS c (by simp)
        grind
      · intro u hu
        simp only [mem_node] at hu
        grind
      · intro u hu
        simp only [mem_node] at hu
        grind

theorem singleright_refines (H : Hangs h tp t) (ht : Tree.singleright t = some t') :
    ∃ h', h.singleright tp tp.owner = some h' ∧ Rep h' tp t' ∧ Frame h h' tp t.toList := by
  cases t with
  | nil => cases ht
  | node l a ba z =>
    cases l with
    | nil => cases ht
    | node x c bc y =>
      cases ht
      obtain ⟨⟨hload, _, _, ⟨hload', _, _, hx, hy⟩, hz⟩, hn, hout⟩ := H
      obtain ⟨hnl, _, hal, _, hlz⟩ := nodup_node.1 hn
      obtain ⟨_, hny, _, _, _⟩ := nodup_node.1 hnl
      simp only [mem_node] at hout hal hlz
      have hyl := hy.load
      have hroot : ∀ u, y.root = some u → u ∈ y.toList := fun u hu => root_mem hu
      rw [singleright]
      simp only [hload, hload', hyl]
      refine ⟨_, rfl, ⟨by grind, by grind, by grind, ?_, ⟨by grind, by grind, by grind, ?_, ?_⟩⟩, ?_, ?_, ?_⟩
      · refine hx.same (by grind) (fun u hu => ⟨by grind, by grind, fun i => by grind⟩)
      · refine hy.move (by grind) (by grind) (fun u hu => ⟨by grind, by grind, fun i => by grind⟩) hny
      · refine hz.same (by grind) (fun u hu => ⟨by grind, by grind, fun i => by grind⟩)
      · intro u hu hS
        have ha := hS a (by simp)
        have hc := hS c (by simp)
        grind
      · intro u hu
        simp only [mem_node] at hu
        grind
      · intro u hu
        simp only [mem_node] at hu
        grind

theorem doublerightleft_refines (H : Hangs h tp t)
    (ht : Tree.doublerightleft t = some t') :
    ∃ h', h.doublerightleft tp tp.owner = some h' ∧ Rep h' tp t' ∧ Frame h h' tp t.toList := by
  cases t with
  | nil => cases ht
  | node l a b r =>
    rw [Tree.doublerightleft] at ht
    cases hr : Tree.singleright r with
    | none => rw [hr] at ht; cases ht
    | some r' =>
      rw [hr] at ht
      obtain ⟨h1, h₁eq, R1, F1⟩ := singleright_refines H.right hr
      have hlist : (node l a b r').toList = (node l a b r).toList := by rw [toList, toList, toList_singleright hr]
      have H1 : Hangs h1 tp (node l a b r') :=
        ⟨H.setRight R1 F1 H.apart.2, by rw [hlist]; exact H.nodup, by rw [hlist]; exact H.out⟩
      obtain ⟨h2, h₂eq, R2, F2⟩ := singleleft_refines H1 ht
      rw [hlist] at F2
      refine ⟨h2, ?_, R2, (F1.lift (fun x hx => by simp [hx]) (Or.inr ⟨a, by simp, rfl⟩)).trans F2⟩
      rw [doublerightleft, H.rep.1]
      simp only [show singleright (.n a true) (some a) h = some h1 from h₁eq]
      exact h₂eq

theorem doubleleftright_refines (H : Hangs h tp t)
    (ht : Tree.doubleleftright t = some t') :
    ∃ h', h.doubleleftright tp tp.owner = some h' ∧ Rep h' tp t' ∧ Frame h h' tp t.toList := by
  cases t with
  | nil => cases ht
  | node l a b r =>
    rw [Tree.doubleleftright] at ht
    cases hl : Tree.singleleft l with
    | none => rw [hl] at ht; cases ht
    | some l' =>
      rw [hl] at ht
      obtain ⟨h1, h₁eq, R1, F1⟩ := singleleft_refines H.left hl
      have hlist : (node l' a b r).toList = (node l a b r).toList := by rw [toList, toList, toList_singleleft hl]
      have H1 : Hangs h1 tp (node l' a b r) :=
        ⟨H.setLeft R1 F1 H.apart.1, by rw [hlist]; exact H.nodup, by rw [hlist]; exact H.out⟩
      obtain ⟨h2, h₂eq, R2, F2⟩ := singleright_refines H1 ht
      rw [hlist] at F2
      refine ⟨h2, ?_, R2, (F1.lift (fun x hx => by simp [hx]) (Or.inr ⟨a, by simp, rfl⟩)).trans F2⟩
      rw [doubleleftright, H.rep.1]
      simp only [show singleleft (.n a false) (some a) h = some h1 from h₁eq]
      exact h₂eq

omit [DecidableEq A] in
theorem Rep.bal_root (H : Rep h tp t) (ht : t.root = some a) :
    h.bal a = t.bal := by
  cases t with
  | nil => cases ht
  | node l c b r => cases ht; exact H.2.2.1

theorem balance_refines (H : Hangs h tp t) (ht : Tree.balance t = some t') :
    ∃ h', h.balance tp tp.owner = some h' ∧ Rep h' tp t' ∧ Frame h h' tp t.toList := by
  cases t with
  | nil => cases ht
  | node l a b r =>
    obtain ⟨hload, -, hb, hl, hr⟩ := id H.rep
    rw [Tree.balance] at ht
    rw [balance, hload]
    simp only [hb]
    by_cases h2 : b = -2
    · rw [if_pos h2] at ht ⊢
      cases hroot : l.root with
      | none =>
        cases l with
        | nil => simp [Tree.bal, Tree.singleright] at ht
        | node x c bc y => cases hroot
      | some c =>
        rw [hl.load, hroot]
        simp only [hl.bal_root hroot]
        by_cases h0 : l.bal ≤ 0
        · rw [if_pos h0] at ht ⊢
          exact singleright_refines H ht
        rw [if_neg h0] at ht ⊢
        by_cases h1 : l.bal = 1
        · rw [if_pos h1] at ht ⊢
          exact doubleleftright_refines H ht
        · rw [if_neg h1] at ht
          cases ht
    rw [if_neg h2] at ht ⊢
    by_cases h2' : b = 2
    · rw [if_pos h2'] at ht ⊢
      cases hroot : r.root with
      | none =>
        cases r with
        | nil => simp [Tree.bal, Tree.singleleft] at ht
        | node x c bc y => cases hroot
      | some c =>
        rw [hr.load, hroot]
        simp only [hr.bal_root hroot]
        by_cases h0 : r.bal ≥ 0
        · rw [if_pos h0] at ht ⊢
          exact singleleft_refines H ht
        rw [if_neg h0] at ht ⊢
        by_cases h1 : r.bal = -1
        · rw [if_pos h1] at ht ⊢
          exact doublerightleft_refines H ht
        · rw [if_neg h1] at ht
          cases ht
    · rw [if_neg h2'] at ht ⊢
      cases ht
      exact ⟨h, rfl, H.rep, Frame.refl h tp _⟩

omit [DecidableEq A] in
theorem Rep.balAt (H : Rep h tp t) (ht : t ≠ nil) : h.balAt tp = some t.bal := by
  cases t with
  | nil => exact absurd rfl ht
  | node l a b r => simp [Heap.balAt, H.1, H.2.2.1, Tree.bal]

variable {h1 : Heap A}

theorem rebalance {b' : Int} {S S' : List A}
    (F : Frame h h1 tp' S') (H : Hangs h1 tp (node l a b r)) (hS : ∀ x ∈ (node l a b r).toList, x ∈ S)
    (hS' : ∀ x ∈ S', x ∈ S) (htp' : tp'.owner = some a) (ht : Tree.balance (node l a b' r) = some t') :
    ∃ h2, (h1.setBal a b').balance tp tp.owner = some h2 ∧ h2.balAt tp = some t'.bal ∧ Rep h2 tp t' ∧ Frame h h2 tp S := by
  obtain ⟨h2, heq, R, F2⟩ :=
    @balance_refines A (h1.setBal a b') tp (node l a b' r) t' _ ⟨H.rep.setBal H.nodup, H.nodup, H.out⟩ ht
  have hne : t' ≠ nil := by
    rintro rfl
    have hlist := toList_balance ht
    simp [toList] at hlist
  have haS : a ∈ S := hS a (by simp)
  refine ⟨h2, heq, R.balAt hne, R, ?_⟩
  exact ((F.lift hS' (Or.inr ⟨a, haS, htp'⟩)).setBal b' haS).trans (F2.lift hS (Or.inl rfl))

/-! ## Insertion -/

section

variable {K : Type} [LinearOrder K] {key : A → K} {cmp : A → A → Int}

variable {p : Option A} {h2 : Heap A} {fuel : Nat} {d : Int}

omit [LinearOrder K] in
theorem insertavl_descend {r : A} {old : Option A} {i ob : Int}
    (hload : h.load tp = some a) (hbal : h.bal a = ob) (hbal1 : h1.bal a = ob) (hc : canoncmp (cmp r a) = i) (hi : i ≠ 0)
    (h₁eq : insertavl cmp r fuel (.n a (i = 1)) (some a) h = some (h1, d, old))
    (h₂eq : (h1.setBal a (ob + i * d)).balance tp p = some h2) (hb : h2.balAt tp = some b) :
    insertavl cmp r (fuel + 1) tp p h = some (h2, if ob = 0 ∧ b ≠ 0 then 1 else 0, old) := by
  rw [insertavl]
  simp only [hload, hbal, hbal1, hc, if_pos hi, h₁eq, h₂eq, hb]

theorem insertavl_refines (hcmp : Orders cmp key) {r : A} : ∀ {t t' : Tree A} {d : Int} {old : Option A} {tp : Place A}
    {h : Heap A} {fuel : Nat}, Hangs h tp t → Sorted key t → tp.owner ≠ some r → Tree.insert cmp r t = some (t', d, old) →
    t.height < fuel →
    ∃ h', h.insertavl cmp r fuel tp tp.owner = some (h', d, old) ∧ Rep h' tp t' ∧ Frame h h' tp (r :: t.toList) := by
  intro t
  induction t with
  | nil =>
    intro t' d old tp h fuel H hs hr ht hfuel
    cases ht
    obtain ⟨fuel, rfl⟩ : ∃ m, fuel = m + 1 := ⟨fuel - 1, by omega⟩
    rw [insertavl, H.rep.load]
    refine ⟨_, rfl, ⟨?_, ?_, ?_, ?_, ?_⟩, ?_, ?_, ?_⟩
    · grind
    · grind
    · grind
    · show _ = _
      grind
    · show _ = _
      grind
    · intro x hx hS
      grind
    · intro x hx
      grind
    · intro x hx
      grind
  | node l a ob rt ihl ihr =>
    intro t' d old tp h fuel H hs hr ht hfuel
    obtain ⟨fuel, rfl⟩ : ∃ m, fuel = m + 1 := ⟨fuel - 1, by omega⟩
    obtain ⟨hl, hrt, hla, har⟩ := sorted_node.1 hs
    obtain ⟨hs', hmem, -⟩ := insert_sorted hcmp hs ht
    rw [height] at hfuel
    rcases insert_cases ht with ⟨hc, rfl, rfl, rfl⟩ | ⟨hc, rt', d', hins, hbal, rfl⟩ | ⟨hc, l', d', hins, hbal, rfl⟩
    · -- the node goes, its links and its balance are the new node's
      obtain ⟨⟨hload, _, _, hleft, hright⟩, hn, hout⟩ := H
      obtain ⟨hnl, hnr, _, _, _⟩ := nodup_node.1 hn
      have hk := hcmp.eq_of_zero hc
      have hrl : r ∉ l.toList := fun hx => lt_irrefl _ (hk ▸ hla r hx)
      have hll := hleft.load
      have hrl' := hright.load
      have hlroot : ∀ u, l.root = some u → u ∈ l.toList := fun u hu => root_mem hu
      have hrroot : ∀ u, rt.root = some u → u ∈ rt.toList := fun u hu => root_mem hu
      simp only [mem_node] at hout
      rw [insertavl, hload]
      simp only [hc]
      refine ⟨_, rfl, ⟨?_, ?_, ?_, ?_, ?_⟩, ?_, ?_, ?_⟩
      · grind
      · grind
      · grind
      · refine hleft.move ?_ ?_ (fun u hu => ⟨?_, ?_, fun i => ?_⟩) hnl <;> grind
      · refine hright.move ?_ ?_ (fun u hu => ⟨?_, ?_, fun i => ?_⟩) hnr <;> grind
      · intro x hx hS
        grind
      · intro x hx
        grind [mem_node]
      · intro x hx
        grind
    · have hk := hcmp.lt_of_one hc
      obtain ⟨h1, h₁eq, R1, F1⟩ := ihr H.right hrt (by rintro ⟨⟩; exact lt_irrefl _ hk) hins (show rt.height < fuel by omega)
      have hS : ∀ x ∈ r :: rt.toList, x ≠ a ∧ x ∉ l.toList ∧ tp.owner ≠ some x :=
        List.forall_mem_cons.2 ⟨⟨fun hra => lt_irrefl _ (hra ▸ hk), fun hrl => lt_asymm hk (hla r hrl), hr⟩, H.apart.2⟩
      have hlist := toList_balance hbal
      have H1 : Hangs h1 tp (node l a ob rt') := by
        refine ⟨H.setRight R1 F1 hS, ?_, ?_⟩
        · have := hs'.nodup
          rwa [hlist] at this
        intro x hx
        rcases (hmem x).1 (by rw [hlist]; exact hx) with rfl | ⟨hx, -⟩
        · exact hr
        · exact H.out x hx
      obtain ⟨h2, h₂eq, hb2, R2, F2⟩ := @rebalance _ _ _ _ _ _ _ _ _ _ _ _ (r :: (node l a ob rt).toList) _ F1 H1
        (fun x hx => by have := (hmem x).1 (by rw [hlist]; exact hx); grind) (fun x hx => by grind [mem_node]) rfl hbal
      exact ⟨h2, insertavl_descend H.rep.1 H.rep.2.2.1 H1.rep.2.2.1 hc (by decide) h₁eq h₂eq hb2, R2, F2⟩
    have hk := hcmp.lt_of_neg_one hc
    obtain ⟨h1, h₁eq, R1, F1⟩ := ihl H.left hl (by rintro ⟨⟩; exact lt_irrefl _ hk) hins (show l.height < fuel by omega)
    have hS : ∀ x ∈ r :: l.toList, x ≠ a ∧ x ∉ rt.toList ∧ tp.owner ≠ some x :=
      List.forall_mem_cons.2 ⟨⟨fun hra => lt_irrefl _ (hra ▸ hk), fun hrl => lt_asymm hk (har r hrl), hr⟩, H.apart.1⟩
    have hlist := toList_balance hbal
    have H1 : Hangs h1 tp (node l' a ob rt) := by
      refine ⟨H.setLeft R1 F1 hS, ?_, ?_⟩
      · have := hs'.nodup
        rwa [hlist] at this
      intro x hx
      rcases (hmem x).1 (by rw [hlist]; exact hx) with rfl | ⟨hx, -⟩
      · exact hr
      · exact H.out x hx
    obtain ⟨h2, h₂eq, hb2, R2, F2⟩ := @rebalance _ _ _ _ _ _ _ _ _ _ _ _ (r :: (node l a ob rt).toList) _ F1 H1
      (fun x hx => by have := (hmem x).1 (by rw [hlist]; exact hx); grind) (fun x hx => by grind [mem_node]) rfl hbal
    exact ⟨h2, insertavl_descend H.rep.1 H.rep.2.2.1 H1.rep.2.2.1 hc (by decide) h₁eq h₂eq hb2, R2, F2⟩

/-! ## Deletion -/

theorem successor_descend {c s : A}
    (hload : h.load tp = some a) (hkid : h.load (.n a false) = some c)
    (h₁eq : successor fuel (.n a false) (some a) h = some (h1, d, s))
    (h₂eq : (h1.setBal a (h1.bal a - d)).balance tp p = some h2) (hb : h2.balAt tp = some b) :
    successor (fuel + 1) tp p h = some (h2, if h.bal a ≠ 0 ∧ b = 0 then -1 else 0, s) := by
  rw [successor]
  simp only [hload, hkid, h₁eq, h₂eq, hb]

theorem Hangs.promote {i : Bool} (H : Hangs h tp (node l a b r))
    (R : Hangs h (.n a i) t) (hsub : ∀ x ∈ t.toList, x ∈ (node l a b r).toList) :
    Rep (h.link tp t.root tp.owner) tp t ∧ Frame h (h.link tp t.root tp.owner) tp (node l a b r).toList := by
  have hload := R.rep.load
  have hroot : ∀ u, t.root = some u → u ∈ t.toList := fun u hu => root_mem hu
  have hout : ∀ x ∈ t.toList, tp.owner ≠ some x := fun x hx => H.out x (hsub x hx)
  refine ⟨R.rep.move ?_ ?_ (fun u hu => ⟨?_, ?_, fun i => ?_⟩) R.nodup, ?_, ?_, ?_⟩ <;> grind

theorem successor_refines : ∀ {t t' : Tree A} {d : Int} {s : A} {tp : Place A} {h : Heap A} {fuel : Nat}, Hangs h tp t →
    Tree.successor t = some (t', d, s) → t.height < fuel →
    ∃ h', h.successor fuel tp tp.owner = some (h', d, s) ∧ Rep h' tp t' ∧ Frame h h' tp t.toList := by
  intro t
  induction t with
  | nil =>
    intro t' d s tp h fuel H ht
    cases ht
  | node l a ob rt ihl ihr =>
    intro t' d s tp h fuel H ht hfuel
    obtain ⟨fuel, rfl⟩ : ∃ m, fuel = m + 1 := ⟨fuel - 1, by omega⟩
    have hlist := toList_successor ht
    rw [height] at hfuel
    rcases successor_cases ht with ⟨rfl, rfl, rfl, rfl⟩ | ⟨hl, l', _, hsucc, hbal, rfl⟩
    · refine ⟨_, ?_, H.promote H.right (fun x hx => by simp [hx])⟩
      rw [successor, H.rep.1]
      simp only [H.left.rep.load, H.right.rep.load, Tree.root]
    obtain ⟨h1, h₁eq, R1, F1⟩ := ihl H.left hsucc (show l.height < fuel by omega)
    have hsub : ∀ x ∈ (node l' a ob rt).toList, x ∈ (node l a ob rt).toList := by
      intro x hx
      rw [hlist, toList_balance hbal]
      exact List.mem_cons_of_mem s hx
    have H1 : Hangs h1 tp (node l' a ob rt) := by
      refine ⟨H.setLeft R1 F1 H.apart.1, ?_, fun x hx => H.out x (hsub x hx)⟩
      have hn := H.nodup
      rw [hlist, toList_balance hbal] at hn
      exact (List.nodup_cons.1 hn).2
    obtain ⟨h2, h₂eq, hb2, R2, F2⟩ := rebalance F1 H1 hsub (fun x hx => by simp [hx]) rfl hbal
    refine ⟨h2, ?_, R2, F2⟩
    have hba : h1.bal a = ob := H1.rep.2.2.1
    rw [← hba] at h₂eq
    cases l with
    | nil => exact absurd rfl hl
    | node x c bc y =>
      have hdesc := successor_descend H.rep.1 H.left.rep.1 h₁eq h₂eq hb2
      rwa [H.rep.2.2.1] at hdesc

variable {S : Type} {predel : Heap A → A → S → Option S}

omit [LinearOrder K] in
theorem deleteavl_descend {rx : A} {old : Option A} {s s' : S} {i ob : Int}
    (hload : h.load tp = some a) (hbal : h.bal a = ob) (hbal1 : h1.bal a = ob) (hc : canoncmp (cmp rx a) = i) (hi : i ≠ 0)
    (h₁eq : deleteavl cmp predel rx fuel (.n a (i = 1)) (some a) h s = some (h1, s', d, old))
    (h₂eq : (h1.setBal a (ob + i * d)).balance tp p = some h2) (hb : h2.balAt tp = some b) :
    deleteavl cmp predel rx (fuel + 1) tp p h s = some (h2, s', if ob ≠ 0 ∧ b = 0 then -1 else 0, old) := by
  rw [deleteavl]
  simp only [hload, hbal, hbal1, hc, if_pos hi, h₁eq, h₂eq, hb]

/-- What `predel` makes of its argument, if it is called. -/
def Predel (predel : Heap A → A → S → Option S) (h : Heap A) (old : Option A) (s s' : S) : Prop :=
  match old with
  | none => s' = s
  | some a => predel h a s = some s'

theorem replace_refines {rt : Tree A} {r : A} {ob : Int} (H : Hangs h tp (node l a ob rt))
    (hr : r ∉ l.toList ∧ r ∉ rt.toList ∧ r ≠ a ∧ tp.owner ≠ some r) :
    Rep (h.replace tp tp.owner a r d) tp (node l r (ob + d) rt) ∧
      Frame h (h.replace tp tp.owner a r d) tp (r :: (node l a ob rt).toList) := by
  obtain ⟨⟨_, _, _, hleft, hright⟩, hn, hout⟩ := H
  obtain ⟨hnl, hnr, _, _, _⟩ := nodup_node.1 hn
  have hll := hleft.load
  have hrl' := hright.load
  have hlroot : ∀ u, l.root = some u → u ∈ l.toList := fun u hu => root_mem hu
  have hrroot : ∀ u, rt.root = some u → u ∈ rt.toList := fun u hu => root_mem hu
  simp only [mem_node] at hout
  rw [replace]
  refine ⟨⟨?_, ?_, ?_, ?_, ?_⟩, ?_, ?_, ?_⟩
  · grind
  · grind
  · grind
  · refine hleft.move ?_ ?_ (fun u hu => ⟨?_, ?_, fun i => ?_⟩) hnl <;> grind
  · refine hright.move ?_ ?_ (fun u hu => ⟨?_, ?_, fun i => ?_⟩) hnr <;> grind
  · intro x hx hS
    grind
  · intro x hx
    grind [mem_node]
  · intro x hx
    grind [mem_node]

omit [LinearOrder K] in
theorem deleteavl_two {rx r x y : A} {s s' : S}
    (hload : h.load tp = some a) (hc : canoncmp (cmp rx a) = 0) (hpre : predel h a s = some s')
    (hl : h.load (.n a false) = some x) (hr : h.load (.n a true) = some y)
    (h₁eq : successor fuel (.n a true) (some a) h = some (h1, d, r))
    (h₂eq : (h1.replace tp p a r d).balance tp p = some h2) (hb : h2.balAt tp = some b) :
    deleteavl cmp predel rx (fuel + 1) tp p h s = some (h2, s', if h.bal a ≠ 0 ∧ b = 0 then -1 else 0, some a) := by
  rw [deleteavl]
  simp only [hload, hc, ne_eq, not_true, if_false, hpre, hl, hr, h₁eq, h₂eq, hb]

theorem deleteavl_refines (hcmp : Orders cmp key) {rx : A} : ∀ {t t' : Tree A} {d : Int} {old : Option A} {tp : Place A}
    {h : Heap A} {s s' : S} {fuel : Nat}, Hangs h tp t → Sorted key t → Tree.delete cmp rx t = some (t', d, old) →
    t.height < fuel → Predel predel h old s s' →
    ∃ h', h.deleteavl cmp predel rx fuel tp tp.owner s = some (h', s', d, old) ∧ Rep h' tp t' ∧ Frame h h' tp t.toList := by
  intro t
  induction t with
  | nil =>
    intro t' d old tp h s s' fuel H _ ht hfuel hpre
    obtain ⟨fuel, rfl⟩ : ∃ m, fuel = m + 1 := ⟨fuel - 1, by omega⟩
    cases ht
    cases hpre
    refine ⟨h, ?_, H.rep, Frame.refl h tp _⟩
    rw [deleteavl, H.rep.load]
    rfl
  | node l a ob rt ihl ihr =>
    intro t' d old tp h s s' fuel H hs ht hfuel hpre
    obtain ⟨fuel, rfl⟩ : ∃ m, fuel = m + 1 := ⟨fuel - 1, by omega⟩
    obtain ⟨hl, hrt, -, -⟩ := sorted_node.1 hs
    obtain ⟨hs', hmem, -⟩ := delete_sorted hcmp hs ht
    rw [height] at hfuel
    rcases delete_cases ht with ⟨hc, rfl, hkids⟩ | ⟨hc, rt', d', hdel, hbal, rfl⟩ | ⟨hc, l', d', hdel, hbal, rfl⟩
    · have hpre' : predel h a s = some s' := hpre
      rcases hkids with ⟨rfl, rfl, rfl⟩ | ⟨hl', rfl, rfl, rfl⟩ | ⟨hl', hr', rt', d', r, hsucc, hbal, rfl⟩
      · refine ⟨_, ?_, H.promote H.right (fun x hx => by simp [hx])⟩
        rw [deleteavl, H.rep.1]
        simp only [hc, hpre', H.left.rep.load, H.right.rep.load, Tree.root]
        rfl
      · refine ⟨_, ?_, H.promote H.left (fun x hx => by simp [hx])⟩
        rw [deleteavl, H.rep.1]
        simp only [hc, hpre', H.left.rep.load, H.right.rep.load, Tree.root]
        cases t' with
        | nil => exact absurd rfl hl'
        | node x c bc y => rfl
      -- the heap after `successor`, after `r` is put in, and after `balance`
      obtain ⟨h1, h₁eq, R1, F1⟩ := successor_refines H.right hsucc (show rt.height < fuel by omega)
      have hlist := toList_successor hsucc
      have hsub : ∀ x ∈ rt'.toList, x ∈ rt.toList := fun x hx => by rw [hlist]; exact List.mem_cons_of_mem r hx
      have hrmem : r ∈ rt.toList := by rw [hlist]; exact List.mem_cons_self
      have hrt' : r ∉ rt'.toList ∧ rt'.toList.Nodup := by
        have hn := H.right.nodup
        rw [hlist] at hn
        exact List.nodup_cons.1 hn
      obtain ⟨hra, hrl, hro⟩ := H.apart.2 r hrmem
      have H1 : Hangs h1 tp (node l a ob rt') := by
        obtain ⟨hnl, -, hal, har', hlr⟩ := nodup_node.1 H.nodup
        refine ⟨H.setRight R1 F1 H.apart.2, nodup_node.2 ⟨hnl, hrt'.2, hal, ?_, ?_⟩, ?_⟩
        · exact fun hx => har' (hsub a hx)
        · exact fun x hx hx' => hlr x hx (hsub x hx')
        · intro x hx
          refine H.out x ?_
          grind [mem_node]
      obtain ⟨R2, F2⟩ := replace_refines (d := d') H1 ⟨hrl, hrt'.1, hra, hro⟩
      have hs2 : Sorted key (node l r (ob + d') rt') := hs'.congr (toList_balance hbal).symm
      have H2 : Hangs (h1.replace tp tp.owner a r d') tp (node l r (ob + d') rt') := by
        refine ⟨R2, hs2.nodup, fun x hx => ?_⟩
        refine H.out x ?_
        grind [mem_node]
      obtain ⟨h3, h₃eq, R3, F3⟩ := balance_refines H2 hbal
      have hne : t' ≠ nil := by
        rintro rfl
        have := toList_balance hbal
        simp [toList] at this
      refine ⟨h3, ?_, R3, ?_⟩
      · cases l with
        | nil => exact absurd rfl hl'
        | node x c bc y =>
          cases rt with
          | nil => exact absurd rfl hr'
          | node x' c' bc' y' =>
            have htwo := deleteavl_two H.rep.1 hc hpre' H.left.rep.1 H.right.rep.1 h₁eq h₃eq (R3.balAt hne)
            rwa [H.rep.2.2.1] at htwo
      refine (F1.lift (fun x hx => by simp [hx]) (Or.inr ⟨a, by simp, rfl⟩)).trans ?_
      refine (F2.lift (fun x hx => ?_) (Or.inl rfl)).trans (F3.lift (fun x hx => ?_) (Or.inl rfl))
      · grind [mem_node]
      · grind [mem_node]
    · have hsub : ∀ x ∈ (node l a ob rt').toList, x ∈ (node l a ob rt).toList := by
        intro x hx
        exact ((hmem x).1 (by rw [toList_balance hbal]; exact hx)).1
      obtain ⟨h1, h₁eq, R1, F1⟩ := ihr H.right hrt hdel (show rt.height < fuel by omega) hpre
      have H1 : Hangs h1 tp (node l a ob rt') := by
        refine ⟨H.setRight R1 F1 H.apart.2, ?_, fun x hx => H.out x (hsub x hx)⟩
        have hn := hs'.nodup
        rwa [toList_balance hbal] at hn
      obtain ⟨h2, h₂eq, hb2, R2, F2⟩ := rebalance F1 H1 hsub (fun x hx => by simp [hx]) rfl hbal
      exact ⟨h2, deleteavl_descend H.rep.1 H.rep.2.2.1 H1.rep.2.2.1 hc (by decide) h₁eq h₂eq hb2, R2, F2⟩
    have hsub : ∀ x ∈ (node l' a ob rt).toList, x ∈ (node l a ob rt).toList := by
      intro x hx
      exact ((hmem x).1 (by rw [toList_balance hbal]; exact hx)).1
    obtain ⟨h1, h₁eq, R1, F1⟩ := ihl H.left hl hdel (show l.height < fuel by omega) hpre
    have H1 : Hangs h1 tp (node l' a ob rt) := by
      refine ⟨H.setLeft R1 F1 H.apart.1, ?_, fun x hx => H.out x (hsub x hx)⟩
      have hn := hs'.nodup
      rwa [toList_balance hbal] at hn
    obtain ⟨h2, h₂eq, hb2, R2, F2⟩ := rebalance F1 H1 hsub (fun x hx => by simp [hx]) rfl hbal
    exact ⟨h2, deleteavl_descend H.rep.1 H.rep.2.2.1 H1.rep.2.2.1 hc (by decide) h₁eq h₂eq hb2, R2, F2⟩

end

end Heap

end Plan9.Libavl
