/-
The loops of `packet.c` along the fragments of a packet: where in the chain they stop,
what they free, what they duplicate.

Each loop has one lemma, by induction on the chain. An error is the end of the chain or,
where fragments are duplicated, one with a destructor.
-/
import Plan9.Venti.PacketHeap

namespace Plan9.Venti.Packets

open Chain CInt List

/-! ## Chains -/

def Heap.next (h : Heap) (f : FragId) : Option FragId := (h.frag f).next

def total (h : Heap) (c : List FragId) : Int := (c.map h.fragsize).sum

def content (h : Heap) (c : List FragId) : List UInt8 := c.flatMap h.bytes

section

variable {h h' : Heap} {l l' : List FragId} {c c' : List FragId} {f g : FragId}

@[simp] theorem total_nil : total h [] = 0 := rfl

@[simp] theorem total_cons : total h (f :: c) = h.fragsize f + total h c := by simp [total]

@[simp] theorem total_append : total h (c ++ c') = total h c + total h c' := by simp [total]

@[simp] theorem content_nil : content h [] = [] := rfl

@[simp] theorem content_cons : content h (f :: c) = h.bytes f ++ content h c := rfl

@[simp] theorem content_append : content h (c ++ c') = content h c ++ content h c' := by simp [content]

theorem HeapInv.fragsize_nonneg (hinv : HeapInv h l) (f : FragId) : 0 ≤ h.fragsize f := by
  have := hinv.order f
  rw [Heap.fragsize]
  omega

theorem HeapInv.length_bytes (hinv : HeapInv h l) (f : FragId) : ((h.bytes f).length : Int) = h.fragsize f := by
  have := hinv.order f
  rw [Heap.bytes, Memory.length_load, Heap.fragsize]
  omega

theorem HeapInv.total_nonneg (hinv : HeapInv h l) (c : List FragId) : 0 ≤ total h c := by
  induction c with
  | nil => exact Int.le_refl 0
  | cons f c ih =>
    have := hinv.fragsize_nonneg f
    rw [total_cons]
    omega

theorem HeapInv.length_content (hinv : HeapInv h l) (c : List FragId) : ((content h c).length : Int) = total h c := by
  induction c with
  | nil => rfl
  | cons f c ih =>
    have := hinv.length_bytes f
    rw [content_cons, total_cons, length_append]
    omega

theorem SameData.bytes (hd : SameData h h') (hf : h'.frag f = h.frag f) : h'.bytes f = h.bytes f := by
  rw [Heap.bytes, Heap.bytes, Heap.dataOf, Heap.dataOf, hf]
  cases (h.frag f).mem with
  | none => rw [hd.text]
  | some m =>
    dsimp only
    rw [hd.data m]

theorem fragsize_congr (hf : h'.frag f = h.frag f) : h'.fragsize f = h.fragsize f := by
  rw [Heap.fragsize, Heap.fragsize, hf]

theorem total_congr (hc : ∀ f ∈ c, h'.frag f = h.frag f) : total h' c = total h c :=
  congrArg sum (map_congr_left fun f hf => fragsize_congr (hc f hf))

theorem SameData.content (hd : SameData h h') (hc : ∀ f ∈ c, h'.frag f = h.frag f) : content h' c = content h c :=
  flatMap_congr fun f hf => hd.bytes (hc f hf)

end

/-! ## Walking along a chain -/

section

variable {h : Heap} {l : List FragId}

theorem one_more {n k : Nat} (hk : n < k) : ∃ k', k = k' + 1 := ⟨k - 1, by omega⟩

theorem skipLoop_spec : ∀ (c : List FragId) (k : Nat) (first : Option FragId) (offset : Int),
    Linked h.next first c → c.length < k → 0 ≤ offset →
    Outcome (fun e => e = .nilDeref ∧ total h c ≤ offset)
      (fun r => ∃ c1 c2, c = c1 ++ r.1 :: c2 ∧ r.2 = offset - total h c1 ∧ 0 ≤ r.2 ∧ r.2 < h.fragsize r.1)
      (skipLoop h k first offset) := by
  intro c
  induction c with
  | nil =>
    intro k first offset hl hk hoff
    obtain ⟨k, rfl⟩ := one_more hk
    rw [show first = none from hl]
    exact ⟨rfl, hoff⟩
  | cons f c ih =>
    intro k first offset hl hk hoff
    obtain ⟨k, rfl⟩ := one_more hk
    rw [hl.1]
    change Outcome _ _ (if offset ≥ h.fragsize f then skipLoop h k (h.next f) (offset - h.fragsize f) else .ok (f, offset))
    split
    · refine (ih k (h.next f) (offset - h.fragsize f) hl.2 (by simp at hk; omega) (by omega)).mono ?_ ?_
      · rintro e ⟨he, hle⟩
        exact ⟨he, by rw [total_cons]; omega⟩
      rintro ⟨g, _⟩ ⟨c1, c2, hc, hval, hpos, hlt⟩
      refine ⟨f :: c1, c2, by rw [hc]; rfl, ?_, hpos, hlt⟩
      rw [hval, total_cons]
      omega
    · rename_i hlt
      exact ⟨[], c, rfl, by simp, hoff, Int.not_le.1 hlt⟩

theorem splitLoop_spec : ∀ (c : List FragId) (k : Nat) (first last : Option FragId) (n asize : Int),
    Linked h.next first c → c.length < k → 0 ≤ n →
    Outcome (fun e => e = .nilDeref ∧ total h c < n)
      (fun r => ∃ c1 c2, c = c1 ++ c2 ∧ r.1 = c2.head? ∧ r.2.1 = c1.getLast?.or last ∧ r.2.2.1 = n - total h c1 ∧
        0 ≤ r.2.2.1 ∧ (0 < r.2.2.1 → ∃ f c3, c2 = f :: c3 ∧ r.2.2.1 < h.fragsize f))
      (splitLoop h k first last n asize) := by
  intro c
  induction c with
  | nil =>
    intro k first last n asize hl hk hn
    obtain ⟨k, rfl⟩ := one_more hk
    rw [show first = none from hl, splitLoop]
    split
    · rename_i hpos
      exact ⟨rfl, hpos⟩
    · rename_i hpos
      exact ⟨[], [], rfl, rfl, rfl, by simp, hn, fun h => absurd h hpos⟩
  | cons f c ih =>
    intro k first last n asize hl hk hn
    obtain ⟨k, rfl⟩ := one_more hk
    rw [hl.1, splitLoop]
    split
    · change Outcome _ _ (if n ≥ h.fragsize f then splitLoop h k (h.next f) (some f) (n - h.fragsize f) (asize + h.fragasize f)
        else .ok (some f, last, n, asize))
      split
      · refine (ih k (h.next f) (some f) (n - h.fragsize f) _ hl.2 (by simp at hk; omega) (by omega)).mono ?_ ?_
        · rintro e ⟨he, hlt⟩
          exact ⟨he, by rw [total_cons]; omega⟩
        rintro ⟨_, _, _, _⟩ ⟨c1, c2, rfl, hfirst, hlast, hval, hpos', hcut⟩
        refine ⟨f :: c1, c2, rfl, hfirst, ?_, ?_, hpos', hcut⟩
        · rw [hlast]
          cases c1 with
          | nil => rfl
          | cons g c1 =>
            rfl
        · rw [hval, total_cons]
          omega
      · rename_i hpos hlt
        exact ⟨[], f :: c, rfl, rfl, rfl, by simp, hn, fun _ => ⟨f, c, rfl, Int.not_le.1 hlt⟩⟩
    · rename_i hpos
      exact ⟨[], f :: c, rfl, rfl, rfl, by simp, hn, fun h => absurd h hpos⟩

theorem middleLoop_spec : ∀ (c : List FragId) (k : Nat) (f : FragId) (n : Int),
    Linked h.next (h.next f) c → c.length < k → 0 < n →
    Outcome (fun e => e = .nilDeref ∧ total h (f :: c) < n)
      (fun r => ∃ c1 c2, f :: c = c1 ++ r.1 :: c2 ∧ r.2 = n - total h c1 ∧ 0 < r.2 ∧ r.2 ≤ h.fragsize r.1)
      (middleLoop h k f n) := by
  intro c
  induction c with
  | nil =>
    intro k f n hl hk hn
    obtain ⟨k, rfl⟩ := one_more hk
    rw [middleLoop]
    split
    · rename_i hgt
      rw [show (h.frag f).next = none from hl]
      exact ⟨rfl, by simpa using hgt.2⟩
    · exact ⟨[], [], rfl, by simp, hn, by dsimp only; omega⟩
  | cons g c ih =>
    intro k f n hl hk hn
    obtain ⟨k, rfl⟩ := one_more hk
    rw [middleLoop]
    split
    · rw [show (h.frag f).next = some g from hl.1]
      refine (ih k g (n - h.fragsize f) hl.2 (by simp at hk; omega) (by omega)).mono ?_ ?_
      · rintro e ⟨he, hlt⟩
        exact ⟨he, by rw [total_cons] at hlt ⊢; rw [total_cons]; omega⟩
      rintro ⟨_, _⟩ ⟨c1, c2, hc, hval, hpos, hle⟩
      refine ⟨f :: c1, c2, by rw [hc]; rfl, ?_, hpos, hle⟩
      rw [hval, total_cons]
      omega
    · exact ⟨[], g :: c, rfl, by simp, hn, by dsimp only; omega⟩

theorem load_bytes {f : FragId} {offset nn : Nat} (hle : (offset + nn : Int) ≤ h.fragsize f) :
    Memory.load (h.dataOf f) ((h.frag f).rp + offset) nn = ((h.bytes f).drop offset).take nn := by
  rw [Heap.fragsize] at hle
  unfold Heap.bytes Memory.load
  apply ext_getElem
  · simp only [length_map, length_range, length_take, length_drop]
    omega
  · intro i h1 h2
    simp [Nat.add_assoc]

theorem peekLoop_spec (hinv : HeapInv h l) : ∀ (c : List FragId) (k : Nat) (first : Option FragId) (offset n : Int),
    Linked h.next first c → c.length < k → 0 ≤ offset → (∀ f c1, c = f :: c1 → offset ≤ h.fragsize f) →
    offset + n ≤ total h c ∨ n ≤ 0 →
    Outcome (fun _ => False) (fun b => b = ((content h c).drop offset.toNat).take n.toNat) (peekLoop h k first offset n) := by
  intro c
  induction c with
  | nil =>
    intro k first offset n hl hk hoff _ hn
    obtain ⟨k, rfl⟩ := one_more hk
    rw [peekLoop, if_neg (by simp at hn; omega)]
    simp [Outcome, pure, Except.pure]
  | cons f c ih =>
    intro k first offset n hl hk hoff hfirst hn
    obtain ⟨k, rfl⟩ := one_more hk
    have hsize := hfirst f c rfl
    have hlen := hinv.length_bytes f
    rw [peekLoop]
    split
    · rw [hl.1]
      have hle := hn.resolve_right (by omega)
      rw [total_cons] at hle
      change Outcome _ _ (peekLoop h k (h.next f) 0 _ >>= _)
      generalize hnn : (if h.fragsize f - offset > n then n else h.fragsize f - offset) = nn
      have hnn' : 0 ≤ nn ∧ nn ≤ n ∧ offset + nn ≤ h.fragsize f ∧ (nn < n → offset + nn = h.fragsize f) := by
        rw [← hnn]
        split <;> omega
      refine (ih k (h.next f) 0 (n - nn) hl.2 (by simp at hk; omega) (Int.le_refl 0)
        (fun g c1 _ => hinv.fragsize_nonneg g) (by omega)).bind ?_
      rintro b rfl
      change _ ++ _ = _
      rw [load_bytes (by rw [Int.toNat_of_nonneg hoff, Int.toNat_of_nonneg hnn'.1]; exact hnn'.2.2.1), content_cons, drop_append_of_le_length (by omega), take_append]
      have hdrop : ((h.bytes f).drop offset.toNat).length = (h.fragsize f - offset).toNat := by
        rw [length_drop]
        omega
      rw [hdrop]
      by_cases hall : nn = n
      · rw [hall, Int.sub_self, show n.toNat - (h.fragsize f - offset).toNat = 0 by omega]
        simp
      have htake : ∀ k : Nat, (h.fragsize f - offset).toNat ≤ k →
          ((h.bytes f).drop offset.toNat).take k = (h.bytes f).drop offset.toNat :=
        fun k hk => take_of_length_le (by rw [hdrop]; exact hk)
      rw [htake nn.toNat (by omega), htake n.toNat (by omega), Int.toNat_zero, drop_zero,
        show n.toNat - (h.fragsize f - offset).toNat = (n - nn).toNat by omega]
    · rw [Int.toNat_of_nonpos (by omega)]
      simp [Outcome, pure, Except.pure]

end

/-! ## Freeing a chain -/

/-- The fragments of `c` are given back. -/
structure FreedAll (h : Heap) (l : List FragId) (c : List FragId) (h' : Heap) (l' : List FragId) : Prop where
  used : ∀ g, h'.Used l' g ↔ g ∉ c ∧ h.Used l g
  same : ∀ g, g ∉ c → h'.frag g = h.frag g
  data : SameData h h'
  stale : ∀ g, (h'.frag g).free = (h.frag g).free ∧ (h'.frag g).a = (h.frag g).a

theorem FreedAll.nil (h : Heap) (l : List FragId) : FreedAll h l [] h l :=
  ⟨fun _ => by simp, fun _ _ => rfl, SameData.refl h, fun _ => ⟨rfl, rfl⟩⟩

theorem Freed.cons {h h1 h' : Heap} {l l1 l' : List FragId} {f : FragId} {c : List FragId} (hf : Freed h l f h1 l1)
    (hc : FreedAll h1 l1 c h' l') : FreedAll h l (f :: c) h' l' := by
  refine ⟨fun g => ?_, fun g hg => ?_, hf.data.trans hc.data, fun g => ?_⟩
  · rw [hc.used, hf.used, mem_cons, not_or, and_left_comm, and_assoc]
  · rw [mem_cons, not_or] at hg
    rw [hc.same g hg.2, hf.same g hg.1]
  rw [(hc.stale g).1, (hc.stale g).2]
  by_cases hg : g = f
  · rw [hg]
    exact hf.stale
  · rw [hf.same g hg]
    exact ⟨rfl, rfl⟩

theorem Freed.rest {h h1 : Heap} {l l1 : List FragId} {f : FragId} {c : List FragId} {first : Option FragId}
    (hf : Freed h l f h1 l1) (hl : Linked h.next first c) (hnd : (f :: c).Nodup) (hused : ∀ g ∈ c, h.Used l g) :
    Linked h1.next first c ∧ ∀ g ∈ c, h1.Used l1 g := by
  have hne : ∀ g ∈ c, g ≠ f := fun g hg heq => (nodup_cons.1 hnd).1 (heq ▸ hg)
  exact ⟨hl.congr fun g hg => congrArg Frag.next (hf.same g (hne g hg)), fun g hg => (hf.used g).2 ⟨hne g hg, hused g hg⟩⟩

theorem freeLoop_spec : ∀ (c : List FragId) (k : Nat) (h : Heap) (l : List FragId) (first : Option FragId) (asize : Int),
    HeapInv h l → Linked h.next first c → c.Nodup → (∀ f ∈ c, h.Used l f) → c.length ≤ k →
    ∃ h' l' asize', freeLoop k h first asize = .ok (h', asize') ∧ HeapInv h' l' ∧ FreedAll h l c h' l' := by
  intro c
  induction c with
  | nil =>
    intro k h l first asize hinv hl _ _ _
    rw [show first = none from hl]
    exact ⟨h, l, asize, by cases k <;> rfl, hinv, FreedAll.nil h l⟩
  | cons f c ih =>
    intro k h l first asize hinv hl hnd hused hk
    obtain ⟨k, rfl⟩ := one_more hk
    obtain ⟨h1, l1, hfree, hinv1, hfreed⟩ := fragfree_spec hinv (hused f (mem_cons_self ..))
    obtain ⟨hl1, hused1⟩ := hfreed.rest hl.2 hnd fun g hg => hused g (mem_cons_of_mem _ hg)
    obtain ⟨h', l', asize', hrun, hinv', hall⟩ := ih k h1 l1 _ (asize - h.fragasize f) hinv1 hl1 (nodup_cons.1 hnd).2
      hused1 (by simp at hk; omega)
    refine ⟨h', l', asize', ?_, hinv', hfreed.cons hall⟩
    rw [hl.1, freeLoop]
    simp only [bind, Except.bind, hfree]
    exact hrun

theorem trimLoop_spec : ∀ (c : List FragId) (k : Nat) (h : Heap) (l : List FragId) (first : Option FragId)
    (offset asize : Int), HeapInv h l → Linked h.next first c → c.Nodup → (∀ f ∈ c, h.Used l f) → c.length < k →
    0 ≤ offset →
    Outcome (fun e => e = .nilDeref ∧ total h c ≤ offset)
      (fun r => ∃ c1 c2 l', c = c1 ++ r.2.1 :: c2 ∧ HeapInv r.1 l' ∧ FreedAll h l c1 r.1 l' ∧
        r.2.2.1 = offset - total h c1 ∧ 0 ≤ r.2.2.1 ∧ r.2.2.1 < h.fragsize r.2.1)
      (trimLoop k h first offset asize) := by
  intro c
  induction c with
  | nil =>
    intro k h l first offset asize hinv hl _ _ hk hoff
    obtain ⟨k, rfl⟩ := one_more hk
    rw [show first = none from hl]
    exact ⟨rfl, hoff⟩
  | cons f c ih =>
    intro k h l first offset asize hinv hl hnd hused hk hoff
    obtain ⟨k, rfl⟩ := one_more hk
    obtain ⟨h1, l1, hfree, hinv1, hfreed⟩ := fragfree_spec hinv (hused f (mem_cons_self ..))
    obtain ⟨hl1, hused1⟩ := hfreed.rest hl.2 hnd fun g hg => hused g (mem_cons_of_mem _ hg)
    have hsame : ∀ g ∈ c, h1.frag g = h.frag g :=
      fun g hg => hfreed.same g fun heq => (nodup_cons.1 hnd).1 (heq ▸ hg)
    rw [hl.1, trimLoop]
    simp only [bind, Except.bind, deref, hfree]
    split
    · refine (ih k h1 l1 _ (offset - h.fragsize f) (asize - h.fragasize f) hinv1 hl1 (nodup_cons.1 hnd).2 hused1
        (by simp at hk; omega) (by omega)).mono ?_ ?_
      · rintro e ⟨he, hle⟩
        rw [total_congr hsame] at hle
        exact ⟨he, by rw [total_cons]; omega⟩
      rintro ⟨_, g, _, _⟩ ⟨c1, c2, l', rfl, hinv', hall, hval, hpos, hlt⟩
      have hc1 : ∀ x ∈ c1, h1.frag x = h.frag x := fun x hx => hsame x (mem_append_left _ hx)
      have hg : h1.frag g = h.frag g := hsame g (by simp)
      refine ⟨f :: c1, c2, l', rfl, hinv', hfreed.cons hall, ?_, hpos, ?_⟩
      · rw [hval, total_congr hc1, total_cons]
        omega
      · rw [← fragsize_congr hg]
        exact hlt
    · rename_i hlt
      exact ⟨[], c, l, rfl, hinv, FreedAll.nil h l, by simp, hoff, Int.not_le.1 hlt⟩

/-! ## Duplicating a chain -/

/-- `d` are new fragments for those of `c`, linked behind `ff`. -/
structure Copied (h : Heap) (l : List FragId) (p : Nat) (ff : FragId) (c : List FragId) (h' : Heap) (l' : List FragId)
    (d : List FragId) : Prop where
  fresh : ∀ g ∈ d, ¬ h.Used l g
  nodup : d.Nodup
  used : ∀ g, h'.Used l' g ↔ g ∈ d ∨ h.Used l g
  same : ∀ g, g ∉ d → g ≠ ff → h'.frag g = h.frag g
  keep : { h'.frag ff with next := none } = { h.frag ff with next := none }
  sizes : d.map (fun g => ((h'.frag g).mem, (h'.frag g).rp, (h'.frag g).wp)) =
    c.map (fun g => ((h.frag g).mem, (h.frag g).rp, (h.frag g).wp))
  path : Path h'.next ff d
  data : SameData h h'
  own : ∀ q i, .loc q i ∈ d → q = p
  clean : ∀ g ∈ c, ¬ (h.frag g).Dirty
  stale : ∀ g, (h'.frag g).free = (h.frag g).free ∧ (h'.frag g).a = (h.frag g).a

theorem Copied.nil (h : Heap) (l : List FragId) (p : Nat) (ff : FragId) : Copied h l p ff [] h l [] where
  fresh := nofun
  nodup := nodup_nil
  used := fun _ => by simp
  same := fun _ _ _ => rfl
  keep := rfl
  sizes := rfl
  path := trivial
  data := SameData.refl h
  own := nofun
  clean := nofun
  stale := fun _ => ⟨rfl, rfl⟩

theorem Copied.cons {h h1 h' : Heap} {l l1 l' : List FragId} {p : Nat} {ff ff' g : FragId} {c d : List FragId}
    (hgrown : Grown h l p ff' h1 l1) (hff : h.Used l ff) (hg : h.Used l g) (hc : ∀ x ∈ c, h.Used l x) (hnot : ff ∉ c)
    (hclean : ¬ (h.frag g).Dirty)
    (hrec : (h1.frag ff').mem = (h.frag g).mem ∧ (h1.frag ff').rp = (h.frag g).rp ∧ (h1.frag ff').wp = (h.frag g).wp)
    (hcopied : Copied (h1.setFrag ff { h1.frag ff with next := some ff' }) l1 p ff' c h' l' d) :
    Copied h l p ff (g :: c) h' l' (ff' :: d) := by
  generalize hh2 : h1.setFrag ff { h1.frag ff with next := some ff' } = h2 at hcopied
  have hne : ff ≠ ff' := fun heq => hgrown.fresh (heq ▸ hff)
  have hself2 : h2.frag ff = { h.frag ff with next := some ff' } := by
    rw [← hh2, setFrag_frag_self, hgrown.same ff hne]
  have hsame2 : ∀ x, x ≠ ff → h2.frag x = h1.frag x := fun x hx => by rw [← hh2, setFrag_frag_of_ne _ hx]
  have hused2 : ∀ x, h2.Used l1 x ↔ x = ff' ∨ h.Used l x := by
    intro x
    rw [← hgrown.used]
    refine Heap.used_congr ?_ (by rw [← hh2]; rfl)
    by_cases hx : x = ff
    · rw [hx, ← hh2, setFrag_frag_self]
    · rw [hsame2 x hx]
  have hold : ∀ x ∈ c, h2.frag x = h.frag x := by
    intro x hx
    have hx1 : x ≠ ff := fun heq => hnot (heq ▸ hx)
    have hx2 : x ≠ ff' := fun heq => hgrown.fresh (heq ▸ hc x hx)
    rw [hsame2 x hx1, hgrown.same x hx2]
  have hffd : ff ∉ d := fun hin => hcopied.fresh ff hin ((hused2 ff).2 (.inr hff))
  have hff'd : ff' ∉ d := fun hin => hcopied.fresh ff' hin ((hused2 ff').2 (.inl rfl))
  have hself' : h'.frag ff = { h.frag ff with next := some ff' } := by rw [hcopied.same ff hffd hne, hself2]
  refine { fresh := ?_, nodup := nodup_cons.2 ⟨hff'd, hcopied.nodup⟩, used := fun x => ?_, same := ?_, keep := ?_,
           sizes := ?_, path := ⟨?_, hcopied.path⟩, data := ?_, own := ?_, clean := ?_, stale := fun x => ?_ }
  · intro x hx
    rcases mem_cons.1 hx with rfl | hx
    · exact hgrown.fresh
    · exact fun hu => hcopied.fresh x hx ((hused2 x).2 (.inr hu))
  · rw [hcopied.used, hused2, mem_cons, or_left_comm, or_assoc]
  · intro x hx hxff
    rw [mem_cons, not_or] at hx
    rw [hcopied.same x hx.2 hx.1, hsame2 x hxff, hgrown.same x hx.1]
  · rw [hself']
  · have hkeep := hcopied.keep
    have hmem := congrArg Frag.mem hkeep
    have hrp := congrArg Frag.rp hkeep
    have hwp := congrArg Frag.wp hkeep
    rw [map_cons, map_cons, hcopied.sizes, hmem, hrp, hwp, hsame2 ff' (Ne.symm hne), hrec.1, hrec.2.1, hrec.2.2]
    exact congrArg _ (map_congr_left fun x hx => by rw [hold x hx])
  · rw [Heap.next, hself']
  · exact hgrown.data.trans (SameData.trans (by rw [← hh2]; exact ⟨fun _ => rfl, rfl⟩) hcopied.data)
  · intro q i hin
    rcases mem_cons.1 hin with heq | hin
    · exact hgrown.own q i heq.symm
    · exact hcopied.own q i hin
  · intro x hx
    rcases mem_cons.1 hx with rfl | hx
    · exact hclean
    · rw [← hold x hx]
      exact hcopied.clean x hx
  rw [(hcopied.stale x).1, (hcopied.stale x).2]
  by_cases hx : x = ff'
  · rw [hx, hsame2 ff' (Ne.symm hne)]
    exact hgrown.stale
  by_cases hxff : x = ff
  · rw [hxff, hself2]
    exact ⟨rfl, rfl⟩
  · rw [hsame2 x hxff, hgrown.same x hx]
    exact ⟨rfl, rfl⟩

theorem dupLoop_spec (pp : Nat) : ∀ (c : List FragId) (k : Nat) (h : Heap) (l : List FragId) (f ff : FragId)
    (n asize : Int), HeapInv h l → Linked h.next (h.next f) c → (f :: c).Nodup → (∀ g ∈ c, h.Used l g) → h.Used l ff →
    ff ∉ f :: c → c.length < k → 0 < n + h.fragsize ff →
    Outcome (fun e => e = .nilDeref ∧ total h c < n ∨ e = .assertForeign ∧ ∃ g ∈ c, (h.frag g).Dirty)
      (fun r => ∃ c1 c2 l' d, c = c1 ++ c2 ∧ HeapInv r.1 l' ∧ Copied h l pp ff c1 r.1 l' d ∧ (ff :: d).getLast? = some r.2.1 ∧
        r.2.2.1 = n - total h c1 ∧ r.2.2.1 ≤ 0 ∧ 0 < r.2.2.1 + r.1.fragsize r.2.1)
      (dupLoop pp k h f ff n asize) := by
  intro c
  induction c with
  | nil =>
    intro k h l f ff n asize hinv hl _ _ _ _ hk hlast
    obtain ⟨k, rfl⟩ := one_more hk
    rw [dupLoop]
    split
    · rename_i hn
      exact ⟨[], [], l, [], rfl, hinv, Copied.nil h l pp ff, rfl, by simp, hn, hlast⟩
    · rename_i hn
      rw [show (h.frag f).next = none from hl]
      exact .inl ⟨rfl, Int.not_le.1 hn⟩
  | cons g c ih =>
    intro k h l f ff n asize hinv hl hnd hused hff hnot hk hlast
    obtain ⟨k, rfl⟩ := one_more hk
    rw [dupLoop]
    split
    · rename_i hn
      exact ⟨[], g :: c, l, [], rfl, hinv, Copied.nil h l pp ff, rfl, by simp, hn, hlast⟩
    rw [show (h.frag f).next = some g from hl.1]
    have hg : h.Used l g := hused g (mem_cons_self ..)
    have hc : ∀ x ∈ c, h.Used l x := fun x hx => hused x (mem_cons_of_mem _ hx)
    simp only [mem_cons, not_or] at hnot
    refine (Outcome.mono (fragdup_spec hinv pp hg) ?_ fun _ => id).bind ?_
    · rintro e ⟨he, hdirty⟩
      exact .inr ⟨he, g, mem_cons_self .., hdirty⟩
    rintro ⟨ff', h1⟩ ⟨l1, hinv1, hgrown, hclean, hmem, hrp, hwp, -⟩
    dsimp only at hinv1 hgrown hmem hrp hwp ⊢
    have hne : ff ≠ ff' := fun heq => hgrown.fresh (heq ▸ hff)
    have hff1 : h1.Used l1 ff := (hgrown.used ff).2 (.inr hff)
    obtain ⟨hinv2, hused2⟩ := @HeapInv.setUsed h1 l1 ff { h1.frag ff with next := some ff' } hinv1 hff1 rfl rfl
      (hinv1.order ff) fun m hm => (hinv1.bounds ff m hm).2
    have hsame2 : ∀ x, x ≠ ff → x ≠ ff' → (h1.setFrag ff { h1.frag ff with next := some ff' }).frag x = h.frag x :=
      fun x hx hx' => by rw [setFrag_frag_of_ne _ hx, hgrown.same x hx']
    have hself' : (h1.setFrag ff { h1.frag ff with next := some ff' }).frag ff' = h1.frag ff' :=
      setFrag_frag_of_ne _ (Ne.symm hne) _
    generalize hh2 : h1.setFrag ff { h1.frag ff with next := some ff' } = h2 at hinv2 hused2 hsame2 hself' ⊢
    have hfresh : ∀ x, h.Used l x → x ≠ ff' := fun x hx heq => hgrown.fresh (heq ▸ hx)
    have hold : ∀ x ∈ g :: c, h2.frag x = h.frag x := by
      intro x hx
      have hxff : x ≠ ff := by
        rintro rfl
        rcases mem_cons.1 hx with rfl | hx
        · exact hnot.2.1 rfl
        · exact hnot.2.2 hx
      exact hsame2 x hxff (hfresh x (hused x hx))
    have hsize : h2.fragsize ff' = h.fragsize g := by
      rw [Heap.fragsize, Heap.fragsize, hself', hrp, hwp]
    have hnd' := (nodup_cons.1 hnd).2
    have hl2 : Linked h2.next (h2.next g) c := by
      rw [Heap.next, hold g (mem_cons_self ..)]
      exact hl.2.congr fun x hx => congrArg Frag.next (hold x (mem_cons_of_mem _ hx))
    refine (ih k h2 l1 g ff' (n - h2.fragsize ff') _ hinv2 hl2 hnd'
      (fun x hx => (hused2 x).2 ((hgrown.used x).2 (.inr (hc x hx)))) ((hused2 ff').2 ((hgrown.used ff').2 (.inl rfl)))
      (fun hin => hfresh ff' (hused ff' hin) rfl) (by simp at hk; omega) (by omega)).mono ?_ ?_
    · rintro e (⟨he, hlt⟩ | ⟨he, x, hx, hdirty⟩)
      · rw [total_congr fun x hx => hold x (mem_cons_of_mem _ hx), hsize] at hlt
        exact .inl ⟨he, by rw [total_cons]; omega⟩
      · rw [hold x (mem_cons_of_mem _ hx)] at hdirty
        exact .inr ⟨he, x, mem_cons_of_mem _ hx, hdirty⟩
    rintro ⟨_, _, _, _⟩ ⟨c1, c2, l', d, rfl, hinv', hcopied, hlast', hval, hle, hpos⟩
    refine ⟨g :: c1, c2, l', ff' :: d, rfl, hinv', ?_, ?_, ?_, hle, hpos⟩
    · rw [← hh2] at hcopied
      exact Copied.cons hgrown hff hg (fun x hx => hc x (mem_append_left _ hx))
        (fun hin => hnot.2.2 (mem_append_left _ hin)) hclean ⟨hmem, hrp, hwp⟩ hcopied
    · exact hlast'
    · rw [hval, hsize, total_congr fun x hx => hold x (mem_cons_of_mem _ (mem_append_left _ hx)), total_cons]
      omega

end Plan9.Venti.Packets
