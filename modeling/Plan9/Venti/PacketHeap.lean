/-
The fragments and memories under the packets.

`Heap.Used` are the fragments that are given out. The reference count of a memory is the
number of used fragments that point into it (`HeapInv.held`); a fragment that
is not used points into none. Every operation is described by what it makes of the used
fragments (`Grown`, `Freed`, `Changed`), and none of them touches what is stored in a memory.
-/
import Plan9.Lib.Chain
import Plan9.Lib.Outcome
import Plan9.Lib.Update
import Plan9.Venti.Packet

namespace Plan9.Venti.Packets

open Chain Function List

/-! ## Records -/

section

variable (h : Heap)

@[simp] theorem setFrag_frag_self (f : FragId) (r : Frag) : (h.setFrag f r).frag f = r := update_self ..

theorem setFrag_frag_of_ne {f g : FragId} (hne : g ≠ f) (r : Frag) : (h.setFrag f r).frag g = h.frag g :=
  update_of_ne hne ..

@[simp] theorem setFrag_mem (f : FragId) (r : Frag) : (h.setFrag f r).mem = h.mem := rfl
@[simp] theorem setFrag_nmem (f : FragId) (r : Frag) : (h.setFrag f r).nmem = h.nmem := rfl
@[simp] theorem setFrag_nfrag (f : FragId) (r : Frag) : (h.setFrag f r).nfrag = h.nfrag := rfl
@[simp] theorem setFrag_freeFrag (f : FragId) (r : Frag) : (h.setFrag f r).freeFrag = h.freeFrag := rfl
@[simp] theorem setFrag_smallmem (f : FragId) (r : Frag) : (h.setFrag f r).smallmem = h.smallmem := rfl
@[simp] theorem setFrag_bigmem (f : FragId) (r : Frag) : (h.setFrag f r).bigmem = h.bigmem := rfl
@[simp] theorem setFrag_text (f : FragId) (r : Frag) : (h.setFrag f r).text = h.text := rfl

@[simp] theorem setFrag_setFrag (f : FragId) (r r' : Frag) : (h.setFrag f r).setFrag f r' = h.setFrag f r' := by
  simp [Heap.setFrag]

@[simp] theorem setMem_mem_self (m : Nat) (r : Mem) : (h.setMem m r).mem m = r := update_self ..

theorem setMem_mem_of_ne {m k : Nat} (hne : k ≠ m) (r : Mem) : (h.setMem m r).mem k = h.mem k :=
  update_of_ne hne ..

@[simp] theorem setMem_frag (m : Nat) (r : Mem) : (h.setMem m r).frag = h.frag := rfl
end

/-! ## The invariant -/

/-- Given out: neither on the free list `l` nor free in its packet. -/
def Heap.Used (h : Heap) (l : List FragId) : FragId → Prop
  | .loc p i => (h.frag (.loc p i)).state = .fragLocalAlloc
  | .glob k => k < h.nfrag ∧ .glob k ∉ l

/-- The used fragments that point into `m`, as a list, count its references. -/
def Heap.Counted (h : Heap) (l : List FragId) (m : Nat) : Prop :=
  ∃ fs : List FragId, fs.Nodup ∧ (∀ f, f ∈ fs ↔ h.Used l f ∧ (h.frag f).mem = some m) ∧ (h.mem m).ref = fs.length

/-- `l` is the free list of the fragments. -/
structure HeapInv (h : Heap) (l : List FragId) : Prop where
  linked : Linked (fun f => (h.frag f).next) h.freeFrag l
  nodup : l.Nodup
  glob : ∀ f ∈ l, ∃ k, k < h.nfrag ∧ f = .glob k
  globState : ∀ k, k < h.nfrag → (h.frag (.glob k)).state = .fragGlobal
  locState : ∀ p i, (h.frag (.loc p i)).state ≠ .fragGlobal
  locIdx : ∀ p i, h.Used l (.loc p i) → i < 2
  idle : ∀ f, ¬ h.Used l f → (h.frag f).mem = none
  counted : ∀ m, h.Counted l m
  order : ∀ f, (h.frag f).rp ≤ (h.frag f).wp
  bounds : ∀ f m, (h.frag f).mem = some m → m < h.nmem ∧ (h.frag f).wp ≤ (h.mem m).size
  size : ∀ m, m < h.nmem → (h.mem m).size = smallMemSize ∨ (h.mem m).size = bigMemSize
  memNodup : (h.smallmem ++ h.bigmem).Nodup
  small : ∀ m ∈ h.smallmem, m < h.nmem ∧ (h.mem m).ref = 0 ∧ (h.mem m).size = smallMemSize
  big : ∀ m ∈ h.bigmem, m < h.nmem ∧ (h.mem m).ref = 0 ∧ (h.mem m).size = bigMemSize

/-- What is stored is the same. -/
structure SameData (h h' : Heap) : Prop where
  data : ∀ m, (h'.mem m).data = (h.mem m).data
  text : h'.text = h.text

theorem SameData.refl (h : Heap) : SameData h h := ⟨fun _ => rfl, rfl⟩

variable {h h' : Heap} {l l' : List FragId} {f : FragId} {m : Nat}

variable (hinv : HeapInv h l) (hf : h.Used l f)

theorem SameData.trans {h'' : Heap} (h₁ : SameData h h') (h₂ : SameData h' h'') : SameData h h'' :=
  ⟨fun m => (h₂.data m).trans (h₁.data m), h₂.text.trans h₁.text⟩

/-- The bytes of a fragment. -/
def Heap.bytes (h : Heap) (f : FragId) : List UInt8 :=
  Memory.load (h.dataOf f) (h.frag f).rp ((h.frag f).wp - (h.frag f).rp)

/-- `f` is given out, and all else is as it was. -/
structure Grown (h : Heap) (l : List FragId) (p : Nat) (f : FragId) (h' : Heap) (l' : List FragId) : Prop where
  fresh : ¬ h.Used l f
  used : ∀ g, h'.Used l' g ↔ g = f ∨ h.Used l g
  same : ∀ g, g ≠ f → h'.frag g = h.frag g
  data : SameData h h'
  own : ∀ q i, f = .loc q i → q = p
  stale : (h'.frag f).free = (h.frag f).free ∧ (h'.frag f).a = (h.frag f).a

/-- `f` is given back. -/
structure Freed (h : Heap) (l : List FragId) (f : FragId) (h' : Heap) (l' : List FragId) : Prop where
  used : ∀ g, h'.Used l' g ↔ g ≠ f ∧ h.Used l g
  same : ∀ g, g ≠ f → h'.frag g = h.frag g
  data : SameData h h'
  stale : (h'.frag f).free = (h.frag f).free ∧ (h'.frag f).a = (h.frag f).a

include hinv hf in
theorem HeapInv.notMem_free : f ∉ l := by
  intro hmem
  obtain ⟨k, -, rfl⟩ := hinv.glob f hmem
  exact hf.2 hmem

include hinv hf in
theorem HeapInv.state :
    (h.frag f).state = .fragLocalAlloc ∧ (∃ p i, f = .loc p i) ∨
      (h.frag f).state = .fragGlobal ∧ ∃ k, k < h.nfrag ∧ f = .glob k := by
  cases f with
  | loc p i => exact .inl ⟨hf, p, i, rfl⟩
  | glob k => exact .inr ⟨hinv.globState k hf.1, k, hf.1, rfl⟩

theorem Heap.used_congr (hstate : (h'.frag f).state = (h.frag f).state)
    (hn : h'.nfrag = h.nfrag) : h'.Used l f ↔ h.Used l f := by
  cases f with
  | loc p i => rw [Used, Used, hstate]
  | glob k => rw [Used, Used, hn]

theorem Heap.Counted.congr (hc : h.Counted l m)
    (hused : ∀ f, h'.Used l' f ∧ (h'.frag f).mem = some m ↔ h.Used l f ∧ (h.frag f).mem = some m)
    (href : (h'.mem m).ref = (h.mem m).ref) : h'.Counted l' m := by
  obtain ⟨fs, hnd, hfs, hlen⟩ := hc
  exact ⟨fs, hnd, fun f => (hfs f).trans (hused f).symm, href.trans hlen⟩

theorem Heap.Counted.ref_eq_zero_iff (hc : h.Counted l m) :
    (h.mem m).ref = 0 ↔ ∀ f, h.Used l f → (h.frag f).mem ≠ some m := by
  obtain ⟨_, -, hfs, hlen⟩ := hc
  rw [hlen]
  constructor
  · intro h0 f hf hm
    have := length_pos_of_mem ((hfs f).2 ⟨hf, hm⟩)
    omega
  · intro hno
    rw [eq_nil_iff_forall_not_mem.2 fun f hf => hno f ((hfs f).1 hf).1 ((hfs f).1 hf).2]
    rfl

theorem Heap.Counted.eq_of_ref_one (hc : h.Counted l m) (hone : (h.mem m).ref = 1)
    {g : FragId} (hf : h.Used l f) (hfm : (h.frag f).mem = some m) (hg : h.Used l g) (hgm : (h.frag g).mem = some m) :
    f = g := by
  obtain ⟨fs, _, hfs, _⟩ := hc
  obtain ⟨x, rfl⟩ := length_eq_one_iff.1 (show fs.length = 1 by omega)
  rw [mem_singleton.1 ((hfs f).2 ⟨hf, hfm⟩), mem_singleton.1 ((hfs g).2 ⟨hg, hgm⟩)]

theorem Heap.Counted.one_le (hc : h.Counted l m) (hf : h.Used l f)
    (hm : (h.frag f).mem = some m) : 1 ≤ (h.mem m).ref := by
  obtain ⟨_, _, hfs, _⟩ := hc
  have := length_pos_of_mem ((hfs f).2 ⟨hf, hm⟩)
  omega

/-- Where a fragment points to. -/
def Heap.extent (h : Heap) (f : FragId) : Option Nat × Nat × Nat := ((h.frag f).mem, (h.frag f).rp, (h.frag f).wp)

include hinv in
theorem HeapInv.extents (hext : ∀ g, h'.extent g = h.extent g) :
    (∀ g, (h'.frag g).mem = (h.frag g).mem) ∧ (∀ g, (h'.frag g).rp ≤ (h'.frag g).wp) ∧
      ∀ g m, (h'.frag g).mem = some m → m < h.nmem ∧ (h'.frag g).wp ≤ (h.mem m).size := by
  have hext : ∀ g, (h'.frag g).mem = (h.frag g).mem ∧ (h'.frag g).rp = (h.frag g).rp ∧ (h'.frag g).wp = (h.frag g).wp :=
    fun g => by simpa only [Heap.extent, Prod.mk.injEq] using hext g
  refine ⟨fun g => (hext g).1, fun g => ?_, fun g m hm => ?_⟩
  · rw [(hext g).2.1, (hext g).2.2]
    exact hinv.order g
  · rw [(hext g).1] at hm
    rw [(hext g).2.2]
    exact hinv.bounds g m hm

/-! ## Giving out a fragment -/

include hinv in
theorem HeapInv.counted_more (hfresh : ¬ h.Used l f)
    (hused : ∀ g, h'.Used l' g ↔ g = f ∨ h.Used l g) (hmem : ∀ g, (h'.frag g).mem = (h.frag g).mem)
    (href : ∀ m, (h'.mem m).ref = (h.mem m).ref) (m : Nat) : h'.Counted l' m := by
  refine (hinv.counted m).congr (fun g => ?_) (href m)
  rw [hused, hmem]
  constructor
  · rintro ⟨rfl | hu, hm⟩
    · rw [hinv.idle _ hfresh] at hm
      exact nomatch hm
    · exact ⟨hu, hm⟩
  · rintro ⟨hu, hm⟩
    exact ⟨.inr hu, hm⟩

include hinv in
theorem HeapInv.takeLocal {p i : Nat} (hi : i < 2)
    (hfree : (h.frag (.loc p i)).state = .fragLocalFree) :
    let h' := h.setFrag (.loc p i) { h.frag (.loc p i) with state := .fragLocalAlloc }
    HeapInv h' l ∧ Grown h l p (.loc p i) h' l := by
  intro h'
  have hfresh : ¬ h.Used l (.loc p i) := fun hu => by
    rw [Heap.Used, hfree] at hu
    exact nomatch hu
  have hself : h'.frag (.loc p i) = { h.frag (.loc p i) with state := .fragLocalAlloc } := setFrag_frag_self ..
  have hsame : ∀ g, g ≠ .loc p i → h'.frag g = h.frag g := fun g hg => setFrag_frag_of_ne h hg _
  have hused : ∀ g, h'.Used l g ↔ g = .loc p i ∨ h.Used l g := by
    intro g
    by_cases hg : g = .loc p i
    · subst hg
      exact iff_of_true (by rw [Heap.Used, hself]) (.inl rfl)
    · rw [Heap.used_congr (congrArg Frag.state (hsame g hg)) rfl]
      simp [hg]
  obtain ⟨hmem, horder, hbounds⟩ := @HeapInv.extents h h' l hinv (same_of_update (fun r : Frag => (r.mem, r.rp, r.wp)) rfl rfl)
  have hnotin : ∀ g ∈ l, g ≠ .loc p i := by
    rintro g hg rfl
    obtain ⟨k, -, hk⟩ := hinv.glob _ hg
    exact nomatch hk
  refine ⟨{ linked := ?_, nodup := hinv.nodup, glob := hinv.glob, globState := ?_, locState := ?_, locIdx := ?_,
            idle := ?_, counted := hinv.counted_more hfresh hused hmem fun _ => rfl, order := horder, bounds := hbounds,
            size := hinv.size, memNodup := hinv.memNodup, small := hinv.small, big := hinv.big }, ?_⟩
  · exact hinv.linked.congr fun g hg => congrArg Frag.next (hsame g (hnotin g hg))
  · intro k hk
    exact hinv.globState k hk
  · intro q j
    by_cases hg : FragId.loc q j = .loc p i
    · rw [hg, hself]
      simp
    · rw [hsame _ hg]
      exact hinv.locState q j
  · intro q j hu
    rcases (hused _).1 hu with heq | hu
    · obtain ⟨rfl, rfl⟩ : q = p ∧ j = i := by simpa using heq
      exact hi
    · exact hinv.locIdx q j hu
  · intro g hg
    rw [hmem]
    exact hinv.idle g fun hu => hg ((hused g).2 (.inr hu))
  · exact { fresh := hfresh, used := hused, same := hsame, data := ⟨fun _ => rfl, rfl⟩,
            own := fun q j heq => by simpa using (FragId.loc.inj heq).1.symm, stale := by rw [hself]; exact ⟨rfl, rfl⟩ }

theorem HeapInv.takeFree (hinv : HeapInv h (f :: l)) (p : Nat) :
    let h' := { h with freeFrag := (h.frag f).next }
    HeapInv h' l ∧ Grown h (f :: l) p f h' l := by
  intro h'
  obtain ⟨k, hk, rfl⟩ := hinv.glob f (mem_cons_self ..)
  have hnd := nodup_cons.1 hinv.nodup
  have hfresh : ¬ h.Used (.glob k :: l) (.glob k) := fun hu => hu.2 (mem_cons_self ..)
  have hused : ∀ g, h'.Used l g ↔ g = .glob k ∨ h.Used (.glob k :: l) g := by
    intro g
    cases g with
    | loc q i => simp [Heap.Used, h']
    | glob j =>
      by_cases hj : j = k
      · subst hj
        exact iff_of_true ⟨hk, hnd.1⟩ (.inl rfl)
      · simp [Heap.Used, h', hj]
  refine ⟨{ linked := hinv.linked.2, nodup := hnd.2, glob := fun g hg => hinv.glob g (mem_cons_of_mem _ hg),
            globState := hinv.globState, locState := hinv.locState, locIdx := ?_, idle := ?_, counted := ?_,
            order := hinv.order, bounds := hinv.bounds, size := hinv.size, memNodup := hinv.memNodup, small := hinv.small,
            big := hinv.big }, ?_⟩
  · intro q i hu
    exact hinv.locIdx q i (((hused _).1 hu).resolve_left nofun)
  · intro g hg
    exact hinv.idle g fun hu => hg ((hused g).2 (.inr hu))
  · exact hinv.counted_more hfresh hused (fun _ => rfl) fun _ => rfl
  · exact { fresh := hfresh, used := hused, same := fun _ _ => rfl, data := ⟨fun _ => rfl, rfl⟩, own := nofun,
            stale := ⟨rfl, rfl⟩ }

theorem HeapInv.takeNew (hinv : HeapInv h []) (p : Nat) :
    let f := FragId.glob h.nfrag
    let h' := { h.setFrag f { h.frag f with state := .fragGlobal } with nfrag := h.nfrag + 1 }
    HeapInv h' [] ∧ Grown h [] p f h' [] := by
  intro f h'
  have hfresh : ¬ h.Used [] f := fun hu => Nat.lt_irrefl _ hu.1
  have hself : h'.frag f = { h.frag f with state := .fragGlobal } := setFrag_frag_self ..
  have hsame : ∀ g, g ≠ f → h'.frag g = h.frag g := fun g hg => setFrag_frag_of_ne h hg _
  have hused : ∀ g, h'.Used [] g ↔ g = f ∨ h.Used [] g := by
    intro g
    cases g with
    | loc q i => rw [Heap.Used, Heap.Used, hsame (.loc q i) (by simp [f])]; simp [f]
    | glob j => simp [Heap.Used, h', f]; omega
  obtain ⟨hmem, horder, hbounds⟩ := @HeapInv.extents h h' _ hinv (same_of_update (fun r : Frag => (r.mem, r.rp, r.wp)) rfl rfl)
  refine ⟨{ linked := hinv.linked, nodup := hinv.nodup, glob := nofun, globState := ?_, locState := ?_, locIdx := ?_,
            idle := ?_, counted := hinv.counted_more hfresh hused hmem fun _ => rfl, order := horder, bounds := hbounds,
            size := hinv.size, memNodup := hinv.memNodup, small := hinv.small, big := hinv.big }, ?_⟩
  · intro k hk
    by_cases hg : FragId.glob k = f
    · rw [hg, hself]
    · rw [hsame _ hg]
      have : k ≠ h.nfrag := fun h => hg (congrArg _ h)
      exact hinv.globState k (by have : k < h.nfrag + 1 := hk; omega)
  · intro q i
    exact hinv.locState q i
  · intro q i hu
    exact hinv.locIdx q i (((hused _).1 hu).resolve_left (by simp [f]))
  · intro g hg
    rw [hmem]
    exact hinv.idle g fun hu => hg ((hused g).2 (.inr hu))
  · exact { fresh := hfresh, used := hused, same := hsame, data := ⟨fun _ => rfl, rfl⟩,
            own := fun q i heq => by simp [f] at heq, stale := by rw [hself]; exact ⟨rfl, rfl⟩ }

include hinv in
theorem fragget_spec (p : Nat) :
    ∃ f h' l', fragget h p = (f, h') ∧ HeapInv h' l' ∧ Grown h l p f h' l' ∧ (h'.frag f).mem = none ∧
      h'.mem = h.mem ∧ h'.nmem = h.nmem := by
  unfold fragget
  by_cases h0 : (h.frag (.loc p 0)).state = .fragLocalFree
  · rw [if_pos h0]
    obtain ⟨hinv', hgrown⟩ := hinv.takeLocal (by decide) h0
    exact ⟨_, _, l, rfl, hinv', hgrown, by rw [setFrag_frag_self]; exact hinv.idle _ hgrown.fresh, rfl, rfl⟩
  rw [if_neg h0]
  by_cases h1 : (h.frag (.loc p 1)).state = .fragLocalFree
  · rw [if_pos h1]
    obtain ⟨hinv', hgrown⟩ := hinv.takeLocal (by decide) h1
    exact ⟨_, _, l, rfl, hinv', hgrown, by rw [setFrag_frag_self]; exact hinv.idle _ hgrown.fresh, rfl, rfl⟩
  rw [if_neg h1]
  cases l with
  | nil =>
    rw [show h.freeFrag = none from hinv.linked]
    obtain ⟨hinv', hgrown⟩ := hinv.takeNew p
    refine ⟨_, _, [], rfl, hinv', hgrown, ?_, rfl, rfl⟩
    have hnone := hinv.idle _ hgrown.fresh
    rw [setFrag_frag_self]
    exact hnone
  | cons f l =>
    rw [hinv.linked.1]
    obtain ⟨hinv', hgrown⟩ := hinv.takeFree p
    exact ⟨_, _, l, rfl, hinv', hgrown, hinv.idle _ hgrown.fresh, rfl, rfl⟩

/-! ## Changing a used fragment -/

/-- The counts and the lists of what is free are the same. -/
structure SameLists (h h' : Heap) : Prop where
  nfrag : h'.nfrag = h.nfrag
  freeFrag : h'.freeFrag = h.freeFrag
  nmem : h'.nmem = h.nmem
  smallmem : h'.smallmem = h.smallmem
  bigmem : h'.bigmem = h.bigmem
  sizes : ∀ m, (h'.mem m).size = (h.mem m).size

include hinv hf in
/-- The pointers of `f` are changed, and the counts of the memories with its memory: all but `counted`, `small` and
`big` is as before. -/
theorem HeapInv.change (hlists : SameLists h h') (hsame : ∀ g, g ≠ f → h'.frag g = h.frag g) (hstate : (h'.frag f).state = (h.frag f).state)
    (horder : (h'.frag f).rp ≤ (h'.frag f).wp)
    (hbounds : ∀ m, (h'.frag f).mem = some m → m < h.nmem ∧ (h'.frag f).wp ≤ (h.mem m).size)
    (hcounted : ∀ m, h'.Counted l m) (hfree : ∀ m, m ∈ h.smallmem ++ h.bigmem → (h'.mem m).ref = (h.mem m).ref) :
    HeapInv h' l ∧ ∀ g, h'.Used l g ↔ h.Used l g := by
  have hstates : ∀ g, (h'.frag g).state = (h.frag g).state := by
    intro g
    by_cases hg : g = f
    · rw [hg, hstate]
    · rw [hsame g hg]
  have hused : ∀ g, h'.Used l g ↔ h.Used l g := fun g => Heap.used_congr (hstates g) hlists.nfrag
  refine ⟨{ linked := ?_, nodup := hinv.nodup, glob := ?_, globState := ?_, locState := ?_, locIdx := ?_, idle := ?_,
            counted := hcounted, order := ?_, bounds := ?_, size := ?_, memNodup := ?_, small := ?_, big := ?_ }, hused⟩
  · rw [hlists.freeFrag]
    exact hinv.linked.congr fun g hg => congrArg Frag.next (hsame g fun heq => hinv.notMem_free hf (heq ▸ hg))
  · intro g hg
    rw [hlists.nfrag]
    exact hinv.glob g hg
  · intro k hk
    rw [hlists.nfrag] at hk
    rw [hstates]
    exact hinv.globState k hk
  · intro p i
    rw [hstates]
    exact hinv.locState p i
  · intro p i hu
    exact hinv.locIdx p i ((hused _).1 hu)
  · intro g hg
    rw [hsame g fun heq => hg ((hused g).2 (heq ▸ hf))]
    exact hinv.idle g fun hu => hg ((hused g).2 hu)
  · intro g
    by_cases hg : g = f
    · rw [hg]
      exact horder
    · rw [hsame g hg]
      exact hinv.order g
  · intro g m hm
    rw [hlists.nmem, hlists.sizes]
    by_cases hg : g = f
    · rw [hg] at hm ⊢
      exact hbounds m hm
    · rw [hsame g hg] at hm ⊢
      exact hinv.bounds g m hm
  · intro m hm
    rw [hlists.nmem] at hm
    rw [hlists.sizes]
    exact hinv.size m hm
  · rw [hlists.smallmem, hlists.bigmem]
    exact hinv.memNodup
  · intro m hm
    rw [hlists.smallmem] at hm
    rw [hlists.nmem, hlists.sizes, hfree m (mem_append_left _ hm)]
    exact hinv.small m hm
  intro m hm
  rw [hlists.bigmem] at hm
  rw [hlists.nmem, hlists.sizes, hfree m (mem_append_right _ hm)]
  exact hinv.big m hm

theorem HeapInv.setUsed {r : Frag} (hinv : HeapInv h l) (hf : h.Used l f)
    (hstate : r.state = (h.frag f).state) (hmem : r.mem = (h.frag f).mem) (horder : r.rp ≤ r.wp)
    (hbound : ∀ m, r.mem = some m → r.wp ≤ (h.mem m).size) :
    HeapInv (h.setFrag f r) l ∧ ∀ g, (h.setFrag f r).Used l g ↔ h.Used l g := by
  have hsame : ∀ g, g ≠ f → (h.setFrag f r).frag g = h.frag g := fun g hg => setFrag_frag_of_ne h hg r
  have hused : ∀ g, (h.setFrag f r).Used l g ↔ h.Used l g := fun g => Heap.used_congr (same_of_update Frag.state (g := (h.setFrag f r).frag) rfl hstate g) rfl
  refine hinv.change hf ⟨rfl, rfl, rfl, rfl, rfl, fun _ => rfl⟩ hsame (by rw [setFrag_frag_self, hstate])
    (by rw [setFrag_frag_self]; exact horder) ?_ ?_ fun _ _ => rfl
  · intro m hm
    rw [setFrag_frag_self] at hm ⊢
    exact ⟨(hinv.bounds f m (hmem ▸ hm)).1, hbound m hm⟩
  · exact fun m => (hinv.counted m).congr (fun g => by rw [hused, same_of_update Frag.mem (g := (h.setFrag f r).frag) rfl hmem]) rfl

include hinv hf in
theorem HeapInv.attach (hnone : (h.frag f).mem = none) (hm : m < h.nmem) (hfree : m ∉ h.smallmem ++ h.bigmem) (hlists : SameLists h h')
    (hsame : ∀ g, g ≠ f → h'.frag g = h.frag g) (hstate : (h'.frag f).state = (h.frag f).state)
    (hmem : (h'.frag f).mem = some m) (horder : (h'.frag f).rp ≤ (h'.frag f).wp) (hwp : (h'.frag f).wp ≤ (h.mem m).size)
    (href : (h'.mem m).ref = (h.mem m).ref + 1) (hrefs : ∀ k, k ≠ m → (h'.mem k).ref = (h.mem k).ref) :
    HeapInv h' l ∧ ∀ g, h'.Used l g ↔ h.Used l g := by
  have hused : ∀ g, h'.Used l g ↔ h.Used l g := by
    intro g
    refine Heap.used_congr ?_ hlists.nfrag
    by_cases hg : g = f
    · rw [hg, hstate]
    · rw [hsame g hg]
  refine hinv.change hf hlists hsame hstate horder ?_ ?_ ?_
  · intro k hk
    obtain rfl : m = k := Option.some.inj (hmem.symm.trans hk)
    exact ⟨hm, hwp⟩
  · intro k
    by_cases hk : k = m
    · subst hk
      obtain ⟨fs, hnd, hfs, hlen⟩ := hinv.counted k
      refine ⟨f :: fs, nodup_cons.2 ⟨fun hin => ?_, hnd⟩, fun g => ?_, ?_⟩
      · have := ((hfs f).1 hin).2
        rw [hnone] at this
        exact nomatch this
      · rw [mem_cons, hused, hfs]
        by_cases hg : g = f
        · subst hg
          exact iff_of_true (.inl rfl) ⟨hf, hmem⟩
        · rw [hsame g hg]
          simp [hg]
      · rw [href, hlen, length_cons]
        rfl
    refine (hinv.counted k).congr (fun g => ?_) (hrefs k hk)
    rw [hused]
    by_cases hg : g = f
    · subst hg
      rw [hmem, hnone]
      simp [Ne.symm hk]
    · rw [hsame g hg]
  · intro k hk
    exact hrefs k fun heq => hfree (heq ▸ hk)

/-! ## Memories -/

include hinv in
theorem HeapInv.popMem {sm bg : List Nat}
    (hsm : sm.Sublist h.smallmem) (hbg : bg.Sublist h.bigmem) : HeapInv { h with smallmem := sm, bigmem := bg } l := by
  refine { hinv with memNodup := ?_, small := ?_, big := ?_ }
  · exact hinv.memNodup.sublist (hsm.append hbg)
  · exact fun m hm => hinv.small m (hsm.subset hm)
  · exact fun m hm => hinv.big m (hbg.subset hm)

include hinv in
theorem HeapInv.newMem {size : Nat}
    (hsize : size = smallMemSize ∨ size = bigMemSize) :
    HeapInv { h.setMem h.nmem { h.mem h.nmem with size := size } with nmem := h.nmem + 1 } l := by
  have hmem : ∀ k, k ≠ h.nmem → (h.setMem h.nmem { h.mem h.nmem with size := size }).mem k = h.mem k :=
    fun k hk => setMem_mem_of_ne h hk _
  have hold : ∀ k, k < h.nmem → k ≠ h.nmem := fun k hk => Nat.ne_of_lt hk
  have hfree : ∀ m x, m < h.nmem ∧ (h.mem m).ref = 0 ∧ (h.mem m).size = x → m < h.nmem + 1 ∧
      ((h.setMem h.nmem { h.mem h.nmem with size := size }).mem m).ref = 0 ∧
      ((h.setMem h.nmem { h.mem h.nmem with size := size }).mem m).size = x := by
    rintro m x ⟨hlt, hm⟩
    rw [hmem m (hold m hlt)]
    exact ⟨Nat.lt_succ_of_lt hlt, hm⟩
  refine { linked := hinv.linked, nodup := hinv.nodup, glob := hinv.glob, globState := hinv.globState,
           locState := hinv.locState, locIdx := hinv.locIdx, idle := hinv.idle, counted := ?_, order := hinv.order,
           bounds := ?_, size := ?_, memNodup := hinv.memNodup, small := ?_, big := ?_ }
  · intro m
    exact (hinv.counted m).congr (fun _ => Iff.rfl) (same_of_update Mem.ref (g := (h.setMem h.nmem { h.mem h.nmem with size := size }).mem) rfl rfl m)
  · intro f m hm
    have hb := hinv.bounds f m hm
    refine ⟨Nat.lt_succ_of_lt hb.1, ?_⟩
    rw [hmem m (hold m hb.1)]
    exact hb.2
  · intro m hm
    by_cases heq : m = h.nmem
    · rw [heq, setMem_mem_self]
      exact hsize
    · rw [hmem m heq]
      exact hinv.size m (by have : m < h.nmem + 1 := hm; omega)
  · exact fun m hm => hfree m _ (hinv.small m hm)
  · exact fun m hm => hfree m _ (hinv.big m hm)

include hinv in
theorem HeapInv.unused_mem (hm : (h.mem m).ref = 0)
    (f : FragId) : (h.frag f).mem ≠ some m := by
  intro hfm
  by_cases hf : h.Used l f
  · exact (hinv.counted m).ref_eq_zero_iff.1 hm f hf hfm
  · rw [hinv.idle f hf] at hfm
    exact nomatch hfm

/-- `m` is taken out of what is free, and all else is as it was. -/
structure Taken (h : Heap) (m : Nat) (h' : Heap) : Prop where
  frag : h'.frag = h.frag
  nfrag : h'.nfrag = h.nfrag
  lt : m < h'.nmem
  notFree : m ∉ h'.smallmem ++ h'.bigmem
  ref : (h'.mem m).ref = 0
  other : ∀ k, k ≠ m → h'.mem k = h.mem k
  data : SameData h h'

include hinv in
theorem memget_spec {n : Int} (hn : n ≤ maxFragSize) :
    ∃ m h', memget h n = (m, h') ∧ HeapInv h' l ∧ Taken h m h' ∧ n ≤ (h'.mem m).size := by
  have hnew : ∀ size, size = smallMemSize ∨ size = bigMemSize →
      let h' := { h.setMem h.nmem { h.mem h.nmem with size := size } with nmem := h.nmem + 1 }
      HeapInv h' l ∧ Taken h h.nmem h' ∧ (h'.mem h.nmem).size = size := by
    intro size hsize h'
    have hself : h'.mem h.nmem = { h.mem h.nmem with size := size } := setMem_mem_self ..
    have hother : ∀ k, k ≠ h.nmem → h'.mem k = h.mem k := fun k hk => setMem_mem_of_ne h hk _
    refine ⟨hinv.newMem hsize, ⟨rfl, rfl, Nat.lt_succ_self _, ?_, ?_, hother, fun k => ?_, rfl⟩, by rw [hself]⟩
    · intro hin
      rcases mem_append.1 hin with hin | hin
      · exact Nat.lt_irrefl _ (hinv.small _ hin).1
      · exact Nat.lt_irrefl _ (hinv.big _ hin).1
    · rw [hself]
      refine (hinv.counted h.nmem).ref_eq_zero_iff.2 fun f _ hfm => ?_
      exact Nat.lt_irrefl _ (hinv.bounds f _ hfm).1
    · exact same_of_update Mem.data (g := h'.mem) rfl rfl k
  unfold memget
  by_cases hsmall : n ≤ smallMemSize
  · rw [if_pos hsmall]
    cases hl : h.smallmem with
    | nil =>
      obtain ⟨hinv', htaken, hsize⟩ := hnew smallMemSize (.inl rfl)
      exact ⟨_, _, rfl, hinv', htaken, by rw [hsize]; exact hsmall⟩
    | cons m sm =>
      have hm := hinv.small m (hl ▸ mem_cons_self ..)
      have hnd := hinv.memNodup
      rw [hl, cons_append, nodup_cons] at hnd
      exact ⟨_, _, rfl, hinv.popMem (by rw [hl]; exact sublist_cons_self ..) (List.Sublist.refl _),
        ⟨rfl, rfl, hm.1, hnd.1, hm.2.1, fun _ _ => rfl, fun _ => rfl, rfl⟩, by
          rw [hm.2.2]; exact hsmall⟩
  rw [if_neg hsmall]
  cases hl : h.bigmem with
  | nil =>
    obtain ⟨hinv', htaken, hsize⟩ := hnew bigMemSize (.inr rfl)
    exact ⟨_, _, rfl, hinv', htaken, by rw [hsize]; exact hn⟩
  | cons m bg =>
    have hm := hinv.big m (hl ▸ mem_cons_self ..)
    have hnd := (perm_append_comm.nodup_iff).1 hinv.memNodup
    rw [hl, cons_append, nodup_cons] at hnd
    refine ⟨_, _, rfl, hinv.popMem (List.Sublist.refl _) (by rw [hl]; exact sublist_cons_self ..),
      ⟨rfl, rfl, hm.1, fun hin => hnd.1 ?_, hm.2.1, fun _ _ => rfl, fun _ => rfl, rfl⟩, by
        rw [hm.2.2]; exact hn⟩
    exact mem_append.2 (mem_append.1 hin).symm

/-! ## fragalloc -/

include hinv in
theorem fragalloc_zero (p : Nat) (pos : Pos) (next : Option FragId) :
    ∃ f h' l', fragalloc h p 0 pos next = .ok (f, h') ∧ HeapInv h' l' ∧ Grown h l p f h' l' ∧ h'.mem = h.mem ∧
      h'.nmem = h.nmem ∧ (h'.frag f).mem = none ∧ (h'.frag f).next = next := by
  obtain ⟨f, h1, l', hget, hinv1, hgrown, hnone, hmem, hnmem⟩ := fragget_spec hinv p
  have hf : h1.Used l' f := (hgrown.used f).2 (.inl rfl)
  obtain ⟨hinv2, hused⟩ := @HeapInv.setUsed h1 l' f { h1.frag f with next := next, mem := none, rp := 0, wp := 0 } hinv1 hf rfl
    hnone.symm (Nat.le_refl 0) nofun
  refine ⟨f, _, l', ?_, hinv2, ⟨hgrown.fresh, fun g => (hused g).trans (hgrown.used g), fun g hg => ?_,
    ⟨hgrown.data.data, hgrown.data.text⟩, hgrown.own, ?_⟩, hmem, hnmem, by rw [setFrag_frag_self], by rw [setFrag_frag_self]⟩
  · unfold fragalloc
    rw [hget]
    simp [pure, Except.pure]
  · rw [setFrag_frag_of_ne _ hg, hgrown.same g hg]
  · rw [setFrag_frag_self]
    exact hgrown.stale

theorem carve_bounds {pos : Pos} {size : Nat} {n : Int} (h : n ≤ size) : 0 ≤ carve pos size n ∧ carve pos size n + n ≤ size := by
  unfold carve
  cases pos <;> dsimp only <;> split <;> omega

include hinv in
theorem fragalloc_pos (p : Nat) {n : Int} (h0 : 0 < n)
    (hn : n ≤ maxFragSize) (pos : Pos) (next : Option FragId) :
    ∃ f m h' l', fragalloc h p n pos next = .ok (f, h') ∧ HeapInv h' l' ∧ Grown h l p f h' l' ∧
      (h'.frag f).mem = some m ∧ (h'.frag f).next = next ∧ h'.fragsize f = n ∧ (h'.mem m).ref = 1 ∧
      (∀ g, (h.frag g).mem ≠ some m) ∧ ∀ k, k ≠ m → h'.mem k = h.mem k := by
  obtain ⟨f, h1, l', hget, hinv1, hgrown, hnone, hmem, -⟩ := fragget_spec hinv p
  have hf : h1.Used l' f := (hgrown.used f).2 (.inl rfl)
  obtain ⟨hinv2, hused2⟩ := @HeapInv.setUsed h1 l' f { h1.frag f with next := next } hinv1 hf rfl rfl (hinv1.order f)
    fun m hm => (hinv1.bounds f m hm).2
  obtain ⟨m, h3, hmget, hinv3, htaken, hsize⟩ := memget_spec hinv2 hn
  have hle' := @carve_bounds (if pos = .pEnd ∧ next = none then Pos.pMiddle else pos) _ _ hsize
  generalize hrp' : carve (if pos = .pEnd ∧ next = none then Pos.pMiddle else pos) (h3.mem m).size n = rp' at hle'
  have hmalloc : memalloc (h1.setFrag f { h1.frag f with next := next }) n
      (if pos = .pEnd ∧ next = none then Pos.pMiddle else pos) =
      .ok (some m, h3.setMem m { h3.mem m with ref := 1, rp := rp'.toNat, wp := (rp' + n).toNat }) := by
    unfold memalloc
    rw [if_neg (by omega), hmget]
    dsimp only
    rw [if_neg (by rw [htaken.ref]; decide), hrp', if_neg (by omega)]
  generalize hh4 : h3.setMem m { h3.mem m with ref := 1, rp := rp'.toNat, wp := (rp' + n).toNat } = h4 at hmalloc
  have hself4 : h4.mem m = { h3.mem m with ref := 1, rp := rp'.toNat, wp := (rp' + n).toNat } := by
    rw [← hh4, setMem_mem_self]
  have hother4 : ∀ k, k ≠ m → h4.mem k = h3.mem k := fun k hk => by rw [← hh4, setMem_mem_of_ne _ hk]
  have hfrag4 : h4.frag = (h1.setFrag f { h1.frag f with next := next }).frag := by
    rw [← hh4, setMem_frag, htaken.frag]
  generalize hh5 : h4.setFrag f { h4.frag f with mem := some m, rp := (h4.mem m).rp, wp := (h4.mem m).wp } = h5
  have hself5 : h5.frag f = { h4.frag f with mem := some m, rp := rp'.toNat, wp := (rp' + n).toNat } := by
    rw [← hh5, setFrag_frag_self, hself4]
  have hmem5 : h5.mem = h4.mem := by rw [← hh5, setFrag_mem]
  have hsame5 : ∀ g, g ≠ f → h5.frag g = h1.frag g := fun g hg => by
    rw [← hh5, setFrag_frag_of_ne _ hg, hfrag4, setFrag_frag_of_ne _ hg]
  have hfrag3 : h3.frag f = { h1.frag f with next := next } := by rw [htaken.frag, setFrag_frag_self]
  have hsizes : ∀ k, (h5.mem k).size = (h3.mem k).size := hmem5 ▸ hh4 ▸ same_of_update Mem.size rfl rfl
  have hf3 : h3.Used l' f := (Heap.used_congr (by rw [htaken.frag]) htaken.nfrag).2 ((hused2 f).2 hf)
  have hlists : SameLists h3 h5 := by
    constructor <;> first | exact hsizes | (rw [← hh5, ← hh4]; rfl)
  obtain ⟨hinv5, hused5⟩ := @HeapInv.attach h3 h5 l' f m hinv3 hf3 (by rw [hfrag3]; exact hnone) htaken.lt htaken.notFree hlists
    (fun g hg => by rw [hsame5 g hg, htaken.frag, setFrag_frag_of_ne _ hg]) (by rw [hself5, hfrag4, setFrag_frag_self, hfrag3])
    (by rw [hself5]) (by rw [hself5]; dsimp only; omega) (by rw [hself5]; dsimp only; omega)
    (by rw [hmem5, hself4, htaken.ref]; rfl) (fun k hk => by rw [hmem5, hother4 k hk])
  refine ⟨f, m, h5, l', ?_, hinv5, ⟨hgrown.fresh, ?_, fun g hg => (hsame5 g hg).trans (hgrown.same g hg), ?_, hgrown.own, ?_⟩,
    by rw [hself5], by rw [hself5, hfrag4, setFrag_frag_self], ?_, by rw [hmem5, hself4], ?_, ?_⟩
  · unfold fragalloc
    rw [hget]
    dsimp only
    rw [if_neg (by omega)]
    simp only [pure, Except.pure, bind, Except.bind, hmalloc, deref, hh5]
  · intro g
    rw [hused5, Heap.used_congr (by rw [htaken.frag]) htaken.nfrag, hused2]
    exact hgrown.used g
  · refine ⟨fun k => ?_, ?_⟩
    · have hdata3 : (h3.mem k).data = (h.mem k).data := by rw [htaken.data.data, setFrag_mem, hmem]
      rw [hmem5, ← hdata3, ← hh4]
      by_cases hk : k = m
      · rw [hk, setMem_mem_self]
      · rw [setMem_mem_of_ne _ hk]
    · rw [← hh5, ← hh4]
      exact htaken.data.text.trans hgrown.data.text
  · rw [hself5, hfrag4, setFrag_frag_self]
    exact hgrown.stale
  · rw [Heap.fragsize, hself5]
    dsimp only
    omega
  · intro g hgm
    by_cases hg : g = f
    · rw [hg, hinv.idle f hgrown.fresh] at hgm
      exact nomatch hgm
    · have hne := hinv3.unused_mem htaken.ref g
      rw [htaken.frag, setFrag_frag_of_ne _ hg, hgrown.same g hg] at hne
      exact hne hgm
  · intro k hk
    rw [hmem5, hother4 k hk, htaken.other k hk, setFrag_mem, hmem]

/-! ## fragdup -/

include hinv in
theorem HeapInv.memCongr (hfrag : h'.frag = h.frag)
    (hlists : SameLists h h') (href : ∀ m, (h'.mem m).ref = (h.mem m).ref) :
    HeapInv h' l ∧ ∀ g, h'.Used l g ↔ h.Used l g := by
  have hused : ∀ g, h'.Used l g ↔ h.Used l g := fun g => Heap.used_congr (by rw [hfrag]) hlists.nfrag
  refine ⟨{ linked := ?_, nodup := hinv.nodup, glob := ?_, globState := ?_, locState := ?_, locIdx := ?_, idle := ?_,
            counted := ?_, order := ?_, bounds := ?_, size := ?_, memNodup := ?_, small := ?_, big := ?_ }, hused⟩
  · rw [hlists.freeFrag, hfrag]
    exact hinv.linked
  · rw [hlists.nfrag]
    exact hinv.glob
  · rw [hlists.nfrag, hfrag]
    exact hinv.globState
  · rw [hfrag]
    exact hinv.locState
  · exact fun p i hu => hinv.locIdx p i ((hused _).1 hu)
  · intro g hg
    rw [hfrag]
    exact hinv.idle g fun hu => hg ((hused g).2 hu)
  · exact fun m => (hinv.counted m).congr (fun g => by rw [hused, hfrag]) (href m)
  · rw [hfrag]
    exact hinv.order
  · intro g m hm
    rw [hfrag] at hm ⊢
    rw [hlists.nmem, hlists.sizes]
    exact hinv.bounds g m hm
  · intro m hm
    rw [hlists.nmem] at hm
    rw [hlists.sizes]
    exact hinv.size m hm
  · rw [hlists.smallmem, hlists.bigmem]
    exact hinv.memNodup
  · intro m hm
    rw [hlists.smallmem] at hm
    rw [hlists.nmem, hlists.sizes, href]
    exact hinv.small m hm
  intro m hm
  rw [hlists.bigmem] at hm
  rw [hlists.nmem, hlists.sizes, href]
  exact hinv.big m hm

include hinv hf in
theorem HeapInv.mem_notFree (hm : (h.frag f).mem = some m) : m ∉ h.smallmem ++ h.bigmem := by
  have hone := (hinv.counted m).one_le hf hm
  intro hin
  rcases mem_append.1 hin with hin | hin
  · have := (hinv.small m hin).2.1
    omega
  · have := (hinv.big m hin).2.1
    omega

/-- There is a destructor, or an argument for one. -/
def Frag.Dirty (r : Frag) : Prop := r.free ≠ none ∨ r.a ≠ none

theorem memupdate_spec (h : Heap) (f : FragId) : (memupdate h f).frag = h.frag ∧ SameLists h (memupdate h f) ∧
    (∀ m, ((memupdate h f).mem m).ref = (h.mem m).ref) ∧ SameData h (memupdate h f) := by
  have hset : ∀ m, let h0 := h.setMem m { h.mem m with rp := (h.frag f).rp, wp := (h.frag f).wp }
      h0.frag = h.frag ∧ SameLists h h0 ∧ (∀ k, (h0.mem k).ref = (h.mem k).ref) ∧ SameData h h0 := by
    intro m h0
    exact ⟨rfl, ⟨rfl, rfl, rfl, rfl, rfl, same_of_update Mem.size rfl rfl⟩, same_of_update Mem.ref rfl rfl, same_of_update Mem.data rfl rfl, rfl⟩
  have hrefl : h.frag = h.frag ∧ SameLists h h ∧ (∀ m, (h.mem m).ref = (h.mem m).ref) ∧ SameData h h :=
    ⟨rfl, ⟨rfl, rfl, rfl, rfl, rfl, fun _ => rfl⟩, fun _ => rfl, SameData.refl h⟩
  unfold memupdate
  cases (h.frag f).mem with
  | none => exact hrefl
  | some m =>
    dsimp only
    split
    · exact hset m
    · exact hrefl

include hinv in
/-- **`fragdup`** of a used fragment: one more fragment with the same bytes, unless there is a destructor. -/
theorem fragdup_spec (p : Nat) (hf : h.Used l f) :
    Outcome (fun e => e = .assertForeign ∧ (h.frag f).Dirty)
      (fun r => ∃ l', HeapInv r.2 l' ∧ Grown h l p r.1 r.2 l' ∧ ¬ (h.frag f).Dirty ∧
        (r.2.frag r.1).mem = (h.frag f).mem ∧ (r.2.frag r.1).rp = (h.frag f).rp ∧ (r.2.frag r.1).wp = (h.frag f).wp ∧
        (r.2.frag r.1).next = (h.frag f).next)
      (fragdup h p f) := by
  obtain ⟨hfrag0, hlists0, href0, hdata0⟩ := memupdate_spec h f
  obtain ⟨hinv0, hused0⟩ := hinv.memCongr hfrag0 hlists0 href0
  obtain ⟨ff, h1, l', halloc, hinv1, hgrown, hmem1, -, hnone, -⟩ := fragalloc_zero hinv0 p .pFront none
  have hff : h1.Used l' ff := (hgrown.used ff).2 (.inl rfl)
  have hne : f ≠ ff := fun heq => hgrown.fresh (heq ▸ (hused0 f).2 hf)
  have hf1 : h1.frag f = h.frag f := by rw [hgrown.same f hne, hfrag0]
  have hf1u : h1.Used l' f := (hgrown.used f).2 (.inr ((hused0 f).2 hf))
  unfold fragdup
  rw [halloc]
  simp only [bind, Except.bind, hf1, throw, throwThe, MonadExceptOf.throw, pure, Except.pure]
  split
  · rename_i hdirty
    exact ⟨rfl, hdirty⟩
  rename_i hclean
  generalize hr : ({ h1.frag ff with mem := (h.frag f).mem, rp := (h.frag f).rp, wp := (h.frag f).wp,
                                     next := (h.frag f).next } : Frag) = r
  have hrself : (h1.setFrag ff r).frag ff = r := setFrag_frag_self ..
  have hsame : ∀ g, g ≠ ff → (h1.setFrag ff r).frag g = h.frag g := fun g hg => by
    rw [setFrag_frag_of_ne _ hg, hgrown.same g hg, hfrag0]
  have hfresh : ¬ h.Used l ff := fun hu => hgrown.fresh ((hused0 ff).2 hu)
  have hstale : r.free = (h.frag ff).free ∧ r.a = (h.frag ff).a := by
    rw [← hr]
    exact ⟨hgrown.stale.1.trans (congrArg Frag.free (congrFun hfrag0 ff)),
      hgrown.stale.2.trans (congrArg Frag.a (congrFun hfrag0 ff))⟩
  have hdata1 : SameData h h1 := hdata0.trans hgrown.data
  cases hm : (h.frag f).mem with
  | none =>
    rw [hm] at hr
    obtain ⟨hinv2, hused2⟩ := @HeapInv.setUsed h1 l' ff r hinv1 hff (by rw [← hr]) (by rw [← hr, hnone])
      (by rw [← hr]; exact hinv.order f) (by rw [← hr]; exact nofun)
    refine ⟨l', hinv2, ⟨hfresh, fun g => ?_, hsame, ⟨hdata1.data, hdata1.text⟩, hgrown.own, by rw [hrself]; exact hstale⟩,
      hclean, ?_⟩
    · rw [hused2, hgrown.used, hused0]
    · rw [hrself, ← hr]
      exact ⟨rfl, rfl, rfl, rfl⟩
  | some m =>
    rw [hm] at hr
    dsimp only
    have hb := hinv.bounds f m hm
    generalize hh3 : (h1.setFrag ff r).setMem m { (h1.setFrag ff r).mem m with ref := ((h1.setFrag ff r).mem m).ref + 1 } = h3
    have hmemm : h3.mem m = { h1.mem m with ref := (h1.mem m).ref + 1 } := by rw [← hh3, setMem_mem_self]; rfl
    have hmemk : ∀ k, k ≠ m → h3.mem k = h1.mem k := fun k hk => by rw [← hh3, setMem_mem_of_ne _ hk]; rfl
    have hfrag3 : h3.frag = (h1.setFrag ff r).frag := by rw [← hh3, setMem_frag]
    have hother : ∀ k, (h3.mem k).size = (h1.mem k).size ∧ (h3.mem k).data = (h1.mem k).data := by
      intro k
      by_cases hk : k = m
      · rw [hk, hmemm]
        exact ⟨rfl, rfl⟩
      · rw [hmemk k hk]
        exact ⟨rfl, rfl⟩
    have hm1 : (h1.frag f).mem = some m := by rw [hf1, hm]
    have hsize1 : (h.frag f).wp ≤ (h1.mem m).size := by
      rw [hmem1, hlists0.sizes]
      exact hb.2
    have hlists : SameLists h1 h3 := by
      constructor <;> first | exact fun k => (hother k).1 | (rw [← hh3]; rfl)
    obtain ⟨hinv3, hused3⟩ := @HeapInv.attach h1 h3 l' ff m hinv1 hff hnone (hinv1.bounds f m hm1).1
      (hinv1.mem_notFree hf1u hm1) hlists (fun g hg => by rw [hfrag3, setFrag_frag_of_ne _ hg])
      (by rw [hfrag3, hrself, ← hr]) (by rw [hfrag3, hrself, ← hr])
      (by rw [hfrag3, hrself, ← hr]; exact hinv.order f) (by rw [hfrag3, hrself, ← hr]; exact hsize1)
      (by rw [hmemm]) (fun k hk => by rw [hmemk k hk])
    have htext : h3.text = h.text := by
      rw [← hh3]
      exact hdata1.text
    refine ⟨l', hinv3, ⟨hfresh, fun g => ?_, fun g hg => by rw [hfrag3, hsame g hg],
      ⟨fun k => (hother k).2.trans (hdata1.data k), htext⟩, hgrown.own, by rw [hfrag3, hrself]; exact hstale⟩, hclean, ?_⟩
    · rw [hused3, hgrown.used, hused0]
    · rw [hfrag3, hrself, ← hr]
      exact ⟨rfl, rfl, rfl, rfl⟩

/-! ## fragfree -/

include hinv hf in
theorem HeapInv.detach (hm : (h.frag f).mem = some m) :
    let h' := (h.setMem m { h.mem m with ref := (h.mem m).ref - 1 }).setFrag f { h.frag f with mem := none }
    HeapInv h' l ∧ ∀ g, h'.Used l g ↔ h.Used l g := by
  intro h'
  have hself : h'.frag f = { h.frag f with mem := none } := setFrag_frag_self ..
  have hsame : ∀ g, g ≠ f → h'.frag g = h.frag g := fun g hg => setFrag_frag_of_ne _ hg _
  have hmemm : h'.mem m = { h.mem m with ref := (h.mem m).ref - 1 } := setMem_mem_self ..
  have hmemk : ∀ k, k ≠ m → h'.mem k = h.mem k := fun k hk => setMem_mem_of_ne h hk _
  have hsizes : ∀ k, (h'.mem k).size = (h.mem k).size := same_of_update Mem.size rfl rfl
  have hused : ∀ g, h'.Used l g ↔ h.Used l g := fun g => Heap.used_congr (same_of_update Frag.state (g := h'.frag) rfl rfl g) rfl
  refine hinv.change hf ⟨rfl, rfl, rfl, rfl, rfl, hsizes⟩ hsame (by rw [hself]) (by rw [hself]; exact hinv.order f)
    (by rw [hself]; exact nofun) ?_ ?_
  · intro k
    by_cases hk : k = m
    · subst hk
      obtain ⟨fs, hnd, hfs, _⟩ := hinv.counted k
      have hin := (hfs f).2 ⟨hf, hm⟩
      have hpos := length_pos_of_mem hin
      refine ⟨fs.erase f, hnd.erase f, fun g => ?_, ?_⟩
      · rw [hnd.mem_erase_iff, hfs, hused]
        by_cases hg : g = f
        · subst hg
          rw [hself]
          simp
        · rw [hsame g hg]
          simp [hg]
      · rw [hmemm, length_erase_of_mem hin]
        dsimp only
        omega
    refine (hinv.counted k).congr (fun g => ?_) (by rw [hmemk k hk])
    rw [hused]
    by_cases hg : g = f
    · subst hg
      rw [hself, hm]
      simp [Ne.symm hk]
    · rw [hsame g hg]
  · intro k hk
    rw [hmemk k fun heq => hinv.mem_notFree hf hm (heq ▸ hk)]

include hinv in
theorem HeapInv.pushSmall (hm : m < h.nmem)
    (hfree : m ∉ h.smallmem ++ h.bigmem) (href : (h.mem m).ref = 0) (hsize : (h.mem m).size = smallMemSize) :
    HeapInv { h with smallmem := m :: h.smallmem } l := by
  refine { hinv with memNodup := ?_, small := ?_ }
  · exact nodup_cons.2 ⟨hfree, hinv.memNodup⟩
  intro k hk
  rcases mem_cons.1 hk with rfl | hk
  · exact ⟨hm, href, hsize⟩
  · exact hinv.small k hk

include hinv in
theorem HeapInv.pushBig (hm : m < h.nmem)
    (hfree : m ∉ h.smallmem ++ h.bigmem) (href : (h.mem m).ref = 0) (hsize : (h.mem m).size = bigMemSize) :
    HeapInv { h with bigmem := m :: h.bigmem } l := by
  refine { hinv with memNodup := ?_, big := ?_ }
  · exact (perm_middle.nodup_iff).2 (nodup_cons.2 ⟨hfree, hinv.memNodup⟩)
  intro k hk
  rcases mem_cons.1 hk with rfl | hk
  · exact ⟨hm, href, hsize⟩
  · exact hinv.big k hk

include hinv hf in
theorem memfree_spec (hm : (h.frag f).mem = some m) :
    ∃ h1, memfree h m = .ok h1 ∧ h1.frag = h.frag ∧ SameData h h1 ∧ h1.nfrag = h.nfrag ∧
      HeapInv (h1.setFrag f { h1.frag f with mem := none }) l := by
  obtain ⟨hinv', -⟩ := hinv.detach hf hm
  have hone := (hinv.counted m).one_le hf hm
  have hb := hinv.bounds f m hm
  have hfree := hinv.mem_notFree hf hm
  have hself : (h.setMem m { h.mem m with ref := (h.mem m).ref - 1 }).mem m = { h.mem m with ref := (h.mem m).ref - 1 } :=
    setMem_mem_self ..
  have hdata : SameData h (h.setMem m { h.mem m with ref := (h.mem m).ref - 1 }) := ⟨same_of_update Mem.data rfl rfl, rfl⟩
  unfold memfree
  dsimp only
  rw [hself]
  dsimp only
  by_cases hpos : (h.mem m).ref - 1 > 0
  · rw [if_pos hpos]
    exact ⟨_, rfl, rfl, hdata, rfl, hinv'⟩
  rw [if_neg hpos, if_neg (by omega)]
  have href0 : (h.mem m).ref - 1 = 0 := by omega
  rcases hinv.size m hb.1 with hsize | hsize
  · rw [if_pos hsize]
    refine ⟨_, rfl, rfl, ⟨hdata.data, hdata.text⟩, rfl, ?_⟩
    exact hinv'.pushSmall hb.1 hfree (by rw [setFrag_mem, hself]; exact href0) (by rw [setFrag_mem, hself]; exact hsize)
  · rw [if_neg (by rw [hsize]; decide), if_pos hsize]
    refine ⟨_, rfl, rfl, ⟨hdata.data, hdata.text⟩, rfl, ?_⟩
    exact hinv'.pushBig hb.1 hfree (by rw [setFrag_mem, hself]; exact href0) (by rw [setFrag_mem, hself]; exact hsize)

include hinv in
theorem HeapInv.counted_less (hnone : (h.frag f).mem = none) (hused : ∀ g, h'.Used l' g ↔ g ≠ f ∧ h.Used l g)
    (hmem : ∀ g, (h'.frag g).mem = (h.frag g).mem) (href : ∀ m, (h'.mem m).ref = (h.mem m).ref) (m : Nat) :
    h'.Counted l' m := by
  refine (hinv.counted m).congr (fun g => ?_) (href m)
  rw [hused, hmem]
  constructor
  · rintro ⟨⟨-, hu⟩, hm⟩
    exact ⟨hu, hm⟩
  rintro ⟨hu, hm⟩
  refine ⟨⟨?_, hu⟩, hm⟩
  rintro rfl
  rw [hnone] at hm
  exact nomatch hm

include hinv in
theorem HeapInv.releaseLocal {p i : Nat} (hf : h.Used l (.loc p i))
    (hnone : (h.frag (.loc p i)).mem = none) :
    let h' := h.setFrag (.loc p i) { h.frag (.loc p i) with state := .fragLocalFree }
    HeapInv h' l ∧ Freed h l (.loc p i) h' l := by
  intro h'
  have hself : h'.frag (.loc p i) = { h.frag (.loc p i) with state := .fragLocalFree } := setFrag_frag_self ..
  have hsame : ∀ g, g ≠ .loc p i → h'.frag g = h.frag g := fun g hg => setFrag_frag_of_ne h hg _
  have hused : ∀ g, h'.Used l g ↔ g ≠ .loc p i ∧ h.Used l g := by
    intro g
    by_cases hg : g = .loc p i
    · subst hg
      rw [Heap.Used, hself]
      simp
    · rw [Heap.used_congr (congrArg Frag.state (hsame g hg)) rfl]
      simp [hg]
  obtain ⟨hmem, horder, hbounds⟩ := @HeapInv.extents h h' l hinv (same_of_update (fun r : Frag => (r.mem, r.rp, r.wp)) rfl rfl)
  refine ⟨{ linked := ?_, nodup := hinv.nodup, glob := hinv.glob, globState := ?_, locState := ?_, locIdx := ?_,
            idle := ?_, counted := hinv.counted_less hnone hused hmem fun _ => rfl, order := horder,
            bounds := hbounds, size := hinv.size, memNodup := hinv.memNodup, small := hinv.small, big := hinv.big },
    ⟨hused, hsame, ⟨fun _ => rfl, rfl⟩, by rw [hself]; exact ⟨rfl, rfl⟩⟩⟩
  · refine hinv.linked.congr fun g hg => congrArg Frag.next (hsame g ?_)
    rintro rfl
    exact hinv.notMem_free hf hg
  · intro k hk
    exact hinv.globState k hk
  · intro q j
    by_cases hg : FragId.loc q j = .loc p i
    · rw [hg, hself]
      simp
    · rw [hsame _ hg]
      exact hinv.locState q j
  · exact fun q j hu => hinv.locIdx q j ((hused _).1 hu).2
  intro g hg
  rw [hmem]
  by_cases heq : g = .loc p i
  · rw [heq, hnone]
  · exact hinv.idle g fun hu => hg ((hused g).2 ⟨heq, hu⟩)

include hinv in
theorem HeapInv.releaseGlob {k : Nat} (hf : h.Used l (.glob k))
    (hnone : (h.frag (.glob k)).mem = none) :
    let h' := { h.setFrag (.glob k) { h.frag (.glob k) with next := h.freeFrag } with freeFrag := some (.glob k) }
    HeapInv h' (.glob k :: l) ∧ Freed h l (.glob k) h' (.glob k :: l) := by
  intro h'
  have hself : h'.frag (.glob k) = { h.frag (.glob k) with next := h.freeFrag } := setFrag_frag_self ..
  have hsame : ∀ g, g ≠ .glob k → h'.frag g = h.frag g := fun g hg => setFrag_frag_of_ne h hg _
  have hused : ∀ g, h'.Used (.glob k :: l) g ↔ g ≠ .glob k ∧ h.Used l g := by
    intro g
    cases g with
    | loc q j =>
      rw [Heap.Used, Heap.Used, hsame (.loc q j) (by simp)]
      simp
    | glob j => simp [Heap.Used, h', and_left_comm]
  obtain ⟨hmem, horder, hbounds⟩ := @HeapInv.extents h h' l hinv (same_of_update (fun r : Frag => (r.mem, r.rp, r.wp)) rfl rfl)
  refine ⟨{ linked := ⟨rfl, ?_⟩, nodup := nodup_cons.2 ⟨hf.2, hinv.nodup⟩, glob := ?_, globState := ?_,
            locState := ?_, locIdx := ?_, idle := ?_,
            counted := hinv.counted_less hnone hused hmem fun _ => rfl, order := horder, bounds := hbounds,
            size := hinv.size, memNodup := hinv.memNodup, small := hinv.small, big := hinv.big },
    ⟨hused, hsame, ⟨fun _ => rfl, rfl⟩, by rw [hself]; exact ⟨rfl, rfl⟩⟩⟩
  · change Linked _ (h'.frag (.glob k)).next l
    rw [hself]
    refine hinv.linked.congr fun g hg => congrArg Frag.next (hsame g ?_)
    rintro rfl
    exact hf.2 hg
  · intro g hg
    rcases mem_cons.1 hg with rfl | hg
    · exact ⟨k, hf.1, rfl⟩
    · exact hinv.glob g hg
  · intro j hj
    by_cases hg : FragId.glob j = .glob k
    · rw [hg, hself]
      exact hinv.globState k hf.1
    · rw [hsame _ hg]
      exact hinv.globState j hj
  · intro q j
    exact hinv.locState q j
  · exact fun q j hu => hinv.locIdx q j ((hused _).1 hu).2
  intro g hg
  rw [hmem]
  by_cases heq : g = .glob k
  · rw [heq, hnone]
  · exact hinv.idle g fun hu => hg ((hused g).2 ⟨heq, hu⟩)

include hinv hf in
/-- **`fragfree`** of a used fragment. -/
theorem fragfree_spec :
    ∃ h' l', fragfree h f = .ok h' ∧ HeapInv h' l' ∧ Freed h l f h' l' := by
  -- what is done once the fragment has no memory
  have hrelease : ∀ h1 : Heap, HeapInv h1 l → h1.Used l f → (h1.frag f).mem = none →
      ∃ h' l', (if (h1.frag f).state = .fragLocalAlloc then
          (Except.ok (h1.setFrag f { h1.frag f with state := .fragLocalFree }) : Except Fault Heap)
        else .ok { h1.setFrag f { h1.frag f with next := h1.freeFrag } with freeFrag := some f }) = .ok h' ∧
        HeapInv h' l' ∧ Freed h1 l f h' l' := by
    intro h1 hinv1 hf1 hnone1
    rcases hinv1.state hf1 with ⟨hstate, p, i, rfl⟩ | ⟨hstate, k, -, rfl⟩
    · obtain ⟨hinv', hfreed⟩ := hinv1.releaseLocal hf1 hnone1
      exact ⟨_, l, by rw [if_pos hstate], hinv', hfreed⟩
    · obtain ⟨hinv', hfreed⟩ := hinv1.releaseGlob hf1 hnone1
      exact ⟨_, .glob k :: l, by rw [if_neg (by rw [hstate]; decide)], hinv', hfreed⟩
  unfold fragfree
  cases hm : (h.frag f).mem with
  | none =>
    obtain ⟨h', l', hrun, hinv', hfreed⟩ := hrelease h hinv hf hm
    exact ⟨h', l', hrun, hinv', hfreed⟩
  | some m =>
    obtain ⟨h1, hmfree, hfrag1, hdata1, hnfrag1, hinv1⟩ := memfree_spec hinv hf hm
    generalize hh2 : h1.setFrag f { h1.frag f with mem := none } = h2 at hinv1
    have hself2 : h2.frag f = { h.frag f with mem := none } := by rw [← hh2, setFrag_frag_self, hfrag1]
    have hsame2 : ∀ g, g ≠ f → h2.frag g = h.frag g := fun g hg => by rw [← hh2, setFrag_frag_of_ne _ hg, hfrag1]
    have hdata2 : SameData h h2 := by
      rw [← hh2]
      exact ⟨hdata1.data, hdata1.text⟩
    have hused2 : ∀ g, h2.Used l g ↔ h.Used l g := by
      intro g
      refine Heap.used_congr ?_ (by rw [← hh2]; exact hnfrag1)
      by_cases hg : g = f
      · rw [hg, hself2]
      · rw [hsame2 g hg]
    obtain ⟨h', l', hrun, hinv', hfreed⟩ := hrelease h2 hinv1 ((hused2 f).2 hf) (by rw [hself2])
    refine ⟨h', l', ?_, hinv', ⟨fun g => by rw [hfreed.used, hused2], fun g hg => (hfreed.same g hg).trans (hsame2 g hg),
      hdata2.trans hfreed.data, ?_⟩⟩
    · simp only [bind, Except.bind, hmfree, pure, Except.pure, hh2]
      exact hrun
    · rw [hfreed.stale.1, hfreed.stale.2, hself2]
      exact ⟨rfl, rfl⟩

end Plan9.Venti.Packets
