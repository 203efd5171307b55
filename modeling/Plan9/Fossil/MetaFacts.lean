/-
The bookkeeping of a metadata block balances: whatever is inserted, deleted and
resized, entries lie apart between the table and `size`, `free` is what they
leave there, and each holds the bytes it was packed with.

The chunks of `metaChunks` are the entries in the order of their offsets. That
they lie apart makes them rise, which is all that the search for a hole and the
compaction need: each entry is moved down over bytes no later one has.
-/
import Mathlib.Algebra.BigOperators.Group.List.Basic
import Plan9.Fossil.Meta

namespace Plan9.Fossil

open Memory List

/-! ## Lists in step -/

variable {n : Int} {mc : MetaChunk} {i : Nat}

variable {α β : Type} {R : α → β → Prop}

theorem forall₂_getElem? {l : List α} {l' : List β} (h : List.Forall₂ R l l') {a : α} (hi : l[i]? = some a) : ∃ b, l'[i]? = some b ∧ R a b := by
  induction h generalizing i with
  | nil => cases hi
  | cons hab _ ih =>
    cases i with
    | zero =>
      cases hi
      exact ⟨_, rfl, hab⟩
    | succ i => exact ih hi

theorem forall₂_of_getElem? {l : List α} {l' : List β} (hlen : l.length = l'.length)
    (h : ∀ (i : Nat) (a : α) (b : β), l[i]? = some a → l'[i]? = some b → R a b) : List.Forall₂ R l l' := by
  induction l generalizing l' with
  | nil =>
    cases l' with
    | nil => exact .nil
    | cons b l' => cases hlen
  | cons a l ih =>
    cases l' with
    | nil => cases hlen
    | cons b l' =>
      refine .cons (h 0 a b rfl rfl) (ih (Nat.succ.inj hlen) fun i x y hx hy => ?_)
      exact h (i + 1) x y hx hy

theorem forall₂_imp_mem {R S : α → β → Prop} {l : List α} {l' : List β} (h : List.Forall₂ R l l')
    (himp : ∀ a ∈ l, ∀ b, R a b → S a b) : List.Forall₂ S l l' := by
  induction h with
  | nil => exact .nil
  | cons hab _ ih =>
    rw [forall_mem_cons] at himp
    exact .cons (himp.1 _ hab) (ih himp.2)

theorem forall₂_eraseIdx {l : List α} {l' : List β} (h : List.Forall₂ R l l')
    (i : Nat) : List.Forall₂ R (l.eraseIdx i) (l'.eraseIdx i) := by
  induction h generalizing i with
  | nil => exact .nil
  | cons hab hrest ih =>
    cases i with
    | zero => exact hrest
    | succ i => exact .cons hab (ih i)

theorem forall₂_insertIdx {l : List α} {l' : List β} (h : List.Forall₂ R l l')
    {a : α} {b : β} (hab : R a b) (i : Nat) : List.Forall₂ R (l.insertIdx i a) (l'.insertIdx i b) := by
  induction h generalizing i with
  | nil =>
    cases i with
    | zero => exact .cons hab .nil
    | succ i => exact .nil
  | cons hxy hrest ih =>
    cases i with
    | zero => exact .cons hab (.cons hxy hrest)
    | succ i => exact .cons hxy (ih i)

theorem insertIdx_eraseIdx_self {α : Type} {l : List α} (h : i < l.length) {a : α} :
    (l.eraseIdx i).insertIdx i a = l.set i a := by
  induction l generalizing i with
  | nil => cases h
  | cons b l ih =>
    cases i with
    | zero => rfl
    | succ i => exact congrArg (b :: ·) (ih (Nat.lt_of_succ_lt_succ h))

/-! ## Entries -/

/-- Two entries do not overlap. -/
def MetaEntry.Apart (a b : MetaEntry) : Prop := a.p + a.size ≤ b.p ∨ b.p + b.size ≤ a.p

theorem MetaEntry.Apart.symm {a b : MetaEntry} (h : a.Apart b) : b.Apart a := Or.symm h

/-- The bytes of all entries. -/
def sizes (index : List MetaEntry) : Nat := (index.map MetaEntry.size).sum

/-- The entry has the bytes of `e`. -/
structure Held (buf : Nat → UInt8) (me : MetaEntry) (e : Packed) : Prop where
  size : me.size = e.bytes.length
  bytes : load buf me.p me.size = e.bytes

variable {buf : Nat → UInt8} {l l' : List MetaEntry} {lo oo : Nat} {mcs : List MetaChunk} {me : MetaEntry}
  {e : Packed}

theorem Held.first (h : Held buf me e) : buf me.p ≠ 0 := by
  obtain ⟨_, hrest⟩ := e.magic
  have hge := e.size_ge
  have hget := @getElem?_load _ buf me.p 0 me.size (by rw [h.size]; omega)
  rw [h.bytes, ← hrest] at hget
  have : buf me.p = 0x1c := (Option.some.inj hget).symm
  rw [this]
  decide

theorem Held.congr {buf' : Nat → UInt8} (h : Held buf me e)
    (heq : ∀ x, me.p ≤ x → x < me.p + me.size → buf' x = buf x) : Held buf' me e :=
  ⟨h.size, (load_congr heq).trans h.bytes⟩

theorem sizes_perm (h : l.Perm l') : sizes l = sizes l' := (h.map _).sum_eq

theorem apart_perm (h : l.Perm l') :
    l.Pairwise MetaEntry.Apart ↔ l'.Pairwise MetaEntry.Apart := h.pairwise_iff fun hab => hab.symm

structure MetaBlock.Inv (mb : MetaBlock) (es : List Packed) : Prop where
  held : List.Forall₂ (Held mb.buf) mb.index es
  inside : ∀ me ∈ mb.index, mb.omin ≤ me.p ∧ (me.p : Int) + me.size ≤ mb.size
  apart : mb.index.Pairwise MetaEntry.Apart
  free : mb.free = mb.size - mb.omin - sizes mb.index
  low : (mb.omin : Int) ≤ mb.size
  high : mb.size ≤ mb.maxsize
  max : mb.maxsize ≤ 2 ^ 16
  count : mb.index.length ≤ mb.maxindex

/-! ## Chunks -/

namespace MetaChunk

def entry (mc : MetaChunk) : MetaEntry := ⟨mc.offset, mc.size⟩

/-- The chunks rise from `lo`. -/
def Rising : Nat → List MetaChunk → Prop
  | _, [] => True
  | lo, mc :: mcs => lo ≤ mc.offset ∧ Rising (mc.offset + mc.size) mcs

theorem rising_ge (h : Rising lo mcs) (hm : mc ∈ mcs) :
    lo ≤ mc.offset := by
  induction mcs generalizing lo with
  | nil => cases hm
  | cons a mcs ih =>
    cases hm with
    | head => exact h.1
    | tail _ hm => exact Nat.le_trans (Nat.le_trans h.1 (Nat.le_add_right _ _)) (ih h.2 hm)

theorem rising_of_sorted (hlo : ∀ mc ∈ mcs, lo ≤ mc.offset)
    (hs : mcs.Pairwise fun a b => a.offset ≤ b.offset) (hap : (mcs.map entry).Pairwise MetaEntry.Apart)
    (hpos : ∀ mc ∈ mcs, 0 < mc.size) : Rising lo mcs := by
  induction mcs generalizing lo with
  | nil => trivial
  | cons mc mcs ih =>
    rw [pairwise_cons] at hs
    rw [map_cons, pairwise_cons] at hap
    rw [forall_mem_cons] at hpos
    refine ⟨hlo mc (by simp), ih (fun b hb => ?_) hs.2 hap.2 hpos.2⟩
    have hle := hs.1 b hb
    have := hpos.2 b hb
    rcases hap.1 b.entry (mem_map_of_mem hb) with h | h
    · exact h
    · have : b.offset + b.size ≤ mc.offset := h
      omega

def total (mcs : List MetaChunk) : Nat := (mcs.map MetaChunk.size).sum

theorem chunksCheck_eq (h : Rising lo mcs) {oo o top : Int} (hoo : oo ≤ lo)
    (htop : ∀ mc ∈ mcs, (mc.offset : Int) + mc.size ≤ top) (hon : o + n ≤ top) :
    ∃ o' n', MetaBlock.chunksCheck mcs oo o n = some (oo + total mcs, o', n') ∧ o' + n' ≤ top := by
  induction mcs generalizing lo oo o n with
  | nil => exact ⟨o, n, by simp [MetaBlock.chunksCheck, total], hon⟩
  | cons mc mcs ih =>
    rw [forall_mem_cons] at htop
    unfold MetaBlock.chunksCheck
    have hoo' : oo + mc.size ≤ (mc.offset + mc.size : Nat) := by
      have := h.1
      omega
    obtain ⟨o', n', heq, hle⟩ := ih h.2 hoo' htop.2 htop.1
    refine ⟨o', n', ?_, hle⟩
    rw [heq]
    simp [total]
    omega

theorem findHole_inl (h : Rising lo mcs) {r : Int}
    (hr : MetaBlock.findHole n mcs lo = .inl r) : (lo : Int) ≤ r ∧
      (∀ mc ∈ mcs, (mc.offset : Int) + mc.size ≤ r ∨ r + n ≤ mc.offset) ∧ ∃ mc ∈ mcs, r + n ≤ mc.offset := by
  induction mcs generalizing lo with
  | nil => cases hr
  | cons mc mcs ih =>
    unfold MetaBlock.findHole at hr
    split at hr
    · cases hr
      refine ⟨Int.le_refl _, fun b hb => Or.inr ?_, mc, by simp, by omega⟩
      have := @rising_ge _ mc.offset (mc :: mcs) ⟨le_rfl, h.2⟩ hb
      omega
    obtain ⟨_, hall, c, hc, hcr⟩ := ih h.2 hr
    have := h.1
    refine ⟨by omega, ?_, c, by simp [hc], hcr⟩
    rw [forall_mem_cons]
    exact ⟨Or.inl (by omega), hall⟩

theorem findHole_inr (h : Rising lo mcs) {r top : Int}
    (hr : MetaBlock.findHole n mcs lo = .inr r) (hlo : (lo : Int) ≤ top)
    (htop : ∀ mc ∈ mcs, (mc.offset : Int) + mc.size ≤ top) : (lo : Int) ≤ r ∧ r ≤ top ∧
      ∀ mc ∈ mcs, (mc.offset : Int) + mc.size ≤ r := by
  induction mcs generalizing lo with
  | nil =>
    cases hr
    exact ⟨Int.le_refl _, hlo, by simp⟩
  | cons mc mcs ih =>
    rw [forall_mem_cons] at htop
    unfold MetaBlock.findHole at hr
    split at hr
    · cases hr
    obtain ⟨_, hle, hall⟩ := ih h.2 hr (by omega) htop.2
    have := h.1
    refine ⟨by omega, hle, ?_⟩
    rw [forall_mem_cons]
    exact ⟨by omega, hall⟩

end MetaChunk

/-! ## Compaction -/

namespace MetaBlock

/-- What stays when entries are moved. -/
structure Same (mb mb' : MetaBlock) : Prop where
  maxsize : mb'.maxsize = mb.maxsize
  maxindex : mb'.maxindex = mb.maxindex
  length : mb'.index.length = mb.index.length

theorem compact1_same (mb : MetaBlock) (oo : Nat) (mc : MetaChunk) : Same mb (mb.compact1 oo mc) := by
  unfold compact1
  split
  · exact ⟨rfl, rfl, length_modify _ _ _⟩
  · exact ⟨rfl, rfl, rfl⟩

/-- One entry is moved down: it has its bytes at the new place, and others and what is outside stay. -/
theorem compact1_spec {mb : MetaBlock} (hoo : oo < 2 ^ 16)
    (hget : mb.index[mc.index]? = some mc.entry) :
    (mb.compact1 oo mc).index[mc.index]? = some ⟨oo, mc.size⟩ ∧
    load (mb.compact1 oo mc).buf oo mc.size = load mb.buf mc.offset mc.size ∧
    (∀ i, i ≠ mc.index → (mb.compact1 oo mc).index[i]? = mb.index[i]?) ∧
    ∀ x, x < oo ∨ oo + mc.size ≤ x → (mb.compact1 oo mc).buf x = mb.buf x := by
  unfold compact1
  split
  · refine ⟨?_, load_memmove, fun i hi => ?_, fun x hx => memmove_outside hx⟩
    · rw [getElem?_modify_eq, hget]
      simp only [MetaChunk.entry, u16, Nat.mod_eq_of_lt hoo]
      rfl
    · exact getElem?_modify_ne _ _ (Ne.symm hi)
  · have h : mc.offset = oo := by omega
    subst h
    exact ⟨hget, rfl, fun _ _ => rfl, fun _ _ => rfl⟩

/-- The chunks are where the table says, each entry once. -/
structure Chunks (mb : MetaBlock) (mcs : List MetaChunk) : Prop where
  entry : ∀ mc ∈ mcs, mb.index[mc.index]? = some mc.entry
  nodup : (mcs.map MetaChunk.index).Nodup

theorem Same.trans {a b c : MetaBlock} (h : Same a b) (h' : Same b c) : Same a c :=
  ⟨h'.maxsize.trans h.maxsize, h'.maxindex.trans h.maxindex, h'.length.trans h.length⟩

/-- What the loop of `mbCompact` did, from `oo` on. -/
structure Compacted (mb : MetaBlock) (mcs : List MetaChunk) (oo : Nat) (mb' : MetaBlock) : Prop where
  same : Same mb mb'
  below : ∀ x < oo, mb'.buf x = mb.buf x
  others : ∀ i, i ∉ mcs.map MetaChunk.index → mb'.index[i]? = mb.index[i]?
  moved : ∀ mc ∈ mcs, ∃ o, mb'.index[mc.index]? = some ⟨o, mc.size⟩ ∧ oo ≤ o ∧
    o + mc.size ≤ oo + MetaChunk.total mcs ∧ load mb'.buf o mc.size = load mb.buf mc.offset mc.size
  apart : ∀ mc ∈ mcs, ∀ mc' ∈ mcs, mc.index ≠ mc'.index → ∀ a b, mb'.index[mc.index]? = some a →
    mb'.index[mc'.index]? = some b → a.Apart b

theorem total_cons (mc : MetaChunk) (mcs : List MetaChunk) :
    MetaChunk.total (mc :: mcs) = mc.size + MetaChunk.total mcs := by
  simp [MetaChunk.total]

/-- The later entries are still in place when one is moved down below them. -/
theorem Chunks.compact1 {mb : MetaBlock} (h : Chunks mb (mc :: mcs))
    (hoo : oo < 2 ^ 16) : Chunks (mb.compact1 oo mc) mcs := by
  have hnd := h.nodup
  rw [map_cons, nodup_cons] at hnd
  refine ⟨fun b hb => ?_, hnd.2⟩
  obtain ⟨-, -, hothers, -⟩ := compact1_spec hoo (h.entry mc (by simp))
  rw [hothers b.index fun heq => hnd.1 (heq ▸ mem_map_of_mem hb)]
  exact h.entry b (by simp [hb])

theorem compactLoop_spec {mb : MetaBlock} (h : Chunks mb mcs)
    (hr : MetaChunk.Rising lo mcs) (hle : oo ≤ lo) (hmax : ∀ mc ∈ mcs, mc.offset < 2 ^ 16) :
    (compactLoop mcs mb oo).2 = oo + MetaChunk.total mcs ∧ Compacted mb mcs oo (compactLoop mcs mb oo).1 := by
  induction mcs generalizing mb oo lo with
  | nil =>
    refine ⟨rfl, ⟨rfl, rfl, rfl⟩, fun _ _ => rfl, fun _ _ => rfl, fun mc hmc => ?_, fun mc hmc => ?_⟩
    · cases hmc
    · cases hmc
  | cons mc mcs ih =>
    rw [forall_mem_cons] at hmax
    have hoo : oo < 2 ^ 16 := by
      have := hr.1
      omega
    have hnd := h.nodup
    rw [map_cons, nodup_cons] at hnd
    obtain ⟨hhead, hload, hothers, hout⟩ := compact1_spec hoo (h.entry mc (by simp))
    obtain ⟨_, hc⟩ := ih (h.compact1 hoo) hr.2 (Nat.add_le_add_right (Nat.le_trans hle hr.1) _) hmax.2
    have hhead' : (compactLoop mcs (mb.compact1 oo mc) (oo + mc.size)).1.index[mc.index]? = some ⟨oo, mc.size⟩ := by
      rw [hc.others _ hnd.1, hhead]
    have htotal := total_cons mc mcs
    unfold compactLoop
    refine ⟨by omega, (compact1_same mb oo mc).trans hc.same, fun x hx => ?_, fun i hi => ?_, ?_, ?_⟩
    · rw [hc.below x (by omega), hout x (Or.inl hx)]
    · rw [map_cons, mem_cons, not_or] at hi
      rw [hc.others i hi.2, hothers i hi.1]
    · rw [forall_mem_cons]
      refine ⟨⟨oo, hhead', le_rfl, by omega, ?_⟩, fun b hb => ?_⟩
      · rw [load_congr fun x _ hx => hc.below x hx, hload]
      obtain ⟨o, hget, hge, _, hb'⟩ := hc.moved b hb
      have hbo := MetaChunk.rising_ge hr.2 hb
      refine ⟨o, hget, by omega, by omega, ?_⟩
      rw [hb', load_congr fun x hx _ => hout x (Or.inr ?_)]
      have := hr.1
      omega
    intro b hb b' hb' hne a c ha hc'
    rw [mem_cons] at hb hb'
    rcases hb with rfl | hb
    · rcases hb' with rfl | hb'
      · exact absurd rfl hne
      obtain ⟨o, hget, hge, -, -⟩ := hc.moved b' hb'
      rw [hhead'] at ha
      rw [hget] at hc'
      cases ha
      cases hc'
      exact Or.inl hge
    rcases hb' with rfl | hb'
    · obtain ⟨o, hget, hge, -, -⟩ := hc.moved b hb
      rw [hhead'] at hc'
      rw [hget] at ha
      cases ha
      cases hc'
      exact Or.inr hge
    · exact hc.apart b hb b' hb' hne a c ha hc'

theorem rising_total_le {top : Nat} (h : MetaChunk.Rising lo mcs) (hlo : lo ≤ top)
    (htop : ∀ mc ∈ mcs, mc.offset + mc.size ≤ top) : lo + MetaChunk.total mcs ≤ top := by
  induction mcs generalizing lo with
  | nil => exact hlo
  | cons mc mcs ih =>
    rw [forall_mem_cons] at htop
    have := ih h.2 htop.1 htop.2
    have := h.1
    rw [total_cons]
    omega

/-- The chunks in the order of the table. -/
def chunks (mb : MetaBlock) : List MetaChunk := mb.index.zipIdx.map fun (me, i) => MetaChunk.mk me.p me.size i

theorem chunks_entry (mb : MetaBlock) : mb.chunks.map MetaChunk.entry = mb.index := by
  unfold chunks
  rw [map_map]
  exact zipIdx_map_fst 0 mb.index

theorem chunks_index (mb : MetaBlock) : mb.chunks.map MetaChunk.index = List.range' 0 mb.index.length := by
  unfold chunks
  rw [map_map]
  exact zipIdx_map_snd 0 mb.index

theorem chunks_getElem? {mb : MetaBlock} (h : mc ∈ mb.chunks) :
    mb.index[mc.index]? = some mc.entry := by
  obtain ⟨⟨_, i⟩, hmem, rfl⟩ := mem_map.mp h
  exact mk_mem_zipIdx_iff_getElem?.mp hmem

/-- What `metaChunks` returns for a block in order. -/
structure Sorted (mb : MetaBlock) (mcs : List MetaChunk) : Prop where
  chunks : Chunks mb mcs
  rising : MetaChunk.Rising mb.omin mcs
  all : ∀ i me, mb.index[i]? = some me → ∃ mc ∈ mcs, mc.index = i ∧ mc.entry = me
  total : MetaChunk.total mcs = sizes mb.index
  top : ∀ mc ∈ mcs, (mc.offset : Int) + mc.size ≤ mb.size

theorem Inv.size_ge {mb : MetaBlock} {es : List Packed} (h : mb.Inv es) (hm : me ∈ mb.index) :
    8 ≤ me.size := by
  obtain ⟨i, hi⟩ := getElem?_of_mem hm
  obtain ⟨e, -, he⟩ := forall₂_getElem? h.held hi
  rw [he.size]
  exact e.size_ge

theorem Inv.sorted {mb : MetaBlock} {es : List Packed} (h : mb.Inv es) :
    Sorted mb (mb.chunks.mergeSort fun a b => a.offset ≤ b.offset) := by
  have hperm := mergeSort_perm mb.chunks fun a b => a.offset ≤ b.offset
  have hentries := hperm.map MetaChunk.entry
  rw [chunks_entry] at hentries
  have hmem : ∀ mc ∈ mb.chunks.mergeSort fun a b => a.offset ≤ b.offset, mc.entry ∈ mb.index := fun mc hmc =>
    hentries.subset (mem_map_of_mem hmc)
  refine ⟨⟨fun mc hmc => chunks_getElem? (hperm.subset hmc), ?_⟩, ?_, fun i me hi => ?_, ?_, fun mc hmc => ?_⟩
  · rw [(hperm.map MetaChunk.index).nodup_iff, chunks_index]
    exact nodup_range'
  · refine MetaChunk.rising_of_sorted (fun mc hmc => (h.inside _ (hmem mc hmc)).1) ?_ ?_ fun mc hmc => ?_
    · have := @pairwise_mergeSort _ (fun a b : MetaChunk => decide (a.offset ≤ b.offset))
        (fun a b c hab hbc => by simp at hab hbc ⊢; omega) (fun a b => by simp; omega) mb.chunks
      exact this.imp fun hab => of_decide_eq_true hab
    · rw [apart_perm hentries]
      exact h.apart
    · have := h.size_ge (hmem mc hmc)
      have heq : mc.entry.size = mc.size := rfl
      omega
  · refine ⟨⟨me.p, me.size, i⟩, hperm.symm.subset ?_, rfl, rfl⟩
    exact mem_map.mpr ⟨(me, i), mk_mem_zipIdx_iff_getElem?.mpr hi, rfl⟩
  · have := sizes_perm hentries
    rw [← this]
    unfold MetaChunk.total sizes
    rw [map_map]
    rfl
  · exact (h.inside _ (hmem mc hmc)).2

theorem Inv.metaChunks {mb : MetaBlock} {es : List Packed} (h : mb.Inv es) :
    ∃ mcs, mb.metaChunks = some mcs ∧ Sorted mb mcs := by
  have hs := h.sorted
  refine ⟨_, ?_, hs⟩
  obtain ⟨o, n, heq, _⟩ := MetaChunk.chunksCheck_eq hs.rising (Int.le_refl _) hs.top
    (show (mb.omin : Int) + 0 ≤ mb.size by have := h.low; omega)
  have hfree := h.free
  have htotal := hs.total
  unfold MetaBlock.metaChunks
  rw [show mb.index.zipIdx.map (fun (me, i) => MetaChunk.mk me.p me.size i) = mb.chunks from rfl]
  dsimp only
  rw [heq]
  dsimp only
  rw [if_neg (by omega), if_neg (by omega)]

section

variable {mb : MetaBlock} {es : List Packed}

theorem compacted_at (hs : Sorted mb mcs) {mb' : MetaBlock}
    (hc : Compacted mb mcs mb.omin mb') {me' : MetaEntry} (hi : mb'.index[i]? = some me') :
    ∃ mc ∈ mcs, mc.index = i ∧ mb.index[i]? = some mc.entry ∧ me'.size = mc.size ∧ mb.omin ≤ me'.p ∧
      me'.p + me'.size ≤ mb.omin + MetaChunk.total mcs ∧
      load mb'.buf me'.p me'.size = load mb.buf mc.offset mc.size := by
  obtain ⟨hlt, -⟩ := List.getElem?_eq_some_iff.mp hi
  rw [hc.same.length] at hlt
  have hi0 := getElem?_eq_getElem hlt
  obtain ⟨mc, hmc, hidx, hentry⟩ := hs.all i _ hi0
  obtain ⟨o, hget, hge, htop, hload⟩ := hc.moved mc hmc
  rw [hidx, hi] at hget
  cases hget
  exact ⟨mc, hmc, hidx, by rw [hi0, hentry], rfl, hge, htop, hload⟩

theorem sizes_eq (hlen : l'.length = l.length)
    (h : ∀ (i : Nat) (a b : MetaEntry), l[i]? = some a → l'[i]? = some b → b.size = a.size) : sizes l' = sizes l := by
  unfold sizes
  congr 1
  apply ext_getElem
  · rw [length_map, length_map, hlen]
  intro i h1 h2
  rw [length_map] at h1 h2
  rw [getElem_map, getElem_map]
  exact h i _ _ (getElem?_eq_getElem h2) (getElem?_eq_getElem h1)

/-- Compaction keeps the entries and leaves nothing free below `size`. -/
theorem Inv.mbCompact (h : mb.Inv es) (hs : Sorted mb mcs) :
    (mb.mbCompact mcs).Inv es ∧ Same mb (mb.mbCompact mcs) ∧
      (mb.mbCompact mcs).size = mb.size - mb.free := by
  have hlow := h.low
  have hhigh := h.high
  have hmax := h.max
  have hfree := h.free
  have hoff : ∀ mc ∈ mcs, mc.offset < 2 ^ 16 := by
    intro mc hmc
    have := hs.top mc hmc
    have := h.size_ge (mem_of_getElem? (hs.chunks.entry mc hmc))
    have heq : mc.entry.size = mc.size := rfl
    omega
  obtain ⟨_, hc⟩ := compactLoop_spec hs.chunks hs.rising le_rfl hoff
  have htotal := hs.total
  have htop := @rising_total_le mb.omin mcs mb.size.toNat hs.rising (by omega) fun mc hmc => by
    have := hs.top mc hmc
    omega
  have hsizes : sizes (compactLoop mcs mb mb.omin).1.index = sizes mb.index := by
    refine sizes_eq hc.same.length fun i a b ha hb => ?_
    obtain ⟨mc, -, -, hentry, hsize, -⟩ := compacted_at hs hc hb
    rw [ha] at hentry
    cases hentry
    exact hsize
  have homin : (mb.mbCompact mcs).omin = mb.omin := by
    unfold MetaBlock.omin
    rw [show (mb.mbCompact mcs).maxindex = mb.maxindex from hc.same.maxindex]
  have hindex : (mb.mbCompact mcs).index = (compactLoop mcs mb mb.omin).1.index := rfl
  have hbuf : (mb.mbCompact mcs).buf = (compactLoop mcs mb mb.omin).1.buf := rfl
  have hsize : (mb.mbCompact mcs).size = (compactLoop mcs mb mb.omin).2 := rfl
  refine ⟨⟨?_, fun me hme => ?_, ?_, ?_, ?_, ?_, ?_, ?_⟩, ⟨hc.same.maxsize, hc.same.maxindex, hc.same.length⟩, by omega⟩
  · refine forall₂_of_getElem? (hc.same.length.trans h.held.length_eq) fun i a b ha hb => ?_
    obtain ⟨mc, -, -, hentry, hsz, -, -, hload⟩ := compacted_at hs hc ha
    obtain ⟨e, he, hheld⟩ := forall₂_getElem? h.held hentry
    rw [hb] at he
    cases he
    exact ⟨hsz.trans hheld.size, hload.trans hheld.bytes⟩
  · obtain ⟨i, hi⟩ := getElem?_of_mem hme
    obtain ⟨mc, -, -, -, -, hge, _, -⟩ := compacted_at hs hc hi
    rw [homin]
    exact ⟨hge, by omega⟩
  · rw [hindex, pairwise_iff_getElem]
    intro i j hi hj hij
    have hi' := getElem?_eq_getElem hi
    have hj' := getElem?_eq_getElem hj
    obtain ⟨mc, hmc, rfl, -⟩ := compacted_at hs hc hi'
    obtain ⟨mc', hmc', rfl, -⟩ := compacted_at hs hc hj'
    exact hc.apart mc hmc mc' hmc' (by omega) _ _ hi' hj'
  · rw [homin, hindex, hsizes, show (mb.mbCompact mcs).free = 0 from rfl]
    omega
  · omega
  · rw [show (mb.mbCompact mcs).maxsize = mb.maxsize from hc.same.maxsize]
    omega
  · rw [show (mb.mbCompact mcs).maxsize = mb.maxsize from hc.same.maxsize]
    exact hmax
  · rw [hindex, hc.same.length, show (mb.mbCompact mcs).maxindex = mb.maxindex from hc.same.maxindex]
    exact h.count

/-! ## Allocation -/

/-- `n` bytes at `p` that no entry has. -/
structure Room (mb : MetaBlock) (p n : Nat) : Prop where
  low : mb.omin ≤ p
  high : (p : Int) + n ≤ mb.maxsize
  clear : ∀ me ∈ mb.index, me.p + me.size ≤ p ∨ p + n ≤ me.p

theorem room_above {o : Int} (hlow : (mb.omin : Int) ≤ o) {n : Nat} (hhigh : o + n ≤ mb.maxsize)
    (hall : ∀ me ∈ mb.index, (me.p : Int) + me.size ≤ o) : Room mb o.toNat n := by
  refine ⟨by omega, by omega, fun me hme => Or.inl ?_⟩
  have := hall me hme
  omega

theorem Inv.room_end (h : mb.Inv es) {n : Nat} (hn : mb.maxsize - mb.size ≥ n) : Room mb mb.size.toNat n :=
  room_above h.low (by omega) fun me hme => (h.inside me hme).2

/-- **Allocation**: the block may be compacted but has the same entries, there is room at the place
returned, and none is returned only if too little is free. -/
theorem Inv.mbAlloc (h : mb.Inv es) (n : Nat) :
    (mb.mbAlloc n).1.Inv es ∧
    (mb.mbAlloc n).1.maxindex = mb.maxindex ∧
    (∀ p, (mb.mbAlloc n).2 = some p → Room (mb.mbAlloc n).1 p n) ∧
    ((mb.mbAlloc n).2 = none → mb.maxsize - mb.size + mb.free < n) := by
  unfold MetaBlock.mbAlloc
  split
  · rename_i hend
    refine ⟨h, rfl, fun p hp => ?_, fun hnone => by cases hnone⟩
    cases hp
    exact h.room_end hend
  split
  · rename_i hfew
    exact ⟨h, rfl, fun p hp => (by cases hp), fun _ => hfew⟩
  obtain ⟨mcs, hmcs, hs⟩ := h.metaChunks
  have hentry : ∀ me ∈ mb.index, ∃ mc ∈ mcs, mc.entry = me := by
    intro me hme
    obtain ⟨i, hi⟩ := getElem?_of_mem hme
    obtain ⟨mc, hmc, -, heq⟩ := hs.all i me hi
    exact ⟨mc, hmc, heq⟩
  rw [hmcs]
  dsimp only
  split
  · rename_i o hhole
    obtain ⟨hlow, hall, mc, hmc, _⟩ := MetaChunk.findHole_inl hs.rising hhole
    refine ⟨h, rfl, fun p hp => ?_, fun hnone => by cases hnone⟩
    cases hp
    have := hs.top mc hmc
    have := h.high
    refine @Room.mk mb _ n (by omega) (by omega) fun me hme => ?_
    obtain ⟨b, hb, rfl⟩ := hentry me hme
    have := hall b hb
    simp only [MetaChunk.entry]
    omega
  rename_i o hhole
  obtain ⟨hlow, -, hall⟩ := MetaChunk.findHole_inr hs.rising hhole h.low hs.top
  split
  · refine ⟨h, rfl, fun p hp => ?_, fun hnone => by cases hnone⟩
    cases hp
    refine room_above hlow (by omega) fun me hme => ?_
    obtain ⟨b, hb, rfl⟩ := hentry me hme
    exact hall b hb
  obtain ⟨hc, hsame, _⟩ := h.mbCompact hs
  have hmax := hsame.maxsize
  split
  · omega
  · refine ⟨hc, hsame.maxindex, fun p hp => ?_, fun hnone => by cases hnone⟩
    cases hp
    exact hc.room_end (by omega)

/-! ## Deletion and insertion -/

theorem Inv.meUnpack (h : mb.Inv es) (hi : i < es.length) :
    ∃ me, mb.index[i]? = some me ∧ mb.meUnpack i = some me := by
  have hlt : i < mb.index.length := by
    rw [h.held.length_eq]
    exact hi
  have hget := getElem?_eq_getElem hlt
  refine ⟨_, hget, ?_⟩
  unfold MetaBlock.meUnpack
  rw [hget]
  exact if_pos (h.size_ge (getElem_mem hlt))

theorem Inv.apart_others (h : mb.Inv es) (hi : mb.index[i]? = some me) :
    (me :: mb.index.eraseIdx i).Perm mb.index ∧ ∀ b ∈ mb.index.eraseIdx i, me.Apart b := by
  obtain ⟨hlt, rfl⟩ := List.getElem?_eq_some_iff.mp hi
  have hperm := getElem_cons_eraseIdx_perm hlt
  have hap := (apart_perm hperm).mpr h.apart
  rw [pairwise_cons] at hap
  exact ⟨hperm, hap.1⟩

theorem sizes_cons (me : MetaEntry) (l : List MetaEntry) : sizes (me :: l) = me.size + sizes l := by
  simp [sizes]

/-- **Deletion**: the other entries stay as they are. -/
theorem Inv.mbDelete (h : mb.Inv es) (hi : i < es.length) :
    ∃ mb', mb.mbDelete i = some mb' ∧ mb'.Inv (es.eraseIdx i) ∧ mb'.index = mb.index.eraseIdx i ∧
      mb'.maxsize = mb.maxsize ∧ mb'.maxindex = mb.maxindex := by
  obtain ⟨me, hget, hunpack⟩ := h.meUnpack hi
  obtain ⟨hperm, hap⟩ := h.apart_others hget
  have hmem := mem_of_getElem? hget
  obtain ⟨_, _⟩ := h.inside me hmem
  have hfree := h.free
  have hhigh := h.high
  have hsizes := sizes_perm hperm
  rw [sizes_cons] at hsizes
  have hsub : ∀ b ∈ mb.index.eraseIdx i, b ∈ mb.index := fun b hb => mem_of_mem_eraseIdx hb
  have hheld : List.Forall₂ (Held (memset mb.buf me.p 0 me.size)) (mb.index.eraseIdx i) (es.eraseIdx i) := by
    refine forall₂_imp_mem (forall₂_eraseIdx h.held i) fun b hb e he => he.congr fun x hx hx' => memset_outside ?_
    have := hap b hb
    unfold MetaEntry.Apart at this
    omega
  have hpair : (mb.index.eraseIdx i).Pairwise MetaEntry.Apart := h.apart.sublist (eraseIdx_sublist _ _)
  have hlen : (mb.index.eraseIdx i).length ≤ mb.maxindex := Nat.le_trans (eraseIdx_sublist _ _).length_le h.count
  unfold MetaBlock.mbDelete
  rw [hunpack]
  dsimp only
  split
  · refine ⟨_, rfl, ⟨hheld, fun b hb => ?_, hpair, ?_, ?_, ?_, h.max, hlen⟩, rfl, rfl, rfl⟩
    · -- what ends below `size` and not in the last entry ends before it
      have hb' := h.inside b (hsub b hb)
      have hap' := hap b hb
      have hsz := h.size_ge (hsub b hb)
      unfold MetaEntry.Apart at hap'
      exact ⟨hb'.1, by dsimp only; omega⟩
    · change mb.free = mb.size - me.size - mb.omin - sizes (mb.index.eraseIdx i)
      omega
    · change (mb.omin : Int) ≤ mb.size - me.size
      omega
    · change mb.size - me.size ≤ mb.maxsize
      omega
  · refine ⟨_, rfl, ⟨hheld, fun b hb => h.inside b (hsub b hb), hpair, ?_, h.low, h.high, h.max, hlen⟩, rfl, rfl, rfl⟩
    change mb.free + me.size = mb.size - mb.omin - sizes (mb.index.eraseIdx i)
    omega

/-- **Insertion**: into room no entry has, after the bytes were packed there. -/
theorem Inv.mbInsert (h : mb.Inv es) {p : Nat} (hroom : Room mb p e.bytes.length)
    (hi : i ≤ es.length) (hfull : es.length < mb.maxindex) :
    ∃ mb', ({ mb with buf := store mb.buf p e.bytes } : MetaBlock).mbInsert i ⟨p, u16 e.bytes.length⟩ = some mb' ∧
      mb'.Inv (es.insertIdx i e) ∧ mb'.maxsize = mb.maxsize ∧ mb'.maxindex = mb.maxindex := by
  have hlen := h.held.length_eq
  have hmax := h.max
  have hge := e.size_ge
  have hp : u16 p = p := Nat.mod_eq_of_lt (by have := hroom.high; omega)
  have hn : u16 e.bytes.length = e.bytes.length := Nat.mod_eq_of_lt e.size_lt
  have hperm : (mb.index.insertIdx i ⟨p, e.bytes.length⟩).Perm (⟨p, e.bytes.length⟩ :: mb.index) :=
    perm_insertIdx _ _ (by omega)
  have hsizes := sizes_perm hperm
  rw [sizes_cons] at hsizes
  dsimp only at hsizes
  have hheld : List.Forall₂ (Held (store mb.buf p e.bytes)) (mb.index.insertIdx i ⟨p, e.bytes.length⟩)
      (es.insertIdx i e) := by
    refine forall₂_insertIdx (forall₂_imp_mem h.held fun b hb e' he => he.congr fun x hx hx' => ?_)
      ⟨rfl, load_store⟩ i
    have := hroom.clear b hb
    exact store_outside (by omega)
  have hpair : (mb.index.insertIdx i ⟨p, e.bytes.length⟩).Pairwise MetaEntry.Apart := by
    rw [apart_perm hperm, pairwise_cons]
    exact ⟨fun b hb => (hroom.clear b hb).symm, h.apart⟩
  have hcount : (mb.index.insertIdx i ⟨p, e.bytes.length⟩).length ≤ mb.maxindex := by
    rw [length_insertIdx_of_le_length (by omega)]
    omega
  have hinside : ∀ b ∈ mb.index.insertIdx i ⟨p, e.bytes.length⟩, b = ⟨p, e.bytes.length⟩ ∨ b ∈ mb.index :=
    fun b hb => mem_cons.mp (hperm.subset hb)
  have hfree := h.free
  have hplow := hroom.low
  have hphigh := hroom.high
  unfold MetaBlock.mbInsert
  dsimp only
  rw [if_pos (by omega), hn, hn, hp]
  split
  · refine ⟨_, rfl, ⟨hheld, fun b hb => ?_, hpair, ?_, ?_, ?_, h.max, hcount⟩, rfl, rfl⟩
    · rcases hinside b hb with rfl | hb
      · exact ⟨hplow, Int.le_refl _⟩
      have := h.inside b hb
      refine ⟨this.1, ?_⟩
      change (b.p : Int) + b.size ≤ p + e.bytes.length
      omega
    · change mb.free - (mb.size - p) = p + e.bytes.length - mb.omin - sizes (mb.index.insertIdx i ⟨p, e.bytes.length⟩)
      omega
    · change (mb.omin : Int) ≤ p + e.bytes.length
      omega
    · exact hphigh
  refine ⟨_, rfl, ⟨hheld, fun b hb => ?_, hpair, ?_, h.low, h.high, h.max, hcount⟩, rfl, rfl⟩
  · rcases hinside b hb with rfl | hb
    · refine ⟨hplow, ?_⟩
      change (p : Int) + e.bytes.length ≤ mb.size
      omega
    · exact h.inside b hb
  · change mb.free - e.bytes.length = mb.size - mb.omin - sizes (mb.index.insertIdx i ⟨p, e.bytes.length⟩)
    omega

/-! ## Resizing -/

theorem zeros_eq {p left x : Nat} (hp : p ≤ x) (hx : x < p + zeros buf p left) : buf x = 0 := by
  induction left generalizing p with
  | zero =>
    unfold zeros at hx
    omega
  | succ left ih =>
    unfold zeros at hx
    split at hx
    · rename_i h0
      by_cases heq : p = x
      · rw [← heq]
        exact h0
      · exact @ih (p + 1) (by omega) (by omega)
    · omega

theorem zeros_le (buf : Nat → UInt8) (p left : Nat) : zeros buf p left ≤ left := by
  induction left generalizing p with
  | zero => exact le_rfl
  | succ left ih =>
    unfold zeros
    split
    · exact Nat.succ_le_succ (ih _)
    · omega

/-- Room but for the entry at `i`. -/
def RoomBut (mb : MetaBlock) (i p n : Nat) : Prop := Room { mb with index := mb.index.eraseIdx i } p n

theorem Inv.room_zeros (h : mb.Inv es) (hget : mb.index[i]? = some me) {n : Nat}
    (hn : n ≤ me.size + zeros mb.buf (me.p + me.size) (mb.maxsize - (me.p + me.size : Nat)).toNat) :
    RoomBut mb i me.p n := by
  obtain ⟨-, hap⟩ := h.apart_others hget
  have hin := h.inside me (mem_of_getElem? hget)
  have hz := zeros_le mb.buf (me.p + me.size) (mb.maxsize - (me.p + me.size : Nat)).toNat
  have hhigh := h.high
  refine ⟨hin.1, ?_, fun b hb => ?_⟩
  · change (me.p : Int) + n ≤ mb.maxsize
    omega
  rcases hap b hb with hab | hba
  · right
    obtain ⟨j, hj⟩ := getElem?_of_mem (mem_of_mem_eraseIdx hb)
    obtain ⟨e, -, he⟩ := forall₂_getElem? h.held hj
    by_contra hlt
    have hin0 : b.p < me.p + me.size +
        zeros mb.buf (me.p + me.size) (mb.maxsize - (me.p + me.size : Nat)).toNat := by omega
    exact he.first (zeros_eq hab hin0)
  · exact Or.inl hba

theorem Inv.mbResize (h : mb.Inv es) (hget : mb.index[i]? = some me) (n : Nat) :
    (mb.mbResize me n).1.Inv es ∧ (mb.mbResize me n).1.maxindex = mb.maxindex ∧
    ∀ me', (mb.mbResize me n).2 = some me' → me'.size = u16 n ∧ RoomBut (mb.mbResize me n).1 i me'.p n := by
  unfold MetaBlock.mbResize
  split
  · refine ⟨h, rfl, fun me' hme => ?_⟩
    cases hme
    exact ⟨rfl, h.room_zeros hget (by omega)⟩
  dsimp only
  split
  · refine ⟨h, rfl, fun me' hme => ?_⟩
    cases hme
    exact ⟨rfl, h.room_zeros hget (by omega)⟩
  obtain ⟨hinv, hmi, hroom, -⟩ := h.mbAlloc n
  cases halloc : mb.mbAlloc n with
  | mk mb1 r =>
    rw [halloc] at hinv hmi hroom
    cases r with
    | none => exact ⟨hinv, hmi, fun me' hme => by cases hme⟩
    | some p =>
      refine ⟨hinv, hmi, fun me' hme => ?_⟩
      cases hme
      have hr := hroom p rfl
      exact ⟨rfl, hr.low, hr.high, fun b hb => hr.clear b (mem_of_mem_eraseIdx hb)⟩

end

end MetaBlock

end Plan9.Fossil
