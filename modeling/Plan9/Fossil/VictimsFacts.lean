/-
The heap of victims is a heap.

An operation moves a hole: `Seated` says that every block but the one in hand is where its
field says, outside the hole, and `Heap.Hole` is the order around it. Between operations
the whole is `Indexed` and `Heap.Ordered`. The clock does not move blocks; that it keeps
their order is about times (`key_le`): within `2 ^ 32` ticks the keys compare as the times
of last use do.
-/
import Plan9.Fossil.Victims
import Plan9.Lib.Heap

namespace Plan9.Fossil

open Function

open Heap (Ordered Hole UpHole DownHole)

namespace Victims

variable {c c' : Victims} {b x i hole fuel : Nat}

/-- The keys as numbers. -/
def rank (c : Victims) (b : Nat) : Nat := (c.key b).toNat

@[simp] theorem put_nheap : (c.put i b).nheap = c.nheap := rfl
@[simp] theorem put_key : (c.put i b).key = c.key := rfl
@[simp] theorem put_rank : (c.put i b).rank = c.rank := rfl

theorem key_le_iff {b b' : Nat} : c.key b ≤ c.key b' ↔ c.rank b ≤ c.rank b' := UInt32.le_iff_toNat_le

/-- Every block in the heap is where its field says. -/
def Indexed (c : Victims) : Prop := ∀ b i, c.bheap b = some i ↔ i < c.nheap ∧ c.heap i = b

/-- So it is but for the hole and `x`, which is not in the heap. -/
structure Seated (c : Victims) (hole x : Nat) : Prop where
  hole_lt : hole < c.nheap
  apart : ∀ i, i < c.nheap → i ≠ hole → c.heap i ≠ x
  found : ∀ b i, b ≠ x → (c.bheap b = some i ↔ i < c.nheap ∧ i ≠ hole ∧ c.heap i = b)

/-- The clock and the times of use stay, and the heap does not grow. -/
def SameTimes (c c' : Victims) : Prop := c'.now = c.now ∧ c'.used = c.used ∧ c'.nheap = c.nheap

theorem SameTimes.rank (h : SameTimes c c') : c'.rank = c.rank := by
  obtain ⟨hnow, hused, -⟩ := h
  funext b
  simp only [Victims.rank, key, hnow, hused]

theorem Seated.move (hs : Seated c hole x) {p : Nat} (hp : p < c.nheap) (hne : p ≠ hole) :
    Seated (c.put hole (c.heap p)) p x := by
  have hbb : c.heap p ≠ x := hs.apart p hp hne
  have hat : c.bheap (c.heap p) = some p := (hs.found _ p hbb).2 ⟨hp, hne, rfl⟩
  refine ⟨hp, fun i hi hip => ?_, fun b i hb => ?_⟩
  · by_cases hih : i = hole
    · simp only [put, hih, update_self]
      exact hbb
    · simp only [put, update_of_ne hih]
      exact hs.apart i hi hih
  by_cases hbp : b = c.heap p
  · simp only [put, hbp, update_self, Option.some.injEq]
    constructor
    · intro hi
      rw [← hi, update_self]
      exact ⟨hs.hole_lt, Ne.symm hne, rfl⟩
    rintro ⟨hi, hip, hheap⟩
    by_contra hih
    rw [update_of_ne (Ne.symm hih)] at hheap
    have hsome := (hs.found _ i hbb).2 ⟨hi, Ne.symm hih, hheap⟩
    rw [hat] at hsome
    exact hip (Option.some.inj hsome).symm
  simp only [put, update_of_ne hbp]
  rw [hs.found b i hb]
  constructor
  · rintro ⟨hi, hih, hheap⟩
    rw [update_of_ne hih]
    refine ⟨hi, fun hip => hbp ?_, hheap⟩
    rw [← hheap, hip]
  rintro ⟨hi, hip, hheap⟩
  by_cases hih : i = hole
  · rw [hih, update_self] at hheap
    exact absurd hheap.symm hbp
  · rw [update_of_ne hih] at hheap
    exact ⟨hi, hih, hheap⟩

theorem Seated.fill (hs : Seated c hole x) : Indexed (c.put hole x) := by
  intro b i
  by_cases hbx : b = x
  · simp only [put, hbx, update_self, Option.some.injEq]
    constructor
    · intro hi
      rw [← hi, update_self]
      exact ⟨hs.hole_lt, rfl⟩
    rintro ⟨hi, hheap⟩
    by_contra hih
    rw [update_of_ne (Ne.symm hih)] at hheap
    exact hs.apart i hi (Ne.symm hih) hheap
  simp only [put, update_of_ne hbx]
  rw [hs.found b i hbx]
  constructor
  · rintro ⟨hi, hih, hheap⟩
    rw [update_of_ne hih]
    exact ⟨hi, hheap⟩
  rintro ⟨hi, hheap⟩
  by_cases hih : i = hole
  · rw [hih, update_self] at hheap
    exact absurd hheap.symm hbx
  · rw [update_of_ne hih] at hheap
    exact ⟨hi, hih, hheap⟩

theorem Seated.put (hs : Seated c hole x) : Seated (c.put hole x) hole x := by
  refine ⟨hs.hole_lt, fun i hi hih => ?_, fun b i hb => ?_⟩
  · simp only [Victims.put, update_of_ne hih]
    exact hs.apart i hi hih
  simp only [Victims.put, update_of_ne hb]
  rw [hs.found b i hb]
  constructor
  · rintro ⟨hi, hih, hheap⟩
    rw [update_of_ne hih]
    exact ⟨hi, hih, hheap⟩
  · rintro ⟨hi, hih, hheap⟩
    rw [update_of_ne hih] at hheap
    exact ⟨hi, hih, hheap⟩

/-! ## Sifts -/

/-- The blocks of the heap have `b` beside them. -/
def Joined (b : Nat) (c c' : Victims) : Prop := ∀ b', (∃ i, c'.bheap b' = some i) ↔ b' = b ∨ ∃ i, c.bheap b' = some i

theorem joined_put (c : Victims) (i b : Nat) : Joined b c (c.put i b) := by
  intro b'
  by_cases hb : b' = b
  · simp [put, hb]
  · simp only [put, update_of_ne hb]
    exact ⟨.inr, fun h => h.resolve_left hb⟩

theorem Joined.of_put {i b' : Nat} (hb' : ∃ j, c.bheap b' = some j) (h : Joined b (c.put i b') c') : Joined b c c' := by
  intro q
  rw [h q, joined_put c i b' q]
  constructor
  · rintro (hq | hq | hq)
    · exact .inl hq
    · exact .inr (hq ▸ hb')
    · exact .inr hq
  · rintro (hq | hq)
    · exact .inl hq
    · exact .inr (.inr hq)

/-- What a sift leaves, but for the order. -/
structure Kept (b : Nat) (c c' : Victims) : Prop where
  times : SameTimes c c'
  indexed : Indexed c'
  joined : Joined b c c'

/-- What a sift leaves. -/
structure Sifted (b : Nat) (c c' : Victims) : Prop extends Kept b c c' where
  ordered : Ordered c.rank c'.heap c'.nheap

theorem Seated.kept (hs : Seated c hole x) : Kept x c (c.put hole x) := ⟨⟨rfl, rfl, rfl⟩, hs.fill, joined_put c hole x⟩

theorem Seated.done (hs : Seated c hole x) (ho : Ordered c.rank (update c.heap hole x) c.nheap) :
    Sifted x c (c.put hole x) := ⟨hs.kept, ho⟩

theorem Kept.of_put {i b' : Nat} (hb' : ∃ j, c.bheap b' = some j) (h : Kept b (c.put i b') c') : Kept b c c' :=
  ⟨h.times, h.indexed, h.joined.of_put hb'⟩

theorem Sifted.of_put {i b' : Nat} (hb' : ∃ j, c.bheap b' = some j) (h : Sifted b (c.put i b') c') : Sifted b c c' :=
  ⟨h.toKept.of_put hb', h.ordered⟩

theorem Seated.heaped (hs : Seated c hole x) {p : Nat} (hp : p < c.nheap) (hne : p ≠ hole) : ∃ j, c.bheap (c.heap p) = some j :=
  ⟨p, (hs.found _ p (hs.apart p hp hne)).2 ⟨hp, hne, rfl⟩⟩

theorem upHeapLoop_keeps (hfuel : i ≤ fuel) (hs : Seated c i b) {j : Nat} {c' : Victims}
    (hrun : upHeapLoop b fuel i c = (j, c')) : j ≤ i ∧ Kept b c (c'.put j b) := by
  induction fuel generalizing i c with
  | zero =>
    cases hrun
    exact ⟨le_refl _, hs.kept⟩
  | succ fuel ih =>
    rw [upHeapLoop] at hrun
    by_cases h0 : i = 0
    · rw [if_pos h0] at hrun
      cases hrun
      exact ⟨le_refl _, hs.kept⟩
    rw [if_neg h0] at hrun
    have hlt := hs.hole_lt
    by_cases hstop : c.key b ≥ c.key (c.heap ((i - 1) / 2))
    · rw [if_pos hstop] at hrun
      cases hrun
      exact ⟨le_refl _, hs.kept⟩
    · rw [if_neg hstop] at hrun
      obtain ⟨hj, hrest⟩ := ih (show (i - 1) / 2 ≤ fuel by omega) (hs.move (by omega) (by omega)) hrun
      exact ⟨by omega, hrest.of_put (hs.heaped (by omega) (by omega))⟩

theorem upHeapLoop_orders (hfuel : i ≤ fuel) (hlt : i < c.nheap) (hu : UpHole c.rank c.heap c.nheap i b) {j : Nat}
    {c' : Victims} (hrun : upHeapLoop b fuel i c = (j, c')) : Ordered c.rank (c'.put j b).heap c.nheap := by
  induction fuel generalizing i c with
  | zero =>
    cases hrun
    exact hu.fill (fun hpos => by omega)
  | succ fuel ih =>
    rw [upHeapLoop] at hrun
    by_cases h0 : i = 0
    · rw [if_pos h0] at hrun
      cases hrun
      exact hu.fill (fun hpos => by omega)
    rw [if_neg h0] at hrun
    have hpos : 0 < i := Nat.pos_of_ne_zero h0
    by_cases hstop : c.key b ≥ c.key (c.heap ((i - 1) / 2))
    · rw [if_pos hstop] at hrun
      cases hrun
      exact hu.fill (fun _ => key_le_iff.1 hstop)
    rw [if_neg hstop] at hrun
    have hbelow : c.rank b ≤ c.rank (c.heap (Heap.parent i)) := by
      rcases Nat.le_total (c.rank b) (c.rank (c.heap (Heap.parent i))) with h | h
      · exact h
      · exact absurd (key_le_iff.2 h) hstop
    have hlt' : (i - 1) / 2 < (c.put i (c.heap ((i - 1) / 2))).nheap := by rw [put_nheap]; omega
    exact ih (c := c.put i (c.heap ((i - 1) / 2))) (by omega) hlt' (hu.up hpos hlt hbelow) hrun

theorem upHeap_keeps (hs : Seated c i b) : (upHeap i b c).1 ≤ i ∧ Kept b c (upHeap i b c).2 := by
  exact upHeapLoop_keeps (le_refl i) hs rfl

theorem upHeap_sifts (hs : Seated c i b) (hu : UpHole c.rank c.heap c.nheap i b) : Sifted b c (upHeap i b c).2 := by
  have hk := (upHeap_keeps hs).2
  refine ⟨hk, ?_⟩
  rw [hk.times.2.2, upHeap]
  exact upHeapLoop_orders (le_refl i) hs.hole_lt hu rfl

theorem downHeapLoop_sifts (hfuel : c.nheap ≤ i + fuel) (hs : Seated c i b) (hd : DownHole c.rank c.heap c.nheap i b) :
    ∀ {j : Nat} {c' : Victims}, downHeapLoop b fuel i c = (j, c') → Sifted b c (c'.put j b) := by
  induction fuel generalizing i c with
  | zero =>
    have hlt := hs.hole_lt
    omega
  | succ fuel ih =>
    intro j c' hrun
    rw [downHeapLoop] at hrun
    by_cases hleaf : 2 * i + 1 ≥ c.nheap
    · rw [if_pos hleaf] at hrun
      cases hrun
      refine hs.done (hd.fill (fun q hq hqn hp => ?_))
      have hchild := Heap.parent_eq hq hp
      omega
    rw [if_neg hleaf] at hrun
    -- the child that is taken is not above the other
    obtain ⟨k, hk⟩ : ∃ k, k = if 2 * i + 1 + 1 < c.nheap ∧ c.key (c.heap (2 * i + 1)) > c.key (c.heap (2 * i + 1 + 1))
        then 2 * i + 1 + 1 else 2 * i + 1 := ⟨_, rfl⟩
    rw [← hk] at hrun
    have hchild : k < c.nheap ∧ 0 < k ∧ Heap.parent k = i ∧
        ∀ q, 0 < q → q < c.nheap → Heap.parent q = i → c.rank (c.heap k) ≤ c.rank (c.heap q) := by
      by_cases hright : 2 * i + 1 + 1 < c.nheap ∧ c.key (c.heap (2 * i + 1)) > c.key (c.heap (2 * i + 1 + 1))
      · rw [if_pos hright] at hk
        refine ⟨by omega, by omega, by rw [hk]; exact Heap.parent_right i, fun q hq hqn hp => ?_⟩
        rcases Heap.parent_eq hq hp with hq1 | hq2
        · rw [hk, hq1]
          exact key_le_iff.1 (UInt32.le_of_lt hright.2)
        · rw [hk, hq2]
      rw [if_neg hright] at hk
      refine ⟨by omega, by omega, by rw [hk]; exact Heap.parent_left i, fun q hq hqn hp => ?_⟩
      rcases Heap.parent_eq hq hp with hq1 | hq2
      · rw [hk, hq1]
      · rw [hk, hq2]
        exact key_le_iff.1 (UInt32.not_lt.1 (fun hgt => hright ⟨by omega, hgt⟩))
    obtain ⟨hkn, hk0, hpk, hleast⟩ := hchild
    have hki := Heap.parent_lt hk0
    by_cases hstop : c.key b ≤ c.key (c.heap k)
    · rw [if_pos hstop] at hrun
      cases hrun
      exact hs.done (hd.fill (fun q hq hqn hp => le_trans (key_le_iff.1 hstop) (hleast q hq hqn hp)))
    rw [if_neg hstop] at hrun
    have habove : c.rank (c.heap k) ≤ c.rank b := by
      rcases Nat.le_total (c.rank (c.heap k)) (c.rank b) with h | h
      · exact h
      · exact absurd (key_le_iff.2 h) hstop
    have hrest := ih (show (c.put i (c.heap k)).nheap ≤ k + fuel by rw [put_nheap]; omega) (hs.move hkn (by omega))
      (hd.down hk0 hkn hpk hleast habove) hrun
    exact hrest.of_put (hs.heaped hkn (by omega))

theorem downHeap_sifts (hs : Seated c i b) (hd : DownHole c.rank c.heap c.nheap i b) : Sifted b c (downHeap i b c).2 := by
  exact downHeapLoop_sifts (by omega) hs hd rfl

/-! ## Operations -/

theorem Indexed.seated (hi : Indexed c) (hb : c.bheap b = none) : Seated { c with nheap := c.nheap + 1 } c.nheap b := by
  refine ⟨Nat.lt_succ_self _, fun i hlt hne heq => ?_, fun b' i hne => ?_⟩
  · have hsome := (hi b i).2 ⟨by dsimp only at hlt; omega, heq⟩
    rw [hb] at hsome
    cases hsome
  dsimp only
  rw [hi b' i]
  constructor
  · rintro ⟨hlt, heq⟩
    exact ⟨by omega, by omega, heq⟩
  · rintro ⟨hlt, hne, heq⟩
    exact ⟨by omega, heq⟩

theorem heapIns_some (h : heapIns b c = some c') :
    c.bheap b = none ∧ c' = (upHeap c.nheap b { c with nheap := c.nheap + 1 }).2 := by
  rw [heapIns] at h
  by_cases hb : c.bheap b = none
  · rw [if_pos hb] at h
    exact ⟨hb, (Option.some.inj h).symm⟩
  · rw [if_neg hb] at h
    cases h

theorem heapIns_keeps (hi : Indexed c) (h : heapIns b c = some c') : Kept b { c with nheap := c.nheap + 1 } c' := by
  obtain ⟨hb, rfl⟩ := heapIns_some h
  exact (upHeap_keeps (hi.seated hb)).2

theorem heapIns_sifts (hi : Indexed c) (ho : Ordered c.rank c.heap c.nheap) (h : heapIns b c = some c') :
    Sifted b { c with nheap := c.nheap + 1 } c' := by
  obtain ⟨hb, rfl⟩ := heapIns_some h
  exact upHeap_sifts (hi.seated hb) (ho.upHole b)

@[simp] theorem takeOut_nheap : (c.takeOut b).nheap = c.nheap - 1 := rfl
@[simp] theorem takeOut_heap : (c.takeOut b).heap = c.heap := rfl
@[simp] theorem takeOut_rank : (c.takeOut b).rank = c.rank := rfl

theorem takeOut_bheap_self : (c.takeOut b).bheap b = none := update_self ..

theorem takeOut_bheap_of_ne {b' : Nat} (h : b' ≠ b) : (c.takeOut b).bheap b' = c.bheap b' := update_of_ne h ..

/-- The blocks of the heap are those that were there, but for `b`. -/
def Left (b : Nat) (c c' : Victims) : Prop := ∀ b', (∃ i, c'.bheap b' = some i) ↔ b' ≠ b ∧ ∃ i, c.bheap b' = some i

theorem left_takeOut (c : Victims) (b : Nat) : Left b c (c.takeOut b) := by
  intro b'
  by_cases hb : b' = b
  · rw [hb, takeOut_bheap_self]
    simp
  · rw [takeOut_bheap_of_ne hb]
    exact ⟨fun h => ⟨hb, h⟩, fun h => h.2⟩

theorem Indexed.unique (hi : Indexed c) {i j : Nat} (hin : i < c.nheap) (hjn : j < c.nheap) (h : c.heap i = c.heap j) : i = j := by
  have hsome := (hi _ i).2 ⟨hin, rfl⟩
  rw [(hi _ j).2 ⟨hjn, h.symm⟩] at hsome
  exact (Option.some.inj hsome).symm

theorem Indexed.takeOut_last (hi : Indexed c) {si : Nat} (hb : c.bheap b = some si) (hlast : si = c.nheap - 1) :
    Indexed (c.takeOut b) := by
  obtain ⟨hlt, hsi⟩ := (hi b si).1 hb
  intro b' i
  by_cases hbb : b' = b
  · rw [hbb, takeOut_bheap_self]
    refine ⟨fun h => (by cases h), ?_⟩
    rintro ⟨hil, heq⟩
    rw [takeOut_nheap] at hil
    have hsame := hi.unique (by omega) hlt (heq.trans hsi.symm)
    omega
  rw [takeOut_bheap_of_ne hbb, hi b' i, takeOut_nheap, takeOut_heap]
  refine ⟨fun h => ⟨?_, h.2⟩, fun h => ⟨by omega, h.2⟩⟩
  obtain ⟨hil, heq⟩ := h
  by_contra hge
  exact hbb (by rw [← heq, show i = si by omega, hsi])

theorem Indexed.takeOut_seated (hi : Indexed c) {si : Nat} (hb : c.bheap b = some si) (hlast : si ≠ c.nheap - 1) :
    Seated (c.takeOut b) si (c.heap (c.nheap - 1)) := by
  obtain ⟨hlt, hsi⟩ := (hi b si).1 hb
  refine ⟨by rw [takeOut_nheap]; omega, fun i hil hne heq => ?_, fun b' i hbx => ?_⟩
  · rw [takeOut_nheap] at hil
    have hsame := hi.unique (by omega) (by omega) heq
    omega
  by_cases hbb : b' = b
  · rw [hbb, takeOut_bheap_self]
    refine ⟨fun h => (by cases h), ?_⟩
    rintro ⟨hil, hne, heq⟩
    rw [takeOut_nheap] at hil
    exact absurd (hi.unique (by omega) hlt (heq.trans hsi.symm)) hne
  rw [takeOut_bheap_of_ne hbb, hi b' i, takeOut_nheap, takeOut_heap]
  constructor
  · rintro ⟨hil, heq⟩
    refine ⟨?_, fun h => hbb (by rw [← heq, h, hsi]), heq⟩
    by_contra hge
    exact hbx (by rw [← heq, show i = c.nheap - 1 by omega])
  · rintro ⟨hil, -, heq⟩
    exact ⟨by omega, heq⟩

theorem upHeap_stays (h : 0 < i → c.rank (c.heap (Heap.parent i)) ≤ c.rank x) : upHeap i x c = (i, c.put i x) := by
  cases i with
  | zero => rfl
  | succ m =>
    have hstop : c.key x ≥ c.key (c.heap ((m + 1 - 1) / 2)) := key_le_iff.2 (h (Nat.succ_pos m))
    rw [upHeap, upHeapLoop, if_neg (Nat.succ_ne_zero m)]
    rw [if_pos hstop]

theorem upHeap_lt (hs : Seated c i x) (hpos : 0 < i) (h : c.rank x < c.rank (c.heap (Heap.parent i))) :
    (upHeap i x c).1 < i := by
  have hlt := hs.hole_lt
  cases i with
  | zero => omega
  | succ m =>
    have hgo : ¬ c.key x ≥ c.key (c.heap ((m + 1 - 1) / 2)) := fun hge => Nat.not_le.2 h (key_le_iff.1 hge)
    rw [upHeap, upHeapLoop, if_neg (Nat.succ_ne_zero m)]
    dsimp only
    rw [if_neg hgo]
    have hle := (upHeapLoop_keeps (show (m + 1 - 1) / 2 ≤ m by omega) (hs.move (show (m + 1 - 1) / 2 < c.nheap by omega) (by omega))
      rfl).1
    omega

theorem put_hole (hh : Hole c.rank c.heap c.nheap i) : Hole c.rank (c.put i x).heap c.nheap i := by
  refine ⟨fun q hq hqn hne hpne => ?_, fun hpos q hq hqn hp => ?_⟩
  · simp only [put, update_of_ne hne, update_of_ne hpne]
    exact hh.off q hq hqn hne hpne
  have hpi := Heap.parent_lt hpos
  have hqi := Heap.parent_lt hq
  simp only [put]
  rw [update_of_ne (by omega), update_of_ne (by omega)]
  exact hh.across hpos q hq hqn hp

theorem resift_sifts (hs : Seated c i x) (hh : Hole c.rank c.heap c.nheap i) :
    Sifted x c (if (upHeap i x c).1 = i then (downHeap (upHeap i x c).1 x (upHeap i x c).2).2 else (upHeap i x c).2) := by
  by_cases hgo : 0 < i ∧ c.rank x < c.rank (c.heap (Heap.parent i))
  · have hmoved := upHeap_lt hs hgo.1 hgo.2
    rw [if_neg (by omega)]
    exact upHeap_sifts hs (hh.upHole hgo.1 (Nat.le_of_lt hgo.2))
  have habove : 0 < i → c.rank (c.heap (Heap.parent i)) ≤ c.rank x := by
    intro hpos
    by_contra hlt
    exact hgo ⟨hpos, Nat.not_le.1 hlt⟩
  rw [upHeap_stays habove]
  rw [if_pos rfl]
  have hd : DownHole c.rank (c.put i x).heap c.nheap i x := by
    refine ⟨put_hole hh, fun hpos => ?_⟩
    have hpi := Heap.parent_lt hpos
    simp only [put]
    rw [update_of_ne (by omega)]
    exact habove hpos
  have hsift : Sifted x (c.put i x) (downHeap i x (c.put i x)).2 := downHeap_sifts hs.put hd
  refine ⟨⟨hsift.times, hsift.indexed, fun b' => ?_⟩, hsift.ordered⟩
  rw [hsift.joined b', joined_put c i x b']
  exact ⟨fun h => h.elim .inl id, .inr⟩

theorem heapDel_sifts (hi : Indexed c) (ho : Ordered c.rank c.heap c.nheap) (b : Nat) :
    (heapDel b c).now = c.now ∧ (heapDel b c).used = c.used ∧ Ordered c.rank (heapDel b c).heap (heapDel b c).nheap ∧
      Indexed (heapDel b c) ∧ Left b c (heapDel b c) := by
  cases hb : c.bheap b with
  | none =>
    rw [heapDel, hb]
    refine ⟨rfl, rfl, ho, hi, fun b' => ⟨fun h => ⟨?_, h⟩, fun h => h.2⟩⟩
    rintro rfl
    obtain ⟨i, hsome⟩ := h
    rw [hb] at hsome
    cases hsome
  | some si =>
    have hout := left_takeOut c b
    have hrest : Ordered c.rank c.heap (c.nheap - 1) := ho.anti (Nat.sub_le _ _)
    rw [heapDel, hb]
    dsimp only
    by_cases hlast : si = c.nheap - 1
    · rw [if_pos (show si = (c.takeOut b).nheap from hlast)]
      exact ⟨rfl, rfl, hrest, hi.takeOut_last hb hlast, hout⟩
    rw [if_neg (show ¬ si = (c.takeOut b).nheap from hlast)]
    have hs : Seated (c.takeOut b) si (c.heap (c.nheap - 1)) := hi.takeOut_seated hb hlast
    have hsift := resift_sifts hs (hrest.takeOut si hs.hole_lt)
    refine ⟨hsift.times.1, hsift.times.2.1, hsift.ordered, hsift.indexed, fun b' => ?_⟩
    -- the block that was moved was in the heap
    obtain ⟨hlt, hsi⟩ := (hi b si).1 hb
    have hmoved : (c.heap (c.nheap - 1)) ≠ b ∧ ∃ i, c.bheap (c.heap (c.nheap - 1)) = some i :=
      ⟨fun h => hlast (hi.unique hlt (by omega) (hsi.trans h.symm)), _, (hi _ _).2 ⟨by omega, rfl⟩⟩
    have hall := hsift.joined b'
    rw [hout b'] at hall
    refine hall.trans ⟨fun h => ?_, .inr⟩
    rcases h with rfl | h
    · exact hmoved
    · exact h

end Victims

/-! ## Times -/

open Victims

variable {n : Nat} {s s' : Clocked}

theorem Clocked.Shows.rank_eq (h : s.Shows) {b : Nat} (hpast : s.last b < s.time) (hrecent : s.time ≤ s.last b + 2 ^ 32) :
    s.c.rank b = 2 ^ 32 - (s.time - s.last b) := by
  rw [rank, key, h.1, h.2 b, UInt32.toNat_sub, UInt32.toNat_ofNat', UInt32.toNat_ofNat']
  omega

/-- All blocks were used before now, or none since the start. -/
def Clocked.Past (s : Clocked) : Prop := (∀ b, s.last b < s.time) ∨ ∀ b, s.last b = s.time

theorem Clocked.Shows.rank_le_iff (h : s.Shows) (hpast : s.Past) {b b' : Nat} (hb : s.time ≤ s.last b + 2 ^ 32)
    (hb' : s.time ≤ s.last b' + 2 ^ 32) : s.c.rank b ≤ s.c.rank b' ↔ s.last b ≤ s.last b' := by
  rcases hpast with hpast | hpast
  · have h1 := hpast b
    have h2 := hpast b'
    rw [h.rank_eq h1 hb, h.rank_eq h2 hb']
    omega
  have hrank : ∀ q, s.c.rank q = 0 := by
    intro q
    rw [rank, key, h.1, h.2 q, hpast q, UInt32.sub_self]
    rfl
  rw [hrank b, hrank b', hpast b, hpast b']
  exact ⟨fun _ => le_refl _, fun _ => le_refl _⟩

/-- What is so in every state of a run. The order is by the times, which the clock does not change. -/
structure Clocked.Good (n : Nat) (s : Clocked) : Prop where
  shows : s.Shows
  past : s.Past
  recent : s.Recent
  indexed : Indexed s.c
  blocks : ∀ i < s.c.nheap, s.c.heap i < n
  ordered : Ordered s.last s.c.heap s.c.nheap

theorem Clocked.Good.byKey (h : s.Good n) : Ordered s.c.rank s.c.heap s.c.nheap :=
  h.ordered.congr fun i j hi hj hle => (h.shows.rank_le_iff h.past (h.recent i hi) (h.recent j hj)).2 hle

theorem byTime (hshows : s.Shows) (hpast : s.Past) (hrecent : s.Recent) (ho : Ordered s.c.rank s.c.heap s.c.nheap) :
    Ordered s.last s.c.heap s.c.nheap :=
  ho.congr fun i j hi hj hle => (hshows.rank_le_iff hpast (hrecent i hi) (hrecent j hj)).1 hle

/-! ## Steps -/

/-- To put a block in keeps what is so, as long as all have been used since the clock last went round. -/
theorem Clocked.Good.insert {b : Nat} {c' : Victims} (h : s.Good n) (hb : b < n) (hins : s.c.heapIns b = some c')
    (hrecent : Clocked.Recent { s with c := c' }) : Clocked.Good n { s with c := c' } := by
  have hsift := heapIns_sifts h.indexed h.byKey hins
  have hshows : Clocked.Shows { s with c := c' } :=
    ⟨hsift.times.1.trans h.shows.1, fun b' => (congrFun hsift.times.2.1 b').trans (h.shows.2 b')⟩
  have hrank : c'.rank = s.c.rank := hsift.times.rank
  have hblocks : ∀ i < c'.nheap, c'.heap i < n := by
    intro i hi
    rcases (hsift.joined _).1 ⟨i, (hsift.indexed _ i).2 ⟨hi, rfl⟩⟩ with hnew | ⟨j, hold⟩
    · rw [hnew]
      exact hb
    · obtain ⟨hj, heq⟩ := (h.indexed _ j).1 hold
      rw [← heq]
      exact h.blocks j hj
  refine ⟨hshows, h.past, hrecent, hsift.indexed, hblocks, byTime hshows h.past hrecent ?_⟩
  rw [hrank]
  exact hsift.ordered

theorem Clocked.Good.use {b : Nat} {u : Clocked} {c' : Victims} (h : s.Good n) (hb : b < n) (hshows : u.Shows) (hpast : u.Past)
    (hheap : u.c.heap = s.c.heap) (hbheap : u.c.bheap = s.c.bheap) (hnheap : u.c.nheap = s.c.nheap)
    (hlast : ∀ b', b' ≠ b → u.last b' = s.last b') (hins : u.c.heapIns b = some c')
    (hrecent : Clocked.Recent { u with c := c' }) : Clocked.Good n { u with c := c' } := by
  have hindexed : Indexed u.c := by
    intro b' i
    rw [hbheap, hheap, hnheap]
    exact h.indexed b' i
  have hkept := heapIns_keeps hindexed hins
  have hout : ∀ i < u.c.nheap, u.c.heap i ≠ b := by
    intro i hi heq
    have hsome := (hindexed b i).2 ⟨hi, heq⟩
    rw [(heapIns_some hins).1] at hsome
    cases hsome
  -- the blocks of the heap are in the heap still, and so were used recently
  have hbefore : u.Recent := by
    intro i hi
    obtain ⟨j, hj⟩ := (hkept.joined (u.c.heap i)).2 (.inr ⟨i, (hindexed _ i).2 ⟨hi, rfl⟩⟩)
    obtain ⟨hjn, hjb⟩ := (hkept.indexed _ j).1 hj
    have hat := hrecent j hjn
    rwa [hjb] at hat
  refine Clocked.Good.insert ⟨hshows, hpast, hbefore, hindexed, ?_, ?_⟩ hb hins hrecent
  · rw [hheap, hnheap]
    exact h.blocks
  intro i hpos hi
  have hlt := Heap.parent_lt hpos
  rw [hlast _ (hout i hi), hlast _ (hout _ (by omega)), hheap]
  rw [hnheap] at hi
  exact h.ordered i hpos hi

theorem Clocked.Good.delete (h : s.Good n) (b : Nat) (hrecent : Clocked.Recent { s with c := s.c.heapDel b }) :
    Clocked.Good n { s with c := s.c.heapDel b } := by
  obtain ⟨hnow, hused, hord, hindexed, hleft⟩ := heapDel_sifts h.indexed h.byKey b
  have hshows : Clocked.Shows { s with c := s.c.heapDel b } :=
    ⟨hnow.trans h.shows.1, fun b' => (congrFun hused b').trans (h.shows.2 b')⟩
  have hrank : (s.c.heapDel b).rank = s.c.rank := by
    funext b'
    simp only [rank, key, hnow, hused]
  refine ⟨hshows, h.past, hrecent, hindexed, ?_, byTime hshows h.past hrecent ?_⟩
  · intro i hi
    obtain ⟨-, j, hold⟩ := (hleft _).1 ⟨i, (hindexed _ i).2 ⟨hi, rfl⟩⟩
    obtain ⟨hj, heq⟩ := (h.indexed _ j).1 hold
    rw [← heq]
    exact h.blocks j hj
  · rw [hrank]
    exact hord

theorem Clocked.Good.useNow {b : Nat} {c' : Victims} (h : s.Good n) (hb : b < n)
    (hins : heapIns b { s.c with used := update s.c.used b s.c.now, now := s.c.now + 1 } = some c')
    (hrecent : Clocked.Recent ⟨c', s.time + 1, update s.last b s.time⟩) :
    Clocked.Good n ⟨c', s.time + 1, update s.last b s.time⟩ := by
  have hle : ∀ b', s.last b' ≤ s.time := by
    intro b'
    rcases h.past with hp | hp
    · exact Nat.le_of_lt (hp b')
    · exact Nat.le_of_eq (hp b')
  refine h.use (u := ⟨{ s.c with used := update s.c.used b s.c.now, now := s.c.now + 1 }, s.time + 1,
    update s.last b s.time⟩) hb ⟨?_, fun b' => ?_⟩ (.inl fun b' => ?_) rfl rfl rfl (fun b' hne => update_of_ne hne ..)
    hins hrecent
  · rw [h.shows.1, UInt32.ofNat_add]
    rfl
  · dsimp only
    by_cases hbb : b' = b
    · rw [hbb, update_self, update_self, h.shows.1]
    · rw [update_of_ne hbb, update_of_ne hbb]
      exact h.shows.2 b'
  dsimp only
  have hb' := hle b'
  by_cases hbb : b' = b
  · rw [hbb, update_self]
    omega
  · rw [update_of_ne hbb]
    omega

theorem VictimStep.good {a : VictimOp} (h : s.Good n) (hstep : VictimStep n s a s') (hrecent : s'.Recent) : s'.Good n := by
  cases hstep with
  | tick =>
    refine ⟨⟨?_, h.shows.2⟩, .inl fun b => ?_, hrecent, h.indexed, h.blocks, h.ordered⟩
    · rw [h.shows.1, UInt32.ofNat_add]
      rfl
    dsimp only
    rcases h.past with hp | hp
    · have := hp b
      omega
    · have := hp b
      omega
  | heapIns hb hins => exact h.insert hb hins hrecent
  | heapDel hb => exact h.delete _ hrecent
  | @blockPut b iostate c' hb hput =>
    cases iostate with
    | other => exact h.useNow hb hput hrecent
    | dirty =>
      cases hput
      exact h
    | unused =>
      rw [Victims.blockPut] at hput
      rw [Clocked.put] at hrecent ⊢
      by_cases h0 : s.c.nheap = 0
      · rw [if_pos h0] at hput hrecent ⊢
        exact h.useNow hb hput hrecent
      rw [if_neg h0] at hput hrecent ⊢
      refine h.use (u := ⟨{ s.c with used := update s.c.used b (s.c.used (s.c.heap 0)) }, s.time,
        update s.last b (s.last (s.c.heap 0))⟩) hb ⟨h.shows.1, fun b' => ?_⟩ ?_ rfl rfl rfl
        (fun b' hne => update_of_ne hne ..) hput hrecent
      · dsimp only
        by_cases hbb : b' = b
        · rw [hbb, update_self, update_self]
          exact h.shows.2 _
        · rw [update_of_ne hbb, update_of_ne hbb]
          exact h.shows.2 b'
      -- the block takes the time of another, and so is used before now if all are
      have hcopy : ∀ P : Nat → Prop, (∀ b', P (s.last b')) → ∀ b', P (update s.last b (s.last (s.c.heap 0)) b') := by
        intro P hP b'
        by_cases hbb : b' = b
        · rw [hbb, update_self]
          exact hP _
        · rw [update_of_ne hbb]
          exact hP b'
      exact h.past.imp (hcopy (· < s.time)) (hcopy (· = s.time))

theorem VictimStart.good (h : VictimStart n s) : s.Good n := by
  cases h with
  | alloc =>
    refine ⟨⟨rfl, fun _ => rfl⟩, .inr fun _ => rfl, fun _ _ => Nat.zero_le _, fun b i => ?_, fun _ hi => hi, fun _ _ _ => le_refl _⟩
    simp only [cacheAlloc]
    constructor
    · intro hb
      split at hb
      · rename_i hlt
        cases hb
        exact ⟨hlt, rfl⟩
      · cases hb
    · rintro ⟨hi, rfl⟩
      rw [if_pos hi]
  | empty h0 hout hshows hpast =>
    have hno : ∀ i, ¬ i < s.c.nheap := by
      intro i
      omega
    refine ⟨hshows, .inl hpast, fun i hi => absurd hi (hno i), fun b i => ?_, fun i hi => absurd hi (hno i),
      fun i _ hi => absurd hi (hno i)⟩
    rw [hout b]
    exact ⟨fun h => (by cases h), fun h => absurd h.1 (hno i)⟩

theorem VictimsReached.good (h : VictimsReached n s) : s.Good n :=
  h.invariant (Clocked.Good n) (fun _ hstart => hstart.good) (fun _ _ _ hgood hstep => hstep.1.good hgood hstep.2)

/-- There is room in the array for the blocks. -/
theorem Clocked.Good.nheap_le (h : s.Good n) : s.c.nheap ≤ n := by
  have hcard := Finset.card_le_card_of_injOn (s := Finset.range s.c.nheap) (t := Finset.range n) s.c.heap
    (fun i hi => Finset.mem_coe.2 (Finset.mem_range.2 (h.blocks i (Finset.mem_range.1 (Finset.mem_coe.1 hi)))))
    (fun i hi j hj heq => h.indexed.unique (Finset.mem_range.1 (Finset.mem_coe.1 hi)) (Finset.mem_range.1 (Finset.mem_coe.1 hj)) heq)
  rwa [Finset.card_range, Finset.card_range] at hcard

/-- **The victims.** However the clock has gone round, the array is a heap by the keys, the fields of the blocks are
their places in it, and the first was used least recently. -/
theorem victims_heap (h : VictimsReached n s) :
    (∀ i, 0 < i → i < s.c.nheap → s.c.key (s.c.heap ((i - 1) / 2)) ≤ s.c.key (s.c.heap i)) ∧
    (∀ b i, s.c.bheap b = some i ↔ i < s.c.nheap ∧ s.c.heap i = b) ∧
    (∀ i < s.c.nheap, s.last (s.c.heap 0) ≤ s.last (s.c.heap i)) ∧ s.c.nheap ≤ n :=
  ⟨fun i hpos hi => key_le_iff.2 (h.good.byKey i hpos hi), h.good.indexed, fun _ hi => h.good.ordered.first hi,
    h.good.nheap_le⟩

/-- A block used just before the clock goes round, and one just after: the first of them is the victim. -/
theorem victims_heap_wrapped :
    ∃ s, VictimsReached 3 s ∧ s.c.now = 1 ∧ s.c.nheap = 2 ∧ s.c.heap 0 = 1 ∧ s.last (s.c.heap 0) ≤ s.last (s.c.heap 1) := by
  have h0 : VictimsReached 3 ⟨⟨0xffffffff, 0, fun _ => 0, fun _ => none, fun _ => 0⟩, 0xffffffff, fun _ => 0⟩ :=
    .start (.empty rfl (fun _ => rfl) ⟨rfl, fun _ => rfl⟩ (fun _ => Nat.zero_lt_succ _))
  obtain ⟨s, hreached, hnow, hnheap, hfirst⟩ : ∃ s, VictimsReached 3 s ∧ s.c.now = 1 ∧ s.c.nheap = 2 ∧ s.c.heap 0 = 1 :=
    ⟨_, (h0.next ⟨@VictimStep.blockPut 3 _ 1 .other _ (by decide) rfl, by decide +kernel⟩).next
      ⟨@VictimStep.blockPut 3 _ 0 .other _ (by decide) rfl, by decide +kernel⟩, by decide +kernel, by decide +kernel,
      by decide +kernel⟩
  exact ⟨s, hreached, hnow, hnheap, hfirst, (victims_heap hreached).2.2.1 1 (by omega)⟩

end Plan9.Fossil
