/-
When `newindex` lays an index out over the blocks its sections have.

The blocks left over are taken from all sections in equal shares, the last one
apart, which stops at the last bucket used. Nothing looks at whether a section
has that many blocks, so a small one ends before it starts. Sections that
together have far more blocks than are used, and a single block, go wrong too.
The rest is as it should be: `newindex` succeeded, and so the divisor is right.
-/
import Mathlib.Order.Nat
import Plan9.Lib.Ranges
import Plan9.Venti.Index

namespace Plan9.Venti

open Ranges List

/-- `buck` is one of the section's buckets. -/
def ISect.Holds (is : ISect) (buck : Nat) : Prop := is.start ≤ buck ∧ buck < is.stop

/-- The hash value `h` is among those `icachewritesect` writes to the section. -/
def Index.Writes (ix : Index) (is : ISect) (h : Nat) : Prop := sectLo ix is ≤ h ∧ h ≤ sectHi ix is

/-- No section is reversed, nor larger than its blocks. -/
def Fit (ss : List ISect) : Prop := ∀ is ∈ ss, is.start ≤ is.stop ∧ is.stop - is.start ≤ is.blocks

/-- What an index is laid out for. -/
structure Index.LaidOut (ix : Index) : Prop where
  chained : Chained ISect.start ISect.stop 0 ix.sects ix.buckets
  fit : Fit ix.sects
  buckets : ∀ b, b < ix.buckets ↔ ∃ is ∈ ix.sects, is.Holds b
  holds : ∀ h < 2 ^ 32, ∃! j : Nat, ∃ is, ix.sects[j]? = some is ∧ is.Holds (h / ix.div)
  found : ∀ h < 2 ^ 32, ∃ j : Nat, indexsect0 ix (h / ix.div) = j ∧
    ∃ is, ix.sects[j]? = some is ∧ is.Holds (h / ix.div)
  writes : ∀ h < 2 ^ 32, ∃! j : Nat, ∃ is, ix.sects[j]? = some is ∧ ix.Writes is h

/-! ## The arithmetic of an index -/

/-- Blocks an index can make use of: more than these are given up, and so is a single one. -/
def usable (total : Nat) : Nat := if 2 ≤ total ∧ total ≤ 43383508 then total else 43383508

/-- The hash values to a bucket, for so many blocks. -/
def divisor (total : Nat) : Nat :=
  if 2 ≤ total ∧ total ≤ 43383508 then (2 ^ 32 + total - 1) / total else 100

/-- The buckets used. -/
def used (total : Nat) : Nat := (2 ^ 32 - 1) / divisor total + 1

/-- The blocks each section but the last leaves unused. -/
def share (bs : List Nat) : Nat := (usable bs.sum - used bs.sum) / bs.length

/-- There are two blocks; each section but the last can leave its share, the first with a block
over; and the last one still has a bucket. -/
structure Shares (bs : List Nat) : Prop where
  two : 2 ≤ bs.sum
  enough : ∀ b ∈ bs.dropLast, share bs ≤ b
  first : ∀ b ∈ bs.dropLast.head?, share bs < b
  last : (bs.dropLast.map (· - share bs)).sum < used bs.sum

theorem divisor_bounds (total : Nat) : 100 ≤ divisor total ∧ divisor total < 2 ^ 32 := by
  unfold divisor
  split
  · rename_i h
    obtain ⟨_, _⟩ := h
    constructor
    · rw [Nat.le_div_iff_mul_le (by omega)]
      omega
    · rw [Nat.div_lt_iff_lt_mul (by omega)]
      omega
  · decide

theorem used_pos (total : Nat) : 0 < used total := Nat.succ_pos _

theorem used_le (total : Nat) : used total ≤ 42949673 := by
  have h : (2 ^ 32 - 1) / divisor total ≤ (2 ^ 32 - 1) / 100 :=
    Nat.div_le_div_left (divisor_bounds total).1 (by decide)
  exact Nat.succ_le_succ (Nat.le_trans h (by decide))

/-- What `newindex` picks, for any positive number of blocks. -/
theorem pickDiv_eq {total : Nat} (h : 0 < total) : pickDiv total = (usable total, divisor total) := by
  unfold pickDiv
  by_cases hin : 2 ≤ total ∧ total ≤ 43383508
  · have hb := divisor_bounds total
    have hclamp : (if total ≥ 2 ^ 32 then 2 ^ 32 - 1 else total) = total := if_neg (by omega)
    simp only [usable, divisor, if_pos hin] at hb ⊢
    simp only [hclamp]
    rw [u32_nat hb.2, if_neg (by omega)]
  simp only [usable, divisor, if_neg hin]
  generalize hnb : (if total ≥ 2 ^ 32 then 2 ^ 32 - 1 else total) = nb
  have hdiv : u32 ((2 ^ 32 + nb - 1) / nb : Nat) < 100 := by
    by_cases hone : total = 1
    · subst hone
      subst hnb
      decide
    have hbig : 43383508 < nb := by
      split at hnb <;> omega
    have hq : (2 ^ 32 + nb - 1) / nb < 100 := by
      rw [Nat.div_lt_iff_lt_mul (by omega)]
      omega
    rw [u32_nat (by omega)]
    exact hq
  exact if_pos hdiv

/-! ## What success means -/

theorem totalBlocks_ok {name : Name} {bsz tsz nb total : Nat} {ss : List ISect}
    (h : totalBlocks name bsz tsz nb ss = .ok total) : total = nb + (ss.map ISect.blocks).sum := by
  induction ss generalizing nb with
  | nil =>
    cases h
    rfl
  | cons is rest ih =>
    unfold totalBlocks at h
    split at h
    · cases h
    split at h
    · cases h
    split at h
    · cases h
    · rw [ih h, map_cons, sum_cons, Nat.add_assoc]

theorem initindex1_ok {ix ix' : Index} (h : initindex1 ix = .ok ix') :
    ix'.sects = ix.sects ∧ ix'.buckets = ix.buckets ∧ u32 ((2 ^ 32 - 1) / ix'.div + 1 : Nat) = ix'.buckets := by
  unfold initindex1 at h
  dsimp only at h
  split at h
  · cases h
  · rename_i heq
    cases h
    exact ⟨rfl, rfl, not_not.mp heq⟩

/-- The sections of a new index are laid out as `layout` does, and the divisor is right. -/
structure Made (name : Name) (sects : List ISect) (ix : Index) : Prop where
  nonempty : sects ≠ []
  buckets : ix.buckets = used (sects.map ISect.blocks).sum
  layout : layout name ix.buckets (share (sects.map ISect.blocks)) 0 sects = .ok ix.sects
  div : (2 ^ 32 - 1) / ix.div + 1 = ix.buckets
  div_pos : 0 < ix.div
  used_le : used (sects.map ISect.blocks).sum ≤ usable (sects.map ISect.blocks).sum

theorem two_le_used (total : Nat) : 2 ≤ used total := by
  have h : 1 ≤ (2 ^ 32 - 1) / divisor total := by
    have := divisor_bounds total
    rw [Nat.le_div_iff_mul_le (by omega)]
    omega
  exact Nat.succ_le_succ h

theorem made_of_initindex1 {name : Name} {sects : List ISect} {ix ix' : Index} (hne : sects ≠ [])
    (hub : ix.buckets = used (sects.map ISect.blocks).sum)
    (hl : layout name ix.buckets (share (sects.map ISect.blocks)) 0 sects = .ok ix.sects)
    (hle : used (sects.map ISect.blocks).sum ≤ usable (sects.map ISect.blocks).sum)
    (h : initindex1 ix = .ok ix') : Made name sects ix' := by
  obtain ⟨hs, hb, hdiv⟩ := initindex1_ok h
  have h2 := two_le_used (sects.map ISect.blocks).sum
  have hd : (2 ^ 32 - 1) / ix'.div + 1 = ix'.buckets := by
    have hq : (2 ^ 32 - 1) / ix'.div ≤ 2 ^ 32 - 1 := Nat.div_le_self _ _
    generalize (2 ^ 32 - 1) / ix'.div = q at hdiv hq
    unfold u32 at hdiv
    omega
  refine ⟨hne, hb.trans hub, ?_, hd, ?_, hle⟩
  · rw [hb, hs]
    exact hl
  apply Nat.pos_of_ne_zero
  intro h0
  rw [h0, Nat.div_zero] at hd
  omega

theorem newindex_made {name : Name} {sects : List ISect} {ix : Index} (hpos : ∀ is ∈ sects, 0 < is.blocks)
    (h : newindex name sects = .ok ix) : Made name sects ix := by
  unfold newindex at h
  cases sects with
  | nil => cases h
  | cons is rest =>
    dsimp only at h
    split at h
    · cases h
    rename_i total htotal
    split at h
    · cases h
    have htot := totalBlocks_ok htotal
    rw [Nat.zero_add] at htot
    have htpos : 0 < total := by
      have := hpos is (by simp)
      rw [htot, map_cons, sum_cons]
      omega
    rw [pickDiv_eq htpos] at h
    have hused : u32 ((2 ^ 32 - 1) / divisor total + 1 : Nat) = used total := by
      have := used_le total
      exact u32_nat (x := used total) (by omega)
    rw [hused] at h
    split at h
    · cases h
    rename_i hle
    split at h
    · cases h
    rename_i ss hss
    have hxb : u32 ((usable total : Int) - used total) / (is :: rest).length =
        share ((is :: rest).map ISect.blocks) := by
      have hlt : usable total < 2 ^ 32 := by
        unfold usable
        split <;> omega
      rw [share, ← htot, length_map, ← Int.natCast_sub (Nat.le_of_not_lt hle), u32_nat (by omega)]
    rw [hxb] at hss
    subst htot
    exact made_of_initindex1 (cons_ne_nil _ _) rfl hss (Nat.le_of_not_lt hle) h

/-! ## The sections -/

section

variable {name : Name} {ub q a : Nat} {is : ISect} {ss ss' : List ISect}

theorem layout_cons (h : layout name ub q a (is :: ss) = .ok ss') : ∃ stop rest,
    stop = (if ss.isEmpty then ub else u32 ((a : Int) + is.blocks - q)) ∧
    layout name ub q stop ss = .ok rest ∧
    ss' = { is with start := a, stop := stop, index := namecp name } :: rest := by
  unfold layout at h
  generalize hstop : (if ss.isEmpty then ub else u32 ((a : Int) + is.blocks - q)) = stop at h
  dsimp only at h
  split at h
  · cases h
  split at h
  · cases h
  · rename_i rest hrest
    cases h
    exact ⟨stop, rest, rfl, hrest, rfl⟩

theorem layout_length (h : layout name ub q a ss = .ok ss') : ss'.length = ss.length := by
  induction ss generalizing a ss' with
  | nil =>
    cases h
    rfl
  | cons is ss ih =>
    obtain ⟨_, _, -, hrest, rfl⟩ := layout_cons h
    rw [length_cons, length_cons, ih hrest]

theorem layout_chained (h : layout name ub q a ss = .ok ss') (hne : ss ≠ []) :
    Chained ISect.start ISect.stop a ss' ub := by
  induction ss generalizing a ss' with
  | nil => exact absurd rfl hne
  | cons is ss ih =>
    obtain ⟨_, _, hstop, hrest, rfl⟩ := layout_cons h
    refine ⟨rfl, ?_⟩
    cases ss with
    | nil =>
      cases hrest
      exact hstop
    | cons js ss => exact ih hrest (cons_ne_nil _ _)

/-- A section is neither reversed nor too large if its blocks cover its share, and nothing wraps. -/
theorem u32_fit_iff {b : Nat} (ha : a < 2 ^ 32) (hb : b < 2 ^ 32) (hq : q < 2 ^ 32) :
    (a ≤ u32 ((a : Int) + b - q) ∧ u32 ((a : Int) + b - q) - a ≤ b) ↔ q ≤ b ∧ a + (b - q) < 2 ^ 32 := by
  unfold u32
  omega

theorem u32_fit_eq {b : Nat} (hqb : q ≤ b) (hlt : a + (b - q) < 2 ^ 32) :
    u32 ((a : Int) + b - q) = a + (b - q) := by
  unfold u32
  omega

theorem fit_iff (h : layout name ub q a ss = .ok ss') (hne : ss ≠ []) (ha : a < 2 ^ 32) (hq : q < 2 ^ 32)
    (hub : ub < 2 ^ 32) : Fit ss' ↔
      (∀ b ∈ (ss.map ISect.blocks).dropLast, q ≤ b) ∧
      a + ((ss.map ISect.blocks).dropLast.map (· - q)).sum ≤ ub ∧
      ub ≤ a + ((ss.map ISect.blocks).dropLast.map (· - q)).sum + (ss.map ISect.blocks).getLastD 0 := by
  induction ss generalizing a ss' with
  | nil => exact absurd rfl hne
  | cons is ss ih =>
    obtain ⟨_, rest, hstop, hrest, rfl⟩ := layout_cons h
    unfold Fit
    rw [forall_mem_cons]
    cases ss with
    | nil =>
      cases hrest
      subst hstop
      simp
      omega
    | cons js ss =>
      have hfit := u32_fit_iff ha is.blocks_lt hq
      rw [if_neg (by simp)] at hstop
      subst hstop
      have ih := ih hrest (cons_ne_nil _ _) (by unfold u32; omega)
      rw [show (∀ x ∈ rest, _) ↔ Fit rest from Iff.rfl, ih]
      simp only [map_cons, dropLast_cons_cons, forall_mem_cons, sum_cons, getLastD_cons]
      constructor
      · rintro ⟨hw, hall, hle, hge⟩
        obtain ⟨hqb, hlt⟩ := hfit.mp hw
        rw [u32_fit_eq hqb hlt] at hle hge
        exact ⟨⟨hqb, hall⟩, by omega, by omega⟩
      rintro ⟨⟨hqb, hall⟩, hle, hge⟩
      have hlt : a + (is.blocks - q) < 2 ^ 32 := by omega
      refine ⟨hfit.mpr ⟨hqb, hlt⟩, hall, ?_⟩
      rw [u32_fit_eq hqb hlt]
      exact ⟨by omega, by omega⟩

end

/-! ## Finding the section -/

theorem indexsectLoop_spec {ix : Index} (buck : Nat) {n : Int}
    (hmono : ∀ i j, i ≤ j → j < n → ix.start i ≤ ix.start j) {l r : Int} (hl : 1 ≤ l) (hlr : l ≤ r + 1)
    (hr : r < n) (hlow : ix.start (l - 1) ≤ buck) (hhigh : ∀ i, r < i → i < n → buck < ix.start i) :
    ∃ j : Nat, indexsectLoop ix buck l r = j ∧ (j : Int) < n ∧ ix.start j ≤ buck ∧
      ∀ i : Int, j < i → i < n → buck < ix.start i := by
  fun_induction indexsectLoop ix buck l r with
  | case1 l r hle m hm ih =>
    refine ih (by omega) (by omega) hr ?_ hhigh
    rw [show m + 1 - 1 = m by omega]
    exact hm
  | case2 l r hle m hm ih =>
    refine ih hl (by omega) (by omega) hlow fun i hi hin => ?_
    have := hmono m i (by omega) hin
    omega
  | case3 l r hle =>
    have hj : l - 1 = ((l - 1).toNat : Int) := by omega
    refine ⟨(l - 1).toNat, hj, by omega, ?_, fun i hi hin => hhigh i (by omega) hin⟩
    exact hlow

section

variable {ix : Index} (hc : Chained ISect.start ISect.stop 0 ix.sects ix.buckets) (hfit : Fit ix.sects)
  (hdiv : (2 ^ 32 - 1) / ix.div + 1 = ix.buckets)

theorem start_eq {j : Nat} {is : ISect} (h : ix.sects[j]? = some is) : ix.start j = is.start := by
  unfold Index.start
  rw [Int.toNat_natCast, h]
  rfl

include hc hfit in
theorem start_mono {i j : Int} (hij : i ≤ j) (hj : j < ix.sects.length) : ix.start i ≤ ix.start j := by
  by_cases heq : i.toNat = j.toNat
  · unfold Index.start
    exact Nat.le_of_eq (by rw [heq])
  have hi' := getElem?_eq_getElem (l := ix.sects) (i := i.toNat) (by omega)
  have hj' := getElem?_eq_getElem (l := ix.sects) (i := j.toNat) (by omega)
  have hord := hc.ordered (fun x hx => (hfit x hx).1) hi' hj' (by omega)
  have hle := (hfit _ (mem_of_getElem? hi')).1
  unfold Index.start
  rw [hi', hj']
  exact Nat.le_trans hle hord

include hc hfit in
theorem indexsect0_found {buck : Nat} (hb : buck < ix.buckets) :
    ∃ j : Nat, indexsect0 ix buck = j ∧ ∃ is, ix.sects[j]? = some is ∧ is.Holds buck := by
  cases hsects : ix.sects with
  | nil =>
    rw [hsects] at hc
    have : 0 = ix.buckets := hc
    omega
  | cons first rest =>
    have hlen : ix.sects.length = rest.length + 1 := by rw [hsects, length_cons]
    have h0 : ix.start 0 = 0 := by
      rw [hsects] at hc
      exact (start_eq (j := 0) (by rw [hsects]; rfl)).trans hc.1
    obtain ⟨j, hj, _, hlow, hhigh⟩ := indexsectLoop_spec buck (n := ix.sects.length) (l := 1)
      (r := ix.sects.length - 1) (fun i j hij hj => start_mono hc hfit hij hj) (by omega) (by omega) (by omega)
      (by rw [show (1 : Int) - 1 = 0 by omega, h0]; omega) (fun i hi hin => by omega)
    have hget := getElem?_eq_getElem (l := ix.sects) (i := j) (by omega)
    rw [start_eq hget] at hlow
    refine ⟨j, hj, _, by rw [← hsects]; exact hget, hlow, ?_⟩
    by_cases hlast : j + 1 < ix.sects.length
    · have hget' := getElem?_eq_getElem hlast
      have hnext := hhigh (j + 1 : Nat) (by omega) (by omega)
      rw [start_eq hget', ← hc.stop_eq_start hget hget'] at hnext
      exact hnext
    · rw [hc.stop_last hget (by omega)]
      exact hb

/-! ## The hash ranges -/

include hdiv in
theorem div_lt_buckets {h : Nat} (hh : h < 2 ^ 32) :
    h / ix.div < ix.buckets := by
  rw [← hdiv]
  exact Nat.lt_succ_of_le (Nat.div_le_div_right (by omega))

include hdiv in
theorem sectHi_last {is : ISect} (h : is.stop = ix.buckets) :
    sectHi ix is = 2 ^ 32 - 1 := by
  unfold sectHi twid32
  rw [if_pos (by omega)]

include hdiv in
/-- The hash values of a section are those whose buckets it holds, if neither it is empty at the
front nor at the end. -/
theorem writes_iff_holds (hpos : 0 < ix.div) {is : ISect}
    (hstart : is.start < ix.buckets) (hstop : 0 < is.stop) (hle : is.stop ≤ ix.buckets) {h : Nat}
    (hh : h < 2 ^ 32) : ix.Writes is h ↔ is.Holds (h / ix.div) := by
  have hbelow : ∀ b, b < ix.buckets → b * ix.div < 2 ^ 32 := by
    intro b hb
    have : b * ix.div ≤ 2 ^ 32 - 1 := (Nat.le_div_iff_mul_le hpos).mp (by omega)
    omega
  have hlo : sectLo ix is = is.start * ix.div := by
    unfold sectLo
    rw [← Int.natCast_mul, u32_nat (hbelow _ hstart)]
  unfold Index.Writes ISect.Holds
  rw [hlo, Nat.le_div_iff_mul_le hpos]
  apply and_congr_right
  intro _
  by_cases hlast : is.stop = ix.buckets
  · have := div_lt_buckets hdiv hh
    rw [sectHi_last hdiv hlast, hlast]
    omega
  have hlt := hbelow is.stop (by omega)
  have hge : 0 < is.stop * ix.div := Nat.mul_pos hstop hpos
  unfold sectHi twid32
  rw [if_neg (by omega), Nat.div_lt_iff_lt_mul hpos, ← Int.natCast_mul]
  unfold u32
  omega

/-- The first section holds a bucket, and so does the last. -/
structure Index.EndsHold (ix : Index) : Prop where
  first : ∀ is, ix.sects[0]? = some is → 0 < is.stop
  last : ∀ is, ix.sects[ix.sects.length - 1]? = some is → is.start < ix.buckets

include hc hfit in
theorem holds_unique {buck : Nat} (hb : buck < ix.buckets) : ∃! j : Nat, ∃ is, ix.sects[j]? = some is ∧ is.Holds buck := by
  obtain ⟨j, is, hget, hholds⟩ := hc.cover (Nat.zero_le buck) hb
  refine ⟨j, ⟨is, hget, hholds⟩, ?_⟩
  rintro i ⟨js, hget', hholds'⟩
  exact hc.unique (fun x hx => (hfit x hx).1) hget' hholds' hget hholds

include hc hfit in
theorem EndsHold.sect (he : ix.EndsHold) {j : Nat} {is : ISect} (hget : ix.sects[j]? = some is) :
    is.start < ix.buckets ∧ 0 < is.stop ∧ is.stop ≤ ix.buckets := by
  have hw : ∀ x ∈ ix.sects, x.start ≤ x.stop := fun x hx => (hfit x hx).1
  have hle := hw is (mem_of_getElem? hget)
  obtain ⟨_, -⟩ := List.getElem?_eq_some_iff.mp hget
  refine ⟨?_, ?_, (hc.bounds hw (mem_of_getElem? hget)).2⟩
  · by_cases hlast : j = ix.sects.length - 1
    · rw [hlast] at hget
      exact he.last is hget
    have hget' := getElem?_eq_getElem (l := ix.sects) (i := ix.sects.length - 1) (by omega)
    have hlt := he.last _ hget'
    have hord := hc.ordered hw hget hget' (by omega)
    omega
  by_cases hfirst : j = 0
  · rw [hfirst] at hget
    exact he.first is hget
  have hget' := getElem?_eq_getElem (l := ix.sects) (i := 0) (by omega)
  have hlt := he.first _ hget'
  have hord := hc.ordered hw hget' hget (by omega)
  omega

theorem writes_of_empty_first {is : ISect} (hstart : is.start = 0) (hstop : is.stop = 0) :
    ix.Writes is (2 ^ 32 - 1) := by
  unfold Index.Writes sectLo sectHi u32
  rw [hstart, hstop, if_neg (Nat.not_lt_zero _)]
  omega

include hdiv in
theorem writes_of_stop_last {is : ISect}
    (hstop : is.stop = ix.buckets) : ix.Writes is (2 ^ 32 - 1) := by
  refine ⟨?_, Nat.le_of_eq (sectHi_last hdiv hstop).symm⟩
  unfold sectLo u32
  omega

include hc hfit hdiv in
/-- The hash ranges partition the hash values if the sections at the ends are not empty. -/
theorem writes_unique_iff (hpos : 0 < ix.div) :
    (∀ h < 2 ^ 32, ∃! j : Nat, ∃ is, ix.sects[j]? = some is ∧ ix.Writes is h) ↔ ix.EndsHold := by
  constructor
  · intro hall
    have hub : 0 < ix.buckets := by
      rw [← hdiv]
      exact Nat.succ_pos _
    -- the last hash value is in the section that holds the last bucket
    obtain ⟨k, ks, hk, _⟩ := hc.cover (Nat.zero_le (ix.buckets - 1)) (by omega)
    have hkstop : ks.stop = ix.buckets := by
      have := (hc.bounds (fun x hx => (hfit x hx).1) (mem_of_getElem? hk)).2
      omega
    obtain ⟨j, -, huniq⟩ := hall (2 ^ 32 - 1) (by omega)
    have hkj := huniq k ⟨ks, hk, writes_of_stop_last hdiv hkstop⟩
    refine ⟨fun is hget => ?_, fun is hget => ?_⟩
    · by_contra hempty
      have hmem := mem_of_getElem? hget
      have hstart : is.start = 0 := by
        have := (hfit is hmem).1
        omega
      have h0j := huniq 0 ⟨is, hget, writes_of_empty_first hstart (by omega)⟩
      rw [hkj, ← h0j, hget] at hk
      cases hk
      omega
    by_contra hempty
    obtain ⟨_, -⟩ := List.getElem?_eq_some_iff.mp hget
    have hstop := hc.stop_last hget (by omega)
    have hlj := huniq _ ⟨is, hget, writes_of_stop_last hdiv hstop⟩
    rw [hkj, ← hlj, hget] at hk
    cases hk
    omega
  intro he h hh
  obtain ⟨j, ⟨is, hget, hholds⟩, huniq⟩ := holds_unique hc hfit (div_lt_buckets hdiv hh)
  have hiff : ∀ {i : Nat} {js : ISect}, ix.sects[i]? = some js → (ix.Writes js h ↔ js.Holds (h / ix.div)) := by
    intro i js hjs
    obtain ⟨h1, h2, h3⟩ := EndsHold.sect hc hfit he hjs
    exact writes_iff_holds hdiv hpos h1 h2 h3 hh
  refine ⟨j, ⟨is, hget, (hiff hget).mpr hholds⟩, ?_⟩
  rintro i ⟨js, hjs, hwrites⟩
  exact huniq i ⟨js, hjs, (hiff hjs).mp hwrites⟩

include hc hdiv in
theorem laidOut_iff (hpos : 0 < ix.div) :
    ix.LaidOut ↔ Fit ix.sects ∧ ix.EndsHold := by
  constructor
  · intro h
    exact ⟨h.fit, (writes_unique_iff hc h.fit hdiv hpos).mp h.writes⟩
  rintro ⟨hfit, he⟩
  refine ⟨hc, hfit, fun b => ⟨fun hb => ?_, ?_⟩, fun h hh => ?_, fun h hh => ?_, ?_⟩
  · obtain ⟨j, is, hget, hholds⟩ := hc.cover (Nat.zero_le b) hb
    exact ⟨is, mem_of_getElem? hget, hholds⟩
  · rintro ⟨is, hmem, hholds⟩
    exact Nat.lt_of_lt_of_le hholds.2 (hc.bounds (fun x hx => (hfit x hx).1) hmem).2
  · exact holds_unique hc hfit (div_lt_buckets hdiv hh)
  · exact indexsect0_found hc hfit (div_lt_buckets hdiv hh)
  · exact (writes_unique_iff hc hfit hdiv hpos).mpr he

end

/-! ## The condition -/

section

variable {name : Name} {ub q a : Nat} {is : ISect} {ss ss' : List ISect}

theorem layout_first_stop {js : ISect} (h : layout name ub q a (is :: js :: ss) = .ok ss')
    (hqb : q ≤ is.blocks) (hlt : a + (is.blocks - q) < 2 ^ 32) {first : ISect} (hget : ss'[0]? = some first) :
    first.stop = a + (is.blocks - q) := by
  obtain ⟨_, _, hstop, -, rfl⟩ := layout_cons h
  rw [if_neg (by simp), u32_fit_eq hqb hlt] at hstop
  cases hget
  exact hstop

theorem layout_last_start (h : layout name ub q a ss = .ok ss') (hub : ub < 2 ^ 32)
    (hq : ∀ b ∈ (ss.map ISect.blocks).dropLast, q ≤ b)
    (hle : a + ((ss.map ISect.blocks).dropLast.map (· - q)).sum ≤ ub) {last : ISect}
    (hget : ss'[ss'.length - 1]? = some last) :
    last.start = a + ((ss.map ISect.blocks).dropLast.map (· - q)).sum := by
  induction ss generalizing a ss' with
  | nil =>
    cases h
    cases hget
  | cons is ss ih =>
    obtain ⟨_, rest, hstop, hrest, rfl⟩ := layout_cons h
    cases ss with
    | nil =>
      cases hrest
      cases hget
      rfl
    | cons js ss =>
      simp only [map_cons, dropLast_cons_cons, forall_mem_cons, sum_cons] at hq hle ⊢
      rw [if_neg (by simp), u32_fit_eq hq.1 (by omega)] at hstop
      have hlen := layout_length hrest
      have hlast : rest[rest.length - 1]? = some last := by
        rw [length_cons] at hlen
        rw [length_cons, hlen, show ss.length + 1 + 1 - 1 = ss.length + 1 by omega, getElem?_cons_succ]
          at hget
        rw [hlen]
        exact hget
      have hstart := ih hrest hq.2 (by rw [map_cons]; omega) hlast
      rw [map_cons] at hstart
      omega

theorem sum_eq_shares {bs : List Nat} (hq : ∀ b ∈ bs.dropLast, q ≤ b) :
    bs.sum = (bs.dropLast.map (· - q)).sum + (bs.length - 1) * q + bs.getLastD 0 := by
  induction bs with
  | nil => simp
  | cons b bs ih =>
    cases bs with
    | nil => simp
    | cons c bs =>
      simp only [dropLast_cons_cons, forall_mem_cons] at hq
      have ih := ih hq.2
      simp only [dropLast_cons_cons, map_cons, sum_cons, length_cons, getLastD_cons,
        Nat.add_sub_cancel, Nat.succ_mul] at ih ⊢
      omega

end

/-- The last section is never too large, but for a single block. -/
theorem used_le_iff {bs : List Nat} (hle : used bs.sum ≤ usable bs.sum) (hq : ∀ b ∈ bs.dropLast, share bs ≤ b) :
    used bs.sum ≤ (bs.dropLast.map (· - share bs)).sum + bs.getLastD 0 ↔ 2 ≤ bs.sum := by
  have hsum := sum_eq_shares hq
  constructor
  · intro h
    have := two_le_used bs.sum
    omega
  intro h2
  have hmul : (bs.length - 1) * share bs ≤ usable bs.sum - used bs.sum :=
    Nat.le_trans (Nat.mul_le_mul_right _ (Nat.sub_le _ _)) (Nat.mul_div_le _ _)
  have husable : usable bs.sum ≤ bs.sum := by
    unfold usable
    split <;> omega
  omega

theorem ends_iff {name : Name} {sects : List ISect} {ix : Index} (hm : Made name sects ix)
    (hq : ∀ b ∈ (sects.map ISect.blocks).dropLast, share (sects.map ISect.blocks) ≤ b)
    (hle : ((sects.map ISect.blocks).dropLast.map (· - share (sects.map ISect.blocks))).sum ≤ ix.buckets) :
    ix.EndsHold ↔ (∀ b ∈ (sects.map ISect.blocks).dropLast.head?, share (sects.map ISect.blocks) < b) ∧
      ((sects.map ISect.blocks).dropLast.map (· - share (sects.map ISect.blocks))).sum < ix.buckets := by
  have hub : ix.buckets < 2 ^ 32 := by
    have := used_le (sects.map ISect.blocks).sum
    rw [hm.buckets]
    omega
  have hlay := hm.layout
  have hlen := layout_length hlay
  have hne := length_pos_iff.mpr hm.nonempty
  have hfirst := getElem?_eq_getElem (l := ix.sects) (i := 0) (by omega)
  have hlast := getElem?_eq_getElem (l := ix.sects) (i := ix.sects.length - 1) (by omega)
  generalize share (sects.map ISect.blocks) = q at *
  have hstart := layout_last_start hlay hub hq (by omega) hlast
  have hstop : (∀ b ∈ (sects.map ISect.blocks).dropLast.head?, q < b) ↔ 0 < ix.sects[0].stop := by
    cases sects with
    | nil => cases hne
    | cons is rest =>
      cases rest with
      | nil =>
        have hpos := used_pos ([is].map ISect.blocks).sum
        rw [(layout_chained hlay hm.nonempty).stop_last hfirst hlen, hm.buckets]
        exact ⟨fun _ => hpos, fun _ b hb => by cases hb⟩
      | cons js rest =>
        simp only [map_cons, dropLast_cons_cons, forall_mem_cons, sum_cons, head?_cons,
          Option.mem_some, forall_eq'] at hq hle ⊢
        rw [layout_first_stop hlay hq.1 (by omega) hfirst]
        omega
  rw [hstop]
  constructor
  · intro he
    exact ⟨he.first _ hfirst, by rw [← Nat.zero_add (sum _), ← hstart]; exact he.last _ hlast⟩
  rintro ⟨h1, _⟩
  refine ⟨fun is his => ?_, fun is his => ?_⟩
  · rw [hfirst] at his
    cases his
    exact h1
  · rw [hlast] at his
    cases his
    omega

theorem shares_iff {name : Name} {sects : List ISect} {ix : Index} (hm : Made name sects ix) :
    Fit ix.sects ∧ ix.EndsHold ↔ Shares (sects.map ISect.blocks) := by
  have hub := used_le (sects.map ISect.blocks).sum
  have hshare : share (sects.map ISect.blocks) < 2 ^ 32 := by
    refine Nat.lt_of_le_of_lt (Nat.div_le_self _ _) ?_
    have : usable (sects.map ISect.blocks).sum ≤ 43383508 := by
      unfold usable
      split <;> omega
    omega
  rw [fit_iff hm.layout hm.nonempty (by omega) hshare (by rw [hm.buckets]; omega)]
  rw [Nat.zero_add]
  constructor
  · rintro ⟨⟨hq, hle, hge⟩, he⟩
    obtain ⟨hf, hl⟩ := (ends_iff hm hq hle).mp he
    rw [hm.buckets] at hl hge
    exact ⟨(used_le_iff hm.used_le hq).mp hge, hq, hf, hl⟩
  intro h
  have hge := (used_le_iff hm.used_le h.enough).mpr h.two
  have hl := h.last
  rw [← hm.buckets] at hge hl
  exact ⟨⟨h.enough, Nat.le_of_lt hl, hge⟩, (ends_iff hm h.enough (Nat.le_of_lt hl)).mpr ⟨h.first, hl⟩⟩

/-- **The layout of a new index**: `newindex` lays the buckets out over the sections as it should
exactly if the sections have their shares. -/
theorem newindex_laidOut_iff {name : Name} {sects : List ISect} {ix : Index}
    (hpos : ∀ is ∈ sects, 0 < is.blocks) (h : newindex name sects = .ok ix) :
    ix.LaidOut ↔ Shares (sects.map ISect.blocks) := by
  have hm := newindex_made hpos h
  rw [laidOut_iff (layout_chained hm.layout hm.nonempty) hm.div hm.div_pos]
  exact shares_iff hm

/-- A freshly formatted section. -/
def freshSect (name : Name) (blocks : Nat) (h : blocks < 2 ^ 32) : ISect :=
  { name := name, index := [], blocksize := 8192, tabsize := 524288, blocks := blocks, start := 0, stop := 0,
    blocks_lt := h }

/-- Two sections of one size. -/
def equalSects : List ISect := [freshSect ['a'] 131072 (by decide), freshSect ['b'] 131072 (by decide)]

theorem newindex_laidOut_equal : ∃ ix, newindex ['m'] equalSects = .ok ix ∧ ix.LaidOut := by
  have hok : (newindex ['m'] equalSects).isOk = true := by decide
  cases h : newindex ['m'] equalSects with
  | error e =>
    rw [h] at hok
    cases hok
  | ok ix =>
    refine ⟨ix, rfl, (newindex_laidOut_iff ?_ h).mpr ?_⟩
    · decide
    · exact ⟨by decide, by decide, by decide, by decide⟩

/-- A small section beside a large one: the small one has fewer blocks than its share. -/
def unequalSects : List ISect := [freshSect ['a'] 10000 (by decide), freshSect ['b'] 19990000 (by decide)]

theorem newindex_small_wraps : (∀ is ∈ unequalSects, 0 < is.blocks) ∧ ∃ ix,
    newindex ['m'] unequalSects = .ok ix ∧
    ix.sects.map (fun is => (is.start, is.stop)) = [(0, 4294965593), (4294965593, 19976593)] ∧ ¬ ix.LaidOut := by
  have hpos : ∀ is ∈ unequalSects, 0 < is.blocks := by decide
  have hval : (newindex ['m'] unequalSects).map (fun ix => ix.sects.map fun is => (is.start, is.stop)) =
      .ok [(0, 4294965593), (4294965593, 19976593)] := by rfl
  refine ⟨hpos, ?_⟩
  cases h : newindex ['m'] unequalSects with
  | error e =>
    rw [h] at hval
    cases hval
  | ok ix =>
    rw [h] at hval
    refine ⟨ix, rfl, Except.ok.inj hval, fun hl => ?_⟩
    have hm := newindex_made hpos h
    have hs := (shares_iff hm).mp ((laidOut_iff (layout_chained hm.layout hm.nonempty) hm.div hm.div_pos).mp hl)
    exact absurd hs.enough (by decide)

end Plan9.Venti
