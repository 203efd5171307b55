/-
How fossil addresses the blocks of a file (`sizeToDepth` and `_sourceBlock` of
`fossil/source.c`): the depth from the size, and the way to a block from its number.

The depth comes from dividing up, in `uvlong`s, and the way from dividing down. What they
agree on is `np ^ d`: a tree of depth `d` has so many blocks, and their numbers are those of
at most `d` digits. A path is the indices in the order in which `blockWalk` takes them, the
place of the entry first; the digits of a number can be read off it again.
-/
import Mathlib.Data.Nat.Digits.Defs
import Plan9.Fossil.ReadFacts

namespace Plan9.Fossil

open List

/-! ## The depth -/

/-- `for(d = 0; s > 1; d++)`, for at most `fuel` rounds. -/
def depthLoop64 (np : UInt64) : Nat → UInt64 → Nat
  | 0, _ => 0
  | fuel + 1, s => if s > 1 then depthLoop64 np fuel ((s + np - 1) / np) + 1 else 0

/-- Each round at least halves what is over, so that there are no more of them than bits. -/
def sizeToDepth64 (s psize dsize : UInt64) : Nat :=
  let np := psize / 20
  depthLoop64 np 64 ((s + dsize - 1) / dsize)

theorem toNat_divUp {s n : UInt64} (h : s.toNat + n.toNat < 2 ^ 64) (hn : 0 < n.toNat) :
    ((s + n - 1) / n).toNat = (s.toNat + n.toNat - 1) / n.toNat := by
  have hadd : (s + n).toNat = s.toNat + n.toNat := by
    rw [UInt64.toNat_add, Nat.mod_eq_of_lt h]
  have hle : (1 : UInt64) ≤ s + n := by
    rw [UInt64.le_iff_toNat_le, hadd]
    change 1 ≤ _
    omega
  rw [UInt64.toNat_div, UInt64.toNat_sub_of_le _ _ hle, hadd]
  rfl

theorem depthLoop64_eq {np : UInt64} (hnp : 2 ≤ np.toNat) (hwide : np.toNat < 2 ^ 63) : ∀ (fuel : Nat) (s : UInt64),
    s.toNat ≤ 2 ^ fuel → s.toNat < 2 ^ 63 → depthLoop64 np fuel s = depthLoop np.toNat s.toNat := by
  intro fuel
  induction fuel with
  | zero =>
    intro s hs _
    rw [depthLoop64, depthLoop, dif_neg (by omega)]
  | succ fuel ih =>
    intro s hs hlt
    rw [depthLoop64, depthLoop]
    by_cases h1 : 1 < s.toNat
    · have hup := toNat_divUp (s := s) (n := np) (by omega) (by omega)
      have hhalf : (s.toNat + np.toNat - 1) / np.toNat ≤ (s.toNat + 1) / 2 := by
        rw [← Nat.lt_add_one_iff, Nat.div_lt_iff_lt_mul (by omega)]
        have hmul : ((s.toNat + 1) / 2) * 2 ≤ ((s.toNat + 1) / 2) * np.toNat := Nat.mul_le_mul_left _ hnp
        rw [Nat.add_mul, Nat.one_mul]
        omega
      rw [if_pos (show s > 1 from UInt64.lt_iff_toNat_lt.2 h1), dif_pos ⟨h1, by omega⟩, ih _ (by omega) (by omega), hup]
    · have hstop : ¬ s > 1 := fun h => h1 (UInt64.lt_iff_toNat_lt.1 h)
      rw [if_neg hstop, dif_neg (fun h => h1 h.1)]

theorem sizeToDepth64_eq {s psize dsize : UInt64} (hs : s.toNat < 2 ^ 48) (hp : 256 ≤ psize.toNat) (hp' : psize.toNat < 2 ^ 31)
    (hd : 256 ≤ dsize.toNat) (hd' : dsize.toNat < 2 ^ 31) :
    sizeToDepth64 s psize dsize = sizeToDepth s.toNat psize.toNat dsize.toNat := by
  have hnp : (psize / 20).toNat = psize.toNat / vtScoreSize := by
    rfl
  have hup := toNat_divUp (s := s) (n := dsize) (by omega) (by omega)
  have hblocks : (s.toNat + dsize.toNat - 1) / dsize.toNat < 2 ^ 63 :=
    Nat.lt_of_le_of_lt (Nat.div_le_self _ _) (by omega)
  rw [sizeToDepth64, sizeToDepth, depthLoop64_eq (by rw [hnp]; unfold vtScoreSize; omega) (by rw [hnp]; unfold vtScoreSize; omega)
    64 _ (by omega) (by omega), hnp, hup]

/-! ## The path -/

/-- `VtPointerDepth` -/
def vtPointerDepth : Nat := 7

/-- `NilBlock`, as a `ulong` -/
def nilBlock : UInt32 := 0xffffffff

inductive AddressError
  | assertion
  | badAddr
deriving DecidableEq

/-- `_sourceBlock` for block `bn` of a file of depth `depth` whose entry is at `slot`: the depth, to which the tree is
grown where it is less, and the indices of the walk. -/
def sourcePath (np depth slot : Nat) (readOnly : Bool) (bn : UInt32) : Except AddressError (Nat × List Nat) :=
  if bn = nilBlock then .error .assertion
  else
    match indexLoop np vtPointerDepth bn.toNat with
    | none => .error .badAddr
    | some digits =>
      let i := digits.length
      if i > depth ∧ readOnly then .error .badAddr
      else
        let depth := max i depth
        let index := (digits ++ List.replicate (vtPointerDepth + 1 - i) 0).set depth slot
        .ok (depth, (index.take (depth + 1)).reverse)

variable {np depth slot d : Nat} {readOnly : Bool} {bn : UInt32} {path : List Nat}

theorem indexLoop_some : ∀ {k bn : Nat} {digits : List Nat}, indexLoop np k bn = some digits →
    digits.length ≤ k ∧ Nat.ofDigits np digits = bn := by
  intro k
  induction k with
  | zero =>
    intro bn digits h
    cases bn with
    | zero =>
      cases h
      exact ⟨Nat.le_refl 0, rfl⟩
    | succ bn => cases h
  | succ k ih =>
    intro bn digits h
    cases bn with
    | zero =>
      cases h
      exact ⟨Nat.zero_le _, rfl⟩
    | succ bn =>
      rw [indexLoop] at h
      cases hrest : indexLoop np k ((bn + 1) / np) with
      | none =>
        rw [hrest] at h
        cases h
      | some rest =>
        rw [hrest] at h
        cases h
        obtain ⟨_, hval⟩ := ih hrest
        refine ⟨by rw [length_cons]; omega, ?_⟩
        rw [Nat.ofDigits_cons, hval, Nat.mod_add_div]

/-- The indices: where the entry is, and the digits of the number, highest first, with zeros before them. -/
theorem sourcePath_ok (hd : depth ≤ vtPointerDepth)
    (h : sourcePath np depth slot readOnly bn = .ok (d, path)) :
    ∃ digits, indexLoop np vtPointerDepth bn.toNat = some digits ∧ d = max digits.length depth ∧
      path = slot :: (digits ++ List.replicate (d - digits.length) 0).reverse := by
  rw [sourcePath] at h
  by_cases hnil : bn = nilBlock
  · rw [if_pos hnil] at h
    cases h
  rw [if_neg hnil] at h
  cases hdigits : indexLoop np vtPointerDepth bn.toNat with
  | none =>
    rw [hdigits] at h
    cases h
  | some digits =>
    rw [hdigits] at h
    dsimp only at h
    have hlen := (indexLoop_some hdigits).1
    by_cases hgrow : digits.length > depth ∧ readOnly
    · rw [if_pos hgrow] at h
      cases h
    rw [if_neg hgrow] at h
    cases h
    refine ⟨digits, rfl, rfl, ?_⟩
    obtain ⟨d, hmax⟩ : ∃ d, d = max digits.length depth := ⟨_, rfl⟩
    rw [← hmax]
    -- the zeros up to the place of the entry, that place, and what is behind it
    have hsplit : digits ++ replicate (vtPointerDepth + 1 - digits.length) 0 =
        (digits ++ replicate (d - digits.length) 0) ++ 0 :: replicate (vtPointerDepth - d) 0 := by
      rw [append_assoc, ← replicate_succ, replicate_append_replicate]
      congr 2
      omega
    have hwidth : (digits ++ replicate (d - digits.length) 0).length = d := by
      rw [length_append, length_replicate]
      omega
    rw [hsplit, set_append_right _ _ (by omega), hwidth, Nat.sub_self, set_cons_zero, take_append,
      take_of_length_le (by omega), hwidth, Nat.add_sub_cancel_left, take_succ_cons, take_zero,
      reverse_append]
    rfl

theorem sourcePath_number
    (hd : depth ≤ vtPointerDepth) (h : sourcePath np depth slot readOnly bn = .ok (d, path)) :
    Nat.ofDigits np path.tail.reverse = bn.toNat := by
  obtain ⟨_, hdigits, -, rfl⟩ := sourcePath_ok hd h
  rw [tail_cons, reverse_reverse, Nat.ofDigits_append_replicate_zero]
  exact (indexLoop_some hdigits).2

theorem sourcePath_injective {d' : Nat} {bn' : UInt32}
    (hd : depth ≤ vtPointerDepth) (h : sourcePath np depth slot readOnly bn = .ok (d, path))
    (h' : sourcePath np depth slot readOnly bn' = .ok (d', path)) : bn = bn' :=
  UInt32.toNat_inj.1 ((sourcePath_number hd h).symm.trans (sourcePath_number hd h'))

theorem sourcePath_lt (readOnly : Bool) (hnp : 2 ≤ np) (hd : depth ≤ vtPointerDepth)
    (hnil : bn ≠ nilBlock) (hlt : bn.toNat < np ^ depth) : ∃ path, sourcePath np depth slot readOnly bn = .ok (depth, path) := by
  obtain ⟨_, hdigits, hlen, -⟩ := indexLoop_spec hnp vtPointerDepth depth bn.toNat hlt hd
  rw [sourcePath, if_neg hnil, hdigits]
  dsimp only
  rw [if_neg (fun h => by omega), Nat.max_eq_right hlen]
  exact ⟨_, rfl⟩

/-! ## The two together -/

/-- **Addresses.** The depth of a file is the least at which its bytes have room, the paths tell the block numbers apart,
and every number below the number of blocks, but for `NilBlock`, is reached in a tree of that depth, or of a greater. -/
theorem block_addresses {size psize dsize : UInt64} (hs : size.toNat < 2 ^ 48) (hp : 256 ≤ psize.toNat) (hp' : psize.toNat < 2 ^ 31)
    (hd : 256 ≤ dsize.toNat) (hd' : dsize.toNat < 2 ^ 31) :
    let np := psize.toNat / vtScoreSize
    IsLeast { d | size.toNat ≤ dsize.toNat * np ^ d } (sizeToDepth64 size psize dsize) ∧
    ∀ depth ≤ vtPointerDepth, ∀ slot readOnly,
      (∀ bn bn' d d' path, sourcePath np depth slot readOnly bn = .ok (d, path) →
        sourcePath np depth slot readOnly bn' = .ok (d', path) → bn = bn') ∧
      (sizeToDepth64 size psize dsize ≤ depth → ∀ bn : UInt32, bn ≠ nilBlock →
        bn.toNat < (size.toNat + dsize.toNat - 1) / dsize.toNat →
        ∃ path, sourcePath np depth slot readOnly bn = .ok (depth, path)) := by
  intro np
  have hnp : 2 ≤ np := by
    change 2 ≤ psize.toNat / 20
    omega
  have hle : ∀ d, sizeToDepth64 size psize dsize ≤ d ↔ size.toNat ≤ dsize.toNat * np ^ d := by
    intro d
    rw [sizeToDepth64_eq hs hp hp' hd hd']
    exact sizeToDepth_le hp hd _ d
  refine ⟨⟨(hle _).1 (Nat.le_refl _), fun d hroom => (hle d).2 hroom⟩, fun depth hdepth slot readOnly =>
    ⟨fun _ _ _ _ _ h h' => sourcePath_injective hdepth h h', fun hfits bn hnil hlt => ?_⟩⟩
  refine sourcePath_lt readOnly hnp hdepth hnil ?_
  -- so many blocks have room for the size
  have hroom := (hle depth).1 hfits
  rw [Nat.lt_div_iff_mul_lt (by omega)] at hlt
  by_contra hge
  have hmul : dsize.toNat * np ^ depth ≤ dsize.toNat * bn.toNat := Nat.mul_le_mul_left _ (Nat.not_lt.1 hge)
  rw [Nat.mul_comm dsize.toNat bn.toNat] at hmul
  omega

/-- Thirteen blocks with twelve pointers to a block: block 12 is reached at depth 2. -/
theorem block_addresses_thirteen : ∃ path, sourcePath 12 2 5 true 12 = .ok (2, path) :=
  have hall := @block_addresses 3328 256 256 (by decide) (by decide) (by decide) (by decide) (by decide)
  (hall.2 2 (by decide) 5 true).2 (by decide +kernel) 12 (by decide) (by decide)

/-- A file of `2 ^ 47` bytes has a block `NilBlock`, which is asserted not to be asked for. -/
theorem nilBlock_asserted :
    sizeToDepth64 0x800000000000 8192 256 = 5 ∧ sourcePath (8192 / vtScoreSize) 5 0 true nilBlock = .error .assertion ∧
    ¬ ∀ size psize dsize : UInt64, size.toNat < 2 ^ 48 → 256 ≤ psize.toNat → 256 ≤ dsize.toNat →
      sizeToDepth64 size psize dsize ≤ vtPointerDepth → ∀ bn : UInt32, bn.toNat < (size.toNat + dsize.toNat - 1) / dsize.toNat →
      ∃ path, sourcePath (psize.toNat / vtScoreSize) (sizeToDepth64 size psize dsize) 0 true bn =
        .ok (sizeToDepth64 size psize dsize, path) := by
  have hdepth : sizeToDepth64 0x800000000000 8192 256 = 5 := by decide +kernel
  have hfail : sourcePath (8192 / vtScoreSize) 5 0 true nilBlock = .error .assertion := by decide
  refine ⟨hdepth, hfail, fun h => ?_⟩
  obtain ⟨path, hpath⟩ := h 0x800000000000 8192 256 (by decide) (by decide) (by decide) (by rw [hdepth]; decide) nilBlock (by decide)
  cases hpath

end Plan9.Fossil
