/-
Ranges of numbers that have their leading bits in common.

The numbers with quotient `q` by `2 ^ k` are the range from `q * 2 ^ k` on, as
a mask of contiguous ones cuts it out of a word. Two such ranges are nested or
apart, and a remainder by a power of two takes its least and its greatest value
on one at its ends.
-/
import Mathlib.Tactic.Ring

namespace Prefixes

/-- `[s, e]` is the range of a prefix. -/
def IsPrefix (s e : Nat) : Prop := ∃ k q, s = q * 2 ^ k ∧ e = q * 2 ^ k + (2 ^ k - 1)

theorem mem_iff {k q x : Nat} : q * 2 ^ k ≤ x ∧ x ≤ q * 2 ^ k + (2 ^ k - 1) ↔ x / 2 ^ k = q := by
  have hpos : 0 < 2 ^ k := Nat.two_pow_pos k
  rw [Nat.div_eq_iff hpos]
  omega

theorem IsPrefix.le {s e : Nat} (h : IsPrefix s e) : s ≤ e := by
  obtain ⟨k, q, rfl, rfl⟩ := h
  exact Nat.le_add_right _ _

theorem nested_of_le {k k' q q' : Nat} (hk : k ≤ k') :
    q * 2 ^ k + (2 ^ k - 1) < q' * 2 ^ k' ∨ q' * 2 ^ k' + (2 ^ k' - 1) < q * 2 ^ k ∨
      q' * 2 ^ k' ≤ q * 2 ^ k ∧ q * 2 ^ k + (2 ^ k - 1) ≤ q' * 2 ^ k' + (2 ^ k' - 1) := by
  have hquot : ∀ x, x / 2 ^ k = q → x / 2 ^ k' = q / 2 ^ (k' - k) := by
    rintro x rfl
    rw [Nat.div_div_eq_div_mul, ← Nat.pow_add, Nat.add_sub_cancel' hk]
  have hlo := hquot (q * 2 ^ k) (mem_iff.1 ⟨le_rfl, Nat.le_add_right _ _⟩)
  have hhi := hquot (q * 2 ^ k + (2 ^ k - 1)) (mem_iff.1 ⟨Nat.le_add_right _ _, le_rfl⟩)
  by_cases heq : q / 2 ^ (k' - k) = q'
  · rw [heq] at hlo hhi
    exact .inr (.inr ⟨(mem_iff.2 hlo).1, (mem_iff.2 hhi).2⟩)
  by_contra hnot
  rw [not_or, not_or, not_lt, not_lt] at hnot
  obtain ⟨h1, h2, h3⟩ := hnot
  rcases Nat.le_total (q' * 2 ^ k') (q * 2 ^ k) with hle | hle
  · exact heq (hlo.symm.trans (mem_iff.1 ⟨hle, h2⟩))
  · have hmem : q' * 2 ^ k' / 2 ^ k = q := mem_iff.1 ⟨hle, h1⟩
    rw [← hquot _ hmem] at heq
    exact heq (mem_iff.1 ⟨le_rfl, Nat.le_add_right _ _⟩)

theorem IsPrefix.nested {s e s' e' : Nat} (h : IsPrefix s e) (h' : IsPrefix s' e') :
    e < s' ∨ e' < s ∨ s' ≤ s ∧ e ≤ e' ∨ s ≤ s' ∧ e' ≤ e := by
  obtain ⟨k, q, rfl, rfl⟩ := h
  obtain ⟨k', q', rfl, rfl⟩ := h'
  rcases Nat.le_total k k' with hk | hk
  · rcases @nested_of_le k k' q q' hk with h | h | h
    · exact .inl h
    · exact .inr (.inl h)
    · exact .inr (.inr (.inl h))
  rcases @nested_of_le k' k q' q hk with h | h | h
  · exact .inr (.inl h)
  · exact .inl h
  · exact .inr (.inr (.inr h))

/-- A remainder grows along a prefix no longer than it, and runs through all values on a longer range. -/
theorem IsPrefix.mod_mono {s e x : Nat} (h : IsPrefix s e) (n : Nat) (hs : s ≤ x) (he : x ≤ e) :
    s % 2 ^ n ≤ x % 2 ^ n ∧ x % 2 ^ n ≤ e % 2 ^ n := by
  obtain ⟨k, q, rfl, rfl⟩ := h
  have hpos : 0 < 2 ^ n := Nat.two_pow_pos n
  rcases Nat.le_total n k with hnk | hkn
  · have hlo : q * 2 ^ k % 2 ^ n = 0 :=
      Nat.mod_eq_zero_of_dvd (Dvd.dvd.mul_left (Nat.pow_dvd_pow 2 hnk) q)
    have hhi : (q * 2 ^ k + (2 ^ k - 1)) % 2 ^ n = 2 ^ n - 1 := by
      obtain ⟨d, hd⟩ := Nat.pow_dvd_pow 2 hnk
      have hd1 : 0 < d := by
        rcases Nat.eq_zero_or_pos d with rfl | h
        · have := Nat.two_pow_pos k
          omega
        · exact h
      obtain ⟨d, rfl⟩ := Nat.exists_eq_succ_of_ne_zero (Nat.ne_of_gt hd1)
      have hsplit : q * 2 ^ k + (2 ^ k - 1) = 2 ^ n * (q * (d + 1) + d) + (2 ^ n - 1) := by
        have hmul : 2 ^ n * (q * (d + 1) + d) = q * 2 ^ k + 2 ^ n * d := by
          rw [hd, Nat.succ_eq_add_one]
          ring
        have hstep : 2 ^ k = 2 ^ n * d + 2 ^ n := by
          rw [hd, Nat.succ_eq_add_one]
          ring
        omega
      rw [hsplit, Nat.mul_add_mod, Nat.mod_eq_of_lt (by omega)]
    omega
  have hquot : ∀ y, q * 2 ^ k ≤ y → y ≤ q * 2 ^ k + (2 ^ k - 1) → y / 2 ^ n = q / 2 ^ (n - k) := by
    intro y h1 h2
    rw [← mem_iff.1 ⟨h1, h2⟩, Nat.div_div_eq_div_mul, ← Nat.pow_add, Nat.add_sub_cancel' hkn]
  have h0 := hquot _ le_rfl (Nat.le_add_right _ _)
  have h1 := hquot x hs he
  have h2 := hquot _ (Nat.le_add_right _ _) le_rfl
  have e0 := Nat.div_add_mod (q * 2 ^ k) (2 ^ n)
  have e1 := Nat.div_add_mod x (2 ^ n)
  have e2 := Nat.div_add_mod (q * 2 ^ k + (2 ^ k - 1)) (2 ^ n)
  rw [h0] at e0
  rw [h1] at e1
  rw [h2] at e2
  omega

/-! ## Masks -/

/-- Ones from bit `k` on. -/
def Contiguous {w : Nat} (mask : BitVec w) : Prop := ∃ k, k ≤ w ∧ mask = BitVec.allOnes w <<< k

theorem and_mask {w k : Nat} (a : BitVec w) : (a &&& (BitVec.allOnes w <<< k)).toNat = a.toNat / 2 ^ k * 2 ^ k := by
  refine Nat.eq_of_testBit_eq fun i => ?_
  rw [Nat.testBit_mul_two_pow, Nat.testBit_div_two_pow, BitVec.testBit_toNat, BitVec.testBit_toNat, BitVec.getLsbD_and,
    BitVec.getLsbD_shiftLeft, BitVec.getLsbD_allOnes]
  by_cases hi : k ≤ i
  · rw [Nat.sub_add_cancel hi]
    by_cases hw : i < w
    · have hsub : i - k < w := by omega
      simp [hi, hw, hsub]
    · rw [BitVec.getLsbD_of_ge a i (Nat.not_lt.1 hw)]
      simp
  · simp [hi]

theorem or_not_mask {w k : Nat} (hk : k ≤ w) (a : BitVec w) :
    (a ||| ~~~(BitVec.allOnes w <<< k)).toNat = a.toNat / 2 ^ k * 2 ^ k + (2 ^ k - 1) := by
  refine Nat.eq_of_testBit_eq fun i => ?_
  have hpos := Nat.two_pow_pos k
  rw [Nat.mul_comm, Nat.testBit_two_pow_mul_add _ (by omega), Nat.testBit_div_two_pow, Nat.testBit_two_pow_sub_one,
    BitVec.testBit_toNat, BitVec.testBit_toNat, BitVec.getLsbD_or, BitVec.getLsbD_not, BitVec.getLsbD_shiftLeft,
    BitVec.getLsbD_allOnes]
  by_cases hi : i < k
  · simp [hi, Nat.lt_of_lt_of_le hi hk]
  rw [if_neg hi, Nat.sub_add_cancel (Nat.not_lt.1 hi)]
  by_cases hw : i < w
  · have hsub : i - k < w := by omega
    simp [hi, hw, hsub]
  · simp [hw]

theorem Contiguous.isPrefix {w : Nat} {mask : BitVec w} (h : Contiguous mask) (a : BitVec w) :
    IsPrefix (a &&& mask).toNat (a ||| ~~~mask).toNat := by
  obtain ⟨k, hk, rfl⟩ := h
  exact ⟨k, a.toNat / 2 ^ k, and_mask a, or_not_mask hk a⟩

end Prefixes
