/-
Vectors of 32-bit digits, the lowest first, and the numbers they are.

`val l` is the number. The facts are how it goes with the list operations that cut a vector
in pieces, and when a vector is known by it. `bit` is a comparison as C's arithmetic takes
it: the carry out of an addition, or the borrow of a subtraction.
-/
import Mathlib.Data.Nat.Digits.Lemmas

namespace Digits

def val (l : List UInt32) : Nat := Nat.ofDigits (2 ^ 32) (l.map UInt32.toNat)

def bit (p : Prop) [Decidable p] : UInt32 := if p then 1 else 0

variable {l m : List UInt32} {d : UInt32} {k : Nat}

theorem base_pow_succ (k : Nat) : ((2 : Nat) ^ 32) ^ (k + 1) = 2 ^ 32 * (2 ^ 32) ^ k := Nat.pow_succ'

@[simp] theorem val_nil : val [] = 0 := rfl

theorem val_cons (d : UInt32) (l : List UInt32) : val (d :: l) = d.toNat + 2 ^ 32 * val l := by
  unfold val
  rw [List.map_cons, Nat.ofDigits_cons]

theorem val_append (l m : List UInt32) : val (l ++ m) = val l + (2 ^ 32) ^ l.length * val m := by
  unfold val
  rw [List.map_append, Nat.ofDigits_append, List.length_map]

theorem val_lt (l : List UInt32) : val l < (2 ^ 32) ^ l.length := by
  have hlt := @Nat.ofDigits_lt_base_pow_length (2 ^ 32) (l.map UInt32.toNat) (by decide) fun x hx => by
    obtain ⟨d, _, rfl⟩ := List.mem_map.1 hx
    exact d.toNat_lt
  rwa [List.length_map] at hlt

theorem val_replicate_zero (k : Nat) : val (List.replicate k 0) = 0 := by
  unfold val
  rw [List.map_replicate]
  exact Nat.ofDigits_replicate_zero

theorem val_singleton (d : UInt32) : val [d] = d.toNat := by
  rw [val_cons, val_nil]
  omega

theorem val_take_drop (h : k ≤ l.length) : val l = val (l.take k) + (2 ^ 32) ^ k * val (l.drop k) := by
  conv_lhs => rw [← List.take_append_drop k l]
  rw [val_append, List.length_take, Nat.min_eq_left h]

theorem val_take (h : k ≤ l.length) : val (l.take k) = val l % (2 ^ 32) ^ k := by
  have hlt := val_lt (l.take k)
  rw [List.length_take, Nat.min_eq_left h] at hlt
  rw [val_take_drop h, Nat.add_mul_mod_self_left, Nat.mod_eq_of_lt hlt]

theorem val_drop (h : k ≤ l.length) : val (l.drop k) = val l / (2 ^ 32) ^ k := by
  have hlt := val_lt (l.take k)
  rw [List.length_take, Nat.min_eq_left h] at hlt
  rw [val_take_drop h, Nat.add_mul_div_left _ _ (by positivity), Nat.div_eq_of_lt hlt, Nat.zero_add]

theorem val_eq_zero_iff : val l = 0 ↔ ∀ d ∈ l, d = 0 := by
  induction l with
  | nil => simp
  | cons d l ih =>
    rw [val_cons, List.forall_mem_cons, ← ih, ← UInt32.toNat_inj]
    change _ ↔ d.toNat = 0 ∧ _
    omega

/-! ## Carries and borrows -/

theorem toNat_bit (p : Prop) [Decidable p] : (bit p).toNat = if p then 1 else 0 := by
  unfold bit
  split <;> rfl

theorem add_carry (x y : UInt32) : (x + y).toNat + 2 ^ 32 * (bit (x + y < y)).toNat = x.toNat + y.toNat := by
  have hx := x.toNat_lt
  have hy := y.toNat_lt
  rw [toNat_bit, UInt32.toNat_add]
  by_cases h : x + y < y
  · have h' := UInt32.lt_iff_toNat_lt.1 h
    rw [UInt32.toNat_add] at h'
    rw [if_pos h]
    omega
  have h' := UInt32.le_iff_toNat_le.1 (UInt32.not_lt.1 h)
  rw [UInt32.toNat_add] at h'
  rw [if_neg h]
  omega

theorem sub_borrow (x y : UInt32) : (x - y).toNat + y.toNat = x.toNat + 2 ^ 32 * (bit (x - y > x)).toNat := by
  have hx := x.toNat_lt
  have hy := y.toNat_lt
  rw [toNat_bit, UInt32.toNat_sub]
  by_cases h : x - y > x
  · have h' := UInt32.lt_iff_toNat_lt.1 h
    rw [UInt32.toNat_sub] at h'
    rw [if_pos h]
    omega
  have h' := UInt32.le_iff_toNat_le.1 (UInt32.not_lt.1 h)
  rw [UInt32.toNat_sub] at h'
  rw [if_neg h]
  omega

theorem sub_gt_iff {x y : UInt32} : x - y > x ↔ x < y := by
  have hy := y.toNat_lt
  rw [gt_iff_lt, UInt32.lt_iff_toNat_lt, UInt32.lt_iff_toNat_lt, UInt32.toNat_sub]
  omega

theorem sub_borrow_lt (x y : UInt32) : (x - y).toNat + y.toNat = x.toNat + 2 ^ 32 * (bit (x < y)).toNat := by
  have h := sub_borrow x y
  rw [toNat_bit] at h ⊢
  by_cases hlt : x < y
  · rw [if_pos (sub_gt_iff.2 hlt)] at h
    rw [if_pos hlt]
    exact h
  · rw [if_neg fun hgt => hlt (sub_gt_iff.1 hgt)] at h
    rw [if_neg hlt]
    exact h

theorem bit_le_one (p : Prop) [Decidable p] : (bit p).toNat ≤ 1 := by
  rw [toNat_bit]
  split <;> decide

end Digits
