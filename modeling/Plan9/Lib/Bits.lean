/-
Bit strings, first bit first, and words that hold one in their low bits.

A coder shifts codes into a word and takes bytes off the top; a decoder shifts
bytes in and takes codes off. `Held w n xs` says that the low `n` bits of `w` are
`xs`: `Held.push` is the shift in, `Held.pop` the look at the top, and what is above the
low `n` bits never matters.
-/
import Mathlib.Tactic.Ring
import Mathlib.Data.Nat.Bitwise

namespace Bits

def ofBits : List Bool → Nat
  | [] => 0
  | b :: bs => b.toNat * 2 ^ bs.length + ofBits bs

/-- The low `k` bits of `v`. -/
def toBits : Nat → Nat → List Bool
  | 0, _ => []
  | k + 1, v => decide (v / 2 ^ k % 2 = 1) :: toBits k v

def ofBytes (bs : List UInt8) : List Bool := bs.flatMap (fun b => toBits 8 b.toNat)

@[simp] theorem length_toBits (k v : Nat) : (toBits k v).length = k := by
  induction k with
  | zero => rfl
  | succ k ih => simp [toBits, ih]

@[simp] theorem length_ofBytes (bs : List UInt8) : (ofBytes bs).length = 8 * bs.length := by
  induction bs with
  | nil => rfl
  | cons b bs ih =>
    rw [ofBytes, List.flatMap_cons, List.length_append, length_toBits, ← ofBytes, ih, List.length_cons]
    omega

@[simp] theorem ofBytes_nil : ofBytes [] = [] := rfl

theorem ofBytes_cons (b : UInt8) (bs : List UInt8) : ofBytes (b :: bs) = toBits 8 b.toNat ++ ofBytes bs := rfl

theorem ofBytes_append (xs ys : List UInt8) : ofBytes (xs ++ ys) = ofBytes xs ++ ofBytes ys := by
  simp [ofBytes]

theorem ofBits_lt (xs : List Bool) : ofBits xs < 2 ^ xs.length := by
  induction xs with
  | nil => exact Nat.one_pos
  | cons b xs ih =>
    rw [ofBits, List.length_cons, Nat.pow_succ]
    cases b <;> simp only [Bool.toNat_false, Bool.toNat_true] <;> omega

theorem ofBits_append (xs ys : List Bool) : ofBits (xs ++ ys) = ofBits xs * 2 ^ ys.length + ofBits ys := by
  induction xs with
  | nil => simp [ofBits]
  | cons b xs ih =>
    rw [List.cons_append, ofBits, ofBits, ih, List.length_append, Nat.pow_add]
    ring

theorem ofBits_toBits (k v : Nat) : ofBits (toBits k v) = v % 2 ^ k := by
  induction k with
  | zero => simp [toBits, ofBits, Nat.mod_one]
  | succ k ih =>
    rw [toBits, ofBits, length_toBits, ih, Nat.mod_pow_succ]
    rcases Nat.mod_two_eq_zero_or_one (v / 2 ^ k) with h | h <;> simp [h, Nat.add_comm]

theorem toBits_add (j k v : Nat) : toBits (j + k) v = toBits j (v / 2 ^ k) ++ toBits k v := by
  induction j with
  | zero => simp [toBits]
  | succ j ih =>
    rw [Nat.succ_add, toBits, toBits, ih, List.cons_append, Nat.div_div_eq_div_mul, Nat.pow_add, Nat.mul_comm (2 ^ k)]

theorem ofBits_inj {xs ys : List Bool} (hl : xs.length = ys.length) (h : ofBits xs = ofBits ys) : xs = ys := by
  induction xs generalizing ys with
  | nil => exact (List.length_eq_zero_iff.1 hl.symm).symm
  | cons b xs ih =>
    cases ys with
    | nil => cases hl
    | cons c ys =>
      have hl' : xs.length = ys.length := by simpa using hl
      have hx := ofBits_lt xs
      have hy := ofBits_lt ys
      rw [ofBits, ofBits, hl'] at h
      rw [hl'] at hx
      have hbc : b = c := by
        cases b <;> cases c <;> simp only [Bool.toNat_false, Bool.toNat_true] at h <;> first | rfl | omega
      subst hbc
      rw [ih hl' (by omega)]

theorem toBits_ofBits (xs : List Bool) : toBits xs.length (ofBits xs) = xs := by
  refine ofBits_inj (length_toBits _ _) ?_
  rw [ofBits_toBits, Nat.mod_eq_of_lt (ofBits_lt xs)]

theorem toBits_mod (k v : Nat) : toBits k (v % 2 ^ k) = toBits k v := by
  refine ofBits_inj (by simp) ?_
  rw [ofBits_toBits, ofBits_toBits, Nat.mod_mod]

theorem toBits_append (j k a b : Nat) : toBits j a ++ toBits k b = toBits (j + k) (a * 2 ^ k + b % 2 ^ k) := by
  have hlt := Nat.mod_lt b (Nat.two_pow_pos k)
  have hdiv : (a * 2 ^ k + b % 2 ^ k) / 2 ^ k = a := by
    rw [Nat.mul_comm, Nat.mul_add_div (Nat.two_pow_pos k), Nat.div_eq_of_lt hlt, Nat.add_zero]
  have hmod : (a * 2 ^ k + b % 2 ^ k) % 2 ^ k = b % 2 ^ k := by
    rw [Nat.mul_comm, Nat.mul_add_mod, Nat.mod_mod]
  rw [toBits_add, hdiv, ← toBits_mod k (a * 2 ^ k + b % 2 ^ k), hmod, toBits_mod]

/-! ## Words -/

structure Held (w n : Nat) (xs : List Bool) : Prop where
  length : xs.length = n
  val : w % 2 ^ n = ofBits xs

theorem Held.zero : Held 0 0 [] := ⟨rfl, rfl⟩

theorem Held.push {w n k v m : Nat} {xs : List Bool} (h : Held w n xs) (hv : v < 2 ^ k) (hm : n + k ≤ m) :
    Held ((w <<< k ||| v) % 2 ^ m) (n + k) (xs ++ toBits k v) := by
  refine ⟨by simp [h.length], ?_⟩
  rw [Nat.mod_mod_of_dvd _ (Nat.pow_dvd_pow 2 hm), ← Nat.shiftLeft_add_eq_or_of_lt hv, Nat.shiftLeft_eq, ofBits_append,
    ofBits_toBits, length_toBits, ← h.val, Nat.mod_eq_of_lt hv, Nat.pow_add]
  have hlt : (w % 2 ^ n) * 2 ^ k + v < 2 ^ n * 2 ^ k := by
    have := Nat.mod_lt w (Nat.two_pow_pos n)
    calc (w % 2 ^ n) * 2 ^ k + v < (w % 2 ^ n) * 2 ^ k + 2 ^ k := by omega
      _ = (w % 2 ^ n + 1) * 2 ^ k := by ring
      _ ≤ 2 ^ n * 2 ^ k := Nat.mul_le_mul_right _ this
  conv_lhs => rw [← Nat.div_add_mod w (2 ^ n)]
  rw [Nat.add_mul, Nat.add_assoc, Nat.mul_right_comm, Nat.mul_add_mod, Nat.mod_eq_of_lt hlt]

theorem Held.pop {w n : Nat} {xs ys : List Bool} (h : Held w n (xs ++ ys)) :
    (w >>> ys.length) % 2 ^ xs.length = ofBits xs ∧ Held w ys.length ys := by
  have hn : n = ys.length + xs.length := by
    rw [← h.length, List.length_append, Nat.add_comm]
  have hval := h.val
  have hy := ofBits_lt ys
  rw [ofBits_append, hn] at hval
  refine ⟨?_, rfl, ?_⟩
  · rw [Nat.shiftRight_eq_div_pow, ← Nat.mod_mul_right_div_self, ← Nat.pow_add, hval, Nat.mul_comm,
      Nat.mul_add_div (Nat.two_pow_pos _), Nat.div_eq_of_lt hy, Nat.add_zero]
  · rw [← Nat.mod_mod_of_dvd w (Nat.pow_dvd_pow 2 (Nat.le_add_right ys.length xs.length)), hval, Nat.mul_comm,
      Nat.mul_add_mod, Nat.mod_eq_of_lt hy]

end Bits
