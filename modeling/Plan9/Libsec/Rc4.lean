/-
RC4 of libsec, `rc4.c`: the stream of the cipher, and the ways forth and back in it.
-/
import Plan9.Lib.Buffers
import Mathlib.Algebra.Group.End
import Mathlib.Tactic.Ring

namespace Plan9.Libsec

open Function

structure RC4state where
  state : BitVec 8 → BitVec 8
  x : BitVec 8
  y : BitVec 8

/-- `state[x]` and `state[y]` change places. -/
def exchanged (state : BitVec 8 → BitVec 8) (x y : BitVec 8) : BitVec 8 → BitVec 8 :=
  update (update state x (state y)) y (state x)

/-- The loop of `setupRC4state`, with `n` places to go from `sp` on and `p` in the key. -/
def setupLoop (start : List (BitVec 8)) : Nat → BitVec 8 → Nat → BitVec 8 → (BitVec 8 → BitVec 8) → BitVec 8 → BitVec 8
  | 0, _, _, _, state => state
  | n + 1, sp, p, index2, state =>
    let index2 := start.getD p 0 + state sp + index2
    setupLoop start n (sp + 1) (if p + 1 ≥ start.length then 0 else p + 1) index2 (exchanged state sp index2)

def setupRC4state (start : List (BitVec 8)) : RC4state := ⟨setupLoop start 256 0 0 0 id, 0, 0⟩

namespace RC4state

/-- A round of the loops of `rc4` and `rc4skip`. -/
def next (key : RC4state) : RC4state :=
  let x := key.x + 1
  let y := key.y + key.state x
  ⟨exchanged key.state x y, x, y⟩

def back (key : RC4state) : RC4state := ⟨exchanged key.state key.y key.x, key.x - 1, key.y - key.state key.y⟩

end RC4state

def rc4 : RC4state → List (BitVec 8) → RC4state × List (BitVec 8)
  | key, [] => (key, [])
  | key, b :: p =>
    let byte := key.next.state (key.state key.next.x + key.state key.next.y)
    ((rc4 key.next p).1, (b ^^^ byte) :: (rc4 key.next p).2)

def rc4skip : RC4state → Nat → RC4state
  | key, 0 => key
  | key, n + 1 => rc4skip key.next n

def rc4back : RC4state → Nat → RC4state
  | key, 0 => key
  | key, n + 1 => rc4back key.back n

theorem exchanged_eq (state : BitVec 8 → BitVec 8) (x y : BitVec 8) : exchanged state x y = state ∘ Equiv.swap y x :=
  (Equiv.comp_swap_eq_update y x state).symm

theorem exchanged_exchanged (state : BitVec 8 → BitVec 8) (x y : BitVec 8) : exchanged (exchanged state x y) y x = state := by
  funext i
  simp [exchanged_eq, Equiv.swap_comm x y]

theorem exchanged_right (state : BitVec 8 → BitVec 8) (x y : BitVec 8) : exchanged state x y y = state x := by
  rw [exchanged_eq, comp_apply, Equiv.swap_apply_left]

theorem back_next (key : RC4state) : key.next.back = key := by
  simp only [RC4state.next, RC4state.back, exchanged_exchanged, exchanged_right, BitVec.add_sub_cancel]

theorem next_back (key : RC4state) : key.back.next = key := by
  simp only [RC4state.next, RC4state.back, BitVec.sub_add_cancel, exchanged_right, exchanged_exchanged]

/-- One place forth in the stream. -/
def turn : Equiv.Perm RC4state := ⟨RC4state.next, RC4state.back, back_next, next_back⟩

theorem rc4skip_eq (key : RC4state) (n : Nat) : rc4skip key n = (turn ^ n) key := by
  induction n generalizing key with
  | zero => rfl
  | succ n ih =>
    rw [rc4skip, ih, pow_succ]
    rfl

theorem rc4back_eq (key : RC4state) (n : Nat) : rc4back key n = (turn⁻¹ ^ n) key := by
  induction n generalizing key with
  | zero => rfl
  | succ n ih =>
    rw [rc4back, ih, pow_succ]
    rfl

theorem rc4_eq (key : RC4state) (p : List (BitVec 8)) : (rc4 key p).1 = (turn ^ p.length) key := by
  induction p generalizing key with
  | nil => rfl
  | cons b p ih =>
    rw [rc4, ih, List.length_cons, pow_succ]
    rfl

/-- What a program does with a key. -/
inductive RC4op
  | crypt (p : List (BitVec 8))
  | skip (n : Nat)
  | back (n : Nat)

def RC4op.apply (key : RC4state) : RC4op → RC4state
  | crypt p => (rc4 key p).1
  | skip n => rc4skip key n
  | back n => rc4back key n

/-- How far forth it goes in the stream. -/
def RC4op.places : RC4op → Int
  | crypt p => p.length
  | skip n => n
  | back n => -n

theorem exchanged_bijective {state : BitVec 8 → BitVec 8} (h : Bijective state) (x y : BitVec 8) : Bijective (exchanged state x y) := by
  rw [exchanged_eq]
  exact h.comp (Equiv.bijective _)

theorem setupLoop_bijective (start : List (BitVec 8)) {state : BitVec 8 → BitVec 8} (h : Bijective state) (n : Nat) (sp : BitVec 8)
    (p : Nat) (index2 : BitVec 8) : Bijective (setupLoop start n sp p index2 state) := by
  induction n generalizing sp p index2 state with
  | zero => exact h
  | succ n ih => exact ih (exchanged_bijective h _ _) _ _ _

theorem turn_bijective {key : RC4state} (h : Bijective key.state) (n : Int) : Bijective ((turn ^ n) key).state := by
  induction n using Int.induction_on with
  | zero => exact h
  | succ n ih =>
    rw [Int.add_comm, zpow_one_add]
    exact exchanged_bijective ih _ _
  | pred n ih =>
    rw [sub_eq_neg_add, zpow_add, zpow_neg_one]
    exact exchanged_bijective ih _ _

/-- **Seeking**: whatever the order of calls, the key comes to where they lead in all; and its `state` stays a permutation. -/
theorem rc4_seeks (start : List (BitVec 8)) (ops : List RC4op) :
    ops.foldl RC4op.apply (setupRC4state start) = (turn ^ (ops.map RC4op.places).sum) (setupRC4state start) ∧
      Bijective (ops.foldl RC4op.apply (setupRC4state start)).state := by
  have hlead : ∀ key, ops.foldl RC4op.apply key = (turn ^ (ops.map RC4op.places).sum) key := by
    induction ops with
    | nil => exact fun key => rfl
    | cons op ops ih =>
      intro key
      have happly : op.apply key = (turn ^ op.places) key := by
        cases op with
        | crypt p => exact rc4_eq key p
        | skip n => exact rc4skip_eq key n
        | back n => exact (rc4back_eq key n).trans (by rw [inv_pow, RC4op.places, zpow_neg, zpow_natCast])
      rw [List.foldl_cons, ih, happly, List.map_cons, List.sum_cons, Int.add_comm, zpow_add]
      rfl
  rw [hlead]
  exact ⟨rfl, turn_bijective (setupLoop_bijective start bijective_id _ _ _ _) _⟩

theorem rc4_append (key : RC4state) (p q : List (BitVec 8)) :
    rc4 key (p ++ q) = ((rc4 (rc4 key p).1 q).1, (rc4 key p).2 ++ (rc4 (rc4 key p).1 q).2) := by
  induction p generalizing key with
  | nil => rfl
  | cons b p ih => simp only [List.cons_append, rc4, ih]

theorem rc4_rc4 (key : RC4state) (p : List (BitVec 8)) : rc4 key (rc4 key p).2 = ((rc4 key p).1, p) := by
  induction p generalizing key with
  | nil => rfl
  | cons b p ih => simp only [rc4, ih, BitVec.xor_assoc, BitVec.xor_self, BitVec.xor_zero]

/-- **Reading again**: when the key goes back as many places as it came, what was encrypted is decrypted, in any buffers. -/
theorem rc4_rewound {key : RC4state} {ps qs : List (List (BitVec 8))} (h : qs.flatten = (Buffers.run rc4 key ps).2.flatten) :
    let again := Buffers.run rc4 (rc4back (Buffers.run rc4 key ps).1 ps.flatten.length) qs
    again.1 = (Buffers.run rc4 key ps).1 ∧ again.2.flatten = ps.flatten := by
  have hrun := @Buffers.run_flatten _ _ rc4 (fun key => rfl) rc4_append
  have hps := hrun key ps
  have hback : rc4back (Buffers.run rc4 key ps).1 ps.flatten.length = key := by
    rw [← congrArg Prod.fst hps, rc4_eq, rc4back_eq, inv_pow, Equiv.Perm.inv_def, Equiv.symm_apply_apply]
  have hagain := rc4_rc4 key ps.flatten
  rw [hps, ← h, hrun key qs] at hagain
  rw [hback]
  exact Prod.mk.inj hagain

/-- Two buffers, read again in one. -/
theorem rc4_rewound_one : let key := (Buffers.run rc4 ⟨id, 0, 0⟩ [[1], [2]]).1
    let again := Buffers.run rc4 (rc4back key 2) [(Buffers.run rc4 ⟨id, 0, 0⟩ [[1], [2]]).2.flatten]
    again.1 = key ∧ again.2.flatten = [1, 2] :=
  rc4_rewound (List.flatten_singleton ..)

end Plan9.Libsec
