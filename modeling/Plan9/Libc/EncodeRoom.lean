/-
How much `dec32`, `enc32`, `dec64` and `enc64` store, against the room they are given.

`dec64` and `enc64` look before each group. `dec32` and `enc32` look once, at the count:
`dec32` compares with one byte more than it has, and both compute in an `int`.
-/
import Plan9.Libc.U64Facts

namespace Plan9.Libc

open Bytes CInt List

/-! ## dec32 -/

/-- The bytes that `n` characters give: five a round, and the last part. -/
def dec32Count (n : Nat) : Nat :=
  5 * (n / 8) +
    match n % 8 with
    | 2 => 1
    | 4 => 2
    | 5 => 3
    | 7 => 4
    | _ => 0

theorem decLoop_stores (src : List UInt8) (n : Nat) :
    (decLoop src n).1.length = 5 * (n / 8) ∧ (decLoop src n).2.2 = (n % 8 : Nat) := by
  induction n using Nat.strongRecOn generalizing src with
  | ind n ih =>
    rw [decLoop]
    by_cases h : 8 ≤ n
    · obtain ⟨hlen, hrest⟩ := ih (n - 8) (by omega) (src.drop 8)
      rw [if_pos (by omega), show (n : Int) - 8 = (n - 8 : Nat) by omega]
      refine ⟨?_, ?_⟩
      · rw [length_append, hlen]
        change 5 + 5 * ((n - 8) / 8) = _
        omega
      · rw [hrest]
        omega
    rw [if_neg (by omega)]
    refine ⟨?_, ?_⟩
    · rw [Nat.div_eq_of_lt (by omega)]
      rfl
    · rw [Nat.mod_eq_of_lt (by omega)]

theorem decTail_stores (src : List UInt8) {t : Nat} (ht : t < 8) :
    ((decTail src t).getD []).length = dec32Count t := by
  obtain rfl | rfl | rfl | rfl | rfl | rfl | rfl | rfl :
      t = 0 ∨ t = 1 ∨ t = 2 ∨ t = 3 ∨ t = 4 ∨ t = 5 ∨ t = 6 ∨ t = 7 := by omega
  all_goals rfl

theorem dec32_stores (ndest : Int) (src : List UInt8) (n : Nat) :
    (dec32 ndest src n).2.length = if int32 (ndest + 1) < (int32 (5 * n + 7)).tdiv 8 then 0 else dec32Count n := by
  obtain ⟨hlen, hrest⟩ := decLoop_stores src n
  have hlast := decTail_stores (decLoop src n).2.1 (Nat.mod_lt n (show 0 < 8 by decide))
  have hsum : dec32Count n = 5 * (n / 8) + dec32Count (n % 8) := by
    simp only [dec32Count, Nat.mod_mod, Nat.div_eq_of_lt (Nat.mod_lt n (show 0 < 8 by decide)), Nat.mul_zero, Nat.zero_add]
  rw [dec32]
  split
  · rfl
  rw [← hrest] at hlast
  dsimp only
  cases htail : decTail (decLoop src n).2.1 (decLoop src n).2.2 with
  | none =>
    rw [htail] at hlast
    rw [hlen, hsum, ← hlast]
    rfl
  | some last =>
    rw [htail] at hlast
    rw [length_append, hlen, hsum, ← hlast]
    rfl

/-- Where no count wraps, `dec32` has room unless it lacks one byte of a whole number of rounds. From there on
it has room for what it stores, or refuses. -/
def DecRoom (ndest : Int) (n : Nat) : Prop :=
  if 5 * n + 7 < 2 ^ 31 then ¬ (0 < n ∧ n % 8 = 0 ∧ ndest + 1 = (5 * (n / 8) : Nat))
  else int32 (ndest + 1) < (int32 (5 * n + 7)).tdiv 8 ∨ (dec32Count n : Int) ≤ ndest

/-- The count that `dec32` compares with is right for whole rounds, and one more than is stored elsewhere. -/
theorem dec32Count_eq (n : Nat) : if n % 8 = 0 then dec32Count n = 5 * (n / 8) else dec32Count n < (5 * n + 7) / 8 := by
  have hdiv := Nat.div_add_mod n 8
  have hlt := Nat.mod_lt n (show 0 < 8 by decide)
  rw [dec32Count]
  generalize n % 8 = t at *
  generalize n / 8 = q at *
  obtain rfl | rfl | rfl | rfl | rfl | rfl | rfl | rfl :
      t = 0 ∨ t = 1 ∨ t = 2 ∨ t = 3 ∨ t = 4 ∨ t = 5 ∨ t = 6 ∨ t = 7 := by omega
  all_goals simp
  all_goals omega

theorem dec32_room (src : List UInt8) (n : Nat) {ndest : Int} (h0 : 0 ≤ ndest) (hmax : ndest < 2 ^ 31) :
    ((dec32 ndest src n).2.length : Int) ≤ ndest ↔ DecRoom ndest n := by
  rw [dec32_stores, DecRoom]
  by_cases hwrap : 5 * n + 7 < 2 ^ 31
  · rw [if_pos hwrap, int32_eq (show -2 ^ 31 ≤ ((5 : Int) * n + 7) by omega) (by omega),
      Int.tdiv_eq_ediv_of_nonneg (by omega)]
    by_cases hlast : ndest = 2 ^ 31 - 1
    · have hwrapped : int32 (ndest + 1) = -2 ^ 31 := by rw [hlast]; decide
      rw [hwrapped, if_pos (by omega)]
      exact ⟨fun _ => by omega, fun _ => by omega⟩
    have hcount := dec32Count_eq n
    rw [int32_eq (by omega) (by omega)]
    split at hcount
    · split <;> omega
    · split <;> omega
  split
  · rename_i href
    exact ⟨fun _ => .inl href, fun _ => by omega⟩
  · rename_i href
    exact ⟨fun h => .inr h, fun h => h.resolve_left href⟩

/-! ## enc32 -/

/-- The characters of `n` bytes. -/
def enc32Count (n : Nat) : Nat := 8 * (n / 5) + if n % 5 = 0 then 0 else n % 5 + 1

theorem encLoop_stores (src : List UInt8) (n : Nat) :
    (encLoop src n).1.length = 8 * (n / 5) ∧ (encLoop src n).2.2 = (n % 5 : Nat) := by
  induction n using Nat.strongRecOn generalizing src with
  | ind n ih =>
    rw [encLoop]
    by_cases h : 5 ≤ n
    · obtain ⟨hlen, hrest⟩ := ih (n - 5) (by omega) (src.drop 5)
      rw [if_pos (by omega), show (n : Int) - 5 = (n - 5 : Nat) by omega]
      refine ⟨?_, ?_⟩
      · rw [length_append, hlen]
        change 8 + 8 * ((n - 5) / 5) = _
        omega
      · rw [hrest]
        omega
    rw [if_neg (by omega)]
    refine ⟨?_, ?_⟩
    · rw [Nat.div_eq_of_lt (by omega)]
      rfl
    · rw [Nat.mod_eq_of_lt (by omega)]

theorem enc32_stores (ndest : Int) (src : List UInt8) (n : Nat) :
    (enc32 ndest src n).2.length = if ndest ≤ (int32 (8 * n + 4)).tdiv 5 then 0 else enc32Count n + 1 := by
  obtain ⟨hlen, hrest⟩ := encLoop_stores src n
  rw [enc32]
  split
  · rfl
  dsimp only
  rw [hrest, length_append, length_singleton]
  congr 1
  by_cases ht : n % 5 = 0
  · rw [if_neg (by omega), hlen, enc32Count, if_pos ht, Nat.add_zero]
  · rw [if_pos (by omega), length_append, hlen, length_encTail _ ht (Nat.mod_lt n (by decide)), enc32Count, if_neg ht]

/-- Where the count does not wrap, `enc32` has room or refuses. -/
def EncRoom (ndest : Int) (n : Nat) : Prop :=
  8 * n + 4 < 2 ^ 31 ∨ ndest ≤ (int32 (8 * n + 4)).tdiv 5 ∨ (enc32Count n : Int) < ndest

theorem enc32Count_le (n : Nat) : enc32Count n ≤ (8 * n + 4) / 5 := by
  rw [enc32Count]
  split <;> omega

theorem enc32_room (src : List UInt8) (n : Nat) {ndest : Int} (h0 : 0 ≤ ndest) :
    ((enc32 ndest src n).2.length : Int) ≤ ndest ↔ EncRoom ndest n := by
  rw [enc32_stores, EncRoom]
  split
  · rename_i href
    exact ⟨fun _ => .inr (.inl href), fun _ => by omega⟩
  rename_i href
  by_cases hwrap : 8 * n + 4 < 2 ^ 31
  · have hle := enc32Count_le n
    rw [int32_eq (by omega) (by omega), Int.tdiv_eq_ediv_of_nonneg (by omega)] at href
    exact ⟨fun _ => .inl hwrap, fun _ => by omega⟩
  constructor
  · intro h
    exact .inr (.inr (by omega))
  intro h
  rcases h with h | h | h
  · exact absurd h hwrap
  · exact absurd h href
  · omega

/-! ## dec64 and enc64 -/

variable {lim : Int}

theorem dec64Loop_room : ∀ (n : Nat) (src : List UInt8) (b24 i : Nat) (out : List UInt8), (out.length : Int) ≤ lim →
    ((dec64Loop lim n src b24 i out).1.length : Int) ≤ lim
  | 0, _, _, _, _, h => h
  | n + 1, src, b24, i, out, h => by
    unfold dec64Loop
    dsimp only
    split
    · exact dec64Loop_room n _ _ _ out h
    split
    · exact dec64Loop_room n _ _ _ out h
    · exact dec64Loop_room n _ _ _ out h
    · exact dec64Loop_room n _ _ _ out h
    split
    · exact h
    · refine dec64Loop_room n _ _ _ _ ?_
      simp only [length_append, length_cons, length_nil]
      omega

theorem dec64Tail_room (b24 i : Nat) {out : List UInt8} (h : (out.length : Int) ≤ lim) :
    ((dec64Tail lim b24 i out).length : Int) ≤ lim := by
  unfold dec64Tail
  split
  · split
    · exact h
    · simp only [length_append, length_cons, length_nil]
      omega
  · split
    · exact h
    · simp only [length_append, length_cons, length_nil]
      omega
  · exact h

theorem dec64_room (src : List UInt8) (n : Int) (h0 : 0 ≤ lim) : ((dec64 lim src n).2.length : Int) ≤ lim := by
  have hloop := dec64Loop_room n.toNat src 0 0 [] (show (([] : List UInt8).length : Int) ≤ lim from h0)
  rw [dec64]
  split
  · rename_i out heq
    rw [heq] at hloop
    exact hloop
  · rename_i out b24 i heq
    rw [heq] at hloop
    exact dec64Tail_room b24 i hloop

theorem enc64Loop_room : ∀ (i : Nat) (src out : List UInt8), (out.length : Int) < lim →
    ((enc64Loop lim i src out).1.length : Int) < lim
  | 0, _, _, h => h
  | i + 1, src, out, h => by
    rw [enc64Loop]
    split
    · exact h
    · refine enc64Loop_room i _ _ ?_
      simp only [length_append, length_cons, length_nil]
      omega

theorem enc64Tail_room (src : List UInt8) (rem : Int) {out : List UInt8} (h : (out.length : Int) < lim) :
    ((enc64Tail lim src rem out).length : Int) < lim := by
  unfold enc64Tail
  split
  · split
    · exact h
    · simp only [length_append, length_cons, length_nil]
      omega
  split
  · split
    · exact h
    · simp only [length_append, length_cons, length_nil]
      omega
  · exact h

theorem enc64_room (src : List UInt8) (n : Int) (h1 : 1 ≤ lim) : ((enc64 lim src n).2.length : Int) ≤ lim := by
  have hloop := enc64Loop_room (n.tdiv 3).toNat src [] (show (([] : List UInt8).length : Int) < lim from h1)
  rw [enc64, length_append, length_singleton]
  split
  · rename_i out heq
    rw [heq] at hloop
    dsimp only at hloop
    omega
  rename_i out src' heq
  rw [heq] at hloop
  dsimp only at hloop
  have := enc64Tail_room src' (n.tmod 3) hloop
  omega

/-! ## The four -/

/-- **What is stored fits**: always with `dec64` and `enc64`, and with `dec32` and `enc32` exactly on their conditions. -/
theorem stored_fits (src : List UInt8) (n : Nat) {ndest : Int} (h0 : 0 ≤ ndest) (hmax : ndest < 2 ^ 31) :
    (((dec32 ndest src n).2.length : Int) ≤ ndest ↔ DecRoom ndest n) ∧
    ((dec64 ndest src n).2.length : Int) ≤ ndest ∧
    (((enc32 ndest src n).2.length : Int) ≤ ndest ↔ EncRoom ndest n) ∧
    (1 ≤ ndest → ((enc64 ndest src n).2.length : Int) ≤ ndest) :=
  ⟨dec32_room src n h0 hmax, dec64_room src n h0, enc32_room src n h0, enc64_room src n⟩

/-- Room for nine bytes, and sixteen characters. -/
theorem stored_fits_nine :
    (((dec32 9 (List.replicate 16 50) 16).2.length : Int) ≤ 9 ↔ DecRoom 9 16) ∧ ¬ DecRoom 9 16 := by
  refine ⟨(stored_fits (replicate 16 50) 16 (by decide) (by decide)).1, ?_⟩
  rw [DecRoom, if_pos (by decide)]
  decide

/-- Eight characters are five bytes, and are taken where there is room for four. -/
theorem stored_overflows :
    (dec32 4 (List.replicate 8 50) 8).2.length = 5 ∧
    ¬ ∀ (src : List UInt8) (ndest : Int), 0 ≤ ndest → ndest < 2 ^ 31 →
      ((dec32 ndest src src.length).2.length : Int) ≤ ndest := by
  have hfive : (dec32 4 (replicate 8 50) 8).2.length = 5 := by
    rw [show (8 : Int) = (8 : Nat) from rfl, dec32_stores]
    decide
  refine ⟨hfive, fun h => ?_⟩
  have hfour := h (replicate 8 50) 4 (by decide) (by decide)
  change ((dec32 4 (replicate 8 50) 8).2.length : Int) ≤ 4 at hfour
  rw [hfive] at hfour
  exact absurd hfour (by decide)

end Plan9.Libc
