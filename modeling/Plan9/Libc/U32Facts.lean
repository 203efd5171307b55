/-
`dec32` after `enc32`. A round of the encoder followed by a round of the decoder
gives the five bytes back (`dec_encRound`), and so does the last part when one
byte is left. When two, three or four are left, `enc32` leaves through `out` one
character early: the last of its characters is never stored, and `dec32` refuses
what is there or returns a byte less (`dec32_enc32_iff`).
-/
import Plan9.Libc.U32

namespace Plan9.Libc

open Bytes CInt Option List

/-! ## Digits -/

theorem strchr_char32 : ∀ j < 32, strchr tab32 (char32 j) = some j := by decide

theorem low_bits (k x : Nat) : (2 ^ k - 1) &&& x = x % 2 ^ k := by
  rw [Nat.and_comm, Nat.and_two_pow_sub_one_eq_mod]

theorem shift_or_low {hi lo k : Nat} (h : lo < 2 ^ k) : hi <<< k ||| lo = hi * 2 ^ k + lo := by
  rw [Nat.or_comm, or_shiftLeft h, Nat.add_comm]

/-- The digits of five bytes. -/
def digits (s : Nat → Nat) : Nat → Nat
  | 0 => s 0 / 8
  | 1 => s 0 % 8 * 4 + s 1 / 64
  | 2 => s 1 / 2 % 32
  | 3 => s 1 % 2 * 16 + s 2 / 16
  | 4 => s 2 % 16 * 2 + s 3 / 128
  | 5 => s 3 / 4 % 32
  | 6 => s 3 % 4 * 8 + s 4 / 32
  | _ => s 4 % 32

theorem mask_down (k j a : Nat) : (2 ^ k - 1) &&& a >>> j = a / 2 ^ j % 2 ^ k := by
  rw [low_bits, Nat.shiftRight_eq_div_pow]

theorem mask_up (k j a : Nat) : (2 ^ k - 1) <<< j &&& a <<< j = (a % 2 ^ k) <<< j := by
  rw [← Nat.shiftLeft_and_distrib, low_bits]

theorem enc_mask0 : ∀ a < 256, 0x1f &&& a >>> 3 = a / 8 := fun a _ => (mask_down 5 3 a).trans (by omega)

theorem enc_mask1 : ∀ a < 256, 0x1c &&& a <<< 2 = (a % 8) <<< 2 := fun a _ => mask_up 3 2 a

theorem enc_mask1' : ∀ a < 256, 0x03 &&& a >>> 6 = a / 64 := fun a _ => (mask_down 2 6 a).trans (by omega)

theorem enc_mask2 : ∀ a < 256, 0x1f &&& a >>> 1 = a / 2 % 32 := fun a _ => mask_down 5 1 a

theorem enc_mask3 : ∀ a < 256, 0x10 &&& a <<< 4 = (a % 2) <<< 4 := fun a _ => mask_up 1 4 a

theorem enc_mask3' : ∀ a < 256, 0x0f &&& a >>> 4 = a / 16 := fun a _ => (mask_down 4 4 a).trans (by omega)

theorem enc_mask4 : ∀ a < 256, 0x1e &&& a <<< 1 = (a % 16) <<< 1 := fun a _ => mask_up 4 1 a

theorem enc_mask4' : ∀ a < 256, 0x01 &&& a >>> 7 = a / 128 := fun a _ => (mask_down 1 7 a).trans (by omega)

theorem enc_mask5 : ∀ a < 256, 0x1f &&& a >>> 2 = a / 4 % 32 := fun a _ => mask_down 5 2 a

theorem enc_mask6 : ∀ a < 256, 0x18 &&& a <<< 3 = (a % 4) <<< 3 := fun a _ => mask_up 2 3 a

theorem enc_mask6' : ∀ a < 256, 0x07 &&& a >>> 5 = a / 32 := fun a _ => (mask_down 3 5 a).trans (by omega)

theorem enc_mask7 : ∀ a < 256, 0x1f &&& a = a % 32 := fun a _ => low_bits 5 a

theorem srcAt_lt (src : List UInt8) (i : Nat) : srcAt src i < 256 := (byteAt src i).toNat_lt

theorem encRound_eq (src : List UInt8) :
    encRound src = (List.range 8).map fun i => char32 (digits (srcAt src) i) := by
  have h0 := srcAt_lt src 0
  have h1 := srcAt_lt src 1
  have h2 := srcAt_lt src 2
  have h3 := srcAt_lt src 3
  have h4 := srcAt_lt src 4
  have e1 : (0x1c &&& srcAt src 0 <<< 2) ||| (0x03 &&& srcAt src 1 >>> 6) = digits (srcAt src) 1 := by
    rw [enc_mask1 _ h0, enc_mask1' _ h1, shift_or_low (by omega)]; rfl
  have e3 : (0x10 &&& srcAt src 1 <<< 4) ||| (0x0f &&& srcAt src 2 >>> 4) = digits (srcAt src) 3 := by
    rw [enc_mask3 _ h1, enc_mask3' _ h2, shift_or_low (by omega)]; rfl
  have e4 : (0x1e &&& srcAt src 2 <<< 1) ||| (0x01 &&& srcAt src 3 >>> 7) = digits (srcAt src) 4 := by
    rw [enc_mask4 _ h2, enc_mask4' _ h3, shift_or_low (by omega)]; rfl
  have e6 : (0x18 &&& srcAt src 3 <<< 3) ||| (0x07 &&& srcAt src 4 >>> 5) = digits (srcAt src) 6 := by
    rw [enc_mask6 _ h3, enc_mask6' _ h4, shift_or_low (by omega)]; rfl
  unfold encRound
  dsimp only
  rw [e1, e3, e4, e6, enc_mask0 _ h0, enc_mask2 _ h1, enc_mask5 _ h3, enc_mask7 _ h4]
  rfl

theorem digits_lt (src : List UInt8) (i : Nat) : digits (srcAt src) i < 32 := by
  have h0 := srcAt_lt src 0
  have h1 := srcAt_lt src 1
  have h2 := srcAt_lt src 2
  have h3 := srcAt_lt src 3
  have h4 := srcAt_lt src 4
  unfold digits
  split <;> omega

theorem digit32_encRound (src post : List UInt8) {i : Nat} (hi : i < 8) :
    digit32 (encRound src ++ post) i = digits (srcAt src) i := by
  have hchar : byteAt (encRound src ++ post) i = char32 (digits (srcAt src) i) := by
    rw [encRound_eq, byteAt, getD_eq_getElem?_getD, getElem?_append_left (by simpa using hi)]
    simp [hi]
  rw [digit32, hchar, strchr_char32 _ (digits_lt src i), getD_some]

/-! ## Bytes -/

section

variable {u : Nat → Nat}

theorem dec0_eq (h1 : u 1 < 32) : dec0 u = UInt8.ofNat (u 0 * 8 + u 1 / 4) := by
  have hlow : 0x7 &&& u 1 >>> 2 = u 1 / 4 := by
    rw [show 0x7 = 2 ^ 3 - 1 from rfl, low_bits, Nat.shiftRight_eq_div_pow]; omega
  rw [dec0, hlow, shift_or_low (by omega), show 2 ^ 3 = 8 from rfl]

theorem dec1_eq (h2 : u 2 < 32) (h3 : u 3 < 32) : dec1 u = UInt8.ofNat (u 1 % 4 * 64 + (u 2 * 2 + u 3 / 16)) := by
  have hhigh : 0x3 &&& u 1 = u 1 % 4 := low_bits 2 (u 1)
  have hlow : 0x1 &&& u 3 >>> 4 = u 3 / 16 := by
    rw [show 0x1 = 2 ^ 1 - 1 from rfl, low_bits, Nat.shiftRight_eq_div_pow]; omega
  rw [dec1, hhigh, hlow, Nat.or_assoc, @shift_or_low (u 2) _ 1 (by omega), shift_or_low (by omega),
    show 2 ^ 6 = 64 from rfl, show 2 ^ 1 = 2 from rfl]

theorem dec2_eq (h4 : u 4 < 32) : dec2 u = UInt8.ofNat (u 3 % 16 * 16 + u 4 / 2) := by
  have hhigh : 0xf &&& u 3 = u 3 % 16 := low_bits 4 (u 3)
  have hlow : 0xf &&& u 4 >>> 1 = u 4 / 2 := by
    rw [show 0xf = 2 ^ 4 - 1 from rfl, low_bits, Nat.shiftRight_eq_div_pow]; omega
  rw [dec2, hhigh, hlow, shift_or_low (by omega), show 2 ^ 4 = 16 from rfl]

theorem dec3_eq (h5 : u 5 < 32) (h6 : u 6 < 32) : dec3 u = UInt8.ofNat (u 4 % 2 * 128 + (u 5 * 4 + u 6 / 8)) := by
  have hhigh : 0x1 &&& u 4 = u 4 % 2 := low_bits 1 (u 4)
  have hlow : 0x3 &&& u 6 >>> 3 = u 6 / 8 := by
    rw [show 0x3 = 2 ^ 2 - 1 from rfl, low_bits, Nat.shiftRight_eq_div_pow]; omega
  rw [dec3, hhigh, hlow, Nat.or_assoc, @shift_or_low (u 5) _ 2 (by omega), shift_or_low (by omega),
    show 2 ^ 7 = 128 from rfl, show 2 ^ 2 = 4 from rfl]

theorem dec4_eq (h7 : u 7 < 32) : dec4 u = UInt8.ofNat (u 6 % 8 * 32 + u 7) := by
  have hhigh : 0x7 &&& u 6 = u 6 % 8 := low_bits 3 (u 6)
  rw [dec4, hhigh, shift_or_low (by omega), show 2 ^ 5 = 32 from rfl]

end

theorem ofNat_srcAt {src : List UInt8} {i x : Nat} (h : x = srcAt src i) : UInt8.ofNat x = byteAt src i := by
  rw [h, srcAt, UInt8.ofNat_toNat]

/-- **A round of the encoder, then a round of the decoder.** -/
theorem dec_encRound (src post : List UInt8) :
    let u := digit32 (encRound src ++ post)
    [dec0 u, dec1 u, dec2 u, dec3 u, dec4 u] = (range 5).map (byteAt src) := by
  intro u
  have hu : ∀ i < 8, u i = digits (srcAt src) i := fun i hi => digit32_encRound src post hi
  have hlt : ∀ i < 8, u i < 32 := fun i hi => by rw [hu i hi]; exact digits_lt src i
  have h1 := srcAt_lt src 1
  have h2 := srcAt_lt src 2
  have h3 := srcAt_lt src 3
  have h4 := srcAt_lt src 4
  rw [dec0_eq (hlt 1 (by decide)), dec1_eq (hlt 2 (by decide)) (hlt 3 (by decide)), dec2_eq (hlt 4 (by decide)),
    dec3_eq (hlt 5 (by decide)) (hlt 6 (by decide)), dec4_eq (hlt 7 (by decide)), hu 0 (by decide), hu 1 (by decide),
    hu 2 (by decide), hu 3 (by decide), hu 4 (by decide), hu 5 (by decide), hu 6 (by decide), hu 7 (by decide)]
  simp only [digits]
  rw [@ofNat_srcAt src 0 _ (by omega), @ofNat_srcAt src 1 _ (by omega), @ofNat_srcAt src 2 _ (by omega),
    @ofNat_srcAt src 3 _ (by omega), @ofNat_srcAt src 4 _ (by omega)]
  rfl

/-! ## The loops -/

/-- The encoder's loop over `q` rounds, and the decoder's over what it stored. -/
theorem encLoop_run (post : List UInt8) {t : Nat} (ht : t < 5) : ∀ (q : Nat) (x : List UInt8), x.length = 5 * q + t →
    ∃ blk : List UInt8, encLoop (x ++ post) (5 * q + t : Nat) = (blk, x.drop (5 * q) ++ post, (t : Int)) ∧
      blk.length = 8 * q ∧
      ∀ (k : Nat) (tail : List UInt8), k < 8 →
        decLoop (blk ++ tail) (8 * q + k : Nat) = (x.take (5 * q), tail, (k : Int))
  | 0, x, hx => by
    refine ⟨[], ?_, rfl, fun k tail hk => ?_⟩
    · rw [encLoop, if_neg (by omega)]
      simp
    · rw [decLoop, if_neg (by omega)]
      simp
  | q + 1, x, hx => by
    have hrest : (x.drop 5).length = 5 * q + t := by rw [length_drop]; omega
    obtain ⟨blk, henc, hlen, hdec⟩ := encLoop_run post ht q (x.drop 5) hrest
    refine ⟨encRound (x ++ post) ++ blk, ?_, ?_, fun k tail hk => ?_⟩
    · have hcast : ((5 * (q + 1) + t : Nat) : Int) - 5 = (5 * q + t : Nat) := by omega
      rw [encLoop, if_pos (by omega), hcast, drop_append_of_le_length (by omega), henc, drop_drop,
        show 5 + 5 * q = 5 * (q + 1) by omega]
    · rw [length_append, hlen]
      change 8 + 8 * q = 8 * (q + 1)
      omega
    have hcast : ((8 * (q + 1) + k : Nat) : Int) - 8 = (8 * q + k : Nat) := by omega
    have hbytes : (range 5).map (byteAt (x ++ post)) = x.take 5 := by
      rw [map_byteAt (by simp; omega), take_append_of_le_length (by omega)]
    have hround := dec_encRound (x ++ post) (blk ++ tail)
    have hdrop : (encRound (x ++ post) ++ (blk ++ tail)).drop 8 = blk ++ tail := rfl
    rw [decLoop, if_pos (by omega), append_assoc, hcast, hdrop, hdec k tail hk]
    dsimp only at hround ⊢
    rw [hround, hbytes, show 5 * (q + 1) = 5 + 5 * q by omega, take_add]

theorem decTail_encTail (src post : List UInt8) :
    decTail (encTail src 1 ++ post) 2 = some [byteAt src 0] := by
  have h0 := srcAt_lt src 0
  have htail : encTail src 1 = [char32 (srcAt src 0 / 8), char32 (srcAt src 0 % 8 * 4)] := by
    unfold encTail
    rw [if_pos rfl, enc_mask0 _ h0, enc_mask1 _ h0, Nat.shiftLeft_eq]
    rfl
  have hu0 : digit32 (encTail src 1 ++ post) 0 = srcAt src 0 / 8 := by
    rw [htail]
    change (strchr tab32 (char32 (srcAt src 0 / 8))).getD 0 = _
    rw [strchr_char32 _ (by omega), getD_some]
  have hu1 : digit32 (encTail src 1 ++ post) 1 = srcAt src 0 % 8 * 4 := by
    rw [htail]
    change (strchr tab32 (char32 (srcAt src 0 % 8 * 4))).getD 0 = _
    rw [strchr_char32 _ (by omega), getD_some]
  have hdec := @dec0_eq (digit32 (encTail src 1 ++ post)) (by omega)
  rw [hu0, hu1, @ofNat_srcAt src 0 _ (by omega)] at hdec
  rw [decTail, if_pos (by decide), if_neg (by decide)]
  rw [if_pos rfl, hdec]

/-- How many characters are stored for the last bytes, one too few from two on. -/
theorem length_encTail (src : List UInt8) {t : Nat} (h0 : t ≠ 0) (ht : t < 5) :
    (encTail src t).length = t + 1 := by
  obtain rfl | rfl | rfl | rfl : t = 1 ∨ t = 2 ∨ t = 3 ∨ t = 4 := by omega
  all_goals rfl

theorem length_decTail {src dest : List UInt8} {k : Nat} (hk : 3 ≤ k) (hk' : k ≤ 5) (h : decTail src k = some dest) :
    k ≠ 3 ∧ dest.length = k - 2 := by
  obtain rfl | rfl | rfl : k = 3 ∨ k = 4 ∨ k = 5 := by omega
  · simp [decTail] at h
  · cases h
    exact ⟨by decide, rfl⟩
  · cases h
    exact ⟨by decide, rfl⟩

/-! ## The round trip -/

theorem tdiv_eight_gt (x : Int) : -2 ^ 31 < (int32 x).tdiv 8 := by
  have hlo := le_int32 x
  by_cases hneg : 0 ≤ int32 x
  · have := Int.tdiv_nonneg hneg (show (0 : Int) ≤ 8 by decide)
    omega
  · have hquot := Int.tdiv_eq_ediv_of_nonneg (b := 8) (show 0 ≤ -int32 x by omega)
    rw [Int.neg_tdiv] at hquot
    omega

theorem enc32_eq {x : List UInt8} {ndest : Int} (post : List UInt8) (hndest : (8 * x.length + 4) / 5 < ndest) :
    ∃ blk last : List UInt8,
      enc32 ndest (x ++ post) x.length = (int32 (blk ++ last).length, blk ++ last ++ [0]) ∧
      blk.length = 8 * (x.length / 5) ∧
      last = (if x.length % 5 = 0 then [] else encTail (x.drop (5 * (x.length / 5)) ++ post) (x.length % 5 : Nat)) ∧
      ∀ (k : Nat) (tail : List UInt8), k < 8 → decLoop (blk ++ tail) (8 * (x.length / 5) + k : Nat) =
        (x.take (5 * (x.length / 5)), tail, (k : Int)) := by
  have hdiv := Nat.div_add_mod x.length 5
  obtain ⟨blk, henc, hblk, hdec⟩ := encLoop_run post (Nat.mod_lt x.length (by decide)) (x.length / 5) x hdiv.symm
  rw [hdiv] at henc
  refine ⟨blk, _, ?_, hblk, rfl, hdec⟩
  have hroom : ¬ ndest ≤ (int32 (8 * x.length + 4)).tdiv 5 := by
    have := @int32_tdiv_le (8 * x.length + 4) 5 (by omega) (by decide)
    omega
  rw [enc32, if_neg hroom, henc]
  by_cases ht : x.length % 5 = 0
  · simp [ht]
  · have hne : ((x.length % 5 : Nat) : Int) ≠ 0 := by omega
    simp only [if_pos hne, if_neg ht]

theorem encLoop_chars (src : List UInt8) (nsrc : Int) : ∀ c ∈ (encLoop src nsrc).1, ∃ j < 32, c = char32 j := by
  fun_induction encLoop src nsrc with
  | case1 src nsrc h dest rest n heq ih =>
    rw [heq] at ih
    intro c hc
    rcases mem_append.1 hc with hc | hc
    · rw [encRound_eq] at hc
      obtain ⟨i, -, rfl⟩ := mem_map.1 hc
      exact ⟨_, digits_lt src i, rfl⟩
    · exact ih c hc
  | case2 src nsrc h => simp

theorem enc32_rounds {x : List UInt8} {ndest : Int} (post : List UInt8) (h5 : x.length % 5 = 0)
    (hndest : (8 * x.length + 4) / 5 < ndest) (hmax : ndest < 2 ^ 31) :
    ∃ blk : List UInt8, enc32 ndest (x ++ post) x.length = ((blk.length : Int), blk ++ [0]) ∧
      blk.length = 8 * (x.length / 5) ∧ (∀ c ∈ blk, ∃ j < 32, c = char32 j) ∧
      ∀ tail : List UInt8, dec32 blk.length (blk ++ tail) blk.length = ((x.length : Int), x) := by
  obtain ⟨blk, henc, hblk, hdec⟩ := encLoop_run post (show 0 < 5 by decide) (x.length / 5) x (by omega)
  rw [show 5 * (x.length / 5) + 0 = x.length by omega] at henc
  have hlen : int32 blk.length = blk.length := int32_eq (by omega) (by omega)
  refine ⟨blk, ?_, hblk, ?_, fun tail => ?_⟩
  · have hroom : ¬ ndest ≤ (int32 (8 * x.length + 4)).tdiv 5 := by
      have := @int32_tdiv_le (8 * x.length + 4) 5 (by omega) (by decide)
      omega
    rw [enc32, if_neg hroom, henc]
    simp [hlen]
  · have hchars := encLoop_chars (x ++ post) x.length
    rw [henc] at hchars
    exact hchars
  have hrun := hdec 0 tail (by decide)
  rw [show 8 * (x.length / 5) + 0 = blk.length by omega, show 5 * (x.length / 5) = x.length by omega,
    take_length] at hrun
  have hroom : ¬ int32 ((blk.length : Int) + 1) < (int32 (5 * blk.length + 7)).tdiv 8 := by
    have := @int32_tdiv_le (5 * blk.length + 7) 8 (by omega) (by decide)
    rw [@int32_eq ((blk.length : Int) + 1) (by omega) (by omega)]
    omega
  rw [dec32, if_neg hroom, hrun]
  dsimp only
  rw [show decTail tail ((0 : Nat) : Int) = some [] from rfl]
  dsimp only
  rw [append_nil, int32_eq (by omega) (by omega)]

/-- **The bytes come back exactly when the last part has at most one**, and `ndest + 1` does not wrap. -/
theorem dec32_enc32_iff {x : List UInt8} {ndest ndest' : Int} (post mem : List UInt8)
    (henc : (8 * x.length + 4) / 5 < ndest) (hmax : ndest < 2 ^ 31) (hdec : x.length ≤ ndest') (hmax' : ndest' < 2 ^ 31) :
    dec32 ndest' ((enc32 ndest (x ++ post) x.length).2 ++ mem) (enc32 ndest (x ++ post) x.length).1 =
        ((x.length : Int), x) ↔
      x.length % 5 ≤ 1 ∧ ndest' ≠ 2 ^ 31 - 1 := by
  obtain ⟨blk, last, heq, hblk, hlast, hloop⟩ := enc32_eq post henc
  have hlen : last.length = if x.length % 5 = 0 then 0 else x.length % 5 + 1 := by
    rw [hlast]
    by_cases ht : x.length % 5 = 0
    · simp [ht]
    · simp only [if_neg ht]
      exact length_encTail _ ht (Nat.mod_lt _ (by decide))
  have hk : last.length ≤ 5 := by rw [hlen]; split <;> omega
  have hnsrc : int32 (blk ++ last).length = (8 * (x.length / 5) + last.length : Nat) := by
    rw [length_append, hblk]
    refine int32_eq (by omega) ?_
    rw [hlen]
    split <;> omega
  have hrun := hloop last.length (last ++ [0] ++ mem) (by omega)
  have hsrc : blk ++ last ++ [0] ++ mem = blk ++ (last ++ [0] ++ mem) := by simp
  rw [heq, hnsrc, hsrc, dec32, hrun]
  dsimp only
  constructor
  · intro h
    split at h
    · simp only [Prod.mk.injEq] at h
      omega
    rename_i hroom
    refine ⟨?_, ?_⟩
    · by_contra ht
      cases htail : decTail (last ++ [0] ++ mem) (last.length : Nat) with
      | none =>
        rw [htail] at h
        simp only [Prod.mk.injEq] at h
        omega
      | some dest =>
        rw [if_neg (by omega)] at hlen
        rw [htail] at h
        have hd := (length_decTail (by omega) (by omega) htail).2
        have hx := congrArg length (congrArg Prod.snd h)
        simp only [length_append, length_take] at hx
        omega
    intro hwrap
    have := tdiv_eight_gt (5 * (8 * (x.length / 5) + last.length : Nat) + 7)
    rw [hwrap] at hroom
    exact hroom (lt_of_eq_of_lt (by decide) this)
  rintro ⟨ht, hwrap⟩
  have hroom : ¬ int32 (ndest' + 1) < (int32 (5 * (8 * (x.length / 5) + last.length : Nat) + 7)).tdiv 8 := by
    have := @int32_tdiv_le (5 * (8 * (x.length / 5) + last.length : Nat) + 7) 8 (by omega) (by decide)
    rw [int32_eq (show -2 ^ 31 ≤ ndest' + 1 by omega) (by omega)]
    split at hlen <;> omega
  rw [if_neg hroom]
  have hdone : ∀ y : List UInt8, y = x → (int32 (y.length : Int), y) = ((x.length : Int), x) := by
    rintro y rfl
    rw [int32_eq (by omega) (by omega)]
  by_cases h0 : x.length % 5 = 0
  · rw [if_pos h0] at hlen
    have htail : decTail (last ++ [0] ++ mem) (last.length : Nat) = some [] := by rw [hlen]; rfl
    rw [htail]
    refine hdone _ ?_
    rw [append_nil, take_of_length_le (by omega)]
  have h1 : x.length % 5 = 1 := by omega
  rw [if_neg h0, h1] at hlen
  rw [if_neg h0, h1] at hlast
  have htail := decTail_encTail (x.drop (5 * (x.length / 5)) ++ post) ([0] ++ mem)
  rw [show ((1 : Nat) : Int) = 1 from rfl] at hlast
  rw [← hlast, ← append_assoc] at htail
  rw [hlen]
  rw [show ((1 + 1 : Nat) : Int) = 2 from rfl, htail]
  refine hdone _ ?_
  have hlast1 : (x.drop (5 * (x.length / 5))).length = 1 := by rw [length_drop]; omega
  obtain ⟨b, hb⟩ := length_eq_one_iff.mp hlast1
  rw [hb]
  change x.take (5 * (x.length / 5)) ++ [b] = x
  rw [← hb, take_append_drop]

/-- Six bytes come back, and eight do not. -/
theorem dec32_enc32_six :
    dec32 6 ((enc32 11 ([1, 2, 3, 4, 5, 6] ++ []) 6).2 ++ []) (enc32 11 ([1, 2, 3, 4, 5, 6] ++ []) 6).1 =
      (6, [1, 2, 3, 4, 5, 6]) ∧
    dec32 8 ((enc32 14 ([1, 2, 3, 4, 5, 6, 7, 8] ++ []) 8).2 ++ []) (enc32 14 ([1, 2, 3, 4, 5, 6, 7, 8] ++ []) 8).1 ≠
      (8, [1, 2, 3, 4, 5, 6, 7, 8]) := by
  refine ⟨?_, fun h => ?_⟩
  · exact (@dec32_enc32_iff [1, 2, 3, 4, 5, 6] 11 6 [] [] (by decide) (by decide) (by decide) (by decide)).mpr
      ⟨by decide, by decide⟩
  · have hiff := @dec32_enc32_iff [1, 2, 3, 4, 5, 6, 7, 8] 14 8 [] [] (by decide) (by decide) (by decide) (by decide)
    exact absurd (hiff.mp h).1 (by decide)

/-- Of two bytes, `enc32` stores three characters, which `dec32` refuses. -/
theorem dec32_enc32_two_bytes :
    (enc32 5 [1, 2] 2).1 = 3 ∧ dec32 2 (enc32 5 [1, 2] 2).2 (enc32 5 [1, 2] 2).1 = (-1, []) ∧
    ¬ ∀ (x : List UInt8) (ndest ndest' : Int), (8 * x.length + 4) / 5 < ndest → ndest < 2 ^ 31 →
      x.length ≤ ndest' → ndest' < 2 ^ 31 →
      dec32 ndest' (enc32 ndest x x.length).2 (enc32 ndest x x.length).1 = ((x.length : Int), x) := by
  have hloop : encLoop [1, 2] 2 = ([], [1, 2], 2) := by
    rw [encLoop]
    exact if_neg (by decide)
  have henc : enc32 5 [1, 2] 2 = (3, [50, 54, 51, 0]) := by
    rw [enc32, hloop]
    decide
  have hdecLoop : decLoop [50, 54, 51, 0] 3 = ([], [50, 54, 51, 0], 3) := by
    rw [decLoop]
    exact if_neg (by decide)
  have hdec : dec32 2 [50, 54, 51, 0] 3 = (-1, []) := by
    rw [dec32, hdecLoop]
    decide
  rw [henc]
  refine ⟨rfl, hdec, fun h => ?_⟩
  have htwo := h [1, 2] 5 2 (by decide) (by decide) (by decide) (by decide)
  change dec32 2 (enc32 5 [1, 2] 2).2 (enc32 5 [1, 2] 2).1 = (2, [1, 2]) at htwo
  rw [henc, hdec] at htwo
  exact absurd htwo (by decide)

end Plan9.Libc
