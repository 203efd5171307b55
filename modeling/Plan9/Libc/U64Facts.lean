/-
`enc64` where there is room, and `dec64` of the characters it stores before the padding.

Three bytes are one number of 24 bits; four characters are its digits to base 64
(`dec64Loop_quad`). The last one or two bytes take two or three digits.
-/
import Plan9.Libc.U64
import Plan9.Libc.U32Facts

namespace Plan9.Libc

open Bytes CInt List

/-! ## Digits -/

theorem t64d_char64 : ∀ j < 64, t64d (char64 j) = j := by decide

theorem mul_or_low {hi lo k : Nat} (h : lo < 2 ^ k) : hi * 2 ^ k ||| lo = hi * 2 ^ k + lo := by
  rw [← Nat.shiftLeft_eq, shift_or_low h, Nat.shiftLeft_eq]

section

variable {src : List UInt8}

theorem b24_three (src : List UInt8) :
    srcAt src 0 <<< 16 ||| srcAt src 1 <<< 8 ||| srcAt src 2 =
      (srcAt src 0 * 256 + srcAt src 1) * 256 + srcAt src 2 := by
  have h1 := srcAt_lt src 1
  have h2 := srcAt_lt src 2
  rw [Nat.or_assoc, @shift_or_low (srcAt src 1) (srcAt src 2) 8 h2, shift_or_low (by omega)]
  omega

theorem b24_two (src : List UInt8) :
    srcAt src 0 <<< 16 ||| srcAt src 1 <<< 8 = (srcAt src 0 * 256 + srcAt src 1) * 256 := by
  have h1 := srcAt_lt src 1
  rw [shift_or_low (by rw [Nat.shiftLeft_eq]; omega), Nat.shiftLeft_eq]
  omega

end

/-- The digits of 24 bits to base 64. -/
def quad (b24 : Nat) : List UInt8 :=
  [char64 (b24 / 2 ^ 18), char64 (b24 / 2 ^ 12 % 64), char64 (b24 / 2 ^ 6 % 64), char64 (b24 % 64)]

theorem quad_eq (b24 : Nat) :
    [char64 (b24 >>> 18), char64 (b24 >>> 12 &&& 0x3f), char64 (b24 >>> 6 &&& 0x3f), char64 (b24 &&& 0x3f)] =
      quad b24 := by
  have hmask : ∀ x : Nat, x &&& 0x3f = x % 64 := fun x => Nat.and_two_pow_sub_one_eq_mod x 6
  simp only [hmask, Nat.shiftRight_eq_div_pow, quad]

/-! ## One character -/

theorem dec64Loop_char {j : Nat} (hj : j < 64) (lim : Int) (n : Nat) (src : List UInt8) (b24 : Nat) (out : List UInt8) :
    dec64Loop lim (n + 1) (char64 j :: src) b24 0 out = dec64Loop lim n src (j * 2 ^ 18) 1 out ∧
    dec64Loop lim (n + 1) (char64 j :: src) b24 1 out = dec64Loop lim n src (b24 ||| j * 2 ^ 12) 2 out ∧
    dec64Loop lim (n + 1) (char64 j :: src) b24 2 out = dec64Loop lim n src (b24 ||| j * 2 ^ 6) 3 out := by
  have hc : t64d (byteAt (char64 j :: src) 0) = j := t64d_char64 j hj
  have hne : j ≠ INVAL := by rw [INVAL]; omega
  refine ⟨?_, ?_, ?_⟩
  all_goals
    rw [dec64Loop, hc, if_neg hne]
    simp only [Nat.shiftLeft_eq]
    rfl

variable {lim : Int} {out : List UInt8}

theorem dec64Loop_last {j : Nat} (hj : j < 64) (n : Nat) (src : List UInt8) (b24 : Nat)
    (hroom : out.length + 3 ≤ lim) :
    dec64Loop lim (n + 1) (char64 j :: src) b24 3 out =
      dec64Loop lim n src (b24 ||| j) 0 (out ++ [UInt8.ofNat ((b24 ||| j) / 2 ^ 16), UInt8.ofNat ((b24 ||| j) / 2 ^ 8),
        UInt8.ofNat (b24 ||| j)]) := by
  have hc : t64d (byteAt (char64 j :: src) 0) = j := t64d_char64 j hj
  have hne : j ≠ INVAL := by rw [INVAL]; omega
  rw [dec64Loop, hc, if_neg hne]
  · simp only [Nat.shiftRight_eq_div_pow]
    rw [if_neg (by omega)]
    rfl
  all_goals nofun

/-- **Four characters of the encoder give their 24 bits back.** -/
theorem dec64Loop_quad {b : Nat} (hb : b < 2 ^ 24) (n : Nat) (src : List UInt8) (b24 : Nat) (hroom : out.length + 3 ≤ lim) :
    dec64Loop lim (n + 4) (quad b ++ src) b24 0 out =
      dec64Loop lim n src b 0 (out ++ [UInt8.ofNat (b / 2 ^ 16), UInt8.ofNat (b / 2 ^ 8), UInt8.ofNat b]) := by
  have h0 : b / 2 ^ 18 < 64 := by omega
  have h1 : b / 2 ^ 12 % 64 < 64 := by omega
  have h2 : b / 2 ^ 6 % 64 < 64 := by omega
  have h3 : b % 64 < 64 := by omega
  have e1 : b / 2 ^ 18 * 2 ^ 18 ||| b / 2 ^ 12 % 64 * 2 ^ 12 = b / 2 ^ 12 * 2 ^ 12 := by
    rw [mul_or_low (by omega)]; omega
  have e2 : b / 2 ^ 12 * 2 ^ 12 ||| b / 2 ^ 6 % 64 * 2 ^ 6 = b / 2 ^ 6 * 2 ^ 6 := by
    rw [mul_or_low (by omega)]; omega
  have e3 : b / 2 ^ 6 * 2 ^ 6 ||| b % 64 = b := by
    rw [mul_or_low (by omega)]; omega
  simp only [quad, cons_append, nil_append]
  rw [(dec64Loop_char h0 lim (n + 3) _ b24 out).1, (dec64Loop_char h1 lim (n + 2) _ _ out).2.1, e1,
    (dec64Loop_char h2 lim (n + 1) _ _ out).2.2, e2, dec64Loop_last h3 n src _ hroom, e3]

theorem bytes_of_b24 (src : List UInt8) :
    [UInt8.ofNat (((srcAt src 0 * 256 + srcAt src 1) * 256 + srcAt src 2) / 2 ^ 16),
      UInt8.ofNat (((srcAt src 0 * 256 + srcAt src 1) * 256 + srcAt src 2) / 2 ^ 8),
      UInt8.ofNat ((srcAt src 0 * 256 + srcAt src 1) * 256 + srcAt src 2)] = (List.range 3).map (byteAt src) := by
  have h1 := srcAt_lt src 1
  have h2 := srcAt_lt src 2
  have hmod : ∀ x y : Nat, x % 256 = y % 256 → UInt8.ofNat x = UInt8.ofNat y := fun x y h => by
    apply UInt8.toNat_inj.mp
    rw [UInt8.toNat_ofNat', UInt8.toNat_ofNat', h]
  generalize hb : (srcAt src 0 * 256 + srcAt src 1) * 256 + srcAt src 2 = b
  rw [hmod (b / 2 ^ 16) (srcAt src 0) (by omega), hmod (b / 2 ^ 8) (srcAt src 1) (by omega),
    hmod b (srcAt src 2) (by omega), @ofNat_srcAt src 0 _ rfl, @ofNat_srcAt src 1 _ rfl, @ofNat_srcAt src 2 _ rfl]
  rfl

/-! ## The loops -/

/-- The encoder's loop over `q` rounds, and the decoder's over what it stored. -/
theorem enc64Loop_run (lim : Int) : ∀ (q : Nat) (src out : List UInt8), 3 * q ≤ src.length → out.length + 4 * q < lim →
    ∃ blk : List UInt8, enc64Loop lim q src out = (out ++ blk, some (src.drop (3 * q))) ∧ blk.length = 4 * q ∧
      (∀ c ∈ blk, ∃ j < 64, c = char64 j) ∧
      ∀ (lim' : Int) (k : Nat) (tail : List UInt8) (b24 : Nat) (back : List UInt8), back.length + 3 * q ≤ lim' →
        ∃ b, dec64Loop lim' (4 * q + k) (blk ++ tail) b24 0 back =
          dec64Loop lim' k tail b 0 (back ++ src.take (3 * q)) := by
  intro q
  induction q with
  | zero =>
    intro src out _ _
    refine ⟨[], by simp [enc64Loop], rfl, by simp, fun lim' k tail b24 back _ => ⟨b24, by simp⟩⟩
  | succ q ih =>
    intro src out hsrc hlim
    have h0 := srcAt_lt src 0
    have h1 := srcAt_lt src 1
    have h2 := srcAt_lt src 2
    have hb : (srcAt src 0 * 256 + srcAt src 1) * 256 + srcAt src 2 < 2 ^ 24 := by omega
    generalize hbdef : (srcAt src 0 * 256 + srcAt src 1) * 256 + srcAt src 2 = b at hb
    have hlen : (quad b).length = 4 := rfl
    obtain ⟨blk, henc, hblk, hchars, hdec⟩ := ih (src.drop 3) (out ++ quad b) (by rw [length_drop]; omega)
      (by rw [length_append, hlen]; omega)
    refine ⟨quad b ++ blk, ?_, ?_, ?_, ?_⟩
    · rw [enc64Loop]
      rw [if_neg (by omega), b24_three, hbdef, quad_eq, henc, append_assoc, drop_drop,
        show 3 + 3 * q = 3 * (q + 1) by omega]
    · rw [length_append, hlen, hblk]
      omega
    · intro c hc
      rcases mem_append.1 hc with hc | hc
      · simp only [quad, mem_cons, not_mem_nil, or_false] at hc
        rcases hc with rfl | rfl | rfl | rfl
        · exact ⟨_, by omega, rfl⟩
        · exact ⟨_, Nat.mod_lt _ (by decide), rfl⟩
        · exact ⟨_, Nat.mod_lt _ (by decide), rfl⟩
        · exact ⟨_, Nat.mod_lt _ (by decide), rfl⟩
      · exact hchars c hc
    intro lim' k tail b24 back hroom
    have hthree : [UInt8.ofNat (b / 2 ^ 16), UInt8.ofNat (b / 2 ^ 8), UInt8.ofNat b] = src.take 3 := by
      rw [← hbdef, bytes_of_b24, map_byteAt (by omega)]
    have hback : (back ++ src.take 3).length = back.length + 3 := by
      rw [length_append, length_take, Nat.min_eq_left (by omega)]
    obtain ⟨b', hrun⟩ := hdec lim' k tail b (back ++ src.take 3) (by rw [hback]; omega)
    refine ⟨b', ?_⟩
    rw [append_assoc, show 4 * (q + 1) + k = 4 * q + k + 4 by omega, dec64Loop_quad hb _ _ _ (by omega), hthree,
      hrun, append_assoc, show 3 * (q + 1) = 3 + 3 * q by omega, take_add]

/-! ## The last bytes -/

/-- The digits of the last bytes: one byte has two, two have three. -/
def tailDigits (src : List UInt8) : Nat → List UInt8
  | 1 => [char64 (srcAt src 0 / 4), char64 (srcAt src 0 % 4 * 16)]
  | 2 => [char64 (srcAt src 0 / 4), char64 (srcAt src 0 % 4 * 16 + srcAt src 1 / 16), char64 (srcAt src 1 % 16 * 4)]
  | _ => []

theorem tailDigits_char (src : List UInt8) (t : Nat) : ∀ c ∈ tailDigits src t, ∃ j < 64, c = char64 j := by
  have h0 := srcAt_lt src 0
  have h1 := srcAt_lt src 1
  intro c hc
  unfold tailDigits at hc
  split at hc
  · simp only [mem_cons, not_mem_nil, or_false] at hc
    rcases hc with rfl | rfl
    · exact ⟨_, by omega, rfl⟩
    · exact ⟨_, by omega, rfl⟩
  · simp only [mem_cons, not_mem_nil, or_false] at hc
    rcases hc with rfl | rfl | rfl
    · exact ⟨_, by omega, rfl⟩
    · exact ⟨_, by omega, rfl⟩
    · exact ⟨_, by omega, rfl⟩
  · simp at hc

theorem length_tailDigits (src : List UInt8) {t : Nat} (ht : t < 3) :
    (tailDigits src t).length = if t = 0 then 0 else t + 1 := by
  obtain rfl | rfl | rfl : t = 0 ∨ t = 1 ∨ t = 2 := by omega
  all_goals rfl

/-- What the encoder stores of the last bytes: their digits, and `=` up to four. -/
theorem enc64Tail_eq (src : List UInt8) {t : Nat} (ht : t < 3)
    (hroom : t ≠ 0 → out.length + 4 < lim) :
    enc64Tail lim src t out = out ++ (tailDigits src t ++ List.replicate (if t = 0 then 0 else 3 - t) 61) := by
  have h1 := srcAt_lt src 1
  have hmask : ∀ x : Nat, x &&& 0x3f = x % 64 := fun x => Nat.and_two_pow_sub_one_eq_mod x 6
  obtain rfl | rfl | rfl : t = 0 ∨ t = 1 ∨ t = 2 := by omega
  · simp [enc64Tail, tailDigits]
  · rw [enc64Tail, if_neg (by decide), if_pos (by decide)]
    rw [if_neg (by have := hroom (by decide); omega), hmask, Nat.shiftRight_eq_div_pow, Nat.shiftRight_eq_div_pow,
      Nat.shiftLeft_eq, show srcAt src 0 * 2 ^ 16 / 2 ^ 18 = srcAt src 0 / 4 by omega,
      show srcAt src 0 * 2 ^ 16 / 2 ^ 12 % 64 = srcAt src 0 % 4 * 16 by omega]
    rfl
  rw [enc64Tail, if_pos (by decide)]
  rw [if_neg (by have := hroom (by decide); omega), b24_two, hmask, hmask, Nat.shiftRight_eq_div_pow,
    Nat.shiftRight_eq_div_pow, Nat.shiftRight_eq_div_pow,
    show (srcAt src 0 * 256 + srcAt src 1) * 256 / 2 ^ 18 = srcAt src 0 / 4 by omega,
    show (srcAt src 0 * 256 + srcAt src 1) * 256 / 2 ^ 12 % 64 = srcAt src 0 % 4 * 16 + srcAt src 1 / 16 by omega,
    show (srcAt src 0 * 256 + srcAt src 1) * 256 / 2 ^ 6 % 64 = srcAt src 1 % 16 * 4 by omega]
  rfl

/-- The decoder on the digits of the last bytes. -/
theorem dec64_tailDigits {src : List UInt8} (tail : List UInt8) (b24 : Nat)
    (ht : src.length < 3) (hroom : out.length + src.length ≤ lim) :
    ∃ b i, dec64Loop lim (tailDigits src src.length).length (tailDigits src src.length ++ tail) b24 0 out =
        (out, some (b, i)) ∧ dec64Tail lim b i out = out ++ src := by
  have h0 := srcAt_lt src 0
  have h1 := srcAt_lt src 1
  match src, ht with
  | [], _ => exact ⟨b24, 0, rfl, by simp [dec64Tail]⟩
  | [a], _ =>
    simp only [length_cons, length_nil, Nat.zero_add] at hroom ⊢
    have hor : srcAt [a] 0 / 4 * 2 ^ 18 ||| srcAt [a] 0 % 4 * 16 * 2 ^ 12 = srcAt [a] 0 * 2 ^ 16 := by
      rw [mul_or_low (by omega)]; omega
    refine ⟨srcAt [a] 0 * 2 ^ 16, 2, ?_, ?_⟩
    · simp only [tailDigits, cons_append, nil_append]
      rw [show ([char64 (srcAt [a] 0 / 4), char64 (srcAt [a] 0 % 4 * 16)] : List UInt8).length = 0 + 1 + 1 from rfl,
        (dec64Loop_char (by omega) lim _ _ b24 out).1, (dec64Loop_char (by omega) lim _ _ _ out).2.1, hor]
      rfl
    · rw [dec64Tail, if_neg (by omega), Nat.shiftRight_eq_div_pow, @ofNat_srcAt [a] 0 _ (by omega)]
      rfl
  | [a, b], _ =>
    simp only [length_cons, length_nil, Nat.zero_add] at hroom ⊢
    generalize hs : ([a, b] : List UInt8) = s at h0 h1
    have e1 : srcAt s 0 / 4 * 2 ^ 18 ||| (srcAt s 0 % 4 * 16 + srcAt s 1 / 16) * 2 ^ 12 =
        (srcAt s 0 * 16 + srcAt s 1 / 16) * 2 ^ 12 := by
      rw [mul_or_low (by omega)]; omega
    have e2 : (srcAt s 0 * 16 + srcAt s 1 / 16) * 2 ^ 12 ||| srcAt s 1 % 16 * 4 * 2 ^ 6 =
        srcAt s 0 * 2 ^ 16 + srcAt s 1 * 2 ^ 8 := by
      rw [mul_or_low (by omega)]; omega
    refine ⟨srcAt s 0 * 2 ^ 16 + srcAt s 1 * 2 ^ 8, 3, ?_, ?_⟩
    · simp only [tailDigits, cons_append, nil_append, length_cons, length_nil]
      rw [(dec64Loop_char (by omega) lim _ _ b24 out).1, (dec64Loop_char (by omega) lim _ _ _ out).2.1, e1,
        (dec64Loop_char (by omega) lim _ _ _ out).2.2, e2]
      rfl
    have hmod : UInt8.ofNat ((srcAt s 0 * 2 ^ 16 + srcAt s 1 * 2 ^ 8) / 2 ^ 8) = UInt8.ofNat (srcAt s 1) := by
      apply UInt8.toNat_inj.mp
      rw [UInt8.toNat_ofNat', UInt8.toNat_ofNat']
      omega
    rw [dec64Tail, if_neg (by omega), Nat.shiftRight_eq_div_pow, Nat.shiftRight_eq_div_pow, hmod,
      @ofNat_srcAt s 0 _ (by omega), @ofNat_srcAt s 1 _ rfl, ← hs]
    rfl

theorem tailDigits_append (src post : List UInt8) : tailDigits (src ++ post) src.length = tailDigits src src.length := by
  match src with
  | [] => rfl
  | [_] => rfl
  | [_, _] => rfl
  | _ :: _ :: _ :: _ => rfl

/-! ## The text -/

/-- **`enc64` with room** stores digits that `dec64` takes back, and `=` up to a multiple of four. -/
theorem enc64_eq {x : List UInt8} (post : List UInt8) (hlim : 4 * ((x.length + 2) / 3) < lim) :
    ∃ body : List UInt8,
      (enc64 lim (x ++ post) x.length).2 =
        body ++ List.replicate (if x.length % 3 = 0 then 0 else 3 - x.length % 3) 61 ++ [0] ∧
      body.length = (4 * x.length + 2) / 3 ∧ (∀ c ∈ body, ∃ j < 64, c = char64 j) ∧
      ∀ (lim' : Int) (tail : List UInt8), x.length ≤ lim' →
        dec64 lim' (body ++ tail) body.length = (int32 x.length, x) := by
  have hdiv := Nat.div_add_mod x.length 3
  have hlt := Nat.mod_lt x.length (show 0 < 3 by decide)
  generalize hq : x.length / 3 = q at hdiv
  generalize ht : x.length % 3 = t at hdiv hlt
  obtain ⟨blk, henc, hblk, hchars, hdec⟩ := enc64Loop_run lim q (x ++ post) []
    (by rw [length_append]; omega) (by rw [length_nil]; omega)
  have hdrop : (x ++ post).drop (3 * q) = x.drop (3 * q) ++ post := drop_append_of_le_length (by omega)
  have htake : (x ++ post).take (3 * q) = x.take (3 * q) := take_append_of_le_length (by omega)
  have hr : (x.drop (3 * q)).length = t := by rw [length_drop]; omega
  have htail := @enc64Tail_eq lim blk (x.drop (3 * q) ++ post) t hlt (fun h => by rw [hblk]; omega)
  rw [← hr, tailDigits_append, hr] at htail
  refine ⟨blk ++ tailDigits (x.drop (3 * q)) t, ?_, ?_, ?_, ?_⟩
  · have hn : ((x.length : Int).tdiv 3).toNat = q := by
      rw [Int.tdiv_eq_ediv_of_nonneg (by omega)]; omega
    have hm : (x.length : Int).tmod 3 = (t : Int) := by
      rw [Int.tmod_eq_emod_of_nonneg (by omega)]; omega
    rw [enc64, hn, henc, hm]
    dsimp only
    rw [nil_append, hdrop, htail]
    simp
  · rw [length_append, hblk, length_tailDigits _ hlt]
    split <;> omega
  · intro c hc
    rcases mem_append.1 hc with hc | hc
    · exact hchars c hc
    · exact tailDigits_char _ _ c hc
  intro lim' tail hlim'
  have hlen : (blk ++ tailDigits (x.drop (3 * q)) t).length = 4 * q + (tailDigits (x.drop (3 * q)) t).length := by
    rw [length_append, hblk]
  obtain ⟨b, hrun⟩ := hdec lim' (tailDigits (x.drop (3 * q)) t).length (tailDigits (x.drop (3 * q)) t ++ tail) 0 []
    (by rw [length_nil]; omega)
  rw [htake, nil_append] at hrun
  obtain ⟨b', i, hlast, hbytes⟩ := @dec64_tailDigits lim' (x.take (3 * q)) (x.drop (3 * q)) tail b (by omega)
    (by rw [length_take, hr]; omega)
  rw [hr] at hlast
  rw [dec64, Int.toNat_natCast, hlen, append_assoc, hrun, hlast]
  dsimp only
  rw [hbytes, take_append_drop]

/-! ## Bytes that are not digits -/

/-- The bytes that `dec64` decodes. -/
def digits64 (src : List UInt8) : List UInt8 := src.filter fun c => t64d c ≠ INVAL

theorem dec64Loop_digits64 (lim : Int) : ∀ (src tail tail' : List UInt8) (b24 i : Nat) (out : List UInt8),
    dec64Loop lim src.length (src ++ tail) b24 i out =
      dec64Loop lim (digits64 src).length (digits64 src ++ tail') b24 i out
  | [], _, _, _, _, _ => rfl
  | c :: src, tail, tail', b24, i, out => by
    have ih := dec64Loop_digits64 lim src tail tail'
    have hc : byteAt (c :: src ++ tail) 0 = c := rfl
    have hdrop : (c :: src ++ tail).drop 1 = src ++ tail := rfl
    by_cases hinv : t64d c = INVAL
    · have hskip : digits64 (c :: src) = digits64 src := filter_cons_of_neg (by simpa using hinv)
      rw [hskip, length_cons, ← ih]
      conv_lhs => unfold dec64Loop
      simp only [hc, hdrop, if_pos hinv]
    have hkeep : digits64 (c :: src) = c :: digits64 src := filter_cons_of_pos (by simpa using hinv)
    have hc' : byteAt (c :: digits64 src ++ tail') 0 = c := rfl
    have hdrop' : (c :: digits64 src ++ tail').drop 1 = digits64 src ++ tail' := rfl
    rw [hkeep, length_cons, length_cons]
    unfold dec64Loop
    simp only [hc, hdrop, hc', hdrop', if_neg hinv, ih]

theorem digits64_eq_self {src : List UInt8} (h : ∀ c ∈ src, ∃ j < 64, c = char64 j) : digits64 src = src := by
  rw [digits64, filter_eq_self]
  intro c hc
  obtain ⟨j, hj, rfl⟩ := h c hc
  rw [t64d_char64 j hj, decide_eq_true_eq, INVAL]
  omega

/-- `text` with bytes that are not digits put in between, in front or behind. -/
inductive Inserted : List UInt8 → List UInt8 → Prop
  | nil : Inserted [] []
  | keep {text src : List UInt8} (c : UInt8) : Inserted text src → Inserted (c :: text) (c :: src)
  | insert {text src : List UInt8} {c : UInt8} : t64d c = INVAL → Inserted text src → Inserted text (c :: src)

theorem Inserted.digits64_eq {text src : List UInt8} (h : Inserted text src) : digits64 src = digits64 text := by
  induction h with
  | nil => rfl
  | keep c _ ih =>
    rw [digits64, digits64, filter_cons, filter_cons]
    change (if _ then c :: digits64 _ else digits64 _) = if _ then c :: digits64 _ else digits64 _
    rw [ih]
  | insert hinv _ ih =>
    rw [digits64, filter_cons_of_neg (by simpa using hinv)]
    exact ih

/-- **The round trip.** `enc64` returns how long its text is, and `dec64` of the text, with other bytes put in
anywhere, returns the bytes. -/
theorem dec64_enc64 {x : List UInt8} {lim lim' : Int} (post mem : List UInt8) (hlim : 4 * ((x.length + 2) / 3) < lim)
    (hmax : lim < 2 ^ 31) (hlim' : x.length ≤ lim') {src : List UInt8}
    (hsrc : Inserted ((enc64 lim (x ++ post) x.length).2.take (enc64 lim (x ++ post) x.length).1.toNat) src) :
    dec64 lim' (src ++ mem) src.length = ((x.length : Int), x) := by
  obtain ⟨body, hbytes, hbody, hchars, hdec⟩ := enc64_eq post hlim
  have hcount : (enc64 lim (x ++ post) x.length).1.toNat = (enc64 lim (x ++ post) x.length).2.length - 1 := by
    have hfst : (enc64 lim (x ++ post) x.length).1 = int32 ((enc64 lim (x ++ post) x.length).2.length - 1 : Nat) := by
      rw [enc64, length_append, length_singleton, Nat.add_sub_cancel]
    rw [hfst, hbytes, int32_eq (by omega)]
    · omega
    · simp only [length_append, length_replicate, length_singleton, hbody]
      split <;> omega
  rw [hcount, hbytes, length_append, length_singleton, Nat.add_sub_cancel, take_left'] at hsrc
  · have hpad : digits64 (replicate (if x.length % 3 = 0 then 0 else 3 - x.length % 3) 61) = [] := by
      rw [digits64, filter_eq_nil_iff]
      intro c hc
      rw [eq_of_mem_replicate hc]
      decide
    have hdigits : digits64 src = body := by
      rw [hsrc.digits64_eq, digits64, filter_append]
      change digits64 body ++ digits64 _ = body
      rw [hpad, append_nil, digits64_eq_self hchars]
    have hrun := hdec lim' [] hlim'
    rw [dec64, Int.toNat_natCast] at hrun
    rw [dec64, Int.toNat_natCast, dec64Loop_digits64 lim' src mem [], hdigits, hrun, int32_eq (by omega) (by omega)]
  · rfl

/-- The text of two bytes is `SGk=`; a newline and a blank do not matter. -/
theorem dec64_enc64_hi : dec64 2 ([10, 83, 71, 32, 107, 61] ++ []) 6 = (2, [72, 105]) :=
  @dec64_enc64 [72, 105] 5 2 [] [] (by decide) (by decide) (by decide) [10, 83, 71, 32, 107, 61]
    (.insert (by decide) (.keep 83 (.keep 71 (.insert (by decide) (.keep 107 (.keep 61 .nil))))))

end Plan9.Libc
