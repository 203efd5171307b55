/-
`chartorune` and `runetochar` against UTF-8 as Lean's strings have it: a `Char`
is a code point that is neither a surrogate nor above 0x10FFFF, and
`String.utf8EncodeChar` is its only encoding. `chartorune` finds exactly the
encodings (`chartorune_char`, `chartorune_cases`), and takes one byte of
anything else; `runetochar` writes them (`runetochar_char`).

That a string survives decoding and encoding only when it is well formed is a
matter of length: a byte that is no part of an encoding comes back as the three
bytes of the error rune, and nothing comes back shorter.
-/
import Mathlib.Data.List.Basic
import Plan9.Libc.Rune

namespace Plan9.Libc

open Bytes List

/-! ## The masks -/

theorem Tx_eq : Tx = 0x80 := rfl
theorem RuneX_two : RuneX 2 = 0x7FF := rfl
theorem RuneX_three : RuneX 3 = 0xFFFF := rfl

/-- A byte of the form 10xxxxxx. -/
def Cont (b : Nat) : Prop := 0x80 ≤ b ∧ b < 0xC0

instance (b : Nat) : Decidable (Cont b) := inferInstanceAs (Decidable (_ ∧ _))

theorem testx_iff : ∀ b < 256, (b ^^^ Tx) &&& Testx ≠ 0 ↔ ¬ Cont b := by decide +kernel

theorem xor_tx : ∀ b < 256, Cont b → b ^^^ Tx = b - 0x80 := by decide +kernel

theorem shift_or {l b : Nat} (hb : Cont b) : l <<< Bitx ||| (b - 0x80) = l * 64 + (b - 0x80) := by
  have hlt : b - 0x80 < 2 ^ 6 := by unfold Cont at hb; omega
  rw [Nat.or_comm, show Bitx = 6 from rfl, or_shiftLeft hlt]
  omega

theorem charLoop_succ (str : List UInt8) (c0 n i l : Nat) :
    charLoop str c0 (n + 1) i l =
      if Cont (byteAt str i).toNat then
        if c0 < T (i + 2) then
          if badRune i c0 ((l * 64 + ((byteAt str i).toNat - 0x80)) &&& RuneX (i + 1)) then none
          else some (UInt32.ofNat ((l * 64 + ((byteAt str i).toNat - 0x80)) &&& RuneX (i + 1)), i + 1)
        else charLoop str c0 n (i + 1) (l * 64 + ((byteAt str i).toNat - 0x80))
      else none := by
  have htest := testx_iff (byteAt str i).toNat (byteAt str i).toNat_lt
  conv_lhs => unfold charLoop
  by_cases hc : Cont (byteAt str i).toNat
  · have hxor := xor_tx _ (byteAt str i).toNat_lt hc
    have hpass : ¬ ((byteAt str i).toNat ^^^ Tx) &&& Testx ≠ 0 := fun h => htest.mp h hc
    rw [if_neg hpass, if_pos hc, hxor, shift_or hc]
  · rw [if_pos (htest.mpr hc), if_neg hc]

theorem and_RuneX (l i : Nat) : l &&& RuneX i = l % 2 ^ (Bit i + (i - 1) * Bitx) := by
  rw [RuneX, Nat.shiftLeft_eq, Nat.one_mul, Nat.and_two_pow_sub_one_eq_mod]

theorem badRune_one (c0 l : Nat) : badRune 1 c0 l = true ↔ c0 < 0xC0 ∨ l ≤ 0x7F := by
  simp only [badRune, if_true, Bool.or_eq_true, Bool.and_eq_true, decide_eq_true_eq, Nat.reduceEqDiff, false_and,
    or_false]
  rfl

theorem badRune_two {c0 l : Nat} (hl : l < 2 ^ 16) :
    badRune 2 c0 l = true ↔ l ≤ 0x7FF ∨ 0xD800 ≤ l ∧ l ≤ 0xDFFF := by
  simp only [badRune, Nat.reduceEqDiff, if_false, Bool.or_eq_true, Bool.and_eq_true, decide_eq_true_eq, true_and]
  simp only [RuneX_two, SurrogateMin, SurrogateMax, Runemax]
  omega

theorem badRune_three (c0 l : Nat) : badRune 3 c0 l = true ↔ l ≤ 0xFFFF ∨ 0x10FFFF < l := by
  simp only [badRune, Nat.reduceEqDiff, if_false, Bool.or_eq_true, Bool.and_eq_true, decide_eq_true_eq, false_and,
    or_false]
  rfl

/-! ## Encodings and their bytes -/

/-- The encoding of a code point. -/
abbrev enc (c : Char) : List UInt8 := String.utf8EncodeChar c

theorem ofNat_toNat8 {b : UInt8} {x : Nat} (h : x = b.toNat) : UInt8.ofNat x = b := by
  rw [h, UInt8.ofNat_toNat]

theorem exists_char {l : Nat} (h : l < 0xD800 ∨ 0xDFFF < l ∧ l < 0x110000) :
    ∃ c : Char, c.val = UInt32.ofNat l ∧ c.val.toNat = l := by
  have hl : (UInt32.ofNat l).toNat = l := UInt32.toNat_ofNat_of_lt' (by simp only [UInt32.size]; omega)
  have hvalid : (UInt32.ofNat l).isValidChar := by
    rw [UInt32.isValidChar, hl]; exact h
  exact ⟨⟨UInt32.ofNat l, hvalid⟩, rfl, hl⟩

theorem enc_one {b0 : UInt8} (h0 : b0.toNat < 0x80) :
    ∃ c : Char, c.val = UInt32.ofNat b0.toNat ∧ enc c = [b0] := by
  obtain ⟨c, hc, hv⟩ := exists_char (show b0.toNat < 0xD800 ∨ 0xDFFF < b0.toNat ∧ b0.toNat < 0x110000 by omega)
  refine ⟨c, hc, ?_⟩
  unfold enc String.utf8EncodeChar
  rw [hv, if_pos (by omega), ofNat_toNat8 rfl]

theorem enc_two {b0 b1 : UInt8} {l : Nat} (hl : l = (b0.toNat * 64 + (b1.toNat - 0x80)) % 2 ^ 11)
    (h0 : 0xC0 ≤ b0.toNat) (h0' : b0.toNat < 0xE0) (h1 : Cont b1.toNat) (hlow : 0x7F < l) :
    ∃ c : Char, c.val = UInt32.ofNat l ∧ enc c = [b0, b1] := by
  unfold Cont at h1
  obtain ⟨c, hc, hv⟩ := exists_char (show l < 0xD800 ∨ 0xDFFF < l ∧ l < 0x110000 by omega)
  refine ⟨c, hc, ?_⟩
  unfold enc String.utf8EncodeChar
  rw [hv, if_neg (by omega), if_pos (by omega), @ofNat_toNat8 b0 _ (by omega), @ofNat_toNat8 b1 _ (by omega)]

theorem enc_three {b0 b1 b2 : UInt8} {l : Nat}
    (hl : l = ((b0.toNat * 64 + (b1.toNat - 0x80)) * 64 + (b2.toNat - 0x80)) % 2 ^ 16)
    (h0 : 0xE0 ≤ b0.toNat) (h0' : b0.toNat < 0xF0) (h1 : Cont b1.toNat) (h2 : Cont b2.toNat) (hlow : 0x7FF < l)
    (hsur : ¬ (0xD800 ≤ l ∧ l ≤ 0xDFFF)) : ∃ c : Char, c.val = UInt32.ofNat l ∧ enc c = [b0, b1, b2] := by
  unfold Cont at h1 h2
  obtain ⟨c, hc, hv⟩ := exists_char (show l < 0xD800 ∨ 0xDFFF < l ∧ l < 0x110000 by omega)
  refine ⟨c, hc, ?_⟩
  unfold enc String.utf8EncodeChar
  rw [hv, if_neg (by omega), if_neg (by omega), if_pos (by omega), @ofNat_toNat8 b0 _ (by omega),
    @ofNat_toNat8 b1 _ (by omega), @ofNat_toNat8 b2 _ (by omega)]

theorem enc_four {b0 b1 b2 b3 : UInt8} {l : Nat}
    (hl : l = (((b0.toNat * 64 + (b1.toNat - 0x80)) * 64 + (b2.toNat - 0x80)) * 64 + (b3.toNat - 0x80)) % 2 ^ 21)
    (h0 : 0xF0 ≤ b0.toNat) (h0' : b0.toNat < 0xF8) (h1 : Cont b1.toNat) (h2 : Cont b2.toNat)
    (h3 : Cont b3.toNat) (hlow : 0xFFFF < l) (hhigh : l ≤ 0x10FFFF) :
    ∃ c : Char, c.val = UInt32.ofNat l ∧ enc c = [b0, b1, b2, b3] := by
  unfold Cont at h1 h2 h3
  obtain ⟨c, hc, hv⟩ := exists_char (show l < 0xD800 ∨ 0xDFFF < l ∧ l < 0x110000 by omega)
  refine ⟨c, hc, ?_⟩
  unfold enc String.utf8EncodeChar
  rw [hv, if_neg (by omega), if_neg (by omega), if_neg (by omega), @ofNat_toNat8 b0 _ (by omega),
    @ofNat_toNat8 b1 _ (by omega), @ofNat_toNat8 b2 _ (by omega), @ofNat_toNat8 b3 _ (by omega)]

/-! ## What chartorune accepts -/

theorem lt_length_of_cont {str : List UInt8} {i : Nat} (h : Cont (byteAt str i).toNat) : i < str.length := by
  by_contra hi
  rw [byteAt, getD_eq_getElem?_getD, getElem?_eq_none (by omega)] at h
  exact absurd h (by decide)

variable {c : Nat} {s post : List UInt8} {r : Rune}

/-- **A rune that `chartorune` accepts starts the string**: its bytes are the encoding of it. -/
theorem charLoop_sound {str : List UInt8} {n : Nat}
    (h : charLoop str (byteAt str 0).toNat (UTFmax - 1) 1 (byteAt str 0).toNat = some (r, n)) :
    ∃ c : Char, r = c.val ∧ n = (enc c).length ∧ n ≤ str.length ∧ enc c = (List.range n).map (byteAt str) := by
  rw [show UTFmax - 1 = 0 + 1 + 1 + 1 from rfl, charLoop_succ] at h
  split at h
  case isFalse => simp at h
  rename_i h1
  have hlen1 := lt_length_of_cont h1
  split at h
  · -- two bytes
    rename_i hb0
    split at h
    · simp at h
    rename_i hbad
    rw [badRune_one, and_RuneX] at hbad
    simp only [Option.some.injEq, Prod.mk.injEq, and_RuneX] at h
    obtain ⟨c, hc, henc⟩ := enc_two rfl (by omega) hb0 h1 (by simp only [Bit, Bitx] at hbad; omega)
    exact ⟨c, by rw [hc, ← h.1]; rfl, by rw [henc, ← h.2]; rfl, by omega, by rw [henc, ← h.2]; rfl⟩
  rename_i hb0
  rw [charLoop_succ] at h
  split at h
  case isFalse => simp at h
  rename_i h2
  have hlen2 := lt_length_of_cont h2
  split at h
  · -- three bytes
    rename_i hb0'
    split at h
    · simp at h
    rename_i hbad
    rw [and_RuneX, badRune_two (by simp only [Bit, Bitx]; omega)] at hbad
    simp only [Option.some.injEq, Prod.mk.injEq, and_RuneX] at h
    obtain ⟨c, hc, henc⟩ := enc_three rfl (Nat.le_of_not_lt hb0) hb0' h1 h2
      (by simp only [Bit, Bitx] at hbad; omega) (by simp only [Bit, Bitx] at hbad; omega)
    exact ⟨c, by rw [hc, ← h.1]; rfl, by rw [henc, ← h.2]; rfl, by omega, by rw [henc, ← h.2]; rfl⟩
  rename_i hb0'
  rw [charLoop_succ] at h
  split at h
  case isFalse => simp at h
  rename_i h3
  have hlen3 := lt_length_of_cont h3
  split at h
  · -- four bytes
    rename_i hb0''
    split at h
    · simp at h
    rename_i hbad
    rw [and_RuneX, badRune_three] at hbad
    simp only [Option.some.injEq, Prod.mk.injEq, and_RuneX] at h
    obtain ⟨c, hc, henc⟩ := enc_four rfl (Nat.le_of_not_lt hb0') hb0'' h1 h2 h3
      (by simp only [Bit, Bitx] at hbad; omega) (by simp only [Bit, Bitx] at hbad; omega)
    exact ⟨c, by rw [hc, ← h.1]; rfl, by rw [henc, ← h.2]; rfl, by omega, by rw [henc, ← h.2]; rfl⟩
  · simp [charLoop] at h

/-- **`chartorune` takes an encoding off the front of the string, or one byte.** -/
theorem chartorune_cases {str : List UInt8} (hne : str ≠ []) :
    (∃ (c : Char) (rest : List UInt8), str = enc c ++ rest ∧ chartorune str = (c.val, (enc c).length)) ∨
      chartorune str = (UInt32.ofNat Runeerror, 1) := by
  have hsplit : ∀ (c : Char) (n : Nat), n ≤ str.length → enc c = (range n).map (byteAt str) →
      str = enc c ++ str.drop n := fun c n hn h => by rw [h, map_byteAt hn, take_append_drop]
  unfold chartorune
  by_cases h0 : (byteAt str 0).toNat < Tx
  · obtain ⟨c, hc, henc⟩ := enc_one h0
    refine .inl ⟨c, str.drop 1, hsplit c 1 (length_pos_iff.mpr hne) henc, ?_⟩
    rw [if_pos h0, hc, henc]; rfl
  rw [if_neg h0]
  cases h : charLoop str (byteAt str 0).toNat (UTFmax - 1) 1 (byteAt str 0).toNat with
  | none => exact .inr rfl
  | some r =>
    obtain ⟨c, hr, hn, hlen, henc⟩ := charLoop_sound h
    exact .inl ⟨c, str.drop r.2, hsplit c _ hlen henc, by rw [Option.getD_some, ← hr, ← hn]⟩

/-! ## What it makes of an encoding -/

theorem chartorune_loop {str : List UInt8} {r : Rune × Nat} (h0 : 0x80 ≤ (byteAt str 0).toNat)
    (h : charLoop str (byteAt str 0).toNat 3 1 (byteAt str 0).toNat = some r) : chartorune str = r := by
  have htx : ¬ (byteAt str 0).toNat < Tx := by rw [Tx_eq]; omega
  unfold chartorune
  rw [if_neg htx, show UTFmax - 1 = 3 from rfl, h, Option.getD_some]

section

variable {str : List UInt8} {c0 n i l l' : Nat}

theorem charLoop_hit (hc : Cont (byteAt str i).toNat) (hlast : c0 < T (i + 2))
    (hl : l' = (l * 64 + ((byteAt str i).toNat - 0x80)) % 2 ^ (Bit (i + 1) + (i + 1 - 1) * Bitx))
    (hok : ¬ badRune i c0 l' = true) : charLoop str c0 (n + 1) i l = some (UInt32.ofNat l', i + 1) := by
  rw [charLoop_succ, if_pos hc, if_pos hlast, and_RuneX, ← hl, if_neg hok]

theorem charLoop_pass (hc : Cont (byteAt str i).toNat) (hmore : T (i + 2) ≤ c0) :
    charLoop str c0 (n + 1) i l = charLoop str c0 n (i + 1) (l * 64 + ((byteAt str i).toNat - 0x80)) := by
  rw [charLoop_succ, if_pos hc, if_neg (by omega)]

end

section

variable {b0 b1 b2 b3 : UInt8} {l : Nat}

theorem chartorune_two (hl : l = (b0.toNat * 64 + (b1.toNat - 0x80)) % 2 ^ 11)
    (h0 : 0xC0 ≤ b0.toNat) (h0' : b0.toNat < 0xE0) (h1 : Cont b1.toNat) (hlow : 0x7F < l) (post : List UInt8) :
    chartorune (b0 :: b1 :: post) = (UInt32.ofNat l, 2) := by
  have hok : ¬ badRune 1 b0.toNat l = true := by rw [badRune_one]; omega
  refine chartorune_loop (show 0x80 ≤ b0.toNat by omega) ?_
  exact charLoop_hit h1 h0' hl hok

theorem chartorune_three (hl : l = ((b0.toNat * 64 + (b1.toNat - 0x80)) * 64 + (b2.toNat - 0x80)) % 2 ^ 16)
    (h0 : 0xE0 ≤ b0.toNat) (h0' : b0.toNat < 0xF0) (h1 : Cont b1.toNat) (h2 : Cont b2.toNat) (hlow : 0x7FF < l)
    (hsur : ¬ (0xD800 ≤ l ∧ l ≤ 0xDFFF)) (post : List UInt8) :
    chartorune (b0 :: b1 :: b2 :: post) = (UInt32.ofNat l, 3) := by
  have hok : ¬ badRune 2 b0.toNat l = true := by rw [badRune_two (by omega)]; omega
  refine chartorune_loop (show 0x80 ≤ b0.toNat by omega) ?_
  refine Eq.trans (charLoop_pass h1 h0) ?_
  exact charLoop_hit h2 h0' hl hok

theorem chartorune_four
    (hl : l = (((b0.toNat * 64 + (b1.toNat - 0x80)) * 64 + (b2.toNat - 0x80)) * 64 + (b3.toNat - 0x80)) % 2 ^ 21)
    (h0 : 0xF0 ≤ b0.toNat) (h0' : b0.toNat < 0xF8) (h1 : Cont b1.toNat) (h2 : Cont b2.toNat)
    (h3 : Cont b3.toNat) (hlow : 0xFFFF < l) (hhigh : l ≤ 0x10FFFF) (post : List UInt8) :
    chartorune (b0 :: b1 :: b2 :: b3 :: post) = (UInt32.ofNat l, 4) := by
  have hok : ¬ badRune 3 b0.toNat l = true := by rw [badRune_three]; omega
  refine chartorune_loop (show 0x80 ≤ b0.toNat by omega) ?_
  refine Eq.trans (charLoop_pass h1 (show 0xE0 ≤ b0.toNat by omega)) ?_
  refine Eq.trans (charLoop_pass h2 h0) ?_
  exact charLoop_hit h3 h0' hl hok

end

theorem toNat_ofNat8 {x : Nat} (h : x < 256) : (UInt8.ofNat x).toNat = x := by
  rw [UInt8.toNat_ofNat']; omega

/-- **`chartorune` decodes an encoding.** -/
theorem chartorune_char (c : Char) (post : List UInt8) :
    chartorune (enc c ++ post) = (c.val, (enc c).length) := by
  have hvalid : c.val.toNat < 0xD800 ∨ 0xDFFF < c.val.toNat ∧ c.val.toNat < 0x110000 := c.valid
  have hof : c.val = UInt32.ofNat c.val.toNat := UInt32.ofNat_toNat.symm
  unfold enc String.utf8EncodeChar
  rw [hof]
  generalize c.val.toNat = v at hvalid
  rw [UInt32.toNat_ofNat_of_lt' (by simp only [UInt32.size]; omega)]
  by_cases h1 : v ≤ 0x7F
  · simp only [if_pos h1]
    have hb : (UInt8.ofNat v).toNat = v := toNat_ofNat8 (by omega)
    change (if (UInt8.ofNat v).toNat < 0x80 then (UInt32.ofNat (UInt8.ofNat v).toNat, 1) else _) = _
    rw [hb, if_pos (by omega)]; rfl
  by_cases h2 : v ≤ 0x7FF
  · simp only [if_neg h1, if_pos h2]
    have hb0 := @toNat_ofNat8 (v / 64 % 0x20 + 0xC0) (by omega)
    have hb1 := @toNat_ofNat8 (v % 0x40 + 0x80) (by omega)
    exact chartorune_two (by rw [hb0, hb1]; omega) (by omega) (by omega) (by unfold Cont; omega) (by omega) post
  by_cases h3 : v ≤ 0xFFFF
  · simp only [if_neg h1, if_neg h2, if_pos h3]
    have hb0 := @toNat_ofNat8 (v / 4096 % 0x10 + 0xE0) (by omega)
    have hb1 := @toNat_ofNat8 (v / 64 % 0x40 + 0x80) (by omega)
    have hb2 := @toNat_ofNat8 (v % 0x40 + 0x80) (by omega)
    exact chartorune_three (by rw [hb0, hb1, hb2]; omega) (by omega) (by omega) (by unfold Cont; omega)
      (by unfold Cont; omega) (by omega) (by omega) post
  simp only [if_neg h1, if_neg h2, if_neg h3]
  have hb0 := @toNat_ofNat8 (v / 262144 % 0x08 + 0xF0) (by omega)
  have hb1 := @toNat_ofNat8 (v / 4096 % 0x40 + 0x80) (by omega)
  have hb2 := @toNat_ofNat8 (v / 64 % 0x40 + 0x80) (by omega)
  have hb3 := @toNat_ofNat8 (v % 0x40 + 0x80) (by omega)
  exact chartorune_four (by rw [hb0, hb1, hb2, hb3]; omega) (by omega) (by omega) (by unfold Cont; omega)
    (by unfold Cont; omega) (by unfold Cont; omega) (by omega) (by omega) post

/-! ## runetochar -/

theorem T_two_or : ∀ x < 0x20, T 2 ||| x = x + 0xC0 :=
  fun _ hx => (Nat.two_pow_add_eq_or_of_lt (i := 5) hx 6).symm.trans (Nat.add_comm ..)

theorem T_three_or : ∀ x < 0x10, T 3 ||| x = x + 0xE0 :=
  fun _ hx => (Nat.two_pow_add_eq_or_of_lt (i := 4) hx 14).symm.trans (Nat.add_comm ..)

theorem T_four_or : ∀ x < 0x08, T 4 ||| x = x + 0xF0 :=
  fun _ hx => (Nat.two_pow_add_eq_or_of_lt (i := 3) hx 30).symm.trans (Nat.add_comm ..)

theorem tx_or_maskx (x : Nat) : Tx ||| (x &&& Maskx) = x % 0x40 + 0x80 := by
  have hor : ∀ y < 0x40, Tx ||| y = y + 0x80 :=
    fun y hy => (Nat.two_pow_add_eq_or_of_lt (i := 6) hy 2).symm.trans (Nat.add_comm ..)
  have hmask : x &&& Maskx = x % 2 ^ 6 := Nat.and_two_pow_sub_one_eq_mod x 6
  rw [hmask]
  exact hor _ (Nat.mod_lt _ (by decide))

theorem runeBytes_two (h : c ≤ 0x7FF) :
    runeBytes 2 c = [UInt8.ofNat (c / 64 % 0x20 + 0xC0), UInt8.ofNat (c % 0x40 + 0x80)] := by
  have h0 : T 2 ||| c / 64 = c / 64 % 0x20 + 0xC0 := by rw [T_two_or _ (by omega)]; omega
  simp [runeBytes, Bitx, Bit, range'_succ, tx_or_maskx, Nat.shiftRight_eq_div_pow, h0]

theorem runeBytes_three (h : c ≤ 0xFFFF) :
    runeBytes 3 c = [UInt8.ofNat (c / 4096 % 0x10 + 0xE0), UInt8.ofNat (c / 64 % 0x40 + 0x80),
      UInt8.ofNat (c % 0x40 + 0x80)] := by
  have h0 : T 3 ||| c / 4096 = c / 4096 % 0x10 + 0xE0 := by rw [T_three_or _ (by omega)]; omega
  simp [runeBytes, Bitx, Bit, range'_succ, tx_or_maskx, Nat.shiftRight_eq_div_pow, h0]

theorem runeBytes_four (h : c ≤ 0x1FFFFF) :
    runeBytes 4 c = [UInt8.ofNat (c / 262144 % 0x08 + 0xF0), UInt8.ofNat (c / 4096 % 0x40 + 0x80),
      UInt8.ofNat (c / 64 % 0x40 + 0x80), UInt8.ofNat (c % 0x40 + 0x80)] := by
  have h0 : T 4 ||| c / 262144 = c / 262144 % 0x08 + 0xF0 := by rw [T_four_or _ (by omega)]; omega
  simp [runeBytes, Bitx, Bit, range'_succ, tx_or_maskx, Nat.shiftRight_eq_div_pow, h0]

theorem rune_fits (c : Nat) : ((c ≤ RuneX 2 ∨ 2 = UTFmax) ↔ c ≤ 0x7FF) ∧ ((c ≤ RuneX 3 ∨ 3 = UTFmax) ↔ c ≤ 0xFFFF) ∧
    ((c ≤ RuneX 4 ∨ 4 = UTFmax) ↔ True) := by
  simp [RuneX_two, RuneX_three, UTFmax]

theorem runetochar_eq (rune : Rune) :
    runetochar rune =
      if rune.toNat ≤ 0x7F then (1, [UInt8.ofNat rune.toNat])
      else if rune.toNat ≤ 0x7FF then (2, runeBytes 2 rune.toNat)
      else if errRune rune.toNat ≤ 0xFFFF then (3, runeBytes 3 (errRune rune.toNat))
      else (4, runeBytes 4 (errRune rune.toNat)) := by
  have hfits := rune_fits
  simp only [runetochar, UTFmax, Nat.reduceAdd, Nat.reduceSub, runeLoop, Nat.reduceEqDiff, if_false, if_true] at *
  simp only [hfits, if_true]
  rfl

theorem errRune_valid (h : c < 0xD800 ∨ 0xDFFF < c ∧ c < 0x110000) : errRune c = c := by
  have hmax : ¬ c > Runemax := by unfold Runemax; omega
  have hsur : ¬ (SurrogateMin ≤ c ∧ c ≤ SurrogateMax) := by unfold SurrogateMin SurrogateMax; omega
  simp only [errRune, if_neg hmax, if_neg hsur]

theorem errRune_invalid (h : ¬ (c < 0xD800 ∨ 0xDFFF < c ∧ c < 0x110000)) : errRune c = Runeerror := by
  unfold errRune
  by_cases hmax : c > Runemax
  · simp only [if_pos hmax]
    rfl
  have hsur : SurrogateMin ≤ c ∧ c ≤ SurrogateMax := by
    unfold SurrogateMin SurrogateMax
    unfold Runemax at hmax
    omega
  simp only [if_neg hmax, if_pos hsur]

/-- **`runetochar` writes the encoding.** -/
theorem runetochar_char (c : Char) : runetochar c.val = ((enc c).length, enc c) := by
  have hvalid : c.val.toNat < 0xD800 ∨ 0xDFFF < c.val.toNat ∧ c.val.toNat < 0x110000 := c.valid
  rw [runetochar_eq, errRune_valid hvalid]
  unfold enc String.utf8EncodeChar
  generalize c.val.toNat = v at hvalid
  by_cases h1 : v ≤ 0x7F
  · simp only [if_pos h1]; rfl
  by_cases h2 : v ≤ 0x7FF
  · simp only [if_neg h1, if_pos h2, runeBytes_two h2]; rfl
  by_cases h3 : v ≤ 0xFFFF
  · simp only [if_neg h1, if_neg h2, if_pos h3, runeBytes_three h3]; rfl
  · simp only [if_neg h1, if_neg h2, if_neg h3, @runeBytes_four v (by omega)]; rfl

theorem runetochar_invalid (h : ¬ (r.toNat < 0xD800 ∨ 0xDFFF < r.toNat ∧ r.toNat < 0x110000)) :
    runetochar r = (3, [0xEF, 0xBF, 0xBD]) := by
  rw [runetochar_eq, errRune_invalid h, if_neg (by omega), if_neg (by omega), if_pos (by decide),
    runeBytes_three (by decide)]
  rfl

/-! ## Strings -/

/-- UTF-8: encodings of code points, one after another. -/
def WellFormed (s : List UInt8) : Prop := ∃ cs : List Char, s = cs.flatMap enc

theorem length_enc_pos (c : Char) : 0 < (enc c).length := by
  rw [String.length_utf8EncodeChar]; exact Char.utf8Size_pos c

theorem nul_mem_enc {c : Char} (h : 0 ∈ enc c) : enc c = [0] := by
  unfold enc String.utf8EncodeChar at h ⊢
  generalize c.val.toNat = v at h ⊢
  have hzero : ∀ x : Nat, 0x80 ≤ x → x < 256 → (0 : UInt8) ≠ UInt8.ofNat x := by
    intro x hlo hhi heq
    have := congrArg UInt8.toNat heq
    simp at this
    omega
  by_cases h1 : v ≤ 0x7F
  · simp only [if_pos h1, mem_singleton] at h ⊢
    rw [← h]
  by_cases h2 : v ≤ 0x7FF
  · simp only [if_neg h1, if_pos h2, mem_cons, not_mem_nil, or_false] at h
    rcases h with h | h <;> exact absurd h (hzero _ (by omega) (by omega))
  by_cases h3 : v ≤ 0xFFFF
  · simp only [if_neg h1, if_neg h2, if_pos h3, mem_cons, not_mem_nil, or_false] at h
    rcases h with h | h | h <;> exact absurd h (hzero _ (by omega) (by omega))
  · simp only [if_neg h1, if_neg h2, if_neg h3, mem_cons, not_mem_nil, or_false] at h
    rcases h with h | h | h | h <;> exact absurd h (hzero _ (by omega) (by omega))

theorem enc_within {c : Char} {rest : List UInt8} (hne : s ≠ [])
    (h : s ++ 0 :: post = enc c ++ rest) : ∃ t, s = enc c ++ t ∧ rest = t ++ 0 :: post := by
  rcases append_eq_append_iff.mp h with ⟨t, henc, hpost⟩ | ⟨t, hst, hrest⟩
  · cases t with
    | nil => exact ⟨[], by simpa using henc.symm, by simpa using hpost.symm⟩
    | cons b t =>
      simp only [cons_append, cons.injEq] at hpost
      have hmem : 0 ∈ enc c := by rw [henc, ← hpost.1]; simp
      have hone := congrArg length (nul_mem_enc hmem)
      rw [henc] at hone
      have := length_pos_iff.mpr hne
      simp at hone
      omega
  · exact ⟨t, hst, hrest⟩

theorem byteAt_head (hne : s ≠ []) (hs : 0 ∉ s) : byteAt (s ++ 0 :: post) 0 ≠ 0 := by
  cases s with
  | nil => exact absurd rfl hne
  | cons b s =>
    intro h
    exact hs (by simp [← show b = 0 from h])

theorem runes_nul (post : List UInt8) : runes (0 :: post) = ([], 0 :: post) := by
  rw [runes]
  exact if_pos rfl

theorem runes_step {rest : List UInt8} {n : Nat} (hne : s ≠ []) (hs : 0 ∉ s)
    (hc : chartorune (s ++ 0 :: post) = (r, n)) (hrest : (s ++ 0 :: post).drop n = rest) :
    runes (s ++ 0 :: post) = (r :: (runes rest).1, (runes rest).2) := by
  rw [runes, if_neg (byteAt_head hne hs), hc, hrest]

/-- Decoding stops at the end of the string. Encoding the runes again gives no fewer bytes, and as many
only if the string is well formed. -/
theorem runes_decode (post : List UInt8) : ∀ {s : List UInt8}, 0 ∉ s →
    (runes (s ++ 0 :: post)).2 = 0 :: post ∧
    s.length ≤ (runesToChars (runes (s ++ 0 :: post)).1).length ∧
    ((runesToChars (runes (s ++ 0 :: post)).1).length = s.length → WellFormed s) := by
  intro s
  induction hn : s.length using Nat.strong_induction_on generalizing s with
  | _ n ih =>
    intro hs
    subst hn
    by_cases hne : s = []
    · subst hne
      rw [nil_append, runes_nul]
      exact ⟨rfl, Nat.zero_le _, fun _ => ⟨[], rfl⟩⟩
    rcases chartorune_cases (show s ++ 0 :: post ≠ [] by simp) with ⟨c, rest, hsplit, hc⟩ | hbad
    · -- an encoding: as many bytes as before
      obtain ⟨t, rfl, rfl⟩ := enc_within hne hsplit
      have hpos := length_enc_pos c
      have hstep := runes_step hne hs hc (by rw [append_assoc, drop_left])
      have ht : 0 ∉ t := fun h => hs (mem_append_right _ h)
      obtain ⟨hend, hle, hwf⟩ := ih t.length (by simp only [length_append]; omega) rfl ht
      rw [hstep]
      simp only [runesToChars, flatMap_cons, runetochar_char, length_append] at hle hwf ⊢
      refine ⟨hend, by omega, fun heq => ?_⟩
      obtain ⟨cs, rfl⟩ := hwf (by omega)
      exact ⟨c :: cs, rfl⟩
    -- a byte that is part of none: three for one
    cases s with
    | nil => exact absurd rfl hne
    | cons b t =>
      have hstep := runes_step hne hs hbad (show (b :: t ++ 0 :: post).drop 1 = t ++ 0 :: post from rfl)
      have ht : 0 ∉ t := fun h => hs (mem_cons_of_mem _ h)
      obtain ⟨hend, hle, -⟩ := ih t.length (by simp) rfl ht
      have herr : (runetochar (UInt32.ofNat Runeerror)).2.length = 3 := rfl
      rw [hstep]
      simp only [runesToChars, flatMap_cons, length_append, herr, length_cons] at hle ⊢
      exact ⟨hend, by omega, fun heq => by omega⟩

theorem runes_chars (post : List UInt8) : ∀ {cs : List Char}, 0 ∉ cs.flatMap enc →
    (runes (cs.flatMap enc ++ 0 :: post)).1 = cs.map Char.val
  | [], _ => by rw [flatMap_nil, nil_append, runes_nul]; rfl
  | c :: cs, hs => by
    rw [flatMap_cons] at hs ⊢
    have hne : enc c ++ cs.flatMap enc ≠ [] := by
      have := length_enc_pos c
      intro h
      have := congrArg length h
      simp only [length_append, length_nil] at this
      omega
    have hc := chartorune_char c (cs.flatMap enc ++ 0 :: post)
    rw [← append_assoc] at hc
    rw [runes_step hne hs hc (by rw [append_assoc, drop_left]),
      runes_chars post (fun h => hs (mem_append_right _ h))]
    rfl

theorem runesToChars_chars (cs : List Char) : runesToChars (cs.map Char.val) = cs.flatMap enc := by
  rw [runesToChars, flatMap_map]
  exact flatMap_congr fun c _ => by rw [runetochar_char]

/-! ## One call on a string -/

theorem chartorune_nul (hne : s ≠ []) (post : List UInt8) :
    chartorune (s ++ 0 :: post) = chartorune (s ++ [0]) := by
  have hfound : ∀ post1 post2 : List UInt8, ∀ c rest, s ++ 0 :: post1 = enc c ++ rest →
      chartorune (s ++ 0 :: post2) = (c.val, (enc c).length) := by
    intro post1 post2 c rest h
    obtain ⟨t, hs, -⟩ := enc_within hne h
    rw [hs, append_assoc, chartorune_char]
  rcases @chartorune_cases (s ++ 0 :: post) (by simp) with ⟨c, rest, h, hc⟩ | hbad
  · rw [hc, hfound post [] c rest h]
  · rcases @chartorune_cases (s ++ [0]) (by simp) with ⟨c, rest, h, hc⟩ | hbad'
    · rw [hc, hfound [] post c rest h]
    · rw [hbad, hbad']

theorem high_enc {c : Char} (h : 0x7F < c.val.toNat) : ∀ b ∈ enc c, 0x80 ≤ b.toNat := by
  have hvalid : c.val.toNat < 0xD800 ∨ 0xDFFF < c.val.toNat ∧ c.val.toNat < 0x110000 := c.valid
  have hhigh : ∀ x : Nat, 0x80 ≤ x → x < 256 → 0x80 ≤ (UInt8.ofNat x).toNat := by
    intro x hlo hhi
    rw [toNat_ofNat8 hhi]; exact hlo
  intro b hb
  unfold enc String.utf8EncodeChar at hb
  generalize c.val.toNat = v at h hb hvalid
  rw [if_neg (by omega)] at hb
  by_cases h2 : v ≤ 0x7FF
  · simp only [if_pos h2, mem_cons, not_mem_nil, or_false] at hb
    rcases hb with rfl | rfl <;> exact hhigh _ (by omega) (by omega)
  by_cases h3 : v ≤ 0xFFFF
  · simp only [if_neg h2, if_pos h3, mem_cons, not_mem_nil, or_false] at hb
    rcases hb with rfl | rfl | rfl <;> exact hhigh _ (by omega) (by omega)
  · simp only [if_neg h2, if_neg h3, mem_cons, not_mem_nil, or_false] at hb
    rcases hb with rfl | rfl | rfl | rfl <;> exact hhigh _ (by omega) (by omega)

/-- The bytes that a call takes off a string: one below 0x80, which is the rune, or several from 0x80 on. -/
inductive Front : List UInt8 → Rune → Prop
  | low (b : UInt8) (h : b.toNat < 0x80) : Front [b] (UInt32.ofNat b.toNat)
  | high (xs : List UInt8) (c : Rune) (hne : xs ≠ []) (hc : 0x80 ≤ c.toNat) (h : ∀ b ∈ xs, 0x80 ≤ b.toNat) : Front xs c

theorem chartorune_front (hne : s ≠ []) (post : List UInt8) :
    ∃ xs t c, s = xs ++ t ∧ Front xs c ∧ chartorune (s ++ 0 :: post) = (c, xs.length) := by
  cases s with
  | nil => exact absurd rfl hne
  | cons b s =>
    by_cases hb : b.toNat < 0x80
    · refine ⟨[b], s, _, rfl, .low b hb, ?_⟩
      exact if_pos hb
    rcases @chartorune_cases (b :: s ++ 0 :: post) (by simp) with ⟨c, rest, h, hc⟩ | hbad
    · obtain ⟨t, hs, -⟩ := enc_within hne h
      have hhigh : 0x7F < c.val.toNat := by
        by_contra hle
        have hone : enc c = [UInt8.ofNat c.val.toNat] := by
          exact if_pos (by omega)
        rw [hone, cons_append, cons.injEq] at hs
        rw [hs.1, toNat_ofNat8 (by omega)] at hb
        omega
      exact ⟨enc c, t, c.val, hs, .high _ _ (length_pos_iff.mp (length_enc_pos c)) hhigh (high_enc hhigh), hc⟩
    refine ⟨[b], s, _, rfl, .high [b] (UInt32.ofNat Runeerror) (by simp) (by decide) ?_, hbad⟩
    intro x hx
    rw [mem_singleton.mp hx]
    omega

theorem Front.pos {xs : List UInt8} {c : Rune} (h : Front xs c) : 0 < xs.length := by
  cases h with
  | low b _ => exact Nat.one_pos
  | high xs c hne _ _ => exact length_pos_iff.mpr hne

/-! ## Lists of runes -/

/-- A rune as it comes back: the error rune when it is a surrogate or out of range. -/
def Rune.back (r : Rune) : Rune :=
  if SurrogateMin ≤ r.toNat ∧ r.toNat ≤ SurrogateMax ∨ Runemax < r.toNat then UInt32.ofNat Runeerror else r

theorem runetochar_back (r : Rune) : ∃ c : Char, (runetochar r).2 = enc c ∧ c.val = r.back := by
  by_cases h : r.toNat < 0xD800 ∨ 0xDFFF < r.toNat ∧ r.toNat < 0x110000
  · refine ⟨⟨r, h⟩, congrArg Prod.snd (runetochar_char ⟨r, h⟩), ?_⟩
    rw [Rune.back, if_neg (by unfold SurrogateMin SurrogateMax Runemax; omega)]
  · refine ⟨⟨UInt32.ofNat Runeerror, by decide⟩, ?_, ?_⟩
    · rw [runetochar_invalid h]; rfl
    · rw [Rune.back, if_pos (by unfold SurrogateMin SurrogateMax Runemax; omega)]

theorem nrunes_back (post : List UInt8) : ∀ rs : List Rune,
    nrunes (runesToChars rs ++ post) (runesToChars rs).length = rs.map Rune.back
  | [] => by
    rw [nrunes]
    exact if_pos rfl
  | r :: rs => by
    obtain ⟨c, henc, hback⟩ := runetochar_back r
    have hcons : runesToChars (r :: rs) = enc c ++ runesToChars rs := by
      rw [runesToChars, flatMap_cons, henc]; rfl
    have hpos := length_enc_pos c
    have hc := chartorune_char c (runesToChars rs ++ post)
    rw [hcons, append_assoc, nrunes, if_neg (by rw [length_append]; omega), hc]
    rw [drop_left, length_append, Nat.add_sub_cancel_left, nrunes_back post rs, hback]
    rfl

/-- **Decoding a string uses up its bytes, and the string comes back exactly when it is well formed;
encoding a list of runes loses nothing but what is no code point.** The second loop runs over the
bytes that were written, since a list may hold the rune 0. -/
theorem utf8_round_trip :
    (∀ s post : List UInt8, 0 ∉ s →
      (runes (s ++ 0 :: post)).2 = 0 :: post ∧
      (runesToChars (runes (s ++ 0 :: post)).1 = s ↔ WellFormed s)) ∧
    (∀ (rs : List Rune) (post : List UInt8),
      nrunes (runesToChars rs ++ post) (runesToChars rs).length = rs.map Rune.back) := by
  refine ⟨fun s post hs => ?_, fun rs post => nrunes_back post rs⟩
  obtain ⟨hend, -, hwf⟩ := runes_decode post hs
  refine ⟨hend, fun h => hwf (by rw [h]), ?_⟩
  rintro ⟨cs, rfl⟩
  rw [runes_chars post hs, runesToChars_chars]

/-- Two characters, of two and of three bytes. -/
theorem utf8_round_trip_chars :
    runesToChars (runes ([0xC3, 0xA9, 0xE2, 0x82, 0xAC] ++ [0])).1 = [0xC3, 0xA9, 0xE2, 0x82, 0xAC] :=
  (utf8_round_trip.1 [0xC3, 0xA9, 0xE2, 0x82, 0xAC] [] (by decide)).2.mpr ⟨['é', '€'], by decide⟩

end Plan9.Libc
