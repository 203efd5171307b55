/-
How many bytes there are to a rune, as `port/rune.c` has it asked before the bytes are
written and before they are read: `runenlen` and `fullrune`.

A string or an array argument is the memory from the pointer on; `runenlen` is given the
`nrune` runes at `r`. A reader that waits for `fullrune` decodes what it has and keeps the
rest for when there is more.
-/
import Plan9.Lib.CInt
import Plan9.Libc.RuneFacts

namespace Plan9.Libc

open Bytes CInt List

/-! ## runenlen -/

/-- The inner loop of `runenlen` at `i`, for `n` more rounds. -/
def sizeLoop (c : Nat) : Nat → Nat → Nat
  | 0, _ => 0
  | n + 1, i => if c ≤ RuneX i ∨ i = UTFmax then i else sizeLoop c n (i + 1)

/-- The loop of `runenlen`. -/
def nlenLoop (nb : Int) : List Rune → Int
  | [] => nb
  | c :: r =>
    if c.toNat ≤ Rune1 then nlenLoop (int32 (nb + 1)) r
    else nlenLoop (int32 (nb + sizeLoop c.toNat (UTFmax + 1 - 2) 2)) r

def runenlen (r : List Rune) : Int := nlenLoop 0 r

/-- What is counted for a rune. -/
def runeSize (c : Rune) : Nat := if c.toNat ≤ Rune1 then 1 else sizeLoop c.toNat (UTFmax + 1 - 2) 2

/-- A rune that is too large counts for a byte more than is written. -/
def excess (c : Rune) : Nat := if c.toNat ≤ Runemax then 0 else 1

theorem sizeLoop_eq (c : Nat) :
    sizeLoop c (UTFmax + 1 - 2) 2 = if c ≤ 0x7FF then 2 else if c ≤ 0xFFFF then 3 else 4 := by
  rw [show UTFmax + 1 - 2 = 0 + 1 + 1 + 1 from rfl, sizeLoop, sizeLoop, sizeLoop]
  simp only [Nat.reduceAdd, rune_fits, if_true]

theorem length_runeBytes {i : Nat} (c : Nat) (hi : 0 < i) : (runeBytes i c).length = i := by
  rw [runeBytes, length_cons, length_map, length_range']
  omega

theorem runeSize_eq (c : Rune) : runeSize c = (runetochar c).2.length + excess c := by
  have hone : c.toNat ≤ Rune1 ↔ c.toNat ≤ 0x7F := Iff.rfl
  rw [runeSize, runetochar_eq, sizeLoop_eq, excess, Runemax]
  by_cases h1 : c.toNat ≤ 0x7F
  · rw [if_pos (hone.2 h1), if_pos h1, if_pos (by omega)]
    rfl
  rw [if_neg (mt hone.1 h1), if_neg h1]
  by_cases h2 : c.toNat ≤ 0x7FF
  · rw [if_pos h2, if_pos h2, if_pos (by omega), length_runeBytes _ (by decide)]
  rw [if_neg h2, if_neg h2]
  by_cases hmax : c.toNat ≤ 0x10FFFF
  · rw [if_pos hmax]
    by_cases hsur : c.toNat < 0xD800 ∨ 0xDFFF < c.toNat ∧ c.toNat < 0x110000
    · rw [errRune_valid hsur]
      by_cases h3 : c.toNat ≤ 0xFFFF
      · rw [if_pos h3, if_pos h3, length_runeBytes _ (by decide)]
      · rw [if_neg h3, if_neg h3, length_runeBytes _ (by decide)]
    · -- half of a surrogate pair is as long as the error rune
      rw [errRune_invalid hsur, if_pos (by omega), if_pos (by decide), length_runeBytes _ (by decide)]
  · have hbad : ¬ (c.toNat < 0xD800 ∨ 0xDFFF < c.toNat ∧ c.toNat < 0x110000) := by omega
    rw [errRune_invalid hbad, if_neg (by omega), if_pos (by decide), if_neg hmax, length_runeBytes _ (by decide)]

theorem nlenLoop_eq : ∀ (r : List Rune) (n : Nat),
    nlenLoop (int32 n) r = int32 (n + (r.map runeSize).sum : Nat)
  | [], n => rfl
  | c :: r, n => by
    have hstep : nlenLoop (int32 n) (c :: r) = nlenLoop (int32 (int32 n + runeSize c)) r := by
      rw [nlenLoop, runeSize]
      split <;> rfl
    have hn : int32 (int32 n + runeSize c) = int32 ((n + runeSize c : Nat) : Int) := by
      rw [int32_add]
      rfl
    rw [hstep, hn, nlenLoop_eq r, map_cons, sum_cons, Nat.add_assoc]

/-- The bytes written, and the runes that are too large besides. -/
theorem runenlen_eq (r : List Rune) : runenlen r = int32 ((runesToChars r).length + (r.map excess).sum : Nat) := by
  have hsum : (r.map runeSize).sum = (runesToChars r).length + (r.map excess).sum := by
    induction r with
    | nil => rfl
    | cons c r ih =>
      rw [runesToChars] at ih ⊢
      rw [map_cons, sum_cons, ih, runeSize_eq, flatMap_cons, length_append, map_cons,
        sum_cons]
      omega
  have h := nlenLoop_eq r 0
  rw [hsum, Nat.zero_add] at h
  exact h

theorem excess_le (r : List Rune) : (r.map excess).sum ≤ (runesToChars r).length := by
  induction r with
  | nil => exact Nat.le_refl 0
  | cons c r ih =>
    have hc : excess c ≤ (runetochar c).2.length := by
      have hpos : 0 < (runetochar c).2.length := by
        rw [runetochar_eq]
        split
        · exact Nat.one_pos
        · split
          · exact Nat.succ_pos _
          · split <;> exact Nat.succ_pos _
      rw [excess]
      split <;> omega
    rw [runesToChars] at ih ⊢
    rw [map_cons, sum_cons, flatMap_cons, length_append]
    omega

theorem excess_zero (r : List Rune) : (r.map excess).sum = 0 ↔ ∀ c ∈ r, c.toNat ≤ Runemax := by
  induction r with
  | nil => exact ⟨fun _ => nofun, fun _ => rfl⟩
  | cons c r ih =>
    have hc : excess c = 0 ↔ c.toNat ≤ Runemax := by
      rw [excess]
      by_cases hle : c.toNat ≤ Runemax
      · exact iff_of_true (if_pos hle) hle
      · rw [if_neg hle]
        exact iff_of_false Nat.one_ne_zero hle
    rw [map_cons, sum_cons, forall_mem_cons, ← ih, ← hc]
    omega

/-- **`runenlen` is the number of bytes** that `runetochar` writes when no rune is too large and the number is
an `int`, and never else. -/
theorem runenlen_bytes (r : List Rune) :
    runenlen r = (runesToChars r).length ↔ (∀ c ∈ r, c.toNat ≤ Runemax) ∧ (runesToChars r).length < 2 ^ 31 := by
  rw [runenlen_eq, ← excess_zero]
  have hle := excess_le r
  generalize (runesToChars r).length = n at *
  generalize (r.map excess).sum = k at *
  constructor
  · intro h
    have hmax := int32_le_max ((n + k : Nat) : Int)
    have hmod := int32_emod ((n + k : Nat) : Int)
    omega
  · rintro ⟨rfl, hlt⟩
    exact int32_eq (by omega) (by omega)

/-- A rune that is no code point. -/
theorem runenlen_large : ¬ ∀ r : List Rune, runenlen r = (runesToChars r).length := by
  intro h
  exact absurd (h [0x110000]) (by decide)

/-! ## fullrune -/

/-- The loop of `fullrune` at `i`, for `k` more rounds. -/
def fullLoop (c : Nat) (n : Int) : Nat → Nat → Bool
  | 0, _ => n ≥ UTFmax
  | k + 1, i => if c < T i then n ≥ i - 1 else fullLoop c n k (i + 1)

def fullrune (str : List UInt8) (n : Int) : Bool :=
  if n ≤ 0 then false
  else
    let c := (byteAt str 0).toNat
    if c < Tx then true else fullLoop c n (UTFmax + 1 - 3) 3

/-- The byte `j` after the first one is looked at, if those before it are as they should be. -/
def Reads (c0 j : Nat) : Prop := ∀ k, 0 < k → k < j → T (k + 2) ≤ c0

theorem charLoop_congr {s s' : List UInt8} {c0 : Nat}
    (h : ∀ j, 0 < j → j < UTFmax → Reads c0 j → byteAt s j = byteAt s' j) :
    ∀ {n i l : Nat}, 0 < i → i + n = UTFmax → Reads c0 i → charLoop s c0 n i l = charLoop s' c0 n i l
  | 0, _, _, _, _, _ => rfl
  | n + 1, i, l, hi, hn, hr => by
    rw [charLoop_succ, charLoop_succ, h i hi (by omega) hr]
    by_cases hlast : c0 < T (i + 2)
    · rw [if_pos hlast, if_pos hlast]
    have hnext : Reads c0 (i + 1) := by
      intro k hk hki
      by_cases heq : k = i
      · rw [heq]
        exact Nat.le_of_not_lt hlast
      · exact hr k hk (by omega)
    rw [if_neg hlast, if_neg hlast, charLoop_congr h (Nat.succ_pos i) (by omega) hnext]

variable {s : List UInt8}

theorem charLoop_reads {c0 : Nat} {r : Rune × Nat} :
    ∀ {n i l : Nat}, 0 < i → i + n = UTFmax → Reads c0 i → charLoop s c0 n i l = some r →
      ∃ j, 0 < j ∧ j < UTFmax ∧ Reads c0 j ∧ r.2 = j + 1
  | 0, _, _, _, _, _, h => by cases h
  | n + 1, i, l, hi, hn, hr, h => by
    rw [charLoop_succ] at h
    split at h
    case isFalse => cases h
    split at h
    · split at h
      · cases h
      · cases h
        exact ⟨i, hi, by omega, hr, rfl⟩
    rename_i hmore
    have hnext : Reads c0 (i + 1) := by
      intro k hk hki
      by_cases heq : k = i
      · rw [heq]
        exact Nat.le_of_not_lt hmore
      · exact hr k hk (by omega)
    exact charLoop_reads (Nat.succ_pos i) (by omega) hnext h

theorem reads_one (c0 : Nat) : Reads c0 1 := by
  intro k hk hk1
  omega

/-- When there is a full rune, the bytes that are looked at are there. -/
theorem fullrune_reads {n : Int} (h : fullrune s n = true) :
    0 < n ∧ (0x80 ≤ (byteAt s 0).toNat → ∀ j : Nat, 0 < j → j < UTFmax → Reads (byteAt s 0).toNat j → (j : Int) < n) := by
  rw [fullrune] at h
  split at h
  · cases h
  refine ⟨by omega, ?_⟩
  intro hc j hj hjmax hr
  rw [UTFmax] at hjmax
  rw [if_neg (show ¬ (byteAt s 0).toNat < Tx from Nat.not_lt.2 hc), show UTFmax + 1 - 3 = 0 + 1 + 1 from rfl, fullLoop, fullLoop, fullLoop] at h
  by_cases h3 : (byteAt s 0).toNat < T 3
  · rw [if_pos h3, decide_eq_true_eq] at h
    by_cases hj1 : j = 1
    · omega
    · exact absurd (hr 1 Nat.one_pos (by omega)) (Nat.not_le.2 h3)
  rw [if_neg h3] at h
  by_cases h4 : (byteAt s 0).toNat < T 4
  · rw [if_pos h4, decide_eq_true_eq] at h
    by_cases hj2 : j ≤ 2
    · omega
    · exact absurd (hr 2 (by decide) (by omega)) (Nat.not_le.2 h4)
  · rw [if_neg h4, decide_eq_true_eq, UTFmax] at h
    omega

theorem fullrune_max (s : List UInt8) {n : Int} (h : (UTFmax : Int) ≤ n) : fullrune s n = true := by
  rw [UTFmax] at h
  rw [fullrune, if_neg (by omega)]
  dsimp only
  split
  · rfl
  rw [show UTFmax + 1 - 3 = 0 + 1 + 1 from rfl, fullLoop, fullLoop, fullLoop]
  split
  · exact decide_eq_true (by omega)
  · split
    · exact decide_eq_true (by omega)
    · exact decide_eq_true h

theorem byteAt_left (t : List UInt8) {j : Nat} (h : j < s.length) : byteAt (s ++ t) j = byteAt s j := by
  rw [byteAt, byteAt, getD_eq_getElem?_getD, getD_eq_getElem?_getD, getElem?_append_left h]

/-- What follows a full rune is not looked at. -/
theorem chartorune_full (t : List UInt8) (h : fullrune s s.length = true) :
    chartorune (s ++ t) = chartorune s ∧ (chartorune s).2 ≤ s.length := by
  obtain ⟨hpos, hreads⟩ := fullrune_reads h
  have hpos : 0 < s.length := by omega
  have h0 := byteAt_left t hpos
  rw [chartorune, chartorune, h0]
  by_cases hc : (byteAt s 0).toNat < Tx
  · rw [if_pos hc, if_pos hc]
    exact ⟨rfl, hpos⟩
  have hreads := hreads (Nat.le_of_not_lt hc)
  have hloop : charLoop (s ++ t) (byteAt s 0).toNat (UTFmax - 1) 1 (byteAt s 0).toNat =
      charLoop s (byteAt s 0).toNat (UTFmax - 1) 1 (byteAt s 0).toNat := by
    refine charLoop_congr ?_ Nat.one_pos rfl (reads_one _)
    intro j hj hjmax hr
    have := hreads j hj hjmax hr
    exact byteAt_left t (by omega)
  rw [if_neg hc, if_neg hc, hloop]
  refine ⟨rfl, ?_⟩
  cases hr : charLoop s (byteAt s 0).toNat (UTFmax - 1) 1 (byteAt s 0).toNat with
  | none => exact hpos
  | some r =>
    obtain ⟨j, hj, hjmax, hjr, hr2⟩ := charLoop_reads Nat.one_pos rfl (reads_one _) hr
    have := hreads j hj hjmax hjr
    rw [Option.getD_some, hr2]
    omega

/-! ## Readers -/

/-- What a reader makes of the bytes it has: the runes, and what it keeps. -/
def decode (s : List UInt8) : List Rune × List UInt8 :=
  if fullrune s s.length then
    let (rs, rest) := decode (s.drop (chartorune s).2)
    ((chartorune s).1 :: rs, rest)
  else ([], s)
termination_by s.length
decreasing_by
  rename_i h
  have hpos := (fullrune_reads h).1
  have hn := chartorune_count s
  rw [List.length_drop]
  omega

/-- A read has brought some more bytes. -/
def readMore (st : List Rune × List UInt8) (more : List UInt8) : List Rune × List UInt8 :=
  (st.1 ++ (decode (st.2 ++ more)).1, (decode (st.2 ++ more)).2)

theorem decode_full (h : fullrune s s.length = true) :
    decode s = ((chartorune s).1 :: (decode (s.drop (chartorune s).2)).1, (decode (s.drop (chartorune s).2)).2) := by
  rw [decode, if_pos h]

theorem decode_short (h : ¬ fullrune s s.length = true) : decode s = ([], s) := by
  rw [decode, if_neg h]

theorem fullrune_append (t : List UInt8) (h : fullrune s s.length = true) :
    fullrune (s ++ t) (s ++ t).length = true := by
  have hpos := (fullrune_reads h).1
  have h0 := byteAt_left t (show 0 < s.length by omega)
  have hmore : ∀ k i : Nat, fullLoop (byteAt s 0).toNat s.length k i = true →
      fullLoop (byteAt s 0).toNat (s ++ t).length k i = true := by
    intro k
    induction k with
    | zero =>
      intro i hi
      rw [fullLoop, decide_eq_true_eq] at hi ⊢
      rw [length_append]
      omega
    | succ k ih =>
      intro i hi
      rw [fullLoop] at hi ⊢
      split
      · rename_i hc
        rw [if_pos hc, decide_eq_true_eq] at hi
        rw [decide_eq_true_eq, length_append]
        omega
      · rename_i hc
        rw [if_neg hc] at hi
        exact ih _ hi
  have hlen : ¬ ((s ++ t).length : Int) ≤ 0 := by
    rw [length_append]
    omega
  rw [fullrune, if_neg (by omega)] at h
  rw [fullrune, if_neg hlen, h0]
  dsimp only at h ⊢
  split
  · rfl
  · rename_i hc
    rw [if_neg hc] at h
    exact hmore _ _ h

theorem decode_append (s t : List UInt8) :
    decode (s ++ t) = ((decode s).1 ++ (decode ((decode s).2 ++ t)).1, (decode ((decode s).2 ++ t)).2) := by
  by_cases h : fullrune s s.length = true
  · obtain ⟨heq, hle⟩ := chartorune_full t h
    have hdrop : (s ++ t).drop (chartorune s).2 = s.drop (chartorune s).2 ++ t := drop_append_of_le_length hle
    have hn := chartorune_count s
    have ih := decode_append (s.drop (chartorune s).2) t
    rw [decode_full (fullrune_append t h), heq, hdrop, ih, decode_full h]
    rfl
  · rw [decode_short h]
    rfl
termination_by s.length
decreasing_by
  rw [List.length_drop]
  omega

theorem decode_rest (s : List UInt8) : ¬ fullrune (decode s).2 (decode s).2.length = true := by
  by_cases h : fullrune s s.length = true
  · have hpos := (fullrune_reads h).1
    have hn := chartorune_count s
    rw [decode_full h]
    exact decode_rest (s.drop (chartorune s).2)
  · rw [decode_short h]
    exact h
termination_by s.length
decreasing_by
  rw [List.length_drop]
  omega

theorem readMore_foldl (reads : List (List UInt8)) : ∀ (rs : List Rune) (s : List UInt8), (decode s) = ([], s) →
    reads.foldl readMore (rs, s) = (rs ++ (decode (s ++ reads.flatten)).1, (decode (s ++ reads.flatten)).2) := by
  induction reads with
  | nil =>
    intro rs s hs
    rw [foldl_nil, flatten_nil, append_nil, hs, append_nil]
  | cons t reads ih =>
    intro rs s hs
    rw [foldl_cons, readMore, ih _ _ (decode_short (decode_rest (s ++ t))), flatten_cons, ← append_assoc,
      decode_append (s ++ t), append_assoc]

/-- **A full rune is decoded as it will be**, whatever comes after it, from bytes that are there; with `UTFmax` bytes
there is one. A reader that waits for it is left with fewer, and reads the same runes however the stream is cut. -/
theorem fullrune_decodes (s : List UInt8) :
    (fullrune s s.length = true → ∀ t t', chartorune (s ++ t) = chartorune (s ++ t') ∧
      (chartorune (s ++ t)).2 ≤ s.length) ∧
    (UTFmax ≤ s.length → fullrune s s.length = true) ∧
    (∀ reads : List (List UInt8), reads.flatten = s → reads.foldl readMore ([], []) = decode s) ∧
    (decode s).2.length < UTFmax := by
  refine ⟨?_, fun h => fullrune_max s (Int.ofNat_le.2 h), ?_, ?_⟩
  · intro h t t'
    obtain ⟨ht, hle⟩ := chartorune_full t h
    rw [ht, (chartorune_full t' h).1]
    exact ⟨rfl, hle⟩
  · rintro reads rfl
    have hnil : decode [] = ([], []) := decode_short (by decide)
    exact readMore_foldl reads [] [] hnil
  · by_contra h
    exact decode_rest s (fullrune_max _ (Int.ofNat_le.2 (Nat.le_of_not_lt h)))

end Plan9.Libc
