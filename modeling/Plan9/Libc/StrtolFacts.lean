/-
What `strtoull`, `strtoll` and `strtol` read against what is in the string.

White space, sign and base leave what they should, and the digits are folded with the
step of the function (`scanNumber_numeral`). For the signed ones the step keeps the value
until it is too large and knows then (`signed_fold`): a quotient that is too large, or a
sum that has become negative, is all there is. The unsigned one keeps the value by 2^64,
and has a limit that is too high.
-/
import Mathlib.Data.List.Induction
import Plan9.Libc.Strtol

namespace Plan9.Libc

open Bytes CInt List

/-! ## The parts of a number -/

theorem skipBlank_nul (post : List UInt8) : ∀ s, skipBlank (s ++ 0 :: post) = s.dropWhile isBlank ++ 0 :: post
  | [] => rfl
  | c :: s => by
    rw [cons_append, skipBlank, dropWhile_cons]
    split
    · exact skipBlank_nul post s
    · rfl

theorem takeSign_nul (post : List UInt8) (s : List UInt8) :
    takeSign (s ++ 0 :: post) = ((signOf s).1, (signOf s).2 ++ 0 :: post) := by
  cases s with
  | nil => rfl
  | cons c s =>
    change (if c = 0x2D ∨ c = 0x2B then (decide (c = 0x2D), s ++ 0 :: post) else (false, c :: s ++ 0 :: post)) = _
    rw [signOf]
    by_cases hneg : c = 0x2D
    · rw [if_pos (.inl hneg), if_pos hneg, decide_eq_true hneg]
    rw [if_neg hneg, decide_eq_false hneg]
    by_cases hpos : c = 0x2B
    · rw [if_pos (.inr hpos), if_pos hpos]
    · rw [if_neg (fun h => h.elim hneg hpos), if_neg hpos]

theorem byteAt_nul (post : List UInt8) (s : List UInt8) : byteAt (s ++ 0 :: post) 0 = 0x30 ↔ s.head? = some 0x30 := by
  cases s with
  | nil => exact ⟨fun h => absurd (show (0 : UInt8) = 0x30 from h) (by decide), nofun⟩
  | cons c s => exact Option.some_inj.symm

theorem afterHex_nul (post : List UInt8) (s : List UInt8) :
    (∃ s', afterHex s = some s' ∧ byteAt (s ++ 0 :: post) 0 = 0x30 ∧
        (byteAt (s ++ 0 :: post) 1 = 0x78 ∨ byteAt (s ++ 0 :: post) 1 = 0x58) ∧
        (s ++ 0 :: post).drop 2 = s' ++ 0 :: post) ∨
      afterHex s = none ∧ (byteAt (s ++ 0 :: post) 0 = 0x30 →
        ¬ (byteAt (s ++ 0 :: post) 1 = 0x78 ∨ byteAt (s ++ 0 :: post) 1 = 0x58)) := by
  cases s with
  | nil => exact .inr ⟨rfl, fun h => absurd (show (0 : UInt8) = 0x30 from h) (by decide)⟩
  | cons c s =>
    cases s with
    | nil =>
      refine .inr ⟨rfl, fun _ => ?_⟩
      change ¬ ((0 : UInt8) = 0x78 ∨ (0 : UInt8) = 0x58)
      decide
    | cons x s =>
      by_cases h : c = 0x30 ∧ (x = 0x78 ∨ x = 0x58)
      · exact .inl ⟨s, if_pos h, h.1, h.2, rfl⟩
      · exact .inr ⟨if_neg h, fun hc hx => h ⟨hc, hx⟩⟩

variable {base : Nat}

theorem takeBase_nul (post : List UInt8) (s : List UInt8) (hb : base ≤ 36) :
    takeBase base (s ++ 0 :: post) = some ((baseOf base s).1, (baseOf base s).2 ++ 0 :: post) := by
  have hzero := byteAt_nul post s
  have h0 : (base : Int) = 0 ↔ base = 0 := Int.ofNat_eq_zero
  have h16 : (base : Int) = 16 ↔ base = 16 := Int.ofNat_inj
  rw [takeBase]
  rcases afterHex_nul post s with ⟨s', hs, hhead, hx, hdrop⟩ | ⟨hs, hx⟩
  · by_cases hbase : base = 0 ∨ base = 16
    · rw [show baseOf base s = (16, s') by rw [baseOf, if_pos hbase, hs]]
      rcases hbase with hbase | hbase
      · rw [if_pos (h0.2 hbase), if_pos hhead, if_pos hx, hdrop]
      · rw [if_neg (by omega), if_pos ⟨h16.2 hbase, hhead⟩, if_pos hx, hdrop]
    · rw [show baseOf base s = (base, s) by rw [baseOf, if_neg hbase], if_neg (by omega), if_neg (by omega),
        if_neg (by omega)]
      rfl
  by_cases hbase : base = 0 ∨ base = 16
  · rw [show baseOf base s = (if base = 16 then 16 else if s.head? = some 0x30 then 8 else 10, s) by
      rw [baseOf, if_pos hbase, hs]]
    rcases hbase with hbase | hbase
    · rw [if_pos (h0.2 hbase)]
      rw [if_neg (show ¬ base = 16 by omega)]
      by_cases hhead : byteAt (s ++ 0 :: post) 0 = 0x30
      · rw [if_pos hhead, if_neg (hx hhead), if_pos (hzero.1 hhead)]
      · rw [if_neg hhead, if_neg (mt hzero.2 hhead)]
    rw [if_neg (by omega)]
    rw [if_pos hbase]
    by_cases hhead : byteAt (s ++ 0 :: post) 0 = 0x30
    · rw [if_pos ⟨h16.2 hbase, hhead⟩, if_neg (hx hhead)]
    · rw [if_neg (fun h => hhead h.2), if_neg (by omega), hbase]
      rfl
  · rw [show baseOf base s = (base, s) by rw [baseOf, if_neg hbase], if_neg (by omega), if_neg (by omega),
      if_neg (by omega)]
    rfl

theorem digitLoop_nul {σ : Type} (step : σ → Nat → σ) (base : Nat) (post : List UInt8) :
    ∀ (s : List UInt8) (k : Int) (st : σ), digitLoop step base (s ++ 0 :: post) (int32 k) st =
      (((s.takeWhile (isDigit base)).map (digitOf base)).foldl step st, s.dropWhile (isDigit base) ++ 0 :: post,
        int32 (k + (s.takeWhile (isDigit base)).length))
  | [], k, st => by
    have hstop : digitOf base 0 ≥ base := Nat.le_refl base
    rw [nil_append, digitLoop, if_pos hstop]
    change _ = (st, 0 :: post, int32 (k + 0))
    rw [Int.add_zero]
  | c :: s, k, st => by
    rw [cons_append, digitLoop, takeWhile_cons, dropWhile_cons]
    by_cases hc : digitOf base c < base
    · have hd : isDigit base c = true := decide_eq_true hc
      rw [if_neg (Nat.not_le.2 hc), if_pos hd, if_pos hd, int32_add, digitLoop_nul step base post s, map_cons,
        foldl_cons, length_cons, Int.add_assoc, Int.add_comm 1, Int.natCast_succ]
    have hd : ¬ isDigit base c = true := fun h => hc (of_decide_eq_true h)
    rw [if_pos (Nat.le_of_not_lt hc), if_neg hd, if_neg hd]
    change _ = (st, c :: s ++ 0 :: post, int32 (k + 0))
    rw [Int.add_zero]
    rfl

/-! ## What is read -/

/-- `ndig` is not 0 when there is a digit. -/
def Numeral.Counted (x : Numeral) : Prop := x.digits = [] ∨ x.digits.length % 2 ^ 32 ≠ 0

theorem scanNumber_numeral {σ : Type} (step : Nat → σ → Nat → σ) (st : σ) (s post : List UInt8)
    (hb : base ≤ 36) :
    scanNumber step st (s ++ 0 :: post) base =
      ((numeral base s).neg, (numeral base s).digits.foldl (step (numeral base s).base) st,
        if (numeral base s).digits.length % 2 ^ 32 = 0 then s ++ 0 :: post else (numeral base s).rest ++ 0 :: post) := by
  have hloop := digitLoop_nul (step (numeral base s).base) (numeral base s).base post
    (baseOf base (signOf (s.dropWhile isBlank)).2).2 0 st
  have hcount : int32 (0 + (numeral base s).digits.length) = 0 ↔ (numeral base s).digits.length % 2 ^ 32 = 0 := by
    have hmod := int32_emod (0 + (numeral base s).digits.length)
    constructor
    · intro h
      omega
    intro h
    have hlo := le_int32 (0 + (numeral base s).digits.length)
    have hhi := int32_le_max (0 + (numeral base s).digits.length)
    omega
  have hlen : ((numeral base s).digits.length : Int) =
      (((baseOf base (signOf (s.dropWhile isBlank)).2).2.takeWhile (isDigit (numeral base s).base)).length : Int) := by
    rw [numeral, length_map]
  rw [← hlen] at hloop
  rw [scanNumber, skipBlank_nul, takeSign_nul]
  dsimp only
  rw [takeBase_nul post _ hb]
  change (_, (digitLoop (step (numeral base s).base) (numeral base s).base _ (int32 0) st).1,
    if (digitLoop (step (numeral base s).base) (numeral base s).base _ (int32 0) st).2.2 = 0 then _ else
      (digitLoop (step (numeral base s).base) (numeral base s).base _ (int32 0) st).2.1) = _
  rw [hloop]
  by_cases h : (numeral base s).digits.length % 2 ^ 32 = 0
  · rw [if_pos (hcount.2 h), if_pos h]
    rfl
  · rw [if_neg (mt hcount.1 h), if_neg h]
    rfl

theorem baseOf_base (s : List UInt8) (hb : base = 0 ∨ 2 ≤ base ∧ base ≤ 36) :
    2 ≤ (baseOf base s).1 ∧ (baseOf base s).1 ≤ 36 := by
  rw [baseOf]
  by_cases hbase : base = 0 ∨ base = 16
  · rw [if_pos hbase]
    split
    · exact ⟨(by decide : 2 ≤ 16), (by decide : 16 ≤ 36)⟩
    dsimp only
    split
    · exact ⟨by decide, by decide⟩
    · split <;> exact ⟨by decide, by decide⟩
  · rw [if_neg hbase]
    omega

theorem numeral_digit {s : List UInt8} : ∀ v ∈ (numeral base s).digits, v < (numeral base s).base := by
  intro v hv
  obtain ⟨c, hc, hv⟩ := mem_map.1 hv
  have hdigit : isDigit (numeral base s).base c = true := mem_takeWhile_imp hc
  rw [← hv]
  exact of_decide_eq_true hdigit

theorem suffix_signOf (s : List UInt8) : (signOf s).2 <:+ s := by
  cases s with
  | nil => exact suffix_refl _
  | cons c s =>
    rw [signOf]
    split
    · exact suffix_cons c s
    · split
      · exact suffix_cons c s
      · exact suffix_refl _

theorem suffix_baseOf (base : Nat) (s : List UInt8) : (baseOf base s).2 <:+ s := by
  have hhex : ∀ s', afterHex s = some s' → s' <:+ s := by
    intro s' h
    cases s with
    | nil => cases h
    | cons c s =>
      cases s with
      | nil => cases h
      | cons x s =>
        rw [afterHex] at h
        split at h
        · rw [← Option.some.inj h]
          exact (suffix_cons x s).trans (suffix_cons c _)
        · cases h
  rw [baseOf]
  split
  · split
    · rename_i s' hs
      exact hhex s' hs
    · exact suffix_refl _
  · exact suffix_refl _

theorem length_rest {s : List UInt8} (h : (numeral base s).digits ≠ []) :
    (numeral base s).rest.length < s.length := by
  have hblank := (dropWhile_suffix (l := s) isBlank).length_le
  have hsign := (suffix_signOf (s.dropWhile isBlank)).length_le
  have hbase := (suffix_baseOf base (signOf (s.dropWhile isBlank)).2).length_le
  have hsplit : (numeral base s).digits.length + (numeral base s).rest.length =
      (baseOf base (signOf (s.dropWhile isBlank)).2).2.length := by
    rw [numeral, length_map, ← length_append, takeWhile_append_dropWhile]
  have hpos := length_pos_iff.2 h
  omega

theorem endptr_iff (s post : List UInt8) :
    (if (numeral base s).digits.length % 2 ^ 32 = 0 then s ++ 0 :: post else (numeral base s).rest ++ 0 :: post) =
      (numeral base s).endOf s ++ 0 :: post ↔ (numeral base s).Counted := by
  rw [Numeral.Counted, Numeral.endOf]
  by_cases hnil : (numeral base s).digits = []
  · have hzero : (numeral base s).digits.length % 2 ^ 32 = 0 := by rw [hnil]; rfl
    rw [if_pos hzero, if_pos hnil]
    exact iff_of_true rfl (.inl hnil)
  rw [if_neg hnil]
  by_cases hcount : (numeral base s).digits.length % 2 ^ 32 = 0
  · rw [if_pos hcount]
    refine iff_of_false ?_ (fun h => h.elim hnil (· hcount))
    intro h
    have hlt := length_rest hnil
    have hlen := congrArg length (append_cancel_right h)
    omega
  · rw [if_neg hcount]
    exact iff_of_true rfl (.inr hcount)

/-! ## Values -/

theorem digitsValue_snoc (b : Nat) (ds : List Nat) (v : Nat) :
    digitsValue b (ds ++ [v]) = digitsValue b ds * b + v := by
  rw [digitsValue, foldl_append]
  rfl

theorem digitsValue_append {b : Nat} (hb : 0 < b) (ds es : List Nat) : digitsValue b ds ≤ digitsValue b (ds ++ es) := by
  induction es using reverseRecOn with
  | nil =>
    rw [append_nil]
  | append_singleton es v ih =>
    rw [← append_assoc, digitsValue_snoc]
    have := Nat.le_mul_of_pos_right (digitsValue b (ds ++ es)) hb
    omega

/-! ## strtoll and strtol -/

section

variable {w b : Nat} {H : Int}

/-- `n` and `ovfl` when the value of the digits is `V`. -/
def Kept (H : Int) (V : Nat) (st : Bool × Int) : Prop :=
  (st.1 = true ↔ H ≤ V) ∧ ((V : Int) < H → st.2 = V)

theorem Kept.step {V v : Nat} {st : Bool × Int} (hH : H = 2 ^ (w - 1)) (hw : (2 : Int) ^ w = 2 * H) (hmin : 36 ≤ H)
    (hb : 0 < b) (hb36 : b ≤ 36) (hv : v < b) (h : Kept H V st) : Kept H (V * b + v) (signedStep w b st v) := by
  obtain ⟨hovfl, hn⟩ := h
  have hgrow : (V : Int) ≤ (V * b + v : Nat) := by
    have := Nat.le_mul_of_pos_right V hb
    omega
  rw [signedStep, ← hH, Int.tdiv_eq_ediv_of_nonneg (by omega)]
  by_cases hV : (V : Int) < H
  · have hst : st.1 = false := by
      rw [← Bool.not_eq_true, hovfl]
      omega
    rw [hn hV, hst, Bool.false_or]
    have hcast : ((V * b + v : Nat) : Int) = (V : Int) * b + v := by
      rw [Int.natCast_add, Int.natCast_mul]
    rw [← hcast]
    have hquot : (V : Int) > (H - 1) / b ↔ H ≤ (V * b : Nat) := by
      rw [gt_iff_lt, Int.ediv_lt_iff_lt_mul (by omega), Int.natCast_mul]
      omega
    by_cases hbig : H ≤ (V * b : Nat)
    · -- the quotient tells
      rw [decide_eq_true (hquot.2 hbig)]
      exact ⟨iff_of_true rfl (by omega), fun h => absurd h (by omega)⟩
    rw [decide_eq_false (mt hquot.1 hbig), Bool.false_or]
    by_cases hsum : ((V * b + v : Nat) : Int) < H
    · have hwrap : wrap w ((V * b + v : Nat) : Int) = (V * b + v : Nat) := wrap_eq (by omega) (by omega)
      rw [hwrap, Kept, decide_eq_true_eq]
      exact ⟨by omega, fun _ => rfl⟩
    -- the sum has become negative
    have hwrap : wrap w ((V * b + v : Nat) : Int) < 0 := wrap_over (by omega) (by omega)
    rw [Kept, decide_eq_true_eq]
    exact ⟨by omega, fun h => absurd h hsum⟩
  · have hst : st.1 = true := hovfl.2 (by omega)
    rw [hst, Bool.true_or, Bool.true_or]
    exact ⟨iff_of_true rfl (by omega), fun h => absurd h (by omega)⟩

theorem signed_fold (hH : H = 2 ^ (w - 1)) (hw : (2 : Int) ^ w = 2 * H) (hmin : 36 ≤ H) (hb : 0 < b) (hb36 : b ≤ 36)
    (ds : List Nat) (hds : ∀ v ∈ ds, v < b) : Kept H (digitsValue b ds) (ds.foldl (signedStep w b) (false, 0)) := by
  induction ds using reverseRecOn with
  | nil => exact ⟨iff_of_false Bool.false_ne_true (by change ¬ H ≤ ((0 : Nat) : Int); omega), fun _ => rfl⟩
  | append_singleton ds v ih =>
    rw [foldl_append, digitsValue_snoc]
    exact (ih fun v hv => hds v (mem_append_left _ hv)).step hH hw hmin hb hb36 (hds v (by simp))

/-- **The exact value, or the one next to it**, and where the digits end when they can be counted. -/
theorem strtoSigned_numeral (hH : H = 2 ^ (w - 1)) (hw : (2 : Int) ^ w = 2 * H) (hmin : 36 ≤ H) (s post : List UInt8) (hb : base = 0 ∨ 2 ≤ base ∧ base ≤ 36) :
    strtoSigned w (s ++ 0 :: post) base =
      ((numeral base s).signed w,
        if (numeral base s).digits.length % 2 ^ 32 = 0 then s ++ 0 :: post else (numeral base s).rest ++ 0 :: post) := by
  obtain ⟨hlo, hhi⟩ : 2 ≤ (numeral base s).base ∧ (numeral base s).base ≤ 36 := baseOf_base _ hb
  obtain ⟨hovfl, hn⟩ := signed_fold hH hw hmin (by omega) hhi _ (@numeral_digit base s)
  rw [strtoSigned, scanNumber_numeral (signedStep w) (false, 0) s post (by omega)]
  generalize (numeral base s).digits.foldl (signedStep w (numeral base s).base) (false, 0) = st at *
  obtain ⟨ovfl, n⟩ := st
  rw [Prod.mk.injEq]
  refine ⟨?_, rfl⟩
  rw [Numeral.signed, Numeral.value, ← hH]
  dsimp only at hovfl hn ⊢
  generalize digitsValue _ _ = V at *
  by_cases hV : (V : Int) < H
  · have hfalse : ¬ ovfl = true := by
      rw [hovfl]
      omega
    rw [if_neg hfalse, hn hV]
    split
    · rw [wrap_eq (by omega) (by omega)]
      omega
    · omega
  · rw [if_pos (hovfl.2 (by omega))]
    split <;> omega

end

theorem strtol_numeral (s post : List UInt8) (hb : base = 0 ∨ 2 ≤ base ∧ base ≤ 36) :
    strtoll (s ++ 0 :: post) base =
        ((numeral base s).signed 64,
          if (numeral base s).digits.length % 2 ^ 32 = 0 then s ++ 0 :: post else (numeral base s).rest ++ 0 :: post) ∧
      strtol (s ++ 0 :: post) base =
        ((numeral base s).signed 32,
          if (numeral base s).digits.length % 2 ^ 32 = 0 then s ++ 0 :: post else (numeral base s).rest ++ 0 :: post) :=
  ⟨@strtoSigned_numeral base 64 (2 ^ 63) rfl (by decide) (by decide) s post hb,
    @strtoSigned_numeral base 32 (2 ^ 31) rfl (by decide) (by decide) s post hb⟩

/-- **`strtoll` and `strtol` are right** when the digits can be counted, and only then: the value is always, `*endptr`
is not after 2^32 digits. -/
theorem strtol_exact (s post : List UInt8) (base : Nat) (hb : base = 0 ∨ 2 ≤ base ∧ base ≤ 36) :
    (strtoll (s ++ 0 :: post) base = ((numeral base s).signed 64, (numeral base s).endOf s ++ 0 :: post) ∧
      strtol (s ++ 0 :: post) base = ((numeral base s).signed 32, (numeral base s).endOf s ++ 0 :: post)) ↔
      (numeral base s).Counted := by
  obtain ⟨hll, hl⟩ := strtol_numeral s post hb
  have hend := @endptr_iff base s post
  rw [hll, hl, Prod.mk.injEq, Prod.mk.injEq, and_iff_right rfl, and_iff_right rfl, and_self, hend]

theorem strtol_exact_word : strtoll ([0x2D, 0x34, 0x32] ++ 0 :: []) (10 : Nat) = (-42, [0]) :=
  ((strtol_exact [0x2D, 0x34, 0x32] [] 10 (by decide)).2 (.inr (by decide))).1

theorem numeral_ones (n : Nat) : numeral 10 (List.replicate n 0x31) = ⟨false, 10, List.replicate n 1, []⟩ := by
  have hblank : (replicate n (0x31 : UInt8)).dropWhile isBlank = replicate n 0x31 :=
    dropWhile_replicate.trans (if_neg (by decide))
  have hsign : signOf (replicate n 0x31) = (false, replicate n 0x31) := by
    cases n with
    | zero => rfl
    | succ n => rfl
  have htake : (replicate n (0x31 : UInt8)).takeWhile (isDigit 10) = replicate n 0x31 :=
    takeWhile_replicate.trans (if_pos (by decide))
  have hdrop : (replicate n (0x31 : UInt8)).dropWhile (isDigit 10) = [] :=
    dropWhile_replicate.trans (if_pos (by decide))
  rw [numeral, hblank, hsign]
  change (⟨false, 10, ((replicate n 0x31).takeWhile (isDigit 10)).map (digitOf 10),
    (replicate n 0x31).dropWhile (isDigit 10)⟩ : Numeral) = _
  rw [htake, hdrop, map_replicate]
  rfl

/-- As many digits as an `int` counts as none. -/
theorem strtol_uncounted : ¬ ∀ (s post : List UInt8) (base : Nat), base = 0 ∨ 2 ≤ base ∧ base ≤ 36 →
    strtoll (s ++ 0 :: post) base = ((numeral base s).signed 64, (numeral base s).endOf s ++ 0 :: post) ∧
      strtol (s ++ 0 :: post) base = ((numeral base s).signed 32, (numeral base s).endOf s ++ 0 :: post) := by
  intro h
  obtain ⟨n, hn⟩ : ∃ n : Nat, n = 2 ^ 32 := ⟨_, rfl⟩
  have hcount : n % 2 ^ 32 = 0 := hn ▸ Nat.mod_self _
  have hbase : 10 = 0 ∨ 2 ≤ 10 ∧ 10 ≤ 36 := by decide
  have hend := congrArg (·.2.length) (h (replicate n 0x31) [] 10 hbase).1
  have hdigits : ¬ replicate n 1 = [] := by
    rw [replicate_eq_nil_iff]
    omega
  rw [(strtol_numeral (replicate n 0x31) [] hbase).1, numeral_ones, Numeral.endOf, if_neg hdigits,
    length_replicate, if_pos hcount, length_append, length_replicate] at hend
  change n + 1 = 1 at hend
  omega

/-! ## strtoull -/

/-- Nothing shows that the value is too large: no value on the way, by 2^64, is above the limit or above the next. -/
def Quiet (b : Nat) (ds : List Nat) : Prop :=
  ∀ k < ds.length, digitsValue b (ds.take k) % 2 ^ 64 ≤ uvlongMax b ∧
    digitsValue b (ds.take k) % 2 ^ 64 ≤ digitsValue b (ds.take (k + 1)) % 2 ^ 64

theorem quiet_snoc (b : Nat) (ds : List Nat) (v : Nat) :
    Quiet b (ds ++ [v]) ↔ Quiet b ds ∧ digitsValue b ds % 2 ^ 64 ≤ uvlongMax b ∧
      digitsValue b ds % 2 ^ 64 ≤ digitsValue b (ds ++ [v]) % 2 ^ 64 := by
  have htake : ∀ k, k ≤ ds.length → (ds ++ [v]).take k = ds.take k := fun k hk => take_append_of_le_length hk
  have hall : (ds ++ [v]).take (ds.length + 1) = ds ++ [v] := take_of_length_le (by simp)
  constructor
  · intro h
    have hlast := h ds.length (by simp)
    rw [htake _ le_rfl, hall, take_length] at hlast
    refine ⟨?_, hlast⟩
    intro k hk
    have hk' := h k (by simp only [length_append, length_singleton]; omega)
    rwa [htake k (by omega), htake (k + 1) hk] at hk'
  rintro ⟨h, hlast⟩ k hk
  rw [length_append, length_singleton] at hk
  by_cases heq : k = ds.length
  · rw [heq, htake _ le_rfl, hall, take_length]
    exact hlast
  · rw [htake k (by omega), htake (k + 1) (by omega)]
    exact h k (by omega)

theorem unsigned_fold (b : Nat) (ds : List Nat) :
    ((ds.foldl (strtoullStep b) (false, 0)).1 = true ↔ ¬ Quiet b ds) ∧
      (ds.foldl (strtoullStep b) (false, 0)).2 = digitsValue b ds % 2 ^ 64 := by
  induction ds using reverseRecOn with
  | nil => exact ⟨iff_of_false Bool.false_ne_true (not_not.2 nofun), rfl⟩
  | append_singleton ds v ih =>
    obtain ⟨hovfl, hn⟩ := ih
    have hnn : (digitsValue b ds % 2 ^ 64 * b + v) % 2 ^ 64 = digitsValue b (ds ++ [v]) % 2 ^ 64 := by
      rw [digitsValue_snoc, Nat.add_mod, Nat.mod_mul_mod, ← Nat.add_mod]
    rw [foldl_append, foldl_cons, foldl_nil, strtoullStep, hn, hnn]
    refine ⟨?_, rfl⟩
    rw [quiet_snoc, Bool.or_eq_true, Bool.or_eq_true, hovfl, decide_eq_true_eq, decide_eq_true_eq, not_and_or, not_and_or,
      Nat.not_le, Nat.not_le, or_assoc, gt_iff_lt]

theorem le_uvlongMax {b : Nat} (hb : 2 ≤ b) (hb36 : b ≤ 36) : 2 ^ 63 ≤ uvlongMax b := by
  have hhi : 2 ^ 63 / b ≤ 2 ^ 63 / 2 := Nat.div_le_div_left hb (by decide)
  have hlo : 0 < 2 ^ 63 / b := Nat.div_pos (by omega) (by omega)
  have hquot : (2 ^ 63 : Int) / b = ((2 ^ 63 / b : Nat) : Int) := rfl
  rw [uvlongMax, Int.neg_tdiv, Int.tdiv_eq_ediv_of_nonneg (by decide), hquot]
  omega

theorem quiet_of_lt {b : Nat} {ds : List Nat} (hb : 2 ≤ b) (hb36 : b ≤ 36) (h : digitsValue b ds < 2 ^ 64) : Quiet b ds := by
  intro k hk
  have hnext : digitsValue b (ds.take (k + 1)) < 2 ^ 64 := by
    have := digitsValue_append (by omega : 0 < b) (ds.take (k + 1)) (ds.drop (k + 1))
    rw [take_append_drop] at this
    omega
  have hsnoc : digitsValue b (ds.take (k + 1)) = digitsValue b (ds.take k) * b + ds[k] := by
    rw [← digitsValue_snoc, take_append_getElem hk]
  have hmul := Nat.mul_le_mul_left (digitsValue b (ds.take k)) hb
  have hmax := le_uvlongMax hb hb36
  omega

/-- **`strtoull` is right** when the digits can be counted, and their value fits or comes to the largest number by
itself with nothing that shows it; and only then. -/
theorem strtoull_exact (s post : List UInt8) (base : Nat) (hb : base = 0 ∨ 2 ≤ base ∧ base ≤ 36) :
    strtoull (s ++ 0 :: post) base = ((numeral base s).unsigned, (numeral base s).endOf s ++ 0 :: post) ↔
      (numeral base s).Counted ∧
        ((numeral base s).value < 2 ^ 64 ∨
          Quiet (numeral base s).base (numeral base s).digits ∧
            (numeral base s).value % 2 ^ 64 = if (numeral base s).neg then 1 else 2 ^ 64 - 1) := by
  obtain ⟨hlo, hhi⟩ : 2 ≤ (numeral base s).base ∧ (numeral base s).base ≤ 36 := baseOf_base _ hb
  obtain ⟨hovfl, hn⟩ := unsigned_fold (numeral base s).base (numeral base s).digits
  have hquiet := @quiet_of_lt _ (numeral base s).digits hlo hhi
  have hend := @endptr_iff base s post
  rw [strtoull, scanNumber_numeral strtoullStep (false, 0) s post (by omega)]
  generalize (numeral base s).digits.foldl (strtoullStep (numeral base s).base) (false, 0) = st at *
  obtain ⟨ovfl, n⟩ := st
  dsimp only at hovfl hn ⊢
  rw [Prod.mk.injEq, hend, and_comm, Numeral.unsigned, Numeral.value]
  refine and_congr_right fun _ => ?_
  rw [hn]
  generalize hV : digitsValue _ _ = V at *
  by_cases hlt : V < 2 ^ 64
  · have hfalse : ¬ ovfl = true := fun h => hovfl.1 h (hquiet hlt)
    rw [if_neg hfalse, if_pos hlt, Nat.mod_eq_of_lt hlt]
    exact iff_of_true rfl (.inl hlt)
  rw [if_neg hlt, or_iff_right hlt]
  by_cases hq : Quiet (numeral base s).base (numeral base s).digits
  · have hfalse : ¬ ovfl = true := fun h => hovfl.1 h hq
    rw [if_neg hfalse, and_iff_right hq]
    split <;> omega
  · rw [if_pos (hovfl.2 hq)]
    exact iff_of_false (by decide) (fun h => hq h.1)

theorem strtoull_exact_word : strtoull ([0x34, 0x32] ++ 0 :: []) (10 : Nat) = (42, [0]) :=
  (strtoull_exact [0x34, 0x32] [] 10 (by decide)).2 ⟨.inr (by decide), .inl (by decide)⟩

/-- 2^64: what is given back for what is too large is 2^63. -/
theorem strtoull_large : ¬ ∀ (s post : List UInt8) (base : Nat), base = 0 ∨ 2 ≤ base ∧ base ≤ 36 →
    strtoull (s ++ 0 :: post) base = ((numeral base s).unsigned, (numeral base s).endOf s ++ 0 :: post) := by
  intro h
  -- "18446744073709551616"
  exact absurd (h [0x31, 0x38, 0x34, 0x34, 0x36, 0x37, 0x34, 0x34, 0x30, 0x37, 0x33, 0x37, 0x30, 0x39, 0x35, 0x35, 0x31,
    0x36, 0x31, 0x36] [] 10 (by decide)) (by decide)

end Plan9.Libc
