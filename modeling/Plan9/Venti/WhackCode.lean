/-
The code of `whack` as bit strings: what stands for a literal, for the length of a match
and for its offset.

The tables of the two files do not look alike. For lengths from seven on they are one
rule: a code of `6 + j` bits stands for `stageU j` lengths from `stageL j` on, its
value counted from `stageP j`. The coder enters the rule at nine bits (five shorter codes
are in its table), the decoder at six.
-/
import Plan9.Venti.Whack
import Plan9.Lib.Bits
import Mathlib.Tactic.Linarith

namespace Plan9.Venti

open Bits

inductive Token
  | lit (b : UInt8)
  | copy (len off : Nat)

/-! ## Literals -/

/-- The bit of the history a byte is: not text. -/
def histBit (b : Nat) : Nat := if b < 32 ∨ b > 127 then 1 else 0

def histNext (hist b : Nat) : Nat := (2 * hist + histBit b) % 2 ^ 32

def litBits (hist b : Nat) : List Bool :=
  if hist % 16 ≠ 0 then toBits 9 b
  else if b < 32 ∨ b > 127 then
    if (b + 64) % 256 < 96 then toBits 10 ((b + 64) % 256) else toBits 11 ((b + 64) % 256)
  else toBits 8 b

theorem or_histBit (b : Nat) : ((if b < 32 then 1 else 0) ||| (if b > 127 then 1 else 0)) = histBit b := by
  unfold histBit
  by_cases h : b < 32
  · simp [h, show ¬ 127 < b by omega]
  · by_cases h' : b > 127 <;> simp [h, h']

theorem histNext_eq (hist b : Nat) :
    ((hist <<< 1) ||| (if b < 32 then 1 else 0) ||| (if b > 127 then 1 else 0)) % 2 ^ 32 = histNext hist b := by
  have hlt : histBit b < 2 ^ 1 := by unfold histBit; split <;> decide
  rw [Nat.or_assoc, or_histBit, ← Nat.shiftLeft_add_eq_or_of_lt hlt, Nat.shiftLeft_eq, histNext, Nat.mul_comm]

theorem and_15 (x : Nat) : x &&& 0xf = x % 16 := Nat.and_two_pow_sub_one_eq_mod x 4

theorem and_1 (x : Nat) : x &&& 1 = x % 2 := Nat.and_two_pow_sub_one_eq_mod x 1

theorem and_255 (x : Nat) : x &&& 0xff = x % 256 := Nat.and_two_pow_sub_one_eq_mod x 8

theorem and_30 (x : Nat) : x &&& 0x1e ≠ 0 ↔ x / 2 % 16 ≠ 0 := by
  have hx : x &&& 0x1e = (x % 32) &&& 0x1e := by
    rw [← Nat.and_two_pow_sub_one_eq_mod x 5, Nat.and_assoc]
    rfl
  have hall : ∀ u < 32, (u &&& 0x1e ≠ 0 ↔ u / 2 % 16 ≠ 0) := by decide
  rw [hx, hall _ (Nat.mod_lt _ (by decide))]
  omega

/-! ## Lengths -/

def stageU : Nat → Nat
  | 0 => 1
  | j + 1 => stageU j <<< (((6 + j) &&& 1) ^^^ 1)

def stageP : Nat → Nat
  | 0 => 0x3c
  | j + 1 => (stageP j + stageU j) <<< 1

def stageL : Nat → Nat
  | 0 => 7
  | j + 1 => stageL j + stageU j

theorem stageU_pos (j : Nat) : 0 < stageU j := by
  induction j with
  | zero => decide
  | succ j ih => rw [stageU, Nat.shiftLeft_eq]; exact Nat.mul_pos ih (Nat.two_pow_pos _)

theorem stageL_lt {i j : Nat} (h : i < j) : stageL i + stageU i ≤ stageL j := by
  induction h with
  | refl => exact le_rfl
  | step _ ih => exact Nat.le_trans ih (Nat.le_add_right _ _)

/-- The stage a length belongs to. -/
structure AtStage (len j : Nat) : Prop where
  lo : stageL j ≤ len
  hi : len < stageL j + stageU j

theorem AtStage.le {len j : Nat} (h : AtStage len j) (hlen : len ≤ maxLen) : j ≤ 18 := by
  by_contra hj
  have h19 := stageL_lt (show 18 < j by omega)
  have : stageL 18 + stageU 18 = 2052 := by decide
  have hlo := h.lo
  unfold maxLen at hlen
  omega

theorem AtStage.code_lt {len j : Nat} (h : AtStage len j) (hlen : len ≤ maxLen) :
    stageP j + (len - stageL j) < 2 ^ (6 + j) := by
  have hall : ∀ i ≤ 18, stageP i + stageU i ≤ 2 ^ (6 + i) := by decide
  have := hall j (h.le hlen)
  have := h.lo
  have := h.hi
  omega

theorem stageP_le {j m : Nat} : 2 ^ (m + 1) * (stageP j + stageU j) ≤ stageP (j + m + 1) := by
  induction m with
  | zero => rw [stageP, Nat.shiftLeft_eq]; simp [Nat.mul_comm]
  | succ m ih =>
    rw [show j + (m + 1) + 1 = (j + m + 1) + 1 by omega, stageP, Nat.shiftLeft_eq, Nat.pow_succ]
    nlinarith [Nat.zero_le (stageU (j + m + 1))]

theorem bigLoop_eq {len : Nat} : ∀ (k j l : Nat), l + stageL j = len → l ≤ k →
    ∃ i, AtStage len i ∧ bigLoop k l (stageP j) (6 + j) (stageU j) = (stageP i, 6 + i, len - stageL i) := by
  intro k
  induction k with
  | zero =>
    intro j l hl hk
    have := stageU_pos j
    refine ⟨j, ⟨by omega, by omega⟩, ?_⟩
    rw [bigLoop, show len - stageL j = l by omega]
  | succ k ih =>
    intro j l hl hk
    have hpos := stageU_pos j
    rw [bigLoop]
    by_cases hge : l ≥ stageU j
    · rw [if_pos hge]
      exact ih (j + 1) (l - stageU j) (by rw [stageL]; omega) (by omega)
    · rw [if_neg hge]
      exact ⟨j, ⟨by omega, by omega⟩, by rw [show len - stageL j = l by omega]⟩

theorem bigLoop_long {len : Nat} (h : ¬len - minMatch < maxFastLen) : ∃ j, AtStage len j ∧
    bigLoop (len - minMatch) (len - minMatch - maxFastLen) bigLenCode bigLenBits bigLenBase =
      (stageP j, 6 + j, len - stageL j) := by
  refine bigLoop_eq (len - minMatch) 3 (len - minMatch - maxFastLen) ?_ (Nat.sub_le _ _)
  have : stageL 3 = 12 := by decide
  unfold minMatch maxFastLen at h ⊢
  omega

def lenBits (len : Nat) : List Bool :=
  if len - minMatch < maxFastLen then
    let e := lentab.getD (len - minMatch) (0, 0)
    toBits e.1 e.2
  else
    let (code, bits, r) := bigLoop (len - minMatch) (len - minMatch - maxFastLen) bigLenCode bigLenBits bigLenBase
    toBits bits (code + r)

/-- From seven on the table and the loop are the one rule. -/
theorem lenBits_eq {len : Nat} (h : 7 ≤ len) :
    ∃ j, AtStage len j ∧ lenBits len = toBits (6 + j) (stageP j + (len - stageL j)) := by
  by_cases hfast : len - minMatch < maxFastLen
  · unfold minMatch maxFastLen at hfast
    have hlen : len = 7 ∨ len = 8 ∨ len = 9 ∨ len = 10 ∨ len = 11 := by omega
    rcases hlen with rfl | rfl | rfl | rfl | rfl
    · exact ⟨0, ⟨by decide, by decide⟩, rfl⟩
    · exact ⟨1, ⟨by decide, by decide⟩, rfl⟩
    · exact ⟨1, ⟨by decide, by decide⟩, rfl⟩
    · exact ⟨2, ⟨by decide, by decide⟩, rfl⟩
    · exact ⟨2, ⟨by decide, by decide⟩, rfl⟩
  obtain ⟨j, hj, hloop⟩ := bigLoop_long hfast
  exact ⟨j, hj, by rw [lenBits, if_neg hfast, hloop]⟩

/-! ## Offsets -/

/-- How many bits `toff` has, but no fewer than `minOffBits`. -/
def offSize (toff : Nat) : Nat := offLoop toff toff minOffBits

theorem offLoop_eq {toff : Nat} : ∀ (k bits : Nat), toff < 2 ^ (bits + k) → (bits = minOffBits ∨ 2 ^ (bits - 1) ≤ toff) →
    minOffBits ≤ bits → toff < 2 ^ offLoop k toff bits ∧
      (offLoop k toff bits = minOffBits ∨ 2 ^ (offLoop k toff bits - 1) ≤ toff) ∧ minOffBits ≤ offLoop k toff bits := by
  intro k
  induction k with
  | zero => intro bits h hlo hmin; exact ⟨h, hlo, hmin⟩
  | succ k ih =>
    intro bits h hlo hmin
    rw [offLoop, Nat.one_shiftLeft]
    by_cases hge : toff ≥ 2 ^ bits
    · rw [if_pos hge]
      exact ih (bits + 1) (by rw [Nat.add_right_comm]; exact h) (Or.inr hge) (by omega)
    · rw [if_neg hge]
      exact ⟨by omega, hlo, hmin⟩

theorem offSize_spec (toff : Nat) : toff < 2 ^ offSize toff ∧ (offSize toff = minOffBits ∨ 2 ^ (offSize toff - 1) ≤ toff) ∧
    minOffBits ≤ offSize toff := by
  refine offLoop_eq toff minOffBits ?_ (Or.inl rfl) le_rfl
  have h1 : toff < 2 ^ toff := Nat.lt_two_pow_self
  exact Nat.lt_of_lt_of_le h1 (Nat.pow_le_pow_right (by decide) (by omega))

def offCode (off : Nat) : List Bool :=
  let toff := off - 1
  let bits := offSize toff
  if bits < maxOffBits - 1 then
    toBits 3 (bits - minOffBits) ++ toBits (if bits ≠ minOffBits then bits - 1 else bits) toff
  else toBits 4 (0xe ||| (bits - (maxOffBits - 1))) ++ toBits (bits - 1) toff

def tokenBits (hist : Nat) : Token → List Bool
  | .lit b => litBits hist b.toNat
  | .copy len off => lenBits len ++ offCode off

/-! ## Tokens -/

def Token.nextHist (hist : Nat) : Token → Nat
  | lit b => histNext hist b.toNat
  | copy _ _ => hist

/-- What a token adds to what has been written. -/
def Token.expand (d : List UInt8) : Token → List UInt8
  | lit b => d ++ [b]
  | copy len off => Venti.copy off len d

def Token.OK (d : List UInt8) : Token → Prop
  | lit _ => True
  | copy len off => minMatch ≤ len ∧ len ≤ maxLen ∧ 1 ≤ off ∧ off ≤ whackMaxOff ∧ off ≤ d.length

def codeBits : Nat → List Token → List Bool
  | _, [] => []
  | hist, t :: ts => tokenBits hist t ++ codeBits (t.nextHist hist) ts

def expandAll : List UInt8 → List Token → List UInt8
  | d, [] => d
  | d, t :: ts => expandAll (t.expand d) ts

def AllOK : List UInt8 → List Token → Prop
  | _, [] => True
  | d, t :: ts => t.OK d ∧ AllOK (t.expand d) ts

/-- The history after tokens. -/
def histAll (hist : Nat) (ts : List Token) : Nat := ts.foldl Token.nextHist hist

theorem codeBits_snoc (hist : Nat) (ts : List Token) (t : Token) :
    codeBits hist (ts ++ [t]) = codeBits hist ts ++ tokenBits (histAll hist ts) t := by
  induction ts generalizing hist with
  | nil => simp [codeBits, histAll]
  | cons u ts ih => rw [List.cons_append, codeBits, codeBits, ih, List.append_assoc]; rfl

theorem expandAll_snoc (d : List UInt8) (ts : List Token) (t : Token) :
    expandAll d (ts ++ [t]) = t.expand (expandAll d ts) := by
  induction ts generalizing d with
  | nil => rfl
  | cons u ts ih => exact ih (u.expand d)

theorem allOK_snoc (d : List UInt8) (ts : List Token) (t : Token) :
    AllOK d (ts ++ [t]) ↔ AllOK d ts ∧ t.OK (expandAll d ts) := by
  induction ts generalizing d with
  | nil => simp [AllOK, expandAll]
  | cons u ts ih => rw [List.cons_append, AllOK, AllOK, ih, expandAll, and_assoc]

theorem histAll_snoc (hist : Nat) (ts : List Token) (t : Token) : histAll hist (ts ++ [t]) = t.nextHist (histAll hist ts) := by
  rw [histAll, List.foldl_append]
  rfl

@[simp] theorem length_copy (off len : Nat) (d : List UInt8) : (copy off len d).length = d.length + len := by
  induction len generalizing d with
  | zero => rfl
  | succ len ih =>
    rw [copy, ih, List.length_append, List.length_singleton]
    omega

theorem Token.length_le_expand (d : List UInt8) (t : Token) : d.length ≤ (t.expand d).length := by
  cases t with
  | lit b => simp [expand]
  | copy len off => simp [expand]

theorem length_le_expandAll (ts : List Token) (d : List UInt8) : d.length ≤ (expandAll d ts).length := by
  induction ts generalizing d with
  | nil => exact le_rfl
  | cons t ts ih => exact Nat.le_trans (t.length_le_expand d) (ih _)

end Plan9.Venti
