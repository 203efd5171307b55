/-
The arithmetic types of the C compilers, as `cc/cc.h`, `cc/sub.c` and `cc/com64.c` have them, and
the integer constants of these types.

The compilers for the different machines share this code. What differs from one to the
other, as far as it is used here, is whether a pointer has four bytes or eight. A constant
is the `vlong` of the compiler, 64 bits; `convvtox` makes it what a type can hold.
-/
import Mathlib.Tactic.Ring

namespace Plan9.Cc

inductive Etype
  | TCHAR
  | TUCHAR
  | TSHORT
  | TUSHORT
  | TINT
  | TUINT
  | TLONG
  | TULONG
  | TVLONG
  | TUVLONG
  | TFLOAT
  | TDOUBLE
  | TIND
  | TVOID
  deriving DecidableEq, Repr

/-- The machine that is compiled for. `ind8` is whether `SZ_IND` is 8. -/
structure Target where
  ind8 : Bool

def ewidth (m : Target) : Etype → Nat
  | .TCHAR | .TUCHAR => 1
  | .TSHORT | .TUSHORT => 2
  | .TINT | .TUINT | .TLONG | .TULONG | .TFLOAT => 4
  | .TVLONG | .TUVLONG | .TDOUBLE => 8
  | .TIND => if m.ind8 then 8 else 4
  | .TVOID => 0

def typeu : Etype → Bool
  | .TUCHAR | .TUSHORT | .TUINT | .TULONG | .TUVLONG | .TIND => true
  | _ => false

/-- The types whose values are integers. -/
def Etype.integer : Etype → Bool
  | .TFLOAT | .TDOUBLE | .TVOID => false
  | _ => true

/-- The operators of expressions that are looked at here. `OTHER` is any that is not. -/
inductive Op
  | OADD
  | OAND
  | OANDAND
  | OASHL
  | OASHR
  | OCAST
  | OCOM
  | OCONST
  | ODIV
  | OEQ
  | OGE
  | OGT
  | OHI
  | OHS
  | OLDIV
  | OLE
  | OLMOD
  | OLMUL
  | OLO
  | OLS
  | OLSHR
  | OLT
  | OMOD
  | OMUL
  | ONE
  | ONEG
  | ONOT
  | OOR
  | OOROR
  | OSUB
  | OXOR
  | OTHER (k : Nat)
  deriving DecidableEq, Repr

/-! ## Constants -/

abbrev Vlong := BitVec 64

def SIGN (n : Nat) : Vlong := 1#64 <<< (n - 1)

def MASK (n : Nat) : Vlong := SIGN n ||| (SIGN n - 1)

def convvtox (m : Target) (c : Vlong) (et : Etype) : Vlong :=
  let n := 8 * ewidth m et
  let c := c &&& MASK n
  if typeu et then c
  else if c &&& SIGN n ≠ 0 then c ||| ~~~MASK n
  else c

/-- How many bits a value of the type has. -/
def bits (m : Target) (et : Etype) : Nat := 8 * ewidth m et

/-- The value of a type that a constant of this type is. -/
def value (m : Target) (et : Etype) (c : Vlong) : BitVec (bits m et) := c.setWidth _

/-- The constant that is a value of the type: zeros or copies of the sign in front. -/
def extend (m : Target) (et : Etype) (x : BitVec (bits m et)) : Vlong :=
  if typeu et then x.setWidth 64 else x.signExtend 64

/-- What `convvtox` leaves as it is. -/
def Normal (m : Target) (et : Etype) (c : Vlong) : Prop := convvtox m c et = c

instance (m : Target) (et : Etype) (c : Vlong) : Decidable (Normal m et c) := inferInstanceAs (Decidable (_ = _))

section

variable {m : Target} {et : Etype} {c : Vlong}

theorem bits_le (m : Target) (et : Etype) : bits m et ≤ 64 := by
  have : ewidth m et ≤ 8 := by
    cases et <;> simp [ewidth]
    split <;> omega
  simp [bits]
  omega

theorem bits_pos (h : et.integer) : 0 < bits m et := by
  have : 0 < ewidth m et := by
    cases et <;> simp [ewidth, Etype.integer] at h ⊢
    split <;> omega
  simp [bits]
  omega

theorem getLsbD_SIGN {n i : Nat} (hn : n ≤ 64) (hn0 : 0 < n) : (SIGN n).getLsbD i = decide (i = n - 1) := by
  rw [SIGN, BitVec.getLsbD_shiftLeft, BitVec.getLsbD_one]
  by_cases hi : i = n - 1
  · simp [hi]
    omega
  · simp [hi]
    omega

theorem bits_cases (m : Target) (h : et.integer) :
    bits m et = 8 ∨ bits m et = 16 ∨ bits m et = 32 ∨ bits m et = 64 := by
  cases et <;> simp [bits, ewidth, Etype.integer] at h ⊢

theorem MASK_eq {n : Nat} (hn : n = 8 ∨ n = 16 ∨ n = 32 ∨ n = 64) : MASK n = (BitVec.allOnes n).setWidth 64 := by
  rcases hn with rfl | rfl | rfl | rfl <;> decide

/-- **convvtox** takes the value of the type and extends it again. -/
theorem convvtox_eq (h : et.integer) (c : Vlong) : convvtox m c et = extend m et (value m et c) := by
  have hn := bits_le m et
  have hn0 : 0 < bits m et := bits_pos h
  have hmask : MASK (8 * ewidth m et) = (BitVec.allOnes (bits m et)).setWidth 64 := MASK_eq (bits_cases m h)
  have hsign : ∀ i, (SIGN (8 * ewidth m et)).getLsbD i = decide (i = bits m et - 1) := fun i => getLsbD_SIGN hn hn0
  unfold convvtox extend value
  dsimp only
  rw [hmask]
  cases hu : typeu et with
  | true =>
    simp only [if_true]
    apply BitVec.eq_of_getLsbD_eq
    intro i hi
    by_cases hib : i < bits m et <;> simp [hi, hib]
  | false =>
    have hmsb : (c &&& (BitVec.allOnes (bits m et)).setWidth 64 &&& SIGN (8 * ewidth m et) ≠ 0) ↔
        (c.setWidth (bits m et)).msb = true := by
      have hlast : bits m et - 1 < bits m et := by omega
      have hlast' : bits m et - 1 < 64 := by omega
      rw [BitVec.msb_eq_getLsbD_last, BitVec.getLsbD_setWidth]
      simp only [hlast, decide_true, Bool.true_and]
      constructor
      · intro hne
        by_contra hbit
        apply hne
        apply BitVec.eq_of_getLsbD_eq
        intro i hi
        by_cases hi' : i = bits m et - 1
        · subst hi'
          simp [hbit]
        · simp [hsign, hi']
      · intro hbit hzero
        have hbits := congrArg (BitVec.getLsbD · (bits m et - 1)) hzero
        simp only [BitVec.getLsbD_and, hsign, hbit] at hbits
        simp [hlast, hlast'] at hbits
    simp only [Bool.false_eq_true, if_false]
    apply BitVec.eq_of_getLsbD_eq
    intro i hi
    rw [BitVec.getLsbD_signExtend]
    split
    · rename_i hneg
      rw [hmsb.1 hneg]
      by_cases hib : i < bits m et <;> simp [hi, hib]
    rename_i hpos
    have hpos' : (c.setWidth (bits m et)).msb = false := by
      rw [← Bool.not_eq_true]
      exact fun hm => hpos (hmsb.2 hm)
    rw [hpos']
    by_cases hib : i < bits m et <;> simp [hi, hib]

theorem value_extend (m : Target) (et : Etype) (x : BitVec (bits m et)) : value m et (extend m et x) = x := by
  have hn := bits_le m et
  unfold value extend
  apply BitVec.eq_of_getLsbD_eq
  intro i hi
  split
  · simp [hi, show i < 64 by omega]
  · rw [BitVec.getLsbD_setWidth, BitVec.getLsbD_signExtend]
    simp [hi, show i < 64 by omega]

theorem normal_convvtox (h : et.integer) (c : Vlong) : Normal m et (convvtox m c et) := by
  rw [Normal, convvtox_eq h, convvtox_eq h, value_extend]

theorem value_convvtox (h : et.integer) (c : Vlong) : value m et (convvtox m c et) = value m et c := by
  rw [convvtox_eq h, value_extend]

theorem Normal.extend_value (hc : Normal m et c) (h : et.integer) : extend m et (value m et c) = c := by
  rw [← convvtox_eq h]
  exact hc

end

end Plan9.Cc
