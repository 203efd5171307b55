/-
Folding of integer constants, as `evconst` of `cc/scon.c` does it: in the 64 bits of the
compiler for all types alike, and then `convvtox`.

The compiler is compiled by these compilers too: `+`, `-`, `*` and `<<` of a `vlong` wrap. What
has no result on the host is a division by zero, the quotient and the remainder of the least
number by -1, and a shift by less than 0 or more than 63. The branches for floating types
are left out, and the messages.

`run` is what the operation is in the type, on the numbers that its values are. An operator
and the types of its operands go together as `tcom` (`cc/com.c`) leaves them: the operands of an
arithmetic operator have its width, a shift count is an `int`, a relation is an `int`, and
where there is a signed and an unsigned operator the one of the type is used. The difference of two
pointers is divided by a shift (`arith` of `cc/sub.c`), whose count has the type of the difference, `long` or
`vlong`.
-/
import Plan9.Cc.Types

namespace Plan9.Cc

/-- A node that is an integer constant. -/
structure Const where
  etype : Etype
  vconst : Vlong
  deriving DecidableEq, Repr

/-- The value as an `int`, or one that nobody looks for. -/
def vconst (n : Const) : Int :=
  match n.etype with
  | .TFLOAT | .TDOUBLE | .TVOID => -159
  | _ => if (n.vconst.setWidth 32).toInt ≠ n.vconst.toInt then -159 else (n.vconst.setWidth 32).toInt

/-! ## The host -/

def hostDiv (l r : Vlong) : Option Vlong :=
  if r = 0 ∨ l = BitVec.intMin 64 ∧ r = -1 then none else some (l.sdiv r)

def hostMod (l r : Vlong) : Option Vlong :=
  if r = 0 ∨ l = BitVec.intMin 64 ∧ r = -1 then none else some (l.srem r)

def hostLdiv (l r : Vlong) : Option Vlong := if r = 0 then none else some (l / r)

def hostLmod (l r : Vlong) : Option Vlong := if r = 0 then none else some (l % r)

def hostShift (shift : Nat → Vlong) (r : Vlong) : Option Vlong :=
  if 0 ≤ r.toInt ∧ r.toInt < 64 then some (shift r.toNat) else none

def truth {w : Nat} (b : Bool) : BitVec w := if b then 1 else 0

/-! ## evconst -/

/-- `v`. The inner `none` is a return that leaves the node as it is, the outer one an operation without a result. With one
operand `r` is not looked at. -/
def folded (m : Target) (op : Op) (et : Etype) (l r : Const) : Option (Option Vlong) :=
  match op with
  | .ONEG => some (some (-l.vconst))
  | .OCOM => some (some (~~~l.vconst))
  | .OCAST => if et = .TVOID then some none else some (some (convvtox m l.vconst et))
  | .OCONST => some (some 0)
  | .OADD => some (some (l.vconst + r.vconst))
  | .OSUB => some (some (l.vconst - r.vconst))
  | .OMUL => some (some (l.vconst * r.vconst))
  | .OLMUL => some (some (l.vconst * r.vconst))
  | .ODIV => if vconst r = 0 then some none else (hostDiv l.vconst r.vconst).map some
  | .OLDIV => if vconst r = 0 then some none else (hostLdiv l.vconst r.vconst).map some
  | .OMOD => if vconst r = 0 then some none else (hostMod l.vconst r.vconst).map some
  | .OLMOD => if vconst r = 0 then some none else (hostLmod l.vconst r.vconst).map some
  | .OAND => some (some (l.vconst &&& r.vconst))
  | .OOR => some (some (l.vconst ||| r.vconst))
  | .OXOR => some (some (l.vconst ^^^ r.vconst))
  | .OLSHR => (hostShift (l.vconst >>> ·) r.vconst).map some
  | .OASHR => (hostShift l.vconst.sshiftRight r.vconst).map some
  | .OASHL => (hostShift (l.vconst <<< ·) r.vconst).map some
  | .OLO => some (some (truth (l.vconst.ult r.vconst)))
  | .OLT => some (some (truth (l.vconst.slt r.vconst)))
  | .OHI => some (some (truth (r.vconst.ult l.vconst)))
  | .OGT => some (some (truth (r.vconst.slt l.vconst)))
  | .OLS => some (some (truth (l.vconst.ule r.vconst)))
  | .OLE => some (some (truth (l.vconst.sle r.vconst)))
  | .OHS => some (some (truth (r.vconst.ule l.vconst)))
  | .OGE => some (some (truth (r.vconst.sle l.vconst)))
  | .OEQ => some (some (truth (l.vconst = r.vconst)))
  | .ONE => some (some (truth (l.vconst ≠ r.vconst)))
  | .ONOT => some (some (truth (l.vconst = 0)))
  | .OANDAND => some (some (truth (l.vconst ≠ 0 ∧ r.vconst ≠ 0)))
  | .OOROR => some (some (truth (l.vconst ≠ 0 ∨ r.vconst ≠ 0)))
  | _ => some none

/-- The `vconst` of the node, when it becomes a constant. -/
def evconst (m : Target) (op : Op) (et : Etype) (l r : Const) : Option (Option Vlong) :=
  (folded m op et l r).map (·.map (convvtox m · et))

/-! ## What the target computes -/

/-- The number that a value of the type is. -/
def number (m : Target) (n : Const) : Int :=
  if typeu n.etype then (value m n.etype n.vconst).toNat else (value m n.etype n.vconst).toInt

def run (m : Target) (op : Op) (et : Etype) (l r : Const) : BitVec (bits m et) :=
  let a := number m l
  let b := number m r
  match op with
  | .ONEG => .ofInt _ (-a)
  | .OCOM => ~~~value m et l.vconst
  | .OCAST => .ofInt _ a
  | .OADD => .ofInt _ (a + b)
  | .OSUB => .ofInt _ (a - b)
  | .OMUL | .OLMUL => .ofInt _ (a * b)
  | .ODIV | .OLDIV => .ofInt _ (a.tdiv b)
  | .OMOD | .OLMOD => .ofInt _ (a.tmod b)
  | .OAND => value m et l.vconst &&& value m et r.vconst
  | .OOR => value m et l.vconst ||| value m et r.vconst
  | .OXOR => value m et l.vconst ^^^ value m et r.vconst
  | .OLSHR | .OASHR => .ofInt _ (a / 2 ^ b.toNat)
  | .OASHL => .ofInt _ (a * 2 ^ b.toNat)
  | .OLO | .OLT => truth (a < b)
  | .OHI | .OGT => truth (a > b)
  | .OLS | .OLE => truth (a ≤ b)
  | .OHS | .OGE => truth (a ≥ b)
  | .OEQ => truth (a = b)
  | .ONE => truth (a ≠ b)
  | .ONOT => truth (a = 0)
  | .OANDAND => truth (a ≠ 0 ∧ b ≠ 0)
  | .OOROR => truth (a ≠ 0 ∨ b ≠ 0)
  | _ => 0

/-! ## What is to be folded -/

/-- Whether there is a second operand. -/
def Op.binary : Op → Bool
  | .ONEG | .OCOM | .OCAST | .ONOT => false
  | _ => true

/-- The types of an operator and its operands, after `tcom`. -/
def WellTyped (m : Target) (op : Op) (et lt rt : Etype) : Prop :=
  et.integer ∧ lt.integer ∧ (op.binary → rt.integer) ∧
    match op with
    | .ONEG | .OCOM => bits m lt = bits m et
    | .OCAST => True
    | .OADD | .OSUB | .OMUL | .OLMUL | .OAND | .OOR | .OXOR => bits m lt = bits m et ∧ bits m rt = bits m et
    | .ODIV | .OMOD => lt = et ∧ rt = et ∧ ¬ typeu et
    | .OLDIV | .OLMOD => lt = et ∧ rt = et ∧ typeu et
    | .OASHR => lt = et ∧ (rt = .TINT ∨ rt = .TLONG ∨ rt = .TVLONG) ∧ ¬ typeu et
    | .OLSHR => lt = et ∧ rt = .TINT ∧ typeu et
    | .OASHL => lt = et ∧ rt = .TINT
    | .OLT | .OGT | .OLE | .OGE => et = .TINT ∧ lt = rt ∧ ¬ typeu lt
    | .OLO | .OHI | .OLS | .OHS => et = .TINT ∧ lt = rt ∧ typeu lt
    | .OEQ | .ONE => et = .TINT ∧ lt = rt
    | .ONOT | .OANDAND | .OOROR => et = .TINT
    | _ => False

/-- The divisor is not zero, and a shift count is below the width of the type. -/
def Sensible (m : Target) (op : Op) (et : Etype) (r : Const) : Prop :=
  match op with
  | .ODIV | .OLDIV | .OMOD | .OLMOD => number m r ≠ 0
  | .OLSHR | .OASHR | .OASHL => 0 ≤ number m r ∧ number m r < bits m et
  | _ => True

/-- The node becomes a constant of its type, and the one that the operation gives there. -/
def Folds (m : Target) (op : Op) (et : Etype) (l r : Const) : Prop :=
  ∃ v, evconst m op et l r = some (some v) ∧ Normal m et v ∧ value m et v = run m op et l r

/-- The quotient or the remainder of the least `vlong` by -1. -/
def Overflows (op : Op) (l r : Const) : Prop :=
  (op = .ODIV ∨ op = .OMOD) ∧ l.vconst = BitVec.intMin 64 ∧ r.vconst = -1

/-! ## Constants and their numbers -/

section

variable {m : Target} {op : Op} {et : Etype} {l r n : Const}

theorem number_signed (h : n.etype.integer) (hn : Normal m n.etype n.vconst) (hu : ¬ typeu n.etype) :
    number m n = n.vconst.toInt := by
  have hext := hn.extend_value h
  rw [extend, if_neg hu] at hext
  rw [number, if_neg hu]
  conv_rhs => rw [← hext]
  rw [BitVec.toInt_signExtend_of_le (bits_le m n.etype)]

theorem number_unsigned (h : n.etype.integer) (hn : Normal m n.etype n.vconst) (hu : typeu n.etype) :
    number m n = n.vconst.toNat := by
  have hext := hn.extend_value h
  rw [extend, if_pos hu] at hext
  rw [number, if_pos hu]
  conv_rhs => rw [← hext]
  rw [BitVec.toNat_setWidth_of_le (bits_le m n.etype)]

theorem ofInt_number (h : n.etype.integer) (hn : Normal m n.etype n.vconst) : BitVec.ofInt 64 (number m n) = n.vconst := by
  by_cases hu : typeu n.etype
  · rw [number_unsigned h hn hu]
    simp
  · rw [number_signed h hn hu]
    simp

theorem value_ofInt (m : Target) (et : Etype) (z : Int) : value m et (BitVec.ofInt 64 z) = BitVec.ofInt _ z := by
  apply BitVec.eq_of_toInt_eq
  have hdvd : 2 ^ bits m et ∣ 2 ^ 64 := Nat.pow_dvd_pow 2 (bits_le m et)
  rw [value, BitVec.toInt_setWidth, BitVec.toInt_ofInt, BitVec.toNat_ofInt]
  rw [Int.toNat_of_nonneg (Int.emod_nonneg _ (by decide))]
  rw [Int.bmod_def, Int.bmod_def, Int.emod_emod_of_dvd _ (Int.natCast_dvd_natCast.2 hdvd)]

theorem number_zero_iff (h : n.etype.integer) (hn : Normal m n.etype n.vconst) : number m n = 0 ↔ n.vconst = 0 := by
  constructor
  · intro hz
    rw [← ofInt_number h hn, hz]
    rfl
  · intro hz
    simp [number, value, hz]

theorem vconst_zero_iff (h : n.etype.integer) : vconst n = 0 ↔ n.vconst = 0 := by
  have hval : vconst n = if (n.vconst.setWidth 32).toInt ≠ n.vconst.toInt then -159 else (n.vconst.setWidth 32).toInt := by
    unfold vconst
    cases hn : n.etype <;> simp [hn, Etype.integer] at h ⊢
  rw [hval]
  constructor
  · intro hz
    split at hz
    · omega
    · rename_i heq
      apply BitVec.eq_of_toInt_eq
      rw [← Classical.not_not.1 heq, hz]
      rfl
  · intro hz
    simp [hz]

/-! ## Folding -/

theorem Folds.of_value (he : et.integer) {v : Vlong} (hf : folded m op et l r = some (some v))
    (hv : value m et v = run m op et l r) : Folds m op et l r :=
  ⟨convvtox m v et, by simp [evconst, hf], normal_convvtox he v, (value_convvtox he v).trans hv⟩

theorem Folds.of_number (he : et.integer) (z : Int) (hf : folded m op et l r = some (some (BitVec.ofInt 64 z)))
    (hrun : run m op et l r = BitVec.ofInt _ z) : Folds m op et l r :=
  .of_value he hf ((value_ofInt m et z).trans hrun.symm)

theorem value_truth (b : Bool) : value m et (truth b) = truth b := by
  cases b
  · simp [value, truth]
  · exact value_ofInt m et 1

theorem Folds.of_truth (he : et.integer) {b c : Bool} (hf : folded m op et l r = some (some (truth b)))
    (hrun : run m op et l r = truth c) (hbc : b = c) : Folds m op et l r :=
  .of_value he hf (by rw [value_truth, hrun, hbc])

/-- What the operators of two operands need to know about these. -/
structure Operands (m : Target) (l r : Const) : Prop where
  left : l.etype.integer
  right : r.etype.integer
  normalLeft : Normal m l.etype l.vconst
  normalRight : Normal m r.etype r.vconst

namespace Operands

variable (h : Operands m l r)

include h

theorem div_folds (he : et.integer) (hop : op = .ODIV ∨ op = .OMOD) (hl : ¬ typeu l.etype) (hr : ¬ typeu r.etype)
    (hne : number m r ≠ 0) : Folds m op et l r ↔ ¬ Overflows op l r := by
  have hr0 : r.vconst ≠ 0 := fun h0 => hne ((number_zero_iff h.right h.normalRight).2 h0)
  have hrv : vconst r ≠ 0 := fun h0 => hr0 ((vconst_zero_iff h.right).1 h0)
  have hnl := number_signed h.left h.normalLeft hl
  have hnr := number_signed h.right h.normalRight hr
  constructor
  · rintro ⟨v, hv, -⟩ ⟨-, hmin, hneg⟩
    rcases hop with rfl | rfl <;> simp [evconst, folded, hrv, hostDiv, hostMod, hmin, hneg] at hv
  intro hover
  have hsafe : ¬ (r.vconst = 0 ∨ l.vconst = BitVec.intMin 64 ∧ r.vconst = -1) := by
    rintro (h0 | ⟨hmin, hneg⟩)
    · exact hr0 h0
    · exact hover ⟨hop, hmin, hneg⟩
  have hcase : l.vconst ≠ BitVec.intMin 64 ∨ r.vconst ≠ -1#64 := by
    by_contra hcon
    push Not at hcon
    exact hsafe (.inr hcon)
  rcases hop with rfl | rfl
  · refine .of_number he _ ?_ rfl
    rw [hnl, hnr, ← BitVec.toInt_sdiv_of_ne_or_ne _ _ hcase, BitVec.ofInt_toInt]
    simp only [folded, if_neg hrv, hostDiv, if_neg hsafe, Option.map_some]
  · refine .of_number he _ ?_ rfl
    rw [hnl, hnr, ← BitVec.toInt_srem, BitVec.ofInt_toInt]
    simp only [folded, if_neg hrv, hostMod, if_neg hsafe, Option.map_some]

theorem ldiv_folds (he : et.integer) (hop : op = .OLDIV ∨ op = .OLMOD) (hl : typeu l.etype) (hr : typeu r.etype)
    (hne : number m r ≠ 0) : Folds m op et l r := by
  have hr0 : r.vconst ≠ 0 := fun h0 => hne ((number_zero_iff h.right h.normalRight).2 h0)
  have hrv : vconst r ≠ 0 := fun h0 => hr0 ((vconst_zero_iff h.right).1 h0)
  have hnl := number_unsigned h.left h.normalLeft hl
  have hnr := number_unsigned h.right h.normalRight hr
  rcases hop with rfl | rfl
  · refine .of_number he _ ?_ rfl
    rw [hnl, hnr, ← Int.ofNat_tdiv, ← BitVec.toNat_udiv, BitVec.ofInt_natCast]
    simp only [folded, if_neg hrv, hostLdiv, if_neg hr0, Option.map_some, BitVec.ofNat_toNat, BitVec.setWidth_eq]
  · refine .of_number he _ ?_ rfl
    rw [hnl, hnr, ← Int.ofNat_tmod, ← BitVec.toNat_umod, BitVec.ofInt_natCast]
    simp only [folded, if_neg hrv, hostLmod, if_neg hr0, Option.map_some, BitVec.ofNat_toNat, BitVec.setWidth_eq]

theorem shift_folds (he : et.integer) (hr : ¬ typeu r.etype) (h0 : 0 ≤ number m r) (hlt : number m r < bits m et)
    (hop : op = .OASHL ∨ op = .OASHR ∧ ¬ typeu l.etype ∨ op = .OLSHR ∧ typeu l.etype) : Folds m op et l r := by
  have hnr : number m r = r.vconst.toInt := number_signed h.right h.normalRight hr
  have hbits := bits_le m et
  have hrange : 0 ≤ r.vconst.toInt ∧ r.vconst.toInt < 64 := by omega
  have hcount : (number m r).toNat = r.vconst.toNat := by
    rw [hnr, BitVec.toInt_eq_toNat_of_lt]
    · simp
    · rw [BitVec.toInt_eq_toNat_cond] at hrange
      split at hrange <;> omega
  have hpow : (2 : Int) ^ r.vconst.toNat = ((2 ^ r.vconst.toNat : Nat) : Int) := by
    rfl
  rcases hop with rfl | ⟨rfl, hl⟩ | ⟨rfl, hl⟩
  · refine .of_number he _ ?_ rfl
    rw [hcount, BitVec.ofInt_mul, ofInt_number h.left h.normalLeft, hpow, BitVec.ofInt_natCast]
    simp only [folded, hostShift, if_pos hrange, Option.map_some]
    have hone : 1#64 <<< r.vconst.toNat = BitVec.ofNat 64 (2 ^ r.vconst.toNat) := by
      apply BitVec.eq_of_toNat_eq
      simp [Nat.shiftLeft_eq]
    rw [BitVec.shiftLeft_eq_mul_twoPow, BitVec.twoPow_eq, hone]
  · refine .of_number he _ ?_ rfl
    rw [hcount, number_signed h.left h.normalLeft hl, hpow, ← Int.shiftRight_eq_div_pow, ← BitVec.toInt_sshiftRight]
    simp only [folded, hostShift, if_pos hrange, Option.map_some, BitVec.ofInt_toInt]
  · refine .of_number he _ ?_ rfl
    rw [hcount, number_unsigned h.left h.normalLeft hl, hpow, ← Int.natCast_ediv, ← Nat.shiftRight_eq_div_pow]
    rw [← BitVec.toNat_ushiftRight, BitVec.ofInt_natCast]
    simp only [folded, hostShift, if_pos hrange, Option.map_some, BitVec.ofNat_toNat, BitVec.setWidth_eq]

theorem number_eq_iff (ht : l.etype = r.etype) : number m l = number m r ↔ l.vconst = r.vconst := by
  constructor
  · intro heq
    rw [← ofInt_number h.left h.normalLeft, heq, ofInt_number h.right h.normalRight]
  · intro heq
    unfold number
    rw [heq, ht]

theorem signed (hl : ¬ typeu l.etype) (hr : ¬ typeu r.etype) :
    l.vconst.slt r.vconst = decide (number m l < number m r) ∧ l.vconst.sle r.vconst = decide (number m l ≤ number m r) := by
  rw [number_signed h.left h.normalLeft hl, number_signed h.right h.normalRight hr]
  exact ⟨rfl, rfl⟩

theorem unsigned (hl : typeu l.etype) (hr : typeu r.etype) :
    l.vconst.ult r.vconst = decide (number m l < number m r) ∧ l.vconst.ule r.vconst = decide (number m l ≤ number m r) := by
  rw [number_unsigned h.left h.normalLeft hl, number_unsigned h.right h.normalRight hr]
  simp [BitVec.ult, BitVec.ule]

theorem zero_iff : (number m l = 0 ↔ l.vconst = 0) ∧ (number m r = 0 ↔ r.vconst = 0) :=
  ⟨number_zero_iff h.left h.normalLeft, number_zero_iff h.right h.normalRight⟩

theorem swap : Operands m r l := ⟨h.right, h.left, h.normalRight, h.normalLeft⟩

end Operands

/-- **evconst** makes a constant of the type, the one that the operation gives in the type, but for the division that
overflows on the host. -/
theorem evconst_folds_iff (m : Target) (op : Op) (et : Etype) (l r : Const) (ht : WellTyped m op et l.etype r.etype)
    (hl : Normal m l.etype l.vconst) (hr : op.binary → Normal m r.etype r.vconst) (hs : Sensible m op et r) :
    Folds m op et l r ↔ ¬ Overflows op l r := by
  obtain ⟨he, hli, hri, ht⟩ := ht
  have hpair : op.binary → Operands m l r := fun hb => ⟨hli, hri hb, hl, hr hb⟩
  have hnum := ofInt_number hli hl
  by_cases hop : op = .ODIV ∨ op = .OMOD
  · have hb : op.binary := by rcases hop with rfl | rfl <;> rfl
    obtain ⟨hlt, hrt, hu⟩ : l.etype = et ∧ r.etype = et ∧ ¬ typeu et := by rcases hop with rfl | rfl <;> exact ht
    exact (hpair hb).div_folds he hop (hlt ▸ hu) (hrt ▸ hu) (by rcases hop with rfl | rfl <;> exact hs)
  refine iff_of_true ?_ fun h => hop h.1
  cases op with
  | ONEG => exact .of_number he _ (by simp [folded, BitVec.ofInt_neg, hnum]) rfl
  | OCOM => exact .of_value he rfl (by simp [run, value, bits_le])
  | OCAST =>
    have hvoid : et ≠ .TVOID := fun h0 => by simp [h0, Etype.integer] at he
    refine .of_value he (if_neg hvoid) ?_
    rw [value_convvtox he, ← hnum, value_ofInt]
    rfl
  | OADD =>
    have hnum' := ofInt_number (hri rfl) (hr rfl)
    exact .of_number he _ (by simp [folded, BitVec.ofInt_add, hnum, hnum']) rfl
  | OSUB =>
    have hnum' := ofInt_number (hri rfl) (hr rfl)
    refine .of_number he _ ?_ rfl
    simp [folded, BitVec.ofInt_add, BitVec.ofInt_neg, Int.sub_eq_add_neg, hnum, hnum', BitVec.sub_eq_add_neg]
  | OMUL | OLMUL =>
    have hnum' := ofInt_number (hri rfl) (hr rfl)
    exact .of_number he _ (by simp [folded, BitVec.ofInt_mul, hnum, hnum']) rfl
  | OAND | OOR | OXOR => exact .of_value he rfl (by simp [run, value])
  | ODIV | OMOD => simp at hop
  | OLDIV => exact (hpair rfl).ldiv_folds he (.inl rfl) (ht.1 ▸ ht.2.2) (ht.2.1 ▸ ht.2.2) hs
  | OLMOD => exact (hpair rfl).ldiv_folds he (.inr rfl) (ht.1 ▸ ht.2.2) (ht.2.1 ▸ ht.2.2) hs
  | OASHL => exact (hpair rfl).shift_folds he (by simp [ht.2, typeu]) hs.1 hs.2 (.inl rfl)
  | OASHR =>
    have hcount : ¬ typeu r.etype := by rcases ht.2.1 with h | h | h <;> simp [h, typeu]
    exact (hpair rfl).shift_folds he hcount hs.1 hs.2 (.inr (.inl ⟨rfl, ht.1 ▸ ht.2.2⟩))
  | OLSHR => exact (hpair rfl).shift_folds he (by simp [ht.2.1, typeu]) hs.1 hs.2 (.inr (.inr ⟨rfl, ht.1 ▸ ht.2.2⟩))
  | OLT | OGT | OLE | OGE =>
    have h := hpair rfl
    refine .of_truth he rfl rfl ?_
    simp [h.signed ht.2.2 (ht.2.1 ▸ ht.2.2), h.swap.signed (ht.2.1 ▸ ht.2.2) ht.2.2]
  | OLO | OHI | OLS | OHS =>
    have h := hpair rfl
    refine .of_truth he rfl rfl ?_
    simp [h.unsigned ht.2.2 (ht.2.1 ▸ ht.2.2), h.swap.unsigned (ht.2.1 ▸ ht.2.2) ht.2.2]
  | OEQ | ONE =>
    refine .of_truth he rfl rfl ?_
    simp [(hpair rfl).number_eq_iff ht.2]
  | ONOT =>
    refine .of_truth he rfl rfl ?_
    simp [number_zero_iff hli hl]
  | OANDAND | OOROR =>
    refine .of_truth he rfl rfl ?_
    simp [(hpair rfl).zero_iff]
  | _ => exact ht.elim

end

/-- A machine with pointers of four bytes. -/
def smallTarget : Target := ⟨false⟩

/-- The least `vlong`. -/
def least : Const := ⟨.TVLONG, BitVec.intMin 64⟩

theorem evconst_folds_least :
    Folds smallTarget .ODIV .TVLONG least ⟨.TVLONG, 2⟩ ↔ ¬ Overflows .ODIV least ⟨.TVLONG, 2⟩ :=
  evconst_folds_iff _ _ _ _ _ (by unfold WellTyped; decide) (by decide) (fun _ => by decide) (by unfold Sensible; decide)

/-- The least `vlong` by -1 has no quotient on the host. -/
theorem evconst_least_div_neg_one :
    ¬ ∀ (m : Target) (op : Op) (et : Etype) (l r : Const), WellTyped m op et l.etype r.etype →
      Normal m l.etype l.vconst → (op.binary → Normal m r.etype r.vconst) → Sensible m op et r → Folds m op et l r := by
  intro hall
  obtain ⟨v, hv, -⟩ := hall smallTarget .ODIV .TVLONG least ⟨.TVLONG, -1⟩ (by unfold WellTyped; decide) (by decide)
    (fun _ => by decide) (by unfold Sensible; decide)
  have hnone : evconst smallTarget .ODIV .TVLONG least ⟨.TVLONG, -1⟩ = none := by decide
  exact absurd (hnone.symm.trans hv) (by simp)

end Plan9.Cc
