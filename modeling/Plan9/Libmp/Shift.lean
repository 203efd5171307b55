/-
Shifts of a number (`libmp/port/mpleft.c`, `libmp/port/mpright.c`) and the number of a machine
word (`vtomp` of `libmp/port/mptov.c`).

`same` says that `b` and `res` are one number. Shifts are not negative. A shift is of whole digits first;
then every digit is put together from two, from the lowest up to the right, from the highest
down to the left.
-/
import Plan9.Libmp.Mpaux
import Plan9.Libmp.VecFacts

namespace Plan9.Mp

open Digits Memory List

/-- `for(i = 0; i < b->top-d-1; i++)`, and the last digit. -/
def rightLoop (l r : mpdigit) : List mpdigit → List mpdigit
  | [] => []
  | [last] => [last >>> r]
  | last :: this :: rest => (this <<< l ||| last >>> r) :: rightLoop l r (this :: rest)

def mpright (b : mpint) (shift : Nat) (same : Bool) (res : mpint) : Option mpint :=
  let res := { res with sign := b.sign }
  if b.top = 0 then some { res with top := 0 }
  else if same ∧ shift = 0 then some res
  else
    let res := if same then res else mpbits res (b.top * 32 - shift)
    let d := shift / 32
    let r := shift - d * 32
    let l := 32 - r
    if d ≥ b.top then some { res with sign := 1, top := 0 }
    else
      let digits := if r = 0 then b.digits.drop d else rightLoop (UInt32.ofNat l) (UInt32.ofNat r) (b.digits.drop d)
      mpnorm { res with p := store res.p 0 digits, top := b.top - d, timesafe := res.timesafe || b.timesafe }

/-- `for(i = otop-1; i >= 0; i--)`, and the digit below: the digits from the highest down. -/
def leftLoop (l r : mpdigit) : List mpdigit → mpdigit → List mpdigit
  | [], last => [last <<< l]
  | this :: rest, last => (last <<< l ||| this >>> r) :: leftLoop l r rest this

def mpleft (b : mpint) (shift : Nat) (same : Bool) (res : mpint) : Option mpint :=
  let res := { res with sign := b.sign }
  if b.top = 0 then some { res with top := 0 }
  else if shift = 0 then mpright b 0 same res
  else
    let res := mpbits res (b.top * 32 + shift)
    let d := shift / 32
    let l := shift - d * 32
    let r := 32 - l
    let digits := if l = 0 then b.digits else (leftLoop (UInt32.ofNat l) (UInt32.ofNat r) b.digits.reverse 0).reverse
    mpnorm { res with
      p := store res.p 0 (List.replicate d 0 ++ digits), top := DIGITS (b.top * 32 + shift),
      timesafe := res.timesafe || b.timesafe }

def vtomp (v : Int) (b : mpint) : Option mpint :=
  let b := mpbits b (2 * 4)
  let uv := v.natAbs
  mpnorm { b with
    sign := if v < 0 then -1 else 1, p := store b.p 0 [UInt32.ofNat uv, UInt32.ofNat (uv >>> 32)], top := 2 }

/-! ## The digits -/

section

variable {x y : mpdigit} {l r : Nat}

theorem toNat_shr (x : mpdigit) (hr : r < 32) : (x >>> UInt32.ofNat r).toNat = x.toNat / 2 ^ r := by
  rw [UInt32.toNat_shiftRight, UInt32.toNat_ofNat', Nat.mod_eq_of_lt (show r < 2 ^ 32 by omega), Nat.mod_eq_of_lt hr,
    Nat.shiftRight_eq_div_pow]

theorem toNat_joined (x y : mpdigit) (hl : 0 < l) (hlr : l + r = 32) (hr : 0 < r) :
    (y <<< UInt32.ofNat l ||| x >>> UInt32.ofNat r).toNat = y.toNat * 2 ^ l % 2 ^ 32 + x.toNat / 2 ^ r := by
  have hpow : (2 : Nat) ^ 32 = 2 ^ l * 2 ^ r := by rw [← Nat.pow_add, hlr]
  have hlt : x.toNat / 2 ^ r < 2 ^ l := by
    apply Nat.div_lt_of_lt_mul
    rw [Nat.mul_comm, ← hpow]
    exact x.toNat_lt
  have hmul : y.toNat * 2 ^ l % 2 ^ 32 = 2 ^ l * (y.toNat % 2 ^ r) := by
    rw [hpow, Nat.mul_comm, Nat.mul_mod_mul_left]
  rw [UInt32.toNat_or, toNat_shl (by omega), toNat_shr x (by omega), hmul, ← Nat.two_pow_add_eq_or_of_lt hlt]

theorem mul_mod_add_div (x : mpdigit) (hlr : l + r = 32) :
    x.toNat * 2 ^ l % 2 ^ 32 + 2 ^ 32 * (x.toNat / 2 ^ r) = x.toNat * 2 ^ l := by
  have hpow : (2 : Nat) ^ 32 = 2 ^ r * 2 ^ l := by rw [← Nat.pow_add, Nat.add_comm, hlr]
  have hdiv : x.toNat / 2 ^ r = x.toNat * 2 ^ l / 2 ^ 32 := by
    rw [hpow, Nat.mul_div_mul_right _ _ (Nat.two_pow_pos l)]
  rw [hdiv]
  exact Nat.mod_add_div _ _

theorem rightLoop_spec (hl : 0 < l) (hlr : l + r = 32) (hr : 0 < r) : ∀ ds : List mpdigit,
    (rightLoop (UInt32.ofNat l) (UInt32.ofNat r) ds).length = ds.length ∧
      val (rightLoop (UInt32.ofNat l) (UInt32.ofNat r) ds) = val ds / 2 ^ r
  | [] => ⟨rfl, (Nat.zero_div _).symm⟩
  | [x] => ⟨rfl, by rw [rightLoop, val_singleton, val_singleton, toNat_shr x (by omega)]⟩
  | x :: y :: ds => by
    obtain ⟨hlen, hval⟩ := rightLoop_spec hl hlr hr (y :: ds)
    have hpow : (2 : Nat) ^ 32 = 2 ^ r * 2 ^ l := by rw [← Nat.pow_add, Nat.add_comm, hlr]
    rw [rightLoop]
    refine ⟨congrArg (· + 1) hlen, ?_⟩
    rw [val_cons, hval, toNat_joined x y hl hlr hr, val_cons x]
    -- the higher digits, and what of them comes down into this one
    have hhigh : y.toNat * 2 ^ l % 2 ^ 32 + 2 ^ 32 * (val (y :: ds) / 2 ^ r) = 2 ^ l * val (y :: ds) := by
      have hy := mul_mod_add_div y hlr
      have hdiv : (y.toNat + 2 ^ 32 * val ds) / 2 ^ r = y.toNat / 2 ^ r + 2 ^ l * val ds := by
        rw [hpow, Nat.mul_assoc, Nat.add_mul_div_left _ _ (Nat.two_pow_pos r)]
      rw [val_cons, hdiv, Nat.mul_add, Nat.mul_add, ← hy.trans (Nat.mul_comm ..), Nat.mul_left_comm (2 ^ l)]
      omega
    have hlow : (x.toNat + 2 ^ 32 * val (y :: ds)) / 2 ^ r = x.toNat / 2 ^ r + 2 ^ l * val (y :: ds) := by
      rw [hpow, Nat.mul_assoc, Nat.add_mul_div_left _ _ (Nat.two_pow_pos r)]
    omega

theorem leftLoop_spec (hl : 0 < l) (hlr : l + r = 32) (hr : 0 < r) : ∀ (ds : List mpdigit) (last : mpdigit),
    (leftLoop (UInt32.ofNat l) (UInt32.ofNat r) ds last).length = ds.length + 1 ∧
      val (leftLoop (UInt32.ofNat l) (UInt32.ofNat r) ds last).reverse =
        val ds.reverse * 2 ^ l + (2 ^ 32) ^ ds.length * (last.toNat * 2 ^ l % 2 ^ 32)
  | [], last => ⟨rfl, by
    rw [leftLoop, reverse_singleton, val_singleton, toNat_shl (by omega), reverse_nil, val_nil, Nat.zero_mul,
      Nat.zero_add, length_nil, Nat.pow_zero, Nat.one_mul]⟩
  | x :: ds, last => by
    obtain ⟨hlen, hval⟩ := leftLoop_spec hl hlr hr ds x
    have hx := mul_mod_add_div x hlr
    rw [leftLoop]
    refine ⟨congrArg (· + 1) hlen, ?_⟩
    rw [reverse_cons, val_append, val_singleton, hval, length_reverse, hlen, toNat_joined x last hl hlr hr,
      reverse_cons, val_append, val_singleton, length_reverse, length_cons, Nat.add_mul, Nat.mul_assoc,
      base_pow_succ]
    generalize x.toNat * 2 ^ l % 2 ^ 32 = low at hx ⊢
    rw [← hx]
    ring

end

/-! ## The numbers -/

variable {b res : mpint} {shift : Nat} {same : Bool}

theorem two_pow_split (shift : Nat) : (2 : Nat) ^ shift = (2 ^ 32) ^ (shift / 32) * 2 ^ (shift - shift / 32 * 32) := by
  rw [← Nat.pow_mul, ← Nat.pow_add]
  congr 1
  omega

theorem mpright_mpnorm (h0 : b.top ≠ 0) (hs : ¬(same ∧ shift = 0)) (hd : shift / 32 < b.top) :
    ∃ x : mpint, mpright b shift same res = mpnorm x ∧ val x.digits = val b.digits / 2 ^ shift ∧ x.sign = b.sign ∧
      x.timesafe = (res.timesafe || b.timesafe) := by
  unfold mpright
  extract_lets res' res'' d r l digits
  rw [if_neg h0, if_neg hs, if_neg (Nat.not_le.2 hd)]
  have hdrop : val (b.digits.drop d) = val b.digits / (2 ^ 32) ^ d := val_drop (by rw [length_digits]; omega)
  have hlen : (b.digits.drop d).length = b.top - d := by rw [length_drop, length_digits]
  have hdigits : digits.length = b.top - d ∧ val digits = val b.digits / 2 ^ shift := by
    rw [two_pow_split, ← Nat.div_div_eq_div_mul, ← hdrop]
    by_cases hr : r = 0
    · rw [show digits = _ from if_pos hr, show shift - shift / 32 * 32 = 0 from hr, Nat.pow_zero, Nat.div_one]
      exact ⟨hlen, rfl⟩
    · obtain ⟨hlen', hval⟩ := rightLoop_spec (show 0 < l by omega) (show l + r = 32 by omega) (by omega) (b.digits.drop d)
      rw [show digits = _ from if_neg hr]
      exact ⟨hlen'.trans hlen, hval⟩
  refine ⟨_, rfl, ?_, ?_, ?_⟩
  · exact (congrArg val (load_stored hdigits.1.symm)).trans hdigits.2
  · change mpint.sign (if same then res' else mpbits res' _) = _
    split
    · rfl
    · exact (mpbits_spec res' _).1
  change (mpint.timesafe (if same then res' else mpbits res' _) || _) = _
  split
  · rfl
  · rw [(mpbits_spec res' _).2.1]

theorem value_of_top_eq_zero (h : b.top = 0) : b.value = 0 := by
  have hnil : b.digits = [] := eq_nil_of_length_eq_zero ((length_digits b).trans h)
  rw [mpint.value, hnil]
  exact Int.mul_zero _

theorem mpright_iff (hb : b.timesafe = false) (hs : shift < 32) (hsame : same → res = b) :
    (∀ y, mpright b shift same res = some y →
        y.value = b.sign * (val b.digits / 2 ^ shift : Nat) ∧ y.timesafe = res.timesafe) ∧
      ((∃ y, mpright b shift same res = some y) ↔ (res.timesafe → b.top = 0 ∨ b.sign = 1)) := by
  by_cases h0 : b.top = 0
  · have hright : mpright b shift same res = some { res with sign := b.sign, top := 0 } := by
      rw [mpright, if_pos h0]
    have hnil : b.digits = [] := eq_nil_of_length_eq_zero ((length_digits b).trans h0)
    rw [hright, hnil]
    refine ⟨fun y hy => ?_, fun _ _ => .inl h0, fun _ => ⟨_, rfl⟩⟩
    rw [← Option.some.inj hy, value_of_top_eq_zero rfl, val_nil, Nat.zero_div]
    exact ⟨(Int.mul_zero _).symm, rfl⟩
  by_cases h : same ∧ shift = 0
  · have hres := hsame h.1
    have hright : mpright b shift same res = some { res with sign := b.sign } := by
      rw [mpright, if_neg h0, if_pos h]
    rw [hright, h.2, hres, Nat.pow_zero, Nat.div_one]
    constructor
    · intro y hy
      rw [← Option.some.inj hy]
      exact ⟨rfl, rfl⟩
    · exact ⟨fun _ ht => absurd (hb.symm.trans ht) Bool.false_ne_true, fun _ => ⟨_, rfl⟩⟩
  obtain ⟨x, hx, hval, hsign, hts⟩ := @mpright_mpnorm b res shift same h0 h (by omega)
  rw [hb, Bool.or_false] at hts
  rw [hx, mpnorm_iff, hts, hsign]
  refine ⟨fun y hy => ?_, fun h ht => .inr (h ht), fun h ht => (h ht).resolve_left h0⟩
  rw [(mpnorm_same hy).1, (mpnorm_same hy).2, mpint.value, hsign, hval]
  exact ⟨rfl, hts⟩

theorem mpright_other (h0 : b.top ≠ 0) (hd : shift / 32 < b.top) (hb : b.timesafe = false) (hres : res.timesafe = false) :
    ∃ y, mpright b shift false res = some y ∧ val y.digits = val b.digits / 2 ^ shift ∧ Normalized y ∧
      y.timesafe = false ∧ y.sign = if y.top = 0 then 1 else b.sign := by
  obtain ⟨x, hx, hval, hsign, hts⟩ := @mpright_mpnorm b res shift false h0 (fun h => Bool.false_ne_true h.1) hd
  rw [hb, hres, Bool.false_or] at hts
  obtain ⟨y, hy, -, hnorm, hval', hts', hsign'⟩ := mpnorm_spec hts
  rw [hsign] at hsign'
  exact ⟨y, hx.trans hy, hval'.trans hval, hnorm, hts', hsign'⟩

theorem leftDigits_spec (b : mpint) (shift : Nat) :
    let d := shift / 32
    let l := shift - d * 32
    let r := 32 - l
    let digits := if l = 0 then b.digits else (leftLoop (UInt32.ofNat l) (UInt32.ofNat r) b.digits.reverse 0).reverse
    (replicate d 0 ++ digits).length = DIGITS (b.top * 32 + shift) ∧
      val (replicate d 0 ++ digits) = val b.digits * 2 ^ shift := by
  intro d l r digits
  have hdigits : digits.length = (if l = 0 then b.top else b.top + 1) ∧ val digits = val b.digits * 2 ^ l := by
    by_cases hl : l = 0
    · rw [show digits = _ from if_pos hl, if_pos hl, hl, Nat.pow_zero, Nat.mul_one]
      exact ⟨length_digits b, rfl⟩
    obtain ⟨hlen, hval⟩ := leftLoop_spec (show 0 < l by omega) (show l + r = 32 by omega) (by omega) b.digits.reverse 0
    rw [reverse_reverse, UInt32.toNat_zero, Nat.zero_mul, Nat.zero_mod, Nat.mul_zero, Nat.add_zero] at hval
    rw [length_reverse, length_digits] at hlen
    rw [show digits = _ from if_neg hl, if_neg hl, length_reverse]
    exact ⟨hlen, hval⟩
  constructor
  · rw [length_append, length_replicate, hdigits.1]
    unfold DIGITS
    split <;> omega
  · rw [val_append, val_replicate_zero, length_replicate, hdigits.2, two_pow_split shift, Nat.zero_add]
    exact Nat.mul_left_comm ..

theorem mpleft_new (hb : b.timesafe = false) (h0 : 0 < val b.digits) :
    ∃ u, mpleft b shift false mpnew = some u ∧ val u.digits = val b.digits * 2 ^ shift ∧ Normalized u ∧
      u.timesafe = false ∧ u.sign = b.sign := by
  have htop : b.top ≠ 0 := by
    intro h
    rw [eq_nil_of_length_eq_zero ((length_digits b).trans h)] at h0
    exact Nat.lt_irrefl 0 h0
  have hsign : ∀ u : mpint, 0 < val u.digits → u.sign = (if u.top = 0 then 1 else b.sign) → u.sign = b.sign := by
    intro u hu hs
    rw [hs, if_neg]
    intro h
    rw [eq_nil_of_length_eq_zero ((length_digits u).trans h)] at hu
    exact Nat.lt_irrefl 0 hu
  have hpos : 0 < val b.digits * 2 ^ shift := Nat.mul_pos h0 (Nat.two_pow_pos _)
  by_cases hs : shift = 0
  · obtain ⟨y, hy, hval, hnorm, hts, hsgn⟩ := @mpright_other b mpnew 0 htop (by omega) hb rfl
    rw [Nat.pow_zero, Nat.div_one] at hval
    rw [hs, Nat.pow_zero, Nat.mul_one]
    refine ⟨y, ?_, hval, hnorm, hts, hsign y (by rw [hval]; exact h0) hsgn⟩
    rw [mpleft, if_neg htop, if_pos rfl]
    exact hy
  obtain ⟨hlen, hdigits⟩ := leftDigits_spec b shift
  have hleft : ∃ x : mpint, mpleft b shift false mpnew = mpnorm x ∧ val x.digits = val b.digits * 2 ^ shift ∧
      x.sign = b.sign ∧ x.timesafe = false := by
    rw [mpleft, if_neg htop, if_neg hs]
    refine ⟨_, rfl, (congrArg val (load_stored hlen.symm)).trans hdigits, (mpbits_spec _ _).1, ?_⟩
    rw [(mpbits_spec _ _).2.1, hb]
    rfl
  obtain ⟨x, hx, hval, hsgn, hts⟩ := hleft
  obtain ⟨y, hy, -, hnorm, hval', hts', hsgn'⟩ := mpnorm_spec hts
  rw [hsgn] at hsgn'
  exact ⟨y, hx.trans hy, hval'.trans hval, hnorm, hts', hsign y (by rw [hval', hval]; exact hpos) hsgn'⟩

theorem vtomp_iff {v : Int} (hv : v.natAbs < 2 ^ 64) :
    (∀ y, vtomp v b = some y → y.value = v ∧ y.timesafe = b.timesafe) ∧
      ((∃ y, vtomp v b = some y) ↔ (b.timesafe → 0 ≤ v)) := by
  unfold vtomp
  extract_lets b' uv
  have hts : b'.timesafe = b.timesafe := (mpbits_spec b _).2.1
  have hval : val [UInt32.ofNat uv, UInt32.ofNat (uv >>> 32)] = v.natAbs := by
    rw [val_cons, val_singleton, UInt32.toNat_ofNat', UInt32.toNat_ofNat', Nat.shiftRight_eq_div_pow]
    omega
  rw [mpnorm_iff]
  constructor
  · intro y hy
    rw [(mpnorm_same hy).1, (mpnorm_same hy).2]
    refine ⟨?_, hts⟩
    have hdigits := @load_stored 2 b'.p [UInt32.ofNat uv, UInt32.ofNat (uv >>> 32)] rfl
    change (if v < 0 then (-1 : Int) else 1) * ((val (load (store b'.p 0 _) 0 2) : Nat) : Int) = v
    rw [hdigits, hval]
    split <;> omega
  rw [← hts]
  refine forall_congr' fun _ => ?_
  change (if v < 0 then (-1 : Int) else 1) = 1 ↔ 0 ≤ v
  split <;> omega

end Plan9.Mp
