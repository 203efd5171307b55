/-
When `mpdiv` gives the quotient and the remainder (`Plan9.Libmp.Div`).

The digits are right on all three ways (`Plan9.Libmp.DivFacts`); what goes wrong is signs, and what is left above
`top`. Division by a power of two does not look at the sign of the divisor, and reads the lowest digit of a dividend
that may have none. The long way never makes the quotient positive, and takes the sign of the remainder
from the dividend after that may have become the quotient.
-/
import Plan9.Libmp.DivFacts
import Plan9.Libmp.MpintFacts

namespace Plan9.Mp

open Digits Function Memory Option

/-- A normalized number that is not time safe. -/
structure Plain (b : mpint) : Prop extends Normalized b where
  sign : b.sign = 1 ∨ b.sign = -1
  timesafe : b.timesafe = false

section

variable {D V b : mpint} {σ σ' : Mpints} {dividend divisor i : Nat} {quotient remainder place : Option Nat}

theorem val_pos (h : Normalized b) (htop : b.top ≠ 0) : 0 < val b.digits :=
  Nat.lt_of_lt_of_le (Nat.mul_pos (h.high_pos htop) (by positivity)) (val_bounds htop).1

theorem val_lt_of_top_lt (hV : Normalized V) (h : D.top < V.top) : val D.digits < val V.digits := by
  have hlt := val_lt D.digits
  rw [length_digits] at hlt
  have hV0 : V.top ≠ 0 := by omega
  calc val D.digits < (2 ^ 32) ^ D.top := hlt
    _ ≤ (2 ^ 32) ^ (V.top - 1) := Nat.pow_le_pow_right (by decide) (by omega)
    _ ≤ (V.p (V.top - 1)).toNat * (2 ^ 32) ^ (V.top - 1) := Nat.le_mul_of_pos_left _ (hV.high_pos hV0)
    _ ≤ val V.digits := (val_bounds hV0).1

theorem mpmagcmp_spec (hD : Plain D) (hV : Plain V) :
    (mpmagcmp D V < 0 ↔ val D.digits < val V.digits) ∧ (mpmagcmp D V = 0 ↔ val D.digits = val V.digits) := by
  have hts : ¬(D.timesafe || V.timesafe) := by rw [hD.timesafe, hV.timesafe]; exact Bool.false_ne_true
  rw [mpmagcmp, if_neg hts]
  by_cases htop : D.top = V.top
  · rw [if_neg fun h => h.2 htop]
    exact mpveccmp_spec _ _
  rw [if_pos ⟨by rw [hD.norm]; rfl, htop⟩]
  rcases Nat.lt_or_gt_of_ne htop with hlt | hgt
  · have := val_lt_of_top_lt hV.toNormalized hlt
    omega
  · have := val_lt_of_top_lt hD.toNormalized hgt
    omega

/-! ## What is asked for -/

/-- Quotient and remainder of the division that truncates, and nothing else changed. -/
structure Divided (σ σ' : Mpints) (dividend divisor : Nat) (quotient remainder : Option Nat) : Prop where
  quot : ∀ i, quotient = some i → (σ' i).value = (σ dividend).value.tdiv (σ divisor).value
  rem : ∀ i, remainder = some i → (σ' i).value = (σ dividend).value.tmod (σ divisor).value
  frame : ∀ i, quotient ≠ some i → remainder ≠ some i → σ' i = σ i

/-- By a positive number, the values are those that `Libmp.mpdiv` makes of values. -/
theorem Divided.values (h : Divided σ σ' dividend divisor quotient remainder) (hpos : 0 < (σ divisor).value)
    (hlow : (σ dividend).value ≠ 0 ∨ ((σ dividend).p 0).toNat = 0) :
    ∃ q r, Libmp.mpdivOver ((σ dividend).p 0).toNat (σ dividend).value (σ divisor).value = some (q, r) ∧
      (∀ i, quotient = some i → (σ' i).value = q) ∧ ∀ i, remainder = some i → (σ' i).value = r :=
  ⟨_, _, Libmp.mpdivOver_eq hlow hpos, h.quot, h.rem⟩

theorem tdiv_signs {s t : Int} (hs : s = 1 ∨ s = -1) (ht : t = 1 ∨ t = -1) (a b : Nat) :
    (s * a).tdiv (t * b) = s * t * (a / b : Nat) := by
  rcases hs with rfl | rfl <;> rcases ht with rfl | rfl <;> simp [Int.neg_tdiv, Int.tdiv_neg]

theorem tmod_signs {s t : Int} (hs : s = 1 ∨ s = -1) (ht : t = 1 ∨ t = -1) (a b : Nat) :
    (s * a).tmod (t * b) = s * (a % b : Nat) := by
  rcases hs with rfl | rfl <;> rcases ht with rfl | rfl <;> 
    simp [Int.neg_tmod, Int.tmod_neg, Int.tmod_eq_emod_of_nonneg]

theorem tdiv_value (hD : Plain D) (hV : Plain V) :
    D.value.tdiv V.value = D.sign * V.sign * (val D.digits / val V.digits : Nat) :=
  tdiv_signs hD.sign hV.sign _ _

theorem tmod_value (hD : Plain D) (hV : Plain V) : D.value.tmod V.value = D.sign * (val D.digits % val V.digits : Nat) :=
  tmod_signs hD.sign hV.sign _ _

/-! ## A power of two -/

/-- One or a power of two, in one digit. -/
def Small (V : mpint) : Prop := V.top = 1 ∧ V.p 0 &&& V.p 0 - 1 = 0

instance : Decidable (Small V) := inferInstanceAs (Decidable (_ ∧ _))

theorem lowLoop_spec {v : mpdigit} {j : Nat} (hv : v.toNat = 2 ^ j) (hj : j < 32) :
    ∀ k s, j < s + k → s ≤ j → lowLoop v k s = some j
  | 0, s, hk, hs => by omega
  | k + 1, s, hk, hs => by
    have hbit : (v >>> UInt32.ofNat s &&& 1).toNat = 2 ^ (j - s) % 2 := by
      rw [UInt32.toNat_and, toNat_shr v (by omega), hv, Nat.pow_div hs (by decide)]
      exact Nat.and_two_pow_sub_one_eq_mod _ 1
    rw [lowLoop]
    rcases Nat.eq_or_lt_of_le hs with rfl | hlt
    · rw [if_neg]
      intro hzero
      rw [hzero, Nat.sub_self] at hbit
      exact absurd hbit (by decide)
    rw [if_pos]
    · exact lowLoop_spec hv hj k (s + 1) (by omega) hlt
    · rw [← UInt32.toNat_inj, hbit, show j - s = (j - s - 1) + 1 by omega, Nat.pow_succ, Nat.mul_mod_left]
      rfl

theorem Small.spec (hsmall : Small V) (hV : Normalized V) : ∃ j < 32, val V.digits = 2 ^ j ∧ lowLoop (V.p 0) 32 0 = some j ∧
    ∀ x : mpdigit, (x &&& V.p 0 - 1).toNat = x.toNat % 2 ^ j := by
  obtain ⟨htop, hand⟩ := hsmall
  have hdigits : V.digits = [V.p 0] := by rw [mpint.digits, htop]; rfl
  have hpos : 0 < (V.p 0).toNat := by
    have := hV.high_pos (by omega)
    rwa [htop] at this
  have hpred : (V.p 0 - 1).toNat = (V.p 0).toNat - 1 := by
    have hone : (1 : UInt32).toNat = 1 := rfl
    rw [UInt32.toNat_sub_of_le _ 1 (UInt32.le_iff_toNat_le.2 hpos), hone]
  have hnat : (V.p 0).toNat &&& (V.p 0).toNat - 1 = 0 := by
    have := congrArg UInt32.toNat hand
    rwa [UInt32.toNat_and, hpred] at this
  obtain ⟨j, hj⟩ := (Nat.and_sub_one_eq_zero_iff_isPowerOfTwo (by omega)).1 hnat
  have hlt := (V.p 0).toNat_lt
  have hj32 : j < 32 := (Nat.pow_lt_pow_iff_right (show 1 < 2 by decide)).1 (by rw [← hj]; exact hlt)
  refine ⟨j, hj32, by rw [hdigits, val_singleton, hj], lowLoop_spec hj hj32 32 0 (by omega) (by omega), fun x => ?_⟩
  rw [UInt32.toNat_and, hpred, hj]
  exact Nat.and_two_pow_sub_one_eq_mod _ j

/-! ## Places -/

theorem whenGiven_iff {f : Nat → Option Mpints} {P : Nat → Prop}
    (hf : ∀ i, place = some i → ((∃ σ', f i = some σ') ↔ P i)) :
    (∃ σ', whenGiven place σ f = some σ') ↔ ∀ i, place = some i → P i := by
  cases place with
  | none => exact ⟨fun _ _ h => (nomatch h), fun _ => ⟨σ, rfl⟩⟩
  | some i => exact (hf i rfl).trans ⟨fun h _ hi => some.inj hi ▸ h, fun h => h i rfl⟩

theorem whenGiven_some {f : Nat → Option Mpints} {Q : Nat → Mpints → Prop}
    (hf : ∀ i σ', place = some i → f i = some σ' → Q i σ' ∧ ∀ x, x ≠ i → σ' x = σ x) (h : whenGiven place σ f = some σ') :
    (∀ i, place = some i → Q i σ') ∧ ∀ x, place ≠ some x → σ' x = σ x := by
  cases place with
  | none =>
    rw [← some.inj h]
    exact ⟨fun _ h => (nomatch h), fun _ _ => rfl⟩
  | some i =>
    obtain ⟨hQ, hframe⟩ := hf i σ' rfl h
    exact ⟨fun _ hi => some.inj hi ▸ hQ, fun x hx => hframe x fun hxi => hx (congrArg some hxi.symm)⟩

theorem update_spec {f : Option mpint} {Q : mpint → Prop} {P : Prop} (hQ : ∀ y, f = some y → Q y)
    (hP : (∃ y, f = some y) ↔ P) :
    (∀ σ', (do
        let y ← f
        some (update σ i y)) = some σ' → Q (σ' i) ∧ ∀ x, x ≠ i → σ' x = σ x) ∧
      ((∃ σ', (do
        let y ← f
        some (update σ i y)) = some σ') ↔ P) := by
  constructor
  · intro σ' h
    obtain ⟨y, hy, h⟩ := bind_eq_some_iff.1 h
    rw [← some.inj h, update_self]
    exact ⟨hQ y hy, fun x hx => update_of_ne hx ..⟩
  rw [← hP]
  constructor
  · rintro ⟨σ', h⟩
    obtain ⟨y, hy, -⟩ := bind_eq_some_iff.1 h
    exact ⟨y, hy⟩
  · rintro ⟨y, hy⟩
    exact ⟨_, by rw [hy]; rfl⟩

theorem smallQuotient_spec (hD : Plain (σ dividend)) {v : mpdigit} {j : Nat} (hv : lowLoop v 32 0 = some j) (hj : j < 32)
    (i : Nat) :
    (∀ σ', smallQuotient σ dividend v i = some σ' →
        ((σ' i).value = (σ dividend).sign * (val (σ dividend).digits / 2 ^ j : Nat) ∧
          (σ' i).timesafe = (σ i).timesafe) ∧ ∀ x, x ≠ i → σ' x = σ x) ∧
      ((∃ σ', smallQuotient σ dividend v i = some σ') ↔
        ((σ i).timesafe → (σ dividend).top = 0 ∨ (σ dividend).sign = 1)) := by
  obtain ⟨hvalue, hiff⟩ := @mpright_iff (σ dividend) (σ i) j (dividend = i) hD.timesafe hj fun h => by
    rw [of_decide_eq_true h]
  unfold smallQuotient
  rw [hv]
  exact update_spec hvalue hiff

theorem smallRemainder_spec (hts : (σ dividend).timesafe = false) {r : Int} (hr : r.natAbs < 2 ^ 64) (i : Nat) :
    (∀ σ', smallRemainder σ dividend r i = some σ' → (σ' i).value = r ∧ ∀ x, x ≠ i → σ' x = σ x) ∧
      ((∃ σ', smallRemainder σ dividend r i = some σ') ↔ ((σ i).timesafe → 0 ≤ r)) := by
  obtain ⟨hvalue, hiff⟩ := @vtomp_iff { σ i with timesafe := (σ i).timesafe || (σ dividend).timesafe } r hr
  unfold smallRemainder
  rw [hts, Bool.or_false] at hiff hvalue ⊢
  exact update_spec (fun y hy => (hvalue y hy).1) hiff

theorem quot_iff (hD : Plain D) (hV : Plain V) (hpos : 0 < val V.digits) :
    D.sign * (val D.digits / val V.digits : Nat) = D.value.tdiv V.value ↔
      V.sign = 1 ∨ val D.digits < val V.digits := by
  rw [tdiv_value hD hV]
  by_cases hlt : val D.digits < val V.digits
  · rw [Nat.div_eq_of_lt hlt]
    exact ⟨fun _ => .inr hlt, fun _ => by rw [Int.natCast_zero, Int.mul_zero, Int.mul_zero]⟩
  rcases hV.sign with hs | hs <;> rw [hs]
  · rw [Int.mul_one]
    exact ⟨fun _ => .inl rfl, fun _ => rfl⟩
  · have hq : 0 < val D.digits / val V.digits := Nat.div_pos (Nat.le_of_not_lt hlt) hpos
    rcases hD.sign with hd | hd <;> rw [hd] <;> omega

theorem rem_iff (hD : Plain D) (hV : Plain V) (hsmall : Small V) :
    D.sign * (D.p 0 &&& V.p 0 - 1).toNat = D.value.tmod V.value ↔ D.top ≠ 0 ∨ D.p 0 &&& V.p 0 - 1 = 0 := by
  obtain ⟨j, hj, hval, -, hand⟩ := hsmall.spec hV.toNormalized
  rw [tmod_value hD hV, hval]
  by_cases htop : D.top = 0
  · rw [List.eq_nil_of_length_eq_zero ((length_digits D).trans htop), val_nil, Nat.zero_mod, Int.natCast_zero, Int.mul_zero,
      ← UInt32.toNat_inj, UInt32.toNat_zero]
    rcases hD.sign with hs | hs <;> rw [hs] <;> omega
  have hlow : val D.digits % 2 ^ j = (D.p 0).toNat % 2 ^ j := by
    obtain ⟨t, ht⟩ := Nat.exists_eq_succ_of_ne_zero htop
    have hdigits : D.digits = D.p 0 :: load D.p (0 + 1) t := by
      rw [mpint.digits, ht, ← Nat.add_one, Nat.add_comm, load_add]
      rfl
    have hpow : (2 : Nat) ^ 32 = 2 ^ j * 2 ^ (32 - j) := by rw [← Nat.pow_add, Nat.add_sub_cancel' (Nat.le_of_lt hj)]
    rw [hdigits, val_cons, hpow, Nat.mul_assoc, Nat.add_mul_mod_self_left]
  rw [hand, hlow]
  exact ⟨fun _ => .inl htop, fun _ => rfl⟩

theorem divSmall_iff (hD : Plain (σ dividend)) (hV : Plain (σ divisor)) (hsmall : Small (σ divisor))
    (hne : quotient ≠ remainder) :
    (∃ σ', divSmall σ dividend divisor quotient remainder = some σ' ∧ Divided σ σ' dividend divisor quotient remainder) ↔
      (∀ i, quotient = some i → ((σ divisor).sign = 1 ∨ val (σ dividend).digits < val (σ divisor).digits) ∧
        ((σ i).timesafe → (σ dividend).top = 0 ∨ (σ dividend).sign = 1)) ∧
      ∀ i, remainder = some i → ((σ dividend).top ≠ 0 ∨ (σ dividend).p 0 &&& (σ divisor).p 0 - 1 = 0) ∧
        ((σ i).timesafe → (σ dividend).sign = 1 ∨ (σ dividend).p 0 &&& (σ divisor).p 0 - 1 = 0) := by
  obtain ⟨j, hj, hval, hlow, -⟩ := hsmall.spec hV.toNormalized
  have hpos := val_pos hV.toNormalized (by rw [hsmall.1]; decide)
  have hquot := quot_iff hD hV hpos
  have hrem := rem_iff hD hV hsmall
  have hspec := smallQuotient_spec hD hlow hj
  rw [← hval] at hspec
  have hr64 : ((σ dividend).sign * ((σ dividend).p 0 &&& (σ divisor).p 0 - 1).toNat : Int).natAbs < 2 ^ 64 := by
    have hlt := ((σ dividend).p 0 &&& (σ divisor).p 0 - 1).toNat_lt
    rcases hD.sign with hs | hs <;> rw [hs] <;> omega
  have hnonneg : 0 ≤ (σ dividend).sign * ((σ dividend).p 0 &&& (σ divisor).p 0 - 1).toNat ↔
      (σ dividend).sign = 1 ∨ (σ dividend).p 0 &&& (σ divisor).p 0 - 1 = 0 := by
    rw [← UInt32.toNat_inj, UInt32.toNat_zero]
    rcases hD.sign with hs | hs <;> rw [hs] <;> omega
  unfold divSmall
  dsimp only
  generalize (σ dividend).sign * ((σ dividend).p 0 &&& (σ divisor).p 0 - 1).toNat = r at hrem hr64 hnonneg ⊢
  -- what the first half leaves to the second
  have hfirst : ∀ σ1, whenGiven quotient σ (smallQuotient σ dividend ((σ divisor).p 0)) = some σ1 →
      (∀ i, quotient = some i → (σ1 i).value = (σ dividend).sign * (val (σ dividend).digits / val (σ divisor).digits : Nat)) ∧
        (∀ x, quotient ≠ some x → σ1 x = σ x) ∧ (σ1 dividend).timesafe = false := by
    intro σ1 h1
    obtain ⟨hQ, hframe⟩ := whenGiven_some (fun i σ' _ hi => (hspec i).1 σ' hi) h1
    refine ⟨fun i hi => (hQ i hi).1, hframe, ?_⟩
    by_cases hq : quotient = some dividend
    · exact (hQ dividend hq).2.trans hD.timesafe
    · rw [hframe dividend hq]
      exact hD.timesafe
  have hsecond : ∀ σ1, (∀ x, quotient ≠ some x → σ1 x = σ x) → (σ1 dividend).timesafe = false →
      (∀ σ2, whenGiven remainder σ1 (smallRemainder σ1 dividend r) = some σ2 →
        (∀ i, remainder = some i → (σ2 i).value = r) ∧ ∀ x, remainder ≠ some x → σ2 x = σ1 x) ∧
      ((∃ σ2, whenGiven remainder σ1 (smallRemainder σ1 dividend r) = some σ2) ↔
        ∀ i, remainder = some i → ((σ i).timesafe → 0 ≤ r)) := by
    intro σ1 hframe hts
    have hspec2 := smallRemainder_spec hts hr64
    refine ⟨fun σ2 h2 => whenGiven_some (fun i σ' _ hi => (hspec2 i).1 σ' hi) h2, whenGiven_iff fun i hi => ?_⟩
    rw [← hframe i fun hq => hne (hq.trans hi.symm)]
    exact (hspec2 i).2
  constructor
  · rintro ⟨σ2, hdo, hdiv⟩
    obtain ⟨σ1, h1, h2⟩ := bind_eq_some_iff.1 hdo
    obtain ⟨hval1, hframe1, hts⟩ := hfirst σ1 h1
    obtain ⟨hval2, hframe2⟩ := (hsecond σ1 hframe1 hts).1 σ2 h2
    refine ⟨fun i hi => ⟨?_, (whenGiven_iff fun i _ => (hspec i).2).1 ⟨σ1, h1⟩ i hi⟩, fun i hi => ⟨?_, fun ht => ?_⟩⟩
    · rw [← hquot, ← hval1 i hi, ← hframe2 i fun hr => hne (hi.trans hr.symm)]
      exact hdiv.quot i hi
    · rw [← hrem, ← hval2 i hi]
      exact hdiv.rem i hi
    · rw [← hnonneg]
      exact (hsecond σ1 hframe1 hts).2.1 ⟨σ2, h2⟩ i hi ht
  rintro ⟨hq, hr⟩
  obtain ⟨σ1, h1⟩ := (whenGiven_iff fun i _ => (hspec i).2).2 fun i hi => (hq i hi).2
  obtain ⟨hval1, hframe1, hts⟩ := hfirst σ1 h1
  obtain ⟨hval2, hexists⟩ := hsecond σ1 hframe1 hts
  obtain ⟨σ2, h2⟩ := hexists.2 fun i hi ht => hnonneg.2 ((hr i hi).2 ht)
  obtain ⟨hval2, hframe2⟩ := hval2 σ2 h2
  refine ⟨σ2, bind_eq_some_iff.2 ⟨σ1, h1, h2⟩, fun i hi => ?_, fun i hi => ?_, fun i hqi hri => ?_⟩
  · rw [hframe2 i fun hri => hne (hi.trans hri.symm), hval1 i hi]
    exact hquot.2 (hq i hi).1
  · rw [hval2 i hi]
    exact hrem.2 (hr i hi).1
  · rw [hframe2 i hri, hframe1 i hqi]

/-! ## A smaller number -/

theorem divLess_divided (hD : Plain (σ dividend)) (hV : Plain (σ divisor))
    (hlt : val (σ dividend).digits < val (σ divisor).digits) (hne : quotient ≠ remainder) :
    Divided σ (divLess σ dividend quotient remainder) dividend divisor quotient remainder := by
  have hquot : (σ dividend).value.tdiv (σ divisor).value = 0 := by
    rw [tdiv_value hD hV, Nat.div_eq_of_lt hlt]
    exact Int.mul_zero _
  have hrem : (σ dividend).value.tmod (σ divisor).value = (σ dividend).value := by
    rw [tmod_value hD hV, Nat.mod_eq_of_lt hlt]
    rfl
  unfold divLess
  extract_lets σ1
  have hfirst : (∀ i, remainder = some i → (σ1 i).value = (σ dividend).value) ∧ ∀ x, remainder ≠ some x → σ1 x = σ x := by
    cases remainder with
    | none => exact ⟨fun _ h => (nomatch h), fun _ _ => rfl⟩
    | some i =>
      by_cases hi : i = dividend
      · rw [show σ1 = σ from if_pos hi]
        exact ⟨fun x hx => by rw [← some.inj hx, hi], fun _ _ => rfl⟩
      · rw [show σ1 = _ from if_neg hi]
        refine ⟨fun x hx => ?_, fun x hx => update_of_ne (fun hxi => hx (congrArg some hxi.symm)) ..⟩
        rw [← some.inj hx, update_self, value_mpassign]
  cases quotient with
  | none =>
    exact ⟨fun _ h => (nomatch h), fun i hi => (hfirst.1 i hi).trans hrem.symm, fun i _ hi => hfirst.2 i hi⟩
  | some iq =>
    dsimp only
    refine ⟨fun i hi => ?_, fun i hi => ?_, fun i hqi hri => ?_⟩
    · rw [← some.inj hi, update_self, value_mpassign, hquot]
      rfl
    · rw [update_of_ne (fun hiq => hne (by rw [hi, hiq])), hfirst.1 i hi, hrem]
    · rw [update_of_ne (fun hiq => hqi (congrArg some hiq.symm)), hfirst.2 i hri]

/-! ## The long way -/

theorem storeQuotient_spec {n : Nat} {q : List mpdigit} (hlen : q.length = n) (hpos : 0 < val q) (i : Nat) :
    (∀ σ', storeQuotient σ dividend divisor n q i = some σ' →
        ((σ' i).value = (if (σ dividend).sign ≠ (σ divisor).sign then -1 else (σ i).sign) * (val q : Nat) ∧
          (σ' i).sign = if (σ dividend).sign ≠ (σ divisor).sign then -1 else (σ i).sign) ∧ ∀ x, x ≠ i → σ' x = σ x) ∧
      ((∃ σ', storeQuotient σ dividend divisor n q i = some σ') ↔ (σ i).timesafe = false) := by
  obtain ⟨hsign, hts, -⟩ := mpbits_spec (σ i) (n * 32)
  unfold storeQuotient
  extract_lets b b'
  cases hsafe : b'.timesafe with
  | true =>
    refine ⟨fun σ' h => (nomatch h), fun h => ?_, fun h => ?_⟩
    · obtain ⟨_, h⟩ := h
      cases h
    · exact absurd (h.symm.trans (hts.symm.trans hsafe)) Bool.false_ne_true
  | false =>
    obtain ⟨y, hy, -, -, hval, hyt, hysign⟩ := mpnorm_spec hsafe
    have hdigits : val b'.digits = val q := congrArg val (load_stored hlen.symm)
    have hy0 : y.top ≠ 0 := top_ne_zero (by rw [hval, hdigits]; exact hpos)
    rw [if_neg hy0, show b'.sign = (σ i).sign from hsign] at hysign
    have hsame : ∀ x, (update σ i y x).sign = (σ x).sign := by
      intro x
      by_cases hx : x = i
      · rw [hx, update_self, hysign]
      · rw [update_of_ne hx]
    have hiff : (∃ σ', some (if (update σ i y dividend).sign ≠ (update σ i y divisor).sign then
        update (update σ i y) i { y with sign := -1 } else update σ i y) = some σ') ↔
        (σ i).timesafe = false := ⟨fun _ => hts.symm.trans hsafe, fun _ => ⟨_, rfl⟩⟩
    rw [if_neg Bool.false_ne_true, hy]
    refine ⟨fun σ' h => ?_, hiff⟩
    rw [← some.inj h, hsame, hsame]
    by_cases hs : (σ dividend).sign ≠ (σ divisor).sign
    · rw [if_pos hs, if_pos hs, update_idem, update_self]
      refine ⟨⟨?_, rfl⟩, fun x hx => update_of_ne hx ..⟩
      exact congrArg (fun m : Nat => (-1 : Int) * m) (hval.trans hdigits)
    · rw [if_neg hs, if_neg hs, update_self]
      refine ⟨⟨?_, hysign⟩, fun x hx => update_of_ne hx ..⟩
      rw [mpint.value, hysign, hval, hdigits]

theorem storeRemainder_spec {u : mpint} {s m : Nat} (hu0 : u.top ≠ 0) (hut : u.timesafe = false) (hs : s < 32)
    (hval : val u.digits = m * 2 ^ s) (i : Nat) :
    (∀ σ', storeRemainder σ dividend s u i = some σ' →
        ((σ' i).value = (if i = dividend then u.sign else (σ dividend).sign) * (m : Nat) ∧ val (σ' i).digits = m ∧
          Normalized (σ' i)) ∧ ∀ x, x ≠ i → σ' x = σ x) ∧
      ((∃ σ', storeRemainder σ dividend s u i = some σ') ↔ (σ i).timesafe = false) := by
  unfold storeRemainder
  cases hts : (σ i).timesafe with
  | true =>
    refine ⟨fun σ' h => (nomatch h), fun h => ?_, fun h => (nomatch h)⟩
    obtain ⟨_, h⟩ := h
    cases h
  | false =>
    obtain ⟨y, hy, hyval, hynorm, -, hysign⟩ := @mpright_other u (σ i) s hu0 (by omega) hut hts
    rw [hval, Nat.mul_div_cancel _ (Nat.two_pow_pos s)] at hyval
    rw [if_neg Bool.false_ne_true, hy]
    refine ⟨fun σ' h => ?_, fun _ => rfl, fun _ => ⟨_, rfl⟩⟩
    rw [← some.inj h]
    refine ⟨?_, fun x hx => by rw [update_of_ne hx, update_of_ne hx]⟩
    rw [update_self]
    refine ⟨?_, hyval, hynorm.norm, hynorm.high⟩
    change (update σ i y dividend).sign * (val y.digits : Int) = _
    rw [hyval]
    by_cases hi : i = dividend
    · rw [hi, update_self, if_pos rfl, hysign]
      by_cases hy0 : y.top = 0
      · rw [List.eq_nil_of_length_eq_zero ((length_digits y).trans hy0), val_nil] at hyval
        rw [← hyval]
        exact (Int.mul_zero _).trans (Int.mul_zero _).symm
      · rw [if_neg hy0]
    · rw [update_of_ne fun h => hi h.symm, if_neg hi]

theorem long_quot_iff (hD : Plain D) (hV : Plain V) {t : Int} {q : Nat} (hq : 0 < q) :
    (if D.sign ≠ V.sign then -1 else t) * (q : Int) = D.sign * V.sign * q ↔ D.sign ≠ V.sign ∨ t = 1 := by
  by_cases hs : D.sign ≠ V.sign
  · refine ⟨fun _ => .inl hs, fun _ => ?_⟩
    rcases hD.sign with hd | hd <;> rcases hV.sign with hv | hv <;> rw [hd, hv] at hs ⊢ <;>
      first | rfl | exact absurd rfl hs
  rw [if_neg hs]
  have hsq : D.sign * V.sign = 1 := by
    rcases hD.sign with hd | hd <;> rcases hV.sign with hv | hv <;> rw [hd, hv] at hs ⊢ <;>
      first | rfl | exact absurd (by decide) hs
  rw [hsq, mul_left_inj' (show (q : Int) ≠ 0 by omega)]
  exact ⟨.inr, fun h => h.resolve_left hs⟩

theorem long_rem_iff (hD : Plain D) (hV : Plain V) {c : Prop} [Decidable c] {m : Nat} :
    (if c ∧ D.sign ≠ V.sign then -1 else D.sign) * (m : Int) = D.sign * m ↔
      (c → D.sign = 1 → V.sign = -1 → m = 0) := by
  by_cases h : c ∧ D.sign ≠ V.sign
  · rw [if_pos h]
    rcases hD.sign with hd | hd <;> rcases hV.sign with hv | hv <;> rw [hd, hv] at h ⊢
    · exact absurd rfl h.2
    · exact ⟨fun hm _ _ _ => by omega, fun hm => by rw [hm h.1 rfl rfl]; rfl⟩
    · exact ⟨fun _ _ hne => absurd hne (by decide), fun _ => rfl⟩
    · exact absurd rfl h.2
  rw [if_neg h]
  refine ⟨fun _ hc hd hv => absurd ⟨hc, ?_⟩ h, fun _ => rfl⟩
  rw [hd, hv]
  decide

theorem divLong_stages (hD : Plain (σ dividend)) (hV : Plain (σ divisor)) (hpos : 0 < val (σ divisor).digits)
    (hle : val (σ divisor).digits ≤ val (σ dividend).digits) :
    ∃ s n q u, divLong σ dividend divisor quotient remainder =
        ((whenGiven quotient σ (storeQuotient σ dividend divisor n q)).bind fun σ1 =>
          whenGiven remainder σ1 (storeRemainder σ1 dividend s u)) ∧
      q.length = n ∧ val q = val (σ dividend).digits / val (σ divisor).digits ∧ u.top ≠ 0 ∧ u.timesafe = false ∧
      u.sign = (σ dividend).sign ∧ s < 32 ∧ val u.digits = val (σ dividend).digits % val (σ divisor).digits * 2 ^ s := by
  obtain ⟨s, u, v, q, p, hs, hshift, hs32, hlong, htop, hv0, husign, hut, hqlen, hq, hr⟩ :=
    long_digits hV.toNormalized hD.timesafe hV.timesafe hpos hle
      (some divisor ≠ quotient ∧ some divisor ≠ remainder)
  refine ⟨s, (divExtend u v).top - v.top, q, { divExtend u v with p := p, top := v.top }, ?_, hqlen, hq, hv0, hut, husign,
    hs32, hr⟩
  unfold divLong
  dsimp only
  rw [hs]
  dsimp only [bind_eq_bind, bind_some]
  rw [hshift]
  dsimp only [bind_some]
  rw [hlong, Nat.sub_sub_self htop]

theorem divLong_iff (hD : Plain (σ dividend)) (hV : Plain (σ divisor)) (hpos : 0 < val (σ divisor).digits)
    (hle : val (σ divisor).digits ≤ val (σ dividend).digits) (hne : quotient ≠ remainder) :
    (∃ σ', divLong σ dividend divisor quotient remainder = some σ' ∧ Divided σ σ' dividend divisor quotient remainder) ↔
      (∀ i, quotient = some i → (σ i).timesafe = false ∧ ((σ dividend).sign ≠ (σ divisor).sign ∨ (σ i).sign = 1)) ∧
      ∀ i, remainder = some i → (σ i).timesafe = false ∧ (quotient = some dividend → (σ dividend).sign = 1 →
        (σ divisor).sign = -1 → val (σ divisor).digits ∣ val (σ dividend).digits) := by
  obtain ⟨s, n, q, u, hdo, hqlen, hq, hu0, hut, husign, hs32, hr⟩ :=
    @divLong_stages σ dividend divisor quotient remainder hD hV hpos hle
  have hqpos : 0 < val q := by rw [hq]; exact Nat.div_pos hle hpos
  have hquot := fun t => @long_quot_iff (σ dividend) (σ divisor) hD hV t _ hqpos
  have hrem := @long_rem_iff (σ dividend) (σ divisor) hD hV (quotient = some dividend) _
    (val (σ dividend).digits % val (σ divisor).digits)
  simp only [← Nat.dvd_iff_mod_eq_zero] at hrem
  have hspec1 := @storeQuotient_spec σ dividend divisor n q hqlen hqpos
  have hspec2 := fun σ1 : Mpints => @storeRemainder_spec σ1 dividend u s
    (val (σ dividend).digits % val (σ divisor).digits) hu0 hut hs32 hr
  -- what the first half leaves to the second
  have hfirst : ∀ σ1, whenGiven quotient σ (storeQuotient σ dividend divisor n q) = some σ1 →
      (∀ i, quotient = some i →
        (σ1 i).value = (if (σ dividend).sign ≠ (σ divisor).sign then -1 else (σ i).sign) * (val q : Nat)) ∧
      (∀ x, quotient ≠ some x → σ1 x = σ x) ∧ (σ1 dividend).sign =
        if quotient = some dividend ∧ (σ dividend).sign ≠ (σ divisor).sign then -1 else (σ dividend).sign := by
    intro σ1 h1
    obtain ⟨hQ, hframe⟩ := whenGiven_some (fun i σ' _ hi => (hspec1 i).1 σ' hi) h1
    refine ⟨fun i hi => (hQ i hi).1, hframe, ?_⟩
    by_cases hqd : quotient = some dividend
    · rw [(hQ dividend hqd).2]
      exact if_congr ⟨fun h => ⟨hqd, h⟩, fun h => h.2⟩ rfl rfl
    · rw [hframe dividend hqd, if_neg fun h => hqd h.1]
  have hsecond : ∀ σ1, (∀ x, quotient ≠ some x → σ1 x = σ x) → ((σ1 dividend).sign =
        if quotient = some dividend ∧ (σ dividend).sign ≠ (σ divisor).sign then -1 else (σ dividend).sign) →
      (∀ σ2, whenGiven remainder σ1 (storeRemainder σ1 dividend s u) = some σ2 →
        (∀ i, remainder = some i → (σ2 i).value =
          (if quotient = some dividend ∧ (σ dividend).sign ≠ (σ divisor).sign then -1 else (σ dividend).sign) *
            (val (σ dividend).digits % val (σ divisor).digits : Nat)) ∧ ∀ x, remainder ≠ some x → σ2 x = σ1 x) ∧
      ((∃ σ2, whenGiven remainder σ1 (storeRemainder σ1 dividend s u) = some σ2) ↔
        ∀ i, remainder = some i → (σ i).timesafe = false) := by
    intro σ1 hframe hsign
    refine ⟨fun σ2 h2 => ?_, whenGiven_iff fun i hi => ?_⟩
    · refine whenGiven_some (Q := fun i σ2 => (σ2 i).value =
        (if quotient = some dividend ∧ (σ dividend).sign ≠ (σ divisor).sign then -1 else (σ dividend).sign) *
          (val (σ dividend).digits % val (σ divisor).digits : Nat)) (fun i σ' hi h => ?_) h2
      obtain ⟨⟨hval, -⟩, hframe2⟩ := (hspec2 σ1 i).1 σ' h
      refine ⟨?_, hframe2⟩
      rw [hval, hsign]
      by_cases hid : i = dividend
      · rw [if_pos hid, if_neg fun h => hne (h.1.trans (hid ▸ hi.symm))]
        exact congrArg (· * _) husign
      · rw [if_neg hid]
    · rw [← hframe i fun hq => hne (hq.trans hi.symm)]
      exact (hspec2 σ1 i).2
  rw [hdo]
  constructor
  · rintro ⟨σ2, hdo, hdiv⟩
    obtain ⟨σ1, h1, h2⟩ := bind_eq_some_iff.1 hdo
    obtain ⟨hval1, hframe1, hsign⟩ := hfirst σ1 h1
    obtain ⟨hval2, hframe2⟩ := (hsecond σ1 hframe1 hsign).1 σ2 h2
    refine ⟨fun i hi => ⟨(whenGiven_iff fun i _ => (hspec1 i).2).1 ⟨σ1, h1⟩ i hi, ?_⟩, fun i hi => ⟨?_, ?_⟩⟩
    · rw [← hquot, hq, ← tdiv_value hD hV, ← hq, ← hval1 i hi, ← hframe2 i fun hr => hne (hi.trans hr.symm)]
      exact hdiv.quot i hi
    · exact (hsecond σ1 hframe1 hsign).2.1 ⟨σ2, h2⟩ i hi
    · rw [← hrem, ← tmod_value hD hV, ← hval2 i hi]
      exact hdiv.rem i hi
  rintro ⟨hcq, hcr⟩
  obtain ⟨σ1, h1⟩ := (whenGiven_iff fun i _ => (hspec1 i).2).2 fun i hi => (hcq i hi).1
  obtain ⟨hval1, hframe1, hsign⟩ := hfirst σ1 h1
  obtain ⟨hval2, hexists⟩ := hsecond σ1 hframe1 hsign
  obtain ⟨σ2, h2⟩ := hexists.2 fun i hi => (hcr i hi).1
  obtain ⟨hval2, hframe2⟩ := hval2 σ2 h2
  refine ⟨σ2, bind_eq_some_iff.2 ⟨σ1, h1, h2⟩, fun i hi => ?_, fun i hi => ?_, fun i hqi hri => ?_⟩
  · rw [hframe2 i fun hri => hne (hi.trans hri.symm), hval1 i hi, tdiv_value hD hV, ← hq]
    exact (hquot _).2 (hcq i hi).2
  · rw [hval2 i hi, tmod_value hD hV]
    exact hrem.2 (hcr i hi).2
  · rw [hframe2 i hri, hframe1 i hqi]

/-! ## The three ways -/

/-- When `mpdiv` divides. By one or a power of two: the divisor is positive or above the dividend, and a dividend
without digits has none below the divisor left behind. The long way: the quotient comes out negative or was positive before,
and is not put into a positive dividend that a negative divisor does not divide, with a remainder asked for. A time safe
result is not negative, and not asked for the long way. -/
def DivOk (σ : Mpints) (dividend divisor : Nat) (quotient remainder : Option Nat) : Prop :=
  let D := σ dividend
  let V := σ divisor
  if Small V then
    (∀ i, quotient = some i → (V.sign = 1 ∨ val D.digits < val V.digits) ∧ ((σ i).timesafe → D.top = 0 ∨ D.sign = 1)) ∧
      ∀ i, remainder = some i → (D.top ≠ 0 ∨ D.p 0 &&& V.p 0 - 1 = 0) ∧
        ((σ i).timesafe → D.sign = 1 ∨ D.p 0 &&& V.p 0 - 1 = 0)
  else
    val D.digits < val V.digits ∨
      (∀ i, quotient = some i → (σ i).timesafe = false ∧ (D.sign ≠ V.sign ∨ (σ i).sign = 1)) ∧
        ∀ i, remainder = some i → (σ i).timesafe = false ∧
          (quotient = some dividend → D.sign = 1 → V.sign = -1 → val V.digits ∣ val D.digits)

/-- **`mpdiv`** divides just then, whichever places are one and whatever stands above `top`. -/
theorem mpdiv_iff (hD : Plain (σ dividend)) (hV : Plain (σ divisor)) (h0 : (σ divisor).top ≠ 0) (hne : quotient ≠ remainder) :
    (∃ σ', mpdiv σ dividend divisor quotient remainder = some σ' ∧ Divided σ σ' dividend divisor quotient remainder) ↔
      DivOk σ dividend divisor quotient remainder := by
  have hnorm : ¬(σ divisor).norm = false := by rw [hV.norm]; exact Bool.noConfusion
  have hts : ¬(σ dividend).timesafe := by rw [hD.timesafe]; exact Bool.false_ne_true
  obtain ⟨hcmp, -⟩ := mpmagcmp_spec hD hV
  unfold mpdiv DivOk
  extract_lets D V
  rw [if_neg hne, if_neg hnorm, if_neg h0]
  by_cases hsmall : Small V
  · rw [if_pos hsmall, if_pos (show V.top = 1 ∧ V.p 0 &&& V.p 0 - 1 = 0 from hsmall)]
    exact divSmall_iff hD hV hsmall hne
  rw [if_neg hsmall, if_neg (show ¬(V.top = 1 ∧ V.p 0 &&& V.p 0 - 1 = 0) from hsmall), if_neg hts]
  by_cases hlt : mpmagcmp D V < 0
  · rw [if_pos hlt]
    exact ⟨fun _ => .inl (hcmp.1 hlt), fun _ => ⟨_, rfl, divLess_divided hD hV (hcmp.1 hlt) hne⟩⟩
  · have hle := Nat.le_of_not_lt (mt hcmp.2 hlt)
    rw [if_neg hlt, or_iff_right (Nat.not_lt.2 hle)]
    exact divLong_iff hD hV (val_pos hV.toNormalized h0) hle hne

end

/-- A number of one digit, with the digit above `top` as well. -/
def oneDigit (sign : Int) (d : mpdigit) : mpint := { sign := sign, top := 1, p := fun _ => d, timesafe := false, norm := true }

/-- A negative number of three digits, and one of two. -/
def longNumber (i : Nat) : mpint :=
  let digits : List mpdigit := if i = 0 then [1, 0xffffffff, 0x80000000] else [7, 0x40000000]
  { sign := if i = 0 then -1 else 1, top := digits.length, p := fun k => digits.getD k 0, timesafe := false, norm := true }

/-- By two digits, into new places. -/
theorem mpdiv_two_digits :
    ∃ σ', mpdiv longNumber 0 1 (some 2) (some 3) = some σ' ∧ Divided longNumber σ' 0 1 (some 2) (some 3) := by
  have hnot : ¬Small (longNumber 1) := by decide
  refine (mpdiv_iff ⟨⟨rfl, .inr (by decide)⟩, .inr rfl, rfl⟩ ⟨⟨rfl, .inr (by decide)⟩, .inl rfl, rfl⟩ (by decide) (by decide)).2 ?_
  unfold DivOk
  extract_lets D V
  rw [if_neg hnot]
  exact .inr ⟨fun i _ => ⟨rfl, .inl (by decide)⟩, fun i _ => ⟨rfl, fun h => absurd h (by decide)⟩⟩

/-- Eight by minus two is four. -/
theorem mpdiv_eight_minus_two :
    ¬∃ σ', mpdiv (fun i => if i = 0 then oneDigit 1 8 else oneDigit (-1) 2) 0 1 (some 2) none = some σ' ∧
      Divided (fun i => if i = 0 then oneDigit 1 8 else oneDigit (-1) 2) σ' 0 1 (some 2) none := by
  rintro ⟨σ', hdiv, hq, -⟩
  have hfour : (mpdiv (fun i => if i = 0 then oneDigit 1 8 else oneDigit (-1) 2) 0 1 (some 2) none).map
      (fun σ => (σ 2).value) = some 4 := by
    decide
  rw [hdiv] at hfour
  exact absurd ((Option.some.inj hfour).symm.trans (hq 2 rfl)) (by decide)

end Plan9.Mp
