/-
64-bit division on the 386 is division.

Each step on two halves is a step on numbers (`toNat_shiftUp` and so on). `slowdodiv`
keeps `num < 2 * den` (`divideLoop_eq`); the estimate `num.hi / den.hi` is never too
small, so it is right if its product is not more than the dividend.
-/
import Mathlib.Tactic.Ring
import Plan9.Libc.U32Facts
import Plan9.Libc.Vlrt

namespace Plan9.Libc

/-! ## Steps -/

section

variable (v l r : Vlong)

theorem Vlong.toNat_lt : v.toNat < 2 ^ 64 := by
  have hlo := v.lo.toNat_lt
  have hhi := v.hi.toNat_lt
  rw [toNat]
  omega

theorem toNat_low (x : UInt32) : (⟨x, 0⟩ : Vlong).toNat = x.toNat := by
  rw [Vlong.toNat]
  rw [UInt32.toNat_zero, Nat.zero_mul, Nat.zero_add]

theorem lov_iff : lov l r = true ↔ l.toNat < r.toNat := by
  have hl := l.lo.toNat_lt
  have hr := r.lo.toNat_lt
  rw [lov, decide_eq_true_eq, UInt32.lt_iff_toNat_lt, UInt32.lt_iff_toNat_lt, ← UInt32.toNat_inj, Vlong.toNat, Vlong.toNat]
  omega

theorem toNat_shiftUp : (shiftUp v).toNat = 2 * v.toNat % 2 ^ 64 := by
  have hlo := v.lo.toNat_lt
  have hup : (v.hi <<< 1 ||| v.lo >>> 31).toNat = v.hi.toNat % 2 ^ 31 * 2 + v.lo.toNat / 2 ^ 31 := by
    have hcut : (v.hi <<< 1).toNat = (v.hi.toNat % 2 ^ 31) <<< 1 := by
      simp
      omega
    have hlow : (v.lo >>> 31).toNat = v.lo.toNat / 2 ^ 31 := by
      rw [UInt32.toNat_shiftRight, Nat.shiftRight_eq_div_pow]
      rfl
    rw [UInt32.toNat_or, hcut, hlow, shift_or_low (by omega), Nat.pow_one]
  have hdown : (v.lo <<< 1).toNat = 2 * v.lo.toNat % 2 ^ 32 := by
    simp
    omega
  rw [Vlong.toNat, shiftUp]
  rw [hup, hdown, Vlong.toNat]
  omega

theorem toNat_shiftDown : (shiftDown v).toNat = v.toNat / 2 := by
  have hlo := v.lo.toNat_lt
  have hlow : (v.lo >>> 1 ||| v.hi <<< 31).toNat = v.hi.toNat % 2 * 2 ^ 31 + v.lo.toNat / 2 := by
    have hcut : (v.hi <<< 31).toNat = (v.hi.toNat % 2) <<< 31 := by
      simp
      omega
    have hhalf : (v.lo >>> 1).toNat = v.lo.toNat / 2 := by
      rfl
    rw [UInt32.toNat_or, Nat.or_comm, hcut, hhalf, shift_or_low (by omega)]
  have hhigh : (v.hi >>> 1).toNat = v.hi.toNat / 2 := by
    rfl
  rw [Vlong.toNat, shiftDown]
  rw [hlow, hhigh, Vlong.toNat]
  omega

theorem toNat_takeAway (h : r.toNat ≤ l.toNat) : (takeAway l r).toNat = l.toNat - r.toNat := by
  have h1 := l.lo.toNat_lt
  have h2 := r.lo.toNat_lt
  have h3 := l.hi.toNat_lt
  simp only [Vlong.toNat] at h
  simp only [takeAway, Vlong.toNat, gt_iff_lt, UInt32.lt_iff_toNat_lt, UInt32.toNat_sub]
  split
  · rw [UInt32.toNat_sub]
    simp only [UInt32.reduceToNat]
    omega
  · omega

theorem toNat_subv (h : r.toNat ≤ l.toNat) : (subv l r).toNat = l.toNat - r.toNat := by
  have h1 := l.lo.toNat_lt
  have h2 := r.lo.toNat_lt
  have h3 := l.hi.toNat_lt
  simp only [Vlong.toNat] at h
  simp only [subv, Vlong.toNat, UInt32.lt_iff_toNat_lt, UInt32.toNat_sub]
  split
  · simp only [UInt32.reduceToNat]
    omega
  · simp only [UInt32.reduceToNat]
    omega

end

/-- A product of a `Vlong` and a `ulong` has 96 bits. -/
theorem mul64by32_eq (a : Vlong) (b : UInt32) :
    (mul64by32 a b).2.toNat * 2 ^ 64 + (mul64by32 a b).1.toNat = a.toNat * b.toNat := by
  have hb := b.toNat_lt
  have hlo : a.lo.toNat * b.toNat ≤ (2 ^ 32 - 1) * (2 ^ 32 - 1) :=
    Nat.mul_le_mul (by have := a.lo.toNat_lt; omega) (by omega)
  have hhi : a.hi.toNat * b.toNat ≤ (2 ^ 32 - 1) * (2 ^ 32 - 1) :=
    Nat.mul_le_mul (by have := a.hi.toNat_lt; omega) (by omega)
  have hprod : a.toNat * b.toNat = a.hi.toNat * b.toNat * 2 ^ 32 + a.lo.toNat * b.toNat := by
    rw [Vlong.toNat]
    ring
  rw [hprod]
  generalize hp : a.lo.toNat * b.toNat = p at *
  generalize hq : a.hi.toNat * b.toNat = q at *
  simp only [mul64by32, mull, hp, hq, Vlong.toNat, UInt32.toNat_add, UInt32.toNat_ofNat']
  split
  · simp only [UInt32.reduceToNat]
    omega
  · simp only [UInt32.reduceToNat]
    omega

/-! ## slowdodiv -/

variable {n d den : Vlong}

theorem normalize_eq {quo : Vlong} (hquo : quo.toNat ≤ 2 ^ 63) (fuel : Nat) (i : Nat) (hden : 0 < den.toNat)
    (hfuel : 2 ^ 64 ≤ den.toNat * 2 ^ fuel) :
    ∃ den' k, normalize quo fuel den i = some (den', i + k) ∧ den'.toNat = den.toNat * 2 ^ k ∧ quo.toNat ≤ den'.toNat := by
  induction fuel generalizing den i with
  | zero =>
    have := den.toNat_lt
    omega
  | succ fuel ih =>
    rw [normalize]
    by_cases hlt : lov den quo = true
    · have hbelow := (lov_iff den quo).1 hlt
      have hup : (shiftUp den).toNat = den.toNat * 2 := by
        rw [toNat_shiftUp, Nat.mod_eq_of_lt (by omega), Nat.mul_comm]
      have hroom : 2 ^ 64 ≤ (shiftUp den).toNat * 2 ^ fuel := by
        rw [hup, Nat.mul_assoc, ← Nat.pow_succ']
        exact hfuel
      obtain ⟨den', k, hrun, hden', hle⟩ := ih (i + 1) (by omega) hroom
      rw [if_pos hlt, hrun]
      refine ⟨den', k + 1, by rw [Nat.add_assoc, Nat.add_comm 1 k], ?_, hle⟩
      rw [hden', hup, Nat.mul_assoc, ← Nat.pow_succ']
    · rw [if_neg hlt]
      rw [lov_iff] at hlt
      exact ⟨den, 0, rfl, by omega, by omega⟩

/-- **The second loop**, with the divisor `d` shifted up for the rounds to come. -/
theorem divideLoop_eq {d : Nat} (hd : 0 < d) (k : Nat) {num quo : Vlong} (hnum : num.toNat < d * 2 ^ k)
    (hden : k ≠ 0 → den.toNat = d * 2 ^ (k - 1)) (hquo : quo.toNat * 2 ^ k + num.toNat / d < 2 ^ 64) :
    (divideLoop k num den quo).1.toNat = quo.toNat * 2 ^ k + num.toNat / d ∧
      (divideLoop k num den quo).2.toNat = num.toNat % d := by
  induction k generalizing num den quo with
  | zero =>
    have hlt : num.toNat < d := by omega
    rw [divideLoop, Nat.div_eq_of_lt hlt, Nat.mod_eq_of_lt hlt, Nat.pow_zero, Nat.mul_one, Nat.add_zero]
    exact ⟨rfl, rfl⟩
  | succ k ih =>
    have hden := hden (by omega)
    rw [Nat.add_sub_cancel] at hden
    have hpos : 0 < 2 ^ k := Nat.two_pow_pos k
    rw [Nat.pow_succ] at hnum hquo ⊢
    have hroom : quo.toNat * (2 ^ k * 2) = 2 * quo.toNat * 2 ^ k := by ring
    rw [hroom] at hquo ⊢
    have hup : (shiftUp quo).toNat = 2 * quo.toNat := by
      have hle : 2 * quo.toNat ≤ 2 * quo.toNat * 2 ^ k := Nat.le_mul_of_pos_right _ hpos
      rw [toNat_shiftUp, Nat.mod_eq_of_lt (lt_of_le_of_lt (le_trans hle (Nat.le_add_right _ _)) hquo)]
    have hdown : k ≠ 0 → (shiftDown den).toNat = d * 2 ^ (k - 1) := by
      intro hk
      obtain ⟨j, rfl⟩ := Nat.exists_eq_succ_of_ne_zero hk
      rw [toNat_shiftDown, hden, Nat.pow_succ, Nat.succ_sub_one]
      have : d * (2 ^ j * 2) = d * 2 ^ j * 2 := by ring
      omega
    rw [divideLoop]
    by_cases hlt : lov num den = true
    · have hbelow := (lov_iff num den).1 hlt
      rw [if_neg (by rw [hlt]; decide)]
      obtain ⟨hq, hr⟩ := ih (by rw [← hden]; exact hbelow) hdown (by rw [hup]; exact hquo)
      rw [hq, hr, hup]
      exact ⟨rfl, rfl⟩
    have hle : den.toNat ≤ num.toNat := by
      rw [lov_iff] at hlt
      omega
    have htake := toNat_takeAway num den hle
    have hbit : (⟨(shiftUp quo).lo ||| 1, (shiftUp quo).hi⟩ : Vlong).toNat = 2 * quo.toNat + 1 := by
      have heven : (shiftUp quo).lo.toNat = 2 * ((shiftUp quo).lo.toNat / 2) := by
        have := hup
        rw [Vlong.toNat] at this
        omega
      have hor : ((shiftUp quo).lo ||| 1).toNat = (shiftUp quo).lo.toNat + 1 := by
        have hlow := @shift_or_low ((shiftUp quo).lo.toNat / 2) 1 1 (by decide)
        rw [Nat.shiftLeft_eq, show (shiftUp quo).lo.toNat / 2 * 2 ^ 1 = (shiftUp quo).lo.toNat by omega] at hlow
        exact hlow
      rw [← hup, Vlong.toNat, Vlong.toNat]
      dsimp only
      omega
    have hsplit : num.toNat = (takeAway num den).toNat + 2 ^ k * d := by
      rw [htake, Nat.mul_comm _ d, ← hden]
      omega
    have hdiv : num.toNat / d = (takeAway num den).toNat / d + 2 ^ k := by
      rw [hsplit, Nat.add_mul_div_right _ _ hd]
    have hmod : num.toNat % d = (takeAway num den).toNat % d := by
      rw [hsplit, Nat.add_mul_mod_self_right]
    have hone : (2 * quo.toNat + 1) * 2 ^ k = 2 * quo.toNat * 2 ^ k + 2 ^ k := by ring
    have hsmall : (takeAway num den).toNat < d * 2 ^ k := by
      have : d * (2 ^ k * 2) = d * 2 ^ k * 2 := by ring
      omega
    rw [if_pos hlt]
    obtain ⟨hq, hr⟩ := ih hsmall hdown (by rw [hbit, hone]; omega)
    rw [hq, hr, hbit, hone, hdiv, hmod]
    exact ⟨by omega, rfl⟩

/-- What a division is to give. -/
def Divides (n d : Vlong) (qr : Vlong × Vlong) : Prop :=
  qr.1.toNat = n.toNat / d.toNat ∧ qr.2.toNat = n.toNat % d.toNat

theorem slowdodiv_eq (num : Vlong) (hden : 0 < den.toNat) : ∃ qr, slowdodiv num den = some qr ∧ Divides num den qr := by
  have hnum := num.toNat_lt
  have hzero : ¬ (den.lo = 0 ∧ den.hi = 0) := by
    rintro ⟨hlo, hhi⟩
    rw [Vlong.toNat, hlo, hhi] at hden
    exact absurd hden (by decide)
  have hquo : ∃ quo : Vlong, (if num.hi ≥ sign32 then ⟨0, sign32⟩ else num) = quo ∧ quo.toNat ≤ 2 ^ 63 ∧
      (num.toNat < 2 * quo.toNat ∨ quo.toNat = num.toNat) := by
    refine ⟨_, rfl, ?_⟩
    have hlo := num.lo.toNat_lt
    by_cases hhi : num.hi ≥ sign32
    · rw [if_pos hhi]
      have : (⟨0, sign32⟩ : Vlong).toNat = 2 ^ 63 := by decide
      omega
    rw [if_neg hhi]
    have : num.hi.toNat < 2 ^ 31 := by
      rw [ge_iff_le, UInt32.le_iff_toNat_le] at hhi
      have : sign32.toNat = 2 ^ 31 := by decide
      omega
    rw [Vlong.toNat]
    omega
  obtain ⟨quo, hq, hle, _⟩ := hquo
  obtain ⟨_, k, hrun, hden', _⟩ := normalize_eq hle 64 0 hden (Nat.le_mul_of_pos_left _ hden)
  have hk : 0 < den.toNat * 2 ^ k := Nat.mul_pos hden (Nat.two_pow_pos k)
  have hsmall : num.toNat < den.toNat * 2 ^ (k + 1) := by
    rw [Nat.pow_succ, ← Nat.mul_assoc, ← hden']
    omega
  have hzeroQuo : (⟨0, 0⟩ : Vlong).toNat = 0 := rfl
  have hroom : (⟨0, 0⟩ : Vlong).toNat * 2 ^ (k + 1) + num.toNat / den.toNat < 2 ^ 64 := by
    have := Nat.div_le_self num.toNat den.toNat
    rw [hzeroQuo]
    omega
  obtain ⟨hquot, hrem⟩ := divideLoop_eq hden (k + 1) hsmall (fun _ => hden') hroom
  rw [slowdodiv, if_neg hzero]
  dsimp only
  rw [hq, hrun]
  rw [Nat.zero_add]
  refine ⟨_, rfl, ?_, hrem⟩
  rw [hquot, hzeroQuo]
  omega

/-! ## Unsigned division -/

/-- **The estimate.** If a quotient of the high halves is not too large, it is the quotient. -/
theorem estimate_eq {num : Vlong} (hden : den.hi ≠ 0) (hle : den.toNat * (num.hi / den.hi).toNat ≤ num.toNat) :
    (num.hi / den.hi).toNat = num.toNat / den.toNat := by
  have hlo := num.lo.toNat_lt
  have hpos : 0 < den.hi.toNat := by
    rw [Nat.pos_iff_ne_zero]
    exact fun h => hden (UInt32.toNat_inj.1 h)
  refine (Nat.div_eq_of_lt_le ?_ ?_).symm
  · rw [Nat.mul_comm]
    exact hle
  have hnext : num.hi.toNat + 1 ≤ (num.hi.toNat / den.hi.toNat + 1) * den.hi.toNat := by
    have := Nat.lt_div_mul_add hpos (a := num.hi.toNat)
    rw [Nat.add_mul, Nat.one_mul]
    omega
  calc num.toNat < (num.hi.toNat + 1) * 2 ^ 32 := by rw [Vlong.toNat]; omega
    _ ≤ (num.hi.toNat / den.hi.toNat + 1) * den.hi.toNat * 2 ^ 32 := Nat.mul_le_mul_right _ hnext
    _ = (num.hi.toNat / den.hi.toNat + 1) * (den.hi.toNat * 2 ^ 32) := Nat.mul_assoc _ _ _
    _ ≤ (num.hi.toNat / den.hi.toNat + 1) * den.toNat := Nat.mul_le_mul_left _ (by rw [Vlong.toNat]; omega)

theorem div64by32_eq {a : Vlong} {b : UInt32} (h : a.hi < b) :
    ∃ q r, div64by32 a b = some (q, r) ∧ q.toNat = a.toNat / b.toNat ∧ r.toNat = a.toNat % b.toNat := by
  have hlo := a.lo.toNat_lt
  have hb := b.toNat_lt
  have hlt := UInt32.lt_iff_toNat_lt.1 h
  refine ⟨_, _, if_pos h, ?_, ?_⟩
  · rw [UInt32.toNat_ofNat', Nat.mod_eq_of_lt]
    rw [Nat.div_lt_iff_lt_mul (by omega), Vlong.toNat]
    omega
  · have := Nat.mod_lt a.toNat (show 0 < b.toNat by omega)
    rw [UInt32.toNat_ofNat', Nat.mod_eq_of_lt (by omega)]

theorem two_steps {hi lo b : Nat} (hb : 0 < b) :
    hi / b * 2 ^ 32 + (hi % b * 2 ^ 32 + lo) / b = (hi * 2 ^ 32 + lo) / b ∧
      (hi % b * 2 ^ 32 + lo) % b = (hi * 2 ^ 32 + lo) % b := by
  have hsplit : hi * 2 ^ 32 + lo = hi % b * 2 ^ 32 + lo + hi / b * 2 ^ 32 * b := by
    calc hi * 2 ^ 32 + lo = (hi % b + b * (hi / b)) * 2 ^ 32 + lo := by rw [Nat.mod_add_div]
      _ = _ := by ring
  rw [hsplit, Nat.add_mul_div_right _ _ hb, Nat.add_mul_mod_self_right]
  exact ⟨Nat.add_comm _ _, rfl⟩

theorem dodiv_eq (num : Vlong) (hden : 0 < den.toNat) : ∃ qr, dodiv num den = some qr ∧ Divides num den qr := by
  rw [dodiv]
  by_cases hlt : lov num den = true
  · have hbelow := (lov_iff num den).1 hlt
    rw [if_pos hlt]
    refine ⟨_, rfl, ?_, ?_⟩
    · rw [Nat.div_eq_of_lt hbelow]
      exact toNat_low 0
    · rw [Nat.mod_eq_of_lt hbelow]
  rw [if_neg hlt]
  by_cases hhi : den.hi ≠ 0
  · rw [if_pos hhi]
    have hprod := mul64by32_eq den (num.hi / den.hi)
    dsimp only
    by_cases hslow : (mul64by32 den (num.hi / den.hi)).2 ≠ 0 ∨ lov num (mul64by32 den (num.hi / den.hi)).1 = true
    · rw [if_pos hslow]
      exact slowdodiv_eq num hden
    rw [if_neg hslow]
    rw [not_or, not_not, lov_iff] at hslow
    rw [hslow.1, UInt32.toNat_zero, Nat.zero_mul, Nat.zero_add] at hprod
    have hle : (mul64by32 den (num.hi / den.hi)).1.toNat ≤ num.toNat := by omega
    have hquot := estimate_eq hhi (by rw [← hprod]; exact hle)
    refine ⟨_, rfl, ?_, ?_⟩
    · rw [toNat_low, hquot]
    · have hdm := Nat.div_add_mod num.toNat den.toNat
      rw [toNat_subv _ _ hle, hprod, hquot]
      omega
  rw [if_neg hhi]
  rw [not_not] at hhi
  have hval : den.toNat = den.lo.toNat := by
    rw [Vlong.toNat, hhi, UInt32.toNat_zero]
    omega
  have hpos : 0 < den.lo.toNat := by omega
  have hsteps := @two_steps num.hi.toNat num.lo.toNat den.lo.toNat hpos
  by_cases hge : num.hi ≥ den.lo
  · have hrem : (num.hi - den.lo * (num.hi / den.lo)).toNat = num.hi.toNat % den.lo.toNat := by
      have hdm := Nat.div_add_mod num.hi.toNat den.lo.toNat
      have hnum := num.hi.toNat_lt
      rw [UInt32.toNat_sub, UInt32.toNat_mul, UInt32.toNat_div, Nat.mod_eq_of_lt (show den.lo.toNat * _ < _ by omega)]
      omega
    have hsmall : num.hi - den.lo * (num.hi / den.lo) < den.lo := by
      rw [UInt32.lt_iff_toNat_lt, hrem]
      exact Nat.mod_lt _ hpos
    obtain ⟨q, r, hdiv, hq, hr⟩ := @div64by32_eq ⟨num.lo, num.hi - den.lo * (num.hi / den.lo)⟩ den.lo hsmall
    rw [Vlong.toNat] at hq hr
    rw [hrem] at hq hr
    rw [if_pos hge]
    dsimp only
    rw [hdiv]
    refine ⟨_, rfl, ?_, ?_⟩
    · rw [hval, Vlong.toNat, Vlong.toNat, ← hsteps.1]
      rw [hq, UInt32.toNat_div]
    · rw [toNat_low, hval, hr, hsteps.2, Vlong.toNat]
  obtain ⟨q, r, hdiv, hq, hr⟩ := @div64by32_eq num den.lo (UInt32.not_le.1 hge)
  rw [if_neg hge]
  dsimp only
  rw [hdiv]
  refine ⟨_, rfl, ?_, ?_⟩
  · rw [toNat_low, hval, hq]
  · rw [toNat_low, hval, hr]

theorem divvu_eq (n : Vlong) (hd : 0 < d.toNat) :
    (∃ q, divvu n d = some q ∧ q.toNat = n.toNat / d.toNat) ∧ ∃ r, modvu n d = some r ∧ r.toNat = n.toNat % d.toNat := by
  by_cases hsmall : n.hi = 0 ∧ d.hi = 0
  · have hn : n.toNat = n.lo.toNat := by
      rw [Vlong.toNat, hsmall.1, UInt32.toNat_zero]
      omega
    have hdv : d.toNat = d.lo.toNat := by
      rw [Vlong.toNat, hsmall.2, UInt32.toNat_zero]
      omega
    have hne : d.lo ≠ 0 := fun h => by
      rw [hdv, h] at hd
      exact absurd hd (by decide)
    rw [divvu, modvu, if_pos hsmall, if_pos hsmall, if_neg hne, if_neg hne, hn, hdv]
    exact ⟨⟨_, rfl, by rw [toNat_low, UInt32.toNat_div]⟩, ⟨_, rfl, by rw [toNat_low, UInt32.toNat_mod]⟩⟩
  · obtain ⟨⟨q, r⟩, hrun, hq, hr⟩ := dodiv_eq n hd
    rw [divvu, modvu, if_neg hsmall, if_neg hsmall, hrun]
    exact ⟨⟨q, rfl, hq⟩, ⟨r, rfl, hr⟩⟩

/-! ## Signs -/

section

variable (v : Vlong)

theorem toNat_vneg : (vneg v).toNat = (2 ^ 64 - v.toNat) % 2 ^ 64 := by
  have hlo := v.lo.toNat_lt
  have hhi := v.hi.toNat_lt
  rw [vneg]
  by_cases h : v.lo = 0
  · have hzero : v.lo.toNat = 0 := by rw [h, UInt32.toNat_zero]
    rw [if_pos h, Vlong.toNat, Vlong.toNat]
    rw [UInt32.toNat_neg]
    simp only [UInt32.size]
    omega
  have hpos : v.lo.toNat ≠ 0 := fun h0 => h (UInt32.toNat_inj.1 h0)
  rw [if_neg h, Vlong.toNat, Vlong.toNat]
  rw [UInt32.toNat_neg, UInt32.toNat_not]
  simp only [UInt32.size]
  omega

theorem sign_bit : (v.hi >>> 31).toNat = if v.toInt < 0 then 1 else 0 := by
  have hlo := v.lo.toNat_lt
  have hhi := v.hi.toNat_lt
  have hbit : (v.hi >>> 31).toNat = v.hi.toNat / 2 ^ 31 := by
    rw [UInt32.toNat_shiftRight, Nat.shiftRight_eq_div_pow]
    rfl
  rw [hbit, Vlong.toInt, Vlong.toNat]
  split <;> split <;> omega

theorem sign_ne_zero : v.hi >>> 31 ≠ 0 ↔ v.toInt < 0 := by
  rw [Ne, ← UInt32.toNat_inj, sign_bit, UInt32.toNat_zero]
  split <;> omega

theorem Vlong.toInt_range : -2 ^ 63 ≤ v.toInt ∧ v.toInt < 2 ^ 63 := by
  have hlo := v.lo.toNat_lt
  have hhi := v.hi.toNat_lt
  rw [toInt, toNat]
  split <;> omega

theorem toNat_magnitude : (if v.hi >>> 31 ≠ 0 then vneg v else v).toNat = v.toInt.natAbs := by
  have hlt := v.toNat_lt
  have hval : v.toNat = v.hi.toNat * 2 ^ 32 + v.lo.toNat := by rw [Vlong.toNat]
  by_cases hneg : v.toInt < 0
  · rw [if_pos ((sign_ne_zero v).2 hneg), toNat_vneg]
    rw [Vlong.toInt] at hneg ⊢
    split at hneg
    · omega
    · omega
  rw [if_neg (fun h => hneg ((sign_ne_zero v).1 h))]
  rw [Vlong.toInt] at hneg ⊢
  split at hneg
  · omega
  · omega

theorem toInt_of_small {v : Vlong} (h : v.toNat < 2 ^ 63) : v.toInt = v.toNat := by
  rw [Vlong.toInt, if_pos]
  rw [Vlong.toNat] at h
  omega

theorem toInt_vneg {v : Vlong} (h : v.toNat ≤ 2 ^ 63) : (vneg v).toInt = -v.toNat := by
  have hneg := toNat_vneg v
  have hlo := (vneg v).lo.toNat_lt
  have hval : (vneg v).toNat = (vneg v).hi.toNat * 2 ^ 32 + (vneg v).lo.toNat := by rw [Vlong.toNat]
  by_cases h0 : v.toNat = 0
  · rw [toInt_of_small (by omega)]
    omega
  · have hbig : ¬ (vneg v).hi.toNat < 2 ^ 31 := by omega
    rw [Vlong.toInt, if_neg hbig]
    omega

end

theorem toInt_toInt32 (x : UInt32) : x.toInt32.toInt = if x.toNat < 2 ^ 31 then (x.toNat : Int) else x.toNat - 2 ^ 32 := by
  have h := BitVec.toInt_eq_toNat_cond x.toBitVec
  change x.toInt32.toInt = if 2 * x.toNat < 2 ^ 32 then (x.toNat : Int) else x.toNat - 2 ^ 32 at h
  rw [h]
  split <;> split <;> omega

theorem toNat_extend (x : UInt32) : (extend x).toNat = if x.toNat < 2 ^ 31 then 0 else 2 ^ 32 - 1 := by
  have hshift : (x.toInt32 >>> 31).toInt = x.toInt32.toInt / 2 ^ 31 := by
    change (x.toBitVec.sshiftRight 31).toInt = _
    rw [BitVec.toInt_sshiftRight, Int.shiftRight_eq_div_pow]
    rfl
  have hback := toInt_toInt32 (extend x)
  have hx := x.toNat_lt
  have he := (extend x).toNat_lt
  rw [extend, Int32.toInt32_toUInt32, hshift, toInt_toInt32] at hback
  rw [extend] at he ⊢
  split
  · split at hback <;> omega
  · split at hback <;> omega

theorem hi_eq_extend (v : Vlong) : v.hi = extend v.lo ↔ -2 ^ 31 ≤ v.toInt ∧ v.toInt < 2 ^ 31 := by
  have hlo := v.lo.toNat_lt
  have hhi := v.hi.toNat_lt
  rw [← UInt32.toNat_inj, toNat_extend, Vlong.toInt, Vlong.toNat]
  split <;> split <;> omega

theorem toInt_long {v : Vlong} (h : v.hi = extend v.lo) : v.toInt = v.lo.toInt32.toInt := by
  have hext := toNat_extend v.lo
  rw [← h] at hext
  rw [toInt_toInt32, Vlong.toInt, Vlong.toNat]
  split at hext
  · omega
  · omega

theorem toInt_ofLong (x : Int32) : (ofLong x).toInt = x.toInt := by
  have h := @toInt_long (ofLong x) rfl
  rw [h, ofLong, Int32.toInt32_toUInt32]

/-! ## Signed division -/

theorem tdiv_eq_natAbs (n d : Int) :
    n.tdiv d = (if (n < 0 ↔ d < 0) then 1 else -1) * ((n.natAbs / d.natAbs : Nat) : Int) := by
  by_cases hn : n < 0
  · obtain ⟨a, rfl⟩ : ∃ a : Nat, n = -(a : Int) := ⟨n.natAbs, by omega⟩
    by_cases hd : d < 0
    · obtain ⟨b, rfl⟩ : ∃ b : Nat, d = -(b : Int) := ⟨d.natAbs, by omega⟩
      rw [if_pos (by omega), Int.neg_tdiv, Int.tdiv_neg, Int.neg_neg, Int.natAbs_neg, Int.natAbs_neg, Int.one_mul]
      exact Int.ofNat_tdiv a b |>.symm
    · obtain ⟨b, rfl⟩ : ∃ b : Nat, d = (b : Int) := ⟨d.natAbs, by omega⟩
      rw [if_neg (by omega), Int.neg_tdiv, Int.natAbs_neg, Int.neg_mul, Int.one_mul]
      exact congrArg Neg.neg (Int.ofNat_tdiv a b).symm
  obtain ⟨a, rfl⟩ : ∃ a : Nat, n = (a : Int) := ⟨n.natAbs, by omega⟩
  by_cases hd : d < 0
  · obtain ⟨b, rfl⟩ : ∃ b : Nat, d = -(b : Int) := ⟨d.natAbs, by omega⟩
    rw [if_neg (by omega), Int.tdiv_neg, Int.natAbs_neg, Int.neg_mul, Int.one_mul]
    exact congrArg Neg.neg (Int.ofNat_tdiv a b).symm
  · obtain ⟨b, rfl⟩ : ∃ b : Nat, d = (b : Int) := ⟨d.natAbs, by omega⟩
    rw [if_pos (by omega), Int.one_mul]
    exact (Int.ofNat_tdiv a b).symm

theorem tmod_eq_natAbs (n d : Int) : n.tmod d = (if n < 0 then -1 else 1) * ((n.natAbs % d.natAbs : Nat) : Int) := by
  have hd : n.tmod d = n.tmod d.natAbs := by
    rcases Int.natAbs_eq d with h | h
    · rw [← h]
    · rw [h, Int.tmod_neg, Int.natAbs_neg, Int.natAbs_natCast]
  rw [hd]
  by_cases hn : n < 0
  · obtain ⟨a, rfl⟩ : ∃ a : Nat, n = -(a : Int) := ⟨n.natAbs, by omega⟩
    rw [if_pos hn, Int.neg_tmod, Int.natAbs_neg, Int.neg_mul, Int.one_mul]
    exact congrArg Neg.neg (Int.ofNat_tmod a _).symm
  · obtain ⟨a, rfl⟩ : ∃ a : Nat, n = (a : Int) := ⟨n.natAbs, by omega⟩
    rw [if_neg hn, Int.one_mul]
    exact (Int.ofNat_tmod a _).symm

theorem natAbs_pos_of_toNat (hd : 0 < d.toNat) : 0 < d.toInt.natAbs := by
  have hlt := d.toNat_lt
  rw [Vlong.toInt]
  split <;> omega

/-- **The way by magnitudes** gives the quotient and the remainder, but for the quotient 2^63. -/
theorem by_magnitudes (hd : 0 < d.toNat) (hrange : ¬ (n.toInt = -2 ^ 63 ∧ d.toInt = -1)) :
    ∃ q r, dodiv (if n.hi >>> 31 ≠ 0 then vneg n else n) (if d.hi >>> 31 ≠ 0 then vneg d else d) = some (q, r) ∧
      (if n.hi >>> 31 ≠ d.hi >>> 31 then vneg q else q).toInt = n.toInt.tdiv d.toInt ∧
      (if n.hi >>> 31 ≠ 0 then vneg r else r).toInt = n.toInt.tmod d.toInt := by
  have hdpos := natAbs_pos_of_toNat hd
  have hnrange := n.toInt_range
  have hn63 : n.toInt.natAbs ≤ 2 ^ 63 := by omega
  have hd63 : d.toInt.natAbs ≤ 2 ^ 63 := by have := d.toInt_range; omega
  obtain ⟨⟨q, r⟩, hrun, hq, hr⟩ := @dodiv_eq (if d.hi >>> 31 ≠ 0 then vneg d else d)
    (if n.hi >>> 31 ≠ 0 then vneg n else n) (by rw [toNat_magnitude]; exact hdpos)
  rw [toNat_magnitude, toNat_magnitude] at hq hr
  dsimp only at hq hr
  refine ⟨q, r, hrun, ?_, ?_⟩
  · have hsigns : n.hi >>> 31 ≠ d.hi >>> 31 ↔ ¬ (n.toInt < 0 ↔ d.toInt < 0) := by
      rw [Ne, ← UInt32.toNat_inj, sign_bit, sign_bit]
      split <;> split <;> omega
    have hq63 : q.toNat ≤ 2 ^ 63 := by
      rw [hq]
      exact le_trans (Nat.div_le_self _ _) hn63
    rw [tdiv_eq_natAbs, ← hq]
    by_cases hs : n.toInt < 0 ↔ d.toInt < 0
    · rw [if_neg (fun h => hsigns.1 h hs), if_pos hs, Int.one_mul]
      apply toInt_of_small
      by_contra hbig
      have hone : d.toInt.natAbs = 1 := by
        by_contra hne
        have : n.toInt.natAbs / d.toInt.natAbs ≤ n.toInt.natAbs / 2 := Nat.div_le_div_left (by omega) (by decide)
        omega
      rw [hone, Nat.div_one] at hq
      omega
    · rw [if_pos (hsigns.2 hs), if_neg hs, toInt_vneg hq63, Int.neg_mul, Int.one_mul]
  have hr63 : r.toNat < 2 ^ 63 := by
    rw [hr]
    exact lt_of_lt_of_le (Nat.mod_lt _ hdpos) hd63
  rw [tmod_eq_natAbs, ← hr]
  by_cases hneg : n.toInt < 0
  · rw [if_pos ((sign_ne_zero n).2 hneg), if_pos hneg, toInt_vneg (Nat.le_of_lt hr63), Int.neg_mul, Int.one_mul]
  · rw [if_neg (fun h => hneg ((sign_ne_zero n).1 h)), if_neg hneg, Int.one_mul, toInt_of_small hr63]

theorem long_division (traps : Bool) {n d : Int32} (hd : d ≠ 0) (hover : ¬ (n = Int32.minValue ∧ d = -1)) :
    divl traps n d = some (n / d) ∧ (n / d).toInt = n.toInt.tdiv d.toInt ∧
      modl traps n d = some (n % d) ∧ (n % d).toInt = n.toInt.tmod d.toInt := by
  have hno : ¬ (d = 0 ∨ traps = true ∧ n = Int32.minValue ∧ d = -1) := by
    rintro (h | ⟨-, h⟩)
    · exact hd h
    · exact hover h
  refine ⟨if_neg hno, ?_, if_neg hno, Int32.toInt_mod n d⟩
  by_cases hn : n = Int32.minValue
  · exact Int32.toInt_div_of_ne_right n d fun h => hover ⟨hn, h⟩
  · exact Int32.toInt_div_of_ne_left n d hn

theorem long_case (hd : 0 < d.toNat) (hfast : n.hi = extend n.lo ∧ d.hi = extend d.lo) :
    d.lo.toInt32 ≠ 0 ∧ (n.lo.toInt32 = Int32.minValue ∧ d.lo.toInt32 = -1 ↔ n.toInt = -2 ^ 31 ∧ d.toInt = -1) := by
  rw [toInt_long hfast.1, toInt_long hfast.2]
  refine ⟨fun h => ?_, ?_⟩
  · have hpos := natAbs_pos_of_toNat hd
    rw [toInt_long hfast.2, h] at hpos
    exact absurd hpos (by decide)
  · rw [← Int32.toInt_inj, ← Int32.toInt_inj]
    exact Iff.rfl

theorem overflow_is_long (h : n.toInt = -2 ^ 31 ∧ d.toInt = -1) : n.hi = extend n.lo ∧ d.hi = extend d.lo := by
  rw [hi_eq_extend, hi_eq_extend]
  omega

/-- **64-bit division.** Without a sign it is that of the naturals. With a sign it truncates, but for the quotient
-2^31 / -1, where 32 bits are too few; of its remainder only a trap makes a difference. -/
theorem vlong_division (traps : Bool) (n : Vlong) {d : Vlong} (hd : d.toNat ≠ 0) :
    (∃ q, divvu n d = some q ∧ q.toNat = n.toNat / d.toNat) ∧
    (∃ r, modvu n d = some r ∧ r.toNat = n.toNat % d.toNat) ∧
    (¬ (n.toInt = -2 ^ 63 ∧ d.toInt = -1) →
      ((∃ q, divv traps n d = some q ∧ q.toInt = n.toInt.tdiv d.toInt) ↔ ¬ (n.toInt = -2 ^ 31 ∧ d.toInt = -1)) ∧
      ((∃ r, modv traps n d = some r ∧ r.toInt = n.toInt.tmod d.toInt) ↔
        ¬ (traps = true ∧ n.toInt = -2 ^ 31 ∧ d.toInt = -1))) := by
  have hpos : 0 < d.toNat := Nat.pos_of_ne_zero hd
  obtain ⟨hdivu, hmodu⟩ := divvu_eq n hpos
  refine ⟨hdivu, hmodu, fun hrange => ?_⟩
  by_cases hfast : n.hi = extend n.lo ∧ d.hi = extend d.lo
  · obtain ⟨hne, hover⟩ := long_case hpos hfast
    rw [divv, modv, if_pos hfast, if_pos hfast]
    by_cases hbad : n.toInt = -2 ^ 31 ∧ d.toInt = -1
    · obtain ⟨hn, hd1⟩ := hover.2 hbad
      rw [divl, modl, hn, hd1]
      cases traps with
      | true =>
        refine ⟨⟨?_, fun h => absurd hbad h⟩, ⟨?_, fun h => absurd ⟨rfl, hbad⟩ h⟩⟩
        · rintro ⟨q, hq, -⟩
          cases hq
        · rintro ⟨r, hr, -⟩
          cases hr
      | false =>
        rw [if_neg (by decide), if_neg (by decide), hbad.1, hbad.2]
        refine ⟨⟨?_, fun h => absurd ⟨rfl, rfl⟩ h⟩, ⟨fun _ h => absurd h.1 (by decide), fun _ => ?_⟩⟩
        · rintro ⟨q, hq, hval⟩
          cases hq
          exact absurd hval (by decide)
        · refine ⟨_, rfl, ?_⟩
          decide
    obtain ⟨hdiv, hq, hmod, hr⟩ := long_division traps hne (fun h => hbad (hover.1 h))
    rw [hdiv, hmod]
    refine ⟨⟨fun _ => hbad, fun _ => ⟨_, rfl, ?_⟩⟩, ⟨fun _ h => hbad h.2, fun _ => ⟨_, rfl, ?_⟩⟩⟩
    · rw [toInt_ofLong, hq, toInt_long hfast.1, toInt_long hfast.2]
    · rw [toInt_ofLong, hr, toInt_long hfast.1, toInt_long hfast.2]
  have hbad : ¬ (n.toInt = -2 ^ 31 ∧ d.toInt = -1) := fun h => hfast (overflow_is_long h)
  obtain ⟨q, r, hrun, hq, hr⟩ := by_magnitudes hpos hrange
  rw [divv, modv, if_neg hfast, if_neg hfast]
  dsimp only
  rw [hrun]
  exact ⟨⟨fun _ => hbad, fun _ => ⟨_, rfl, hq⟩⟩, ⟨fun _ h => hbad h.2, fun _ => ⟨_, rfl, hr⟩⟩⟩

/-- -2^32 by 3, where the magnitudes are divided. -/
theorem vlong_division_three :
    ∃ q, divv true ⟨0, 0xFFFFFFFF⟩ ⟨3, 0⟩ = some q ∧ q.toInt = (-4294967296 : Int).tdiv 3 := by
  have hn : (⟨0, 0xFFFFFFFF⟩ : Vlong).toInt = -4294967296 := by decide
  have hd : (⟨3, 0⟩ : Vlong).toInt = 3 := by decide
  have hdiv := ((vlong_division true ⟨0, 0xFFFFFFFF⟩ (d := ⟨3, 0⟩) (by decide)).2.2 (by rw [hn]; decide)).1
  rw [hn, hd] at hdiv
  exact hdiv.2 (by decide)

/-- -2^31 by -1 is 2^31, which is not what comes of it. -/
theorem vlong_division_overflow :
    divv false ⟨0x80000000, 0xFFFFFFFF⟩ ⟨0xFFFFFFFF, 0xFFFFFFFF⟩ = some ⟨0x80000000, 0xFFFFFFFF⟩ ∧
    divv true ⟨0x80000000, 0xFFFFFFFF⟩ ⟨0xFFFFFFFF, 0xFFFFFFFF⟩ = none ∧
    ¬ ∀ (traps : Bool) (n d : Vlong), d.toNat ≠ 0 → ¬ (n.toInt = -2 ^ 63 ∧ d.toInt = -1) →
      ∃ q, divv traps n d = some q ∧ q.toInt = n.toInt.tdiv d.toInt := by
  have hfalse : divv false ⟨0x80000000, 0xFFFFFFFF⟩ ⟨0xFFFFFFFF, 0xFFFFFFFF⟩ = some ⟨0x80000000, 0xFFFFFFFF⟩ := by
    decide +kernel
  refine ⟨hfalse, by decide +kernel, fun h => ?_⟩
  obtain ⟨q, hq, hval⟩ := h false ⟨0x80000000, 0xFFFFFFFF⟩ ⟨0xFFFFFFFF, 0xFFFFFFFF⟩ (by decide) (by decide)
  cases hq
  exact absurd hval (by decide)

end Plan9.Libc
