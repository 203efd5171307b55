/-
The digits of the long way (`Plan9.Libmp.Div`).

`v` has its high bit set, and what the digits of `u` from a place on come to is below `2 ^ 32 * v`: the
estimate of the digit is then the digit or one more (`Plan9.Lib.LongDivision`), so that taking the product off
leaves the remainder or wraps around, and adding `v` once makes up for it. What is left is below
`v` again, and the next digit is found the same way.
-/
import Mathlib.Data.Nat.Bitwise
import Plan9.Lib.LongDivision
import Plan9.Libmp.Div

namespace Plan9.Mp

open Digits Memory List

/-! ## The estimate -/

theorem mpveccmp_pos (a b : List mpdigit) : mpveccmp a b > 0 ↔ val b < val a := by
  obtain ⟨_, _⟩ := mpveccmp_spec a b
  omega

/-- A digit times two digits, in three zeros. -/
theorem val_trial {v : List mpdigit} (hv : v.length = 2) (qd : mpdigit) :
    val (mpvecdigmuladd v qd [0, 0, 0]) = qd.toNat * val v := by
  obtain ⟨r, hr, -, hval⟩ := @mpvecdigmuladd_spec qd v [0, 0, 0] (by rw [hv]; decide)
  have hdrop : ([0, 0, 0] : List mpdigit).drop (v.length + 1) = [] := by rw [hv]; rfl
  have htake : val (([0, 0, 0] : List mpdigit).take v.length) = 0 := by rw [hv]; rfl
  rw [hr, hdrop, append_nil, hval, htake, Nat.zero_add]

theorem trialLoop_spec {v u : List mpdigit} (hv : v.length = 2) {q : Nat} (hq : q * val v ≤ val u) :
    ∀ (k : Nat) (qd : mpdigit), qd.toNat ≤ k → q ≤ qd.toNat →
    q ≤ (trialLoop v u k qd).toNat ∧ (trialLoop v u k qd).toNat * val v ≤ val u
  | 0, qd, hk, hle => by
    have hzero : qd.toNat = 0 := Nat.le_zero.1 hk
    rw [trialLoop, hzero, Nat.zero_mul]
    exact ⟨by omega, Nat.zero_le _⟩
  | k + 1, qd, hk, hle => by
    have hcmp := mpveccmp_pos (mpvecdigmuladd v qd [0, 0, 0]) u
    rw [val_trial hv] at hcmp
    rw [trialLoop]
    by_cases hgt : mpveccmp (mpvecdigmuladd v qd [0, 0, 0]) u > 0
    · have hlt := hcmp.1 hgt
      have hne : q ≠ qd.toNat := by
        rintro rfl
        omega
      have hpred : (qd - 1).toNat = qd.toNat - 1 := by
        have hone : (1 : UInt32).toNat = 1 := rfl
        rw [UInt32.toNat_sub_of_le _ _ (UInt32.le_iff_toNat_le.2 (by omega)), hone]
      rw [if_pos hgt]
      exact trialLoop_spec hv hq k (qd - 1) (by omega) (by omega)
    · rw [if_neg hgt]
      exact ⟨hle, Nat.le_of_not_lt (mt hcmp.2 hgt)⟩

section

variable {v l : List mpdigit} {hi lo vp : mpdigit}

theorem val_high_bounds (l : List mpdigit) (h : List mpdigit) :
    val h * (2 ^ 32) ^ l.length ≤ val (l ++ h) ∧ val (l ++ h) < (val h + 1) * (2 ^ 32) ^ l.length := by
  have hlt := val_lt l
  rw [val_append, Nat.add_mul, Nat.one_mul, Nat.mul_comm (val h)]
  omega

theorem mpdigdiv_estimate (hlen : l.length = v.length) (hpos : 0 < vp.toNat)
    (hlt : val (l ++ [lo, hi]) < 2 ^ 32 * val (v ++ [vp])) :
    val (l ++ [lo, hi]) / val (v ++ [vp]) ≤ (mpdigdiv lo hi vp).toNat := by
  obtain ⟨hv, -⟩ := val_high_bounds v [vp]
  obtain ⟨-, hw⟩ := val_high_bounds l [lo, hi]
  rw [hlen, val_cons, val_singleton] at hw
  by_cases hge : vp ≤ hi
  · rw [mpdigdiv_max hge]
    have := Nat.div_lt_of_lt_mul (Nat.mul_comm (2 ^ 32) _ ▸ hlt)
    omega
  · rw [mpdigdiv_spec (UInt32.not_le.1 hge), Nat.le_div_iff_mul_le hpos, Nat.mul_comm hi.toNat, Nat.add_comm]
    exact LongDivision.fits_high (Nat.div_mul_le_self _ _) hv hw

/-- After `D3a`: the digit or one more. `X` is what the digits below the highest two of `v` count. -/
theorem trial_estimate {v2 u3 vlow ulow : List mpdigit} {qd : mpdigit} (hv2 : v2.length = 2)
    (hhigh : 2 ^ 32 ≤ val v2) (hlen : ulow.length = vlow.length)
    (hqd : val (ulow ++ u3) / val (vlow ++ v2) ≤ qd.toNat) :
    let e := (trialLoop v2 u3 qd.toNat qd).toNat
    val (ulow ++ u3) / val (vlow ++ v2) ≤ e ∧ e * val (vlow ++ v2) ≤ val (ulow ++ u3) + val (vlow ++ v2) := by
  obtain ⟨hvge, hvlt⟩ := val_high_bounds vlow v2
  obtain ⟨hwge, hwlt⟩ := val_high_bounds ulow u3
  rw [hlen] at hwge hwlt
  have hq := LongDivision.fits_high (Nat.div_mul_le_self _ _) hvge hwlt
  obtain ⟨hge, hfits⟩ := trialLoop_spec hv2 hq qd.toNat qd le_rfl hqd
  have hlt := (trialLoop v2 u3 qd.toNat qd).toNat_lt
  exact ⟨hge, LongDivision.fits_but_one hfits (by omega) hvge hvlt hwge⟩

end

/-! ## One digit -/

section

variable {u : Nat → mpdigit} {v : List mpdigit} {k : Nat}

theorem load_two (u : Nat → mpdigit) (p : Nat) : load u p 2 = [u p, u (p + 1)] := rfl

/-- The digit as `digitStep` estimates it. -/
def estimate (v : List mpdigit) (k : Nat) (u : Nat → mpdigit) : mpdigit :=
  let up := k + v.length
  let qd := mpdigdiv (u (up - 1)) (u up) (v.getLastD 0)
  if v.length > 1 then trialLoop (v.drop (v.length - 2)) (load u (up - 2) 3) qd.toNat qd else qd

theorem estimate_spec (hne : v ≠ []) (hhigh : 2 ^ 31 ≤ (v.getLastD 0).toNat)
    (hlt : val (load u k (v.length + 1)) < 2 ^ 32 * val v) :
    val (load u k (v.length + 1)) / val v ≤ (estimate v k u).toNat ∧
      (estimate v k u).toNat * val v ≤ val (load u k (v.length + 1)) + val v := by
  obtain ⟨l, b, rfl⟩ : ∃ l b, v = l ++ [b] := ⟨v.dropLast, v.getLast hne, (dropLast_append_getLast hne).symm⟩
  have hlast : (l ++ [b]).getLastD 0 = b := by rw [getLastD_eq_getLast?, getLast?_concat]; rfl
  have hlen : (l ++ [b]).length = l.length + 1 := length_append
  have hload : load u k (l.length + 1 + 1) = load u k l.length ++ [u (k + l.length), u (k + (l.length + 1))] := by
    rw [Nat.add_assoc, load_add, load_two]
    rfl
  unfold estimate
  rw [hlast] at hhigh ⊢
  rw [hlen] at hlt ⊢
  rw [hload] at hlt ⊢
  have hge := mpdigdiv_estimate (length_load) (show 0 < b.toNat by omega) hlt
  dsimp only
  cases l using reverseRecOn with
  | nil =>
    -- one digit: nothing to be ruled out, and what the estimate divides is all there is
    rw [if_neg (by decide)]
    refine ⟨hge, ?_⟩
    rw [length_nil, show load u k 0 = [] from rfl, nil_append, nil_append, val_singleton, val_cons,
      val_singleton] at hlt ⊢
    rw [mpdigdiv_spec (UInt32.lt_iff_toNat_lt.2 (by omega)), Nat.mul_comm (UInt32.toNat _) (2 ^ 32),
      Nat.add_comm (2 ^ 32 * _)]
    exact (Nat.div_mul_le_self _ _).trans (Nat.le_add_right _ _)
  | append_singleton m a =>
    have hmlen : (m ++ [a]).length = m.length + 1 := length_append
    rw [hmlen] at hload hge hlt ⊢
    have hdrop : (m ++ [a] ++ [b]).drop (m.length + 1 + 1 - 2) = [a, b] := by
      rw [append_assoc]
      exact drop_left
    have hload3 : load u k (m.length + 1) ++ [u (k + (m.length + 1)), u (k + (m.length + 1 + 1))] =
        load u k m.length ++ load u (k + m.length) 3 := by
      rw [← hload, ← load_add]
    rw [hdrop, show k + (m.length + 1 + 1) - 2 = k + m.length from rfl]
    rw [hload3, append_assoc] at hge ⊢
    refine trial_estimate rfl ?_ length_load hge
    rw [singleton_append, val_cons, val_singleton]
    omega

theorem load_store_first {n : Nat} {l : List mpdigit} (h : n ≤ l.length) : load (store u k l) k n = l.take n :=
  load_take load_store h

theorem load_store_below {l : List mpdigit} : load (store u k l) 0 k = load u 0 k :=
  load_congr fun _ _ hx => store_outside (.inl (by omega))

/-- `D4` to `D6` for a digit or one more: the product is taken off, and `v` added back if that was too much. -/
theorem takeOff_spec {qd : mpdigit} (hpos : 0 < val v) (hge : val (load u k (v.length + 1)) / val v ≤ qd.toNat)
    (hle : qd.toNat * val v ≤ val (load u k (v.length + 1)) + val v) :
    let r := mpvecdigmulsub v qd (load u k (v.length + 1))
    let u' := store u k r.1
    let x := if r.2 < 0 then (qd - 1, store u' k (mpvecadd (load u' k (v.length + 1)) v)) else (qd, u')
    x.1.toNat = val (load u k (v.length + 1)) / val v ∧ val (load x.2 k v.length) = val (load u k (v.length + 1)) % val v ∧
      load x.2 0 k = load u 0 k := by
  obtain ⟨r, sign, hr, hlen, _, hval⟩ := @mpvecdigmulsub_spec qd v (load u k (v.length + 1))
    (by rw [length_load]; exact Nat.lt_succ_self _)
  have hdrop : (load u k (v.length + 1)).drop (v.length + 1) = [] := drop_eq_nil_of_le (Nat.le_of_eq length_load)
  have htake : (load u k (v.length + 1)).take (v.length + 1) = load u k (v.length + 1) :=
    take_of_length_le (Nat.le_of_eq length_load)
  have hlt := val_lt r
  have hvlt := val_lt v
  rw [hdrop, append_nil] at hr
  rw [htake] at hval
  rw [hlen] at hlt
  rw [hr]
  dsimp only
  generalize val (load u k (v.length + 1)) = w at hge hle hval ⊢
  have hmod : w % val v < val v := Nat.mod_lt w hpos
  have hdm := Nat.div_add_mod w (val v)
  have hwin : load (store u k r) k (v.length + 1) = r := by
    rw [← hlen]
    exact load_store
  rcases LongDivision.digit_of_estimate hpos hge hle with ⟨_, hq⟩ | ⟨_, hq⟩
  · have hnot : ¬sign < 0 := by
      intro hs
      rw [if_pos hs] at hval
      omega
    rw [if_neg hnot] at hval ⊢
    have hrest : val r = w % val v := by
      rw [hq, Nat.mul_comm] at hval
      omega
    refine ⟨hq, ?_, load_store_below⟩
    rw [load_store_first (by omega), val_take (by omega), hrest, Nat.mod_eq_of_lt (hmod.trans hvlt)]
  have hs : sign < 0 := by
    by_contra hnot
    rw [if_neg hnot] at hval
    omega
  rw [if_pos hs] at hval ⊢
  rw [hwin]
  obtain ⟨_, hadd⟩ := @mpvecadd_spec r v (by omega)
  have hrest : val r + val v = w % val v + (2 ^ 32) ^ (v.length + 1) := by
    rw [hq, Nat.add_mul, Nat.one_mul, Nat.mul_comm] at hval
    omega
  have hpred : (qd - 1).toNat = w / val v := by
    have hone : (1 : UInt32).toNat = 1 := rfl
    have hpos' : 1 ≤ qd.toNat := by rw [hq]; exact Nat.le_add_left 1 _
    rw [UInt32.toNat_sub_of_le qd 1 (UInt32.le_iff_toNat_le.2 hpos'), hone, hq, Nat.add_sub_cancel]
  refine ⟨hpred, ?_, by rw [load_store_below, load_store_below]⟩
  rw [load_store_first (by omega), val_take (by omega), hadd, hrest, base_pow_succ, Nat.add_mul_mod_self_right,
    Nat.mod_eq_of_lt (hmod.trans hvlt)]

theorem digitStep_spec (hne : v ≠ []) (hhigh : 2 ^ 31 ≤ (v.getLastD 0).toNat) (hpos : 0 < val v)
    (hlt : val (load u k (v.length + 1)) < 2 ^ 32 * val v) :
    (digitStep v k u).1.toNat = val (load u k (v.length + 1)) / val v ∧
      val (load (digitStep v k u).2 k v.length) = val (load u k (v.length + 1)) % val v ∧
      load (digitStep v k u).2 0 k = load u 0 k := by
  obtain ⟨hge, hle⟩ := estimate_spec hne hhigh hlt
  have hspec := takeOff_spec hpos hge hle
  have hstep : digitStep v k u =
      let r := mpvecdigmulsub v (estimate v k u) (load u k (v.length + 1))
      let u' := store u k r.1
      let x := if r.2 < 0 then (estimate v k u - 1, store u' k (mpvecadd (load u' k (v.length + 1)) v))
        else (estimate v k u, u')
      (x.1, store x.2 (k + v.length) [0]) := by
    unfold digitStep
    dsimp only
    rw [Nat.add_sub_cancel]
    rfl
  rw [hstep]
  obtain ⟨hq, hrest, hbelow⟩ := hspec
  refine ⟨hq, ?_, ?_⟩
  · exact (congrArg val (load_congr fun x _ hx => store_outside (.inl hx))).trans hrest
  · exact (load_congr fun x _ hx => store_outside (.inl (by omega))).trans hbelow

/-- All the digits: those found, and what is left. -/
theorem longLoop_spec (hne : v ≠ []) (hhigh : 2 ^ 31 ≤ (v.getLastD 0).toNat) (hpos : 0 < val v) (k : Nat)
    (u : Nat → mpdigit) (q : List mpdigit) (hlt : val (load u k v.length) < val v) :
    ∃ d u', longLoop v k u q = (d ++ q, u') ∧ d.length = k ∧
      val (load u 0 (k + v.length)) = val d * val v + val (load u' 0 v.length) ∧ val (load u' 0 v.length) < val v := by
  induction k generalizing u q with
  | zero =>
    refine ⟨[], u, rfl, rfl, ?_, hlt⟩
    rw [val_nil, Nat.zero_mul, Nat.zero_add, Nat.zero_add]
  | succ k ih =>
    have hwin : load u k (v.length + 1) = [u k] ++ load u (k + 1) v.length := by
      rw [Nat.add_comm, load_add]
      rfl
    have hw : val (load u k (v.length + 1)) < 2 ^ 32 * val v := by
      have hd := (u k).toNat_lt
      rw [hwin, singleton_append, val_cons]
      omega
    obtain ⟨hq, hrest, hbelow⟩ := digitStep_spec hne hhigh hpos hw
    have hmod := Nat.mod_lt (val (load u k (v.length + 1))) hpos
    obtain ⟨d, u', hloop, hdlen, hval, hlast⟩ := ih (digitStep v k u).2 ((digitStep v k u).1 :: q) (by rw [hrest]; exact hmod)
    refine ⟨d ++ [(digitStep v k u).1], u', ?_, ?_, ?_, hlast⟩
    · rw [longLoop, append_assoc, singleton_append]
      exact hloop
    · rw [length_append, hdlen]
      rfl
    have hsum := LongDivision.place (val (load u 0 k)) ((2 ^ 32) ^ k) (val (load u k (v.length + 1))) (val v)
    rw [load_add, Nat.zero_add, val_append, length_load, hbelow, hrest] at hval
    rw [show k + 1 + v.length = k + (v.length + 1) by omega, load_add, Nat.zero_add, val_append, length_load, hsum, hval,
      val_append, val_singleton, hdlen, hq, Nat.add_mul]
    omega

end

/-! ## The numbers the digits are found in -/

theorem and_high_eq_zero (x : mpdigit) : x &&& 0x80000000 = 0 ↔ x.toNat < 2 ^ 31 := by
  have hx := x.toNat_lt
  have hand : (x &&& 0x80000000).toNat = (x.toNat.testBit 31).toNat * 2 ^ 31 := by
    exact Nat.and_two_pow x.toNat 31
  rw [← UInt32.toNat_inj, hand, Nat.testBit_eq_decide_div_mod_eq, UInt32.toNat_zero]
  by_cases h : x.toNat < 2 ^ 31
  · rw [Nat.div_eq_of_lt h]
    exact ⟨fun _ => h, fun _ => rfl⟩
  · rw [show x.toNat / 2 ^ 31 % 2 = 1 by omega]
    exact ⟨fun h' => absurd h' (by decide), fun h' => absurd h' h⟩

theorem highLoop_spec (k : Nat) (x : mpdigit) (s : Nat) (hx : 2 ^ 32 ≤ x.toNat * 2 ^ k) :
    ∃ t, highLoop k x s = some (s + t) ∧ t < k ∧ 2 ^ 31 ≤ x.toNat * 2 ^ t ∧ x.toNat * 2 ^ t < 2 ^ 32 := by
  induction k generalizing x s with
  | zero =>
    have := x.toNat_lt
    omega
  | succ k ih =>
    have hlt := x.toNat_lt
    rw [highLoop]
    by_cases h : x &&& 0x80000000 = 0
    · have hx31 := (and_high_eq_zero x).1 h
      have hshl : (x <<< 1).toNat = x.toNat * 2 := by
        have hshift := @toNat_shl x 1 (by decide)
        rw [pow_one, Nat.mod_eq_of_lt (by omega)] at hshift
        exact hshift
      obtain ⟨t, hloop, _, hge, hlt'⟩ := ih (x <<< 1) (s + 1) (by
        rw [hshl, Nat.mul_assoc, ← Nat.pow_succ']
        exact hx)
      rw [hshl, Nat.mul_assoc, ← Nat.pow_succ'] at hge hlt'
      rw [if_pos h, hloop]
      exact ⟨t + 1, by rw [Nat.add_assoc, Nat.add_comm 1 t], by omega, hge, hlt'⟩
    · rw [if_neg h]
      have hge := mt (and_high_eq_zero x).2 h
      exact ⟨0, rfl, by omega, by omega, by omega⟩

section

variable {b u v D V : mpint} {s : Nat}

theorem digits_eq (h : b.top ≠ 0) : b.digits = load b.p 0 (b.top - 1) ++ [b.p (b.top - 1)] := by
  obtain ⟨t, ht⟩ := Nat.exists_eq_succ_of_ne_zero h
  rw [mpint.digits, ht, Nat.succ_sub_one, ← Nat.add_one, load_add, Nat.zero_add]
  rfl

theorem top_ne_zero (h : 0 < val b.digits) : b.top ≠ 0 := by
  intro htop
  rw [eq_nil_of_length_eq_zero ((length_digits b).trans htop)] at h
  exact Nat.lt_irrefl 0 h

theorem val_bounds (h : b.top ≠ 0) :
    (b.p (b.top - 1)).toNat * (2 ^ 32) ^ (b.top - 1) ≤ val b.digits ∧
      val b.digits < ((b.p (b.top - 1)).toNat + 1) * (2 ^ 32) ^ (b.top - 1) := by
  have hbounds := val_high_bounds (load b.p 0 (b.top - 1)) [b.p (b.top - 1)]
  rwa [length_load, val_singleton, ← digits_eq h] at hbounds

theorem Normalized.high_pos (h : Normalized b) (htop : b.top ≠ 0) : 0 < (b.p (b.top - 1)).toNat :=
  Nat.pos_of_ne_zero fun hz => h.high.resolve_left htop (UInt32.toNat_inj.1 hz)

theorem Normalized.top_eq (h : Normalized b) {t x : Nat} (hx : 0 < x) (hge : x * (2 ^ 32) ^ t ≤ val b.digits)
    (hlt : val b.digits < (2 ^ 32) ^ (t + 1)) : b.top = t + 1 ∧ x ≤ (b.p (b.top - 1)).toNat := by
  have hpow : 0 < ((2 : Nat) ^ 32) ^ t := by positivity
  have htop := top_ne_zero (Nat.lt_of_lt_of_le (Nat.mul_pos hx hpow) hge)
  obtain ⟨hlow, hhigh⟩ := val_bounds htop
  have hval := val_lt b.digits
  rw [length_digits] at hval
  have h1 : b.top - 1 < t + 1 := by
    refine (Nat.pow_lt_pow_iff_right (show 1 < 2 ^ 32 by decide)).1 (Nat.lt_of_le_of_lt ?_ hlt)
    exact (Nat.le_mul_of_pos_left _ (h.high_pos htop)).trans hlow
  have h2 : t < b.top := by
    refine (Nat.pow_lt_pow_iff_right (show 1 < 2 ^ 32 by decide)).1 (Nat.lt_of_le_of_lt ?_ hval)
    exact (Nat.le_mul_of_pos_left _ hx).trans hge
  have heq : b.top = t + 1 := by omega
  refine ⟨heq, ?_⟩
  have hmul : x * (2 ^ 32) ^ t < ((b.p (b.top - 1)).toNat + 1) * (2 ^ 32) ^ t := by
    rw [heq, Nat.add_sub_cancel] at hhigh ⊢
    exact Nat.lt_of_le_of_lt hge hhigh
  exact Nat.le_of_lt_succ (Nat.lt_of_mul_lt_mul_right hmul)

/-- `D1`: both shifted, so that the high bit of `v` is set. -/
theorem divShift_spec (hV : Normalized V) (hDt : D.timesafe = false) (hVt : V.timesafe = false)
    (hpos : 0 < val V.digits) (hle : val V.digits ≤ val D.digits) (stays : Bool) :
    ∃ s u v, highLoop 32 (V.p (V.top - 1)) 0 = some s ∧ divShift D V s stays = some (u, v) ∧ s < 32 ∧
      (val u.digits = val D.digits * 2 ^ s ∧ u.sign = D.sign ∧ u.timesafe = false) ∧
      val v.digits = val V.digits * 2 ^ s ∧ v.top ≠ 0 ∧ 2 ^ 31 ≤ (v.p (v.top - 1)).toNat := by
  have htop := top_ne_zero hpos
  have hhigh := hV.high_pos htop
  obtain ⟨hlow, hup⟩ := val_bounds htop
  obtain ⟨s, hloop, hs, hge, hlt⟩ := highLoop_spec 32 (V.p (V.top - 1)) 0 (Nat.le_mul_of_pos_left _ hhigh)
  rw [Nat.zero_add] at hloop
  -- the next number of high bits is not above a digit, either
  have hnext : ((V.p (V.top - 1)).toNat + 1) * 2 ^ s ≤ 2 ^ 32 := by
    have hpow : (2 : Nat) ^ 32 = 2 ^ (32 - s) * 2 ^ s := by rw [← Nat.pow_add, Nat.sub_add_cancel (Nat.le_of_lt hs)]
    rw [hpow] at hlt ⊢
    exact Nat.mul_le_mul_right _ (Nat.lt_of_mul_lt_mul_right hlt)
  have hv : ∀ v : mpint, Normalized v → val v.digits = val V.digits * 2 ^ s →
      v.top ≠ 0 ∧ 2 ^ 31 ≤ (v.p (v.top - 1)).toNat := by
    intro v hnorm hval
    obtain ⟨_, hx⟩ := @Normalized.top_eq v hnorm (V.top - 1) (2 ^ 31) (by decide)
      (by
        rw [hval]
        calc 2 ^ 31 * (2 ^ 32) ^ (V.top - 1) ≤ (V.p (V.top - 1)).toNat * 2 ^ s * (2 ^ 32) ^ (V.top - 1) :=
              Nat.mul_le_mul_right _ hge
          _ = (V.p (V.top - 1)).toNat * (2 ^ 32) ^ (V.top - 1) * 2 ^ s := Nat.mul_right_comm ..
          _ ≤ val V.digits * 2 ^ s := Nat.mul_le_mul_right _ hlow)
      (by
        rw [hval]
        calc val V.digits * 2 ^ s < ((V.p (V.top - 1)).toNat + 1) * (2 ^ 32) ^ (V.top - 1) * 2 ^ s :=
              Nat.mul_lt_mul_of_pos_right hup (Nat.two_pow_pos s)
          _ = ((V.p (V.top - 1)).toNat + 1) * 2 ^ s * (2 ^ 32) ^ (V.top - 1) := Nat.mul_right_comm ..
          _ ≤ 2 ^ 32 * (2 ^ 32) ^ (V.top - 1) := Nat.mul_le_mul_right _ hnext
          _ = (2 ^ 32) ^ (V.top - 1 + 1) := (base_pow_succ _).symm)
    exact ⟨by omega, hx⟩
  by_cases h : s = 0 ∧ stays
  · have hval : val V.digits = val V.digits * 2 ^ s := by rw [h.1, Nat.pow_zero, Nat.mul_one]
    refine ⟨s, mpassign D mpnew, V, hloop, by rw [divShift, if_pos h], hs, ⟨?_, rfl, hDt⟩, hval, hv V hV hval⟩
    rw [digits_mpassign, h.1, Nat.pow_zero, Nat.mul_one]
  obtain ⟨u, hu, huval, -, hut, husign⟩ := @mpleft_new D s hDt (Nat.lt_of_lt_of_le hpos hle)
  obtain ⟨v, hvl, hvval, hvnorm, -, -⟩ := @mpleft_new V s hVt hpos
  refine ⟨s, u, v, hloop, ?_, hs, ⟨huval, husign, hut⟩, hvval, hv v hvnorm hvval⟩
  rw [divShift, if_neg h, hu, hvl]
  rfl

/-- `D1a`: the highest digits of `u` come to less than `v`, by a zero above them if need be. -/
theorem divExtend_spec (hv0 : v.top ≠ 0) (hvpos : 0 < (v.p (v.top - 1)).toNat)
    (hle : val v.digits ≤ val u.digits) :
    (divExtend u v).sign = u.sign ∧ (divExtend u v).timesafe = u.timesafe ∧ v.top ≤ (divExtend u v).top ∧
      val (divExtend u v).digits = val u.digits ∧
      val (load (divExtend u v).p ((divExtend u v).top - v.top) v.top) < val v.digits := by
  obtain ⟨hvlow, -⟩ := val_bounds hv0
  have hvge : (2 ^ 32) ^ (v.top - 1) ≤ val v.digits := (Nat.le_mul_of_pos_left _ hvpos).trans hvlow
  have htops : v.top ≤ u.top := by
    have hlt := val_lt u.digits
    rw [length_digits] at hlt
    have := (Nat.pow_lt_pow_iff_right (show 1 < 2 ^ 32 by decide)).1 (Nat.lt_of_le_of_lt (hvge.trans hle) hlt)
    omega
  -- the digits from `n` on, with the highest by itself
  have hsplit : ∀ (p : Nat → mpdigit) (n t : Nat), n + v.top = t →
      val (load p n v.top) = val (load p n (v.top - 1)) + (2 ^ 32) ^ (v.top - 1) * (p (t - 1)).toNat ∧
        val (load p n (v.top - 1)) < (2 ^ 32) ^ (v.top - 1) := by
    rintro p n t rfl
    obtain ⟨m, _⟩ := Nat.exists_eq_add_of_lt (Nat.pos_of_ne_zero hv0)
    rw [show v.top = m + 1 by omega, Nat.add_sub_cancel, load_add, val_append, length_load]
    exact ⟨by rw [show load p (n + m) 1 = [p (n + m)] from rfl, val_singleton]; rfl,
      Nat.lt_of_lt_of_eq (val_lt _) (by rw [length_load])⟩
  unfold divExtend
  by_cases hge : u.p (u.top - 1) ≥ v.p (v.top - 1)
  · rw [if_pos hge]
    refine ⟨rfl, rfl, Nat.le_succ_of_le htops, ?_, ?_⟩
    · have hdigits : load (store u.p u.top [0]) 0 (u.top + 1) = load u.p 0 u.top ++ [0] := by
        have hback := @load_store_back _ u.p 0 u.top [0]
        rwa [Nat.zero_add] at hback
      change val (load (store u.p u.top [0]) 0 (u.top + 1)) = _
      rw [hdigits, val_append, val_singleton, UInt32.toNat_zero, Nat.mul_zero]
      rfl
    obtain ⟨heq, hlt⟩ := hsplit (store u.p u.top [0]) (u.top + 1 - v.top) (u.top + 1) (by omega)
    have hzero : store u.p u.top [0] u.top = 0 := by
      unfold store
      rw [if_pos le_rfl, Nat.sub_self]
      rfl
    rw [heq, Nat.add_sub_cancel, hzero, UInt32.toNat_zero, Nat.mul_zero]
    exact Nat.lt_of_lt_of_le hlt hvge
  rw [if_neg hge]
  obtain ⟨heq, hlt⟩ := hsplit u.p (u.top - v.top) u.top (by omega)
  have hless := UInt32.lt_iff_toNat_lt.1 (UInt32.not_le.1 hge)
  refine ⟨rfl, rfl, htops, rfl, ?_⟩
  have hmul : (2 ^ 32) ^ (v.top - 1) * ((u.p (u.top - 1)).toNat + 1) ≤ (2 ^ 32) ^ (v.top - 1) * (v.p (v.top - 1)).toNat :=
    Nat.mul_le_mul_left _ hless
  rw [Nat.mul_add, Nat.mul_one] at hmul
  rw [Nat.mul_comm] at hvlow
  omega

theorem long_digits (hV : Normalized V) (hDt : D.timesafe = false) (hVt : V.timesafe = false)
    (hpos : 0 < val V.digits) (hle : val V.digits ≤ val D.digits) (stays : Bool) :
    ∃ s u v q p, highLoop 32 (V.p (V.top - 1)) 0 = some s ∧ divShift D V s stays = some (u, v) ∧ s < 32 ∧
      longLoop v.digits ((divExtend u v).top - v.top) (divExtend u v).p [] = (q, p) ∧
      v.top ≤ (divExtend u v).top ∧ v.top ≠ 0 ∧ (divExtend u v).sign = D.sign ∧ (divExtend u v).timesafe = false ∧
      q.length = (divExtend u v).top - v.top ∧ val q = val D.digits / val V.digits ∧
      val (load p 0 v.top) = val D.digits % val V.digits * 2 ^ s := by
  obtain ⟨s, u, v, hloop, hshift, hs, ⟨huval, husign, hut⟩, hvval, hv0, hvhigh⟩ :=
    divShift_spec hV hDt hVt hpos hle stays
  have hpow := Nat.two_pow_pos s
  have hvpos : 0 < val v.digits := by rw [hvval]; exact Nat.mul_pos hpos hpow
  obtain ⟨hsign, hts, htop, hval, hlt⟩ := divExtend_spec hv0 (by omega)
    (by rw [huval, hvval]; exact Nat.mul_le_mul_right _ hle)
  have hne : v.digits ≠ [] := by
    intro hnil
    rw [hnil] at hvpos
    exact Nat.lt_irrefl 0 hvpos
  have hlast : v.digits.getLastD 0 = v.p (v.top - 1) := by
    rw [digits_eq hv0, getLastD_eq_getLast?, getLast?_concat]
    rfl
  obtain ⟨q, p, hlong, hqlen, hsum, hrest⟩ := longLoop_spec hne (by rw [hlast]; exact hvhigh) hvpos
    ((divExtend u v).top - v.top) (divExtend u v).p [] (by rw [length_digits]; exact hlt)
  rw [length_digits] at hsum hrest
  rw [Nat.sub_add_cancel htop, show load (divExtend u v).p 0 (divExtend u v).top = (divExtend u v).digits from rfl, hval,
    huval, Nat.add_comm] at hsum
  have hunique := (Nat.div_mod_unique hvpos).2 ⟨(Nat.mul_comm .. ▸ hsum.symm), hrest⟩
  rw [hvval, Nat.mul_div_mul_right _ _ hpow, Nat.mul_mod_mul_right] at hunique
  rw [append_nil] at hlong
  exact ⟨s, u, v, q, p, hloop, hshift, hs, hlong, htop, hv0, hsign.trans husign, hts.trans hut, hqlen, hunique.1.symm,
    hunique.2.symm⟩

end

end Plan9.Mp
