/-
`mpvecmul` multiplies (`Plan9.Libmp.Mul`).

The plain loop adds to what is at `p`: each digit of `b` writes the digit above those it adds to, so
what is left of `p` is its lowest digits and those that zeros of `b` did not write (`kept`). The recursive
way takes nothing from `p`. Its sums are of less than `reslen` digits all along, so every
carry is zero, and they come to the product by the identity of Karatsuba.
-/
import Mathlib.Tactic.LinearCombination
import Plan9.Libmp.Mul
import Plan9.Libmp.VecFacts

namespace Plan9.Mp

open Digits Memory List

variable {a b p l x res : List mpdigit} {k n : Nat}

theorem length_blit (h : x.length ≤ l.length) : (blit l x).length = l.length := by
  rw [blit, length_append, length_drop]
  omega

theorem val_blit (h : x.length ≤ l.length) :
    val (blit l x) = val x + (2 ^ 32) ^ x.length * (val l / (2 ^ 32) ^ x.length) := by
  rw [blit, val_append, val_drop h]

/-! ## The plain loop -/

/-- What stays of `p`. -/
def kept (skip : mpdigit → Bool) (alen : Nat) (b p : List mpdigit) : List mpdigit :=
  p.take alen ++ List.zipWith (fun d y => if skip d then y else 0) b (p.drop alen)

theorem val_kept (skip : mpdigit → Bool) {alen : Nat} (h : alen ≤ p.length) : val (kept skip alen b p) =
    val (p.take alen) + (2 ^ 32) ^ alen * val (List.zipWith (fun d y => if skip d then y else 0) b (p.drop alen)) := by
  rw [kept, val_append, length_take, Nat.min_eq_left h]

theorem mulRound_spec {skip : mpdigit → Bool} (hskip : ∀ d, skip d → d = 0) (d : mpdigit) (h : a.length < p.length) :
    let p' := if skip d then p else mpvecdigmuladd a d p
    p'.length = p.length ∧ p'.drop (a.length + 1) = p.drop (a.length + 1) ∧ val (p'.take (a.length + 1)) =
      d.toNat * val a + val (p.take a.length) + (2 ^ 32) ^ a.length * (if skip d then p[a.length] else 0).toNat := by
  dsimp only
  by_cases hd : skip d
  · rw [if_pos hd, if_pos hd, take_succ_eq_append_getElem h, val_append, val_singleton, length_take,
      Nat.min_eq_left (Nat.le_of_lt h), hskip d hd, UInt32.toNat_zero, Nat.zero_mul, Nat.zero_add]
    exact ⟨rfl, rfl, rfl⟩
  obtain ⟨r, hr, hlen, hval⟩ := @mpvecdigmuladd_spec d a p h
  rw [if_neg hd, if_neg hd, hr, UInt32.toNat_zero, Nat.mul_zero, Nat.add_zero]
  refine ⟨?_, ?_, ?_⟩
  · rw [length_append, length_drop]
    omega
  · rw [← hlen, drop_left]
  · rw [← hlen, take_left, hval]
    omega

theorem mulLoop_spec {skip : mpdigit → Bool} (hskip : ∀ d, skip d → d = 0) (a : List mpdigit) :
    ∀ b p : List mpdigit, a.length + b.length ≤ p.length →
    (mulLoop skip a b p).length = p.length ∧
      (mulLoop skip a b p).drop (a.length + b.length) = p.drop (a.length + b.length) ∧
      val ((mulLoop skip a b p).take (a.length + b.length)) = val a * val b + val (kept skip a.length b p)
  | [], p, h => by
    refine ⟨rfl, rfl, ?_⟩
    rw [mulLoop, val_nil, Nat.mul_zero, Nat.zero_add, kept, zipWith_nil_left, append_nil]
    rfl
  | d :: b, p, h => by
    rw [length_cons] at h
    obtain ⟨hlen, hdrop, hval⟩ := @mulRound_spec a p skip hskip d (by omega)
    rw [mulLoop]
    generalize (if skip d then p else mpvecdigmuladd a d p) = p' at hlen hdrop hval ⊢
    obtain ⟨z, p', rfl⟩ : ∃ z q, p' = z :: q := exists_cons_of_length_pos (by omega)
    rw [length_cons] at hlen
    obtain ⟨hlen', hdrop', hval'⟩ := mulLoop_spec hskip a b p' (by omega)
    rw [take_succ_cons, take_zero, drop_succ_cons, drop_zero, singleton_append,
      show a.length + (d :: b).length = a.length + b.length + 1 from rfl]
    refine ⟨by rw [length_cons, hlen', hlen], ?_, ?_⟩
    · rw [drop_succ_cons, hdrop', ← drop_drop, show p'.drop a.length = _ from hdrop, drop_drop]
      congr 1
      omega
    have hzip : zipWith (fun d y => if skip d then y else 0) (d :: b) (p.drop a.length) =
        (if skip d then p[a.length] else 0) ::
          zipWith (fun d y => if skip d then y else 0) b (p.drop (a.length + 1)) := by
      rw [drop_eq_getElem_cons (by omega), zipWith_cons_cons]
    rw [take_succ_cons, val_cons] at hval
    rw [take_succ_cons, val_cons, hval', val_kept skip (by omega), val_kept skip (by omega), hzip,
      ← hdrop, drop_succ_cons, mul_val_cons, mul_val_cons]
    generalize zipWith (fun d y => if skip d then y else 0) b (p'.drop a.length) = zs
    rw [Nat.mul_comm ((2 ^ 32) ^ a.length)] at hval
    omega

/-! ## Sums in the buffer -/

theorem val_middle {m : Nat} (hkm : k ≤ m) (hm : m ≤ l.length) (hlt : val l < (2 ^ 32) ^ m) :
    val ((l.drop k).take (m - k)) = val l / (2 ^ 32) ^ k := by
  have hpow : ((2 : Nat) ^ 32) ^ m = (2 ^ 32) ^ k * (2 ^ 32) ^ (m - k) := by
    rw [← Nat.pow_add, Nat.add_sub_cancel' hkm]
  rw [val_take (by rw [length_drop]; omega), val_drop (by omega), Nat.mod_eq_of_lt]
  exact Nat.div_lt_of_lt_mul (by rw [← hpow]; exact hlt)

theorem addAt_spec {reslen : Nat} (hres : res.length = reslen + 1) (hx : k + x.length ≤ reslen)
    (hlt : val res < (2 ^ 32) ^ reslen) :
    (addAt res reslen k x).length = reslen + 1 ∧ val (addAt res reslen k x) = val res + (2 ^ 32) ^ k * val x := by
  have hmid := @val_middle res k reslen (by omega) (by omega) hlt
  have hlen : ((res.drop k).take (reslen - k)).length = reslen - k := by
    rw [length_take, length_drop]
    omega
  obtain ⟨haddlen, hadd⟩ := @mpvecadd_spec ((res.drop k).take (reslen - k)) x (by omega)
  have hblit : blit (res.drop k) (mpvecadd ((res.drop k).take (reslen - k)) x) =
      mpvecadd ((res.drop k).take (reslen - k)) x := by
    have hnil : (res.drop k).drop (mpvecadd ((res.drop k).take (reslen - k)) x).length = [] :=
      drop_eq_nil_of_le (by rw [haddlen, hlen, length_drop]; omega)
    rw [blit, hnil, append_nil]
  have hdm := Nat.mod_add_div (val res) ((2 ^ 32) ^ k)
  unfold addAt
  rw [hblit, length_append, length_take, Nat.min_eq_left (by omega), val_append, val_take (by omega),
    length_take, Nat.min_eq_left (by omega), hadd, hmid, Nat.mul_add]
  omega

theorem subAt_spec {reslen : Nat} (hres : res.length = reslen + 1) (hx : k + x.length ≤ reslen)
    (hlt : val res < (2 ^ 32) ^ reslen) (hle : (2 ^ 32) ^ k * val x ≤ val res) :
    (subAt res reslen k x).length = reslen + 1 ∧ val (subAt res reslen k x) + (2 ^ 32) ^ k * val x = val res := by
  have hmid := @val_middle res k reslen (by omega) (by omega) hlt
  have hlen : ((res.drop k).take (reslen - k)).length = reslen - k := by
    rw [length_take, length_drop]
    omega
  have hquot : val x ≤ val res / (2 ^ 32) ^ k := by
    rw [Nat.le_div_iff_mul_le (by positivity), Nat.mul_comm]
    exact hle
  obtain ⟨hsublen, hsub⟩ := @mpvecsub_spec ((res.drop k).take (reslen - k)) x (by omega) (by rw [hmid]; exact hquot)
  -- the digit above is zero
  have htop : val ((res.drop k).drop (reslen - k)) = 0 := by
    rw [drop_drop, Nat.add_sub_cancel' (by omega), val_drop (by omega)]
    exact Nat.div_eq_of_lt hlt
  have hdm := Nat.mod_add_div (val res) ((2 ^ 32) ^ k)
  rw [hmid] at hsub
  rw [← hsub, Nat.mul_add] at hdm
  unfold subAt blit
  constructor
  · rw [hsublen, hlen, length_append, length_append, length_take, hsublen, hlen, length_drop,
      length_drop]
    omega
  · rw [hsublen, hlen, val_append, val_append, htop, val_take (by omega), length_take, Nat.min_eq_left (by omega),
      Nat.mul_zero, Nat.add_zero]
    omega

/-! ## Karatsuba -/

/-- What is added up is the product, once the middle term is taken in. -/
theorem karatsuba_identity {U0 U1 V0 V1 X du dv : Nat} :
    (U1 = U0 + du ∧ V0 = V1 + dv ∨ U0 = U1 + du ∧ V1 = V0 + dv →
        U0 * V0 + X * (U0 * V0) + X * (U1 * V1) + X ^ 2 * (U1 * V1) + X * (du * dv) = (U0 + X * U1) * (V0 + X * V1)) ∧
      (U1 = U0 + du ∧ V1 = V0 + dv ∨ U0 = U1 + du ∧ V0 = V1 + dv →
        U0 * V0 + X * (U0 * V0) + X * (U1 * V1) + X ^ 2 * (U1 * V1) = (U0 + X * U1) * (V0 + X * V1) + X * (du * dv)) := by
  constructor
  · rintro (⟨rfl, rfl⟩ | ⟨rfl, rfl⟩) <;> ring
  · rintro (⟨rfl, rfl⟩ | ⟨rfl, rfl⟩) <;> ring

theorem karatsuba_bound {p q d X : Nat} (hX : 1 ≤ X) (hp : p < X ^ 2) (hq : q < X ^ 2) (hd : d < X ^ 2) :
    p + X * p + X * q + X ^ 2 * q + X * d < 2 ^ 32 * X ^ 4 := by
  have hX4 : X ^ 4 = X ^ 2 * X ^ 2 := by ring
  have hle : X ≤ X ^ 2 := Nat.le_self_pow (by decide) X
  have hpX : X * p ≤ X ^ 2 * X ^ 2 := Nat.mul_le_mul hle (Nat.le_of_lt hp)
  have hqX : X * q ≤ X ^ 2 * X ^ 2 := Nat.mul_le_mul hle (Nat.le_of_lt hq)
  have hqXX : X ^ 2 * q ≤ X ^ 2 * X ^ 2 := Nat.mul_le_mul le_rfl (Nat.le_of_lt hq)
  have hdX : X * d ≤ X ^ 2 * X ^ 2 := Nat.mul_le_mul hle (Nat.le_of_lt hd)
  have hpp : X ^ 2 ≤ X ^ 2 * X ^ 2 := Nat.le_mul_of_pos_right _ (by positivity)
  omega

theorem val_lt_of_length {l : List mpdigit} {m : Nat} (h : l.length ≤ m) : val l < (2 ^ 32) ^ m :=
  Nat.lt_of_lt_of_le (val_lt l) (Nat.pow_le_pow_right (by decide) h)

/-- The five sums in the buffer: `neg` is the sign, and the second product is left out when it is zero. -/
theorem sums_spec {x0 x1 d : List mpdigit} {neg some1 : Prop} [Decidable neg] [Decidable some1] {ab : Nat}
    (h0 : x0.length ≤ 2 * n) (h1 : x1.length ≤ 2 * n) (hd : d.length ≤ 2 * n) (hnone : ¬some1 → val x1 = 0)
    (hpos : ¬neg → val x0 + (2 ^ 32) ^ n * val x0 + (2 ^ 32) ^ n * val x1 + ((2 ^ 32) ^ n) ^ 2 * val x1 +
      (2 ^ 32) ^ n * val d = ab)
    (hneg : neg → val x0 + (2 ^ 32) ^ n * val x0 + (2 ^ 32) ^ n * val x1 + ((2 ^ 32) ^ n) ^ 2 * val x1 =
      ab + (2 ^ 32) ^ n * val d) :
    let res := addAt (addAt (replicate (2 * (2 * n + 1)) 0) (4 * n + 1) 0 x0) (4 * n + 1) n x0
    let res := if some1 then addAt (addAt res (4 * n + 1) n x1) (4 * n + 1) (2 * n) x1 else res
    let res := if neg then subAt res (4 * n + 1) n d else addAt res (4 * n + 1) n d
    res.length = 4 * n + 2 ∧ val res = ab := by
  have hX : ((2 : Nat) ^ 32) ^ (2 * n) = ((2 ^ 32) ^ n) ^ 2 := by
    rw [Nat.mul_comm 2 n]
    exact Nat.pow_mul ..
  have hX4 : ((2 : Nat) ^ 32) ^ (4 * n + 1) = 2 ^ 32 * ((2 ^ 32) ^ n) ^ 4 := by
    rw [base_pow_succ, ← Nat.pow_mul _ n 4, Nat.mul_comm n 4]
  have hbound := karatsuba_bound (show 1 ≤ ((2 : Nat) ^ 32) ^ n from Nat.one_le_pow _ _ (by decide))
    (by rw [← hX]; exact val_lt_of_length h0) (by rw [← hX]; exact val_lt_of_length h1)
    (by rw [← hX]; exact val_lt_of_length hd)
  intro res res' res''
  obtain ⟨hlen1, hval1⟩ := @addAt_spec x0 (replicate (2 * (2 * n + 1)) 0) 0 (4 * n + 1)
    (by rw [length_replicate]; omega) (by omega) (by rw [val_replicate_zero]; positivity)
  rw [val_replicate_zero, Nat.pow_zero, Nat.one_mul, Nat.zero_add] at hval1
  obtain ⟨hlen2, hval2⟩ := @addAt_spec x0 _ n (4 * n + 1) hlen1 (by omega) (by omega)
  have hmid : res'.length = 4 * n + 2 ∧ val res' = val x0 + (2 ^ 32) ^ n * val x0 + (2 ^ 32) ^ n * val x1 +
      ((2 ^ 32) ^ n) ^ 2 * val x1 := by
    by_cases hsome : some1
    · obtain ⟨hlen3, hval3⟩ := @addAt_spec x1 _ n (4 * n + 1) hlen2 (by omega) (by omega)
      obtain ⟨hlen4, hval4⟩ := @addAt_spec x1 _ (2 * n) (4 * n + 1) hlen3 (by omega) (by omega)
      rw [hX] at hval4
      rw [show res' = _ from if_pos hsome]
      exact ⟨hlen4, by rw [hval4, hval3, hval2, hval1]⟩
    · rw [show res' = res from if_neg hsome, hnone hsome]
      exact ⟨hlen2, hval2.trans (by rw [hval1]; rfl)⟩
  by_cases hsign : neg
  · obtain ⟨hlen, hval⟩ := @subAt_spec d res' n (4 * n + 1) hmid.1 (by omega) (by omega)
      (by rw [hmid.2, hneg hsign]; omega)
    rw [hmid.2, hneg hsign] at hval
    rw [show res'' = _ from if_pos hsign]
    exact ⟨hlen, by omega⟩
  obtain ⟨hlen, hval⟩ := @addAt_spec d res' n (4 * n + 1) hmid.1 (by omega) (by omega)
  rw [hmid.2, hpos hsign] at hval
  rw [show res'' = _ from if_neg hsign]
  exact ⟨hlen, hval⟩

theorem sub_shorter {x y : List mpdigit} (h : y.length ≤ x.length) (hle : val x ≤ val y) :
    (mpvecsub y (x.take y.length)).length = y.length ∧ val (mpvecsub y (x.take y.length)) + val x = val y := by
  have htake : val (x.take y.length) = val x := by
    rw [val_take h, Nat.mod_eq_of_lt (Nat.lt_of_le_of_lt hle (val_lt y))]
  have hspec := @mpvecsub_spec y (x.take y.length) (by rw [length_take]; omega) (by rw [htake]; exact hle)
  rwa [htake] at hspec

theorem val_take_blit_zeros {x : List mpdigit} {k m : Nat} (h : x.length ≤ k) (hkm : k ≤ m) :
    ((blit (List.replicate m 0) x).take k).length = k ∧ val ((blit (List.replicate m 0) x).take k) = val x := by
  have hlen := @length_blit (replicate m 0) x (by rw [length_replicate]; omega)
  have hval := @val_blit (replicate m 0) x (by rw [length_replicate]; omega)
  rw [length_replicate] at hlen
  rw [val_replicate_zero, Nat.zero_div, Nat.mul_zero, Nat.add_zero] at hval
  refine ⟨by rw [length_take, hlen]; omega, ?_⟩
  rw [val_take (by omega), hval, Nat.mod_eq_of_lt (val_lt_of_length h)]

/-- What multiplying is, for one of the functions that do. -/
def Multiplies (mul : Vecmul) (a b p : List mpdigit) : Prop :=
  (mul a b p).length = p.length ∧ (mul a b p).drop (a.length + b.length) = p.drop (a.length + b.length) ∧
    val ((mul a b p).take (a.length + b.length)) = val a * val b

/-- Vectors of up to `n` digits into zeros. -/
def MultipliesUpTo (mul : Vecmul) (n : Nat) : Prop :=
  ∀ u v q : List mpdigit, u.length ≤ n → v.length ≤ n → u.length + v.length ≤ q.length → val q = 0 → Multiplies mul u v q

theorem halves_differ {x y : List mpdigit} (h : y.length ≤ x.length) :
    let d := if mpveccmp y x < 0 then mpvecsub x y else mpvecsub y (x.take y.length)
    let e := if mpveccmp x y < 0 then mpvecsub y (x.take y.length) else mpvecsub x y
    (d.length ≤ x.length ∧ (mpveccmp y x < 0 → val x = val y + val d) ∧
        (¬mpveccmp y x < 0 → val y = val x + val d)) ∧
      e.length ≤ x.length ∧ (mpveccmp x y < 0 → val y = val x + val e) ∧
        (¬mpveccmp x y < 0 → val x = val y + val e) := by
  obtain ⟨hyx, -⟩ := mpveccmp_spec y x
  obtain ⟨hxy, -⟩ := mpveccmp_spec x y
  constructor
  · by_cases hcmp : mpveccmp y x < 0
    · obtain ⟨hlen, hval⟩ := mpvecsub_spec h (Nat.le_of_lt (hyx.1 hcmp))
      rw [if_pos hcmp]
      exact ⟨Nat.le_of_eq hlen, fun _ => by omega, fun hn => absurd hcmp hn⟩
    · obtain ⟨hlen, hval⟩ := sub_shorter h (by omega)
      rw [if_neg hcmp]
      exact ⟨by omega, fun hn => absurd hn hcmp, fun _ => by omega⟩
  by_cases hcmp : mpveccmp x y < 0
  · obtain ⟨hlen, hval⟩ := sub_shorter h (Nat.le_of_lt (hxy.1 hcmp))
    rw [if_pos hcmp]
    exact ⟨by omega, fun _ => by omega, fun hn => absurd hcmp hn⟩
  · obtain ⟨hlen, hval⟩ := @mpvecsub_spec x y h (by omega)
    rw [if_neg hcmp]
    exact ⟨Nat.le_of_eq hlen, fun hn => absurd hn hcmp, fun _ => by omega⟩

theorem Multiplies.length_val {mul : Vecmul} {m : Nat}
    (h : Multiplies mul a b (List.replicate m 0)) (hm : a.length + b.length ≤ m) :
    ((mul a b (List.replicate m 0)).take (a.length + b.length)).length = a.length + b.length ∧
      val ((mul a b (List.replicate m 0)).take (a.length + b.length)) = val a * val b := by
  obtain ⟨hlen, -, hval⟩ := h
  refine ⟨?_, hval⟩
  rw [length_take, hlen, length_replicate]
  omega

section

variable {mul : Vecmul} {u0 u1 v0 v1 : List mpdigit}

theorem diffprod_spec {x y : List mpdigit} (hu0 : u0.length = n) (hv0 : v0.length ≤ n) (hx : x.length ≤ u0.length)
    (hy : y.length ≤ v0.length)
    (hmul : MultipliesUpTo mul n) :
    let zeros := replicate (2 * n + 1) 0
    let diffprod := (mul ((blit zeros x).take u0.length) ((blit zeros y).take v0.length) zeros).take (u0.length + v0.length)
    diffprod.length = u0.length + v0.length ∧ val diffprod = val x * val y := by
  obtain ⟨hxlen, hxval⟩ := @val_take_blit_zeros x u0.length (2 * n + 1) hx (by omega)
  obtain ⟨hylen, hyval⟩ := @val_take_blit_zeros y v0.length (2 * n + 1) hy (by omega)
  intro zeros diffprod
  have hdiff := (hmul _ _ zeros (Nat.le_of_eq (hxlen.trans hu0)) (by rw [hylen]; exact hv0)
    (by rw [hxlen, hylen, length_replicate]; omega) (val_replicate_zero _)).length_val (by rw [hxlen, hylen]; omega)
  rwa [hxlen, hylen, hxval, hyval] at hdiff

theorem highprod_spec (hu1 : u1.length ≤ n) (hv1 : v1.length ≤ n)
    (hmul : MultipliesUpTo mul n) :
    let zeros := replicate (2 * n + 1) 0
    let high := (if v1.length > 0 then mul u1 v1 zeros else zeros).take (u1.length + v1.length)
    high.length = u1.length + v1.length ∧ val high = val u1 * val v1 := by
  intro zeros high
  by_cases hpos : v1.length > 0
  · rw [show high = _ from congrArg (take _) (if_pos hpos)]
    exact (hmul u1 v1 zeros hu1 hv1 (by rw [length_replicate]; omega) (val_replicate_zero _)).length_val (by omega)
  have hnil : v1 = [] := eq_nil_of_length_eq_zero (by omega)
  rw [show high = _ from congrArg (take _) (if_neg hpos), take_replicate, length_replicate,
    val_replicate_zero, hnil, val_nil, Nat.mul_zero, length_nil]
  exact ⟨by omega, rfl⟩

theorem sign_neg {hu hv : Prop} [Decidable hu] [Decidable hv] :
    (if hv then (if hu then (-1 : Int) else 1) * -1 else if hu then -1 else 1) < 0 ↔ (hu ∧ ¬hv ∨ ¬hu ∧ hv) := by
  by_cases h : hu <;> by_cases h' : hv <;> simp [h, h']

theorem karatsubaSum_spec (hu0 : u0.length = n) (hu1 : u1.length ≤ n) (hv0 : v0.length ≤ n)
    (hv1 : v1.length ≤ v0.length) (hmul : MultipliesUpTo mul n) :
    (karatsubaSum mul n u0 u1 v0 v1).length = 4 * n + 2 ∧
      val (karatsubaSum mul n u0 u1 v0 v1) = (val u0 + (2 ^ 32) ^ n * val u1) * (val v0 + (2 ^ 32) ^ n * val v1) := by
  obtain ⟨⟨hdulen, hdupos, hduneg⟩, -⟩ := @halves_differ u0 u1 (by omega)
  obtain ⟨-, hdvlen, hdvneg, hdvpos⟩ := @halves_differ v0 v1 hv1
  obtain ⟨_, hdiff⟩ := diffprod_spec hu0 hv0 hdulen hdvlen hmul
  obtain ⟨_, hhigh⟩ := @highprod_spec n mul u1 v1 hu1 (hv1.trans hv0) hmul
  obtain ⟨_, hlow⟩ := (hmul u0 v0 (replicate (2 * n + 1) 0) (Nat.le_of_eq hu0) hv0
    (by rw [length_replicate]; omega) (val_replicate_zero _)).length_val (by omega)
  refine sums_spec (by omega) (by omega) (by omega) (fun hnone => ?_) (fun hs => ?_) fun hs => ?_
  · rw [hhigh, eq_nil_of_length_eq_zero (show v1.length = 0 by omega), val_nil, Nat.mul_zero]
  · rw [sign_neg] at hs
    rw [hlow, hhigh, hdiff]
    apply karatsuba_identity.1
    by_cases hu : mpveccmp u1 u0 < 0
    · exact .inr ⟨hdupos hu, hdvneg (by_contra fun hv => hs (.inl ⟨hu, hv⟩))⟩
    · exact .inl ⟨hduneg hu, hdvpos fun hv => hs (.inr ⟨hu, hv⟩)⟩
  rw [hlow, hhigh, hdiff]
  apply karatsuba_identity.2
  rcases sign_neg.1 hs with ⟨hu, hv⟩ | ⟨hu, hv⟩
  · exact .inr ⟨hdupos hu, hdvpos hv⟩
  · exact .inl ⟨hduneg hu, hdvneg hv⟩

end

theorem karatsuba_spec {mul : Vecmul}
    (hn : n = if a.length % 2 = 1 then a.length / 2 + 1 else a.length / 2) (hba : b.length ≤ a.length)
    (hp : a.length + b.length ≤ p.length)
    (hmul : MultipliesUpTo mul n) :
    Multiplies (mpkaratsuba mul) a b p := by
  have hn2 : a.length ≤ 2 * n ∧ n ≤ a.length := by
    rw [hn]
    split <;> omega
  have hv0 : (if b.length > n then n else b.length) = min n b.length := by
    split <;> omega
  have hu0len : (a.take n).length = n := by rw [length_take]; omega
  have hu1len : (a.drop n).length = a.length - n := length_drop
  have hv0len : (b.take (min n b.length)).length = min n b.length := by rw [length_take]; omega
  have hv1len : (b.drop (min n b.length)).length = b.length - min n b.length := length_drop
  have ha : val a = val (a.take n) + (2 ^ 32) ^ n * val (a.drop n) := val_take_drop hn2.2
  have hb : val b = val (b.take (min n b.length)) + (2 ^ 32) ^ n * val (b.drop (min n b.length)) := by
    by_cases hle : n ≤ b.length
    · rw [Nat.min_eq_left hle, val_take_drop hle]
    · rw [Nat.min_eq_right (by omega), take_length, drop_length, val_nil, Nat.mul_zero, Nat.add_zero]
  obtain ⟨hlen, hval⟩ := @karatsubaSum_spec n mul _ (a.drop n) (b.take (min n b.length)) (b.drop (min n b.length)) hu0len
    (by omega) (by omega) (by omega) hmul
  rw [← ha, ← hb] at hval
  unfold Multiplies mpkaratsuba
  dsimp only
  rw [← hn, hv0]
  generalize karatsubaSum mul n _ _ _ _ = res at hlen hval ⊢
  have htake : (res.take (a.length + b.length)).length = a.length + b.length := by
    rw [length_take, hlen]
    omega
  refine ⟨length_blit (by omega), ?_, ?_⟩
  · rw [blit, drop_append_of_le_length (by omega), htake, drop_eq_nil_of_le (by omega), nil_append]
  have hlt : val a * val b < (2 ^ 32) ^ (a.length + b.length) := by
    rw [Nat.pow_add]
    exact Nat.mul_lt_mul'' (val_lt a) (val_lt b)
  rw [blit, take_append_of_le_length (by omega), take_of_length_le (by omega), val_take (by omega), hval,
    Nat.mod_eq_of_lt hlt]

/-! ## Vectors of any lengths -/

/-- The recursive way is taken. -/
def Long (a b : List mpdigit) : Prop := karatsubaMin ≤ max a.length b.length ∧ 1 < min a.length b.length

instance : Decidable (Long a b) := inferInstanceAs (Decidable (_ ∧ _))

/-- What stays of `p`, whichever is longer. -/
def stays (skip : mpdigit → Bool) (a b p : List mpdigit) : List mpdigit :=
  if a.length < b.length then kept skip b.length a p else kept skip a.length b p

theorem val_kept_of_zero {skip : mpdigit → Bool} {alen : Nat} (h : val p = 0) : val (kept skip alen b p) = 0 := by
  rw [val_eq_zero_iff] at h ⊢
  intro d hd
  rcases mem_append.1 hd with hd | hd
  · exact h d (mem_of_mem_take hd)
  obtain ⟨i, -, rfl⟩ := getElem_of_mem hd
  rw [getElem_zipWith]
  split
  · exact h _ (mem_of_mem_drop (getElem_mem _))
  · rfl

theorem stays_of_zero {skip : mpdigit → Bool} (h : val p = 0) : val (stays skip a b p) = 0 := by
  unfold stays
  split <;> exact val_kept_of_zero h

/-- What a function that multiplies leaves at `p` besides the product. -/
def MultipliesTo (mul : Vecmul) (a b p : List mpdigit) (rest : Nat) : Prop :=
  (mul a b p).length = p.length ∧ (mul a b p).drop (a.length + b.length) = p.drop (a.length + b.length) ∧
    val ((mul a b p).take (a.length + b.length)) = val a * val b + rest

theorem mulLonger_spec {mul : Vecmul} (hba : b.length ≤ a.length)
    (hp : a.length + b.length ≤ p.length)
    (hmul : ∀ u v q : List mpdigit, max u.length v.length < a.length → u.length + v.length ≤ q.length → val q = 0 →
      Multiplies mul u v q) :
    MultipliesTo (mulLonger mul) a b p (if Long a b then 0 else val (kept (· = 0) a.length b p)) := by
  have hlong : Long a b ↔ a.length ≥ karatsubaMin ∧ b.length > 1 := by
    rw [Long, Nat.max_eq_left hba, Nat.min_eq_right hba]
  unfold MultipliesTo mulLonger
  by_cases h : Long a b
  · rw [if_pos h, if_pos (hlong.1 h), Nat.add_zero]
    have hmin : 32 ≤ a.length := (hlong.1 h).1
    refine karatsuba_spec rfl hba hp fun u v q hu hv hq hz => hmul u v q ?_ hq hz
    split at hu <;> split at hv <;> omega
  · rw [if_neg h, if_neg (mt hlong.2 h)]
    exact mulLoop_spec (fun d hd => of_decide_eq_true hd) a b p hp

/-- By the depth, which the longer length is enough for: a half is shorter. -/
theorem vecmulDepth_spec (k : Nat) (a b p : List mpdigit) (hk : max a.length b.length ≤ k)
    (hp : a.length + b.length ≤ p.length) :
    MultipliesTo (vecmulDepth k) a b p (if Long a b then 0 else val (stays (· = 0) a b p)) := by
  induction k generalizing a b p with
  | zero =>
    have ha : a = [] := eq_nil_of_length_eq_zero (by omega)
    have hb : b = [] := eq_nil_of_length_eq_zero (by omega)
    subst ha hb
    exact ⟨rfl, rfl, rfl⟩
  | succ k ih =>
    have hmul : ∀ u v q : List mpdigit, max u.length v.length < max a.length b.length →
        u.length + v.length ≤ q.length → val q = 0 → Multiplies (vecmulDepth k) u v q := by
      intro u v q hlt hq hz
      have hspec := ih u v q (by omega) hq
      rwa [stays_of_zero hz, ite_self] at hspec
    unfold MultipliesTo vecmulDepth stays
    by_cases hlt : a.length < b.length
    · have hcomm : Long a b ↔ Long b a := by rw [Long, Long, Nat.max_comm, Nat.min_comm]
      have hspec := @mulLonger_spec b a p (vecmulDepth k) (Nat.le_of_lt hlt) (by omega) (by
        rwa [Nat.max_eq_right (Nat.le_of_lt hlt)] at hmul)
      rw [if_pos hlt, if_pos hlt, Nat.add_comm a.length, Nat.mul_comm (val a), if_congr hcomm rfl rfl]
      exact hspec
    · rw [if_neg hlt, if_neg hlt]
      exact mulLonger_spec (Nat.le_of_not_lt hlt) hp (by rwa [Nat.max_eq_left (Nat.le_of_not_lt hlt)] at hmul)

theorem mpvecmul_spec (hp : a.length + b.length ≤ p.length) :
    MultipliesTo mpvecmul a b p (if Long a b then 0 else val (stays (· = 0) a b p)) :=
  vecmulDepth_spec _ a b p le_rfl hp

theorem mpvectsmul_spec (hp : a.length + b.length ≤ p.length) :
    MultipliesTo mpvectsmul a b p (val (stays (fun _ => false) a b p)) := by
  have hskip : ∀ d : mpdigit, (fun _ : mpdigit => false) d → d = 0 := fun _ h => nomatch h
  unfold MultipliesTo mpvectsmul stays
  by_cases hlt : a.length < b.length
  · rw [if_pos hlt, if_pos hlt, Nat.add_comm a.length, Nat.mul_comm (val a)]
    exact mulLoop_spec hskip b a p (by omega)
  · rw [if_neg hlt, if_neg hlt]
    exact mulLoop_spec hskip a b p hp

/-! ## Numbers -/

theorem MultipliesTo.into_zeros {mul : Vecmul} {rest : Nat}
    (h : MultipliesTo mul a b p rest) (hrest : rest = 0) (hp : a.length + b.length ≤ p.length) (hz : val p = 0) :
    (mul a b p).length = p.length ∧ val (mul a b p) = val a * val b := by
  obtain ⟨hlen, hdrop, hval⟩ := h
  have hhigh : val (p.drop (a.length + b.length)) = 0 :=
    val_eq_zero_iff.2 fun d hd => val_eq_zero_iff.1 hz d (mem_of_mem_drop hd)
  refine ⟨hlen, ?_⟩
  rw [val_take_drop (show a.length + b.length ≤ (mul a b p).length by omega), hval, hdrop, hhigh, hrest]
  rfl

theorem into_zeros (timesafe : Bool) (hp : a.length + b.length ≤ p.length) (hz : val p = 0) :
    let mul := if timesafe then mpvectsmul else mpvecmul
    (mul a b p).length = p.length ∧ val (mul a b p) = val a * val b := by
  cases timesafe with
  | true => exact (mpvectsmul_spec hp).into_zeros (stays_of_zero hz) hp hz
  | false => exact (mpvecmul_spec hp).into_zeros (by rw [stays_of_zero hz, ite_self]) hp hz

theorem mulInto_spec (b1 b2 prod : mpint) : (mulInto b1 b2 prod).value = b1.value * b2.value ∧
    (mulInto b1 b2 prod).sign = b1.sign * b2.sign ∧
    (mulInto b1 b2 prod).timesafe = (prod.timesafe || (b1.timesafe || b2.timesafe)) := by
  unfold mulInto
  extract_lets n c q mul
  have hz : val (load q.p 0 n) = 0 := by
    have hload := val_load_mpbits c (n * 32) rfl
    rwa [Nat.mul_comm, DIGITS_mul, Nat.mul_comm] at hload
  obtain ⟨hlen, hval⟩ := @into_zeros b1.digits b2.digits (load q.p 0 n) q.timesafe (by
    rw [length_digits, length_digits, length_load]
    omega) hz
  rw [length_load] at hlen
  have hload := @load_stored n q.p (mul b1.digits b2.digits (load q.p 0 n)) hlen.symm
  refine ⟨?_, rfl, (mpbits_spec c (n * 32)).2.1⟩
  change b1.sign * b2.sign * (val (load _ 0 n) : Int) = _
  rw [hload, show val (mul b1.digits b2.digits (load q.p 0 n)) = val b1.digits * val b2.digits from hval, Int.natCast_mul]
  exact mul_mul_mul_comm ..

/-- The signed product, whichever places are one. -/
def Product (σ σ' : Mpints) (b1 b2 prod : Nat) : Prop :=
  (σ' prod).value = (σ b1).value * (σ b2).value ∧ ∀ q, q ≠ prod → σ' q = σ q

theorem mpmul_iff (σ : Mpints) (b1 b2 prod : Nat) :
    (∃ σ', mpmul σ b1 b2 prod = some σ' ∧ Product σ σ' b1 b2 prod) ↔
    ((σ prod).timesafe || ((σ b1).timesafe || (σ b2).timesafe) → (σ b1).sign * (σ b2).sign = 1) := by
  have hcase : ∀ (c : mpint) (put : mpint → mpint), c.timesafe = (σ prod).timesafe → (∀ p, (put p).value = p.value) →
      ((∃ σ', (do
        let p ← mpnorm (mulInto (σ b1) (σ b2) c)
        some (Function.update σ prod (put p))) = some σ' ∧ Product σ σ' b1 b2 prod) ↔
      ((σ prod).timesafe || ((σ b1).timesafe || (σ b2).timesafe) → (σ b1).sign * (σ b2).sign = 1)) := by
    intro c put hc hput
    obtain ⟨hval, hsign, hts⟩ := mulInto_spec (σ b1) (σ b2) c
    rw [← hc, ← hts, ← hsign, ← mpnorm_iff]
    constructor
    · rintro ⟨σ', hdo, -⟩
      obtain ⟨p, hp, -⟩ := Option.bind_eq_some_iff.1 hdo
      exact ⟨p, hp⟩
    · rintro ⟨p, hp⟩
      refine ⟨_, by rw [hp]; rfl, ?_, fun q hq => Function.update_of_ne hq ..⟩
      rw [Function.update_self, hput, (mpnorm_same hp).1, hval]
  unfold mpmul
  split
  · exact hcase _ _ rfl fun p => value_mpassign p (σ prod)
  · exact hcase _ id rfl fun p => rfl

/-- Both halves: `mpvecmul` gives the product just when it is recursive or nothing stays of `p`, and `mpmul` just
when no time safe product is negative. -/
theorem multiplies_iff (a b p : List mpdigit) (σ : Mpints) (b1 b2 prod : Nat) :
    (a.length + b.length ≤ p.length →
      (Multiplies mpvecmul a b p ↔ Long a b ∨ val (stays (· = 0) a b p) = 0) ∧
        (val p = 0 → Multiplies mpvecmul a b p)) ∧
    ((∃ σ', mpmul σ b1 b2 prod = some σ' ∧ Product σ σ' b1 b2 prod) ↔
      ((σ prod).timesafe || ((σ b1).timesafe || (σ b2).timesafe) → (σ b1).sign * (σ b2).sign = 1)) := by
  refine ⟨fun hp => ?_, mpmul_iff σ b1 b2 prod⟩
  obtain ⟨hlen, hdrop, hval⟩ := mpvecmul_spec hp
  have hiff : Multiplies mpvecmul a b p ↔ Long a b ∨ val (stays (· = 0) a b p) = 0 := by
    unfold Multiplies
    rw [hval]
    by_cases hlong : Long a b
    · rw [if_pos hlong]
      exact ⟨fun _ => .inl hlong, fun _ => ⟨hlen, hdrop, rfl⟩⟩
    · rw [if_neg hlong]
      refine ⟨fun h => .inr (Nat.add_eq_left.1 h.2.2), fun h => ⟨hlen, hdrop, ?_⟩⟩
      rw [h.resolve_left hlong, Nat.add_zero]
  exact ⟨hiff, fun hz => hiff.2 (.inr (stays_of_zero hz))⟩

/-- On the recursive path, over digits that are not zero. -/
theorem multiplies_long : Multiplies mpvecmul (List.replicate 33 0xffffffff) [0xffffffff, 2] (List.replicate 35 7) := by
  have hlong : Long (List.replicate 33 0xffffffff) [0xffffffff, 2] := ⟨by decide, by decide⟩
  exact (((multiplies_iff (List.replicate 33 0xffffffff) [0xffffffff, 2] (List.replicate 35 7) (fun _ => ⟨1, 0, fun _ => 0, false, false⟩) 0 0 0).1
    (by decide)).1).2 (.inl hlong)

/-- Two times three into a vector that was not zero, and, time safe, into a negative product. -/
theorem mpvecmul_adds : ¬Multiplies mpvecmul [2] [3] [1, 0] ∧
    mpmul (fun i => ⟨if i = 0 then -1 else 1, 1, fun _ => 2, true, false⟩) 0 1 2 = none := by
  constructor
  · rintro ⟨-, -, hval⟩
    revert hval
    decide
  · rfl

end Plan9.Mp
