/-
The Chinese remainder theorem: `libmp/port/crt.c`.

`crtout` takes each mixed-radix digit with `mpmod`, which gives `m` for a negative multiple
of `m`. A digit that ought to be zero is then `m`, and the sum runs over by a whole
product; a later digit takes that back when it is two or more. `crtin` is given a number of the
caller's, and where that is zero, with the digit `low` left in it, a modulus that is a power of two
takes its residue of `low`.
-/
import Plan9.Libmp.MpintFacts
import Mathlib.Algebra.Order.BigOperators.GroupWithZero.List
import Mathlib.Algebra.BigOperators.Ring.Finset
import Mathlib.Data.Nat.ChineseRemainder

namespace Plan9.Libmp

open List

/-- The coefficients are those from the second modulus on. -/
structure CRTpre where
  m : List Int
  c : List Int
  p : List Int

/-- `for(j = 0; j < i; j++){ mpinvert(m[j], m[i], u); ... }` -/
def coef (m : Int) : List Int → Int → Option Int
  | [], c => some c
  | mj :: ms, c =>
    match mpinvert mj m with
    | none => none
    | some u =>
      match mpmod (u * c) m with
      | none => none
      | some c => coef m ms c

/-- For the moduli after those of `pre`. -/
def coefs (pre : List Int) : List Int → Option (List Int)
  | [] => some []
  | m :: ms =>
    match coef m pre 1 with
    | none => none
    | some c =>
      match coefs (pre ++ [m]) ms with
      | none => none
      | some cs => some (c :: cs)

def products (u : Int) : List Int → List Int
  | [] => []
  | m :: ms => u * m :: products (u * m) ms

def crtpre (m : List Int) : Option CRTpre :=
  match coefs (m.take 1) (m.drop 1) with
  | none => none
  | some c => some ⟨m, c, products 1 m⟩

def residues (low : Nat) (x : Int) : List Int → Option (List Int)
  | [] => some []
  | m :: ms =>
    match mpmodOver low x m with
    | none => none
    | some r =>
      match residues low x ms with
      | none => none
      | some rs => some (r :: rs)

def crtin (low : Nat) (crt : CRTpre) (x : Int) : Option (List Int) := residues low x crt.m

/-- `for(i = 1; i < crt->n; i++)` -/
def crtoutLoop : List Int → List Int → List Int → List Int → Int → Option Int
  | r :: rs, c :: cs, m :: ms, p :: ps, x =>
    match mpmod ((r - x) * c) m with
    | none => none
    | some u => crtoutLoop rs cs ms ps (x + u * p)
  | _, _, _, _, x => some x

/-- `none` with no residue: `res->r[0]` is not there. -/
def crtout (crt : CRTpre) : List Int → Option Int
  | [] => none
  | r :: rs => crtoutLoop rs crt.c (crt.m.drop 1) crt.p r

/-! ## Coefficients -/

/-- What `x` has to be coprime to. -/
def Coprime (m : Int) (l : List Int) : Prop := ∀ j ∈ l, 0 < j ∧ Int.gcd j m = 1

theorem coef_spec {m : Int} (hm : 0 < m) : ∀ (l : List Int) (c : Int), Coprime m l → 0 ≤ c →
    ∃ c', coef m l c = some c' ∧ 0 ≤ c' ∧ (c' * l.prod) % m = c % m ∧ (l ≠ [] ∨ c < m → c' < m) := by
  intro l
  induction l with
  | nil => intro c _ hc; exact ⟨c, rfl, hc, by rw [prod_nil, Int.mul_one], fun h => h.resolve_left (by simp)⟩
  | cons j l ih =>
    intro c hl hc
    obtain ⟨hj, hgcd⟩ := hl j (by simp)
    obtain ⟨u, hu, hupos, hinv⟩ := mpinvert_spec hj hm hgcd
    have hmul : 0 ≤ u * c := Int.mul_nonneg hupos hc
    obtain ⟨c', hcoef, hpos, hprod, hlt⟩ := ih ((u * c) % m) (fun i hi => hl i (by simp [hi])) (Int.emod_nonneg _ (by omega))
    refine ⟨c', ?_, hpos, ?_, fun _ => hlt (Or.inr (Int.emod_lt_of_pos _ hm))⟩
    · rw [coef, hu]
      dsimp only
      rw [mpmod_eq _ hm, if_neg (by omega)]
      exact hcoef
    · calc (c' * (j :: l).prod) % m = (j * (c' * l.prod)) % m := by rw [prod_cons]; ring_nf
        _ = (j * (u * c)) % m := by rw [Int.mul_emod, hprod, Int.emod_emod, ← Int.mul_emod]
        _ = ((j * u) * c) % m := by rw [Int.mul_assoc]
        _ = c % m := by rw [Int.mul_emod, hinv, ← Int.mul_emod, Int.one_mul]

/-! ## Digits -/

/-- Is the sum over by a product at the end? `P` is the product so far, and `past` says it is now. -/
def overshoots (x : Int) : Int → Bool → List Int → Bool
  | _, past, [] => past
  | P, past, m :: ms =>
    let y := x % (P * m)
    let d := y / P
    overshoots x (P * m) (if d = 0 then past || (1 < m && m ≤ y) else if d = 1 then past && m ≤ y else false) ms

/-- A sum and whether it is over. -/
def sumOver (x P : Int) (past : Bool) : Int := x % P + if past then P else 0

/-- A residue is smaller than the number when that is not below the modulus. -/
theorem emod_lt_iff {y m : Int} (hy : 0 ≤ y) (hm : 0 < m) : y % m < y ↔ m ≤ y := by
  have := Int.emod_lt_of_pos y hm
  constructor
  · intro h
    by_contra hlt
    rw [Int.emod_eq_of_lt hy (by omega)] at h
    omega
  · intro h
    omega

/-- What `mpmod` gives for a digit: `D` less one if the sum is over, but `m` for zero where the residue is below the sum. -/
theorem mpmod_digit {r S D o c m P y : Int} (hm : 0 < m) (hc : 0 ≤ c) (hlt : c < m) (hinv : (c * P) % m = 1 % m)
    (hr : r = y % m) (hS : S = y - (D - o) * P) :
    mpmod ((r - S) * c) m = some (if 1 < m ∧ r < S ∧ (D - o) % m = 0 then m else (D - o) % m) := by
  have hmod : ((r - S) * c) % m = (D - o) % m := by
    calc ((r - S) * c) % m = ((y - S) * c) % m := by
          rw [hr, Int.mul_emod, Int.emod_sub_emod, ← Int.mul_emod]
      _ = ((D - o) * (c * P)) % m := by rw [hS]; ring_nf
      _ = (D - o) % m := by rw [Int.mul_emod, hinv, ← Int.mul_emod, Int.mul_one]
  rw [mpmod_eq _ hm, hmod]
  rcases Int.lt_or_le 1 m with h1 | h1
  · -- the coefficient is not zero
    have hcpos : 0 < c := by
      rcases Int.lt_or_eq_of_le hc with h | h
      · exact h
      · rw [← h, Int.zero_mul, Int.zero_emod, Int.emod_eq_of_lt (by decide) h1] at hinv
        exact absurd hinv (by decide)
    have hneg : (r - S) * c < 0 ↔ r < S := by
      constructor
      · intro h
        by_contra hge
        have := Int.mul_nonneg (show 0 ≤ r - S by omega) hc
        omega
      · intro h
        exact Int.mul_neg_of_neg_of_pos (by omega) hcpos
    simp only [hneg, h1, true_and]
  · have hc0 : c = 0 := by omega
    rw [hc0, Int.mul_zero, if_neg (by omega), if_neg (by omega)]

/-- **A digit**: what `mpmod` gives for it, and the sum after it. -/
theorem digit_step {x P m c : Int} {past : Bool} (hP : 0 < P) (hm : 0 < m) (hc : 0 ≤ c) (hlt : c < m)
    (hinv : (c * P) % m = 1 % m) :
    let y := x % (P * m)
    let d := y / P
    ∃ u, mpmod ((x % m - sumOver x P past) * c) m = some u ∧ sumOver x P past + u * P =
      sumOver x (P * m) (if d = 0 then past || (1 < m && m ≤ y) else if d = 1 then past && m ≤ y else false) := by
  have hPm : 0 < P * m := Int.mul_pos hP hm
  have hxP : x % P = x % (P * m) % P := (Int.emod_emod_of_dvd x (Int.dvd_mul_right P m)).symm
  have hxm : x % m = x % (P * m) % m := (Int.emod_emod_of_dvd x (Int.dvd_mul_left P m)).symm
  have hy0 := Int.emod_nonneg x (show P * m ≠ 0 by omega)
  have hym := Int.emod_lt_of_pos x hPm
  simp only [sumOver]
  rw [hxP, hxm]
  generalize x % (P * m) = y at *
  have hD0 : 0 ≤ y / P := Int.ediv_nonneg hy0 (by omega)
  have hDm : y / P < m := Int.ediv_lt_of_lt_mul hP (by rw [Int.mul_comm]; exact hym)
  have hy := Int.emod_add_mul_ediv y P
  have hlt := emod_lt_iff hy0 hm
  generalize y / P = D at *
  refine ⟨_, @mpmod_digit _ _ D (if past then 1 else 0) c m P y hm hc (by assumption) hinv rfl ?_, ?_⟩
  · cases past
    · simp only [Bool.false_eq_true, if_false]
      linear_combination hy
    · simp only [if_true]
      linear_combination hy
  cases past
  · simp only [Bool.false_eq_true, if_false, Int.sub_zero, Int.add_zero, Bool.false_or, Bool.false_and, ite_self]
    rw [Int.emod_eq_of_lt hD0 hDm]
    by_cases hD : D = 0
    · subst hD
      rw [Int.mul_zero, Int.add_zero] at hy
      simp only [hy, hlt]
      by_cases hover : 1 < m ∧ m ≤ y
      · simp only [hover, and_self, if_true, decide_true, Bool.and_self]
        ring
      · have hb : (decide (1 < m) && decide (m ≤ y)) = false := by simpa using hover
        rw [if_neg (by omega), hb]
        simp
    · rw [if_neg (by omega), if_neg hD]
      simp only [Bool.false_eq_true, if_false]
      linear_combination hy
  simp only [if_true, Bool.true_or, Bool.true_and]
  by_cases hD : D = 0
  · -- the sum stays over
    subst hD
    rw [Int.mul_zero, Int.add_zero] at hy
    have hu : (if 1 < m ∧ y % m < y % P + P ∧ (0 - 1) % m = 0 then m else (0 - 1) % m) = m - 1 := by
      rw [show (0 - 1) % m = m - 1 by
        rw [show (0 - 1 : Int) = (m - 1) + m * (-1) by ring, Int.add_mul_emod_self_left, Int.emod_eq_of_lt (by omega) (by omega)]]
      rw [if_neg (by omega)]
    rw [hu, hy]
    simp only [if_true]
    ring
  rw [if_neg hD, Int.emod_eq_of_lt (show 0 ≤ D - 1 by omega) (by omega)]
  by_cases hD1 : D = 1
  · subst hD1
    rw [Int.mul_one] at hy
    simp only [hy, hlt, if_true, Int.sub_self]
    by_cases hover : m ≤ y
    · simp only [hover, true_and, decide_true, if_true]
      rw [if_pos ⟨by omega, trivial⟩]
      ring
    · simp [hover]
  · rw [if_neg (by omega), if_neg hD1]
    simp only [Bool.false_eq_true, if_false]
    linear_combination hy

/-! ## Runs -/

theorem crtoutLoop_eq {x : Int} : ∀ (ms pre cs : List Int) (past : Bool), (∀ m ∈ ms, 0 < m) → pre ≠ [] → (∀ j ∈ pre, 0 < j) →
    (pre ++ ms).Pairwise (fun a b => Int.gcd a b = 1) → coefs pre ms = some cs →
    crtoutLoop (ms.map (x % ·)) cs ms (pre.prod :: products pre.prod ms) (sumOver x pre.prod past) =
      some (sumOver x (pre.prod * ms.prod) (overshoots x pre.prod past ms)) := by
  intro ms
  induction ms with
  | nil =>
    intro pre cs past _ _ _ _ h
    cases h
    rw [prod_nil, Int.mul_one]
    rfl
  | cons m ms ih =>
    intro pre cs past hms hpre hpos hcop hcs
    have hm := hms m (by simp)
    have hP : 0 < pre.prod := prod_pos hpos
    have hcopm : Coprime m pre := fun j hj => ⟨hpos j hj, (pairwise_append.1 hcop).2.2 j hj m (by simp)⟩
    obtain ⟨c, hc, hc0, hinv, hlt⟩ := coef_spec hm pre 1 hcopm (by decide)
    rw [coefs, hc] at hcs
    cases hcs' : coefs (pre ++ [m]) ms with
    | none => rw [hcs'] at hcs; cases hcs
    | some cs' =>
      rw [hcs'] at hcs
      cases hcs
      obtain ⟨u, hu, hsum⟩ := @digit_step x pre.prod m c past hP hm hc0 (hlt (Or.inl hpre)) hinv
      have hnext := ih (pre ++ [m]) cs'
      rw [map_cons, crtoutLoop, hu]
      dsimp only
      rw [hsum, products, overshoots, prod_cons, ← Int.mul_assoc]
      have hprod : (pre ++ [m]).prod = pre.prod * m := by rw [prod_append, prod_singleton]
      rw [hprod] at hnext
      refine hnext _ (fun j hj => hms j (by simp [hj])) (by simp) ?_ (by rwa [append_assoc]) hcs'
      intro j hj
      rcases mem_append.1 hj with hj | hj
      · exact hpos j hj
      · rw [mem_singleton.1 hj]
        exact hm

theorem coefs_isSome : ∀ (ms pre : List Int), (∀ m ∈ ms, 0 < m) → (∀ j ∈ pre, 0 < j) →
    (pre ++ ms).Pairwise (fun a b => Int.gcd a b = 1) → ∃ cs, coefs pre ms = some cs := by
  intro ms
  induction ms with
  | nil => intro pre _ _ _; exact ⟨[], rfl⟩
  | cons m ms ih =>
    intro pre hms hpos hcop
    obtain ⟨c, hc, -⟩ := coef_spec (hms m (by simp)) pre 1
      (fun j hj => ⟨hpos j hj, (pairwise_append.1 hcop).2.2 j hj m (by simp)⟩) (by decide)
    obtain ⟨cs, hcs⟩ := ih (pre ++ [m]) (fun j hj => hms j (by simp [hj])) (by
      intro j hj
      rcases mem_append.1 hj with hj | hj
      · exact hpos j hj
      · rw [mem_singleton.1 hj]
        exact hms m (by simp)) (by rwa [append_assoc])
    exact ⟨c :: cs, by rw [coefs, hc]; dsimp only; rw [hcs]⟩

variable {low : Nat} {x y : Int}

theorem residues_eq (hx : 0 < x) : ∀ (ms : List Int), (∀ m ∈ ms, 0 < m) → residues low x ms = some (ms.map (x % ·)) := by
  intro ms
  induction ms with
  | nil => intro _; rfl
  | cons m ms ih =>
    intro hms
    rw [residues, mpmodOver_eq (.inl (by omega)) (hms m (by simp)), if_neg (by omega)]
    rw [ih (fun j hj => hms j (by simp [hj]))]
    rfl

/-- The residues of zero are those of a number `y` that has the residues of the digit left. -/
theorem residues_zero : ∀ (ms : List Int), (∀ m ∈ ms, 0 < m) → (∀ m ∈ ms, y % m = stale low m) →
    residues low 0 ms = some (ms.map (y % ·)) := by
  intro ms
  induction ms with
  | nil => intro _ _; rfl
  | cons m ms ih =>
    intro hms hy
    rw [residues, mpmodOver_zero low (hms m (by simp)), ih (fun j hj => hms j (by simp [hj])) fun j hj => hy j (by simp [hj])]
    rw [map_cons, hy m (by simp)]

theorem exists_residues (low : Nat) {ms : List Int} (hpos : ∀ j ∈ ms, 0 < j) (hcop : ms.Pairwise (fun a b => Int.gcd a b = 1)) :
    ∃ y : Int, 0 ≤ y ∧ y < ms.prod ∧ ∀ m ∈ ms, y % m = stale low m := by
  have hnat : ∀ m ∈ ms, ((m.toNat : Nat) : Int) = m := fun m hm => Int.toNat_of_nonneg (Int.le_of_lt (hpos m hm))
  have hco : ms.Pairwise (Function.onFun Nat.Coprime Int.toNat) := by
    refine hcop.imp_of_mem fun {a b} ha hb hab => ?_
    rw [Function.onFun, Nat.Coprime, ← Int.gcd_natCast_natCast, hnat a ha, hnat b hb]
    exact hab
  have hprod : ((ms.map Int.toNat).prod : Nat) = ms.prod := by
    rw [Nat.cast_list_prod, map_map]
    exact congrArg List.prod ((map_congr_left hnat).trans (map_id ms))
  have hlt := Nat.chineseRemainderOfList_lt_prod (stale low) Int.toNat ms hco fun m hm => by
    have := hpos m hm
    omega
  have hk := (Nat.chineseRemainderOfList (stale low) Int.toNat ms hco).2
  generalize (Nat.chineseRemainderOfList (stale low) Int.toNat ms hco : Nat) = k at hlt hk
  refine ⟨k, Int.natCast_nonneg k, by rw [← hprod]; exact_mod_cast hlt, fun m hm => ?_⟩
  have hstale : stale low m < m.toNat := by
    have := stale_lt low (hpos m hm)
    have := hnat m hm
    omega
  have hmod : k % m.toNat = stale low m := Eq.trans (hk m hm) (Nat.mod_eq_of_lt hstale)
  rw [← hmod, Int.natCast_mod, hnat m hm]

/-- `crtout` of `crtin`, with the tables of `crtpre`. -/
def roundTrip (low : Nat) (m : List Int) (x : Int) : Option Int :=
  match crtpre m with
  | none => none
  | some crt =>
    match crtin low crt x with
    | none => none
    | some res => crtout crt res

/-- What comes back of the residues of `y`. -/
theorem roundTrip_eq {m : Int} {ms : List Int} (hpos : ∀ j ∈ m :: ms, 0 < j)
    (hcop : (m :: ms).Pairwise (fun a b => Int.gcd a b = 1)) (hy : 0 ≤ y) (hlt : y < (m :: ms).prod)
    (hres : residues low x (m :: ms) = some ((m :: ms).map (y % ·))) :
    roundTrip low (m :: ms) x = some (y + if overshoots y m false ms then (m :: ms).prod else 0) := by
  obtain ⟨cs, hcs⟩ := coefs_isSome ms [m] (fun j hj => hpos j (by simp [hj])) (fun j hj => hpos j (by simp_all)) hcop
  have hloop := @crtoutLoop_eq y ms [m] cs false (fun j hj => hpos j (by simp [hj])) (by simp) (fun j hj => hpos j (by simp_all)) hcop hcs
  rw [roundTrip, crtpre, take_succ_cons, take_zero, drop_succ_cons, drop_zero, hcs]
  dsimp only
  rw [crtin, hres]
  dsimp only
  rw [map_cons, crtout]
  rw [prod_singleton, sumOver, if_neg (by decide), Int.add_zero] at hloop
  rw [products, Int.one_mul, drop_succ_cons, drop_zero, hloop, sumOver, ← prod_cons, Int.emod_eq_of_lt hy hlt]

/-- **The round trip** is right just where no sum is left over and no modulus takes a residue of what zero has stored. -/
theorem roundTrip_iff {m : List Int} (hpos : ∀ j ∈ m, 0 < j) (hcop : m.Pairwise (fun a b => Int.gcd a b = 1))
    (hx : 0 ≤ x) (hlt : x < m.prod) :
    roundTrip low m x = some x ↔
      m ≠ [] ∧ overshoots x (m.headD 1) false (m.drop 1) = false ∧ (x = 0 → ∀ j ∈ m, stale low j = 0) := by
  cases m with
  | nil =>
    constructor
    · intro h
      cases h
    · intro h
      exact absurd rfl h.1
  | cons m ms =>
    have hprod : 0 < (m :: ms).prod := by omega
    rw [headD_cons, drop_succ_cons, drop_zero]
    by_cases hclean : x = 0 → ∀ j ∈ m :: ms, stale low j = 0
    · have hres : residues low x (m :: ms) = some ((m :: ms).map (x % ·)) := by
        rcases Int.lt_or_eq_of_le hx with hx | rfl
        · exact residues_eq hx _ hpos
        · exact residues_zero _ hpos fun j hj => by rw [hclean rfl j hj, Int.zero_emod]; rfl
      rw [roundTrip_eq hpos hcop hx hlt hres, Option.some_inj]
      cases overshoots x m false ms
      · exact iff_of_true (Int.add_zero x) ⟨cons_ne_nil m ms, rfl, hclean⟩
      · simp only [if_true, Bool.true_eq_false, false_and, and_false, iff_false]
        omega
    · -- what comes back has a residue that is not zero
      obtain ⟨rfl, j, hj, hne⟩ : x = 0 ∧ ∃ j ∈ m :: ms, stale low j ≠ 0 := by
        simpa only [Classical.not_imp, not_forall, exists_prop] using hclean
      obtain ⟨y, hy, hylt, hmod⟩ := exists_residues low hpos hcop
      rw [roundTrip_eq hpos hcop hy hylt (residues_zero _ hpos hmod), Option.some_inj]
      have hy0 : y ≠ 0 := by
        rintro rfl
        have := hmod j hj
        rw [Int.zero_emod] at this
        omega
      refine iff_of_false ?_ fun h => hclean h.2.2
      split <;> omega

theorem roundTrip_iff_eight : roundTrip 7 [5, 3] 8 = some 8 :=
  (roundTrip_iff (by decide) (by decide) (by decide) (by decide)).2 ⟨by decide, by decide, by decide⟩

/-- Three, of residues three and zero, comes back as eighteen. -/
theorem roundTrip_over : ¬ ∀ (low : Nat) (m : List Int) (x : Int), (∀ j ∈ m, 0 < j) →
    m.Pairwise (fun a b => Int.gcd a b = 1) → 0 ≤ x → x < m.prod → roundTrip low m x = some x := by
  intro h
  have := h 0 [5, 3] 3 (by decide) (by decide) (by decide) (by decide)
  exact absurd this (by decide)

end Plan9.Libmp
