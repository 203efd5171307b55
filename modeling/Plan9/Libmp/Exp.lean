/-
Modular exponentiation: `mpexp` of libmp, and the product modulo `m` of `mpmodop.c` that it uses.

Several arguments may be one `mpint`, so they are places, and the store has their values.
`mpexp` squares from one of two temporaries into the other, and one of them is the result.
The flags are left out, and so is what is allocated: a number in range that has no room
for a digit more is divided too, which leaves it as it is.

The leading bit of the exponent is skipped, and nothing is multiplied for an exponent of
0 or 1, nor is anything divided then.
-/
import Plan9.Libmp.TextFacts

namespace Plan9.Libmp

open Function Option

def modarg (a m : Int) : Option Int := if a < 0 ∨ a.natAbs ≥ m.natAbs then mpmod a m else some a

def mpmodmul (b1 b2 m : Int) : Option Int := do
  let a ← modarg b1 m
  let b ← modarg b2 m
  mpmod (a * b) m

namespace Exp

/-- An argument, `t[0]`, or the copy of an argument that is also the result. -/
inductive Cell where
  | arg (n : Nat)
  | t0
  | freeb
  | freee
  | freem
  deriving DecidableEq

abbrev Cells := Cell → Int

/-- `t[j]` -/
def temp (res : Nat) : Bool → Cell
  | false => .t0
  | true => .arg res

/-- `if(m != nil) mpmodmul(x, y, m, z); else mpmul(x, y, z);` -/
def product (m : Option Cell) (σ : Cells) (x y z : Cell) : Option Cells :=
  match m with
  | some m => (mpmodmul (σ x) (σ y) (σ m)).map (Function.update σ z)
  | none => some (Function.update σ z (σ x * σ y))

/-- `for(bit = mpdighi; (bit & d) == 0; bit >>= 1)`: the bit is `1 << k`. -/
def leadBit (d : Nat) : Nat → Nat
  | 0 => 0
  | k + 1 => if d.testBit k then k else leadBit d k

/-- `for(; bit != 0; bit >>= 1)` for the `k` low bits of `d`. -/
def bitLoop (res : Nat) (b : Cell) (m : Option Cell) (d : Nat) : Nat → Cells → Bool → Option (Cells × Bool)
  | 0, σ, j => some (σ, j)
  | k + 1, σ, j => do
    let σ ← product m σ (temp res j) (temp res j) (temp res !j)
    if d.testBit k then
      let σ ← product m σ (temp res !j) b (temp res j)
      bitLoop res b m d k σ j
    else bitLoop res b m d k σ !j

/-- `for(;;)` for the `i` low digits of `e`. -/
def digitsLoop (res : Nat) (b e : Cell) (m : Option Cell) : Nat → Cells → Bool → Option (Cells × Bool)
  | 0, σ, j => some (σ, j)
  | i + 1, σ, j => do
    let (σ, j) ← bitLoop res b m (dig (σ e) i) 32 σ j
    digitsLoop res b e m i σ j

/-- The arguments and the copies of them. -/
def cells (s : Nat → Int) (b e : Nat) (m : Option Nat) : Cells
  | .arg n => s n
  | .t0 | .freeb => s b
  | .freee => s e
  | .freem => (m.map s).getD 0

end Exp

open Exp

/-- `mpexp(b, e, m, res)`: what is stored after it; `none` is `sysfatal` or `abort()`. -/
def mpexp (s : Nat → Int) (b e : Nat) (m : Option Nat) (res : Nat) : Option (Nat → Int) :=
  if s e = 0 then some (Function.update s res 1)
  else if s e < 0 then none
  else do
    let b' := if res = b then .freeb else .arg b
    let e' := if res = e then .freee else .arg e
    let m' := m.map fun m => if res = m then .freem else .arg m
    let i := top (s e) - 1
    let d := dig (s e) i
    let (σ, j) ← bitLoop res b' m' d (leadBit d 32) (cells s b e m) false
    let (σ, j) ← digitsLoop res b' e' m' i σ j
    return fun n => if n = res then σ (temp res j) else σ (.arg n)

/-! ## Products -/

theorem modarg_eq {a m : Int} (ha : 0 ≤ a) (hm : 0 < m) : modarg a m = some (a % m) := by
  unfold modarg
  split
  · rw [mpmod_eq a hm, if_neg (by omega)]
  · rw [Int.emod_eq_of_lt ha (by omega)]

theorem mpmodmul_eq {a b m : Int} (ha : 0 ≤ a) (hb : 0 ≤ b) (hm : 0 < m) : mpmodmul a b m = some (a * b % m) := by
  have hpos : 0 ≤ a % m * (b % m) := Int.mul_nonneg (Int.emod_nonneg a (by omega)) (Int.emod_nonneg b (by omega))
  unfold mpmodmul
  rw [modarg_eq ha hm, modarg_eq hb hm]
  change mpmod (a % m * (b % m)) m = _
  rw [mpmod_eq _ hm, if_neg (by omega), ← Int.mul_emod]

namespace Exp

variable {s : Nat → Int} {σ₀ σ : Cells} {res : Nat} {B M : Int} {E d : Nat} {j : Bool} {b e m : Cell}

/-- Neither temporary. -/
def Apart (res : Nat) (c : Cell) : Prop := c ≠ .t0 ∧ c ≠ .arg res

theorem Apart.ne {c : Cell} (h : Apart res c) (j : Bool) : c ≠ temp res j := by
  cases j
  · exact h.1
  · exact h.2

/-- `t[j]` is the `E`th power of `B`, reduced if it is not the first. -/
structure Power (σ₀ σ : Cells) (res : Nat) (B M : Int) (E : Nat) (j : Bool) : Prop where
  same : ∀ c, Apart res c → σ c = σ₀ c
  nonneg : 0 ≤ σ (temp res j)
  power : σ (temp res j) % M = B ^ E % M
  first : E = 1 → σ (temp res j) = B
  reduced : E ≠ 1 → σ (temp res j) < M

theorem product_eq {x y z : Cell} (hx : 0 ≤ σ x) (hy : 0 ≤ σ y) (hm : 0 < σ m) :
    product (some m) σ x y z = some (update σ z (σ x * σ y % σ m)) := by
  rw [product, mpmodmul_eq hx hy hm]
  rfl

theorem Power.product {x y : Int} {E' F : Nat} (h : Power σ₀ σ res B M E j) (hM : 0 < M) (hx : x % M = B ^ E' % M)
    (hy : y % M = B ^ F % M) (hEF : E' + F ≠ 1) (i : Bool) :
    Power σ₀ (update σ (temp res i) (x * y % M)) res B M (E' + F) i where
  same c hc := by rw [update_of_ne (hc.ne i), h.same c hc]
  nonneg := by
    rw [update_self]
    exact Int.emod_nonneg _ (by omega)
  power := by rw [update_self, Int.emod_emod_of_dvd _ (Int.dvd_refl M), Int.mul_emod, hx, hy, ← Int.mul_emod, pow_add]
  first h1 := absurd h1 hEF
  reduced _ := by
    rw [update_self]
    exact Int.emod_lt_of_pos _ hM

theorem bitLoop_spec (hM : 0 < M) (hB : 0 ≤ B) (hb : Apart res b) (hm : Apart res m) (hbB : σ₀ b = B) (hmM : σ₀ m = M) (d : Nat) :
    ∀ (k : Nat) (σ : Cells) (j : Bool) (E : Nat), 1 ≤ E → Power σ₀ σ res B M E j →
    ∃ σ' j', bitLoop res b (some m) d k σ j = some (σ', j') ∧ Power σ₀ σ' res B M (E * 2 ^ k + d % 2 ^ k) j' := by
  intro k
  induction k with
  | zero =>
    intro σ j E _ h
    refine ⟨σ, j, rfl, ?_⟩
    rw [Nat.pow_zero, Nat.mod_one, Nat.mul_one, Nat.add_zero]
    exact h
  | succ k ih =>
    intro σ j E hE h
    have hsq := h.product hM h.power h.power (by omega) (!j)
    have hm1 : σ m = M := (h.same m hm).trans hmM
    rw [bitLoop, product_eq h.nonneg h.nonneg (by rw [hm1]; exact hM), hm1, bind_eq_bind, bind_some,
      Nat.mod_pow_succ, ← Nat.toNat_testBit]
    generalize update σ (temp res !j) (σ (temp res j) * σ (temp res j) % M) = σ1 at hsq ⊢
    by_cases hbit : d.testBit k = true
    · have hb2 : σ1 b = B := (hsq.same b hb).trans hbB
      have hm2 : σ1 m = M := (hsq.same m hm).trans hmM
      have hmul := hsq.product (F := 1) hM hsq.power (y := B) (by rw [pow_one]) (by omega) j
      rw [if_pos hbit, product_eq hsq.nonneg (by rw [hb2]; exact hB) (by rw [hm2]; exact hM), hm2, hb2]
      obtain ⟨σ', j', hrun, hp⟩ := ih _ j (E + E + 1) (by omega) hmul
      refine ⟨σ', j', hrun, ?_⟩
      rw [show E * 2 ^ (k + 1) + (d % 2 ^ k + 2 ^ k * (d.testBit k).toNat) = (E + E + 1) * 2 ^ k + d % 2 ^ k by
        rw [hbit, Bool.toNat_true]
        ring]
      exact hp
    rw [if_neg hbit]
    obtain ⟨σ', j', hrun, hp⟩ := ih _ (!j) (E + E) (by omega) hsq
    refine ⟨σ', j', hrun, ?_⟩
    rw [show E * 2 ^ (k + 1) + (d % 2 ^ k + 2 ^ k * (d.testBit k).toNat) = (E + E) * 2 ^ k + d % 2 ^ k by
      rw [Bool.eq_false_iff.2 hbit, Bool.toNat_false]
      ring]
    exact hp

theorem digitsLoop_spec {X : Int} (hM : 0 < M) (hB : 0 ≤ B) (hb : Apart res b) (hm : Apart res m) (he : Apart res e)
    (hbB : σ₀ b = B) (hmM : σ₀ m = M) (heX : σ₀ e = X) : ∀ (i : Nat) (σ : Cells) (j : Bool) (E : Nat), 1 ≤ E →
    Power σ₀ σ res B M E j → ∃ σ' j', digitsLoop res b e (some m) i σ j = some (σ', j') ∧
      Power σ₀ σ' res B M (E * (2 ^ 32) ^ i + X.natAbs % (2 ^ 32) ^ i) j' := by
  intro i
  induction i with
  | zero =>
    intro σ j E _ h
    refine ⟨σ, j, rfl, ?_⟩
    rw [Nat.pow_zero, Nat.mod_one, Nat.mul_one, Nat.add_zero]
    exact h
  | succ i ih =>
    intro σ j E hE h
    obtain ⟨σ1, j1, hrun1, h1⟩ := bitLoop_spec hM hB hb hm hbB hmM (dig X i) 32 σ j E hE h
    obtain ⟨σ2, j2, hrun2, h2⟩ := ih σ1 j1 _ (by omega) h1
    rw [digitsLoop, (h.same e he).trans heX, hrun1, bind_eq_bind, bind_some]
    refine ⟨σ2, j2, hrun2, ?_⟩
    have hdig : dig X i % 2 ^ 32 = X.natAbs / (2 ^ 32) ^ i % 2 ^ 32 := by
      rw [dig, Nat.mod_mod, Nat.shiftRight_eq_div_pow, Nat.pow_mul]
    rw [hdig] at h2
    rw [show E * (2 ^ 32) ^ (i + 1) + X.natAbs % (2 ^ 32) ^ (i + 1) =
        (E * 2 ^ 32 + X.natAbs / (2 ^ 32) ^ i % 2 ^ 32) * (2 ^ 32) ^ i + X.natAbs % (2 ^ 32) ^ i by
      rw [Nat.mod_pow_succ]
      ring]
    exact h2

theorem leadBit_spec (hd : 0 < d) : ∀ {k : Nat}, d < 2 ^ k → 2 ^ leadBit d k + d % 2 ^ leadBit d k = d := by
  intro k
  induction k with
  | zero =>
    intro h
    omega
  | succ k ih =>
    intro h
    rw [leadBit]
    split
    · rename_i hbit
      have hle := Nat.ge_two_pow_of_testBit hbit
      rw [Nat.mod_eq_sub_mod hle, Nat.mod_eq_of_lt (by omega)]
      omega
    rename_i hbit
    refine ih (Nat.lt_of_not_le fun hle => hbit ?_)
    rw [Nat.testBit_eq_decide_div_mod_eq, Nat.div_eq_of_lt_le (k := 1) (by omega) (by omega)]
    rfl

theorem top_dig {X : Int} (hX : 0 < X) : 0 < dig X (top X - 1) ∧
    dig X (top X - 1) * (2 ^ 32) ^ (top X - 1) + X.natAbs % (2 ^ 32) ^ (top X - 1) = X.natAbs := by
  have hne : X.natAbs ≠ 0 := by omega
  have hlt := natAbs_lt_top X
  have htop : top X = X.natAbs.log2 / 32 + 1 := by
    rw [top, mpsignif, if_neg (by omega)]
    omega
  have hle : (2 ^ 32) ^ (top X - 1) ≤ X.natAbs := by
    refine Nat.le_trans ?_ (Nat.log2_self_le hne)
    rw [← Nat.pow_mul, htop]
    exact Nat.pow_le_pow_right (by decide) (by omega)
  have hdig : dig X (top X - 1) = X.natAbs / (2 ^ 32) ^ (top X - 1) := by
    rw [dig, Nat.shiftRight_eq_div_pow, Nat.pow_mul, Nat.mod_eq_of_lt]
    rw [Nat.div_lt_iff_lt_mul (Nat.pow_pos (by decide)), Nat.mul_comm, ← Nat.pow_succ]
    rw [show (top X - 1).succ = top X by omega]
    exact hlt
  rw [hdig]
  exact ⟨Nat.div_pos hle (Nat.pow_pos (by decide)), Nat.div_add_mod' _ _⟩

end Exp

/-! ## `mpexp` -/

section

variable {s : Nat → Int} {b e m res : Nat}

theorem mpexp_power (hb : 0 ≤ s b) (he : 0 < s e) (hm : 0 < s m) :
    ∃ s' σ j, mpexp s b e (some m) res = some s' ∧ s' res = σ (temp res j) ∧ (∀ n, n ≠ res → s' n = s n) ∧
      Power (cells s b e (some m)) σ res (s b) (s m) (s e).natAbs j := by
  let b' : Cell := if res = b then .freeb else .arg b
  let e' : Cell := if res = e then .freee else .arg e
  let m' : Cell := if res = m then .freem else .arg m
  have hcell : ∀ {x : Nat} {c : Cell}, Apart res c → Apart res (if res = x then c else .arg x) := by
    intro x c hc
    split
    · exact hc
    · rename_i hne
      exact ⟨nofun, fun h => hne (Cell.arg.inj h).symm⟩
  have hb' : Apart res b' := hcell ⟨nofun, nofun⟩
  have he' : Apart res e' := hcell ⟨nofun, nofun⟩
  have hm' : Apart res m' := hcell ⟨nofun, nofun⟩
  have hbv : cells s b e (some m) b' = s b := by
    dsimp only [b']
    split <;> rfl
  have hev : cells s b e (some m) e' = s e := by
    dsimp only [e']
    split <;> rfl
  have hmv : cells s b e (some m) m' = s m := by
    dsimp only [m']
    split <;> rfl
  have hstart : Power (cells s b e (some m)) (cells s b e (some m)) res (s b) (s m) 1 false :=
    ⟨fun _ _ => rfl, hb, by rw [pow_one]; rfl, fun _ => rfl, fun h => absurd rfl h⟩
  obtain ⟨hdig, hsum⟩ := top_dig he
  have hlt : dig (s e) (top (s e) - 1) < 2 ^ 32 := Nat.mod_lt _ (by decide)
  obtain ⟨σ1, j1, hrun1, h1⟩ := bitLoop_spec hm hb hb' hm' hbv hmv (dig (s e) (top (s e) - 1))
    (leadBit (dig (s e) (top (s e) - 1)) 32) _ false 1 (Nat.le_refl 1) hstart
  rw [Nat.one_mul, leadBit_spec hdig hlt] at h1
  obtain ⟨σ2, j2, hrun2, h2⟩ := digitsLoop_spec hm hb hb' hm' he' hbv hmv hev (top (s e) - 1) σ1 j1 _ hdig h1
  rw [hsum] at h2
  refine ⟨fun n => if n = res then σ2 (temp res j2) else σ2 (.arg n), σ2, j2, ?_, if_pos rfl, fun n hn => ?_, h2⟩
  · unfold mpexp
    rw [if_neg (by omega), if_neg (by omega)]
    dsimp only [map_some]
    rw [hrun1, bind_eq_bind, bind_some]
    rw [hrun2]
    rfl
  · exact (if_neg hn).trans (h2.same (.arg n) ⟨nofun, fun h => hn (Cell.arg.inj h)⟩)

/-- `mpexp` gives the residue of the power, but for an exponent of 0 or 1 that nothing is divided for. -/
theorem mpexp_iff (hb : 0 ≤ s b) (he : 0 ≤ s e) (hm : 1 ≤ s m) :
    (∃ s', mpexp s b e (some m) res = some s' ∧ s' res = s b ^ (s e).toNat % s m ∧ 0 ≤ s' res ∧ s' res < s m) ↔
      (s e = 0 → s m ≠ 1) ∧ (s e = 1 → s b < s m) := by
  by_cases h0 : s e = 0
  · have hrun : mpexp s b e (some m) res = some (Function.update s res 1) := by rw [mpexp, if_pos h0]
    rw [hrun, h0, Int.toNat_zero, pow_zero]
    constructor
    · rintro ⟨s', hs, -, -, hlt⟩
      cases hs
      rw [Function.update_self] at hlt
      exact ⟨fun _ => by omega, nofun⟩
    rintro ⟨h1, -⟩
    refine ⟨_, rfl, ?_, ?_, ?_⟩
    · rw [Function.update_self, Int.emod_eq_of_lt (by omega) (by omega)]
    · rw [Function.update_self]
      omega
    · rw [Function.update_self]
      omega
  obtain ⟨s', σ, j, hrun, hres, -, hp⟩ := @mpexp_power s b e m res hb (by omega) hm
  rw [show (s e).toNat = (s e).natAbs by omega]
  constructor
  · rintro ⟨s1, hs, -, -, hlt⟩
    obtain rfl : s' = s1 := Option.some.inj (hrun.symm.trans hs)
    refine ⟨fun h => absurd h h0, fun h1 => ?_⟩
    rw [hres, hp.first (by omega)] at hlt
    exact hlt
  rintro ⟨-, h1⟩
  have hlt : s' res < s m := by
    rw [hres]
    by_cases he1 : s e = 1
    · rw [hp.first (by omega)]
      exact h1 he1
    · exact hp.reduced (by omega)
  have hpos : 0 ≤ s' res := hres ▸ hp.nonneg
  refine ⟨s', hrun, ?_, hpos, hlt⟩
  rw [← hp.power, ← hres, Int.emod_eq_of_lt hpos hlt]

/-- Three to the first, modulo 2: what is in the places 0, 1 and 2. -/
def threeOneTwo : Nat → Int
  | 0 => 3
  | 1 => 1
  | _ => 2

theorem mpexp_unreduced : ¬ ∃ s', mpexp threeOneTwo 0 1 (some 2) 3 = some s' ∧
    s' 3 = threeOneTwo 0 ^ (threeOneTwo 1).toNat % threeOneTwo 2 ∧ 0 ≤ s' 3 ∧ s' 3 < threeOneTwo 2 := by
  rintro ⟨s', hs, -, -, hlt⟩
  obtain ⟨s1, σ, j, hrun, hres, -, hp⟩ := @mpexp_power threeOneTwo 0 1 2 3 (by decide) (by decide) (by decide)
  obtain rfl : s1 = s' := Option.some.inj (hrun.symm.trans hs)
  rw [hres, hp.first (by decide)] at hlt
  exact absurd hlt (by decide)

/-- The result is the modulus too. -/
theorem mpexp_iff_aliased : ∃ s', mpexp (fun n => n + 3) 0 1 (some 2) 2 = some s' ∧ s' 2 = 3 ^ 4 % 5 ∧ 0 ≤ s' 2 ∧ s' 2 < 5 :=
  (mpexp_iff (s := fun n => n + 3) (b := 0) (e := 1) (m := 2) (by decide) (by decide) (by decide)).2 ⟨nofun, nofun⟩

end

end Plan9.Libmp
