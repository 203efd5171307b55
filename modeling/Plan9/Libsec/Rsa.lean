/-
RSA of libsec: keys, encryption, and decryption by the Chinese remainder theorem.

A number is its value. `mpexp` may store over its base, which is a place of its own there.
Whether a number is prime is asked of `probably_prime`, which is a parameter. `none` is the
`abort()` or `sysfatal` of a function of libmp.
-/
import Plan9.Lib.Powers
import Plan9.Libmp.Crt
import Plan9.Libmp.Euclid
import Plan9.Libmp.Exp

namespace Plan9.Libsec

open Libmp Powers

/-- `mpexp(b, e, m, res)`: in the place `res` of `b`, `e` and `m`, or in another one. -/
def powmod (res : Nat) (b e m : Int) : Option Int :=
  (mpexp (fun | 0 => b | 1 => e | _ => m) 0 1 (some 2) res).map (· res)

structure RSApub where
  n : Int
  ek : Int

structure RSApriv where
  pub : RSApub
  dk : Int
  p : Int
  q : Int
  kp : Int
  kq : Int
  c2 : Int

def rsaencrypt (rsa : RSApub) (x : Int) : Option Int := powmod 3 x rsa.ek rsa.n

def rsadecrypt (rsa : RSApriv) (x : Int) : Option Int := do
  let v1 ← mpmod x rsa.p
  let v2 ← mpmod x rsa.q
  -- exponentiate the modular rep
  let v1 ← powmod 0 v1 rsa.kp rsa.p
  let v2 ← powmod 0 v2 rsa.kq rsa.q
  -- out = v1 + p*((v2-v1)*c2 mod q)
  let v2 ← mpmod ((v2 - v1) * rsa.c2) rsa.q
  return v1 + v2 * rsa.p

def rsafill (probably_prime : Int → Bool) (n e d p q : Int) : Option (Except String RSApriv) :=
  if !probably_prime p || !probably_prime q then some (.error "rsafill: p or q not prime")
  else if n ≠ p * q then some (.error "rsafill: n != p*q")
  else do
    let x ← mpmod (e * d) ((p - 1) * (q - 1))
    if x ≠ 1 then return .error "rsafill: e*d != 1 mod (p-1)*(q-1)"
    let c2 ← mpinvert p q
    let kp ← mpmod d (p - 1)
    let kq ← mpmod d (q - 1)
    return .ok ⟨⟨n, e⟩, d, p, q, kp, kq, c2⟩

/-- The power, reduced when the base was; it is never negative. -/
theorem powmod_spec {res : Nat} {b e m : Int} (hb : 0 ≤ b) (he : 0 ≤ e) (hm : 1 < m) :
    ∃ x, powmod res b e m = some x ∧ 0 ≤ x ∧ x ≡ b ^ e.toNat [ZMOD m] ∧ (b < m → x < m) := by
  rcases Int.lt_or_eq_of_le he with hpos | rfl
  · obtain ⟨s, σ, j, hrun, hres, -, hp⟩ := @mpexp_power (fun | 0 => b | 1 => e | _ => m) 0 1 2 res hb hpos (show 0 < m by omega)
    refine ⟨s res, by rw [powmod, hrun]; rfl, hres ▸ hp.nonneg, ?_, fun hlt => ?_⟩
    · rw [hres, show e.toNat = e.natAbs by omega]
      exact hp.power
    · rw [hres]
      by_cases h1 : e.natAbs = 1
      · rw [hp.first h1]
        exact hlt
      · exact hp.reduced h1
  · exact ⟨1, by simp [powmod, mpexp], by decide, by simp, fun _ => hm⟩

theorem mpmod_nonneg {x n : Int} (hx : 0 ≤ x) (hn : 0 < n) : mpmod x n = some (x % n) := by
  rw [mpmod_eq x hn, if_neg (by omega)]

/-- What is decrypted modulo one of the primes: the number that was encrypted. -/
theorem residue_decrypted {k : Nat} (hk : k.Prime) (h2 : 2 < k) {n e d m c K : Int} (hn : (k : Int) ∣ n)
    (he : 0 < e) (hed : e * d ≡ 1 [ZMOD k - 1]) (hK : mpmod d (k - 1) = some K) (hd : 0 < d) (hc0 : 0 ≤ c)
    (hc : c ≡ m ^ e.toNat [ZMOD n]) : (mpmod c k).bind (powmod 0 · K k) = some (m % k) := by
  have hk0 : (0 : Int) < k := by omega
  rw [mpmod_nonneg hd.le (by omega)] at hK
  cases hK
  have hmodK : d % (k - 1 : Int) ≡ d [ZMOD k - 1] := Int.mod_modEq ..
  have hexp := (hmodK.mul_left e).trans hed
  have hK0 : 0 ≤ d % (k - 1 : Int) := Int.emod_nonneg _ (by omega)
  generalize d % (k - 1 : Int) = K at hexp hK0 ⊢
  obtain ⟨K, rfl⟩ := Int.eq_ofNat_of_zero_le hK0
  obtain ⟨e, rfl⟩ := Int.eq_ofNat_of_zero_le he.le
  obtain ⟨x, hrun, hx0, hx, hlt⟩ := @powmod_spec 0 _ _ _ (Int.emod_nonneg c hk0.ne') hK0 (show (1 : Int) < k by omega)
  have hprod : e * K ≡ 1 [MOD k - 1] := by
    rw [← Int.natCast_modEq_iff]
    push_cast [show 1 ≤ k by omega]
    exact hexp
  have hne : e * K ≠ 0 := by
    intro h0
    rw [h0, Nat.ModEq, Nat.zero_mod, Nat.mod_eq_of_lt (by omega)] at hprod
    exact absurd hprod (by decide)
  have hpow : x ≡ m [ZMOD k] := by
    refine hx.trans ((((Int.mod_modEq c k).trans (hc.of_dvd hn)).pow _).trans ?_)
    rw [← pow_mul]
    exact pow_modEq_self hk hprod hne
  rw [mpmod_nonneg hc0 hk0]
  refine hrun.trans (congrArg some ?_)
  rw [← hpow, Int.emod_eq_of_lt hx0 (hlt (Int.emod_lt_of_pos c hk0))]

/-- Garner's algorithm, with what `mpmod` makes of a negative multiple. -/
theorem garner {p q c2 m : Int} (hp : 0 < p) (hq : 1 < q) (hm0 : 0 ≤ m) (hmn : m < p * q) (hc2 : 0 ≤ c2) (hlt : c2 < q)
    (hinv : c2 * p % q = 1 % q) :
    (mpmod ((m % q - m % p) * c2) q).map (m % p + · * p) = some (if q ≤ m ∧ m < p then m + p * q else m) := by
  obtain ⟨u, hu, hsum⟩ := @digit_step m p q c2 false hp (by omega) hc2 hlt hinv
  have hzero : m / p = 0 ↔ m < p := by
    rw [Int.ediv_eq_iff_of_pos hp]
    omega
  simp only [sumOver, Int.emod_eq_of_lt hm0 hmn, hzero, hq, Bool.false_eq_true, if_false, Int.add_zero] at hu hsum
  rw [hu, Option.map_some, hsum]
  by_cases hmp : m < p <;> by_cases hqm : q ≤ m <;> simp [hmp, hqm]

/-- **RSA**: what was encrypted with a key that `rsafill` accepts is decrypted again, but that for `q ≤ m < p` the
difference of the residues is a negative multiple of `q`, for which `mpmod` leaves `q`, and `m + n` comes out. -/
theorem rsadecrypt_rsaencrypt {probably_prime : Int → Bool} {n e d p q m : Int} {rsa : RSApriv}
    (hprime : ∀ x, probably_prime x = true → ∃ k : Nat, k.Prime ∧ x = k)
    (hfill : rsafill probably_prime n e d p q = some (.ok rsa)) (he : 0 < e) (hd : 0 < d) (hp2 : 2 < p) (hq2 : 2 < q)
    (hm0 : 0 ≤ m) (hmn : m < n) :
    ∃ c, rsaencrypt rsa.pub m = some c ∧ rsadecrypt rsa c = some (if q ≤ m ∧ m < p then m + n else m) := by
  rw [rsafill] at hfill
  split at hfill
  · cases hfill
  rename_i hprimes
  rw [Bool.or_eq_true, Bool.not_eq_true', Bool.not_eq_true', not_or, Bool.not_eq_false, Bool.not_eq_false] at hprimes
  obtain ⟨P, hP, rfl⟩ := hprime p hprimes.1
  obtain ⟨Q, hQ, rfl⟩ := hprime q hprimes.2
  split at hfill
  · cases hfill
  rename_i hn
  obtain rfl := not_not.1 hn
  have hphi : 0 < ((P : Int) - 1) * (Q - 1) := Int.mul_pos (by omega) (by omega)
  simp only [mpmod_nonneg (Int.mul_pos he hd).le hphi, mpmod_nonneg hd.le (show (0 : Int) < P - 1 by omega),
    mpmod_nonneg hd.le (show (0 : Int) < Q - 1 by omega), Option.bind_eq_bind, Option.bind_some] at hfill
  split at hfill
  · cases hfill
  rename_i hone
  have hed : e * d ≡ 1 [ZMOD (P - 1) * (Q - 1)] := by
    have h := (Int.mod_modEq (e * d) ((P - 1) * (Q - 1))).symm
    rwa [not_not.1 hone] at h
  have hcop : Int.gcd P Q = 1 := by
    rw [Int.gcd_natCast_natCast]
    refine (Nat.coprime_primes hP hQ).2 fun heq => ?_
    obtain ⟨x, y, hgcd, -⟩ := mpextendedgcd_spec (show 0 < (P : Int) by omega) (show 0 < (Q : Int) by omega)
    rw [mpinvert, hgcd, ← heq, Int.gcd_self] at hfill
    dsimp only at hfill
    rw [if_pos (by rw [Int.natAbs_natCast]; omega)] at hfill
    cases hfill
  obtain ⟨c2, hc2, hpos, hlt, hinv⟩ := mpinvert_residue (show 0 ≤ (P : Int) by omega) (show 1 < (Q : Int) by omega) hcop
  rw [Int.mul_comm] at hinv
  rw [hc2] at hfill
  cases hfill
  obtain ⟨c, hrun, hc0, hc, -⟩ := @powmod_spec 3 m e (P * Q) hm0 he.le (by nlinarith)
  refine ⟨c, hrun, ?_⟩
  have hv1 := residue_decrypted hP (by omega) (Int.dvd_mul_right P Q) he (hed.of_dvd (Int.dvd_mul_right ..))
    (mpmod_nonneg hd.le (by omega)) hd hc0 hc
  have hv2 := residue_decrypted hQ (by omega) (Int.dvd_mul_left P Q) he (hed.of_dvd (Int.dvd_mul_left ..))
    (mpmod_nonneg hd.le (by omega)) hd hc0 hc
  have hout := garner (show 0 < (P : Int) by omega) (show 1 < (Q : Int) by omega) hm0 hmn hpos hlt hinv
  rw [mpmod_nonneg hc0 (by omega), Option.bind_some] at hv1 hv2
  rw [Option.map_eq_bind] at hout
  rw [rsadecrypt]
  simp only [mpmod_nonneg hc0 (show (0 : Int) < P by omega), mpmod_nonneg hc0 (show (0 : Int) < Q by omega),
    Option.bind_eq_bind, Option.bind_some, hv1, hv2]
  exact hout

/-- With the primes 5 and 3. -/
theorem rsadecrypt_rsaencrypt_four :
    ∃ c, rsaencrypt ⟨15, 3⟩ 4 = some c ∧ rsadecrypt ⟨⟨15, 3⟩, 3, 5, 3, 3, 1, 2⟩ c = some 19 := by
  refine @rsadecrypt_rsaencrypt (fun x => x = 3 ∨ x = 5) 15 3 3 5 3 4 ⟨⟨15, 3⟩, 3, 5, 3, 3, 1, 2⟩ ?_ ?_ ?_ ?_ ?_ ?_ ?_ ?_
  · intro x hx
    rcases of_decide_eq_true hx with rfl | rfl
    · exact ⟨3, Nat.prime_three, rfl⟩
    · exact ⟨5, Nat.prime_five, rfl⟩
  · rfl
  all_goals decide

end Plan9.Libsec
