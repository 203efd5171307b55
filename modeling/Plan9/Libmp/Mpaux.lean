/-
An `mpint` in memory, and what the functions that make room in one or copy it do to it
(`libmp/port/mpaux.c`).

`p` is all there is at the pointer: the digits of the magnitude, and above `top` what was left
there. That it is long enough is what `mpbits` is for, so the size is left out. Of the flags there are
`MPtimesafe` and `MPnorm`. `none` is an assertion that fails, or `abort()`. A count of bits is an `int` in the source: the
counts here are those of numbers for which `(top+top+1)*Dbits`, in `mpmul`, and `(top+2)*Dbits`, in
`mpdiv`, are below 2^31.

Numbers are at places, so that arguments and results may be one number.
-/
import Plan9.Lib.Memory
import Plan9.Libmp.Vec

namespace Plan9.Mp

open Digits Memory

structure mpint where
  sign : Int
  top : Nat
  p : Nat → mpdigit
  timesafe : Bool
  norm : Bool

/-- The numbers at their places. -/
abbrev Mpints := Nat → mpint

namespace mpint

def digits (b : mpint) : List mpdigit := load b.p 0 b.top

def value (b : mpint) : Int := b.sign * val b.digits

end mpint

def DIGITS (m : Nat) : Nat := (32 - 1 + m) / 32

def mpnew : mpint := { sign := 1, top := 0, p := fun _ => 0, timesafe := false, norm := true }

/-- `mpbits(b, m)` -/
def mpbits (b : mpint) (m : Nat) : mpint :=
  if b.top ≥ DIGITS m then b
  else { b with p := memset b.p b.top 0 (DIGITS m - b.top), top := DIGITS m, norm := false }

/-- `for(i = b->top-1; i >= 0; i--)`: `i + 1` at the end. -/
def normLoop (p : Nat → mpdigit) : Nat → Nat
  | 0 => 0
  | i + 1 => if p i ≠ 0 then i + 1 else normLoop p i

def mpnorm (b : mpint) : Option mpint :=
  if b.timesafe then
    if b.sign = 1 then some { b with norm := false } else none
  else
    let top := normLoop b.p b.top
    some { b with top := top, sign := if top = 0 then 1 else b.sign, norm := true }

/-- `mpassign(old, new)` of two numbers. -/
def mpassign (old new : mpint) : mpint :=
  let b := mpbits { new with top := 0 } (32 * old.top)
  { sign := old.sign, top := old.top, p := store b.p 0 old.digits, timesafe := new.timesafe || old.timesafe,
    norm := old.norm }

/-! ## What the numbers are -/

variable {b old new : mpint} {m n : Nat}

@[simp] theorem length_digits (b : mpint) : b.digits.length = b.top := length_load

theorem DIGITS_mul (n : Nat) : DIGITS (32 * n) = n := by
  unfold DIGITS
  omega

theorem load_stored {p : Nat → mpdigit} {l : List mpdigit} (h : n = l.length) : load (store p 0 l) 0 n = l := by
  rw [h, load_store]

theorem mpbits_spec (b : mpint) (m : Nat) : (mpbits b m).sign = b.sign ∧ (mpbits b m).timesafe = b.timesafe ∧
    (mpbits b m).top = max b.top (DIGITS m) ∧ (∀ i < b.top, (mpbits b m).p i = b.p i) ∧
    (∀ i, b.top ≤ i → i < DIGITS m → (mpbits b m).p i = 0) ∧ ∀ i, DIGITS m ≤ i → (mpbits b m).p i = b.p i := by
  unfold mpbits
  split
  case isTrue h => exact ⟨rfl, rfl, by omega, fun _ _ => rfl, fun i _ _ => by omega, fun _ _ => rfl⟩
  case isFalse h =>
    refine ⟨rfl, rfl, (Nat.max_eq_right (Nat.le_of_not_le h)).symm, fun i hi => memset_outside (.inl hi), fun i hi hlt => ?_, fun i hi => ?_⟩
    · exact if_pos ⟨hi, by omega⟩
    · exact memset_outside (.inr (by omega))

theorem val_load_mpbits (b : mpint) (m : Nat) (h : b.top = 0) : val (load (mpbits b m).p 0 (DIGITS m)) = 0 := by
  obtain ⟨-, -, -, -, hzero, -⟩ := mpbits_spec b m
  rw [val_eq_zero_iff]
  intro d hd
  obtain ⟨i, hi, rfl⟩ := List.mem_map.1 hd
  rw [List.mem_range] at hi
  exact hzero _ (by omega) (by omega)

theorem normLoop_spec (p : Nat → mpdigit) (k : Nat) : normLoop p k ≤ k ∧
    val (load p 0 (normLoop p k)) = val (load p 0 k) ∧ (normLoop p k = 0 ∨ p (normLoop p k - 1) ≠ 0) := by
  induction k with
  | zero => exact ⟨le_rfl, rfl, .inl rfl⟩
  | succ k ih =>
    rw [normLoop]
    by_cases h : p k ≠ 0
    · rw [if_pos h]
      exact ⟨le_rfl, rfl, .inr h⟩
    rw [if_neg h]
    refine ⟨Nat.le_succ_of_le ih.1, ?_, ih.2.2⟩
    have hk : load p 0 (k + 1) = load p 0 k ++ [p k] := by
      rw [load_add, Nat.zero_add]
      rfl
    rw [ih.2.1, hk, val_append, val_singleton, not_not.1 h]
    exact (Nat.add_zero _).symm

/-- A number without zeros above. -/
structure Normalized (b : mpint) : Prop where
  norm : b.norm = true
  high : b.top = 0 ∨ b.p (b.top - 1) ≠ 0

theorem mpnorm_spec (h : b.timesafe = false) : ∃ b', mpnorm b = some b' ∧ b'.value = b.value ∧ Normalized b' ∧
    val b'.digits = val b.digits ∧ b'.timesafe = false ∧ b'.sign = if b'.top = 0 then 1 else b.sign := by
  obtain ⟨-, hval, hhigh⟩ := normLoop_spec b.p b.top
  refine ⟨{ b with top := normLoop b.p b.top, sign := if normLoop b.p b.top = 0 then 1 else b.sign, norm := true },
    ?_, ?_, ⟨rfl, hhigh⟩, hval, h, rfl⟩
  · rw [mpnorm, if_neg (by rw [h]; exact Bool.false_ne_true)]
  unfold mpint.value mpint.digits
  rw [hval]
  by_cases hzero : normLoop b.p b.top = 0
  · rw [hzero] at hval
    rw [← hval]
    exact (Int.mul_zero _).trans (Int.mul_zero _).symm
  · rw [if_neg hzero]

theorem mpnorm_timesafe (h : b.timesafe = true) : mpnorm b = if b.sign = 1 then some { b with norm := false } else none := by
  rw [mpnorm, if_pos h]

theorem mpnorm_iff : (∃ b', mpnorm b = some b') ↔ (b.timesafe → b.sign = 1) := by
  cases hts : b.timesafe with
  | false =>
    obtain ⟨b', hnorm, -⟩ := mpnorm_spec hts
    exact ⟨fun _ h => absurd h Bool.false_ne_true, fun _ => ⟨b', hnorm⟩⟩
  | true =>
    rw [mpnorm_timesafe hts]
    by_cases hsign : b.sign = 1
    · rw [if_pos hsign]
      exact ⟨fun _ _ => hsign, fun _ => ⟨_, rfl⟩⟩
    · rw [if_neg hsign]
      refine ⟨fun h => ?_, fun h => absurd (h rfl) hsign⟩
      obtain ⟨_, h⟩ := h
      cases h

theorem mpnorm_same {b' : mpint} (h : mpnorm b = some b') : b'.value = b.value ∧ b'.timesafe = b.timesafe := by
  cases hts : b.timesafe with
  | false =>
    obtain ⟨b'', hnorm, hval, -, -, hts', -⟩ := mpnorm_spec hts
    rw [hnorm] at h
    rw [← Option.some.inj h]
    exact ⟨hval, hts'⟩
  | true =>
    rw [mpnorm_timesafe hts] at h
    rw [← Option.some.inj (Option.ite_none_right_eq_some.1 h).2]
    exact ⟨rfl, hts⟩

theorem digits_mpassign (old new : mpint) : (mpassign old new).digits = old.digits :=
  load_stored (length_digits old).symm

theorem value_mpassign (old new : mpint) : (mpassign old new).value = old.value :=
  congrArg (fun l => old.sign * ((val l : Nat) : Int)) (digits_mpassign old new)

end Plan9.Mp
