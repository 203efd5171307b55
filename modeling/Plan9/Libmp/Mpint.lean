/-
Multiple precision integers: what the functions of `libmp/port` make of the values of
their arguments.

An `mpint` is its value. The digits, 32 bits each, are those of its magnitude, and what is
stored above `top` is taken to be zero, as `mpnew` leaves it, but in a dividend that is given
with it (`mpdivOver`); how the digits of a sum or a quotient are found is left out, and so are
numbers that are flagged (`MPtimesafe`, `MPfield`) or not normalized. `none` is `abort()`. Loops
take the number of rounds they may make.
-/
import Mathlib.Data.Int.GCD
import Mathlib.Tactic.Ring

namespace Plan9.Libmp

def mpmagsub (b1 b2 : Int) : Int := (b1.natAbs : Int) - b2.natAbs

/-- `mpright(b, shift, res)` -/
def mpright (b : Int) (shift : Nat) : Int := b.sign * (b.natAbs >>> shift : Nat)

def mpleft (b : Int) (shift : Nat) : Int := b.sign * (b.natAbs <<< shift : Nat)

/-- `for(s = 0; ((p >> s) & 1) == 0; s++) ;`, in at most `k` rounds -/
def shiftLoop (p : Nat) : Nat → Nat → Nat
  | 0, s => s
  | k + 1, s => if (p >>> s) &&& 1 = 0 then shiftLoop p k (s + 1) else s

/-- The quotient and the remainder. By a power of two the lowest digit of the dividend is looked at, also where the dividend
has none: `low` is what is stored there. -/
def mpdivOver (low : Nat) (dividend divisor : Int) : Option (Int × Int) :=
  let d := divisor.natAbs
  if d = 0 then none
  else if d < 2 ^ 32 ∧ d &&& (d - 1) = 0 then
    some (mpright dividend (shiftLoop d 32 0),
      if dividend = 0 then (low &&& (d - 1) : Nat) else dividend.sign * (dividend.natAbs &&& (d - 1) : Nat))
  else some (dividend.tdiv divisor, dividend.tmod divisor)

def mpdiv (dividend divisor : Int) : Option (Int × Int) := mpdivOver 0 dividend divisor

def mpmodOver (low : Nat) (x n : Int) : Option Int :=
  match mpdivOver low x n with
  | none => none
  | some (_, r) => some (if x < 0 then mpmagsub n r else r)

def mpmod (x n : Int) : Option Int := mpmodOver 0 x n

/-! ## Inverses -/

def iseven (a : Int) : Bool := a.natAbs % 2 = 0

/-- `while(iseven(a) && iseven(b)){ ... g++; }` -/
def bothLoop : Nat → Int → Int → Nat → Int × Int × Nat
  | 0, a, b, g => (a, b, g)
  | k + 1, a, b, g => if iseven a && iseven b then bothLoop k (mpright a 1) (mpright b 1) (g + 1) else (a, b, g)

/-- `while(iseven(u)){ ... }` -/
def halfLoop (a b : Int) : Nat → Int → Int → Int → Int × Int × Int
  | 0, u, A, B => (u, A, B)
  | k + 1, u, A, B =>
    if iseven u then
      let (A, B) := if !iseven A || !iseven B then (A + b, B - a) else (A, B)
      halfLoop a b k (mpright u 1) (mpright A 1) (mpright B 1)
    else (u, A, B)

/-- `for(;;)`: `v`, `C` and `D` at the end. -/
def egcdLoop (a b : Int) : Nat → Int × Int × Int → Int × Int × Int → Option (Int × Int × Int)
  | 0, _, _ => none
  | k + 1, (u, A, B), (v, C, D) =>
    let (u, A, B) := halfLoop a b u.natAbs u A B
    let (v, C, D) := halfLoop a b v.natAbs v C D
    if u ≥ v then
      if u - v = 0 then some (v, C, D) else egcdLoop a b k (u - v, A - C, B - D) (v, C, D)
    else egcdLoop a b k (u, A, B) (v - u, C - A, D - B)

/-- `v`, `x` and `y`; `none` when the loops are still going. -/
def mpextendedgcd (a b : Int) : Option (Int × Int × Int) :=
  if a < 0 ∨ b < 0 then some (0, 0, 0)
  else if a = 0 then some (b, 0, 1)
  else if b = 0 then some (a, 1, 0)
  else
    let (a, b, g) := bothLoop a.natAbs a b 0
    match egcdLoop a b (a.natAbs + b.natAbs) (a, 1, 0) (b, 0, 1) with
    | none => none
    | some (v, x, y) => some (mpleft v g, x, y)

def mpinvert (b m : Int) : Option Int :=
  match mpextendedgcd b m with
  | none => none
  | some (v, x, _) => if v ≠ 1 then none else mpmod x m

end Plan9.Libmp
