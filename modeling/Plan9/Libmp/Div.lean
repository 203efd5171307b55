/-
Division of numbers in memory (`libmp/port/mpdiv.c`), and the comparison it starts with
(`mpmagcmp` of `libmp/port/mpcmp.c`, `libmp/port/mpvectscmp.c`).

`mpdiv` has three ways: by one or a power of two below a digit, of a smaller number, and the long way.
On the long way `u` and `v` are new numbers, but for `v` where the divisor can stay; what happens to the digits
of `u` is one step for each digit of the quotient. Signs are read where the source reads them, after
the quotient was written.
-/
import Plan9.Libmp.Shift

namespace Plan9.Mp

open Digits Memory

/-! ## Comparison -/

/-- `(-v^v|v)>>Dbits-1` -/
def someBit (v : mpdigit) : mpdigit := ((0 - v) ^^^ v ||| v) >>> 31

/-- `while(alen-- > 0)`: `m` and `p` at the end. -/
def tscmpLoop : List mpdigit → List mpdigit → mpdigit → mpdigit → mpdigit × mpdigit
  | x :: a, y :: b, m, p =>
    let z := x - y
    let x := ~~~x
    let v := someBit z &&& ~~~m
    let p := ((~~~(x &&& y ||| x &&& z ||| y &&& z)) >>> 31 &&& v) ||| (p &&& ~~~v)
    tscmpLoop a b (m ||| v) p
  | _, _, m, p => (m, p)

def mpvectscmp (a b : List mpdigit) : Int :=
  let m :=
    if a.length > b.length then someBit ((a.drop b.length).foldl (· ||| ·) 0)
    else if b.length > a.length then someBit ((b.drop a.length).foldl (· ||| ·) 0)
    else 0
  let p := if b.length > a.length then m ^^^ 1 else m
  let (m, p) := tscmpLoop (a.take b.length).reverse (b.take a.length).reverse m p
  (p - m ||| m).toInt32.toInt

def mpmagcmp (b1 b2 : mpint) : Int :=
  if b1.timesafe || b2.timesafe then mpvectscmp b1.digits b2.digits
  else if (b1.norm || b2.norm) ∧ b1.top ≠ b2.top then (b1.top : Int) - b2.top
  else mpveccmp b1.digits b2.digits

/-! ## By a power of two, and of a smaller number -/

def mpzero : mpint := mpnew

/-- `for(s = 0; ((p >> s) & 1) == 0; s++)`, in at most `k` rounds -/
def lowLoop (p : mpdigit) : Nat → Nat → Option Nat
  | 0, _ => none
  | k + 1, s => if p >>> UInt32.ofNat s &&& 1 = 0 then lowLoop p k (s + 1) else some s

/-- `if(place != nil)` -/
def whenGiven (place : Option Nat) (σ : Mpints) (f : Nat → Option Mpints) : Option Mpints :=
  match place with
  | none => some σ
  | some i => f i

def smallQuotient (σ : Mpints) (dividend : Nat) (v : mpdigit) (i : Nat) : Option Mpints := do
  let s ← lowLoop v 32 0
  let q ← mpright (σ dividend) s (dividend = i) (σ i)
  some (Function.update σ i q)

def smallRemainder (σ : Mpints) (dividend : Nat) (r : Int) (i : Nat) : Option Mpints := do
  let m ← vtomp r { σ i with timesafe := (σ i).timesafe || (σ dividend).timesafe }
  some (Function.update σ i m)

/-- "division by one or small powers of two" -/
def divSmall (σ : Mpints) (dividend divisor : Nat) (quotient remainder : Option Nat) : Option Mpints := do
  let v := (σ divisor).p 0
  let r : Int := (σ dividend).sign * ((σ dividend).p 0 &&& v - 1).toNat
  let σ ← whenGiven quotient σ (smallQuotient σ dividend v)
  whenGiven remainder σ (smallRemainder σ dividend r)

/-- "quick check" -/
def divLess (σ : Mpints) (dividend : Nat) (quotient remainder : Option Nat) : Mpints :=
  let σ := match remainder with
    | none => σ
    | some i => if i = dividend then σ else Function.update σ i (mpassign (σ dividend) (σ i))
  match quotient with
  | none => σ
  | some i => Function.update σ i (mpassign mpzero (σ i))

/-! ## Long division -/

/-- `for(s = 0; (qd & mpdighi) == 0; s++) qd <<= 1;`, in at most `k` rounds -/
def highLoop : Nat → mpdigit → Nat → Option Nat
  | 0, _, _ => none
  | k + 1, qd, s => if qd &&& 0x80000000 = 0 then highLoop k (qd <<< 1) (s + 1) else some s

/-- `D3a`, which ends where `qd` is 0: the two highest digits of `v` and three of `u`. -/
def trialLoop (v u : List mpdigit) : Nat → mpdigit → mpdigit
  | 0, qd => qd
  | k + 1, qd => if mpveccmp (mpvecdigmuladd v qd [0, 0, 0]) u > 0 then trialLoop v u k (qd - 1) else qd

/-- `D3` to `D5` with `up` at `k + vn`: the digit of the quotient, and `u`. -/
def digitStep (v : List mpdigit) (k : Nat) (u : Nat → mpdigit) : mpdigit × (Nat → mpdigit) :=
  let vn := v.length
  let up := k + vn
  let qd := mpdigdiv (u (up - 1)) (u up) (v.getLastD 0)
  let qd := if vn > 1 then trialLoop (v.drop (vn - 2)) (load u (up - 2) 3) qd.toNat qd else qd
  let (w, sign) := mpvecdigmulsub v qd (load u (up - vn) (vn + 1))
  let u := store u (up - vn) w
  let (qd, u) := if sign < 0 then (qd - 1, store u (up - vn) (mpvecadd (load u (up - vn) (vn + 1)) v)) else (qd, u)
  (qd, store u up [0])

/-- `for(j = u->top; j > vn; j--)` with `j - vn` to go. The digits found stand in front of `q`. -/
def longLoop (v : List mpdigit) : Nat → (Nat → mpdigit) → List mpdigit → List mpdigit × (Nat → mpdigit)
  | 0, u, q => (q, u)
  | k + 1, u, q =>
    let (qd, u) := digitStep v k u
    longLoop v k u (qd :: q)

/-- `D1`: `u` and `v` -/
def divShift (D V : mpint) (s : Nat) (stays : Bool) : Option (mpint × mpint) :=
  if s = 0 ∧ stays then some (mpassign D mpnew, V)
  else do
    let u ← mpleft D s false mpnew
    let v ← mpleft V s false mpnew
    some (u, v)

/-- `D1a` -/
def divExtend (u v : mpint) : mpint :=
  if u.p (u.top - 1) ≥ v.p (v.top - 1) then { u with p := store u.p u.top [0], top := u.top + 1 } else u

/-- The quotient of `n` digits, with its sign. -/
def storeQuotient (σ : Mpints) (dividend divisor n : Nat) (q : List mpdigit) (i : Nat) : Option Mpints :=
  let b := mpbits (σ i) (n * 32)
  let b := { b with p := store b.p 0 q, top := n }
  if b.timesafe then none
  else do
    let b ← mpnorm b
    let σ := Function.update σ i b
    some (if (σ dividend).sign ≠ (σ divisor).sign then Function.update σ i { b with sign := -1 } else σ)

/-- The remainder: `u` shifted back, with the sign the dividend has by now. -/
def storeRemainder (σ : Mpints) (dividend s : Nat) (u : mpint) (i : Nat) : Option Mpints :=
  if (σ i).timesafe then none
  else do
    let b ← mpright u s false (σ i)
    let σ := Function.update σ i b
    some (Function.update σ i { b with sign := (σ dividend).sign })

def divLong (σ : Mpints) (dividend divisor : Nat) (quotient remainder : Option Nat) : Option Mpints := do
  let D := σ dividend
  let V := σ divisor
  let s ← highLoop 32 (V.p (V.top - 1)) 0
  let (u, v) ← divShift D V s (some divisor ≠ quotient ∧ some divisor ≠ remainder)
  let u := divExtend u v
  let n := u.top - v.top
  let (q, p) := longLoop v.digits n u.p []
  let σ ← whenGiven quotient σ (storeQuotient σ dividend divisor n q)
  whenGiven remainder σ (storeRemainder σ dividend s { u with p := p, top := u.top - n })

def mpdiv (σ : Mpints) (dividend divisor : Nat) (quotient remainder : Option Nat) : Option Mpints :=
  let D := σ dividend
  let V := σ divisor
  if quotient = remainder then none
  else if V.norm = false then none
  else if V.top = 0 then none
  else if V.top = 1 ∧ V.p 0 &&& V.p 0 - 1 = 0 then divSmall σ dividend divisor quotient remainder
  else if D.timesafe then none
  else if mpmagcmp D V < 0 then some (divLess σ dividend quotient remainder)
  else divLong σ dividend divisor quotient remainder

end Plan9.Mp
