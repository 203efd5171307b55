/-
The digit vectors under libmp (`libmp/port/mpvec*.c`, `libmp/port/mpdigdiv.c`).

A vector is the list of the digits it has from a pointer on, 32 bits each, and a
function gives those it writes. `p` of `mpvecdigmuladd` and `mpvecdigmulsub` is all there is at the
pointer, so that what follows the digits they write is seen to stay. Carries are
added up in digits, as `int`s are that digits are compared with.
-/
import Plan9.Lib.Digits

namespace Plan9.Mp

open Digits (bit)

abbrev mpdigit := UInt32

/-! ## Sums and differences -/

def addLoop : List mpdigit → List mpdigit → mpdigit → List mpdigit
  | [], _, carry => [carry]
  | x :: a, [], carry =>
    let x := x + carry
    x :: addLoop a [] (bit (x < carry))
  | x :: a, y :: b, carry =>
    let x := x + carry
    let carry := bit (x < carry)
    let x := x + y
    x :: addLoop a b (carry + bit (x < y))

/-- The `alen + 1` digits of the sum. -/
def mpvecadd (a b : List mpdigit) : List mpdigit := addLoop a b 0

def subLoop : List mpdigit → List mpdigit → mpdigit → List mpdigit
  | [], _, _ => []
  | x :: a, [], borrow =>
    let y := x - borrow
    y :: subLoop a [] (bit (y > x))
  | x :: a, y :: b, borrow =>
    let y := y + borrow
    let borrow := bit (y < borrow)
    (x - y) :: subLoop a b (borrow + bit (x < y))

/-- The `alen` digits of the difference. -/
def mpvecsub (a b : List mpdigit) : List mpdigit := subLoop a b 0

/-- `while(alen > 0)`: both from their highest digit. -/
def cmpLoop : List mpdigit → List mpdigit → Int
  | x :: a, y :: b =>
    let z := x - y
    if z = 0 then cmpLoop a b else if z > x then -1 else 1
  | _, _ => 0

def mpveccmp (a b : List mpdigit) : Int :=
  if (a.drop b.length).any (· ≠ 0) then 1
  else if (b.drop a.length).any (· ≠ 0) then -1
  else cmpLoop (a.take b.length).reverse (b.take a.length).reverse

/-! ## Products with a digit -/

/-- `LO` and `HI` -/
def lo (x : mpdigit) : mpdigit := x &&& 0xFFFF

def hi (x : mpdigit) : mpdigit := x >>> 16

/-- `p[0]` and `p[1]` -/
def mpdigmul (a b : mpdigit) : mpdigit × mpdigit :=
  let p1 := hi a * lo b
  let p2 := hi b * lo a
  let p3 := lo b * lo a
  let p4 := hi a * hi b
  let x := p1 <<< 16
  let p3 := p3 + x
  let carry := bit (p3 < x)
  let x := p2 <<< 16
  let p3 := p3 + x
  let carry := carry + bit (p3 < x)
  (p3, p4 + (carry + hi p1 + hi p2))

def muladdLoop (m : mpdigit) : List mpdigit → mpdigit → mpdigit → List mpdigit → List mpdigit
  | [], carry, part1, p => (part1 + carry) :: p.tail
  | d :: b, carry, part1, p =>
    let x := part1 + carry
    let carry := bit (x < carry)
    let y := p.headD 0
    let part := mpdigmul d m
    let x := x + part.1
    let carry := carry + bit (x < part.1)
    let x := x + y
    x :: muladdLoop m b (carry + bit (x < y)) part.2 p.tail

/-- `p` with `m * b` added to it. -/
def mpvecdigmuladd (b : List mpdigit) (m : mpdigit) (p : List mpdigit) : List mpdigit := muladdLoop m b 0 0 p

def mulsubLoop (m : mpdigit) : List mpdigit → mpdigit → mpdigit → List mpdigit → List mpdigit × Int
  | [], borrow, part1, p =>
    let x := p.headD 0
    let y := x - borrow - part1
    (y :: p.tail, if y > x then -1 else 1)
  | d :: b, borrow, part1, p =>
    let x := p.headD 0
    let y := x - borrow
    let borrow := bit (y > x)
    let part := mpdigmul d m
    let x := part1 + part.1
    let borrow := borrow + bit (x < part.1)
    let x := y - x
    let (rest, sign) := mulsubLoop m b (borrow + bit (x > y)) part.2 p.tail
    (x :: rest, sign)

/-- `p` with `m * b` taken off, and -1 if that was more than there is. -/
def mpvecdigmulsub (b : List mpdigit) (m : mpdigit) (p : List mpdigit) : List mpdigit × Int := mulsubLoop m b 0 0 p

/-! ## Two digits by one -/

/-- `for(i = Dbits-1; hi > 0 && i >= 0; i--)` with `i + 1` left: the low digit and `q`. -/
def divLoop (divisor : mpdigit) : Nat → mpdigit → mpdigit → mpdigit → mpdigit → mpdigit × mpdigit
  | 0, _, _, lo, q => (lo, q)
  | i + 1, x, hi, lo, q =>
    if hi > 0 then
      let x := x >>> 1
      if x > hi then divLoop divisor i x hi lo q
      else
        let y := divisor <<< UInt32.ofNat i
        if x = hi ∧ y > lo then divLoop divisor i x hi lo q
        else
          let hi := if y > lo then hi - 1 else hi
          divLoop divisor i x (hi - x) (lo - y) (q ||| 1 <<< UInt32.ofNat i)
    else (lo, q)

def mpdigdiv (lo hi divisor : mpdigit) : mpdigit :=
  if hi ≥ divisor ∨ divisor = 0 then ~~~0
  else
    let (lo, q) := divLoop divisor 32 divisor hi lo 0
    q + lo / divisor

end Plan9.Mp
