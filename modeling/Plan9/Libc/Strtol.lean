/-
Numbers in strings, as `port/strtoull.c`, `port/strtoll.c` and `port/strtol.c` in libc read
them. The three have the same text but for the type they compute in.

A pointer is the memory from it on, so `p++` takes the first byte off, and the `*endptr`
left is such a memory. `ndig` is an `int` and wraps. The signed ones wrap at `w` bits.
-/
import Plan9.Lib.Bytes
import Plan9.Lib.CInt

namespace Plan9.Libc

open Bytes CInt

/-- The cases of the `switch`. -/
def isBlank (c : UInt8) : Bool := c = 0x20 || c = 0x09 || c = 0x0A || c = 0x0C || c = 0x0D || c = 0x0B

/-- White space -/
def skipBlank : List UInt8 → List UInt8
  | [] => []
  | c :: p => if isBlank c then skipBlank p else c :: p

/-- Sign: `neg`, and `p` after it. -/
def takeSign (p : List UInt8) : Bool × List UInt8 :=
  if byteAt p 0 = 0x2D ∨ byteAt p 0 = 0x2B then (byteAt p 0 = 0x2D, p.drop 1) else (false, p)

/-- Base, and `p` after it; `none` is `goto Return`. -/
def takeBase (base : Int) (p : List UInt8) : Option (Nat × List UInt8) :=
  if base = 0 then
    if byteAt p 0 = 0x30 then
      if byteAt p 1 = 0x78 ∨ byteAt p 1 = 0x58 then some (16, p.drop 2) else some (8, p)
    else some (10, p)
  else if base = 16 ∧ byteAt p 0 = 0x30 then
    if byteAt p 1 = 0x78 ∨ byteAt p 1 = 0x58 then some (16, p.drop 2) else some (16, p)
  else if base < 0 ∨ 36 < base then none
  else some (base.toNat, p)

/-- `v`, for the character `c`. -/
def digitOf (base : Nat) (c : UInt8) : Nat :=
  if 0x30 ≤ c ∧ c ≤ 0x39 then c.toNat - 0x30
  else if 0x61 ≤ c ∧ c ≤ 0x7A then c.toNat - 0x61 + 10
  else if 0x41 ≤ c ∧ c ≤ 0x5A then c.toNat - 0x41 + 10
  else base

/-- The loop over the digits, with what a digit does as `step`: what it leaves, `p` and `ndig`. -/
def digitLoop {σ : Type} (step : σ → Nat → σ) (base : Nat) : List UInt8 → Int → σ → σ × List UInt8 × Int
  | [], ndig, st => (st, [], ndig)
  | c :: p, ndig, st =>
    let v := digitOf base c
    if v ≥ base then (st, c :: p, ndig) else digitLoop step base p (int32 (ndig + 1)) (step st v)

/-- All of it up to `Return`: `neg`, what the digits leave, and `*endptr`. -/
def scanNumber {σ : Type} (step : Nat → σ → Nat → σ) (st : σ) (nptr : List UInt8) (base : Int) :
    Bool × σ × List UInt8 :=
  let (neg, p) := takeSign (skipBlank nptr)
  match takeBase base p with
  | none => (neg, st, nptr)
  | some (base, p) =>
    let (st, p, ndig) := digitLoop (step base) base p 0 st
    (neg, st, if ndig = 0 then nptr else p)

/-! ## strtoull -/

/-- `UVLONG_MAX/base`. `UVLONG_MAX` is `1LL<<63`, which is negative, and the quotient is made unsigned after the division. -/
def uvlongMax (base : Nat) : Nat := ((-2 ^ 63 : Int).tdiv base % 2 ^ 64).toNat

/-- `ovfl` and `n` with one digit more. -/
def strtoullStep (base : Nat) (st : Bool × Nat) (v : Nat) : Bool × Nat :=
  let nn := (st.2 * base + v) % 2 ^ 64
  (st.1 || st.2 > uvlongMax base || nn < st.2, nn)

/-- The number, and `*endptr`. -/
def strtoull (nptr : List UInt8) (base : Int) : Nat × List UInt8 :=
  let (neg, (ovfl, n), p) := scanNumber strtoullStep (false, 0) nptr base
  (if ovfl then 2 ^ 63 else if neg then (2 ^ 64 - n) % 2 ^ 64 else n, p)

/-! ## strtoll and strtol -/

/-- `ovfl` and `n` with one digit more, in a type of `w` bits. -/
def signedStep (w base : Nat) (st : Bool × Int) (v : Nat) : Bool × Int :=
  let nn := wrap w (st.2 * base + v)
  (st.1 || st.2 > (2 ^ (w - 1) - 1 : Int).tdiv base || nn < st.2, nn)

def strtoSigned (w : Nat) (nptr : List UInt8) (base : Int) : Int × List UInt8 :=
  let (neg, (ovfl, n), p) := scanNumber (signedStep w) (false, 0) nptr base
  (if ovfl then if neg then -2 ^ (w - 1) else 2 ^ (w - 1) - 1 else if neg then wrap w (-n) else n, p)

def strtoll : List UInt8 → Int → Int × List UInt8 := strtoSigned 64

def strtol : List UInt8 → Int → Int × List UInt8 := strtoSigned 32

/-! ## What there is to read -/

/-- A number as it stands in a string. -/
structure Numeral where
  neg : Bool
  base : Nat
  digits : List Nat
  rest : List UInt8

/-- An optional sign. -/
def signOf : List UInt8 → Bool × List UInt8
  | [] => (false, [])
  | c :: s => if c = 0x2D then (true, s) else if c = 0x2B then (false, s) else (false, c :: s)

/-- What is after `0x`. -/
def afterHex : List UInt8 → Option (List UInt8)
  | c :: x :: s => if c = 0x30 ∧ (x = 0x78 ∨ x = 0x58) then some s else none
  | _ => none

/-- An optional prefix. With the base 0 it is the prefix that says which base it is. -/
def baseOf (base : Nat) (s : List UInt8) : Nat × List UInt8 :=
  if base = 0 ∨ base = 16 then
    match afterHex s with
    | some s' => (16, s')
    | none => (if base = 16 then 16 else if s.head? = some 0x30 then 8 else 10, s)
  else (base, s)

def isDigit (base : Nat) (c : UInt8) : Bool := digitOf base c < base

def numeral (base : Nat) (s : List UInt8) : Numeral :=
  let (neg, s) := signOf (s.dropWhile isBlank)
  let (base, s) := baseOf base s
  { neg := neg
    base := base
    digits := (s.takeWhile (isDigit base)).map (digitOf base)
    rest := s.dropWhile (isDigit base) }

/-- The value of the digits, the most significant one first. -/
def digitsValue (base : Nat) (ds : List Nat) : Nat := ds.foldl (fun n v => n * base + v) 0

def Numeral.value (x : Numeral) : Nat := digitsValue x.base x.digits

/-- Where the digits end, or the whole string when there is none. -/
def Numeral.endOf (x : Numeral) (s : List UInt8) : List UInt8 := if x.digits = [] then s else x.rest

/-- The value as an unsigned 64-bit number, or the largest. -/
def Numeral.unsigned (x : Numeral) : Nat :=
  if x.value < 2 ^ 64 then if x.neg then (2 ^ 64 - x.value) % 2 ^ 64 else x.value else 2 ^ 64 - 1

/-- The value as a signed number of `w` bits, or the one that is next to it. -/
def Numeral.signed (x : Numeral) (w : Nat) : Int :=
  max (-2 ^ (w - 1)) (min (2 ^ (w - 1) - 1) (if x.neg then -x.value else x.value))

end Plan9.Libc
