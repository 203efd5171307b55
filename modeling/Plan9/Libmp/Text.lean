/-
The text of a multiple precision integer: `mptoa` of `mpfmt.c`, `mptobe`, `betomp`, and
`strtomp`.

A pointer argument is the memory from it on, and a pointer returned the memory from
there on. A buffer being filled is what it holds so far and `len` the bytes it has. An `mpint` has
no leading zero digits, and fewer than 2^26 of them, since `mpbits` is given an `int` of
bits. `malloc` succeeds where it is asked for a positive number of bytes.
-/
import Plan9.Libc.U64
import Plan9.Libmp.Mpint
import Mathlib.Data.Nat.Digits.Defs

namespace Plan9.Libmp

open Bytes CInt Libc

/-! ## Digits -/

def mpsignif (n : Int) : Nat := if n = 0 then 0 else n.natAbs.log2 + 1

/-- `b->top` -/
def top (b : Int) : Nat := (mpsignif b + 31) / 32

/-- `b->p[i]` -/
def dig (b : Int) (i : Nat) : Nat := b.natAbs >>> (32 * i) % 2 ^ 32

/-- The `n` bytes at `p`, most significant first. -/
def mptober (b : Int) (n : Nat) : List UInt8 := (leBytes n b.natAbs).reverse

/-- `m` of `mptobe` -/
def byteCount (b : Int) : Nat :=
  let m := (mpsignif b + 7) / 8
  if m = 0 then m + 1 else m

/-- The count and the bytes, at `p` where there is room for `n`, or allocated. -/
def mptobe (b : Int) (p : Option Nat) : Option (Nat × List UInt8) :=
  let m := byteCount b
  match p with
  | none => some (m, mptober b m)
  | some n => if n < m then none else some (m, mptober b m ++ List.replicate (n - m) 0)

/-- `betomp(p, n, b)` -/
def betomp (p : List UInt8) (n : Nat) : Int := leNat (p.take n).reverse

/-! ## mptoa -/

/-- What `mptoa` makes of `rv`. -/
def converted (r : Int × List UInt8) : Option (List UInt8) := if r.1 < 0 then none else some r.2

def to64 (b len : Int) : Option (List UInt8) :=
  match mptobe b none with
  | none => none
  | some (n, p) => converted (enc64 len p n)

def to32 (b len : Int) : Option (List UInt8) :=
  match mptobe b (some (top b * 4 + 5)) with
  | none => none
  | some (n, p) =>
    let n := if n % 5 ≠ 0 then n + (5 - n % 5) else n
    converted (enc32 len p n)

/-- `"0123456789ABCDEF"` -/
def set16 : List UInt8 := [48, 49, 50, 51, 52, 53, 54, 55, 56, 57, 65, 66, 67, 68, 69, 70]

/-- `for(i = Dbits-4; i >= 0; i -= 4)`, over the `k` low ones. -/
def nibbleLoop (len : Int) (x : Nat) : Nat → List UInt8 → Option (List UInt8)
  | 0, out => some out
  | k + 1, out =>
    let j := 0xf &&& x >>> (4 * k)
    if j ≠ 0 ∨ out ≠ [] then
      if out.length ≥ len then none else nibbleLoop len x k (out ++ [byteAt set16 j])
    else nibbleLoop len x k out

/-- `for(p = &b->p[b->top-1]; p >= b->p; p--)` -/
def digitLoop (b len : Int) : Nat → List UInt8 → Option (List UInt8)
  | 0, out => some out
  | i + 1, out =>
    match nibbleLoop len (dig b i) 8 out with
    | none => none
    | some out => digitLoop b len i out

def to16 (b len : Int) : Option (List UInt8) :=
  if len < 1 then none
  else
    match digitLoop b len (top b) [] with
    | none => none
    | some out =>
      let out := if out = [] then [48] else out
      if out.length ≥ len then none else some (out ++ [0])

/-- `modbillion`, over the `i` rounds left; `out` is the buffer from there on, the last of its `len` bytes written. -/
def modbillion (len : Int) (rem : Nat) : Nat → Nat → List UInt8 → Option (List UInt8)
  | 0, _, out => some out
  | i + 1, r, out =>
    let rr := r % 10
    let r := r / 10
    if out.length ≥ len then none
    else
      let out := UInt8.ofNat (48 + rr) :: out
      if rem = 0 ∧ r = 0 then some out else modbillion len rem i r out

/-- `do { ... } while(d->top != 0)` -/
def to10Loop (len : Int) : Nat → Int → List UInt8 → Option (List UInt8)
  | 0, _, _ => none
  | k + 1, d, out =>
    match mpdiv d 1000000000 with
    | none => none
    | some (d, r) =>
      match modbillion len (top d) 9 (dig r 0) out with
      | none => none
      | some out => if top d ≠ 0 then to10Loop len k d out else some out

def to10 (b len : Int) : Option (List UInt8) :=
  if len < 1 then none else to10Loop len (b.natAbs + 1) b [0]

/-- `mptoa(b, base, nil, 0)`: what is stored in the buffer, or `nil`. -/
def mptoa (b base : Int) : Option (List UInt8) :=
  -- the length is an int, and from 2^26 - 1 digits on it wraps below zero: no such buffer
  if (top b + 1) * 32 + 2 ≥ 2 ^ 31 then none
  else
    let len : Int := ((top b + 1) * 32 + 2 : Nat) / 3 + 1
    if len < 2 then none
    else
      let sgn : List UInt8 := if b < 0 then [45] else []
      let len := if b < 0 then len - 1 else len
      let out := if base = 64 then to64 b len
        else if base = 32 then to32 b len
        else if base = 10 then to10 b len
        else to16 b len
      match out with
      | none => none
      | some out => some (sgn ++ out)

/-! ## strtomp -/

/-- `set16` of `strtomp.c` -/
def set16both : List UInt8 := set16 ++ [48, 49, 50, 51, 52, 53, 54, 55, 56, 57, 97, 98, 99, 100, 101, 102]

/-- `"0123456789"` -/
def set10 : List UInt8 := [48, 49, 50, 51, 52, 53, 54, 55, 56, 57]

/-- A table that `init` fills. -/
def tabOf (set : List UInt8) (c : UInt8) : Nat := (set.idxOf? c).getD INVAL

def t64 : UInt8 → Nat := tabOf t64e
def t32 : UInt8 → Nat := tabOf tab32
def t16 (c : UInt8) : Nat := if tabOf set16both c = INVAL then INVAL else tabOf set16both c % 16
def t10 : UInt8 → Nat := tabOf set10

/-- `for(i = 0; i < Dbits; i += s)`, in at most `k` rounds: `x`, and the characters left, the last one first. -/
def wordLoop (s : Nat) : Nat → Nat → List UInt8 → Nat → Nat × List UInt8
  | 0, _, p, x => (x, p)
  | k + 1, i, p, x =>
    if i < 32 then
      match p with
      | [] => (x, [])
      | c :: p => wordLoop s k (i + s) p (x ||| t16 c <<< i)
    else (x, p)

/-- `while(p > a)`: the digits `b->p` -/
def frompow2Loop (s : Nat) : Nat → List UInt8 → List Nat
  | 0, _ => []
  | k + 1, p =>
    if p = [] then []
    else
      let (x, p) := wordLoop s 32 0 p 0
      x :: frompow2Loop s k p

def frompow2 (a : List UInt8) (s : Nat) : Int × List UInt8 :=
  let p := a.takeWhile fun c => c ≠ 0 ∧ t16 c < 1 <<< s
  ((Nat.ofDigits (2 ^ 32) (frompow2Loop s p.length p.reverse) : Nat), a.drop p.length)

/-- `while(p > a)` of `from8`, and what follows it. -/
def from8Loop : List UInt8 → Nat → Nat → List Nat
  | [], i, x => if i > 0 then [x] else []
  | c :: p, i, x =>
    let y := t10 c
    let x := (x ||| y <<< i) % 2 ^ 32
    let i := i + 3
    if i ≥ 32 then x :: from8Loop p (i - 32) (y >>> (3 - (i - 32))) else from8Loop p i x

def from8 (a : List UInt8) : Int × List UInt8 :=
  let p := a.takeWhile fun c => c ≠ 0 ∧ t10 c < 8
  ((Nat.ofDigits (2 ^ 32) (from8Loop p.reverse 0 0) : Nat), a.drop p.length)

def mppow10 : List Nat := [1, 10, 100, 1000, 10000, 100000, 1000000, 10000000, 100000000, 1000000000]

/-- `for(i = 0; i < 9; i++)` over the rounds left: `i`, `x` and `a`. -/
def groupLoop : Nat → Nat → Nat → List UInt8 → Nat × Nat × List UInt8
  | 0, i, x, a => (i, x, a)
  | k + 1, i, x, a =>
    let y := t10 (byteAt a 0)
    if y = INVAL then (i, x, a) else groupLoop k (i + 1) (x * 10 + y) (a.drop 1)

/-- `for(;;)` of `from10`, in at most as many rounds as there are characters. -/
def from10Loop : Nat → Int → List UInt8 → Int × List UInt8
  | 0, b, a => (b, a)
  | k + 1, b, a =>
    let (i, x, a) := groupLoop 9 0 0 a
    if i = 0 then (b, a)
    else
      let b := b * mppow10.getD i 0 + x
      if i ≠ 9 then (b, a) else from10Loop k b a

def from10 (a : List UInt8) : Int × List UInt8 := from10Loop (a.length + 1) 0 a

def fromdecx (a : List UInt8) (tab : UInt8 → Nat) (dec : Int → List UInt8 → Int → Int × List UInt8) :
    Int × List UInt8 :=
  let n := (a.takeWhile fun c => tab c ≠ INVAL).length
  let b := if n > 0 then
      let (m, p) := dec n a n
      if m > 0 then betomp p m.toNat else 0
    else 0
  (b, a.drop n)

/-- `for(;; a++)`: `sign` and `a` -/
def signLoop : List UInt8 → Int → Int × List UInt8
  | [], sign => (sign, [])
  | c :: a, sign => if c = 45 then signLoop a (sign * -1) else (sign, c :: a)

/-- `if(base == 0)` -/
def findBase (a : List UInt8) : Int × List UInt8 :=
  let a1 := byteAt a 1
  if byteAt a 0 = 48 then
    if a1 = 120 ∨ a1 = 88 then (16, a.drop 2)
    else if a1 = 98 ∨ a1 = 66 then (2, a.drop 2)
    else if a1 ≥ 48 ∧ a1 ≤ 55 then (8, a.drop 1)
    else (10, a)
  else (10, a)

/-- The number or `nil`, and `*pp`; `none` is `abort()`. -/
def strtomp (a : List UInt8) (base : Int) : Option (Option Int × List UInt8) :=
  let a := a.dropWhile fun c => c = 32 ∨ c = 9
  let (sign, a) := signLoop a 1
  let (base, a) := if base = 0 then findBase a else (base, a)
  let r := if base = 2 then some (frompow2 a 1)
    else if base = 4 then some (frompow2 a 2)
    else if base = 8 then some (from8 a)
    else if base = 10 then some (from10 a)
    else if base = 16 then some (frompow2 a 4)
    else if base = 32 then some (fromdecx a t32 dec32)
    else if base = 64 then some (fromdecx a t64 dec64)
    else none
  match r with
  | none => none
  | some (b, e) =>
    -- the same pointer: no characters parsed
    if e.length = a.length then some (none, e) else some (some (sign * b), e)

end Plan9.Libmp
