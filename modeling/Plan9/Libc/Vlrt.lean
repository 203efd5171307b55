/-
64-bit division on the 386, as the runtime of `libc/386/vlrt.c` and `vlop.s` has it.

A `Vlong` is its two halves. The machine's instructions are on 32 bits: `MULL` gives 64 bits
and `DIVL` traps if the quotient has more than 32. What a division of `long`s does with
-2^31 / -1, where the quotient is too large, is not the same on all machines: `traps` says
which. There is nothing after a trap. The functions that take pointers to the quotient and
to the remainder, either of which may be nil, return both.
-/
import Mathlib.Tactic.Ring

namespace Plan9.Libc

structure Vlong where
  lo : UInt32
  hi : UInt32
deriving DecidableEq

namespace Vlong

/-- As a `uvlong`. -/
def toNat (v : Vlong) : Nat := v.hi.toNat * 2 ^ 32 + v.lo.toNat

/-- As a `vlong`. -/
def toInt (v : Vlong) : Int := if v.hi.toNat < 2 ^ 31 then v.toNat else v.toNat - 2 ^ 64

end Vlong

/-- `SIGN(32)` -/
def sign32 : UInt32 := 0x80000000

/-! ## vlop.s -/

/-- `MULL`: the low half of the product, and the high half. -/
def mull (a b : UInt32) : UInt32 × UInt32 :=
  (UInt32.ofNat (a.toNat * b.toNat), UInt32.ofNat (a.toNat * b.toNat / 2 ^ 32))

/-- The low 64 bits of the product, and the high 32. -/
def mul64by32 (a : Vlong) (b : UInt32) : Vlong × UInt32 :=
  let (ax, dx) := mull a.lo b
  let lo := ax
  let bx := dx
  let (ax, dx) := mull a.hi b
  let carry : UInt32 := if bx.toNat + ax.toNat < 2 ^ 32 then 0 else 1
  (⟨lo, bx + ax⟩, dx + carry)

/-- `DIVL`: the quotient and the remainder. -/
def div64by32 (a : Vlong) (b : UInt32) : Option (UInt32 × UInt32) :=
  if a.hi < b then some (UInt32.ofNat (a.toNat / b.toNat), UInt32.ofNat (a.toNat % b.toNat)) else none

/-- `SUBL`, then `SBBL`. -/
def subv (a b : Vlong) : Vlong := ⟨a.lo - b.lo, a.hi - b.hi - if a.lo < b.lo then 1 else 0⟩

/-! ## Unsigned division -/

/-- The comparison that `slowdodiv` and `dodiv` write out. -/
def lov (l r : Vlong) : Bool := l.hi < r.hi ∨ l.hi = r.hi ∧ l.lo < r.lo

/-- `denhi = (denhi<<1) | (denlo>>31); denlo <<= 1;` -/
def shiftUp (v : Vlong) : Vlong := ⟨v.lo <<< 1, v.hi <<< 1 ||| v.lo >>> 31⟩

/-- `denlo = (denlo>>1) | (denhi<<31); denhi >>= 1;` -/
def shiftDown (v : Vlong) : Vlong := ⟨v.lo >>> 1 ||| v.hi <<< 31, v.hi >>> 1⟩

/-- The subtraction of `slowdodiv`. -/
def takeAway (num den : Vlong) : Vlong :=
  let t := num.lo
  let lo := num.lo - den.lo
  let hi := if lo > t then num.hi - 1 else num.hi
  ⟨lo, hi - den.hi⟩

/-- The first loop of `slowdodiv`: the divisor shifted up, and how often. There are fewer than 64 rounds. -/
def normalize (quo : Vlong) : Nat → Vlong → Nat → Option (Vlong × Nat)
  | 0, _, _ => none
  | fuel + 1, den, i => if lov den quo then normalize quo fuel (shiftUp den) (i + 1) else some (den, i)

/-- The second loop: the quotient and what is left, after as many rounds. -/
def divideLoop : Nat → Vlong → Vlong → Vlong → Vlong × Vlong
  | 0, num, _, quo => (quo, num)
  | k + 1, num, den, quo =>
    let quo := shiftUp quo
    if ¬ lov num den then divideLoop k (takeAway num den) (shiftDown den) { quo with lo := quo.lo ||| 1 }
    else divideLoop k num (shiftDown den) quo

def slowdodiv (num den : Vlong) : Option (Vlong × Vlong) :=
  if den.lo = 0 ∧ den.hi = 0 then none
  else
    let quo := if num.hi ≥ sign32 then ⟨0, sign32⟩ else num
    match normalize quo 64 den 0 with
    | none => none
    | some (den, i) => some (divideLoop (i + 1) num den ⟨0, 0⟩)

def dodiv (num den : Vlong) : Option (Vlong × Vlong) :=
  if lov num den then some (⟨0, 0⟩, num)
  else if den.hi ≠ 0 then
    let n := num.hi / den.hi
    let (x, high) := mul64by32 den n
    if high ≠ 0 ∨ lov num x then slowdodiv num den
    else some (⟨n, 0⟩, subv num x)
  else
    let (num, qhi) :=
      if num.hi ≥ den.lo then
        let n := num.hi / den.lo
        ({ num with hi := num.hi - den.lo * n }, n)
      else (num, 0)
    match div64by32 num den.lo with
    | none => none
    | some (qlo, rlo) => some (⟨qlo, qhi⟩, ⟨rlo, 0⟩)

/-- `_divvu` -/
def divvu (n d : Vlong) : Option Vlong :=
  if n.hi = 0 ∧ d.hi = 0 then
    if d.lo = 0 then none else some ⟨n.lo / d.lo, 0⟩
  else (dodiv n d).map (·.1)

/-- `_modvu` -/
def modvu (n d : Vlong) : Option Vlong :=
  if n.hi = 0 ∧ d.hi = 0 then
    if d.lo = 0 then none else some ⟨n.lo % d.lo, 0⟩
  else (dodiv n d).map (·.2)

/-! ## Signed division -/

/-- Division of `long`s. -/
def divl (traps : Bool) (n d : Int32) : Option Int32 :=
  if d = 0 ∨ traps ∧ n = Int32.minValue ∧ d = -1 then none else some (n / d)

/-- The remainder of `long`s, by the same instruction. -/
def modl (traps : Bool) (n d : Int32) : Option Int32 :=
  if d = 0 ∨ traps ∧ n = Int32.minValue ∧ d = -1 then none else some (n % d)

/-- `((long)x)>>31`, as a `ulong`. -/
def extend (x : UInt32) : UInt32 := (x.toInt32 >>> 31).toUInt32

/-- The `long` in 64 bits. -/
def ofLong (x : Int32) : Vlong := ⟨x.toUInt32, extend x.toUInt32⟩

def vneg (v : Vlong) : Vlong := if v.lo = 0 then { v with hi := -v.hi } else ⟨-v.lo, ~~~v.hi⟩

/-- `_divv` -/
def divv (traps : Bool) (n d : Vlong) : Option Vlong :=
  if n.hi = extend n.lo ∧ d.hi = extend d.lo then (divl traps n.lo.toInt32 d.lo.toInt32).map ofLong
  else
    let nneg := n.hi >>> 31
    let n := if nneg ≠ 0 then vneg n else n
    let dneg := d.hi >>> 31
    let d := if dneg ≠ 0 then vneg d else d
    (dodiv n d).map fun (q, _) => if nneg ≠ dneg then vneg q else q

/-- `_modv` -/
def modv (traps : Bool) (n d : Vlong) : Option Vlong :=
  if n.hi = extend n.lo ∧ d.hi = extend d.lo then (modl traps n.lo.toInt32 d.lo.toInt32).map ofLong
  else
    let nneg := n.hi >>> 31
    let n := if nneg ≠ 0 then vneg n else n
    let dneg := d.hi >>> 31
    let d := if dneg ≠ 0 then vneg d else d
    (dodiv n d).map fun (_, r) => if nneg ≠ 0 then vneg r else r

end Plan9.Libc
