/-
Multiplication of digit vectors (`libmp/port/mpmul.c`): `mpvecmul`, with `mpkaratsuba` for long
ones, `mpvectsmul`, and `mpmul`.

`p` is all there is at the pointer. The long way is recursive: `mpkaratsuba` is given the
`mpvecmul` it calls, and that takes the depth the recursion may have; the length of the longer
vector is enough. The buffer that `mpkaratsuba` allocates is the vectors it is cut in.
-/
import Plan9.Libmp.Mpaux

namespace Plan9.Mp

open Memory

/-- What multiplies: the digits of `a`, of `b`, and those at `p` before and after. -/
abbrev Vecmul := List mpdigit → List mpdigit → List mpdigit → List mpdigit

/-- `l` after `x` was written at its start. -/
def blit (l x : List mpdigit) : List mpdigit := x ++ l.drop x.length

/-- `mpvecadd(res+k, reslen-k, x, xlen, res+k)` -/
def addAt (res : List mpdigit) (reslen k : Nat) (x : List mpdigit) : List mpdigit :=
  res.take k ++ blit (res.drop k) (mpvecadd ((res.drop k).take (reslen - k)) x)

/-- `mpvecsub(res+k, reslen-k, x, xlen, res+k)` -/
def subAt (res : List mpdigit) (reslen k : Nat) (x : List mpdigit) : List mpdigit :=
  res.take k ++ blit (res.drop k) (mpvecsub ((res.drop k).take (reslen - k)) x)

/-- The partial products of the halves, and `res`, where they are added up. -/
def karatsubaSum (mpvecmul : Vecmul) (n : Nat) (u0 u1 v0 v1 : List mpdigit) : List mpdigit :=
  let zeros := List.replicate (2 * n + 1) 0
  let reslen := 4 * n + 1
  let sign : Int := if mpveccmp u1 u0 < 0 then -1 else 1
  let u0v0 := blit zeros (if mpveccmp u1 u0 < 0 then mpvecsub u0 u1 else mpvecsub u1 (u0.take u1.length))
  let sign := if mpveccmp v0 v1 < 0 then sign * -1 else sign
  let u1v1 := blit zeros (if mpveccmp v0 v1 < 0 then mpvecsub v1 (v0.take v1.length) else mpvecsub v0 v1)
  let diffprod := mpvecmul (u0v0.take u0.length) (u1v1.take v0.length) zeros
  let u1v1 := if v1.length > 0 then mpvecmul u1 v1 zeros else zeros
  let u0v0 := mpvecmul u0 v0 zeros
  let res := List.replicate (2 * (2 * n + 1)) 0
  let res := addAt res reslen 0 (u0v0.take (u0.length + v0.length))
  let res := addAt res reslen n (u0v0.take (u0.length + v0.length))
  let res :=
    if v1.length > 0 then
      let res := addAt res reslen n (u1v1.take (u1.length + v1.length))
      addAt res reslen (2 * n) (u1v1.take (u1.length + v1.length))
    else res
  let diffprod := diffprod.take (u0.length + v0.length)
  if sign < 0 then subAt res reslen n diffprod else addAt res reslen n diffprod

def mpkaratsuba (mpvecmul : Vecmul) (a b p : List mpdigit) : List mpdigit :=
  let n := if a.length % 2 = 1 then a.length / 2 + 1 else a.length / 2
  let v0len := if b.length > n then n else b.length
  let res := karatsubaSum mpvecmul n (a.take n) (a.drop n) (b.take v0len) (b.drop v0len)
  blit p (res.take (a.length + b.length))

def karatsubaMin : Nat := 32

/-- `for(i = 0; i < blen; i++)`, without the digits that are skipped. -/
def mulLoop (skip : mpdigit → Bool) (a : List mpdigit) : List mpdigit → List mpdigit → List mpdigit
  | [], p => p
  | d :: b, p =>
    let p := if skip d then p else mpvecdigmuladd a d p
    p.take 1 ++ mulLoop skip a b (p.drop 1)

/-- `mpvecmul` on a longer `a`. -/
def mulLonger (mpvecmul : Vecmul) (a b p : List mpdigit) : List mpdigit :=
  if a.length ≥ karatsubaMin ∧ b.length > 1 then mpkaratsuba mpvecmul a b p else mulLoop (· = 0) a b p

def vecmulDepth : Nat → Vecmul
  | 0, _, _, p => p
  | k + 1, a, b, p => if a.length < b.length then mulLonger (vecmulDepth k) b a p else mulLonger (vecmulDepth k) a b p

def mpvecmul (a b p : List mpdigit) : List mpdigit := vecmulDepth (max a.length b.length) a b p

def mpvectsmul (a b p : List mpdigit) : List mpdigit :=
  if a.length < b.length then mulLoop (fun _ => false) b a p else mulLoop (fun _ => false) a b p

/-- What `mpmul` normalizes. -/
def mulInto (b1 b2 prod : mpint) : mpint :=
  let n := b1.top + b2.top + 1
  let prod := { prod with timesafe := prod.timesafe || (b1.timesafe || b2.timesafe), top := 0 }
  let prod := mpbits prod (n * 32)
  let mul := if prod.timesafe then mpvectsmul else mpvecmul
  { prod with p := store prod.p 0 (mul b1.digits b2.digits (load prod.p 0 n)), top := n, sign := b1.sign * b2.sign }

def mpmul (σ : Mpints) (b1 b2 prod : Nat) : Option Mpints :=
  if prod = b1 ∨ prod = b2 then do
    let new := { mpnew with timesafe := (σ prod).timesafe, norm := (σ prod).norm }
    let p ← mpnorm (mulInto (σ b1) (σ b2) new)
    some (Function.update σ prod (mpassign p (σ prod)))
  else do
    let p ← mpnorm (mulInto (σ b1) (σ b2) (σ prod))
    some (Function.update σ prod p)

end Plan9.Mp
