/-
`qsort` of `port/qsort.c` in libc: quicksort with two cursors, any comparison function
and elements of any size.

A pointer into the array is the index of its element, so that `p += es` is the next index
and `(pj - a) / es` the difference. `cmp` and `swap` are called through `QSort`, the `Sort` of the
source; what they work on, and what the comparison function remembers, is `M`. Where one
of them is given a pointer that is not to an element there is nothing. A round of
`while(n > 1)` is a call.
-/
import Plan9.Lib.Memory

namespace Plan9.Libc

open Memory

structure QSort (M : Type) where
  cmp : M → Nat → Nat → Option (Int × M)
  swap : M → Nat → Nat → Option M

/-! ## Exchanging elements -/

/-- The rounds of `swapb`, one for each byte of an element. -/
def swapb : Nat → (Nat → UInt8) → Nat → Nat → Nat → UInt8
  | 0, mem, _, _ => mem
  | es + 1, mem, i, j =>
    let c := mem i
    let mem := Function.update mem i (mem j)
    let mem := Function.update mem j c
    swapb es mem (i + 1) (j + 1)

/-- `sizeof(long)` -/
def sizeofLong : Nat := 4

/-- The rounds of `swapi`, one for each `long`. -/
def swapiLoop : Nat → (Nat → UInt8) → Nat → Nat → Nat → UInt8
  | 0, mem, _, _ => mem
  | k + 1, mem, i, j =>
    let c := load mem i sizeofLong
    let mem := store mem i (load mem j sizeofLong)
    let mem := store mem j c
    swapiLoop k mem (i + sizeofLong) (j + sizeofLong)

def swapi (es : Nat) (mem : Nat → UInt8) (i j : Nat) : Nat → UInt8 := swapiLoop (es / sizeofLong) mem i j

/-! ## Partitioning -/

section

variable {M : Type} (p : QSort M)

/-- The median of the elements at 1/6, 1/2 and 5/6. -/
def pivot (a n : Nat) (m : M) : Option (Nat × M) := do
  let j := n / 6
  let pi := a + j
  let j := j + j
  let pj := pi + j
  let pk := pj + j
  let (r, m) ← p.cmp m pi pj
  if r < 0 then
    let (r, m) ← p.cmp m pi pk
    if r < 0 then
      let (r, m) ← p.cmp m pj pk
      return (if r < 0 then pj else pk, m)
    else return (pi, m)
  else
    let (r, m) ← p.cmp m pj pk
    if r < 0 then
      let (r, m) ← p.cmp m pi pk
      return (if r < 0 then pi else pk, m)
    else return (pj, m)

/-- `do pi += es; while(pi < pn && p->cmp(pi, a) < 0);`, for as many rounds as there are elements up to `pn`. -/
def scanUp (a pn : Nat) : Nat → Nat → M → Option (Nat × M)
  | 0, pi, m => some (pi + 1, m)
  | k + 1, pi, m => do
    let pi := pi + 1
    if pi < pn then
      let (r, m) ← p.cmp m pi a
      if r < 0 then scanUp a pn k pi m else return (pi, m)
    else return (pi, m)

/-- `do pj -= es; while(pj > a && p->cmp(pj, a) > 0);` -/
def scanDown (a : Nat) : Nat → M → Option (Nat × M)
  | 0, _ => none
  | pj + 1, m => do
    if pj > a then
      let (r, m) ← p.cmp m pj a
      if r > 0 then scanDown a pj m else return (pj, m)
    else return (pj, m)

/-- The loop over both cursors; `pj` after it. -/
def cursors (a pn : Nat) : Nat → Nat → Nat → M → Option (Nat × M)
  | 0, _, _, _ => none
  | fuel + 1, pi, pj, m => do
    let (pi, m) ← scanUp p a pn (pn - pi) pi m
    let (pj, m) ← scanDown p a pj m
    if pj < pi then return (pj, m)
    else
      let m ← p.swap m pi pj
      cursors a pn fuel pi pj m

/-- What a round of `while(n > 1)` does before the parts are sorted: where the pivot ends. -/
def partition (a n : Nat) (m : M) : Option (Nat × M) := do
  let (pi, m) ← (if n > 10 then pivot p a n m else some (a + (n >>> 1), m) : Option (Nat × M))
  let m ← p.swap m a pi
  let (pj, m) ← cursors p a (a + n) n a (a + n) m
  let m ← p.swap m a pj
  return (pj, m)

def qsorts : Nat → Nat → Nat → M → Option M
  | 0, _, n, m => if n > 1 then none else some m
  | fuel + 1, a, n, m => do
    if n > 1 then
      let (pj, m) ← partition p a n m
      let j := pj - a
      let n := n - (j + 1)
      let pj := a + (j + 1)
      if j ≥ n then
        let m ← qsorts fuel a j m
        qsorts fuel pj n m
      else
        let m ← qsorts fuel pj n m
        qsorts fuel a j m
    else return m

end

/-! ## qsort -/

section

variable {σ : Type}

/-- The element at `k`, of an array at `va`. -/
def elem (mem : Nat → UInt8) (va es k : Nat) : List UInt8 := load mem (va + k * es) es

/-- The array's elements. -/
def elems (mem : Nat → UInt8) (va n es : Nat) : List (List UInt8) := (List.range n).map (elem mem va es)

/-- The `Sort` that `qsort` makes: `cmp` is given the bytes of two elements, and may remember something. -/
def qsortSort (cmp : σ → List UInt8 → List UInt8 → Int × σ) (va n es : Nat) : QSort ((Nat → UInt8) × σ) where
  cmp m i j :=
    if i < n ∧ j < n then
      let (r, s) := cmp m.2 (elem m.1 va es i) (elem m.1 va es j)
      some (r, m.1, s)
    else none
  -- with no byte in an element both loops run on over all of memory
  swap m i j :=
    if 0 < es ∧ i < n ∧ j < n then
      let swap := if (va ||| es) % sizeofLong ≠ 0 then swapb else swapi
      some (swap es m.1 (va + i * es) (va + j * es), m.2)
    else none

def qsort (cmp : σ → List UInt8 → List UInt8 → Int × σ) (mem : Nat → UInt8) (s : σ) (va n es : Nat) :
    Option ((Nat → UInt8) × σ) :=
  qsorts (qsortSort cmp va n es) n 0 n (mem, s)

end

end Plan9.Libc
