/-
`port/cleanname.c` in libc: a name made canonical in place.

A pointer is a place in the memory from `name` on, which ends somewhere: what is read or
written past its end is an error, and so is the assertion when it fails. `chartorune` is
called on a string, so there has to be a NUL from its argument on. The loops have the
length of the memory as fuel.
-/
import Plan9.Lib.Outcome
import Plan9.Libc.Rune

namespace Plan9.Libc.Cleanname

open Bytes

/-- `SEP` -/
def SEP (x : UInt8) : Bool := x = 0x2F || x = 0

/-- `m[p]` -/
def get (m : List UInt8) (p : Nat) : Except String UInt8 :=
  match m[p]? with
  | some c => .ok c
  | none => .error "address"

/-- `m[p] = c` -/
def put (m : List UInt8) (p : Nat) (c : UInt8) : Except String (List UInt8) :=
  if p < m.length then .ok (m.set p c) else .error "address"

/-- `strcpy(name, ".")` -/
def putDot (m : List UInt8) : Except String (List UInt8) := do
  let m ← put m 0 0x2E
  put m 1 0

/-- `chartorune(&r, name + p)` -/
def runeCount (m : List UInt8) (p : Nat) : Except String Nat :=
  if 0 ∈ m.drop p then .ok (chartorune (m.drop p)).2 else .error "address"

/-- `while(!SEP(*d0)) d0 += chartorune(&r, d0);` -/
def skipElem (m : List UInt8) : Nat → Nat → Except String Nat
  | 0, _ => .error "skipElem"
  | n + 1, d0 => do
    if SEP (← get m d0) then return d0
    skipElem m n (d0 + (← runeCount m d0))

/-- `for(; *s == '/'; s++) ;` It is read on where this ends. -/
def skipSlash (m : List UInt8) (s : Nat) : Nat := s + ((m.drop s).takeWhile (· = 0x2F)).length

/-- The start of the path after the root name, and `rooted`; `none` is `return`. -/
def root (m : List UInt8) : Except String (Option (Nat × Bool)) := do
  let c ← get m 0
  if c = 0x23 then
    if (← get m 1) = 0 then return none
    let d0 ← skipElem m m.length (1 + (← runeCount m 1)) -- ignore slash: #/
    -- `d0 == 0` is never so
    return some (d0 + 1, true)
  else if c = 0x2F then return some (1, true)
  else return some (0, false)

/-- remove dup slashes -/
def squeeze : Nat → List UInt8 → Nat → Nat → Except String (List UInt8)
  | 0, _, _, _ => .error "squeeze"
  | n + 1, m, d, s => do
    let c ← get m s
    if c = 0 then put m d 0
    else
      let m ← put m d c
      squeeze n m (d + 1) (if (← get m s) = 0x2F then skipSlash m (s + 1) else s + 1)

/-- `s[0] == '.' && SEP(s[1])` -/
def isDot (m : List UInt8) (s : Nat) : Except String Bool := do
  if (← get m s) ≠ 0x2E then return false
  return SEP (← get m (s + 1))

/-- `s[0] == '.' && s[1] == '.' && SEP(s[2])` -/
def isDotdot (m : List UInt8) (s : Nat) : Except String Bool := do
  if (← get m s) ≠ 0x2E then return false
  if (← get m (s + 1)) ≠ 0x2E then return false
  return SEP (← get m (s + 2))

/-- `for(; d > d0 && d[-1] != '/'; d--) ;` -/
def backUp (m : List UInt8) (d0 : Nat) : Nat → Nat
  | 0 => 0
  | d + 1 => if d + 1 > d0 ∧ byteAt m d ≠ 0x2F then backUp m d0 d else d + 1

/-- `while(!SEP(*s)) *d++ = *s++;` -/
def copyElem : Nat → List UInt8 → Nat → Nat → Except String (List UInt8 × Nat × Nat)
  | 0, _, _, _ => .error "copyElem"
  | n + 1, m, d, s => do
    let c ← get m s
    if SEP c then return (m, d, s)
    copyElem n (← put m d c) (d + 1) (s + 1)

/-- The end of the loop: an element is copied, with the `/` after it. It goes on at `s`, or it is a `break`. -/
def copyStep (m : List UInt8) (d s d0 : Nat) : Except String (List UInt8 × Nat × Option (Nat × Nat)) := do
  let (m, d, s) ← copyElem m.length m d s
  let c ← get m s
  if c = 0 then return (m, d, none)
  return (← put m d c, d + 1, some (s + 1, d0))

/-- The loop once round, on an element that starts at `s`: the memory and `d`, and `s` and `d0` if it goes on. -/
def elemStep (m : List UInt8) (d s d0 : Nat) (rooted : Bool) :
    Except String (List UInt8 × Nat × Option (Nat × Nat)) := do
  if ← isDot m s then
    if (← get m (s + 1)) = 0 then return (m, d, none)
    return (m, d, some (s + 2, d0))
  else if ← isDotdot m s then
    if d = d0 ∧ rooted then
      -- /../x -> /x
      if (← get m (s + 2)) = 0 then return (m, d, none)
      return (m, d, some (s + 3, d0))
    else
      -- ../x -> ../x; and never collect ../
      let d0 := if d = d0 then d0 + 3 else d0
      if d > d0 then
        -- a/../x -> x
        if d < d0 + 2 then throw "assert"
        if (← get m (d - 1)) ≠ 0x2F then throw "assert"
        let d := backUp m d0 (d - 2)
        if (← get m (s + 2)) = 0 then return (m, d, none)
        return (m, d, some (s + 3, d0))
      else copyStep m d s d0
  else copyStep m d s d0

def elemLoop (rooted : Bool) : Nat → List UInt8 → Nat → Nat → Nat → Except String (List UInt8 × Nat)
  | 0, _, _, _, _ => .error "elemLoop"
  | n + 1, m, d, s, d0 => do
    if (← get m s) = 0 then return (m, d)
    match ← elemStep m d s d0 rooted with
    | (m, d, none) => return (m, d)
    | (m, d, some (s, d0)) => elemLoop rooted n m d s d0

/-- `if(d-1 > name && d[-1] == '/') *--d = 0;` (thanks to #/) -/
def stripSlash (m : List UInt8) (d : Nat) : Except String (List UInt8) := do
  if d > 1 then
    if (← get m (d - 1)) = 0x2F then put m (d - 1) 0 else return m
  else return m

/-- What is left to do at the end. -/
def finish (m : List UInt8) (d : Nat) : Except String (List UInt8) := do
  let m ← stripSlash (← put m d 0) d
  if (← get m 0) = 0 then putDot m else return m

/-- The path from `d0` on. -/
def cleanPath (m : List UInt8) (d0 : Nat) (rooted : Bool) : Except String (List UInt8) := do
  let m ← squeeze m.length m d0 (if rooted then skipSlash m d0 else d0)
  let (m, d) ← elemLoop rooted m.length m d0 d0 d0
  finish m d

def cleanname (m : List UInt8) : Except String (List UInt8) := do
  if (← get m 0) = 0 then putDot m
  else
    match ← root m with
    | none => return m
    | some (d0, rooted) => cleanPath m d0 rooted

/-! ## The canonical path -/

/-- The elements so far with another one. -/
def push (rooted : Bool) (es : List (List UInt8)) (e : List UInt8) : List (List UInt8) :=
  if e = [] ∨ e = [0x2E] then es
  else if e = [0x2E, 0x2E] then
    match es.getLast? with
    | none => if rooted then [] else [e]
    | some l => if l = [0x2E, 0x2E] then es ++ [e] else es.dropLast
  else es ++ [e]

/-- The elements of a path, with `..` against the one before it. -/
def resolve (rooted : Bool) (path : List UInt8) : List (List UInt8) := (path.splitOn 0x2F).foldl (push rooted) []

/-- The lexical path. -/
def canonical (name : List UInt8) : List UInt8 :=
  let rooted : Bool := name.head? = some 0x2F
  let path := List.intercalate [0x2F] (resolve rooted name)
  if rooted then 0x2F :: path else if path = [] then [0x2E] else path

end Plan9.Libc.Cleanname
