/-
acme's text buffers, as `buff.c` has them: a text is cut into blocks of the temporary
file, and one of them is in memory, where it may have been changed.

The cache is the list of its `cnc` runes, and `bl` is nil when there are no blocks.
Positions are naturals: a text's length fits a `uint`, and where one is taken from
another it is not the larger. `b->bl[i]` past the end of the blocks, which the source does
not check for, is an error here.
-/
import Plan9.Acme.Disk

namespace Plan9.Acme

structure Buffer where
  nc : Nat
  c : List Rune
  cq : Nat
  cdirty : Bool
  cbi : Nat
  bl : List Block

def Buffer.cnc (b : Buffer) : Nat := b.c.length

/-- `b->bl[i]` -/
def Buffer.block (b : Buffer) (i : Nat) : Except String Block :=
  match b.bl[i]? with
  | some k => .ok k
  | none => .error "bl"

def addblock (d : Disk) (b : Buffer) (i n : Nat) : Except String (Disk × Buffer) :=
  if i > b.bl.length then .error "internal error: addblock"
  else do
    let (k, d) ← disknewblock d n
    return (d, { b with bl := b.bl.insertIdx i k })

def delblock (d : Disk) (b : Buffer) (i : Nat) : Except String (Disk × Buffer) :=
  if i ≥ b.bl.length then .error "internal error: delblock"
  else do
    let k ← b.block i
    let d ← diskrelease d k
    return (d, { b with bl := b.bl.eraseIdx i })

/-- `diskwrite(disk, &b->bl[i], r, n)` -/
def writeblock (d : Disk) (b : Buffer) (i : Nat) (r : List Rune) : Except String (Disk × Buffer) := do
  let k ← b.block i
  let (k, d) ← diskwrite d k r
  return (d, { b with bl := b.bl.set i k })

def flush (d : Disk) (b : Buffer) : Except String (Disk × Buffer) :=
  if b.cdirty ∨ b.cnc = 0 then do
    let (d, b) ← (if b.cnc = 0 then delblock d b b.cbi else writeblock d b b.cbi b.c)
    return (d, { b with cdirty := false })
  else .ok (d, b)

/-- The loop of `setcache`: the blocks from `i` on, the first of which is at `q`. -/
def findblock (q0 nc : Nat) : List Block → Nat → Nat → Except String (Block × Nat × Nat)
  | [], _, _ => .error "block not found"
  | k :: ks, i, q => if q + k.n ≤ q0 ∧ q + k.n < nc then findblock q0 nc ks (i + 1) (q + k.n) else .ok (k, i, q)

def setcache (d : Disk) (b : Buffer) (q0 : Nat) : Except String (Disk × Buffer) :=
  if q0 > b.nc then .error "internal error: setcache"
  else if b.nc = 0 ∨ b.cq ≤ q0 ∧ q0 < b.cq + b.cnc then .ok (d, b)
  else if q0 = b.nc ∧ q0 = b.cq + b.cnc ∧ b.cnc < Maxblock then .ok (d, b) -- grow this block
  else do
    let (d, b) ← flush d b
    let q := if q0 < b.cq then 0 else b.cq
    let i := if q0 < b.cq then 0 else b.cbi
    let (k, i, q) ← findblock q0 b.nc (b.bl.drop i) i q
    let c ← diskread d k k.n
    return (d, { b with cbi := i, cq := q, c := c })

/-- `Tail` -/
def Buffer.tail (b : Buffer) (m : Nat) : Buffer := { b with nc := b.nc + m, cdirty := true }

/-- The loop of `bufinsert` once round, and how many runes it has taken. -/
def insertStep (d : Disk) (b : Buffer) (q0 : Nat) (s : List Rune) : Except String (Disk × Buffer × Nat) := do
  let (d, b) ← setcache d b q0
  let n := s.length
  let off := q0 - b.cq
  if b.cnc + n ≤ Maxblock then
    -- everything fits in one block
    let (d, b) ← (
      if b.bl = [] then
        if b.cnc ≠ 0 then .error "internal error: bufinsert1 cnc!=0"
        else addblock d b 0 (b.cnc + n) >>= fun (d, b) => .ok (d, { b with cbi := 0 })
      else .ok (d, b))
    return (d, { b with c := b.c.take off ++ s ++ b.c.drop off }.tail n, n)
  else if q0 = b.cq ∨ q0 = b.cq + b.cnc then
    -- at the beginning or end of the block, a new one
    let (d, b) ← (if b.cdirty then flush d b else .ok (d, b))
    let m := min n Maxblock
    let i ← (
      if b.bl = [] then if b.cnc ≠ 0 then .error "internal error: bufinsert2 cnc!=0" else .ok 0
      else .ok (if q0 > b.cq then b.cbi + 1 else b.cbi))
    let (d, b) ← addblock d b i m
    return (d, { b with c := s.take m, cq := q0, cbi := i }.tail m, m)
  else
    -- the right side is cut off
    let m := b.cnc - off
    let (d, b) ← (
      if m > 0 then
        addblock d b (b.cbi + 1) m >>= fun (d, b) => writeblock d b (b.cbi + 1) (b.c.drop off) >>= fun (d, b) =>
          .ok (d, { b with c := b.c.take off })
      else .ok (d, b))
    let m := min n (Maxblock - b.cnc)
    return (d, { b with c := b.c ++ s.take m }.tail m, m)

/-- Every time round takes a rune at least, so as many rounds as there are runes are enough. -/
def insertLoop : Nat → Disk → Buffer → Nat → List Rune → Except String (Disk × Buffer)
  | _, d, b, _, [] => .ok (d, b)
  | 0, _, _, _, _ :: _ => .error "bufinsert"
  | fuel + 1, d, b, q0, s => do
    let (d, b, m) ← insertStep d b q0 s
    insertLoop fuel d b (q0 + m) (s.drop m)

def bufinsert (d : Disk) (b : Buffer) (q0 : Nat) (s : List Rune) : Except String (Disk × Buffer) :=
  if q0 > b.nc then .error "internal error: bufinsert"
  else insertLoop s.length d b q0 s

/-- The loop of `bufdelete` once round, and how many runes are gone. -/
def deleteStep (d : Disk) (b : Buffer) (q0 q1 : Nat) : Except String (Disk × Buffer × Nat) := do
  let (d, b) ← setcache d b q0
  let off := q0 - b.cq
  let n := if q1 > b.cq + b.cnc then b.cnc - off else q1 - q0
  return (d, { b with c := b.c.take off ++ b.c.drop (off + n), cdirty := true, nc := b.nc - n }, n)

def deleteLoop : Nat → Disk → Buffer → Nat → Nat → Except String (Disk × Buffer)
  | fuel, d, b, q0, q1 =>
    if q1 > q0 then
      match fuel with
      | 0 => .error "bufdelete"
      | fuel + 1 => do
        let (d, b, n) ← deleteStep d b q0 q1
        deleteLoop fuel d b q0 (q1 - n)
    else .ok (d, b)

def bufdelete (d : Disk) (b : Buffer) (q0 q1 : Nat) : Except String (Disk × Buffer) :=
  if ¬ (q0 ≤ q1 ∧ q0 ≤ b.nc ∧ q1 ≤ b.nc) then .error "internal error: bufdelete"
  else deleteLoop (q1 - q0) d b q0 q1

/-- The loop of `bufread`, with what has been read. -/
def readLoop : Nat → Disk → Buffer → Nat → Nat → List Rune → Except String (Disk × Buffer × List Rune)
  | _, d, b, _, 0, s => .ok (d, b, s)
  | 0, _, _, _, _ + 1, _ => .error "bufread"
  | fuel + 1, d, b, q0, n, s => do
    let (d, b) ← setcache d b q0
    let m := min n (b.cnc - (q0 - b.cq))
    readLoop fuel d b (q0 + m) (n - m) (s ++ (b.c.drop (q0 - b.cq)).take m)

def bufread (d : Disk) (b : Buffer) (q0 n : Nat) : Except String (Disk × Buffer × List Rune) :=
  if ¬ (q0 ≤ b.nc ∧ q0 + n ≤ b.nc) then .error "bufread: internal error"
  else readLoop n d b q0 n []

/-- The loop of `bufreset`, for the blocks before `i`. -/
def resetLoop : Nat → Disk → Buffer → Except String (Disk × Buffer)
  | 0, d, b => .ok (d, b)
  | i + 1, d, b => do
    let (d, b) ← delblock d b i
    resetLoop i d b

def bufreset (d : Disk) (b : Buffer) : Except String (Disk × Buffer) :=
  let b := { b with nc := 0, c := [], cq := 0, cdirty := false, cbi := 0 }
  resetLoop (b.bl.length - 1) d b

/-- `free(b->bl)`: what is still in the array is gone. -/
def bufclose (d : Disk) (b : Buffer) : Except String (Disk × Buffer) := do
  let (d, b) ← bufreset d b
  return (d, { b with c := [], bl := [] })

end Plan9.Acme
