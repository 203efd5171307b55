/-
The index of the venti server (`venti/srv/index.c`): how `newindex` spreads the
buckets over the sections, how `indexsect0` finds the section of a bucket, and
the range of hash values `icachewritesect` writes to a section.

Buckets and blocks are `u32int`s, held in `Nat`s below 2³²; `u32` is what is
left of a number stored in one. The sections are as many as `smap` has room
for, so their number and twice it are small.
-/
import Mathlib.Tactic.Ring

namespace Plan9.Venti

/-- Stored in a `u32int`. -/
def u32 (x : Int) : Nat := (x % 2 ^ 32).toNat

theorem u32_nat {x : Nat} (h : x < 2 ^ 32) : u32 x = x := by
  unfold u32
  omega

/-- `TWID32` -/
def twid32 : Nat := 2 ^ 32 - 1

/-- The bytes of a name, the terminating one left out. -/
abbrev Name := List Char

/-- `ANameSize` -/
def aNameSize : Nat := 64

def namecmp (s t : Name) : Bool := s.take aNameSize == t.take aNameSize

def namecp (src : Name) : Name := src.take (aNameSize - 1)

structure ISect where
  name : Name
  index : Name
  blocksize : Nat
  tabsize : Nat
  blocks : Nat
  start : Nat
  stop : Nat
  blocks_lt : blocks < 2 ^ 32

structure AMap where
  name : Name
  start : Nat
  stop : Nat

structure Index where
  name : Name
  sects : List ISect
  smap : List AMap
  blocksize : Nat
  buckets : Nat
  tabsize : Nat
  div : Nat

/-! ## A new index -/

/-- The first loop of `newindex`: the sections agree, and their blocks are added up. -/
def totalBlocks (name : Name) (blocksize tabsize : Nat) : Nat → List ISect → Except String Nat
  | nb, [] => .ok nb
  | nb, is :: rest =>
    if is.index ≠ [] ∧ is.index ≠ name then
      .error ("creating new index using non-empty section " ++ String.ofList is.name)
    else if blocksize ≠ is.blocksize then .error "mismatched block sizes in index sections"
    else if tabsize ≠ is.tabsize then .error "mismatched config table sizes in index sections"
    else totalBlocks name blocksize tabsize (nb + is.blocks) rest

/-- A section whose name a later one has too. -/
def duplicateName : List ISect → Option Name
  | [] => none
  | is :: rest => if rest.any (fun js => namecmp is.name js.name) then some is.name else duplicateName rest

/-- The third loop: `ub` buckets over the sections, `share` blocks of each but the last left over. -/
def layout (name : Name) (ub share : Nat) : Nat → List ISect → Except String (List ISect)
  | _, [] => .ok []
  | start, is :: rest =>
    let stop := if rest.isEmpty then ub else u32 ((start : Int) + is.blocks - share)
    -- bounds a section already has must be the ones chosen for it here
    if (is.start ≠ 0 ∨ is.stop ≠ 0) ∧ (is.start ≠ start ∨ is.stop ≠ stop) then
      .error ("creating new index using non-empty section " ++ String.ofList is.name)
    else
      match layout name ub share stop rest with
      | .error e => .error e
      | .ok rest => .ok ({ is with start := start, stop := stop, index := namecp name } :: rest)

def initindex1 (ix : Index) : Except String Index :=
  let div := u32 ((2 ^ 32 + ix.buckets - 1) / ix.buckets : Nat)
  let buckets := u32 ((2 ^ 32 - 1) / div + 1 : Nat)
  if buckets ≠ ix.buckets then
    .error ("inconsistent math for divisor and buckets in " ++ String.ofList ix.name)
  else .ok { ix with div := div }

/-- The buckets available and the divisor, for `nb` blocks; both may be given up as too many. -/
def pickDiv (nb : Nat) : Nat × Nat :=
  let nb := if nb ≥ 2 ^ 32 then 2 ^ 32 - 1 else nb
  let div := u32 ((2 ^ 32 + nb - 1) / nb : Nat)
  if div < 100 then ((2 ^ 32 - 1) / (100 - 1), 100) else (nb, div)

def newindex (name : Name) (sects : List ISect) : Except String Index :=
  match sects with
  | [] => .error "creating index with no index sections"
  | is :: _ =>
    match totalBlocks name is.blocksize is.tabsize 0 sects with
    | .error e => .error e
    | .ok total =>
      match duplicateName sects with
      | some n =>
        .error ("duplicate section name " ++ String.ofList n ++ " for index " ++ String.ofList name)
      | none =>
        let (nb, div) := pickDiv total
        let ub := u32 ((2 ^ 32 - 1) / div + 1 : Nat)
        if ub > nb then .error "index initialization math wrong"
        else
          let xb := u32 (nb - ub)
          match layout name ub (xb / sects.length) 0 sects with
          | .error e => .error e
          | .ok ss =>
            initindex1
              { name := namecp name
                sects := ss
                smap := ss.map fun is => { name := namecp is.name, start := is.start, stop := is.stop }
                blocksize := is.blocksize
                buckets := ub
                tabsize := is.tabsize
                div := div }

/-! ## Finding a section -/

/-- `ix->sects[m]->start` -/
def Index.start (ix : Index) (m : Int) : Nat := (ix.sects[m.toNat]?.map ISect.start).getD 0

/-- The loop of `indexsect0`. -/
def indexsectLoop (ix : Index) (buck : Nat) (l r : Int) : Int :=
  if l ≤ r then
    let m := (r + l) / 2
    if ix.start m ≤ buck then indexsectLoop ix buck (m + 1) r else indexsectLoop ix buck l (m - 1)
  else l - 1
termination_by (r + 1 - l).toNat

def indexsect0 (ix : Index) (buck : Nat) : Int := indexsectLoop ix buck 1 (ix.sects.length - 1)

/-! ## Hash ranges -/

/-- `lo` in `icachewritesect` -/
def sectLo (ix : Index) (is : ISect) : Nat := u32 (is.start * ix.div)

/-- `hi` in `icachewritesect` -/
def sectHi (ix : Index) (is : ISect) : Nat :=
  if twid32 / ix.div < is.stop then twid32 else u32 ((is.stop : Int) * ix.div - 1)

end Plan9.Venti
