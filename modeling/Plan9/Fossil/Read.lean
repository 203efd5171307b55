/-
Reading a file of fossil (`_sourceBlock` and `blockWalk` of `fossil/source.c`
opened for reading, `fileRead` of `fossil/file.c`), and which bytes a call of
`sourceSetSize` to a smaller size erases.

`look` is what a tree of pointer blocks holds at an offset: the meaning of the
blocks, to which the walk by the digits of a block number comes down.
-/
import Plan9.Fossil.SourceFacts

namespace Plan9.Fossil

open Memory

/-! ## The code -/

/-- The loop of `_sourceBlock` over the digits of `bn`, lowest first, for at most `k` of them. -/
def indexLoop (np : Nat) : Nat → Nat → Option (List Nat)
  | _, 0 => some []
  | 0, _ + 1 => none
  | k + 1, bn + 1 =>
    match indexLoop np k ((bn + 1) / np) with
    | none => none
    | some index => some ((bn + 1) % np :: index)

/-- The walk of `_sourceBlock` from a block at level `i`, a `blockWalk` for each level. -/
def walkDown (fs : Fs) (tag : Nat) (index : List Nat) : Nat → Block → Option Block
  | 0, b => some b
  | i + 1, b =>
    match fs.cacheGlobal (pointer b.data (index.getD i 0)) (b.l.type - 1) tag with
    | none => none
    | some b => walkDown fs tag index i b

namespace File

/-- `sourceBlock` for reading. -/
def sourceBlock (f : File) (bn : Nat) : Option Block :=
  let e := f.ent
  if e.gen ≠ f.gen then none
  else
    match indexLoop e.np 7 bn with
    | none => none
    | some index =>
      if index.length > e.depth then none
      else
        match f.fs.cacheGlobal e.score e.entryType e.tag with
        | none => none
        | some b => walkDown f.fs e.tag index e.depth b

/-- One byte of `fileRead`. -/
def fileRead (f : File) (offset : Nat) : Option UInt8 :=
  if offset < f.ent.size then (f.sourceBlock (offset / f.ent.dsize)).map fun b => b.data (offset % f.ent.dsize)
  else none

end File

/-! ## The tree -/

/-- What the entry says of the shape of its tree. -/
structure Shape where
  np : Nat
  dsize : Nat
  base : Nat

def Entry.shape (e : Entry) : Shape := ⟨e.np, e.dsize, if e.dir then 8 else 0⟩

/-- The bytes under a block of level `d`. -/
def Shape.span (g : Shape) (d : Nat) : Nat := g.dsize * g.np ^ d

/-- The byte at `x` under the block of a score, at level `d`. -/
def look (fs : Fs) (g : Shape) (tag : Nat) : Nat → Score → Nat → Option UInt8
  | 0, score, x => (fs.cacheGlobal score g.base tag).map fun b => b.data x
  | d + 1, score, x =>
    match fs.cacheGlobal score (g.base + (d + 1)) tag with
    | none => none
    | some b => look fs g tag d (pointer b.data (x / g.span d)) (x % g.span d)

/-- Not to be copied before it is written. -/
def Current (fs : Fs) (b : Block) : Prop := b.addr ≠ none ∧ b.l.epoch = fs.ehi

/-- The blocks on the way to byte `r`, down to the one where the way to `x` parts from it, are
local and of the current epoch. -/
def Writable (fs : Fs) (g : Shape) (tag : Nat) : Nat → Score → Nat → Nat → Prop
  | 0, score, _, _ => ∃ b, fs.cacheGlobal score g.base tag = some b ∧ Current fs b ∧ g.base = 0
  | d + 1, score, r, x =>
    ∃ b, fs.cacheGlobal score (g.base + (d + 1)) tag = some b ∧ Current fs b ∧
      (r / g.span d < x / g.span d ∨ r % g.span d = 0 ∨
        Writable fs g tag d (pointer b.data (r / g.span d)) (r % g.span d) (x % g.span d))

namespace File

/-- The score that becomes the root when the size becomes `size`: the first block at the new depth. -/
def newRoot (env : Env) (f : File) (size : Nat) : Score :=
  let depth := sizeToDepth size f.ent.psize f.ent.dsize
  if size = 0 then vtzeroscore
  else if depth < f.ent.depth then
    match f.fs.cacheGlobal f.ent.score f.ent.entryType f.ent.tag with
    | none => f.ent.score
    | some rb =>
      (shrinkLoop f.fs (if f.ent.tag = 0 then env.tag else f.ent.tag) (f.ent.depth - depth) rb rb f.ent.entryType 0).2.1.score
  else f.ent.score

end File

end Plan9.Fossil
