/-
Files in fossil (`fossil/source.c`): the entry of a file, its tree of pointer
and data blocks, and the calls that change the size.

A block is 20-byte scores or bytes, as its type says; a score with sixteen zero
bytes is the address of a local block, any other that of a block on venti. The
file's entry is held as `entryUnpack` gives it. `Env` is what is outside: the
blocks `cacheAllocBlock` returns and the tag `tagGen` makes. Locks, the lists
of blocks to write first and of blocks to free are left out: they decide when
blocks are written and reused, not what is in them.
-/
import Mathlib.Tactic.Ring
import Plan9.Lib.Memory

namespace Plan9.Fossil

open Memory

/-- `VtScoreSize` -/
def vtScoreSize : Nat := 20

abbrev Score := List UInt8

/-- `vtzeroscore` -/
def vtzeroscore : Score :=
  [0xda, 0x39, 0xa3, 0xee, 0x5e, 0x6b, 0x4b, 0x0d, 0x32, 0x55,
   0xbf, 0xef, 0x95, 0x60, 0x18, 0x90, 0xaf, 0xd8, 0x07, 0x09]

/-- Nothing for `NilBlock`. -/
def globalToLocal (score : Score) : Option Nat :=
  if (score.take (vtScoreSize - 4)).all (· == 0) then
    let addr := ((score.drop (vtScoreSize - 4)).take 4).foldl (fun n b => 256 * n + b.toNat) 0
    if addr = 2 ^ 32 - 1 then none else some addr
  else none

def localToGlobal (addr : Nat) : Score :=
  List.replicate (vtScoreSize - 4) 0 ++
    [UInt8.ofNat (addr / 2 ^ 24), UInt8.ofNat (addr / 2 ^ 16), UInt8.ofNat (addr / 2 ^ 8), UInt8.ofNat addr]

/-! ## Blocks -/

structure Label where
  type : Nat
  tag : Nat
  epoch : Nat

structure LocalBlock where
  l : Label
  data : Nat → UInt8

/-- Local blocks that can be read, and what venti has for a score and a type. -/
structure Fs where
  ehi : Nat
  block : Nat → Option LocalBlock
  venti : Score → Nat → Option (Nat → UInt8)

/-- A block in the cache; `addr` is nothing for one of venti. -/
structure Block where
  addr : Option Nat
  score : Score
  l : Label
  data : Nat → UInt8

/-- `type&BtLevelMask` -/
def level (type : Nat) : Nat := type % 8

/-- The block of `vtzeroscore`, as `vtzeroextend` makes it. -/
def zeroData (type : Nat) : Nat → UInt8 :=
  if level type = 0 then fun _ => 0 else fun x => vtzeroscore.getD (x % vtScoreSize) 0

/-- The pointer at `i`. -/
def pointer (data : Nat → UInt8) (i : Nat) : Score := load data (i * vtScoreSize) vtScoreSize

namespace Fs

def cacheLocalData (fs : Fs) (addr type tag : Nat) : Option Block :=
  match fs.block addr with
  | none => none
  | some b =>
    if b.l.type ≠ type ∨ b.l.tag ≠ tag then none
    else some { addr := some addr, score := localToGlobal addr, l := b.l, data := b.data }

def cacheGlobal (fs : Fs) (score : Score) (type tag : Nat) : Option Block :=
  match globalToLocal score with
  | some addr => fs.cacheLocalData addr type tag
  | none =>
    if score = vtzeroscore then some { addr := none, score := score, l := ⟨type, 0, 0⟩, data := zeroData type }
    else
      match fs.venti score type with
      | none => none
      | some data => some { addr := none, score := score, l := ⟨type, 0, 0⟩, data := data }

/-- The block `b` with other data. -/
def write (fs : Fs) (b : Block) (data : Nat → UInt8) : Fs :=
  match b.addr with
  | none => fs
  | some addr => { fs with block := Function.update fs.block addr (some ⟨b.l, data⟩) }

end Fs

/-! ## Entries -/

structure Entry where
  gen : Nat
  psize : Nat
  dsize : Nat
  depth : Nat
  dir : Bool
  isLocal : Bool
  size : Nat
  score : Score
  tag : Nat
  snap : Nat
  archive : Nat

namespace Entry

/-- What is unpacked from what is packed; nothing if `entryPack` aborts. -/
def entryPack (e : Entry) : Option Entry :=
  let e := { e with depth := e.depth % 8, size := e.size % 2 ^ 48 }
  if e.isLocal then
    match globalToLocal e.score with
    | none => none
    | some addr => some { e with score := localToGlobal addr }
  else some { e with archive := 0, snap := 0, tag := 0 }

def entryType (e : Entry) : Nat := (if e.dir then 8 else 0) + e.depth

/-- Scores in a pointer block. -/
def np (e : Entry) : Nat := e.psize / vtScoreSize

end Entry

/-- The loop of `sizeToDepth`; with fewer than two pointers to a block it does not end. -/
def depthLoop (np s : Nat) : Nat :=
  if h : 1 < s ∧ 1 < np then depthLoop np ((s + np - 1) / np) + 1 else 0
termination_by s
decreasing_by
  obtain ⟨hs, hnp⟩ := h
  obtain ⟨r, rfl⟩ := Nat.exists_eq_add_of_lt hs
  obtain ⟨k, rfl⟩ := Nat.exists_eq_add_of_lt hnp
  rw [Nat.div_lt_iff_lt_mul (by omega)]
  have : (1 + r + 1) * (1 + k + 1) = (1 + r) + (1 + k + 1) + (r * k + r + k + 1) := by ring
  omega

def sizeToDepth (s psize dsize : Nat) : Nat := depthLoop (psize / vtScoreSize) ((s + dsize - 1) / dsize)

/-! ## Changing the depth -/

/-- Addresses are below `NilBlock`, tags from `UserTag` on. -/
structure Env where
  alloc : Nat → Option Nat
  tag : Nat
  alloc_lt : ∀ k addr, alloc k = some addr → addr < 2 ^ 32 - 1
  tag_ne : tag ≠ 0

/-- The loop of `sourceGrowDepth` over the root `b`, for `n` levels. -/
def growLoop (env : Env) (tag : Nat) : Nat → Nat → Fs → Entry → Score → Nat → Fs × Entry
  | 0, _, fs, e, _, _ => (fs, e)
  | n + 1, k, fs, e, score, type =>
    match env.alloc k with
    | none => (fs, e)
    | some addr =>
      let data := store (zeroData (type + 1)) 0 score
      let fs := { fs with block := Function.update fs.block addr (some ⟨⟨type + 1, tag, fs.ehi⟩, data⟩) }
      let e := { e with score := localToGlobal addr, depth := e.depth + 1, tag := tag, isLocal := true }
      growLoop env tag n (k + 1) fs e (localToGlobal addr) (type + 1)

/-- The file system, the entry, and whether it went well; nothing for `abort`. -/
def sourceGrowDepth (env : Env) (fs : Fs) (e ent : Entry) (depth : Nat) : Option (Fs × Entry × Entry × Bool) :=
  if depth ≤ 7 then
    match fs.cacheGlobal e.score e.entryType e.tag with
    | none => some (fs, e, ent, false)
    | some b =>
      let tag := if e.tag = 0 then env.tag else e.tag
      let (fs, e) := growLoop env tag (depth - e.depth) 0 fs e b.score e.entryType
      match e.entryPack with
      | none => none
      | some ent => some (fs, e, ent, decide (e.depth = depth))
  else none

/-- The walk of `sourceShrinkDepth` from `b`, `n` levels down: the blocks `ob` and `b` it ends with
and how many levels it went. The type goes up. -/
def shrinkLoop (fs : Fs) (tag : Nat) : Nat → Block → Block → Nat → Nat → Block × Block × Nat
  | 0, ob, b, _, k => (ob, b, k)
  | n + 1, ob, b, type, k =>
    match fs.cacheGlobal (pointer b.data 0) (type - 1) tag with
    | none => (ob, b, k)
    | some nb => shrinkLoop fs tag n b nb (type + 1) (k + 1)

def sourceShrinkDepth (env : Env) (fs : Fs) (e ent : Entry) (depth : Nat) : Option (Fs × Entry × Entry × Bool) :=
  match fs.cacheGlobal e.score e.entryType e.tag with
  | none => some (fs, e, ent, false)
  | some rb =>
    let tag := if e.tag = 0 then env.tag else e.tag
    let (ob, b, k) := shrinkLoop fs tag (e.depth - depth) rb rb e.entryType 0
    if k = 0 then some (fs, e, ent, false)
    else
      let d := e.depth - k
      let e := { e with
        depth := d
        isLocal := if globalToLocal b.score = none then false else e.isLocal
        score := b.score }
      match e.entryPack with
      | none => none
      | some ent =>
        -- `blockDirty(ob)` aborts at a block of venti
        if ob.addr = none then none
        else
          let fs := fs.write ob (store ob.data 0 vtzeroscore)
          some (fs, e, ent, decide (d = depth))

/-! ## Changing the size -/

/-- Null pointers from `i` on, below `n`. -/
def zeroPointers (data : Nat → UInt8) (i n : Nat) : Nat → UInt8 :=
  fun x => if i ≤ x / vtScoreSize ∧ x / vtScoreSize < n then vtzeroscore.getD (x % vtScoreSize) 0 else data x

/-- The loop of `sourceShrinkSize` at a block of the given level. -/
def shrinkSizeLoop (e : Entry) : Nat → Fs → Block → Nat → Nat → Nat → Fs
  | 0, fs, b, type, size, _ =>
    if b.addr = none ∨ b.l.epoch ≠ fs.ehi then fs
    else if type = 0 ∧ e.dsize > size then fs.write b (memset b.data size 0 (e.dsize - size))
    else fs
  | l + 1, fs, b, type, size, ptrsz =>
    if b.addr = none ∨ b.l.epoch ≠ fs.ehi then fs
    else
      let data := zeroPointers b.data ((size + ptrsz - 1) / ptrsz) e.np
      let fs := fs.write b data
      let i := size / ptrsz
      let size := size % ptrsz
      if size = 0 then fs
      else
        match fs.cacheGlobal (pointer data i) (type - 1) e.tag with
        | none => fs
        | some nb => shrinkSizeLoop e l fs nb (type - 1) size (ptrsz / e.np)

/-- Its result is not looked at. -/
def sourceShrinkSize (fs : Fs) (e : Entry) (size : Nat) : Fs :=
  match fs.cacheGlobal e.score e.entryType e.tag with
  | none => fs
  | some b => shrinkSizeLoop e (level e.entryType) fs b e.entryType size (e.dsize * e.np ^ (e.depth - 1))

/-- A file: the file system, its entry as it is packed, and the generation it was opened with. -/
structure File where
  fs : Fs
  ent : Entry
  gen : Nat

namespace File

def sourceTruncate (f : File) : Option (File × Bool) :=
  if f.ent.gen ≠ f.gen then some (f, false)
  else if f.ent.size = 0 then some (f, true)
  else
    match { f.ent with isLocal := false, depth := 0, size := 0, tag := 0, score := vtzeroscore }.entryPack with
    | none => none
    | some ent => some ({ f with ent := ent }, true)

/-- `VtMaxFileSize` and `MaxBlock` -/
def tooBig (f : File) (size : Nat) : Prop := size > 2 ^ 48 - 1 ∨ size > 2 ^ 31 * f.ent.dsize

instance (f : File) (size : Nat) : Decidable (f.tooBig size) := inferInstanceAs (Decidable (_ ∨ _))

def sourceSetSize (env : Env) (f : File) (size : Nat) : Option (File × Bool) :=
  if size = 0 then f.sourceTruncate
  else if f.tooBig size then some (f, false)
  else if f.ent.gen ≠ f.gen then some (f, false)
  else
    let e := f.ent
    if e.size = size then some (f, true)
    else
      let depth := sizeToDepth size e.psize e.dsize
      let changed :=
        if depth < e.depth then sourceShrinkDepth env f.fs e f.ent depth
        else if depth > e.depth then sourceGrowDepth env f.fs e f.ent depth
        else some (f.fs, e, f.ent, true)
      match changed with
      | none => none
      | some (fs, _, ent, false) => some ({ f with fs := fs, ent := ent }, false)
      | some (fs, e, _, true) =>
        let fs := if size < e.size then sourceShrinkSize fs e size else fs
        match { e with size := size }.entryPack with
        | none => none
        | some ent => some ({ f with fs := fs, ent := ent }, true)

end File

end Plan9.Fossil
