/-
The directory metadata blocks of fossil (`fossil/vac.c`): packed directory
entries in a block, found through a table of offsets and sizes at its front.

The table is a list here, `index[i]` what `meUnpack` reads at `i`; the rest of
the block is memory. Offsets and sizes in the table are 16-bit. `mbAlloc` and
`mbResize` may compact the block, so they return it too.
-/
import Plan9.Lib.Memory

namespace Plan9.Fossil

open Memory

/-- `MetaHeaderSize` -/
def metaHeaderSize : Nat := 12

/-- `MetaIndexSize` -/
def metaIndexSize : Nat := 4

/-- `DirMagic`, as `U32PUT` puts it. -/
def dirMagic : List UInt8 := [0x1c, 0x4d, 0x90, 0x72]

/-- Stored by `U16PUT`. -/
def u16 (n : Nat) : Nat := n % 2 ^ 16

/-- An entry: where it is and its size. -/
structure MetaEntry where
  p : Nat
  size : Nat
deriving DecidableEq

structure MetaBlock where
  maxsize : Int
  size : Int
  free : Int
  maxindex : Nat
  index : List MetaEntry
  buf : Nat → UInt8

structure MetaChunk where
  offset : Nat
  size : Nat
  index : Nat

namespace MetaBlock

/-- Where the table ends. -/
def omin (mb : MetaBlock) : Nat := metaHeaderSize + mb.maxindex * metaIndexSize

def mbInit (n ne : Nat) : MetaBlock where
  maxsize := n
  size := metaHeaderSize + ne * metaIndexSize
  free := 0
  maxindex := ne
  index := []
  buf := fun _ => 0

/-- Nothing if an assertion fails. -/
def meUnpack (mb : MetaBlock) (i : Nat) : Option MetaEntry :=
  match mb.index[i]? with
  | none => none
  | some me => if 8 ≤ me.size then some me else none

def mbDelete (mb : MetaBlock) (i : Nat) : Option MetaBlock :=
  match mb.meUnpack i with
  | none => none
  | some me =>
    let mb := { mb with buf := memset mb.buf me.p 0 me.size }
    let mb :=
      if (me.p : Int) + me.size = mb.size then { mb with size := mb.size - me.size }
      else { mb with free := mb.free + me.size }
    some { mb with index := mb.index.eraseIdx i }

def mbInsert (mb : MetaBlock) (i : Nat) (me : MetaEntry) : Option MetaBlock :=
  if mb.index.length < mb.maxindex then
    let o := me.p
    let n := me.size
    let mb :=
      if (o : Int) + n > mb.size then { mb with free := mb.free - (mb.size - o), size := o + n }
      else { mb with free := mb.free - n }
    some { mb with index := mb.index.insertIdx i ⟨u16 o, u16 n⟩ }
  else none

/-! ## Allocation -/

/-- The check of `metaChunks`: the last offset and size, and where packed entries would end. -/
def chunksCheck : List MetaChunk → (oo o n : Int) → Option (Int × Int × Int)
  | [], oo, o, n => some (oo, o, n)
  | mc :: mcs, oo, _, _ => if (mc.offset : Int) < oo then none else chunksCheck mcs (oo + mc.size) mc.offset mc.size

def metaChunks (mb : MetaBlock) : Option (List MetaChunk) :=
  let mc := (mb.index.zipIdx.map fun (me, i) => MetaChunk.mk me.p me.size i).mergeSort fun a b => a.offset ≤ b.offset
  match chunksCheck mc mb.omin mb.omin 0 with
  | none => none
  | some (oo, o, n) =>
    if o + n > mb.size then none
    else if mb.size - oo ≠ mb.free then none
    else some mc

/-- One turn of the loop of `mbCompact`. -/
def compact1 (mb : MetaBlock) (oo : Nat) (mc : MetaChunk) : MetaBlock :=
  if mc.offset ≠ oo then
    { mb with
      buf := memmove mb.buf oo mc.offset mc.size
      index := mb.index.modify mc.index fun me => { me with p := u16 oo } }
  else mb

def compactLoop : List MetaChunk → MetaBlock → Nat → MetaBlock × Nat
  | [], mb, oo => (mb, oo)
  | mc :: mcs, mb, oo => compactLoop mcs (mb.compact1 oo mc) (oo + mc.size)

def mbCompact (mb : MetaBlock) (mcs : List MetaChunk) : MetaBlock :=
  let (mb', oo) := compactLoop mcs mb mb.omin
  { mb' with size := oo, free := 0 }

/-- The hole `mbAlloc` finds between entries, or where the last of them ends. -/
def findHole (n : Int) : List MetaChunk → Int → Int ⊕ Int
  | [], o => .inr o
  | mc :: mcs, o => if mc.offset - o ≥ n then .inl o else findHole n mcs (mc.offset + mc.size)

def mbAlloc (mb : MetaBlock) (n : Int) : MetaBlock × Option Nat :=
  if mb.maxsize - mb.size ≥ n then (mb, some mb.size.toNat)
  else if mb.maxsize - mb.size + mb.free < n then (mb, none)
  else
    match mb.metaChunks with
    | none => (mb, none)
    | some mcs =>
      match findHole n mcs mb.omin with
      | .inl o => (mb, some o.toNat)
      | .inr o =>
        if mb.maxsize - o ≥ n then (mb, some o.toNat)
        else
          let mb := mb.mbCompact mcs
          if mb.maxsize - mb.size < n then (mb, none) else (mb, some mb.size.toNat)

/-- The zero bytes from `p` on, below `ep`. -/
def zeros (buf : Nat → UInt8) (p : Nat) : Nat → Nat
  | 0 => 0
  | left + 1 => if buf p = 0 then zeros buf (p + 1) left + 1 else 0

def mbResize (mb : MetaBlock) (me : MetaEntry) (n : Nat) : MetaBlock × Option MetaEntry :=
  if n ≤ me.size then (mb, some { me with size := u16 n })
  else
    let p := me.p + me.size
    let p := p + zeros mb.buf p (mb.maxsize - p).toNat
    if n ≤ p - me.p then (mb, some { me with size := u16 n })
    else
      match mb.mbAlloc n with
      | (mb, some p) => (mb, some ⟨p, u16 n⟩)
      | (mb, none) => (mb, none)

end MetaBlock

/-! ## What the callers do -/

/-- What `dePack` writes for a directory entry: it begins with the magic number, and `deSize`, its
size, is a `ushort` and never small. -/
structure Packed where
  bytes : List UInt8
  magic : dirMagic <+: bytes
  size_ge : 8 ≤ bytes.length
  size_lt : bytes.length < 2 ^ 16

inductive MetaOp
  | insert (i : Nat) (e : Packed)
  | delete (i : Nat)
  | resize (i : Nat) (e : Packed)

namespace MetaBlock

/-- `fileMetaAlloc`, `fileMetaRemove` and `fileMetaFlush2`: whether the entry fits, and nothing if an
assertion fails. -/
def step (mb : MetaBlock) : MetaOp → Option (MetaBlock × Bool)
  | .insert i e =>
    match mb.mbAlloc e.bytes.length with
    | (mb, none) => some (mb, false)
    | (mb, some p) =>
      let mb := { mb with buf := store mb.buf p e.bytes }
      (mb.mbInsert i ⟨p, u16 e.bytes.length⟩).map (·, true)
  | .delete i => (mb.mbDelete i).map (·, true)
  | .resize i e =>
    match mb.meUnpack i with
    | none => none
    | some me =>
      match mb.mbResize me e.bytes.length with
      | (mb, none) => some (mb, false)
      | (mb, some me) =>
        match mb.mbDelete i with
        | none => none
        | some mb =>
          let mb := { mb with buf := store mb.buf me.p e.bytes }
          (mb.mbInsert i me).map (·, true)

end MetaBlock

end Plan9.Fossil
