/-
Metadata blocks of fossil as they are on disk (`mbUnpack`, `meUnpack`, `mbSearch`, `meCmp`
and `meCmpOld` of `fossil/vac.c`): the header, the table behind it and the entries are all
found by numbers that are read from the block.

The bytes are a list, and to read past its end is an error of its own (nothing at all),
apart from a block that is refused. So is an assertion that fails.
-/
import Plan9.Fossil.DirEntry

namespace Plan9.Fossil

open Bytes (byteAt)

/-- `MetaMagic`, and `MetaMagic-1` for a block that is botched. -/
def metaMagic : Nat := 0x5656fc7a

/-- `U16GET` and `U32GET` -/
def u16At (buf : List UInt8) (p : Nat) : Nat := (byteAt buf p).toNat * 2 ^ 8 + (byteAt buf (p + 1)).toNat
def u32At (buf : List UInt8) (p : Nat) : Nat := u16At buf p * 2 ^ 16 + u16At buf (p + 2)

def read8 (buf : List UInt8) (p : Nat) : Option UInt8 := if p + 1 ≤ buf.length then some (byteAt buf p) else none
def read16 (buf : List UInt8) (p : Nat) : Option Nat := if p + 2 ≤ buf.length then some (u16At buf p) else none
def read32 (buf : List UInt8) (p : Nat) : Option Nat := if p + 4 ≤ buf.length then some (u32At buf p) else none

/-- A `MetaBlock`, with its table in `buf`. -/
structure DiskMeta where
  maxsize : Nat
  size : Nat
  free : Nat
  maxindex : Nat
  nindex : Nat
  botch : Bool
  buf : List UInt8
deriving DecidableEq

/-- The loop over the table, from the entry at `p` on: whether all of it is well. -/
def checkIndex (buf : List UInt8) (omin size : Nat) : Nat → Nat → Option Bool
  | 0, _ => some true
  | rounds + 1, p => do
    let eo ← read16 buf p
    let en ← read16 buf (p + 2)
    if eo < omin ∨ eo + en > size ∨ en < 8 then some false
    else do
      let magic ← read32 buf eo
      if magic ≠ dirMagicWord.toNat then some false else checkIndex buf omin size rounds (p + 4)

/-- Nothing where a byte outside `p` is read, nothing inside for an error. -/
def mbUnpack (p : List UInt8) : Option (Option DiskMeta) :=
  let n := p.length
  if n = 0 then some (some ⟨0, 0, 0, 0, 0, false, []⟩)
  else do
    let magic ← read32 p 0
    if magic ≠ metaMagic ∧ magic ≠ metaMagic - 1 then some none
    else do
      let size ← read16 p 4
      let free ← read16 p 6
      let maxindex ← read16 p 8
      let nindex ← read16 p 10
      let omin := metaHeaderSize + maxindex * metaIndexSize
      if size > n then some none
      else if n < omin then some none
      else do
        let well ← checkIndex p omin size nindex metaHeaderSize
        if well then some (some ⟨n, size, free, maxindex, nindex, magic ≠ metaMagic, p⟩) else some none

namespace DiskMeta

def meUnpack (mb : DiskMeta) (i : Nat) : Option MetaEntry :=
  if i < mb.nindex then do
    let p := metaHeaderSize + i * metaIndexSize
    let eo ← read16 mb.buf p
    let en ← read16 mb.buf (p + 2)
    if en ≥ 8 then some ⟨eo, en⟩ else none
  else none

end DiskMeta

/-- The loop of `meCmp` and of `meCmpOld`, which differ in what a string is that ends before the other. -/
def meCmpLoop (shorter longer : Int) (buf : List UInt8) : Nat → Nat → List UInt8 → Option Int
  | 0, _, s => some (if s ≠ [] then shorter else 0)
  | _ + 1, _, [] => some longer
  | n + 1, p, c :: s => do
    let b ← read8 buf p
    if b < c then some (-1) else if b > c then some 1 else meCmpLoop shorter longer buf n (p + 1) s

/-- The name of the entry is read up to the end of the entry at most. -/
def meCmpWith (shorter longer : Int) (buf : List UInt8) (me : MetaEntry) (s : List UInt8) : Option Int := do
  let n ← read16 buf (me.p + 6)
  let n := if n > me.size - 8 then me.size - 8 else n
  meCmpLoop shorter longer buf n (me.p + 8) s

def meCmp : List UInt8 → MetaEntry → List UInt8 → Option Int := meCmpWith (-1) 1

def meCmpOld : List UInt8 → MetaEntry → List UInt8 → Option Int := meCmpWith 1 (-1)

namespace DiskMeta

/-- `while(b < t)`, for fewer than `fuel` rounds: where the name is or would be, and the entry. -/
def mbSearchLoop (mb : DiskMeta) (elem : List UInt8) : Nat → Nat → Nat → Option (Nat × Option MetaEntry)
  | 0, _, _ => none
  | fuel + 1, b, t =>
    if b < t then do
      let i := (b + t) / 2
      let me ← mb.meUnpack i
      let x ← (if mb.botch then meCmpOld mb.buf me elem else meCmp mb.buf me elem : Option Int)
      if x = 0 then some (i, some me)
      else if x < 0 then mb.mbSearchLoop elem fuel (i + 1) t
      else mb.mbSearchLoop elem fuel b i
    else if b = t then some (b, none) else none

def mbSearch (mb : DiskMeta) (elem : List UInt8) : Option (Nat × Option MetaEntry) :=
  mb.mbSearchLoop elem (mb.nindex + 1) 0 mb.nindex

end DiskMeta

end Plan9.Fossil
