/-
Directory entries of fossil as they are packed (`deSize`, `dePack` and `deUnpack` of
`fossil/vac.c`).

A string is its bytes; `strlen` stops at a zero among them. What `U16GET` and `U32GET` read
is unsigned: the compilers convert a `uchar` that is shifted to `uint` (`arith` of
`cc/sub.c`), so that no `uvlong` is made of a negative `int`. What a `DirEntry` is made of
again when it is refused is not modelled.
-/
import Plan9.Fossil.Meta
import Plan9.Lib.Bytes
import Plan9.Lib.Unpack

namespace Plan9.Fossil

open Unpack (Reader Cur need move cur byte u16get u32get u64get refuse be16 be32 be64)

/-- `DirMagic` -/
def dirMagicWord : UInt32 := 0x1c4d9072

/-- The optional sections that are not skipped. -/
def dePlan9 : UInt8 := 1
def deQidSpace : UInt8 := 3

structure DirEntry where
  elem : List UInt8
  entry : UInt32
  gen : UInt32
  mentry : UInt32
  mgen : UInt32
  size : UInt64
  qid : UInt64
  uid : List UInt8
  gid : List UInt8
  mid : List UInt8
  mtime : UInt32
  mcount : UInt32
  ctime : UInt32
  atime : UInt32
  mode : UInt32
  plan9 : Bool
  p9path : UInt64
  p9version : UInt32
  qidSpace : Bool
  qidOffset : UInt64
  qidMax : UInt64
deriving DecidableEq

/-- After `memset(dir, 0, sizeof(DirEntry))` -/
def DirEntry.zero : DirEntry :=
  ⟨[], 0, 0, 0, 0, 0, 0, [], [], [], 0, 0, 0, 0, 0, false, 0, 0, false, 0, 0⟩

/-! ## Packing -/

def strlen (s : List UInt8) : Nat := (Bytes.cstr s).length

/-- What `stringPack` writes. -/
def stringPack (s : List UInt8) : List UInt8 := be16 (strlen s) ++ Bytes.cstr s

def deSize (dir : DirEntry) : Nat :=
  4 + 2 + 4 + 4 + 4 + 4 + 8 + 4 + 4 + 4 + 4 + 4 +
    (2 + strlen dir.elem) + (2 + strlen dir.uid) + (2 + strlen dir.gid) + (2 + strlen dir.mid) +
    (if dir.qidSpace then 3 + 8 + 8 else 0)

/-- What is written from `me->p` on, one field after the other. -/
def dePackBytes (dir : DirEntry) : List UInt8 :=
  be32 dirMagicWord ++ (be16 9 ++
    (stringPack dir.elem ++
      (be32 dir.entry ++ ((be32 dir.gen ++ (be32 dir.mentry ++ be32 dir.mgen)) ++ (be64 dir.qid ++
        (stringPack dir.uid ++ (stringPack dir.gid ++ (stringPack dir.mid ++
          ((be32 dir.mtime ++ (be32 dir.mcount ++ (be32 dir.ctime ++ (be32 dir.atime ++ be32 dir.mode)))) ++
            if dir.qidSpace then ([deQidSpace] ++ be16 (2 * 8)) ++ (be64 dir.qidOffset ++ be64 dir.qidMax) else [])))))))))

/-- It is asserted that this is `me->size` bytes. -/
def dePack (dir : DirEntry) (me : MetaEntry) : Option (List UInt8) :=
  if (dePackBytes dir).length = me.size then some (dePackBytes dir) else none

/-! ## Unpacking -/

def stringUnpack : Reader (List UInt8) := do
  need 2
  let nn ← u16get 0
  move 2
  need nn
  let s ← Unpack.bytes nn
  move nn
  return s

/-- The `switch` on the type of a section, at its `nn` bytes. -/
def deOption (version : Nat) (dir : DirEntry) (t : UInt8) (nn : Nat) : Reader DirEntry :=
  if t = dePlan9 then
    if version ≥ 9 then pure dir
    else if dir.plan9 ∨ nn ≠ 12 then refuse
    else do
      let p9path ← u64get 0
      let p9version ← u32get 8
      return { dir with
        plan9 := true, p9path := p9path, p9version := p9version,
        mcount := if dir.mcount = 0 then p9version else dir.mcount }
  else if t = deQidSpace then
    if dir.qidSpace ∨ nn ≠ 16 then refuse
    else do
      let qidOffset ← u64get 0
      let qidMax ← u64get 8
      return { dir with qidSpace := true, qidOffset := qidOffset, qidMax := qidMax }
  else pure dir

/-- `while(n > 0)`, for at most `fuel` rounds. -/
def deOptions (version : Nat) : Nat → DirEntry → Reader DirEntry
  | 0, dir => pure dir
  | fuel + 1, dir => do
    let c ← cur
    if c.n > 0 then
      need 3
      let t ← byte 0
      let nn ← u16get 1
      move 3
      need nn
      let dir ← deOption version dir t nn
      move nn
      deOptions version fuel dir
    else return dir

/-- `gen`, `mentry` and `mgen`, which older versions do not have. -/
def deGens (version : Nat) (dir : DirEntry) : Reader DirEntry :=
  if version < 9 then pure { dir with gen := 0, mentry := dir.entry + 1, mgen := 0 }
  else do
    need (3 * 4)
    let gen ← u32get 0
    let mentry ← u32get 4
    let mgen ← u32get 8
    move (3 * 4)
    return { dir with gen := gen, mentry := mentry, mgen := mgen }

/-- `/* skip replacement */` -/
def deReplacement (version : Nat) : Reader Unit :=
  if version = 7 then do
    need 20
    move 20
  else pure ()

def deTimes (dir : DirEntry) : Reader DirEntry := do
  need (5 * 4)
  let mtime ← u32get 0
  let mcount ← u32get 4
  let ctime ← u32get 8
  let atime ← u32get 12
  let mode ← u32get 16
  move (5 * 4)
  return { dir with mtime := mtime, mcount := mcount, ctime := ctime, atime := atime, mode := mode }

/-- An entry that `fuel` rounds are enough for. -/
def deBody (fuel : Nat) : Reader DirEntry := do
  let dir := DirEntry.zero
  need 4
  let magic ← u32get 0
  if magic ≠ dirMagicWord then refuse
  else
    move 4
    need 2
    let version ← u16get 0
    if version < 7 ∨ version > 9 then refuse
    else
      move 2
      let elem ← stringUnpack
      let dir := { dir with elem := elem }
      need 4
      let entry ← u32get 0
      let dir := { dir with entry := entry }
      move 4
      let dir ← deGens version dir
      let dir := { dir with size := 0 }
      need 8
      let qid ← u64get 0
      let dir := { dir with qid := qid }
      move 8
      deReplacement version
      let uid ← stringUnpack
      let gid ← stringUnpack
      let mid ← stringUnpack
      let dir ← deTimes { dir with uid := uid, gid := gid, mid := mid }
      deOptions version fuel dir

/-- The entry that is to end at `e`. -/
def deRead (e fuel : Nat) : Reader DirEntry := do
  let dir ← deBody fuel
  let c ← cur
  if c.p ≠ e then refuse else return dir

/-- Nothing where a byte outside `buf` is read, nothing inside where the entry is refused; else the entry, and where the
cursor and the count have come to. -/
def deUnpack (buf : List UInt8) (me : MetaEntry) : Option (Option (DirEntry × Cur)) :=
  deRead (me.p + me.size) me.size buf ⟨me.p, me.size⟩

end Plan9.Fossil
