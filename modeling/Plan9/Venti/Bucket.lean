/-
The buckets of the index on disk (`venti/srv/index.c`, `venti/srv/conv.c`) and the loop of
`icachewritesect` (`venti/srv/icachewrite.c`) that puts dirty entries into them.

A bucket is a count, a magic number and the entries one after the other, 38 bytes each, by
score and then by type. The types are those on disk, which do not tell pointers to data from
pointers to directories. Memory is a function of the address; `buf` is where the loop has the
buckets of a chunk, and `off` what `ie2diskaddr` makes the place of an entry's bucket in it.
Reading and writing the partition, the waits and the messages are left out.
-/
import Plan9.Lib.Bisect
import Plan9.Lib.Bytes
import Plan9.Lib.Memory
import Plan9.Venti.Arena

namespace Plan9.Venti.Bucket

abbrev Buf := Nat → UInt8

/-- `MaxDiskBlock` -/
def maxDiskBlock : Nat := 64 * 1024

def iBucketSize : Nat := 4 + 2
def iEntrySize : Nat := 8 + 4 + 2 * 2 + 2 * 1 + vtScoreSize
def iEntryTypeOff : Nat := vtScoreSize + 4 + 2 + 8 + 2
def iEntryAddrOff : Nat := vtScoreSize + 4 + 2

structure IEntry where
  score : List UInt8
  ia : IAddr
  score_length : score.length = vtScoreSize
  addr_lt : ia.addr < 2 ^ 64
  size_lt : ia.size < 2 ^ 16
  type_lt : ia.type < 2 ^ 8
  blocks_lt : ia.blocks < 2 ^ 8

/-- What the loop reads of a section. -/
structure Sect where
  blocksize : Nat
  bucketmagic : Nat
  head : iBucketSize ≤ blocksize
  max : blocksize ≤ maxDiskBlock
  magic_lt : bucketmagic < 2 ^ 32

def Sect.buckmax (is : Sect) : Nat := (is.blocksize - iBucketSize) / iEntrySize

/-! ## Entries and buckets on disk -/

/-- `U32GET` and its like: the bytes from the highest on. -/
def getBE (bs : List UInt8) : Nat := Bytes.leNat bs.reverse

/-- `U64PUT` -/
def u64put (v : Nat) : List UInt8 := u32put (v / 2 ^ 32) ++ u32put v

def packientry (ie : IEntry) : List UInt8 :=
  ie.score ++ u32put 0 ++ u16put 0 ++ u64put ie.ia.addr ++ u16put ie.ia.size ++
    [UInt8.ofNat (vttodisktype ie.ia.type), UInt8.ofNat ie.ia.blocks]

/-- The address that the `IEntrySize` bytes have. -/
def unpackientry (r : List UInt8) : IAddr where
  addr := getBE ((r.drop iEntryAddrOff).take 8)
  size := getBE ((r.drop (iEntryAddrOff + 8)).take 2)
  type := vtfromdisktype (r.getD iEntryTypeOff 0).toNat
  blocks := (r.getD (iEntryTypeOff + 1) 0).toNat

/-- `b->n`; `b->data` is `IBucketSize` further. -/
def unpackibucket (buf : Buf) (p magic : Nat) : Nat :=
  if magic ≠ 0 ∧ magic ≠ getBE (Memory.load buf (p + 2) 4) then 0 else getBE (Memory.load buf p 2)

def packibucket (buf : Buf) (p n magic : Nat) : Buf := Memory.store (Memory.store buf p (u16put n)) (p + 2) (u32put magic)

/-! ## Looking in a bucket -/

/-- `for(i = 0; i < VtScoreSize; i++)` -/
def scoreLoop (buf : Buf) : List UInt8 → Nat → Ordering
  | [], _ => .eq
  | c :: score, p =>
    let cc := buf p
    if c ≠ cc then if c > cc then .gt else .lt else scoreLoop buf score (p + 1)

/-- A round of `bucklook`, on entry `m`: `l = m + 1` for `gt`, `r = m - 1` for `lt`. -/
def probe (score : List UInt8) (type : Int) (buf : Buf) (data : Nat) (m : Int) : Ordering :=
  let h := m.toNat * iEntrySize
  match scoreLoop buf score (data + h) with
  | .eq =>
    let cc := (buf (data + h + iEntryTypeOff)).toNat
    if type ≠ cc ∧ type ≠ -1 then if type > cc then .gt else .lt else .eq
  | o => o

def looktype (otype : Int) : Int := if otype = -1 then -1 else vttodisktype (otype % 2 ^ 32).toNat

def bucklook (score : List UInt8) (otype : Int) (buf : Buf) (data n : Nat) : Nat :=
  match Bisect.search (probe score (looktype otype) buf data) 0 (n - 1) with
  | (m, true) => m.toNat * iEntrySize ||| 1
  | (l, false) => l.toNat * iEntrySize

/-- The loop of `ientrycmp`. -/
def bytecmp : List UInt8 → List UInt8 → Int
  | v1 :: ie1, v2 :: ie2 => if v1 ≠ v2 then if v1 < v2 then -1 else 1 else bytecmp ie1 ie2
  | _, _ => 0

def ientrycmp (ie1 ie2 : List UInt8) : Int :=
  let c := bytecmp (ie1.take vtScoreSize) (ie2.take vtScoreSize)
  if c ≠ 0 then c
  else
    let v1 := ie1.getD iEntryTypeOff 0
    let v2 := ie2.getD iEntryTypeOff 0
    if v1 ≠ v2 then if v1 < v2 then -1 else 1 else 0

/-! ## Updating the buckets of a chunk -/

/-- One entry into the bucket at `p`; `none` is `skipit`. -/
def addEntry (is : Sect) (ie : IEntry) (p : Nat) (buf : Buf) : Option Buf :=
  let n := unpackibucket buf p is.bucketmagic
  let data := p + iBucketSize
  if n > is.buckmax then none
  else
    let h := bucklook ie.score ie.ia.type buf data n
    if h &&& 1 ≠ 0 then
      let h := h ^^^ 1
      some (packibucket (Memory.store buf (data + h) (packientry ie)) p n is.bucketmagic)
    else if n < is.buckmax then
      let buf := Memory.memmove buf (data + h + iEntrySize) (data + h) (n * iEntrySize - h)
      let n := (n + 1) % 2 ^ 16
      some (packibucket (Memory.store buf (data + h) (packientry ie)) p n is.bucketmagic)
    else none

/-- `for(l=&chunk; (ie=*l)!=nil; l=&ie->nextdirty)`: the buffer, the entries that stay in the chunk and `err`;
`none` is the assertion that a bucket is in the buffer. -/
def updatebuf (is : Sect) (off : IEntry → Nat) (nbuf : Nat) : List IEntry → Buf → Option (Buf × List IEntry × Int)
  | [], buf => some (buf, [], 0)
  | ie :: rest, buf =>
    if off ie + is.blocksize > nbuf then none
    else
      match addEntry is ie (off ie) buf with
      | some buf => (updatebuf is off nbuf rest buf).map fun (buf, chunk, err) => (buf, ie :: chunk, err)
      | none => (updatebuf is off nbuf rest buf).map fun (buf, chunk, _) => (buf, chunk, -1)

end Plan9.Venti.Bucket
