/-
An arena of the venti server (`venti/srv/arena.c`): a log of clumps that grows
up from the base and a directory of clump infos that grows down from the other
end, a block at a time.

The partition is the bytes the disk cache shows. `Io` is what the cache and the
disk do in one call: which blocks can be had, and what is in a block taken to
be written only. Addresses are `u64int`s below the size of the partition, so
sums of them are as in `Nat`; products of block counts are `u32int`s and are
not. The clump info groups, the times and the packed trailer are left out:
nothing here reads them.
-/
import Plan9.Lib.CInt
import Plan9.Venti.Index

namespace Plan9.Venti

/-- `VtScoreSize` -/
def vtScoreSize : Nat := 20

/-- `ClumpInfoSize` -/
def clumpInfoSize : Nat := 25

/-- `ClumpSize` -/
def clumpSize : Nat := 38

/-- `U32Size` -/
def u32Size : Nat := 4

/-- `VtCorruptType` -/
def vtCorruptType : Nat := 0xFF

structure ClumpInfo where
  type : Nat
  size : Nat
  uncsize : Nat
  score : List UInt8
  type_lt : type < 256
  size_lt : size < 2 ^ 16
  uncsize_lt : uncsize < 2 ^ 16
  score_length : score.length = vtScoreSize

structure Clump where
  info : ClumpInfo
  encoding : Nat
  creator : Nat
  time : Nat

/-- Where the index finds a clump. -/
structure IAddr where
  addr : Nat
  size : Nat
  type : Nat
  blocks : Nat
  deriving DecidableEq, Repr

/-! ## Clumps on disk -/

/-- Types on disk do not tell pointers to data from pointers to directories. -/
def todisk : List Nat := [13, 3, 4, 5, 6, 7, 8, 9, 2, 3, 4, 5, 6, 7, 8, 9, 1]

def fromdisk : List Nat :=
  [vtCorruptType, 16, 8, 9, 10, 11, 12, 13, 14, 15, vtCorruptType, vtCorruptType, vtCorruptType, 0]

def vttodisktype (n : Nat) : Nat := todisk.getD n vtCorruptType

def vtfromdisktype (n : Nat) : Nat := fromdisk.getD n vtCorruptType

theorem getD_vtCorruptType_lt {table : List Nat} (h : ∀ t ∈ table, t < 256) (n : Nat) :
    table.getD n vtCorruptType < 256 := by
  rw [List.getD_eq_getElem?_getD]
  cases hn : table[n]? with
  | none => decide
  | some t => exact h t (List.mem_of_getElem? hn)

theorem vttodisktype_lt (n : Nat) : vttodisktype n < 256 := getD_vtCorruptType_lt (by decide) n

theorem vtfromdisktype_lt (n : Nat) : vtfromdisktype n < 256 := getD_vtCorruptType_lt (by decide) n

/-- `U16PUT` -/
def u16put (v : Nat) : List UInt8 := [UInt8.ofNat (v / 2 ^ 8), UInt8.ofNat v]

/-- `U16GET` -/
def u16get (hi lo : UInt8) : Nat := lo.toNat ||| hi.toNat <<< 8

/-- `U32PUT` -/
def u32put (v : Nat) : List UInt8 :=
  [UInt8.ofNat (v / 2 ^ 24), UInt8.ofNat (v / 2 ^ 16), UInt8.ofNat (v / 2 ^ 8), UInt8.ofNat v]

def packclumpinfo (ci : ClumpInfo) : List UInt8 :=
  UInt8.ofNat (vttodisktype ci.type) :: u16put ci.size ++ u16put ci.uncsize ++ ci.score

theorem u16get_lt (hi lo : UInt8) : u16get hi lo < 2 ^ 16 := by
  have h1 := hi.toNat_lt
  have h2 := lo.toNat_lt
  apply Nat.or_lt_two_pow
  · omega
  · omega

/-- From the bytes at `p`. -/
def unpackclumpinfo (part : Nat → UInt8) (p : Nat) : ClumpInfo where
  type := vtfromdisktype (part p).toNat
  size := u16get (part (p + 1)) (part (p + 2))
  uncsize := u16get (part (p + 3)) (part (p + 4))
  score := (List.range vtScoreSize).map fun i => part (p + 5 + i)
  type_lt := vtfromdisktype_lt _
  size_lt := u16get_lt _ _
  uncsize_lt := u16get_lt _ _
  score_length := by simp

/-- `ClumpENone` and `ClumpECompress` -/
def checkclump (c : Clump) : Bool :=
  if c.encoding = 1 then c.info.size = c.info.uncsize
  else if c.encoding = 2 then c.info.size < c.info.uncsize
  else false

/-- The header, if the clump is a good one. -/
def packclump (c : Clump) (magic : Nat) : Option (List UInt8) :=
  let buf := u32put magic ++ packclumpinfo c.info ++ (UInt8.ofNat c.encoding :: u32put c.creator ++ u32put c.time)
  if checkclump c then some buf else none

/-! ## The arena -/

structure Arena where
  blocksize : Nat
  base : Nat
  size : Nat
  clumpmagic : Nat

/-- Block sizes are powers of two that hold an info, sizes are `u64int`s, an empty directory fits. -/
structure Arena.Ok (ar : Arena) : Prop where
  pow2 : ∃ lg, ar.blocksize = 2 ^ lg
  info : clumpInfoSize ≤ ar.blocksize
  lt : ar.blocksize < 2 ^ 31
  size_lt : ar.size < 2 ^ 64
  room : ar.blocksize ≤ ar.size

structure ATailStats where
  clumps : Nat
  cclumps : Nat
  used : Nat
  uncsize : Nat
  isSealed : Bool

structure ArenaState where
  memstats : ATailStats
  part : Nat → UInt8

structure Io where
  ok : Nat → Bool
  fresh : Nat → UInt8

namespace Arena

variable (ar : Arena)

def clumpmax : Nat := ar.blocksize / clumpInfoSize

def arenadirsize (clumps : Nat) : Nat := u32 (((clumps / ar.clumpmax + 1) * ar.blocksize : Nat) : Int)

/-- The block at `a` after `data` was put at `off`; `ORDWR` keeps the rest. -/
def putBlock (io : Io) (part : Nat → UInt8) (a off : Nat) (keep : Bool) (data : List UInt8) : Nat → UInt8 :=
  fun x =>
    if a ≤ x ∧ x < a + ar.blocksize then
      match if a + off ≤ x then data[x - (a + off)]? else none with
      | some b => b
      | none => if keep then part x else io.fresh x
    else part x

/-- The loop of `writeaclump`, at most a turn a byte; whether all was written. -/
def writeBlocks (io : Io) : Nat → (Nat → UInt8) → Nat → Nat → List UInt8 → (Nat → UInt8) × Bool
  | 0, part, _, _, _ => (part, false)
  | fuel + 1, part, a, off, data =>
    if io.ok a then
      let m := min (ar.blocksize - off) data.length
      let part := ar.putBlock io part a off (decide (off ≠ 0)) (data.take m)
      if m = data.length then (part, true) else writeBlocks io fuel part (a + ar.blocksize) 0 (data.drop m)
    else (part, false)

/-- The loop of `readarena`. -/
def readBlocks (io : Io) (part : Nat → UInt8) : Nat → Nat → Nat → Nat → Option (List UInt8)
  | 0, _, _, _ => none
  | fuel + 1, a, off, n =>
    if io.ok a then
      let m := min (ar.blocksize - off) n
      let got := (List.range m).map fun i => part (a + off + i)
      if m = n then some got
      else
        match readBlocks io part fuel (a + ar.blocksize) 0 (n - m) with
        | none => none
        | some rest => some (got ++ rest)
    else none

/-- `arena->base + aa`, as the block it is in and the offset there. -/
def locate (aa : Nat) : Nat × Nat :=
  let a := ar.base + aa
  let off := a &&& (ar.blocksize - 1)
  (a - off, off)

def readarena (io : Io) (s : ArenaState) (aa n : Nat) : Option (List UInt8) :=
  if n = 0 then none
  else
    let a := (((ar.size : Int) - ar.arenadirsize s.memstats.clumps) % 2 ^ 64).toNat
    if aa ≥ a then none
    else
      let n := if aa + n > a then a - aa else n
      let (a, off) := ar.locate aa
      ar.readBlocks io s.part n a off n

/-! ## The directory -/

/-- The block of a clump's info, its address and the offset in it. -/
def getcib (s : ArenaState) (clump : Nat) : Option (Nat × Nat) :=
  if clump ≥ s.memstats.clumps then none
  else
    let block := u32 ((CInt.int32 clump).tdiv ar.clumpmax)
    let off := u32 (((clump : Int) - block * ar.clumpmax) * clumpInfoSize)
    some (ar.base + ar.size - u32 (((block + 1) * ar.blocksize : Nat) : Int), off)

def readclumpinfo (io : Io) (s : ArenaState) (clump : Nat) : Option ClumpInfo :=
  match ar.getcib s clump with
  | none => none
  | some (a, off) => if io.ok a then some (unpackclumpinfo s.part (a + off)) else none

/-- A block is taken to be written only for its first info. -/
def writeclumpinfo (io : Io) (s : ArenaState) (clump : Nat) (ci : ClumpInfo) : Option ArenaState :=
  match ar.getcib s clump with
  | none => none
  | some (a, off) =>
    if io.ok a then
      let keep := decide (¬ (off = 0 ∧ clump = s.memstats.clumps - 1))
      some { s with part := ar.putBlock io s.part a off keep (packclumpinfo ci) }
    else none

/-- The trailer goes in the block after the arena, whatever is packed in it. -/
def wbarena (io : Io) (s : ArenaState) : ArenaState :=
  if io.ok (ar.base + ar.size) then
    { s with part := ar.putBlock io s.part (ar.base + ar.size) 0 false [] }
  else s

/-! ## Writing a clump -/

/-- The bytes of a clump and the four after it, which its caller cleared. -/
def clumpBytes (c : Clump) (head clbuf : List UInt8) : List UInt8 :=
  head ++ (clbuf.drop clumpSize).take (c.info.size + u32Size)

/-- The address, or nothing for `TWID64`; and nothing at all if the count wrapped. -/
def writeaclump (io : Io) (s : ArenaState) (c : Clump) (clbuf : List UInt8) : Option (ArenaState × Option Nat) :=
  let n := c.info.size + clumpSize + u32Size
  let aa := s.memstats.used
  if s.memstats.isSealed ∨ aa + n + u32Size + ar.arenadirsize (u32 (s.memstats.clumps + 1)) > ar.size then
    if s.memstats.isSealed then some (s, none)
    else some (ar.wbarena io { s with memstats := { s.memstats with isSealed := true } }, none)
  else
    match packclump c ar.clumpmagic with
    | none => some (s, none)
    | some head =>
      let (a, off) := ar.locate aa
      match ar.writeBlocks io n s.part a off (clumpBytes c head clbuf) with
      | (part, false) => some ({ s with part := part }, none)
      | (part, true) =>
        let clump := s.memstats.clumps
        let st : ATailStats :=
          { s.memstats with
            used := s.memstats.used + (c.info.size + clumpSize)
            uncsize := s.memstats.uncsize + c.info.uncsize
            cclumps := if c.info.size < c.info.uncsize then s.memstats.cclumps + 1 else s.memstats.cclumps
            clumps := u32 (clump + 1) }
        if st.clumps = 0 then none
        else
          let s : ArenaState := { memstats := st, part := part }
          -- the result of `writeclumpinfo` is not looked at
          let s := (ar.writeclumpinfo io s clump c.info).getD s
          some (ar.wbarena io s, some aa)

end Arena

end Plan9.Venti
