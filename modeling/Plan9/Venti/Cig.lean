/-
The clump info groups of an arena (`venti/srv/arena.c`): where the clumps of each
`ArenaCIGSize` begin, for reading ahead.

They are loaded from the directory the first time they are needed, at whatever point of
the history that is, and from then on `writeaclump` adds one when a clump begins a group.
`arena->cig` is nil before and after a load that failed, when `ncig` is -1. `writeaclump` is as
in `Plan9.Venti.Arena`, with the groups it keeps; what a search or a summary returns for an
error is `none`.
-/
import Plan9.Lib.Bisect
import Plan9.Venti.Arena

namespace Plan9.Venti.Cig

/-- `ArenaCIGSize` -/
def arenaCIGSize : Nat := 10 * 1024

/-- `ABlockLog` -/
def aBlockLog : Nat := 9

/-- `arena->cig`, the offsets, and `arena->ncig`. -/
structure Groups where
  cig : Option (List Nat)
  ncig : Int
  deriving DecidableEq, Repr

section

variable (ar : Arena) (io : Io) (s : ArenaState)

/-- The loop of `readclumpinfos` from `i - 1` down, `cis` being the infos from `i` up to `n`. -/
def readLoop (clump : Nat) : Nat → List ClumpInfo → List ClumpInfo
  | 0, cis => cis
  | i + 1, cis =>
    match ar.readclumpinfo io s (clump + i) with
    | none => readLoop clump i []
    | some ci => readLoop clump i (ci :: cis)

def readclumpinfos (clump n : Nat) : List ClumpInfo := readLoop ar io s clump n []

/-- What `k` groups from `i` on begin with; nothing if one is short that is not the last. -/
def cigLoop : Nat → Nat → Nat → Option (List Nat)
  | 0, _, _ => some []
  | k + 1, i, offset =>
    let ci := readclumpinfos ar io s (i * arenaCIGSize) arenaCIGSize
    if ci.length < arenaCIGSize ∧ k ≠ 0 then none
    else (cigLoop k (i + 1) (offset + (ci.map fun c => clumpSize + c.size).sum)).map (offset :: ·)

def loadcig (g : Groups) : Groups :=
  if g.cig.isSome ∨ g.ncig < 0 then g
  else
    let ncig := (s.memstats.clumps + arenaCIGSize - 1) / arenaCIGSize
    if ncig = 0 then ⟨some [], 0⟩
    else
      match cigLoop ar io s ncig 0 0 with
      | some cig => ⟨some cig, ncig⟩
      | none => { g with ncig := -1 }

/-- What `writeaclump` does with the groups when clump `clump` is at `aa`. -/
def addcig (g : Groups) (clump aa : Nat) : Groups :=
  if clump % arenaCIGSize = 0 then
    let g := if g.cig.isNone then loadcig ar io s g else g
    match g.cig with
    | none => g
    | some cig =>
      if (clump / arenaCIGSize : Nat) ≠ g.ncig then ⟨none, -1⟩
      else ⟨some (cig ++ [aa]), g.ncig + 1⟩
  else g

/-- `writeaclump` with the groups. -/
def writeaclump (g : Groups) (c : Clump) (clbuf : List UInt8) : Option (ArenaState × Groups × Option Nat) :=
  let n := c.info.size + clumpSize + u32Size
  let aa := s.memstats.used
  if s.memstats.isSealed ∨ aa + n + u32Size + ar.arenadirsize (u32 (s.memstats.clumps + 1)) > ar.size then
    if s.memstats.isSealed then some (s, g, none)
    else some (ar.wbarena io { s with memstats := { s.memstats with isSealed := true } }, g, none)
  else
    match packclump c ar.clumpmagic with
    | none => some (s, g, none)
    | some head =>
      let (a, off) := ar.locate aa
      match ar.writeBlocks io n s.part a off (Arena.clumpBytes c head clbuf) with
      | (part, false) => some ({ s with part := part }, g, none)
      | (part, true) =>
        let st : ATailStats :=
          { s.memstats with
            used := s.memstats.used + (c.info.size + clumpSize)
            uncsize := s.memstats.uncsize + c.info.uncsize
            cclumps := if c.info.size < c.info.uncsize then s.memstats.cclumps + 1 else s.memstats.cclumps }
        let clump := st.clumps
        let g := addcig ar io ⟨st, part⟩ g clump aa
        let st : ATailStats := { st with clumps := u32 (clump + 1) }
        if st.clumps = 0 then none
        else
          let s : ArenaState := { memstats := st, part := part }
          let s := (ar.writeclumpinfo io s clump c.info).getD s
          some (ar.wbarena io s, g, some aa)

/-! ## Groups by address -/

/-- The group and its limits, the groups being loaded if they were not. -/
def arenatog (g : Groups) (addr : Nat) : Groups × Option (Nat × Nat × Nat) :=
  let g := if g.cig.isNone then loadcig ar io s g else g
  match g.cig with
  | none => (g, none)
  | some cig =>
    if g.ncig = 0 then (g, none)
    else
      let l := (Bisect.last (fun m => cig.getD m.toNat 0 ≤ addr) 1 (g.ncig - 1)).toNat
      let gstart := cig.getD l 0
      let glimit := if l + 1 < g.ncig then cig.getD (l + 1) 0 else s.memstats.used
      (g, some (l, gstart, glimit))

/-- The loop of `asumload`, the addresses counted from the start of the group. -/
def asumLoop : Nat → Nat → Nat → List (List UInt8 × IAddr)
  | 0, _, _ => []
  | k + 1, i, addr =>
    match ar.readclumpinfo io s i with
    | none => []
    | some ci =>
      let rest := asumLoop k (i + 1) (addr + (clumpSize + ci.size))
      if ci.type ≠ vtCorruptType then
        (ci.score, ⟨addr, ci.uncsize, ci.type, (ci.size + clumpSize + (1 <<< aBlockLog) - 1) >>> aBlockLog⟩) :: rest
      else rest

/-- The entries of group `g`. -/
def asumload (gs : Groups) (g nentries : Nat) : Groups × Option (List (List UInt8 × IAddr)) :=
  if nentries < arenaCIGSize then (gs, none)
  else
    let gs := if gs.cig.isNone then loadcig ar io s gs else gs
    if gs.cig.isNone ∨ gs.ncig = 0 ∨ g ≥ gs.ncig then (gs, none)
    else
      let base := g * arenaCIGSize
      let limit := base + arenaCIGSize
      let base := if base > s.memstats.clumps then s.memstats.clumps else base
      (gs, some (asumLoop ar io s (limit - base) base 0))

/-- The addresses in the arena: what `scacheload` makes of the entries of a group that starts at `gstart`. -/
def scacheload (gstart : Nat) (entries : List (List UInt8 × IAddr)) : List (List UInt8 × IAddr) :=
  entries.map fun (score, ia) => (score, { ia with addr := ia.addr + gstart })

end

end Plan9.Venti.Cig
