/-
The block cache of fossil (`fossil/cache.c`, `fossil/disk.c`): blocks in memory,
the disk under them, and the order in which blocks may be written.

A data block is its slots, scores or entries; what a slot has to offer is `Slot`.
A block that points at a block not yet on disk keeps a list, newest first, of what it
waits for, each with the value the slot had before (`BList`), so that
`blockRollback` can write a copy that does not point there. Locks are not modelled:
an operation takes the blocks it has locked from one state to the next, and none
starts on a block that is being written, since `cacheLocal` sleeps until it is.
The pool of `BList`s does not run out. Of labels only the epoch is kept, and
that the block with the label changes; of the super block, its only slot, the root (`super.active`),
which `fs->source` has the score of.
-/
import Plan9.Lib.Run
import Plan9.Fossil.Source

namespace Plan9.Fossil

/-- A slot of a pointer or directory block. -/
class Slot (V : Type) where
  addr : V → Option Nat
  nil : V
  point : V → Nat → V
  addr_nil : addr nil = none
  addr_point : ∀ v a, a < 2 ^ 32 - 1 → addr (point v a) = some a
  addr_lt : ∀ v a, addr v = some a → a < 2 ^ 32 - 1

inductive Part where
  | super
  | data
  | label
deriving DecidableEq

structure Key where
  part : Part
  addr : Nat
deriving DecidableEq

inductive IoState where
  | clean
  | dirty
  | writing
deriving DecidableEq

/-- The block and its version that must be written first; with an index comes the old value. -/
structure BList (V : Type) where
  key : Key
  vers : Nat
  index : Option (Nat × V)

structure CBlock (V : Type) where
  data : Nat → V
  vers : Nat
  iostate : IoState
  prior : List (BList V)

/-- `ondisk` follows the disk: the block at this address, since it was allocated and until it is
reclaimed, has been written. `lpb` labels go into a label block. -/
structure Cache (V : Type) where
  ehi : Nat
  lpb : Nat
  block : Key → Option (CBlock V)
  disk : Key → Nat → V
  vers : Nat
  epoch : Nat → Nat
  ondisk : Nat → Bool

namespace Cache

variable {V : Type} [Slot V]

def put (c : Cache V) (k : Key) (b : CBlock V) : Cache V :=
  { c with block := Function.update c.block k (some b) }

/-- A block read into a buffer, which has the version it was last used with. -/
def cacheLocal (c : Cache V) (k : Key) (vers : Nat) : Option (Cache V) :=
  match c.block k with
  | none => some (c.put k ⟨c.disk k, vers, .clean, []⟩)
  | some _ => some c

/-- `cacheBumpBlock` takes a buffer whose block is clean. -/
def cacheBumpBlock (c : Cache V) (k : Key) : Option (Cache V) :=
  match c.block k with
  | none => none
  | some b => if b.iostate = .clean then some { c with block := Function.update c.block k none } else none

/-! ## Labels and new blocks -/

/-- `_blockSetLabel`: the label block becomes dirty. Also the dependency on it. -/
def blockSetLabel (c : Cache V) (addr vers : Nat) : Option (Cache V × BList V) :=
  let k : Key := ⟨.label, addr / c.lpb⟩
  match c.block k with
  | none => some (c.put k ⟨c.disk k, vers, .dirty, []⟩, ⟨k, vers, none⟩)
  | some b =>
    if b.iostate = .writing then none
    else some (c.put k { b with iostate := .dirty }, ⟨k, b.vers, none⟩)

/-- The version the buffer for a new block has; nothing if the block is not free. -/
def freeVers (c : Cache V) (addr vers : Nat) : Option Nat :=
  if c.ondisk addr = true ∨ 2 ^ 32 - 1 ≤ addr then none
  else
    match c.block ⟨.data, addr⟩ with
    | none => some vers
    | some b => if b.iostate = .clean then some b.vers else none

def cacheAllocBlock (c : Cache V) (addr vers lvers : Nat) : Option (Cache V × CBlock V) :=
  match c.freeVers addr vers with
  | none => none
  | some vers =>
    match c.blockSetLabel addr lvers with
    | none => none
    | some (c, d) =>
      let b : CBlock V := ⟨fun _ => Slot.nil, vers, .clean, [d]⟩
      some ({ c.put ⟨.data, addr⟩ b with
        epoch := Function.update c.epoch addr c.ehi
        ondisk := Function.update c.ondisk addr false }, b)

/-- A copy at `addr` of a block with these data; `b` is the address of the block if it is local,
and `copied` if its label says it has been copied before. -/
def blockCopy (c : Cache V) (b : Option Nat) (copied : Bool) (data : Nat → V) (addr vers lvers : Nat) :
    Option (Cache V × CBlock V) :=
  match c.cacheAllocBlock addr vers lvers with
  | none => none
  | some (c, bb) =>
    match b, copied with
    | some b, false =>
      match c.blockSetLabel b lvers with
      | none => none
      | some (c, d) =>
        let bb := { bb with data := data, iostate := .dirty, prior := d :: bb.prior }
        some (c.put ⟨.data, addr⟩ bb, bb)
    | _, _ =>
      let bb := { bb with data := data, iostate := .dirty }
      some (c.put ⟨.data, addr⟩ bb, bb)

/-! ## Pointers -/

/-- Its place in the list of blocks to reclaim is left out. -/
def blockRemoveLink (c : Cache V) (k : Key) (addr : Nat) : Option (Cache V) :=
  match c.block k with
  | none => none
  | some b =>
    if b.iostate = .writing then none
    else some (c.put k { b with prior := b.prior.filter fun d => d.key ≠ ⟨.data, addr⟩ })

/-- Slot `i` of the block `pb` at `k` gets the address of the block `bb`: `blockDependency` with the old value,
since `bb` is dirty, and `blockDirty`. -/
def setSlot (c : Cache V) (k : Key) (pb : CBlock V) (i addr : Nat) (bb : CBlock V) : Cache V :=
  c.put k
    { data := Function.update pb.data i (Slot.point (pb.data i) addr)
      vers := pb.vers
      iostate := .dirty
      prior := ⟨⟨.data, addr⟩, bb.vers, some (i, pb.data i)⟩ :: pb.prior }

/-- The block a slot points at, to be copied: its address if it is local, and its data. A block on venti
has the data `venti`. Nothing if it need not be copied. -/
def oldBlock (c : Cache V) (old : V) (venti : Nat → V) : Option (Option Nat × (Nat → V)) :=
  match Slot.addr old with
  | none => some (none, venti)
  | some b =>
    if c.epoch b = c.ehi then none
    else
      match c.block ⟨.data, b⟩ with
      | none => none
      | some bb => if bb.iostate = .writing then none else some (some b, bb.data)

/-- Copy on write of the block at `i` of the block at `p`. -/
def blockWalk (c : Cache V) (p i : Nat) (venti : Nat → V) (copied : Bool) (addr vers lvers : Nat) : Option (Cache V) :=
  match c.block ⟨.data, p⟩ with
  | none => none
  | some pb =>
    if pb.iostate = .writing ∨ c.epoch p ≠ c.ehi then none
    else
      match c.oldBlock (pb.data i) venti with
      | none => none
      | some (b, data) =>
        match c.blockCopy b copied data addr vers lvers with
        | none => none
        | some (c, bb) =>
          let c := c.setSlot ⟨.data, p⟩ pb i addr bb
          match b with
          | none => some c
          | some b => c.blockRemoveLink ⟨.data, p⟩ b

/-- A slot is cleared, as in `sourceShrinkSize`. -/
def clearSlot (c : Cache V) (p i : Nat) : Option (Cache V) :=
  match c.block ⟨.data, p⟩ with
  | none => none
  | some b =>
    if b.iostate = .writing ∨ c.epoch p ≠ c.ehi then none
    else some (c.put ⟨.data, p⟩ { b with data := Function.update b.data i Slot.nil, iostate := .dirty })

/-- The root is copied for the next epoch, with the old root as its entry 1. That the super block
is then written, and after it `blockRemoveLink` for the old root, are steps of their own. -/
def bumpEpoch (c : Cache V) (copied : Bool) (addr vers lvers : Nat) : Option (Cache V) :=
  match c.block ⟨.super, 0⟩ with
  | none => none
  | some bs =>
    match Slot.addr (bs.data 0) with
    | none => none
    | some root =>
      match c.block ⟨.data, root⟩ with
      | none => none
      | some b =>
        if b.iostate = .writing ∨ bs.iostate = .writing then none
        else
          match { c with ehi := c.ehi + 1 }.blockCopy (some root) copied b.data addr vers lvers with
          | none => none
          | some (c, b) =>
            let b := { b with data := Function.update b.data 1 (Slot.point (b.data 1) root) }
            some ((c.put ⟨.data, addr⟩ b).setSlot ⟨.super, 0⟩ bs 0 addr b)

/-! ## Writing -/

/-- `_cacheLocalLookup` -/
def cacheLocalLookup (c : Cache V) (k : Key) (vers : Nat) : Option (CBlock V) :=
  match c.block k with
  | none => none
  | some b => if b.vers = vers then some b else none

/-- The loop of `blockWrite`: what is left of the list, and whether the block can be written. `dmap` is
the slots for which a more recent dependency has succeeded; for the index -1 the shift sets no bit.
Nothing if it must sleep until a block is written. -/
def vet (c : Cache V) (lockfail : Key → Bool) : List Nat → List (BList V) → Option (List (BList V) × Bool)
  | _, [] => some ([], true)
  | dmap, p :: ps =>
    if (p.index.elim false fun x => dmap.contains x.1) = true then vet c lockfail dmap ps
    else
      match c.cacheLocalLookup p.key p.vers with
      | none => vet c lockfail (p.index.elim dmap fun x => x.1 :: dmap) ps
      | some bb =>
        if lockfail p.key = true then some (p :: ps, false)
        else
          match bb.iostate with
          | .writing => none
          | .clean => vet c lockfail dmap ps
          | .dirty =>
            match p.index with
            | none => some (p :: ps, false)
            | some _ =>
              match vet c lockfail dmap ps with
              | none => none
              | some (l, ok) => some (p :: l, ok)

def blockWrite (c : Cache V) (k : Key) (lockfail : Key → Bool) : Option (Cache V) :=
  match c.block k with
  | none => none
  | some b =>
    if b.iostate ≠ .dirty then some c
    else
      match c.vet lockfail [] b.prior with
      | none => none
      | some (l, true) => some (c.put k { b with prior := l, iostate := .writing })
      | some (l, false) => some (c.put k { b with prior := l })

/-- The loop of `blockRollback`; nothing if an assertion fails, or the super block would be left without a root. -/
def blockRollback (part : Part) : List (BList V) → (Nat → V) → Option (Nat → V)
  | [], buf => some buf
  | p :: ps, buf =>
    match p.index with
    | none => none
    | some (i, old) =>
      match part with
      | .label => none
      | .data => blockRollback part ps (Function.update buf i old)
      | .super =>
        if i ≠ 0 then none
        else
          match Slot.addr old with
          | none => none
          | some addr => blockRollback part ps (Function.update buf 0 (Slot.point (buf 0) addr))

/-- `diskThread` and `blockSetIOState`: a block that was written as it is becomes clean. -/
def diskThread (c : Cache V) (k : Key) : Option (Cache V) :=
  match c.block k with
  | none => none
  | some b =>
    if b.iostate ≠ .writing then none
    else
      match blockRollback k.part b.prior b.data with
      | none => none
      | some image =>
        some { c with
          block := Function.update c.block k
            (some { b with vers := c.vers, iostate := if b.prior.isEmpty then .clean else .dirty })
          disk := Function.update c.disk k image
          vers := c.vers + 1
          ondisk := if k.part = .data then Function.update c.ondisk k.addr true else c.ondisk }

/-! ## Runs -/

inductive Op (V : Type) where
  | load (k : Key) (vers : Nat)
  | bump (k : Key)
  | walk (p i : Nat) (venti : Nat → V) (copied : Bool) (addr vers lvers : Nat)
  | clear (p i : Nat)
  | bumpEpoch (copied : Bool) (addr vers lvers : Nat)
  | removeLink (k : Key) (addr : Nat)
  | setLabel (addr vers : Nat)
  | reclaim (addr : Nat)
  | write (k : Key) (lockfail : Key → Bool)
  | disk (k : Key)

def apply (c : Cache V) : Op V → Option (Cache V)
  | .load k vers => c.cacheLocal k vers
  | .bump k => c.cacheBumpBlock k
  | .walk p i venti copied addr vers lvers => c.blockWalk p i venti copied addr vers lvers
  | .clear p i => c.clearSlot p i
  | .bumpEpoch copied addr vers lvers => c.bumpEpoch copied addr vers lvers
  | .removeLink k addr => c.blockRemoveLink k addr
  | .setLabel addr vers => (c.blockSetLabel addr vers).map Prod.fst
  | .reclaim addr => some { c with ondisk := Function.update c.ondisk addr false }
  | .write k lockfail => c.blockWrite k lockfail
  | .disk k => c.diskThread k

/-- What is on disk at the key was written there. -/
def Written (c : Cache V) (k : Key) : Prop := k.part = .data → c.ondisk k.addr = true

/-- The block is of the file system: it is on disk or about to be. -/
def InUse (c : Cache V) (k : Key) : Prop := c.Written k ∨ ∃ b, c.block k = some b ∧ b.iostate ≠ .clean

/-- The value points at no block that is not on disk. -/
def OnDisk (c : Cache V) (x : V) : Prop := ∀ a, Slot.addr x = some a → c.ondisk a = true

/-- Nothing that is on disk or about to be points at the block. -/
def Unreferenced (c : Cache V) (addr : Nat) : Prop :=
  (∀ k, k.part ≠ .label → c.Written k → ∀ i, Slot.addr (c.disk k i) ≠ some addr) ∧
    ∀ k b, k.part ≠ .label → c.block k = some b → b.iostate ≠ .clean →
      (∀ i, Slot.addr (b.data i) ≠ some addr) ∧
        ∀ d ∈ b.prior, ∀ i old, d.index = some (i, old) → Slot.addr old ≠ some addr

/-- What the callers see to: blocks are walked from the root; what is on venti points at nothing local;
`blockRemoveLink` is for a block that is no longer pointed at; a block is reclaimed when nothing points at it. -/
def Legal (c : Cache V) : Op V → Prop
  | .walk p _ venti _ _ _ _ => c.InUse ⟨.data, p⟩ ∧ ∀ j, Slot.addr (venti j) = none
  | .clear p _ => c.InUse ⟨.data, p⟩
  | .removeLink k addr => ∀ b, c.block k = some b → ∀ i, Slot.addr (b.data i) ≠ some addr
  | .reclaim addr => c.Unreferenced addr
  | _ => True

/-- The cache is empty, what is on disk points at what is on disk, and no block is of an epoch to come. -/
def Init (c : Cache V) : Prop :=
  (∀ k, c.block k = none) ∧
    (∀ k, k.part ≠ .label → c.Written k → ∀ i, c.OnDisk (c.disk k i)) ∧ ∀ a, c.epoch a ≤ c.ehi

def Step (c : Cache V) (op : Op V) (c' : Cache V) : Prop := c.Legal op ∧ c.apply op = some c'

/-- What is on disk in a slot with a recorded dependency points at a block on disk, or is the saved old value. -/
def Safe (c : Cache V) : Prop :=
  ∀ k b, c.block k = some b → c.Written k → ∀ d ∈ b.prior, ∀ i old, d.index = some (i, old) →
    c.OnDisk (c.disk k i) ∨ ∃ d' ∈ b.prior, ∃ old', d'.index = some (i, old') ∧ Slot.addr (c.disk k i) = Slot.addr old'

/-- A block that is copied points only at what is on disk, and the root is on disk when the copy takes its place: the copy
has the pointers but not the dependencies. -/
def Settled (c : Cache V) : Op V → Prop
  | .walk p i _ _ _ _ _ => ∀ pb b bb, c.block ⟨.data, p⟩ = some pb → Slot.addr (pb.data i) = some b → c.epoch b ≠ c.ehi →
      c.block ⟨.data, b⟩ = some bb → ∀ j, c.OnDisk (bb.data j)
  | .bumpEpoch .. => ∀ bs root b, c.block ⟨.super, 0⟩ = some bs → Slot.addr (bs.data 0) = some root →
      c.block ⟨.data, root⟩ = some b → c.ondisk root = true ∧ ∀ j, c.OnDisk (b.data j)
  | _ => True

def SettledStep (c : Cache V) (op : Op V) (c' : Cache V) : Prop := c.Settled op ∧ c.Step op c'

end Cache

end Plan9.Fossil
