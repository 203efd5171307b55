/-
The routing tables of the kernel's IP stack (`9/ip/iproute.c`): trees of
address ranges, with a node's `mid` for the ranges inside its own, and the
routes that conversations keep.

An address is a number, of 32 bits or, for the four words of a v6 address, of
128; `lcmp` compares words as the numbers compare. The two versions of
`rangecompare` are then one, and so are `V4H` and `V6H`, which take bits of the
last word. A `type` given for a v6 route is one without `Rv4`. Nodes are numbered
as they are allocated: the free lists would give the memory of a node out again,
its number is not. The copy of each route that the interfaces' media keep is left
out.
-/
import Mathlib.Tactic.Ring

namespace Plan9.Ip

/-- `Rifc`: "this route is a directly connected interface". -/
def rifc (type : Nat) : Bool := type.testBit 1

/-- `Rv4` -/
def rv4 : Nat := 1

structure Route where
  id : Nat
  address : Nat
  endaddress : Nat
  type : Nat
  gate : List UInt8
  tag : List UInt8
  ref : Nat
  deriving Repr

/-- A `Route*` with what hangs from it. -/
inductive RTree
  | nil
  | node (p : Route) (depth : Nat) (left mid right : RTree)
  deriving Repr

/-! ## Comparing -/

inductive Range
  | Rpreceeds
  | Rfollows
  | Requals
  | Rcontains
  | Rcontained
  deriving DecidableEq, Repr

def rangecompare (a b : Route) : Range :=
  if a.endaddress < b.address then .Rpreceeds
  else if a.address > b.endaddress then .Rfollows
  else if a.address ≤ b.address ∧ a.endaddress ≥ b.endaddress then
    if a.address = b.address ∧ a.endaddress = b.endaddress then .Requals else .Rcontains
  else .Rcontained

/-! ## Balancing -/

namespace RTree

def depth : RTree → Nat
  | nil => 0
  | node _ d _ _ _ => d

/-- `depth` is a `uchar`. -/
def calcd : RTree → RTree
  | nil => nil
  | node p _ l m r => node p ((max (max l.depth r.depth) m.depth + 1) % 256) l m r

def balancetree : RTree → RTree
  | nil => nil
  | node p d l m r =>
    if l.depth > r.depth + 1 then
      match l with
      | nil => calcd (node p d l m r)
      | node lp ld ll lm lr => calcd (node lp ld ll lm (calcd (node p d lr m r)))
    else if r.depth > l.depth + 1 then
      match r with
      | nil => calcd (node p d l m r)
      | node rp rd rl rm rr => calcd (node rp rd (calcd (node p d l m rl)) rm rr)
    else calcd (node p d l m r)

end RTree

/-! ## Adding and deleting -/

/-- What `addnode` changes besides the tree: `f->queue`, the first first, and the `ifcid`s of the nodes. -/
structure Side where
  queue : List RTree
  ifcid : Nat → Nat

def Side.addqueue (s : Side) : RTree → Side
  | .nil => s
  | r => { s with queue := r :: s.queue }

/-- The old entry of a range that is added again. -/
def supersede (p new : Route) : Route :=
  if rifc p.type = false then { p with type := new.type, gate := new.gate }
  else if rifc new.type then { p with ref := p.ref + 1 }
  else p

/-- `p->ifcid = -1`, in a `uchar`. -/
def Side.supersede (s : Side) (p : Route) : Side :=
  if rifc p.type = false then { s with ifcid := Function.update s.ifcid p.id 255 } else s

/-- The new node comes with its `mid`. -/
def addnode (new : Route) (newmid : RTree) : RTree → Side → RTree × Side
  | .nil, s => (.node new 1 .nil newmid .nil, s)
  | .node p d l m r, s =>
    match rangecompare new p with
    | .Rpreceeds =>
      let (l, s) := addnode new newmid l s
      (RTree.balancetree (.node p d l m r), s)
    | .Rfollows =>
      let (r, s) := addnode new newmid r s
      (RTree.balancetree (.node p d l m r), s)
    | .Rcontains => (RTree.balancetree (.node new 1 .nil newmid .nil), s.addqueue (.node p d l m r))
    | .Requals => (RTree.balancetree (.node (supersede p new) d l m r), s.supersede p)
    | .Rcontained =>
      let (m, s) := addnode new newmid m s
      (RTree.balancetree (.node p d l m r), s)

def walkadd : RTree → RTree → Side → RTree × Side
  | .nil, root, s => (root, s)
  | .node p _ l m r, root, s =>
    let (root, s) := addnode p m root s
    let (root, s) := walkadd l root s
    walkadd r root s

/-- The loop that takes `f->queue` in again, at most a number of turns: it is through when the queue is empty. -/
def requeue : Nat → RTree → Side → RTree × Side
  | 0, root, s => (root, s)
  | n + 1, root, s =>
    match s.queue with
    | [] => (root, s)
    | p :: queue =>
      let (root, s) := walkadd p root { s with queue := queue }
      requeue n root s

/-- `looknode`, and what `del1route` makes of the node it finds: nothing, or a node with one reference less, or
none and its subtrees on the queue. -/
def delnode (r : Route) : RTree → Side → RTree × Side
  | .nil, s => (.nil, s)
  | .node p d l m rt, s =>
    match rangecompare r p with
    | .Rcontains => (.node p d l m rt, s)
    | .Rpreceeds =>
      let (l, s) := delnode r l s
      (.node p d l m rt, s)
    | .Rfollows =>
      let (rt, s) := delnode r rt s
      (.node p d l m rt, s)
    | .Rcontained =>
      let (m, s) := delnode r m s
      (.node p d l m rt, s)
    | .Requals =>
      if p.ref - 1 = 0 then (.nil, ((s.addqueue l).addqueue m).addqueue rt)
      else (.node { p with ref := p.ref - 1 } d l m rt, s)

/-! ## The tables -/

/-- The routes of one version. -/
structure Table where
  root : Nat → RTree
  /-- All the changes so far. The counter is a `ulong`. -/
  generation : Nat

/-- `routelock` is held while a tree changes. -/
structure Fs where
  v4 : Table
  v6 : Table
  side : Side
  /-- The number of the next node. -/
  next : Nat

/-- `V4H` and `V6H`, with `Lroot` 10. -/
def hash (a : Nat) : Nat := a % 2 ^ 27 / 2 ^ (32 - 10 - 5)

structure Adding where
  root : Nat → RTree
  side : Side
  next : Nat

/-- A turn of the loop of `v4addroute` and `v6addroute`: a node of its own for each tree. There is none before the
queue of the tree before is empty. -/
def add1route (turns sa ea type : Nat) (gate tag : List UInt8) (a : Adding) (h : Nat) : Adding :=
  match a.side.queue with
  | _ :: _ => a
  | [] =>
    let (root, s) := addnode ⟨a.next, sa, ea, type, gate, tag, 1⟩ .nil (a.root h) a.side
    let (root, s) := requeue turns root s
    { root := Function.update a.root h root, side := s, next := a.next + 1 }

def del1route (turns : Nat) (r : Route) (a : Adding) (h : Nat) : Adding :=
  match a.side.queue with
  | _ :: _ => a
  | [] =>
    let (root, s) := delnode r (a.root h) a.side
    let (root, s) := requeue turns root s
    { a with root := Function.update a.root h root, side := s }

/-- The trees that a range is in. -/
def hashes (sa ea : Nat) : List Nat := List.range' (hash sa) (hash ea + 1 - hash sa)

/-- `sa` and `ea` -/
def rangeOf {w : Nat} (a mask : BitVec w) : Nat × Nat := ((a &&& mask).toNat, (a ||| ~~~mask).toNat)

def Table.addroute {w : Nat} (t : Table) (turns : Nat) (f : Fs) (a mask : BitVec w) (type : Nat) (gate tag : List UInt8) :
    Table × Adding :=
  let (sa, ea) := rangeOf a mask
  let r := (hashes sa ea).foldl (add1route turns sa ea type gate tag) ⟨t.root, f.side, f.next⟩
  (⟨r.root, t.generation + 1⟩, r)

def Table.delroute {w : Nat} (t : Table) (turns : Nat) (f : Fs) (a mask : BitVec w) : Table × Adding :=
  let (sa, ea) := rangeOf a mask
  let r := (hashes sa ea).foldl (del1route turns ⟨0, sa, ea, 0, [], [], 0⟩) ⟨t.root, f.side, f.next⟩
  (⟨r.root, t.generation + 1⟩, r)

/-- A `type` is a `uchar`. -/
def v4addroute (turns : Nat) (f : Fs) (tag : List UInt8) (a mask : BitVec 32) (gate : List UInt8) (type : Nat) : Fs :=
  let (t, r) := f.v4.addroute turns f a mask ((rv4 ||| type) % 256) gate tag
  { f with v4 := t, side := r.side, next := r.next }

def v6addroute (turns : Nat) (f : Fs) (tag : List UInt8) (a mask : BitVec 128) (gate : List UInt8) (type : Nat) : Fs :=
  let (t, r) := f.v6.addroute turns f a mask (type % 256) gate tag
  { f with v6 := t, side := r.side, next := r.next }

def v4delroute (turns : Nat) (f : Fs) (a mask : BitVec 32) : Fs :=
  let (t, r) := f.v4.delroute turns f a mask
  { f with v4 := t, side := r.side, next := r.next }

def v6delroute (turns : Nat) (f : Fs) (a mask : BitVec 128) : Fs :=
  let (t, r) := f.v6.delroute turns f a mask
  { f with v6 := t, side := r.side, next := r.next }

/-! ## The walk of the lookups -/

/-- `q` is the last node so far whose range has the address. -/
def lookwalk (la : Nat) : RTree → Option Route → Option Route
  | .nil, q => q
  | .node p _ l m r, q =>
    if la ≥ p.address then
      if la ≤ p.endaddress then lookwalk la m (some p) else lookwalk la r q
    else lookwalk la l q

def Table.walk (t : Table) (la : Nat) : Option Route := lookwalk la (t.root (hash la)) none

/-- Nothing added yet. -/
def Fs.init : Fs := ⟨⟨fun _ => .nil, 0⟩, ⟨fun _ => .nil, 0⟩, ⟨[], fun _ => 0⟩, 0⟩

end Plan9.Ip
