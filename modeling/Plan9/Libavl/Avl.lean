/-
`libavl/avl.c`: the tree in memory, and the walks over it.

An `Avl **tp` is the place of a pointer: the root of the tree or a kid of a
node. Memory is what every such place, every `p` and every `bal` holds; a node is
the record its `Avl` is in, key and all. `none` from a function that returns
`Option` is `assert(0)`, a failed `assert`, `abort()`, a nil pointer followed, or a
recursion or loop deeper than `fuel`.

`int i` with `n[(i+1)/2]` is a `Bool` for the kid; loops and recursions over the
nodes take `fuel`, the depth they may reach.
-/
import Plan9.Libavl.Tree

namespace Plan9.Libavl

variable {A W : Type} [DecidableEq A] [DecidableEq W]

/-- Where a pointer to a node is: `&t->root` or `&a->n[i]`. -/
inductive Place (A : Type)
  | root
  | n (a : A) (i : Bool)
  deriving DecidableEq

/-- The node a place is in. -/
def Place.owner : Place A → Option A
  | root => none
  | n a _ => some a

structure Heap (A : Type) where
  load : Place A → Option A
  p : A → Option A
  bal : A → Int

namespace Heap

/-- `*tp = v` -/
def store (h : Heap A) (tp : Place A) (v : Option A) : Heap A := { h with load := Function.update h.load tp v }

def setP (h : Heap A) (a : A) (p : Option A) : Heap A := { h with p := Function.update h.p a p }

def setBal (h : Heap A) (a : A) (b : Int) : Heap A := { h with bal := Function.update h.bal a b }

/-- `if((*tp = v) != nil) (*tp)->p = p` -/
def link (h : Heap A) (tp : Place A) (v : Option A) (p : Option A) : Heap A :=
  match v with
  | none => h.store tp none
  | some x => (h.store tp (some x)).setP x p

/-- `if(r->n[i]) r->n[i]->p = r` -/
def adopt (h : Heap A) (r : A) (i : Bool) : Heap A :=
  match h.load (.n r i) with
  | none => h
  | some x => h.setP x (some r)

/-! ## Rotations -/

def singleleft (tp : Place A) (p : Option A) (h : Heap A) : Option (Heap A) :=
  match h.load tp with
  | none => none
  | some a =>
    match h.load (.n a true) with
    | none => none
    | some c =>
      let r2 := h.bal c
      let l := pos r2 + 1 - h.bal a
      let h := h.link (.n a true) (h.load (.n c false)) (some a)
      let h := h.link (.n c false) (some a) (some c)
      let h := h.link tp (some c) p
      some ((h.setBal a (-l)).setBal c (r2 - (pos l + 1)))

def singleright (tp : Place A) (p : Option A) (h : Heap A) : Option (Heap A) :=
  match h.load tp with
  | none => none
  | some a =>
    match h.load (.n a false) with
    | none => none
    | some c =>
      let l2 := -h.bal c
      let r := h.bal a + (pos l2 + 1)
      let h := h.link (.n a false) (h.load (.n c true)) (some a)
      let h := h.link (.n c true) (some a) (some c)
      let h := h.link tp (some c) p
      some ((h.setBal a r).setBal c ((pos r + 1) - l2))

def doublerightleft (tp : Place A) (p : Option A) (h : Heap A) : Option (Heap A) :=
  match h.load tp with
  | none => none
  | some a =>
    match h.singleright (.n a true) (some a) with
    | none => none
    | some h => h.singleleft tp p

def doubleleftright (tp : Place A) (p : Option A) (h : Heap A) : Option (Heap A) :=
  match h.load tp with
  | none => none
  | some a =>
    match h.singleleft (.n a false) (some a) with
    | none => none
    | some h => h.singleright tp p

def balance (tp : Place A) (p : Option A) (h : Heap A) : Option (Heap A) :=
  match h.load tp with
  | none => none
  | some a =>
    if h.bal a = -2 then
      match h.load (.n a false) with
      | none => none
      | some c =>
        if h.bal c ≤ 0 then h.singleright tp p
        else if h.bal c = 1 then h.doubleleftright tp p
        else none
    else if h.bal a = 2 then
      match h.load (.n a true) with
      | none => none
      | some c =>
        if h.bal c ≥ 0 then h.singleleft tp p
        else if h.bal c = -1 then h.doublerightleft tp p
        else none
    else some h

/-! ## Insertion -/

variable (cmp : A → A → Int)

/-- `(*tp)->bal` after the call, for the `return`. -/
def balAt (h : Heap A) (tp : Place A) : Option Int := (h.load tp).map h.bal

/-- The heap, what is returned, and `*rfree`. -/
def insertavl (r : A) : Nat → Place A → Option A → Heap A → Option (Heap A × Int × Option A)
  | 0, _, _, _ => none
  | fuel + 1, tp, p, h =>
    match h.load tp with
    | none =>
      let h := h.setBal r 0
      let h := h.store (.n r false) none
      let h := h.store (.n r true) none
      let h := h.setP r p
      some (h.store tp (some r), 1, none)
    | some a =>
      let ob := h.bal a
      let i := canoncmp (cmp r a)
      if i ≠ 0 then
        match insertavl r fuel (.n a (i = 1)) (some a) h with
        | none => none
        | some (h, d, rfree) =>
          match (h.setBal a (h.bal a + i * d)).balance tp p with
          | none => none
          | some h =>
            match h.balAt tp with
            | none => none
            | some b => some (h, if ob = 0 ∧ b ≠ 0 then 1 else 0, rfree)
      else
        let h := h.store tp (some r)
        -- **tp = **rfree
        let h := h.setP r (h.p a)
        let h := h.setBal r (h.bal a)
        let h := h.store (.n r false) (h.load (.n a false))
        let h := h.store (.n r true) (h.load (.n a true))
        let h := h.adopt r false
        let h := h.adopt r true
        some (h, 0, some a)

/-! ## Deletion -/

/-- The heap, what is returned, and `*r`. -/
def successor : Nat → Place A → Option A → Heap A → Option (Heap A × Int × A)
  | 0, _, _, _ => none
  | fuel + 1, tp, p, h =>
    match h.load tp with
    | none => none
    | some a =>
      match h.load (.n a false) with
      | none => some (h.link tp (h.load (.n a true)) p, -1, a)
      | some _ =>
        let ob := h.bal a
        match successor fuel (.n a false) (some a) h with
        | none => none
        | some (h, d, r) =>
          match (h.setBal a (h.bal a - d)).balance tp p with
          | none => none
          | some h =>
            match h.balAt tp with
            | none => none
            | some b => some (h, if ob ≠ 0 ∧ b = 0 then -1 else 0, r)

/-- The node `r`, taken from below `a` with `successor` returning `d`, in the place of `a`. -/
def replace (h : Heap A) (tp : Place A) (p : Option A) (a r : A) (d : Int) : Heap A :=
  let h := h.setBal a (h.bal a + d)
  let h := h.setBal r (h.bal a)
  let h := h.store (.n r false) (h.load (.n a false))
  let h := h.store (.n r true) (h.load (.n a true))
  let h := h.store tp (some r)
  let h := h.setP r p
  (h.adopt r false).adopt r true

/-- `predel` sees the heap when the node is found and may change `S`, what `arg` points at; with the heap, what is
returned and `*del`, that is. -/
def deleteavl {S : Type} (predel : Heap A → A → S → Option S) (rx : A) :
    Nat → Place A → Option A → Heap A → S → Option (Heap A × S × Int × Option A)
  | 0, _, _, _, _ => none
  | fuel + 1, tp, p, h, s =>
    match h.load tp with
    | none => some (h, s, 0, none)
    | some a =>
      let ob := h.bal a
      let i := canoncmp (cmp rx a)
      if i ≠ 0 then
        match deleteavl predel rx fuel (.n a (i = 1)) (some a) h s with
        | none => none
        | some (h, s, d, del) =>
          match (h.setBal a (h.bal a + i * d)).balance tp p with
          | none => none
          | some h =>
            match h.balAt tp with
            | none => none
            | some b => some (h, s, if ob ≠ 0 ∧ b = 0 then -1 else 0, del)
      else
        match predel h a s with
        | none => none
        | some s =>
          match h.load (.n a false), h.load (.n a true) with
          | none, right => some (h.link tp right p, s, -1, some a)
          | left, none => some (h.link tp left p, s, -1, some a)
          | some _, some _ =>
            match successor fuel (.n a true) (some a) h with
            | none => none
            | some (h, d, r) =>
              match (h.replace tp p a r d).balance tp p with
              | none => none
              | some h =>
                match h.balAt tp with
                | none => none
                | some b => some (h, s, if ob ≠ 0 ∧ b = 0 then -1 else 0, some a)

/-! ## Search -/

/-- `for(; a->n[i]; a = a->n[i]) ;` -/
def descend (i : Bool) (h : Heap A) : Nat → A → Option A
  | 0, _ => none
  | fuel + 1, a =>
    match h.load (.n a i) with
    | none => some a
    | some c => descend i h fuel c

/-- `while(a->p && a->p->n[i] == a) a = a->p; return a->p;` -/
def climb (i : Bool) (h : Heap A) : Nat → A → Option (Option A)
  | 0, _ => none
  | fuel + 1, a =>
    match h.p a with
    | none => some none
    | some q => if h.load (.n q i) = some a then climb i h fuel q else some (some q)

/-- `findpredecessor` is this with `n[0]` for `n[i]`, `findsuccessor` with `n[1]`. -/
def findneighbor (i : Bool) (h : Heap A) (fuel : Nat) : Option A → Option (Option A)
  | none => some none
  | some a =>
    match h.load (.n a i) with
    | some c => (descend (!i) h fuel c).map some
    | none => climb i h fuel a

def findpredecessor (h : Heap A) (fuel : Nat) (a : Option A) : Option (Option A) := h.findneighbor false fuel a

def findsuccessor (h : Heap A) (fuel : Nat) (a : Option A) : Option (Option A) := h.findneighbor true fuel a

/-- The loop of `_lookupavl`: the node found, or the last node and the way taken from it. -/
def lookupLoop (r : A) (h : Heap A) : Nat → Option A → A → Option (A ⊕ A × Int)
  | 0, _, _ => none
  | fuel + 1, p, t =>
    if h.p t = p then
      let i := canoncmp (cmp r t)
      if i = 0 then some (.inl t)
      else
        match h.load (.n t (i = 1)) with
        | some c => lookupLoop r h fuel (some t) c
        | none => some (.inr (t, i))
    else none

def lookupavl (h : Heap A) (fuel : Nat) (t : Option A) (r : A) (neighbor : Int) : Option (Option A) :=
  match t with
  | none => some none
  | some t =>
    match lookupLoop cmp r h fuel none t with
    | none => none
    | some (.inl t) => some (some t)
    | some (.inr (p, i)) =>
      if neighbor = 0 then some none
      else if neighbor < 0 then if i > 0 then some (some p) else h.findpredecessor fuel (some p)
      else if i < 0 then some (some p) else h.findsuccessor fuel (some p)

end Heap

/-! ## Trees and walks -/

structure Avlwalk (A : Type) where
  started : Bool
  moved : Bool
  node : Option A
  deriving DecidableEq

/-- The walks are in the order of the list `t->walks`, each with the address it is known by. -/
structure Avltree (A W : Type) where
  heap : Heap A
  walks : List (W × Avlwalk A)

namespace Avltree

/-- What a walk is when `a`, before which is `p`, goes. -/
def walkdel1 (a : A) (p : Option A) (w : Avlwalk A) : Avlwalk A :=
  if w.node = some a then
    { w with moved := true, node := p, started := if p = none then false else w.started }
  else w

def walkdel (fuel : Nat) (h : Heap A) (a : A) (walks : List (W × Avlwalk A)) : Option (List (W × Avlwalk A)) :=
  match h.findpredecessor fuel (some a) with
  | none => none
  | some p => some (walks.map (fun w => (w.1, walkdel1 a p w.2)))

variable (cmp : A → A → Int) (fuel : Nat)

def mkavltree (h : Heap A) : Avltree A W := ⟨h.store .root none, []⟩

/-- The tree and `*oldp`. -/
def insertavl (t : Avltree A W) (new : A) : Option (Avltree A W × Option A) :=
  match t.heap.insertavl cmp new fuel .root none with
  | none => none
  | some (h, _, old) => some ({ t with heap := h }, old)

def deleteavl (t : Avltree A W) (key : A) : Option (Avltree A W × Option A) :=
  match t.heap.deleteavl cmp (walkdel fuel) key fuel .root none t.walks with
  | none => none
  | some (h, walks, _, old) => some (⟨h, walks⟩, old)

def searchavl (t : Avltree A W) (key : A) (neighbor : Int) : Option (Option A) :=
  t.heap.lookupavl cmp fuel (t.heap.load .root) key neighbor

def lookupavl (t : Avltree A W) (key : A) : Option (Option A) := t.heap.lookupavl cmp fuel (t.heap.load .root) key 0

/-- `w` is what `malloc` returned. -/
def avlwalk (t : Avltree A W) (w : W) : Avltree A W :=
  { t with walks := (w, ⟨false, false, none⟩) :: t.walks }

/-- `a = w->tree->root` and on to the end on that side -/
def outermost (i : Bool) (t : Avltree A W) : Option (Option A) :=
  match t.heap.load .root with
  | none => some none
  | some a => (t.heap.descend i fuel a).map some

/-- The walk after `avlnext`; what is returned is its node. -/
def avlnext1 (t : Avltree A W) (w : Avlwalk A) : Option (Avlwalk A) :=
  if w.started = false then (outermost fuel false t).map (fun a => { w with node := a, started := true })
  else
    match t.heap.findsuccessor fuel w.node with
    | none => none
    | some a => if a = w.node then none else some { w with node := a }

def avlprev1 (t : Avltree A W) (w : Avlwalk A) : Option (Avlwalk A) :=
  if w.started = false then (outermost fuel true t).map (fun a => { w with node := a, started := true })
  else if w.moved then some { w with moved := false }
  else
    match t.heap.findpredecessor fuel w.node with
    | none => none
    | some a => if a = w.node then none else some { w with node := a }

def setWalk (t : Avltree A W) (w : W) (v : Avlwalk A) : Avltree A W :=
  { t with walks := t.walks.map (fun u => if u.1 = w then (w, v) else u) }

/-- `f` on the walk at `w`, and its node then. -/
def onWalk (f : Avlwalk A → Option (Avlwalk A)) (t : Avltree A W) (w : W) : Option (Avltree A W × Option A) :=
  match t.walks.lookup w with
  | none => none
  | some v =>
    match f v with
    | none => none
    | some v => some (t.setWalk w v, v.node)

def avlnext (t : Avltree A W) (w : W) : Option (Avltree A W × Option A) := onWalk (avlnext1 fuel t) t w

def avlprev (t : Avltree A W) (w : W) : Option (Avltree A W × Option A) := onWalk (avlprev1 fuel t) t w

def endwalk (t : Avltree A W) (w : W) : Avltree A W := { t with walks := t.walks.eraseP (·.1 = w) }

end Avltree

end Plan9.Libavl
