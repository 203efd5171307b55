/-
`v4lookup` and `v6lookup`, with the route that a conversation keeps.

The interfaces do not change: what their `ifcid`s are and what `findipifc` finds
are given (`Ifaces`). A route is returned as the number of its node. `Net.ifc` has
the `ifc` of a node by its number, also of one that has been freed, for its memory
keeps it until it is used for something else (`Event.overwrite`). A lookup can go
round for ever, where the gateway of a default route has no route but that one; a
number of turns bounds it, and a lookup that needs more gives nothing.
-/
import Plan9.Lib.Bytes
import Plan9.Lib.Run
import Plan9.Ip.RouteRuns

namespace Plan9.Ip

structure Ifaces where
  ifcid : Nat → Nat
  /-- Of an address and a route's type. -/
  findipifc : List UInt8 → Nat → Option Nat

inductive Version
  | v4
  | v6
  deriving DecidableEq, Repr

/-- What a `Conv` has for its route. -/
structure Conv where
  r : Option Nat
  rgen : Nat
  /-- No field of the source: the version and address of the lookup that stored `r`, and the changes to the version's
  routes before it. -/
  stored : Option (Version × Nat × Nat)
  deriving DecidableEq, Repr

structure Net where
  fs : Fs
  ifc : Nat → Option Nat

/-! ## The interface of a route -/

def v4prefix : List UInt8 := [0, 0, 0, 0, 0, 0, 0, 0, 0, 0, 0xff, 0xff]

def hnputl (v : Nat) : List UInt8 := (Bytes.leBytes 4 v).reverse

def nhgetl (bs : List UInt8) : Nat := (bs.take 4).foldl (fun n b => n * 256 + b.toNat) 0

/-- The `gate` that `v4lookup` asks `findipifc` for. -/
def v4gate (q : Route) : List UInt8 := if rifc q.type then v4prefix ++ hnputl q.address else v4prefix ++ q.gate

def v6gate (q : Route) : List UInt8 := if rifc q.type then (Bytes.leBytes 16 q.address).reverse else q.gate

/-- `q->ifc != nil && q->ifcid == q->ifc->ifcid` -/
def Net.attached (w : Ifaces) (net : Net) (q : Route) : Bool :=
  match net.ifc q.id with
  | none => false
  | some i => net.fs.side.ifcid q.id == w.ifcid i

/-- The route gets an interface, if it has none that is up to date and there is one. -/
def Net.attach (w : Ifaces) (net : Net) (q : Route) (gate : List UInt8) : Option Net :=
  if net.attached w q then some net
  else match w.findipifc gate q.type with
    | none => none
    | some i => some
        { ifc := Function.update net.ifc q.id (some i),
          fs := { net.fs with
            side := { net.fs.side with ifcid := Function.update net.fs.side.ifcid q.id (w.ifcid i) } } }

/-! ## Looking up -/

/-- How the search ends. -/
inductive Found
  /-- At the end of the function. -/
  | route (q : Option Route)
  /-- At `return nil` for want of an interface. -/
  | noifc

/-- From `again` on, at most a number of turns. -/
def v4find (w : Ifaces) (net : Net) : Nat → Nat → Option (Found × Net)
  | 0, _ => none
  | turns + 1, la =>
    match net.fs.v4.walk la with
    | none => some (.route none, net)
    | some q =>
      match net.attach w q (v4gate q) with
      | some net => some (.route (some q), net)
      | none =>
        -- "find a direct attached route"
        if q.address = 0 ∧ q.endaddress = 2 ^ 32 - 1 then v4find w net turns (nhgetl q.gate)
        else some (.noifc, net)

def v6find (w : Ifaces) (net : Net) (la : Nat) : Found × Net :=
  match net.fs.v6.walk la with
  | none => (.route none, net)
  | some q =>
    match net.attach w q (v6gate q) with
    | some net => (.route (some q), net)
    | none => (.noifc, net)

/-- The counter, a `ulong`. -/
def Table.routegeneration (t : Table) : Nat := t.generation % 2 ^ 32

/-- `c != nil && c->r != nil && c->r->ifc != nil && c->rgen == routegeneration` -/
def Conv.hit (c : Conv) (net : Net) (t : Table) : Bool :=
  match c.r with
  | none => false
  | some r => (net.ifc r).isSome && c.rgen == t.routegeneration

/-- What a lookup returns and leaves. -/
structure Looked where
  r : Option Nat
  net : Net
  c : Option Conv

/-- The end of a lookup of `la`. -/
def keep (v : Version) (t : Table) (la : Nat) (c : Option Conv) : Found × Net → Looked
  | (.noifc, net) => ⟨none, net, c⟩
  | (.route q, net) => ⟨q.map Route.id, net, c.map fun _ => ⟨q.map Route.id, t.routegeneration, some (v, la, t.generation)⟩⟩

def v4lookup (w : Ifaces) (turns : Nat) (net : Net) (a : Nat) (c : Option Conv) : Option Looked :=
  match c.filter (Conv.hit · net net.fs.v4) with
  | some kept => some ⟨kept.r, net, c⟩
  | none => (v4find w net turns a).map (keep .v4 net.fs.v4 a c)

/-- From the address not being a v4 one, or having no v4 route. -/
def v6look (w : Ifaces) (net : Net) (a : Nat) (c : Option Conv) : Looked :=
  match c.filter (Conv.hit · net net.fs.v6) with
  | some kept => ⟨kept.r, net, c⟩
  | none => keep .v6 net.fs.v6 a c (v6find w net a)

/-- `memcmp(a, v4prefix, IPv4off) == 0` -/
def isv4 (a : Nat) : Bool := a / 2 ^ 32 == 0xffff

def v6lookup (w : Ifaces) (turns : Nat) (net : Net) (a : Nat) (c : Option Conv) : Option Looked :=
  if isv4 a then
    match v4lookup w turns net (a % 2 ^ 32) c with
    | none => none
    | some looked => if looked.r.isSome then some looked else some (v6look w looked.net a looked.c)
  else some (v6look w net a c)

/-! ## Runs -/

structure Sys where
  net : Net
  c : Conv

def Sys.init : Sys := ⟨⟨Fs.init, fun _ => none⟩, ⟨none, 0, none⟩⟩

/-- A node of a tree has the number. -/
def Fs.Live (f : Fs) (n : Nat) : Prop := ∃ h, ∃ x, (x ∈ (f.v4.root h).routes ∨ x ∈ (f.v6.root h).routes) ∧ x.id = n

inductive Event
  | change (call : RouteCall)
  /-- The memory of a node that has been freed is used for something else. -/
  | overwrite (n : Nat) (v : Option Nat)
  /-- With the `Conv`, or with none. -/
  | v4lookup (a : BitVec 32) (conv : Bool)
  | v6lookup (a : BitVec 128) (conv : Bool)

/-- The argument of a lookup. -/
def Sys.arg (s : Sys) (conv : Bool) : Option Conv := if conv then some s.c else none

def Looked.sys (s : Sys) (looked : Looked) : Sys := ⟨looked.net, looked.c.getD s.c⟩

/-- What happens. A change is through when the queue is empty. -/
inductive CacheStep (w : Ifaces) : Sys → Event → Sys → Prop
  | change {s : Sys} {call : RouteCall} {turns : Nat} (h : (call.run turns s.net.fs).side.queue = []) :
      CacheStep w s (.change call) { s with net := { s.net with fs := call.run turns s.net.fs } }
  | overwrite {s : Sys} {n : Nat} {v : Option Nat} (h : ¬ s.net.fs.Live n) :
      CacheStep w s (.overwrite n v) { s with net := { s.net with ifc := Function.update s.net.ifc n v } }
  | v4lookup {s : Sys} {a : BitVec 32} {conv : Bool} {turns : Nat} {looked : Looked}
      (h : Ip.v4lookup w turns s.net a.toNat (s.arg conv) = some looked) : CacheStep w s (.v4lookup a conv) (looked.sys s)
  | v6lookup {s : Sys} {a : BitVec 128} {conv : Bool} {turns : Nat} {looked : Looked}
      (h : Ip.v6lookup w turns s.net a.toNat (s.arg conv) = some looked) : CacheStep w s (.v6lookup a conv) (looked.sys s)

end Plan9.Ip
