/-
The requests of `lib9p`: `getreq` and the dispatch of `srv.c`, `sflush`, `rflush` and
`respond`, and the request pool of `req.c`.

A request is named by its number in the order they are read. `srv` reads and dispatches
one after the other; a handler calls `respond` in any process, at any time after the
request is given to it. `respond` is cut where another process can come between: at the
locks, the write and each call for a flush that waits. The message is what it is for
the flush protocol: its tag, and the old tag of a `Tflush`.
-/
import Plan9.Lib.Run

namespace Plan9.Lib9p

structure Req where
  tag : Nat
  /-- Of a `Tflush`. -/
  oldtag : Option Nat
  oldreq : Option Nat
  responded : Bool
  flush : List Nat

inductive Pc
  | unread
  /-- `getreq` has returned it. -/
  | read
  /-- The handler has it. -/
  | given
  /-- `respond` has been called. -/
  | responding
  /-- `rflush` has returned -1. -/
  | parked
  /-- The function for its type has returned. -/
  | completed
  /-- It is out of the pool, and `wlock` is held. -/
  | writing
  | written
  /-- In the loop over `flush`, with `i`. -/
  | flushing (i : Nat)
  /-- In the call of `respond` there. -/
  | calling (i : Nat)
  | done
  deriving DecidableEq

/-- `n` requests have been read. `out` is the replies that have been written, in their order. `bad` is whether a freed
request has been used, or one has been freed that others wait for or with a reply to come. -/
structure Srv where
  n : Nat
  req : Nat → Req
  ref : Nat → Nat
  pc : Nat → Pc
  pool : Nat → Option Nat
  loop : Option Nat
  wlock : Option Nat
  out : List Nat
  bad : Bool

namespace Srv

def goto (s : Srv) (r : Nat) (pc : Pc) : Srv := { s with pc := Function.update s.pc r pc }

def setReq (s : Srv) (r : Nat) (q : Req) : Srv := { s with req := Function.update s.req r q }

def increqref (s : Srv) (r : Nat) : Srv := { s with ref := Function.update s.ref r (s.ref r + 1) }

/-- `closereq`, as long as nothing but memory comes of it. -/
def closereq (s : Srv) (r : Nat) : Srv :=
  if s.ref r = 0 ∨ s.ref r = 1 ∧ ((s.req r).oldreq ≠ none ∨ (s.req r).flush ≠ []) then { s with bad := true }
  else { s with ref := Function.update s.ref r (s.ref r - 1) }

/-- A request is read and put into the pool. A tag that is in use is not followed. -/
def getreq (s : Srv) (tag : Nat) (oldtag : Option Nat) : Srv :=
  { s with
    n := s.n + 1
    req := Function.update s.req s.n ⟨tag, oldtag, none, false, []⟩
    ref := Function.update s.ref s.n 2
    pc := Function.update s.pc s.n .read
    pool := Function.update s.pool tag (some s.n)
    loop := some s.n
    bad := s.bad || (s.pool tag).isSome }

def lookupreq (s : Srv) (tag : Nat) : Option Nat × Srv :=
  match s.pool tag with
  | some r => (some r, s.increqref r)
  | none => (none, s)

def sflush (s : Srv) (r oldtag : Nat) : Srv :=
  let (oldreq, s) := s.lookupreq oldtag
  s.setReq r { s.req r with oldreq := oldreq }

/-- The request goes to its handler. -/
def dispatch (s : Srv) (r : Nat) : Srv :=
  let s := match (s.req r).oldtag with
    | some oldtag => s.sflush r oldtag
    | none => s
  { s with loop := none }.goto r .given

/-- It returns -1 when the request is put on the list of another. -/
def rflush (s : Srv) (r : Nat) : Srv × Int :=
  match (s.req r).oldreq with
  | none => (s, 0)
  | some o =>
    if (s.req o).responded then
      let s := s.closereq o
      (s.setReq r { s.req r with oldreq := none }, 0)
    else (s.setReq o { s.req o with flush := (s.req o).flush ++ [r] }, -1)

/-- The function of `respond` for the type of the request. -/
def complete (s : Srv) (r : Nat) : Srv :=
  match (s.req r).oldtag with
  | none => s.goto r .completed
  | some _ =>
    let (s, n) := s.rflush r
    if n < 0 then s.goto r .parked else s.goto r .completed

/-- `closereq(removereq(r->pool, r->ifcall.tag))`, with `wlock` taken. -/
def remove (s : Srv) (r : Nat) : Srv :=
  let old := s.pool (s.req r).tag
  let s := { s with pool := Function.update s.pool (s.req r).tag none, wlock := some r }
  let s := match old with
    | some o => s.closereq o
    | none => s
  s.goto r .writing

def write (s : Srv) (r : Nat) : Srv := { s with out := s.out ++ [r], wlock := none }.goto r .written

def mark (s : Srv) (r : Nat) : Srv := (s.setReq r { s.req r with responded := true }).goto r (.flushing 0)

def finish (s : Srv) (r : Nat) : Srv := ((s.setReq r { s.req r with flush := [] }).closereq r).goto r .done

end Srv

inductive SrvAct
  | getreq (tag : Nat) (oldtag : Option Nat)
  | dispatch (r : Nat)
  | respond (r : Nat)
  /-- A step of a call of `respond`. -/
  | go (r : Nat)

structure Srv.Init (s : Srv) : Prop where
  n : s.n = 0
  pc : ∀ r, s.pc r = .unread
  req : ∀ r, (s.req r).oldreq = none ∧ (s.req r).responded = false ∧ (s.req r).flush = []
  ref : ∀ r, s.ref r = 0
  pool : ∀ t, s.pool t = none
  loop : s.loop = none
  wlock : s.wlock = none
  out : s.out = []
  bad : s.bad = false

/-- A tag is used again only when its request has been replied to. -/
inductive Srv.Step : Srv → SrvAct → Srv → Prop
  | getreq {s : Srv} {tag : Nat} {oldtag : Option Nat} : s.loop = none →
      (∀ r < s.n, (s.req r).tag = tag → r ∈ s.out) → Step s (.getreq tag oldtag) (s.getreq tag oldtag)
  | dispatch {s : Srv} {r : Nat} : s.loop = some r → Step s (.dispatch r) (s.dispatch r)
  | respond {s : Srv} {r : Nat} : s.pc r = .given → Step s (.respond r) (s.goto r .responding)
  | complete {s : Srv} {r : Nat} : s.pc r = .responding → Step s (.go r) (s.complete r)
  | remove {s : Srv} {r : Nat} : s.pc r = .completed → s.wlock = none → Step s (.go r) (s.remove r)
  | write {s : Srv} {r : Nat} : s.pc r = .writing → Step s (.go r) (s.write r)
  | mark {s : Srv} {r : Nat} : s.pc r = .written → Step s (.go r) (s.mark r)
  | next {s : Srv} {r f i : Nat} : s.pc r = .flushing i → (s.req r).flush[i]? = some f →
      Step s (.go r) ((s.goto r (.calling i)).goto f .responding)
  | back {s : Srv} {r f i : Nat} : s.pc r = .calling i → (s.req r).flush[i]? = some f →
      s.pc f = .parked ∨ s.pc f = .done → Step s (.go r) (s.goto r (.flushing (i + 1)))
  | finish {s : Srv} {r i : Nat} : s.pc r = .flushing i → (s.req r).flush.length ≤ i → Step s (.go r) (s.finish r)

end Plan9.Lib9p
