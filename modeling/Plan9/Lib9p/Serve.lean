/-
The server loop of `lib9p`: `getreq`, the functions of `srv.c` that serve and complete
a request, and `respond`, with the messages and the fids.

A request and a fid are named by their numbers in the order they are made, a file by a
number of the tree's. What a handler leaves in a request is a step of its own. The file
tree, `walk1` and `clone` are what they say in the step that asks them (`Tree`): others
change the tree at any time. `respond` is cut at the locks and at the calls for the
flushes that wait, and a request it has been called for goes on in any order with others.
Reference counts are not kept (`Req` has them), and memory does not run out: `emalloc9p`
ends the process. Where the code follows a pointer that may be nil, the model fails; the
strings of a message, and a file's, are never nil.
-/
import Plan9.Lib.Run
import Plan9.Libc.Dir
import Plan9.Libc.Message

namespace Plan9.Lib9p.Serve

open Libc

/-! ## Texts -/

def ERRMAX : Nat := 128

def ascii (s : String) : List UInt8 := s.toList.map fun c => UInt8.ofNat c.toNat

/-- A string constant. -/
def text (s : String) : Ptr := some (ascii s ++ [0])

/-- What is printed into a buffer of `ERRMAX` bytes. -/
def snprint (s : List UInt8) : Ptr := some (s.take (ERRMAX - 1) ++ [0])

def Ebadoffset : Ptr := text "bad offset"
def Ebotch : Ptr := text "9P protocol botch"
def Ecreatenondir : Ptr := text "create in non-directory"
def Edupfid : Ptr := text "duplicate fid"
def Eduptag : Ptr := text "duplicate tag"
def Eisdir : Ptr := text "is a directory"
def Enocreate : Ptr := text "create prohibited"
def Enoremove : Ptr := text "remove prohibited"
def Enostat : Ptr := text "stat prohibited"
def Enotfound : Ptr := text "file not found"
def Enowstat : Ptr := text "wstat prohibited"
def Eperm : Ptr := text "permission denied"
def Eunknownfid : Ptr := text "unknown fid"
def Ebaddir : Ptr := text "bad directory in wstat"
def Ewalknodir : Ptr := text "walk in non-directory"

def NOFID : UInt32 := 0xffffffff
def IOHDRSZ : UInt32 := 24
def QTDIR : UInt8 := 0x80
def DMDIR : UInt32 := 0x80000000

def OREAD : UInt8 := 0
def OWRITE : UInt8 := 1
def ORDWR : UInt8 := 2
def OEXEC : UInt8 := 3
def OTRUNC : UInt8 := 16
def ORCLOSE : UInt8 := 64

def AEXEC : Nat := 1
def AWRITE : Nat := 2
def AREAD : Nat := 4

/-! ## Fids -/

/-- `omode` is a `char`, kept as its byte; -1 is for a fid that is not open. -/
structure Fid where
  fid : UInt32
  omode : UInt8
  file : Option Nat
  uid : Ptr
  qid : Qid
  diroffset : UInt64
  /-- Whether `rdir` is not nil. -/
  rdir : Bool

def closed : UInt8 := 0xff

def Fid.isdir (f : Fid) : Bool := f.qid.type &&& QTDIR != 0

/-- The fids made so far, and the pool. -/
structure Fids where
  n : Nat
  fid : Nat → Fid
  map : UInt32 → Option Nat

namespace Fids

def set (F : Fids) (i : Nat) (f : Fid) : Fids := { F with fid := Function.update F.fid i f }

def allocfid (F : Fids) (fid : UInt32) : Option Nat × Fids :=
  match F.map fid with
  | some _ => (none, F)
  | none =>
    (some F.n,
     { n := F.n + 1
       fid := Function.update F.fid F.n ⟨fid, closed, none, none, ⟨0, 0, 0⟩, 0, false⟩
       map := Function.update F.map fid (some F.n) })

def lookupfid (F : Fids) (fid : UInt32) : Option Nat := F.map fid

def removefid (F : Fids) (fid : UInt32) : Option Nat × Fids :=
  (F.map fid, { F with map := Function.update F.map fid none })

/-- `closefid(removefid(fpool, fid))`: not for a fid that is gone, for `closefid` looks at it. -/
def drop (F : Fids) (fid : UInt32) : Option Fids :=
  match F.removefid fid with
  | (none, _) => none
  | (some _, F) => some F

end Fids

/-! ## What a request's own functions work on -/

structure Call where
  ifcall : Fcall Ptr
  ofcall : Fcall Ptr
  error : Ptr
  d : Dir Ptr
  fid : Option Nat
  afid : Option Nat
  newfid : Option Nat

/-- Which of the functions of a `Srv` there are, and whether it has a tree. -/
structure Conf where
  tree : Bool
  auth : Bool
  attach : Bool
  flush : Bool
  walk1 : Bool
  clone : Bool
  walk : Bool
  open' : Bool
  create : Bool
  read : Bool
  write : Bool
  remove : Bool
  stat : Bool
  wstat : Bool
  argv0 : List UInt8

/-- `parent` is nil for a file that has been removed, and `child` the first of a name on a directory's `filelist`.
`readdirfile` is the bytes read, `removefile` the error string if it fails. -/
structure Tree where
  root : Nat
  dir : Nat → Dir Ptr
  parent : Nat → Option Nat
  child : Nat → List UInt8 → Option Nat
  opendirfile : Nat → Bool
  readdirfile : Nat → Nat → List UInt8
  removefile : Nat → Option (List UInt8)
  walk1 : Fid → Ptr → Ptr × Qid
  clone : Fid → Fid → Ptr

/-- How a request is served: `respond` is called, a handler is, the process ends, or an
assertion fails or a nil pointer is followed. -/
inductive Verdict
  | respond (error : Ptr)
  | handler
  | sysfatal
  | fail

abbrev Served := Fids × Call × Verdict

def handlerOr (h : Bool) (error : Ptr) : Verdict := if h then .handler else .respond error

/-! ## Serving -/

def sversion (F : Fids) (c : Call) : Served :=
  if (str c.ifcall.version).take 2 ≠ ascii "9P" then
    (F, { c with ofcall := { c.ofcall with version := text "unknown" } }, .respond none)
  else
    (F, { c with ofcall := { c.ofcall with version := text "9P2000", msize := c.ifcall.msize } }, .respond none)

def sauth (conf : Conf) (F : Fids) (c : Call) : Served :=
  match F.allocfid c.ifcall.afid with
  | (none, F) => (F, { c with afid := none }, .respond Edupfid)
  | (some i, F) =>
    (F, { c with afid := some i },
     handlerOr conf.auth (snprint (conf.argv0 ++ ascii ": authentication not required")))

def sattach (conf : Conf) (t : Tree) (F : Fids) (c : Call) : Served :=
  match F.allocfid c.ifcall.fid with
  | (none, F) => (F, { c with fid := none }, .respond Edupfid)
  | (some i, F) =>
    let c := { c with fid := some i, afid := if c.ifcall.afid ≠ NOFID then F.lookupfid c.ifcall.afid else none }
    if c.ifcall.afid ≠ NOFID ∧ c.afid = none then (F, c, .respond Eunknownfid)
    else
      let F := F.set i { F.fid i with uid := c.ifcall.uname }
      if conf.tree then
        let qid := (t.dir t.root).qid
        let F := F.set i { F.fid i with file := some t.root, qid := qid }
        (F, { c with ofcall := { c.ofcall with qid := qid } }, handlerOr conf.attach none)
      else (F, c, handlerOr conf.attach none)

/-- The parent of a directory that has been removed is nil, and `incref` looks at it. -/
def Tree.walkfile1 (t : Tree) (dir : Nat) (elem : List UInt8) : Option (Option Nat) :=
  if elem = ascii ".." then (t.parent dir).map some else some (t.child dir elem)

/-- The elements of a path, with what has been passed of the first. -/
def elems : List UInt8 → List UInt8 → List (List UInt8)
  | [], [] => []
  | elem, [] => [elem]
  | elem, b :: path => if b = 0x2f then elem :: elems [] path else elems (elem ++ [b]) path

/-- The loop of `walkfile`. -/
def Tree.walkelems (t : Tree) : Nat → List (List UInt8) → Option (Option Nat)
  | f, [] => some (some f)
  | f, elem :: rest =>
    match t.walkfile1 f elem with
    | some (some f) => t.walkelems f rest
    | x => x

def Tree.walkfile (t : Tree) (f : Nat) (path : List UInt8) : Option (Option Nat) :=
  if 0x2f ∉ path then t.walkfile1 f path else t.walkelems f (elems [] path)

/-- The loop of `filewalk`, from index `i` for `n` more names: where it stops, and the file it comes to. -/
def walkfiles (t : Tree) (wname : Nat → Ptr) : Nat → Nat → Nat → (Nat → Qid) → Option (Nat × Option Nat × (Nat → Qid))
  | 0, i, f, wqid => some (i, some f, wqid)
  | n + 1, i, f, wqid =>
    match t.walkfile f (str (wname i)) with
    | some (some f) => walkfiles t wname n (i + 1) f (Function.update wqid i (t.dir f).qid)
    | some none => some (i, none, wqid)
    | none => none

def filewalk (t : Tree) (F : Fids) (c : Call) (fid newfid : Nat) : Served :=
  match (F.fid fid).file with
  | none => (F, c, .fail)
  | some f =>
    match walkfiles t c.ifcall.wname c.ifcall.nwname.toNat 0 f c.ofcall.wqid with
    | none => (F, c, .fail)
    | some (i, f, wqid) =>
      let c := { c with ofcall := { c.ofcall with nwqid := UInt16.ofNat i, wqid := wqid } }
      match f with
      | none => (F, c, .respond none)
      | some f => (F.set newfid { F.fid newfid with file := some f, qid := (t.dir f).qid }, c, .respond none)

/-- The loop of `walkandclone`, with `oldwalk1`. -/
def walk1s (t : Tree) (wname : Nat → Ptr) (newfid : Nat) :
    Nat → Nat → Fids → (Nat → Qid) → Ptr × Nat × Fids × (Nat → Qid)
  | 0, i, F, wqid => (none, i, F, wqid)
  | n + 1, i, F, wqid =>
    match t.walk1 (F.fid newfid) (wname i) with
    | (some e, _) => (some e, i, F, wqid)
    | (none, qid) =>
      walk1s t wname newfid n (i + 1) (F.set newfid { F.fid newfid with qid := qid }) (Function.update wqid i qid)

def walkandclone (conf : Conf) (t : Tree) (F : Fids) (c : Call) (fid newfid : Nat) : Served :=
  if fid = newfid ∧ c.ifcall.nwname > 1 then
    (F, c, .respond (text "lib9p: unused documented feature not implemented"))
  else
    let F := if fid ≠ newfid then F.set newfid { F.fid newfid with qid := (F.fid fid).qid } else F
    match if fid ≠ newfid ∧ conf.clone then t.clone (F.fid fid) (F.fid newfid) else none with
    | some e => (F, c, .respond (some e))
    | none =>
      let (e, i, F, wqid) := walk1s t c.ifcall.wname newfid c.ifcall.nwname.toNat 0 F c.ofcall.wqid
      let c := { c with ofcall := { c.ofcall with nwqid := UInt16.ofNat i, wqid := wqid } }
      if e ≠ none ∧ i = 0 then (F, c, .respond e) else (F, c, .respond none)

def walkWith (conf : Conf) (t : Tree) (F : Fids) (c : Call) (fid newfid : Nat) : Served :=
  let c := { c with newfid := some newfid }
  if (F.fid fid).file ≠ none then filewalk t F c fid newfid
  else if conf.walk1 then walkandclone conf t F c fid newfid
  else if conf.walk then (F, c, .handler)
  else (F, c, .sysfatal)

def swalk (conf : Conf) (t : Tree) (F : Fids) (c : Call) : Served :=
  let c := { c with fid := F.lookupfid c.ifcall.fid }
  match c.fid with
  | none => (F, c, .respond Eunknownfid)
  | some i =>
    if (F.fid i).omode ≠ closed then (F, c, .respond (text "cannot clone open fid"))
    else if c.ifcall.nwname ≠ 0 ∧ ¬ (F.fid i).isdir then (F, c, .respond Ewalknodir)
    else if c.ifcall.fid ≠ c.ifcall.newfid then
      match F.allocfid c.ifcall.newfid with
      | (none, F) => (F, { c with newfid := none }, .respond Edupfid)
      | (some j, F') =>
        match (F.fid i).uid with
        | none => (F', { c with newfid := some j }, .fail) -- `estrdup9p`
        | some uid => walkWith conf t (F'.set j { F'.fid j with uid := some uid }) c i j
    else walkWith conf t F c i i

/-- What a mode asks for; there is a default in the switch, that fails. -/
def access (mode : UInt8) : Option Nat :=
  let o := mode &&& 3
  if o = OREAD then some AREAD
  else if o = OWRITE then some AWRITE
  else if o = ORDWR then some (AREAD ||| AWRITE)
  else if o = OEXEC then some AEXEC
  else none

/-- What `others` may do is seen before `uid` is looked at. -/
def hasperm (f : Dir Ptr) (uid : Ptr) (p : Nat) : Option Bool :=
  let mode := f.mode.toNat
  let m := mode &&& 7
  if p &&& m = p then some true
  else
    uid.map fun uid =>
      let m := if str f.uid = str (some uid) then m ||| (mode >>> 6 &&& 7) else m
      if p &&& m = p then true
      else
        let m := if str f.gid = str (some uid) then m ||| (mode >>> 3 &&& 7) else m
        p &&& m = p

/-- `hasperm(file, uid, AWRITE)` for a file that may be nil. -/
def Tree.permits (t : Tree) (file : Option Nat) (uid : Ptr) : Option Bool :=
  file.bind fun file => hasperm (t.dir file) uid AWRITE

def sopen (conf : Conf) (t : Tree) (F : Fids) (c : Call) : Served :=
  let c := { c with fid := F.lookupfid c.ifcall.fid }
  match c.fid with
  | none => (F, c, .respond Eunknownfid)
  | some i =>
    let f := F.fid i
    let mode := c.ifcall.mode
    if f.omode ≠ closed then (F, c, .respond Ebotch)
    else if f.isdir ∧ mode &&& ~~~ ORCLOSE ≠ OREAD then (F, c, .respond Eisdir)
    else
      let c := { c with ofcall := { c.ofcall with qid := f.qid } }
      match access mode with
      | none => (F, c, .fail)
      | some p =>
        let p := if mode &&& OTRUNC ≠ 0 then p ||| AWRITE else p
        if f.isdir ∧ p ≠ AREAD then (F, c, .respond Eperm)
        else
          match f.file with
          | none => (F, c, handlerOr conf.open' none)
          | some file =>
            match hasperm (t.dir file) f.uid p with
            | none => (F, c, .fail)
            | some false => (F, c, .respond Eperm)
            | some true =>
              match if mode &&& ORCLOSE ≠ 0 then t.permits (t.parent file) f.uid else some true with
              | none => (F, c, .fail)
              | some false => (F, c, .respond Eperm)
              | some true =>
                let qid := (t.dir file).qid
                let c := { c with ofcall := { c.ofcall with qid := qid } }
                if qid.type &&& QTDIR ≠ 0 then
                  let F := F.set i { f with rdir := t.opendirfile file }
                  (F, c, if t.opendirfile file then handlerOr conf.open' none else .respond (text "opendirfile failed"))
                else (F, c, handlerOr conf.open' none)

def screate (conf : Conf) (t : Tree) (F : Fids) (c : Call) : Served :=
  let c := { c with fid := F.lookupfid c.ifcall.fid }
  match c.fid with
  | none => (F, c, .respond Eunknownfid)
  | some i =>
    let f := F.fid i
    if f.omode ≠ closed then (F, c, .respond Ebotch)
    else if ¬ f.isdir then (F, c, .respond Ecreatenondir)
    else
      match if f.file ≠ none then t.permits f.file f.uid else some true with
      | none => (F, c, .fail)
      | some false => (F, c, .respond Eperm)
      | some true => (F, c, handlerOr conf.create Enocreate)

/-- `if(r->ifcall.count > srv->msize - IOHDRSZ) r->ifcall.count = srv->msize - IOHDRSZ` -/
def clamp (msize count : UInt32) : UInt32 := if count > msize - IOHDRSZ then msize - IOHDRSZ else count

def sread (conf : Conf) (t : Tree) (msize : UInt32) (F : Fids) (c : Call) : Served :=
  let c := { c with fid := F.lookupfid c.ifcall.fid }
  match c.fid with
  | none => (F, c, .respond Eunknownfid)
  | some i =>
    let f := F.fid i
    if c.ifcall.count ≥ 0x80000000 then (F, c, .respond Ebotch)
    else if c.ifcall.offset ≥ 0x8000000000000000 ∨
        f.isdir ∧ c.ifcall.offset ≠ 0 ∧ c.ifcall.offset ≠ f.diroffset then (F, c, .respond Ebadoffset)
    else
      let count := clamp msize c.ifcall.count
      let c := { c with
        ifcall := { c.ifcall with count := count }
        ofcall := { c.ofcall with data := some (List.replicate count.toNat 0) } }
      let o := f.omode &&& 3
      if o ≠ OREAD ∧ o ≠ ORDWR ∧ o ≠ OEXEC then (F, c, .respond Ebotch)
      else if f.isdir ∧ f.file ≠ none then
        if ¬ f.rdir then (F, c, .fail) else
        let data := t.readdirfile i count.toNat
        (F, { c with ofcall := { c.ofcall with count := UInt32.ofNat data.length, data := some data } }, .respond none)
      else (F, c, handlerOr conf.read (text "no srv->read"))

/-- `%ux` of a `char` -/
def hex (m : UInt8) : List UInt8 :=
  (Nat.toDigits 16 (if m < 0x80 then m.toNat else m.toNat + 0xffffff00)).map fun c => UInt8.ofNat c.toNat

def swrite (conf : Conf) (msize : UInt32) (F : Fids) (c : Call) : Served :=
  let c := { c with fid := F.lookupfid c.ifcall.fid }
  match c.fid with
  | none => (F, c, .respond Eunknownfid)
  | some i =>
    let f := F.fid i
    if c.ifcall.count ≥ 0x80000000 then (F, c, .respond Ebotch)
    else if c.ifcall.offset ≥ 0x8000000000000000 then (F, c, .respond Ebotch)
    else
      let c := { c with ifcall := { c.ifcall with count := clamp msize c.ifcall.count } }
      let o := f.omode &&& 3
      if o ≠ OWRITE ∧ o ≠ ORDWR then
        (F, c, .respond (snprint (ascii "write on fid with open mode 0x" ++ hex f.omode)))
      else (F, c, handlerOr conf.write (text "no srv->write"))

def sclunk (F : Fids) (c : Call) : Served :=
  let (fid, F) := F.removefid c.ifcall.fid
  (F, { c with fid := fid }, .respond (if fid = none then Eunknownfid else none))

def sremove (conf : Conf) (t : Tree) (F : Fids) (c : Call) : Served :=
  let (fid, F) := F.removefid c.ifcall.fid
  let c := { c with fid := fid }
  match fid with
  | none => (F, c, .respond Eunknownfid)
  | some i =>
    let f := F.fid i
    match f.file with
    | none => (F, c, handlerOr conf.remove Enoremove)
    | some file =>
      match t.permits (t.parent file) f.uid with
      | none => (F, c, .fail)
      | some false => (F, c, .respond Eperm)
      | some true => (F, c, handlerOr conf.remove none)

def sstat (conf : Conf) (t : Tree) (F : Fids) (c : Call) : Served :=
  let c := { c with fid := F.lookupfid c.ifcall.fid }
  match c.fid with
  | none => (F, c, .respond Eunknownfid)
  | some i =>
    match (F.fid i).file with
    | some file => (F, { c with d := t.dir file }, handlerOr conf.stat none)
    | none => (F, c, handlerOr conf.stat Enostat)

/-- The entry a `Twstat` carries, and the count `convM2D` returns. Its strings move within the message, always to
bytes that have been read. -/
def statOf (c : Call) : Nat × Dir Ptr :=
  let buf := c.ifcall.stat.getD []
  let (n, d, strs) := convM2D buf c.ifcall.nstat.toNat default (some ⟨buf, 0⟩)
  (n, d.map fun
    | .nullstring => some []
    | .strs p => strs.map fun area => area.buf.drop p)

def swstat (conf : Conf) (F : Fids) (c : Call) : Served :=
  let c := { c with fid := F.lookupfid c.ifcall.fid }
  match c.fid with
  | none => (F, c, .respond Eunknownfid)
  | some i =>
    if ¬ conf.wstat then (F, c, .respond Enowstat)
    else
      let (n, d) := statOf c
      let c := { c with d := d }
      if n ≠ c.ifcall.nstat.toNat then (F, c, .respond Ebaddir)
      else if ~~~ d.type ≠ 0 then (F, c, .respond (text "wstat -- attempt to change type"))
      else if ~~~ d.dev ≠ 0 then (F, c, .respond (text "wstat -- attempt to change dev"))
      else if ~~~ d.qid.type ≠ 0 ∨ ~~~ d.qid.vers ≠ 0 ∨ ~~~ d.qid.path ≠ 0 then
        (F, c, .respond (text "wstat -- attempt to change qid"))
      else if str d.muid ≠ [] then (F, c, .respond (text "wstat -- attempt to change muid"))
      else if ~~~ d.mode ≠ 0 ∧ (d.mode &&& DMDIR) >>> 24 ≠ ((F.fid i).qid.type &&& QTDIR).toUInt32 then
        (F, c, .respond (text "wstat -- attempt to change DMDIR bit"))
      else (F, c, .handler)

/-- The switch of `srv`, but for `Tflush`. -/
def serve (conf : Conf) (t : Tree) (msize : UInt32) (F : Fids) (c : Call) : FType → Served
  | .Tversion => sversion F c
  | .Tauth => sauth conf F c
  | .Tattach => sattach conf t F c
  | .Twalk => swalk conf t F c
  | .Topen => sopen conf t F c
  | .Tcreate => screate conf t F c
  | .Tread => sread conf t msize F c
  | .Twrite => swrite conf msize F c
  | .Tclunk => sclunk F c
  | .Tremove => sremove conf t F c
  | .Tstat => sstat conf t F c
  | .Twstat => swstat conf F c
  | _ => (F, c, .respond (text "unknown message"))

/-! ## Completing

The functions of `respond` for the type of a request, with the error it was called with in `error`; `none` is for a
nil pointer that is followed. -/

def rauth (F : Fids) (c : Call) : Option Fids :=
  match c.error, c.afid with
  | some _, some i => F.drop (F.fid i).fid
  | _, _ => some F

def rattach (F : Fids) (c : Call) : Option Fids :=
  match c.error, c.fid with
  | some _, some i => F.drop (F.fid i).fid
  | _, _ => some F

def rwalk (F : Fids) (c : Call) : Option (Fids × Call) :=
  if c.error ≠ none ∨ c.ofcall.nwqid < c.ifcall.nwname then
    let F := if c.ifcall.fid ≠ c.ifcall.newfid then c.newfid.elim (some F) fun j => F.drop (F.fid j).fid else some F
    F.map fun F =>
      if c.ofcall.nwqid = 0 then
        (F, if c.error = none ∧ c.ifcall.nwname ≠ 0 then { c with error := Enotfound } else c)
      else (F, { c with error := none }) -- no error on partial walks
  else
    match c.fid, c.newfid with
    | some i, some j =>
      let qid := if c.ofcall.nwqid = 0 then (F.fid i).qid else c.ofcall.wqid (c.ofcall.nwqid.toNat - 1)
      some (F.set j { F.fid j with qid := qid }, c)
    | _, _ => none

def ropen (F : Fids) (c : Call) : Option Fids :=
  match c.error, c.fid with
  | none, some i =>
    let f := { F.fid i with omode := c.ifcall.mode, qid := c.ofcall.qid }
    some (F.set i (if f.isdir then { f with diroffset := 0 } else f))
  | none, none => none
  | some _, _ => some F

def rcreate (F : Fids) (c : Call) : Option Fids :=
  match c.error, c.fid with
  | none, some i => some (F.set i { F.fid i with omode := c.ifcall.mode, qid := c.ofcall.qid })
  | none, none => none
  | some _, _ => some F

def rread (F : Fids) (c : Call) : Option Fids :=
  match c.error, c.fid with
  | none, some i =>
    let f := F.fid i
    some (if f.isdir then F.set i { f with diroffset := f.diroffset + c.ofcall.count.toUInt64 } else F)
  | none, none => none
  | some _, _ => some F

/-- A file's version is the tree's. -/
def rwrite (F : Fids) (c : Call) : Option Fids :=
  match c.error, c.fid with
  | none, none => none
  | _, _ => some F

def rremove (t : Tree) (F : Fids) (c : Call) : Option (Fids × Call) :=
  match c.error, c.fid with
  | none, some i =>
    match (F.fid i).file with
    | none => some (F, c)
    | some file =>
      let c := match t.removefile file with
        | some e =>
          { c with error := snprint (ascii "remove " ++ str (t.dir file).name ++ ascii ": " ++ e) }
        | none => c
      some (F.set i { F.fid i with file := none }, c)
  | none, none => none
  | some _, _ => some (F, c)

/-- With an entry that "fails" it is `closereq` that aborts: `free` has been called for `stat` before. -/
def rstat (c : Call) : Option Call :=
  if c.error ≠ none then some c
  else
    let (m, tmp) := convD2M c.d (List.replicate BIT16SZ 0) BIT16SZ
    if m ≠ BIT16SZ then some { c with error := text "convD2M(_,_,BIT16SZ) did not return BIT16SZ" }
    else
      let n := GBIT16 tmp 0 + BIT16SZ
      let (m, statbuf) := convD2M c.d (List.replicate n 0) n
      let c := { c with ofcall := { c.ofcall with nstat := UInt16.ofNat m, stat := some statbuf } }
      if c.ofcall.nstat.toNat ≤ BIT16SZ then none else some c

/-- The switch of `respond`, but for `Tflush` and `Tversion`; its default fails too. -/
def finishCall (t : Tree) (F : Fids) (c : Call) : FType → Option (Fids × Call)
  | .Tauth => (rauth F c).map (·, c)
  | .Tattach => (rattach F c).map (·, c)
  | .Twalk => rwalk F c
  | .Topen => (ropen F c).map (·, c)
  | .Tcreate => (rcreate F c).map (·, c)
  | .Tread => (rread F c).map (·, c)
  | .Twrite => (rwrite F c).map (·, c)
  | .Tclunk => some (F, c)
  | .Tremove => rremove t F c
  | .Tstat => (rstat c).map (F, ·)
  | .Twstat => some (F, c)
  | _ => none

/-- The `Fcall` that `respond` gives to `convS2M`. -/
def reply (c : Call) : Fcall Ptr :=
  let f := { c.ofcall with tag := c.ifcall.tag, type := c.ifcall.type + 1 }
  if c.error ≠ none then { f with ename := c.error, type := FType.Rerror.code } else f

/-! ## The server -/

/-- `fake` is for a request that is not in the pool. -/
structure Req extends Call where
  fake : Bool
  oldreq : Option Nat
  responded : Bool
  flush : List Nat

inductive Pc
  | unread
  /-- `getreq` has returned it. -/
  | read
  /-- Its handler has it. -/
  | given
  /-- `respond` has been called. -/
  | called
  /-- `rflush` has returned -1. -/
  | parked
  /-- The function for its type has returned. -/
  | completed
  | written
  /-- In the loop over `flush`, with `i`. -/
  | flushing (i : Nat)
  /-- In the call of `respond` there. -/
  | calling (i : Nat)
  | done
  deriving DecidableEq

/-- `loop` is the request that `srv` has not come back from. `out` is the replies that have been written, each with
the `msize` it was built under. `failed` is whether an assertion has failed, `abort` has been called or a nil pointer
has been followed. -/
structure Srv where
  conf : Conf
  msize : UInt32
  wbuf : List UInt8
  n : Nat
  req : Nat → Req
  pc : Nat → Pc
  pool : UInt16 → Option Nat
  fids : Fids
  loop : Option Nat
  out : List (List UInt8 × UInt32)
  failed : Bool

namespace Srv

def goto (s : Srv) (r : Nat) (pc : Pc) : Srv := { s with pc := Function.update s.pc r pc }

def setReq (s : Srv) (r : Nat) (q : Req) : Srv := { s with req := Function.update s.req r q }

def setCall (s : Srv) (r : Nat) (c : Call) : Srv := s.setReq r { s.req r with toCall := c }

def fail (s : Srv) : Srv := { s with failed := true }

/-- `srv` goes on when it comes back from `r`. -/
def back (s : Srv) (r : Nat) : Srv := { s with loop := if s.loop = some r then none else s.loop }

/-- `respond` is called: `assert(r->responded == 0); r->error = error;` -/
def respond (s : Srv) (r : Nat) (error : Ptr) : Srv :=
  if (s.req r).responded then s.fail
  else (s.setReq r { s.req r with error := error }).goto r .called

def changemsize (s : Srv) (msize : UInt32) : Srv :=
  if s.msize = msize then s else { s with msize := msize, wbuf := List.replicate msize.toNat 0 }

def newReq (f : Fcall Ptr) (fake : Bool) : Req :=
  { ifcall := f, ofcall := Fcall.zero none, error := none
    d := ⟨0, 0, ⟨0, 0, 0⟩, 0, 0, 0, 0, none, none, none, none⟩
    fid := none, afid := none, newfid := none, fake := fake, oldreq := none, responded := false, flush := [] }

/-- `getreq`, with the message that `convM2S` has read. -/
def getreq (s : Srv) (f : Fcall Ptr) : Srv :=
  let fake := (s.pool f.tag).isSome
  { s with
    n := s.n + 1
    req := Function.update s.req s.n (newReq f fake)
    pc := Function.update s.pc s.n .read
    pool := if fake then s.pool else Function.update s.pool f.tag (some s.n)
    loop := some s.n }

/-- What comes of the functions that serve. -/
def settle (s : Srv) (r : Nat) : Verdict → Srv
  | .respond error => s.respond r error
  | .handler => (s.goto r .given).back r
  | .sysfatal => s
  | .fail => s.fail

def sflush (s : Srv) (r : Nat) : Srv :=
  let s := s.setReq r { s.req r with oldreq := s.pool (s.req r).ifcall.oldtag }
  if (s.req r).oldreq = none ∨ (s.req r).oldreq = some r then s.respond r none
  else s.settle r (handlerOr s.conf.flush none)

/-- An iteration of the loop of `srv`, past `getreq`. -/
def dispatch (s : Srv) (t : Tree) (r : Nat) : Srv :=
  if (s.req r).fake then s.respond r Eduptag
  else
    match FType.ofCode (s.req r).ifcall.type with
    | some .Tflush => s.sflush r
    | some type =>
      let (F, c, verdict) := serve s.conf t s.msize s.fids (s.req r).toCall type
      ({ s with fids := F }.setCall r c).settle r verdict
    | none => s.respond r (text "unknown message")

def rversion (s : Srv) (r : Nat) : Srv :=
  if (s.req r).error ≠ none then s.fail
  else (s.changemsize (s.req r).ofcall.msize).goto r .completed

def rflush (s : Srv) (r : Nat) : Srv :=
  if (s.req r).error ≠ none then s.fail
  else
    match (s.req r).oldreq with
    | none => s.goto r .completed
    | some o =>
      if (s.req o).responded then (s.setReq r { s.req r with oldreq := none }).goto r .completed
      else ((s.setReq o { s.req o with flush := (s.req o).flush ++ [r] }).goto r .parked).back r

/-- The switch of `respond`. -/
def complete (s : Srv) (t : Tree) (r : Nat) : Srv :=
  match FType.ofCode (s.req r).ifcall.type with
  | some .Tflush => s.rflush r
  | some .Tversion => s.rversion r
  | some type =>
    match finishCall t s.fids (s.req r).toCall type with
    | some (F, c) => ({ s with fids := F }.setCall r c).goto r .completed
    | none => s.fail
  | none => s.fail

/-- With `wlock`: the reply is built, the request leaves the pool and the reply is written. -/
def write (s : Srv) (r : Nat) : Srv :=
  let (n, wbuf) := convS2M (reply (s.req r).toCall) s.wbuf s.msize.toNat
  if n ≤ 0 then s.fail -- abort
  else if ¬ n > 2 then s.fail
  else
    let pool := if (s.req r).fake then s.pool else Function.update s.pool (s.req r).ifcall.tag none
    { s with wbuf := wbuf, pool := pool, out := s.out ++ [(wbuf.take n, s.msize)] }.goto r .written

def mark (s : Srv) (r : Nat) : Srv := (s.setReq r { s.req r with responded := true }).goto r (.flushing 0)

def finish (s : Srv) (r : Nat) : Srv := ((s.setReq r { s.req r with flush := [] }).goto r .done).back r

end Srv

/-- What a handler that responds correctly leaves: the fids, strings that fit their count, no error for a `Tflush`, no
more qids than there were names, and as much data as it says. -/
structure Answers (c c' : Call) : Prop where
  ifcall : c'.ifcall = c.ifcall
  fid : c'.fid = c.fid
  newfid : c'.newfid = c.newfid
  error : ∀ e, c'.error = some e → strlen e < 2 ^ 16
  flush : c.ifcall.type = FType.Tflush.code → c'.error = none
  nwqid : c.ifcall.type = FType.Twalk.code → c'.ofcall.nwqid ≤ c.ifcall.nwname
  data : c.ifcall.type = FType.Tread.code → c'.error = none → c'.ofcall.count.toNat ≤ (c'.ofcall.data.getD []).length

/-- What the tree and `walk1` and `clone` may say. A file on a `filelist` has not been removed, nor has a directory
with a file. -/
structure Tree.Fits (t : Tree) : Prop where
  parent : ∀ f d, t.parent f = some d → t.parent d ≠ none
  child : ∀ d elem f, t.child d elem = some f → t.parent f ≠ none
  readdirfile : ∀ i n, (t.readdirfile i n).length ≤ n
  walk1 : ∀ f name e, (t.walk1 f name).1 = some e → strlen e < 2 ^ 16
  clone : ∀ f f' e, t.clone f f' = some e → strlen e < 2 ^ 16

inductive Act
  | message (t : Tree) (f : Fcall Ptr)
  | answer (r : Nat)
  /-- A step of a call of `respond`. -/
  | go (r : Nat)
  | write (r : Nat)

/-- `srv` has set `msize`, and its buffers. -/
structure Srv.Init (s : Srv) : Prop where
  n : s.n = 0
  wbuf : s.wbuf.length = s.msize.toNat
  pc : ∀ r, s.pc r = .unread
  req : ∀ r, (s.req r).responded = false ∧ (s.req r).flush = []
  pool : ∀ t, s.pool t = none
  loop : s.loop = none
  out : s.out = []
  failed : s.failed = false

/-- A message that `read9pmsg` has read is at most `msize` bytes. The handler's step takes any fids it leaves. -/
inductive Srv.Step : Srv → Act → Srv → Prop
  | message {s : Srv} {t : Tree} {buf buf' : List UInt8} {a : Place buf.length} {f₀ f : Fcall Off} : s.loop = none → t.Fits →
      buf.length ≤ s.msize.toNat → convM2S a.addr buf buf.length f₀ = some (buf.length, f, buf') →
      Step s (.message t (f.deref buf')) ((s.getreq (f.deref buf')).dispatch t s.n)
  | answer {s : Srv} {r : Nat} {c : Call} {fid : Nat → Fid} : s.pc r = .given → Answers (s.req r).toCall c →
      Step s (.answer r) ((({ s with fids := { s.fids with fid := fid } }).setCall r c).respond r c.error)
  | complete {s : Srv} {t : Tree} {r : Nat} : s.pc r = .called → t.Fits → Step s (.go r) (s.complete t r)
  | write {s : Srv} {r : Nat} : s.pc r = .completed → Step s (.write r) (s.write r)
  | mark {s : Srv} {r : Nat} : s.pc r = .written → Step s (.go r) (s.mark r)
  | next {s : Srv} {r f i : Nat} : s.pc r = .flushing i → (s.req r).flush[i]? = some f →
      Step s (.go r) ((s.goto r (.calling i)).respond f none)
  | back {s : Srv} {r f i : Nat} : s.pc r = .calling i → (s.req r).flush[i]? = some f →
      s.pc f = .parked ∨ s.pc f = .done → Step s (.go r) (s.goto r (.flushing (i + 1)))
  | finish {s : Srv} {r i : Nat} : s.pc r = .flushing i → (s.req r).flush.length ≤ i → Step s (.go r) (s.finish r)

end Plan9.Lib9p.Serve
