/-
9P messages as the protocol has them, apart from the C structure that carries
one: a tag and, for each message type, its own fields, with strings and data as
values. `Msg.wire` is the encoding: size, type, tag, then the fields in order,
numbers little-endian, strings counted by two bytes and data by four (`stat` by
two).

`Fcall.msg` is the message an `Fcall` stands for: the fields its type carries,
a nil string being the empty one and `data` the first `count` bytes there.
-/
import Plan9.Libc.Fcall

namespace Plan9.Libc

open Bytes

/-- The fields of each message type. -/
inductive Body
  | Tversion (msize : UInt32) (version : List UInt8)
  | Rversion (msize : UInt32) (version : List UInt8)
  | Tauth (afid : UInt32) (uname aname : List UInt8)
  | Rauth (aqid : Qid)
  | Tattach (fid afid : UInt32) (uname aname : List UInt8)
  | Rattach (qid : Qid)
  | Rerror (ename : List UInt8)
  | Tflush (oldtag : UInt16)
  | Rflush
  | Twalk (fid newfid : UInt32) (wname : List (List UInt8))
  | Rwalk (wqid : List Qid)
  | Topen (fid : UInt32) (mode : UInt8)
  | Ropen (qid : Qid) (iounit : UInt32)
  | Tcreate (fid : UInt32) (name : List UInt8) (perm : UInt32) (mode : UInt8)
  | Rcreate (qid : Qid) (iounit : UInt32)
  | Tread (fid : UInt32) (offset : UInt64) (count : UInt32)
  | Rread (data : List UInt8)
  | Twrite (fid : UInt32) (offset : UInt64) (data : List UInt8)
  | Rwrite (count : UInt32)
  | Tclunk (fid : UInt32)
  | Rclunk
  | Tremove (fid : UInt32)
  | Rremove
  | Tstat (fid : UInt32)
  | Rstat (stat : List UInt8)
  | Twstat (fid : UInt32) (stat : List UInt8)
  | Rwstat
  deriving DecidableEq, Repr

structure Msg where
  tag : UInt16
  body : Body
  deriving DecidableEq, Repr

def Body.type : Body → FType
  | .Tversion .. => .Tversion | .Rversion .. => .Rversion
  | .Tauth .. => .Tauth | .Rauth .. => .Rauth
  | .Tattach .. => .Tattach | .Rattach .. => .Rattach
  | .Rerror .. => .Rerror
  | .Tflush .. => .Tflush | .Rflush => .Rflush
  | .Twalk .. => .Twalk | .Rwalk .. => .Rwalk
  | .Topen .. => .Topen | .Ropen .. => .Ropen
  | .Tcreate .. => .Tcreate | .Rcreate .. => .Rcreate
  | .Tread .. => .Tread | .Rread .. => .Rread
  | .Twrite .. => .Twrite | .Rwrite .. => .Rwrite
  | .Tclunk .. => .Tclunk | .Rclunk => .Rclunk
  | .Tremove .. => .Tremove | .Rremove => .Rremove
  | .Tstat .. => .Tstat | .Rstat .. => .Rstat
  | .Twstat .. => .Twstat | .Rwstat => .Rwstat

/-! ## The wire -/

def wire8 (v : UInt8) : List UInt8 := leBytes 1 v.toNat
def wire16 (v : UInt16) : List UInt8 := leBytes 2 v.toNat
def wire32 (v : UInt32) : List UInt8 := leBytes 4 v.toNat
def wire64 (v : UInt64) : List UInt8 := leBytes 8 v.toNat

/-- A string: its count, then its bytes. -/
def wireStr (s : List UInt8) : List UInt8 := leBytes 2 s.length ++ s

def wireQid (q : Qid) : List UInt8 := wire8 q.type ++ (wire32 q.vers ++ wire64 q.path)

def Body.wire : Body → List UInt8
  | .Tversion msize version | .Rversion msize version => wire32 msize ++ wireStr version
  | .Tauth afid uname aname => wire32 afid ++ (wireStr uname ++ wireStr aname)
  | .Rauth aqid => wireQid aqid
  | .Tattach fid afid uname aname => wire32 fid ++ (wire32 afid ++ (wireStr uname ++ wireStr aname))
  | .Rattach qid => wireQid qid
  | .Rerror ename => wireStr ename
  | .Tflush oldtag => wire16 oldtag
  | .Twalk fid newfid wname =>
    wire32 fid ++ (wire32 newfid ++ (leBytes 2 wname.length ++ wname.flatMap wireStr))
  | .Rwalk wqid => leBytes 2 wqid.length ++ wqid.flatMap wireQid
  | .Topen fid mode => wire32 fid ++ wire8 mode
  | .Ropen qid iounit | .Rcreate qid iounit => wireQid qid ++ wire32 iounit
  | .Tcreate fid name perm mode => wire32 fid ++ (wireStr name ++ (wire32 perm ++ wire8 mode))
  | .Tread fid offset count => wire32 fid ++ (wire64 offset ++ wire32 count)
  | .Rread data => leBytes 4 data.length ++ data
  | .Twrite fid offset data => wire32 fid ++ (wire64 offset ++ (leBytes 4 data.length ++ data))
  | .Rwrite count => wire32 count
  | .Tclunk fid | .Tremove fid | .Tstat fid => wire32 fid
  | .Rstat stat => leBytes 2 stat.length ++ stat
  | .Twstat fid stat => wire32 fid ++ (leBytes 2 stat.length ++ stat)
  | .Rflush | .Rclunk | .Rremove | .Rwstat => []

/-- The size a message announces: itself, the type, the tag and the fields. -/
def Msg.size (m : Msg) : Nat := 4 + 1 + 2 + m.body.wire.length

def Msg.head (m : Msg) : List UInt8 := leBytes 4 m.size ++ (wire8 m.body.type.code ++ wire16 m.tag)

def Msg.wire (m : Msg) : List UInt8 := m.head ++ m.body.wire

/-- The strings a message carries. -/
def Body.strings : Body → List (List UInt8)
  | .Tversion _ version | .Rversion _ version => [version]
  | .Tauth _ uname aname | .Tattach _ _ uname aname => [uname, aname]
  | .Rerror ename => [ename]
  | .Twalk _ _ wname => wname
  | .Tcreate _ name _ _ => [name]
  | _ => []

/-- Every count fits its field. -/
def Body.Ok (b : Body) : Prop :=
  (∀ s ∈ b.strings, s.length < 2 ^ 16) ∧
  match b with
  | .Twalk _ _ wname => wname.length ≤ MAXWELEM
  | .Rwalk wqid => wqid.length ≤ MAXWELEM
  | .Rread data | .Twrite _ _ data => data.length < 2 ^ 32
  | .Rstat stat | .Twstat _ stat => stat.length < 2 ^ 16
  | _ => True

structure Msg.Ok (m : Msg) : Prop where
  body : m.body.Ok
  size : m.size < 2 ^ 32

/-! ## The message an Fcall stands for -/

/-- The string at a pointer; nil is the empty one. -/
def str (s : Ptr) : List UInt8 := (s.map cstr).getD []

/-- The first `n` bytes at a pointer. -/
def bytes (s : Ptr) (n : Nat) : List UInt8 := (s.getD []).take n

def Fcall.body (f : Fcall Ptr) : FType → Body
  | .Tversion => .Tversion f.msize (str f.version)
  | .Rversion => .Rversion f.msize (str f.version)
  | .Tauth => .Tauth f.afid (str f.uname) (str f.aname)
  | .Rauth => .Rauth f.aqid
  | .Tattach => .Tattach f.fid f.afid (str f.uname) (str f.aname)
  | .Rattach => .Rattach f.qid
  | .Rerror => .Rerror (str f.ename)
  | .Tflush => .Tflush f.oldtag
  | .Rflush => .Rflush
  | .Twalk => .Twalk f.fid f.newfid ((List.range f.nwname.toNat).map fun i => str (f.wname i))
  | .Rwalk => .Rwalk ((List.range f.nwqid.toNat).map f.wqid)
  | .Topen => .Topen f.fid f.mode
  | .Ropen => .Ropen f.qid f.iounit
  | .Tcreate => .Tcreate f.fid (str f.name) f.perm f.mode
  | .Rcreate => .Rcreate f.qid f.iounit
  | .Tread => .Tread f.fid f.offset f.count
  | .Rread => .Rread (bytes f.data f.count.toNat)
  | .Twrite => .Twrite f.fid f.offset (bytes f.data f.count.toNat)
  | .Rwrite => .Rwrite f.count
  | .Tclunk => .Tclunk f.fid
  | .Rclunk => .Rclunk
  | .Tremove => .Tremove f.fid
  | .Rremove => .Rremove
  | .Tstat => .Tstat f.fid
  | .Rstat => .Rstat (bytes f.stat f.nstat.toNat)
  | .Twstat => .Twstat f.fid (bytes f.stat f.nstat.toNat)
  | .Rwstat => .Rwstat

/-- The message `f` stands for, when its type is one of the protocol's. -/
def Fcall.msg (f : Fcall Ptr) : Option Msg :=
  (FType.ofCode f.type).map fun t => ⟨f.tag, f.body t⟩

/-- The string fields a message type carries. -/
def Fcall.strings {P : Type} (f : Fcall P) : FType → List P
  | .Tversion | .Rversion => [f.version]
  | .Tauth | .Tattach => [f.uname, f.aname]
  | .Rerror => [f.ename]
  | .Twalk => (List.range f.nwname.toNat).map f.wname
  | .Tcreate => [f.name]
  | _ => []

/-- The counted string of a message that `convM2S` left a pointer to: the pointer is at the count's
second byte, where the string moves to. -/
def counted (ap : List UInt8) : Off → List UInt8
  | none => []
  | some a => load ap (a + 1) (GBIT16 ap (a - 1))

/-- An `Fcall` as `memset` clears it. -/
def Fcall.zero {P : Type} (nil : P) : Fcall P :=
  { type := 0, fid := 0, tag := 0, msize := 0, version := nil, oldtag := 0, ename := nil, qid := ⟨0, 0, 0⟩
    iounit := 0, aqid := ⟨0, 0, 0⟩, afid := 0, uname := nil, aname := nil, perm := 0, name := nil, mode := 0
    newfid := 0, nwname := 0, wname := fun _ => nil, nwqid := 0, wqid := fun _ => ⟨0, 0, 0⟩, offset := 0
    count := 0, data := nil, nstat := 0, stat := nil }

/-! ## Lengths and types -/

@[simp] theorem ofCode_code (t : FType) : FType.ofCode t.code = some t := by cases t <;> rfl

theorem ofCode_eq_some {b : UInt8} {t : FType} (h : FType.ofCode b = some t) : t.code = b := by
  simpa using List.find?_some h

@[simp] theorem length_wire8 (v : UInt8) : (wire8 v).length = 1 := by simp [wire8]
@[simp] theorem length_wire16 (v : UInt16) : (wire16 v).length = 2 := by simp [wire16]
@[simp] theorem length_wire32 (v : UInt32) : (wire32 v).length = 4 := by simp [wire32]
@[simp] theorem length_wire64 (v : UInt64) : (wire64 v).length = 8 := by simp [wire64]
@[simp] theorem length_wireStr (s : List UInt8) : (wireStr s).length = 2 + s.length := by simp [wireStr]
@[simp] theorem length_wireQid (q : Qid) : (wireQid q).length = 13 := by simp [wireQid]
@[simp] theorem length_head (m : Msg) : m.head.length = 7 := by simp [Msg.head]

@[simp] theorem length_wire (m : Msg) : m.wire.length = m.size := by
  simp only [Msg.wire, List.length_append, length_head, Msg.size]

@[simp] theorem body_type (f : Fcall Ptr) (t : FType) : (f.body t).type = t := by cases t <;> rfl

@[simp] theorem deref_type (f : Fcall Off) (buf : List UInt8) : (f.deref buf).type = f.type := rfl
@[simp] theorem deref_tag (f : Fcall Off) (buf : List UInt8) : (f.deref buf).tag = f.tag := rfl

theorem msg_type {f : Fcall Ptr} {m : Msg} (h : f.msg = some m) : m.body.type.code = f.type := by
  simp only [Fcall.msg, Option.map_eq_some_iff] at h
  obtain ⟨t, ht, rfl⟩ := h
  simp [ofCode_eq_some ht]

end Plan9.Libc
