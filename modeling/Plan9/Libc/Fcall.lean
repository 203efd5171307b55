/-
9P messages, as `fcall.h`, `convS2M.c` and `convM2S.c` in libc's `9sys` have
them: the `Fcall` structure, its size, and the two converters.

A message buffer is the list of its bytes and a pointer into it an offset from
its start, up to 2³². Pointers have 32 bits and `Place` says where the buffer is:
64 kilobytes above it are still memory, so only a count of four bytes can take a
pointer past the end, where it wraps. In an
`Fcall` the pointer fields are of a type `P`. What `convS2M` reads through is
`Ptr`: nil, or the memory from the pointer on. What `convM2S` leaves is an
offset into the buffer it was given, whose strings it has moved down a byte to
make room for their terminators; `Fcall.deref` reads such an `Fcall` against
the buffer.

The union in `Fcall` is not modelled: the fields one message type uses are all
in one of its structures, so no message reads a field another overwrote.
-/
import Plan9.Lib.Cursor

namespace Plan9.Libc

open Bytes Cursor

def BIT8SZ : Nat := 1
def BIT16SZ : Nat := 2
def BIT32SZ : Nat := 4
def BIT64SZ : Nat := 8
def QIDSZ : Nat := BIT8SZ + BIT32SZ + BIT64SZ
def MAXWELEM : Nat := 16

/-! ## The byte macros -/

def GBIT8 (buf : List UInt8) (p : Nat) : Nat := (byteAt buf p).toNat

def GBIT16 (buf : List UInt8) (p : Nat) : Nat :=
  (byteAt buf p).toNat ||| (byteAt buf (p + 1)).toNat <<< 8

def GBIT32 (buf : List UInt8) (p : Nat) : Nat :=
  (byteAt buf p).toNat ||| (byteAt buf (p + 1)).toNat <<< 8 ||| (byteAt buf (p + 2)).toNat <<< 16 |||
    (byteAt buf (p + 3)).toNat <<< 24

def GBIT64 (buf : List UInt8) (p : Nat) : Nat := GBIT32 buf p ||| GBIT32 buf (p + 4) <<< 32

def PBIT8 (v : Nat) : List UInt8 := [UInt8.ofNat v]

def PBIT16 (v : Nat) : List UInt8 := [UInt8.ofNat v, UInt8.ofNat (v >>> 8)]

def PBIT32 (v : Nat) : List UInt8 :=
  [UInt8.ofNat v, UInt8.ofNat (v >>> 8), UInt8.ofNat (v >>> 16), UInt8.ofNat (v >>> 24)]

def PBIT64 (v : Nat) : List UInt8 :=
  [UInt8.ofNat v, UInt8.ofNat (v >>> 8), UInt8.ofNat (v >>> 16), UInt8.ofNat (v >>> 24),
   UInt8.ofNat (v >>> 32), UInt8.ofNat (v >>> 40), UInt8.ofNat (v >>> 48), UInt8.ofNat (v >>> 56)]

/-! ## Fcall -/

structure Qid where
  path : UInt64
  vers : UInt32
  type : UInt8
  deriving DecidableEq, Repr, Inhabited

/-- The message types the converters' switches have a case for. `Terror` is not one. -/
inductive FType
  | Tversion | Rversion | Tauth | Rauth | Tattach | Rattach | Rerror | Tflush | Rflush
  | Twalk | Rwalk | Topen | Ropen | Tcreate | Rcreate | Tread | Rread | Twrite | Rwrite
  | Tclunk | Rclunk | Tremove | Rremove | Tstat | Rstat | Twstat | Rwstat
  deriving DecidableEq, Repr

def FType.code : FType → UInt8
  | .Tversion => 100 | .Rversion => 101
  | .Tauth => 102 | .Rauth => 103
  | .Tattach => 104 | .Rattach => 105
  | .Rerror => 107
  | .Tflush => 108 | .Rflush => 109
  | .Twalk => 110 | .Rwalk => 111
  | .Topen => 112 | .Ropen => 113
  | .Tcreate => 114 | .Rcreate => 115
  | .Tread => 116 | .Rread => 117
  | .Twrite => 118 | .Rwrite => 119
  | .Tclunk => 120 | .Rclunk => 121
  | .Tremove => 122 | .Rremove => 123
  | .Tstat => 124 | .Rstat => 125
  | .Twstat => 126 | .Rwstat => 127

def FType.all : List FType :=
  [.Tversion, .Rversion, .Tauth, .Rauth, .Tattach, .Rattach, .Rerror, .Tflush, .Rflush, .Twalk,
   .Rwalk, .Topen, .Ropen, .Tcreate, .Rcreate, .Tread, .Rread, .Twrite, .Rwrite, .Tclunk, .Rclunk,
   .Tremove, .Rremove, .Tstat, .Rstat, .Twstat, .Rwstat]

/-- The case a type byte selects; `none` is the switch's default. -/
def FType.ofCode (b : UInt8) : Option FType := FType.all.find? fun t => t.code == b

/-- `offset` is a `vlong`, kept as its 64 bits. The arrays `wname` and `wqid` are functions of the
index. -/
structure Fcall (P : Type) where
  type : UInt8
  fid : UInt32
  tag : UInt16
  msize : UInt32
  version : P
  oldtag : UInt16
  ename : P
  qid : Qid
  iounit : UInt32
  aqid : Qid
  afid : UInt32
  uname : P
  aname : P
  perm : UInt32
  name : P
  mode : UInt8
  newfid : UInt32
  nwname : UInt16
  wname : Nat → P
  nwqid : UInt16
  wqid : Nat → Qid
  offset : UInt64
  count : UInt32
  data : P
  nstat : UInt16
  stat : P

/-- A pointer to be read through: nil, or the memory from it on. -/
abbrev Ptr := Option (List UInt8)

/-- A pointer into a message buffer. -/
abbrev Off := Option Nat

def strlen (s : List UInt8) : Nat := (cstr s).length

/-! ## convS2M -/

def pstring (c : Cur) : Ptr → Cur
  | none => c.put (PBIT16 0)
  | some s =>
    let n := strlen s
    -- the string moves before its length is stored
    let buf := store c.buf (c.p + BIT16SZ) (s.take n)
    ⟨store buf c.p (PBIT16 n), c.p + (n + BIT16SZ)⟩

def pqid (c : Cur) (q : Qid) : Cur :=
  let c := c.put (PBIT8 q.type.toNat)
  let c := c.put (PBIT32 q.vers.toNat)
  c.put (PBIT64 q.path.toNat)

/-- `memmove(p, data, n); p += n` -/
def pdata (c : Cur) (data : Ptr) (n : Nat) : Cur := ⟨store c.buf c.p ((data.getD []).take n), c.p + n⟩

def stringsz : Ptr → Nat
  | none => BIT16SZ
  | some s => BIT16SZ + strlen s

/-- What each case of `sizeS2M` adds to the header's size. -/
def bodysz (f : Fcall Ptr) : FType → Nat
  | .Tversion => BIT32SZ + stringsz f.version
  | .Tflush => BIT16SZ
  | .Tauth => BIT32SZ + stringsz f.uname + stringsz f.aname
  | .Tattach => BIT32SZ + BIT32SZ + stringsz f.uname + stringsz f.aname
  | .Twalk =>
    BIT32SZ + BIT32SZ + BIT16SZ + ((List.range f.nwname.toNat).map fun i => stringsz (f.wname i)).sum
  | .Topen => BIT32SZ + BIT8SZ
  | .Tcreate => BIT32SZ + stringsz f.name + BIT32SZ + BIT8SZ
  | .Tread => BIT32SZ + BIT64SZ + BIT32SZ
  | .Twrite => BIT32SZ + BIT64SZ + BIT32SZ + f.count.toNat
  | .Tclunk | .Tremove => BIT32SZ
  | .Tstat => BIT32SZ
  | .Twstat => BIT32SZ + BIT16SZ + f.nstat.toNat
  | .Rversion => BIT32SZ + stringsz f.version
  | .Rerror => stringsz f.ename
  | .Rflush => 0
  | .Rauth => QIDSZ
  | .Rattach => QIDSZ
  | .Rwalk => BIT16SZ + f.nwqid.toNat * QIDSZ
  | .Ropen | .Rcreate => QIDSZ + BIT32SZ
  | .Rread => BIT32SZ + f.count.toNat
  | .Rwrite => BIT32SZ
  | .Rclunk => 0
  | .Rremove => 0
  | .Rstat => BIT16SZ + f.nstat.toNat
  | .Rwstat => 0

/-- The size before it is cut to a `uint`. -/
def fullsz (f : Fcall Ptr) (t : FType) : Nat := BIT32SZ + BIT8SZ + BIT16SZ + bodysz f t

def sizeS2M (f : Fcall Ptr) : Nat :=
  match FType.ofCode f.type with
  | none => 0
  | some t => fullsz f t % 2 ^ 32

/-- The loops of `convS2M`. -/
def pnames (c : Cur) (wname : Nat → Ptr) (n : Nat) : Cur :=
  (List.range n).foldl (fun c i => pstring c (wname i)) c

def pqids (c : Cur) (wqid : Nat → Qid) (n : Nat) : Cur :=
  (List.range n).foldl (fun c i => pqid c (wqid i)) c

/-- The cases of `convS2M`'s switch; `false` is a `return 0` inside one. -/
def putBody (f : Fcall Ptr) (c : Cur) : FType → Bool × Cur
  | .Tversion =>
    let c := c.put (PBIT32 f.msize.toNat)
    (true, pstring c f.version)
  | .Tflush => (true, c.put (PBIT16 f.oldtag.toNat))
  | .Tauth =>
    let c := c.put (PBIT32 f.afid.toNat)
    let c := pstring c f.uname
    (true, pstring c f.aname)
  | .Tattach =>
    let c := c.put (PBIT32 f.fid.toNat)
    let c := c.put (PBIT32 f.afid.toNat)
    let c := pstring c f.uname
    (true, pstring c f.aname)
  | .Twalk =>
    let c := c.put (PBIT32 f.fid.toNat)
    let c := c.put (PBIT32 f.newfid.toNat)
    let c := c.put (PBIT16 f.nwname.toNat)
    if f.nwname.toNat > MAXWELEM then (false, c)
    else (true, pnames c f.wname f.nwname.toNat)
  | .Topen =>
    let c := c.put (PBIT32 f.fid.toNat)
    (true, c.put (PBIT8 f.mode.toNat))
  | .Tcreate =>
    let c := c.put (PBIT32 f.fid.toNat)
    let c := pstring c f.name
    let c := c.put (PBIT32 f.perm.toNat)
    (true, c.put (PBIT8 f.mode.toNat))
  | .Tread =>
    let c := c.put (PBIT32 f.fid.toNat)
    let c := c.put (PBIT64 f.offset.toNat)
    (true, c.put (PBIT32 f.count.toNat))
  | .Twrite =>
    let c := c.put (PBIT32 f.fid.toNat)
    let c := c.put (PBIT64 f.offset.toNat)
    let c := c.put (PBIT32 f.count.toNat)
    (true, pdata c f.data f.count.toNat)
  | .Tclunk | .Tremove => (true, c.put (PBIT32 f.fid.toNat))
  | .Tstat => (true, c.put (PBIT32 f.fid.toNat))
  | .Twstat =>
    let c := c.put (PBIT32 f.fid.toNat)
    let c := c.put (PBIT16 f.nstat.toNat)
    (true, pdata c f.stat f.nstat.toNat)
  | .Rversion =>
    let c := c.put (PBIT32 f.msize.toNat)
    (true, pstring c f.version)
  | .Rerror => (true, pstring c f.ename)
  | .Rflush => (true, c)
  | .Rauth => (true, pqid c f.aqid)
  | .Rattach => (true, pqid c f.qid)
  | .Rwalk =>
    let c := c.put (PBIT16 f.nwqid.toNat)
    if f.nwqid.toNat > MAXWELEM then (false, c)
    else (true, pqids c f.wqid f.nwqid.toNat)
  | .Ropen | .Rcreate =>
    let c := pqid c f.qid
    (true, c.put (PBIT32 f.iounit.toNat))
  | .Rread =>
    let c := c.put (PBIT32 f.count.toNat)
    (true, pdata c f.data f.count.toNat)
  | .Rwrite => (true, c.put (PBIT32 f.count.toNat))
  | .Rclunk => (true, c)
  | .Rremove => (true, c)
  | .Rstat =>
    let c := c.put (PBIT16 f.nstat.toNat)
    (true, pdata c f.stat f.nstat.toNat)
  | .Rwstat => (true, c)

/-- The count returned and the buffer left. -/
def convS2M (f : Fcall Ptr) (ap : List UInt8) (nap : Nat) : Nat × List UInt8 :=
  let size := sizeS2M f
  if size = 0 then (0, ap)
  else if size > nap then (0, ap)
  else
    let c : Cur := ⟨ap, 0⟩
    let c := c.put (PBIT32 size)
    let c := c.put (PBIT8 f.type.toNat)
    let c := c.put (PBIT16 f.tag.toNat)
    match FType.ofCode f.type with
    | none => (0, c.buf)
    | some t =>
      match putBody f c t with
      | (false, c) => (0, c.buf)
      | (true, c) => if size ≠ c.p then (0, c.buf) else (size, c.buf)

/-- Where a buffer of `nap` bytes is. -/
structure Place (nap : Nat) where
  addr : Nat
  room : addr + nap + 2 ^ 16 ≤ 2 ^ 32

def Place.shrink {m n : Nat} (a : Place n) (h : m ≤ n) : Place m := ⟨a.addr, by have := a.room; omega⟩

def g8 : Get UInt8 := fun c => some (UInt8.ofNat (GBIT8 c.buf c.p), ⟨c.buf, c.p + BIT8SZ⟩)
def g16 : Get UInt16 := fun c => some (UInt16.ofNat (GBIT16 c.buf c.p), ⟨c.buf, c.p + BIT16SZ⟩)
def g32 : Get UInt32 := fun c => some (UInt32.ofNat (GBIT32 c.buf c.p), ⟨c.buf, c.p + BIT32SZ⟩)
def g64 : Get UInt64 := fun c => some (UInt64.ofNat (GBIT64 c.buf c.p), ⟨c.buf, c.p + BIT64SZ⟩)

def gstring (ep : Nat) : Get Off := fun c =>
  if c.p + BIT16SZ > ep then none
  else
    let n := GBIT16 c.buf c.p
    let p := c.p + (BIT16SZ - 1)
    if p + n + 1 > ep then none
    else
      -- move it down, on top of count, to make room for '\0'
      let buf := store c.buf p (load c.buf (p + 1) n)
      let buf := store buf (p + n) [0]
      some (some p, ⟨buf, p + (n + 1)⟩)

def gqid (ep : Nat) : Get Qid := do
  need ep QIDSZ
  let type ← g8
  let vers ← g32
  let path ← g64
  return { path, vers, type }

/-- `if(p+n > ep) return 0; f->data = p; p += n;` in a buffer at `a`. -/
def gdata (a ep n : Nat) : Get Off := fun c =>
  if (a + c.p + n) % 2 ^ 32 > a + ep then none else some (some c.p, ⟨c.buf, (c.p + n) % 2 ^ 32⟩)

/-- The loops of `convM2S`, from index `i` for `n` more elements. -/
def gnames (ep : Nat) : Nat → Nat → (Nat → Off) → Get (Nat → Off)
  | 0, _, w => pure w
  | n + 1, i, w => do
    let s ← gstring ep
    gnames ep n (i + 1) (Function.update w i s)

def gqids (ep : Nat) : Nat → Nat → (Nat → Qid) → Get (Nat → Qid)
  | 0, _, w => pure w
  | n + 1, i, w => do
    let q ← gqid ep
    gqids ep n (i + 1) (Function.update w i q)

/-- `if(n > MAXWELEM) return 0;` -/
def atMost (n : Nat) : Get Unit := fun c => if n > MAXWELEM then none else some ((), c)

/-- The cases of `convM2S`'s switch. -/
def getBody (a ep : Nat) (f : Fcall Off) : FType → Get (Fcall Off)
  | .Tversion | .Rversion => do
    need ep BIT32SZ
    let msize ← g32
    let version ← gstring ep
    return { f with msize, version }
  | .Tflush => do
    need ep BIT16SZ
    let oldtag ← g16
    return { f with oldtag }
  | .Tauth => do
    need ep BIT32SZ
    let afid ← g32
    let uname ← gstring ep
    let aname ← gstring ep
    return { f with afid, uname, aname }
  | .Tattach => do
    need ep BIT32SZ
    let fid ← g32
    need ep BIT32SZ
    let afid ← g32
    let uname ← gstring ep
    let aname ← gstring ep
    return { f with fid, afid, uname, aname }
  | .Twalk => do
    need ep (BIT32SZ + BIT32SZ + BIT16SZ)
    let fid ← g32
    let newfid ← g32
    let nwname ← g16
    atMost nwname.toNat
    let wname ← gnames ep nwname.toNat 0 f.wname
    return { f with fid, newfid, nwname, wname }
  | .Topen => do
    need ep (BIT32SZ + BIT8SZ)
    let fid ← g32
    let mode ← g8
    return { f with fid, mode }
  | .Tcreate => do
    need ep BIT32SZ
    let fid ← g32
    let name ← gstring ep
    need ep (BIT32SZ + BIT8SZ)
    let perm ← g32
    let mode ← g8
    return { f with fid, name, perm, mode }
  | .Tread => do
    need ep (BIT32SZ + BIT64SZ + BIT32SZ)
    let fid ← g32
    let offset ← g64
    let count ← g32
    return { f with fid, offset, count }
  | .Twrite => do
    need ep (BIT32SZ + BIT64SZ + BIT32SZ)
    let fid ← g32
    let offset ← g64
    let count ← g32
    let data ← gdata a ep count.toNat
    return { f with fid, offset, count, data }
  | .Tclunk | .Tremove | .Tstat => do
    need ep BIT32SZ
    let fid ← g32
    return { f with fid }
  | .Twstat => do
    need ep (BIT32SZ + BIT16SZ)
    let fid ← g32
    let nstat ← g16
    let stat ← gdata a ep nstat.toNat
    return { f with fid, nstat, stat }
  | .Rerror => do
    let ename ← gstring ep
    return { f with ename }
  | .Rflush | .Rclunk | .Rremove | .Rwstat => return f
  | .Rauth => do
    let aqid ← gqid ep
    return { f with aqid }
  | .Rattach => do
    let qid ← gqid ep
    return { f with qid }
  | .Rwalk => do
    need ep BIT16SZ
    let nwqid ← g16
    atMost nwqid.toNat
    let wqid ← gqids ep nwqid.toNat 0 f.wqid
    return { f with nwqid, wqid }
  | .Ropen | .Rcreate => do
    let qid ← gqid ep
    need ep BIT32SZ
    let iounit ← g32
    return { f with qid, iounit }
  | .Rread => do
    need ep BIT32SZ
    let count ← g32
    let data ← gdata a ep count.toNat
    return { f with count, data }
  | .Rwrite => do
    need ep BIT32SZ
    let count ← g32
    return { f with count }
  | .Rstat => do
    need ep BIT16SZ
    let nstat ← g16
    let stat ← gdata a ep nstat.toNat
    return { f with nstat, stat }

/-- The count returned, the `Fcall` filled in and the buffer left, which is at `a`; `none` is a return of 0. -/
def convM2S (a : Nat) (ap : List UInt8) (nap : Nat) (f : Fcall Off) : Option (Nat × Fcall Off × List UInt8) :=
  let ep := nap
  if BIT32SZ + BIT8SZ + BIT16SZ > ep then none
  else
    let size := GBIT32 ap 0
    if size < BIT32SZ + BIT8SZ + BIT16SZ then none
    else
      let type := UInt8.ofNat (GBIT8 ap BIT32SZ)
      let tag := UInt16.ofNat (GBIT16 ap (BIT32SZ + BIT8SZ))
      match FType.ofCode type with
      | none => none
      | some t =>
        match getBody a ep { f with type, tag } t ⟨ap, BIT32SZ + BIT8SZ + BIT16SZ⟩ with
        | none => none
        | some (f, c) =>
          if (a + c.p) % 2 ^ 32 > a + ep then none
          else if size = c.p then some (size, f, c.buf)
          else none

/-- Every pointer of `f` read against `buf`. -/
def Fcall.deref (f : Fcall Off) (buf : List UInt8) : Fcall Ptr :=
  let rd : Off → Ptr := Option.map buf.drop
  { f with
    version := rd f.version, ename := rd f.ename, uname := rd f.uname, aname := rd f.aname
    name := rd f.name, wname := fun i => rd (f.wname i), data := rd f.data, stat := rd f.stat }

end Plan9.Libc
