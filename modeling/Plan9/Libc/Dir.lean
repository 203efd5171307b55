/-
Directory entries, as `convM2D.c`, `convD2M.c` and `dirread.c` in libc's `9sys`
have them: the check, the two converters, and `dirpackage`, which unpacks what
one read of a directory returned.

Buffers and pointers are as in `Plan9.Libc.Fcall`; the argument `&buf[i]` is the
memory from `i` on, which may go on past the end of what was read. The block
`dirpackage` allocates is its Dirs and, after them, the area for their strings.
Its counts are naturals: a `long` holds them for any buffer that fits in memory
beside the block.
-/
import Plan9.Libc.Fcall

namespace Plan9.Libc

open Bytes Cursor

/-- With the leading 16-bit count. -/
def STATFIXLEN : Nat := BIT16SZ + QIDSZ + 5 * BIT16SZ + 4 * BIT32SZ + 1 * BIT64SZ

/-- `length` is a `vlong`, kept as its 64 bits. The string fields are of a type `P`. -/
structure Dir (P : Type) where
  type : UInt16
  dev : UInt32
  qid : Qid
  mode : UInt32
  atime : UInt32
  mtime : UInt32
  length : UInt64
  name : P
  uid : P
  gid : P
  muid : P
  deriving DecidableEq, Repr, Inhabited

def Dir.map {P Q : Type} (f : P → Q) (d : Dir P) : Dir Q :=
  { type := d.type, dev := d.dev, qid := d.qid, mode := d.mode, atime := d.atime, mtime := d.mtime,
    length := d.length, name := f d.name, uid := f d.uid, gid := f d.gid, muid := f d.muid }

/-- `sv`, in the order the converters fill it. -/
def Dir.sv {P : Type} (d : Dir P) : List P := [d.name, d.uid, d.gid, d.muid]

/-! ## statcheck -/

/-- The loop of `statcheck` for `n` more strings; `none` is its `return -1`. -/
def skipStrs (buf : List UInt8) (ebuf : Nat) : Nat → Nat → Option Nat
  | 0, p => some p
  | n + 1, p =>
    if p + BIT16SZ > ebuf then none
    else skipStrs buf ebuf n (p + (BIT16SZ + GBIT16 buf p))

def statcheck (buf : List UInt8) (nbuf : Nat) : Int :=
  if nbuf < STATFIXLEN ∨ nbuf ≠ BIT16SZ + GBIT16 buf 0 then -1
  else
    match skipStrs buf nbuf 4 (STATFIXLEN - 4 * BIT16SZ) with
    | none => -1
    | some p => if p ≠ nbuf then -1 else 0

/-! ## convM2D -/

/-- Where a string of a Dir is: the static `nullstring`, or an offset in the area `strs` points to. -/
inductive StrPtr
  | nullstring
  | strs (p : Nat)
  deriving DecidableEq, Repr, Inhabited

/-- The fields before the strings. -/
def getFixed {P : Type} (buf : List UInt8) (d : Dir P) : Dir P :=
  let p := 0
  let p := p + BIT16SZ -- ignore size
  let type := UInt16.ofNat (GBIT16 buf p)
  let p := p + BIT16SZ
  let dev := UInt32.ofNat (GBIT32 buf p)
  let p := p + BIT32SZ
  let qtype := UInt8.ofNat (GBIT8 buf p)
  let p := p + BIT8SZ
  let vers := UInt32.ofNat (GBIT32 buf p)
  let p := p + BIT32SZ
  let path := UInt64.ofNat (GBIT64 buf p)
  let p := p + BIT64SZ
  let mode := UInt32.ofNat (GBIT32 buf p)
  let p := p + BIT32SZ
  let atime := UInt32.ofNat (GBIT32 buf p)
  let p := p + BIT32SZ
  let mtime := UInt32.ofNat (GBIT32 buf p)
  let p := p + BIT32SZ
  let length := UInt64.ofNat (GBIT64 buf p)
  { d with type, dev, qid := { type := qtype, vers, path }, mode, atime, mtime, length }

/-- The loop of `convM2D` for `n` more strings: where it stops (`none` is its `return 0`), the `sv`
it has filled, and the string area. -/
def getStrs (buf : List UInt8) (ebuf : Nat) :
    Nat → Nat → List StrPtr → Option Cur → Option Nat × List StrPtr × Option Cur
  | 0, p, sv, strs => (some p, sv, strs)
  | n + 1, p, sv, strs =>
    if p + BIT16SZ > ebuf then (none, sv, strs)
    else
      let ns := GBIT16 buf p
      let p := p + BIT16SZ
      if p + ns > ebuf then (none, sv, strs)
      else
        match strs with
        | none => getStrs buf ebuf n (p + ns) sv none
        | some c =>
          let mem := store c.buf c.p (load buf p ns)
          let mem := store mem (c.p + ns) [0]
          getStrs buf ebuf n (p + ns) (sv ++ [.strs c.p]) (some ⟨mem, c.p + ns + 1⟩)

/-- The count returned, the Dir left in `d`, and the string area with `strs` where it stopped.
`strs` may be nil. -/
def convM2D (buf : List UInt8) (nbuf : Nat) (d : Dir StrPtr) (strs : Option Cur) :
    Nat × Dir StrPtr × Option Cur :=
  if nbuf < STATFIXLEN then (0, d, strs)
  else
    let d := getFixed buf d
    match getStrs buf nbuf 4 (STATFIXLEN - 4 * BIT16SZ) [] strs with
    | (none, _, strs) => (0, d, strs)
    | (some p, sv, some c) =>
      (p, { d with name := sv.getD 0 default, uid := sv.getD 1 default, gid := sv.getD 2 default,
                   muid := sv.getD 3 default }, some c)
    | (some p, _, none) =>
      (p, { d with name := .nullstring, uid := .nullstring, gid := .nullstring, muid := .nullstring }, none)

/-! ## convD2M -/

/-- `nsv[i]` -/
def nsv : Ptr → Nat
  | none => 0
  | some s => strlen s

def sizeD2M (d : Dir Ptr) : Nat := STATFIXLEN + (d.sv.map nsv).sum

/-- `PBIT16(p, ns); p += BIT16SZ; if(ns) memmove(p, sv[i], ns); p += ns;` -/
def putStr (c : Cur) (s : Ptr) : Cur :=
  let ns := nsv s
  let c := c.put (PBIT16 ns)
  let buf := if ns ≠ 0 then store c.buf c.p ((s.getD []).take ns) else c.buf
  ⟨buf, c.p + ns⟩

/-- The loop of `convD2M`; `false` is its `return 0`. -/
def putStrs (ebuf : Nat) : List Ptr → Cur → Bool × Cur
  | [], c => (true, c)
  | s :: sv, c => if c.p + nsv s + BIT16SZ > ebuf then (false, c) else putStrs ebuf sv (putStr c s)

/-- The count returned and the buffer left. -/
def convD2M (d : Dir Ptr) (buf : List UInt8) (nbuf : Nat) : Nat × List UInt8 :=
  if nbuf < BIT16SZ then (0, buf)
  else
    let c : Cur := ⟨buf, 0⟩
    let ss := STATFIXLEN + (d.sv.map nsv).sum
    -- the size is set before the error, so that the caller can know how much is needed
    let c := c.put (PBIT16 (ss - BIT16SZ))
    if ss > nbuf then (BIT16SZ, c.buf)
    else
      let c := c.put (PBIT16 d.type.toNat)
      let c := c.put (PBIT32 d.dev.toNat)
      let c := c.put (PBIT8 d.qid.type.toNat)
      let c := c.put (PBIT32 d.qid.vers.toNat)
      let c := c.put (PBIT64 d.qid.path.toNat)
      let c := c.put (PBIT32 d.mode.toNat)
      let c := c.put (PBIT32 d.atime.toNat)
      let c := c.put (PBIT32 d.mtime.toNat)
      let c := c.put (PBIT64 d.length.toNat)
      match putStrs nbuf d.sv c with
      | (false, c) => (0, c.buf)
      | (true, c) => if ss ≠ c.p then (0, c.buf) else (c.p, c.buf)

/-- What `convD2M` leaves in a buffer of the size `sizeD2M` asks for. -/
def Dir.stat (d : Dir Ptr) : List UInt8 := (convD2M d (List.replicate (sizeD2M d) 0) (sizeD2M d)).2

/-! ## dirpackage -/

/-- What `*d` points to: the Dirs, then the strings. -/
structure Block where
  dirs : List (Dir StrPtr)
  strs : List UInt8
  deriving DecidableEq, Repr

/-- `malloc(n * sizeof(Dir) + ss)`: nil, or a block of that size with anything in it. -/
abbrev Malloc := (n ss : Nat) → Option { b : Block // b.dirs.length = n ∧ b.strs.length = ss }

/-- The first loop, which counts the entries and sizes their strings: `i`, `n` and `ss` where it stops. -/
def countStats (buf : List UInt8) (ts i n ss : Nat) : Nat × Nat × Nat :=
  if i < ts then
    let m := BIT16SZ + GBIT16 (buf.drop i) 0
    if statcheck (buf.drop i) m < 0 then (i, n, ss)
    else countStats buf ts (i + m) (n + 1) (ss + m)
  else (i, n, ss)
termination_by ts - i
decreasing_by simp only [BIT16SZ]; omega

/-- The second loop, which converts them. -/
def convStats (buf : List UInt8) (ts n i nn s : Nat) (b : Block) : Int × Option Block :=
  if i < ts then
    let m := BIT16SZ + GBIT16 (buf.drop i) 0
    if nn ≥ n then (-1, none)
    else
      let (r, d, strs) := convM2D (buf.drop i) m (b.dirs.getD nn default) (some ⟨b.strs, s⟩)
      if r ≠ m then (-1, none)
      else convStats buf ts n (i + m) (nn + 1) (s + m) ⟨b.dirs.set nn d, (strs.map Cur.buf).getD b.strs⟩
  else (nn, some b)
termination_by ts - i
decreasing_by simp only [BIT16SZ]; omega

/-- The count returned and `*d`. -/
def dirpackage (malloc : Malloc) (buf : List UInt8) (ts : Int) : Int × Option Block :=
  if ts ≤ 0 then (0, none)
  else
    let (i, n, ss) := countStats buf ts.toNat 0 0 0
    if i ≠ ts.toNat then (-1, none)
    else
      match malloc n ss with
      | none => (-1, none)
      | some b => convStats buf ts.toNat n 0 0 0 b

/-- The string at a pointer of a Dir, in the string area of its block. -/
def StrPtr.get (area : List UInt8) : StrPtr → List UInt8
  | .nullstring => []
  | .strs p => cstr (area.drop p)

/-- The Dirs at `*d`, with their strings read. -/
def Block.list : Option Block → List (Dir (List UInt8))
  | none => []
  | some b => b.dirs.map (Dir.map (StrPtr.get b.strs))

end Plan9.Libc
