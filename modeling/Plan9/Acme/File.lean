/-
acme's files, as `file.c` has them: a text with a name, and the transcript of what has
been done to it, from which it is undone and done again.

The transcripts `delta` and `epsilon` are buffers themselves, read backwards: an `Undo` is
four runes, and what it has to say more stands before it. A file's buffers are three of
those on the disk (`World`); a program on them that finds what cannot be is the end of
acme. `q0` and `q1` are what `fileundo` says of where the last change is. What a file's
windows show, and where it is on the disk of the user, is left out.
-/
import Plan9.Acme.DiskSpace
import Plan9.Lib.Within

namespace Plan9.Acme

/-- The temporary file and all buffers. -/
structure World where
  disk : Disk
  buf : Nat → Buffer

def World.size (w : World) : Nat := w.disk.addr

abbrev Editing := Growing World.size String

/-- acme's `error`. -/
def error {α : Type} (s : String) : Editing α := Growing.fail s

/-- A call of one of the functions of `buff.c`. -/
def call (op : Op) : Editing (List Rune) where
  run w :=
    match op.call w.disk (w.buf op.buf) with
    | .ok (d, b, s) => (.ok s, ⟨d, Function.update w.buf op.buf b⟩)
    | .error e => (.error e, w)
  grows := by
    intro w
    have hkeeps := call_keeps (d := w.disk) (b := w.buf op.buf) (fun _ => True) op
    cases hcall : op.call w.disk (w.buf op.buf) with
    | error e => exact Nat.le_refl _
    | ok x => exact (hkeeps.of_ok hcall).addr

/-- `b->nc` -/
def nc (i : Nat) : Editing Nat := ⟨fun w => (.ok (w.buf i).nc, w), fun _ => Nat.le_refl _⟩

/-- `bufinsert(b, b->nc, s, n)` -/
def bufappend (i : Nat) (s : List Rune) : Editing Unit := do
  let dnc ← nc i
  let _ ← call (.insert i dnc s)

def BUFSIZE : Nat := Maxblock + 24

def RBUFSIZE : Nat := BUFSIZE / 4

/-! ## Records of the transcript -/

structure Undo where
  type : UInt16
  mod : UInt16
  seq : UInt32
  p0 : UInt32
  n : UInt32
  deriving DecidableEq, Repr

def Undosize : Nat := 4

def Delete : UInt16 := 100

def Insert : UInt16 := 105

def Filename : UInt16 := 102

/-- The structure as runes. -/
def Undo.runes (u : Undo) : List Rune := [UInt32.ofNat (u.type.toNat + 2 ^ 16 * u.mod.toNat), u.seq, u.p0, u.n]

def Undo.ofRunes : List Rune → Undo
  | [a, seq, p0, n] => ⟨UInt16.ofNat (a.toNat % 2 ^ 16), UInt16.ofNat (a.toNat / 2 ^ 16), seq, p0, n⟩
  | _ => ⟨0, 0, 0, 0, 0⟩

/-- The buffers are `body`, `delta` and `epsilon`. -/
structure File where
  body : Nat
  delta : Nat
  epsilon : Nat
  name : List Rune
  unread : Bool
  seq : Int32
  mod : Bool

/-- `u.mod`, of what is `TRUE` or `FALSE`. -/
def modbit (mod : Bool) : UInt16 := if mod then 1 else 0

/-! ## What is recorded -/

def fileuninsert (f : File) (delta p0 ns : Nat) : Editing Unit := do
  -- undo an insertion by deleting
  let u : Undo := ⟨Delete, modbit f.mod, f.seq.toUInt32, .ofNat p0, .ofNat ns⟩
  bufappend delta u.runes

/-- The loop of `fileundelete`, from `i` on. A time round copies a rune at least, so as many rounds as there are runes
are enough. -/
def copyLoop (f : File) (delta p1 : Nat) : Nat → Nat → Editing Unit
  | fuel, i =>
    if i < p1 then
      match fuel with
      | 0 => error "fileundelete"
      | fuel + 1 => do
        let n := min (p1 - i) RBUFSIZE
        let buf ← call (.read f.body i n)
        bufappend delta buf
        copyLoop f delta p1 fuel (i + n)
    else pure ()

def fileundelete (f : File) (delta p0 p1 : Nat) : Editing Unit := do
  -- undo a deletion by inserting
  let u : Undo := ⟨Insert, modbit f.mod, f.seq.toUInt32, .ofNat p0, .ofNat (p1 - p0)⟩
  copyLoop f delta p1 (p1 - p0) p0
  bufappend delta u.runes

def fileunsetname (f : File) (delta : Nat) : Editing Unit := do
  -- undo a file name change by restoring old name
  let u : Undo := ⟨Filename, modbit f.mod, f.seq.toUInt32, 0, .ofNat f.name.length⟩
  if f.name.length ≠ 0 then
    bufappend delta f.name
  bufappend delta u.runes

/-! ## Changes -/

def fileinsert (f : File) (p0 : Nat) (s : List Rune) : Editing File := do
  if p0 > (← nc f.body) then error "internal error: fileinsert"
  if f.seq > 0 then fileuninsert f f.delta p0 s.length
  let _ ← call (.insert f.body p0 s)
  return (if s.length ≠ 0 then { f with mod := true } else f)

def filedelete (f : File) (p0 p1 : Nat) : Editing File := do
  let dnc ← nc f.body
  if ¬ (p0 ≤ p1 ∧ p0 ≤ dnc ∧ p1 ≤ dnc) then error "internal error: filedelete"
  if f.seq > 0 then fileundelete f f.delta p0 p1
  let _ ← call (.delete f.body p0 p1)
  return (if p1 > p0 then { f with mod := true } else f)

def filesetname (f : File) (name : List Rune) : Editing File := do
  if f.seq > 0 then fileunsetname f f.delta
  return { f with name := name, unread := true }

/-! ## Undo and redo -/

/-- The loop of `fileundo` that inserts what has been deleted: `n` runes at `up` of `delta`, from the `i`th on. -/
def reinsertLoop (f : File) (delta up p0 n : Nat) : Nat → Nat → Editing Unit
  | fuel, i =>
    if i < n then
      match fuel with
      | 0 => error "fileundo"
      | fuel + 1 => do
        let m := min (n - i) RBUFSIZE
        let buf ← call (.read delta (up + i) m)
        let _ ← call (.insert f.body (p0 + i) buf)
        reinsertLoop f delta up p0 n fuel (i + m)
    else pure ()

/-- The `switch` of `fileundo`, with the record at `up`: the file, where what belongs to the record begins, and `q0`
and `q1`. -/
def undoRecord (f : File) (delta epsilon : Nat) (u : Undo) (up q0 q1 : Nat) : Editing (File × Nat × Nat × Nat) :=
  if u.type = Delete then do
    let f := { f with seq := u.seq.toInt32 }
    fileundelete f epsilon u.p0.toNat (u.p0 + u.n).toNat
    let f := { f with mod := u.mod ≠ 0 }
    let _ ← call (.delete f.body u.p0.toNat (u.p0 + u.n).toNat)
    return (f, up, u.p0.toNat, u.p0.toNat)
  else if u.type = Insert then do
    let f := { f with seq := u.seq.toInt32 }
    fileuninsert f epsilon u.p0.toNat u.n.toNat
    let f := { f with mod := u.mod ≠ 0 }
    let up := up - u.n.toNat
    reinsertLoop f delta up u.p0.toNat u.n.toNat u.n.toNat 0
    return (f, up, u.p0.toNat, (u.p0 + u.n).toNat)
  else if u.type = Filename then do
    let f := { f with seq := u.seq.toInt32 }
    fileunsetname f epsilon
    let f := { f with mod := u.mod ≠ 0 }
    let up := up - u.n.toNat
    let name ← call (.read delta up u.n.toNat)
    return ({ f with name := name }, up, q0, q1)
  else error ("undo: 0x" ++ String.ofList (Nat.toDigits 16 u.type.toNat))

/-- The loop of `fileundo`. A record is taken off each time round, so a round more than there are runes is enough. -/
def undoLoop (isundo : Bool) (delta epsilon : Nat) : Nat → File → UInt32 → Nat → Nat → Editing (File × Nat × Nat)
  | 0, _, _, _, _ => error "fileundo"
  | fuel + 1, f, stop, q0, q1 => do
    let dnc ← nc delta
    if dnc = 0 then return (if isundo then { f with seq := 0 } else f, q0, q1)
    let up := dnc - Undosize
    let r ← call (.read delta up Undosize)
    let u := Undo.ofRunes r
    -- a redo doesn't know yet where to stop
    let stop := if isundo = false ∧ stop = 0 then u.seq else stop
    if isundo = true ∧ u.seq < stop then return ({ f with seq := u.seq.toInt32 }, q0, q1)
    if isundo = false ∧ u.seq > stop then return (f, q0, q1)
    let (f, up, q0, q1) ← undoRecord f delta epsilon u up q0 q1
    let dnc ← nc delta
    let _ ← call (.delete delta up dnc)
    undoLoop isundo delta epsilon fuel f stop q0 q1

def fileundo (f : File) (isundo : Bool) (q0 q1 : Nat) : Editing (File × Nat × Nat) :=
  if isundo then do
    -- undo; reverse delta onto epsilon, seq decreases
    let dnc ← nc f.delta
    undoLoop true f.delta f.epsilon (dnc + 1) f f.seq.toUInt32 q0 q1
  else do
    -- redo; reverse epsilon onto delta, seq increases
    let dnc ← nc f.epsilon
    undoLoop false f.epsilon f.delta (dnc + 1) f 0 q0 q1

def filereset (f : File) : Editing File := do
  let _ ← call (.reset f.delta)
  let _ ← call (.reset f.epsilon)
  return { f with seq := 0 }

/-- A group of changes begins, with the sequence number `seq`. -/
def filemark (f : File) (seq : UInt32) : Editing File := do
  let dnc ← nc f.epsilon
  if dnc ≠ 0 then
    let _ ← call (.delete f.epsilon 0 dnc)
  return { f with seq := seq.toInt32 }

end Plan9.Acme
