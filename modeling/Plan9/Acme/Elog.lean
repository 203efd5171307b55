/-
The log of the changes that editing commands make, `elog.c`: a change waits to be merged with the next,
and is then a record at the end of `elogbuf`. In the end the records are applied to the text, the last first.

An `int` is what it is as a `uint`, which is how the places are compared, and `nr` is the length of `r`. What pads a
record is 0. `elogbuf`, the text and its transcripts are four of the buffers on the disk, and `seq` is the global one,
of the group that the changes will be. Warnings and what else belongs to a text are left out: its selection, the other
texts of the file, `editclean`, and what has been typed and is not in the file yet.
-/
import Plan9.Acme.FileRuns

namespace Plan9.Acme

open List

def Elog.Empty : UInt16 := 0

def Null : UInt16 := 45

def Replace : UInt16 := 114

def Minstring : UInt32 := 16

def Maxstring : UInt32 := .ofNat RBUFSIZE

structure Elog where
  type : UInt16
  q0 : UInt32
  nd : UInt32
  r : List Rune

structure Buflog where
  type : UInt16
  q0 : UInt32
  nd : UInt32
  nr : UInt32

def Buflogsize : Nat := 4

/-- The structure as runes. -/
def Buflog.runes (b : Buflog) : List Rune := [b.type.toUInt32, b.q0, b.nd, b.nr]

def Buflog.ofRunes : List Rune → Buflog
  | [a, q0, nd, nr] => ⟨a.toUInt16, q0, nd, nr⟩
  | _ => ⟨0, 0, 0, 0⟩

/-- A file with its log. -/
structure Logging where
  file : File
  elog : Elog
  elogbuf : Nat

def eloginit (l : Logging) : Editing Logging :=
  if l.elog.type ≠ Elog.Empty then pure l
  else do
    let _ ← call (.reset l.elogbuf)
    return { l with elog := { l.elog with type := Null } }

def elogreset (l : Logging) : Logging := { l with elog := { l.elog with type := Null, nd := 0, r := [] } }

def elogterm (l : Logging) : Editing Logging := do
  let l := elogreset l
  let _ ← call (.reset l.elogbuf)
  return { l with elog := { l.elog with type := Elog.Empty } }

def Elog.buflog (e : Elog) : Buflog := ⟨e.type, e.q0, e.nd, .ofNat e.r.length⟩

/-- The `switch` of `elogflush`. -/
def elogput (e : Elog) (log : Nat) : Editing Unit :=
  if e.type = Insert ∨ e.type = Replace then do
    if e.r.length > 0 then bufappend log e.r
    bufappend log e.buflog.runes
  else if e.type = Delete then bufappend log e.buflog.runes
  else pure ()

def elogflush (l : Logging) : Editing Logging := do
  elogput l.elog l.elogbuf
  return elogreset l

def elogreplace (l : Logging) (q0 q1 : UInt32) (r : List Rune) : Editing Logging :=
  if q0 = q1 ∧ r = [] then pure l
  else do
    let l ← eloginit l
    let l ← (if l.elog.type ≠ Null ∧ q0 < l.elog.q0 then elogflush l else pure l)
    -- try to merge with previous
    let e := l.elog
    let gap := q0 - (e.q0 + e.nd)
    if e.type = Replace ∧ UInt32.ofNat e.r.length + gap + .ofNat r.length < Maxstring ∧ gap < Minstring then
      let s ← (if gap > 0 then call (.read l.file.body (e.q0 + e.nd).toNat gap.toNat) else pure [])
      return { l with elog := { e with nd := e.nd + (gap + q1 - q0), r := e.r ++ s ++ r } }
    else
      let l ← elogflush l
      if RBUFSIZE < r.length then error "internal error: replacement string too large" -- editerror
      else return { l with elog := ⟨Replace, q0, q1 - q0, r⟩ }

/-- The loop of `eloginsert`. A time round takes a rune at least, so as many rounds as there are runes are enough. -/
def eloginsertLoop (q0 : UInt32) : Nat → Logging → List Rune → Editing Logging
  | _, l, [] => pure l
  | 0, _, _ :: _ => error "eloginsert"
  | fuel + 1, l, r => do
    let l ← elogflush l
    eloginsertLoop q0 fuel { l with elog := { l.elog with type := Insert, q0 := q0, r := r.take RBUFSIZE } }
      (r.drop RBUFSIZE)

def eloginsert (l : Logging) (q0 : UInt32) (r : List Rune) : Editing Logging :=
  if r = [] then pure l
  else do
    let l ← eloginit l
    let l ← (if l.elog.type ≠ Null ∧ q0 < l.elog.q0 then elogflush l else pure l)
    -- try to merge with previous
    if l.elog.type = Insert ∧ q0 = l.elog.q0 ∧ UInt32.ofNat l.elog.r.length + .ofNat r.length < Maxstring then
      return { l with elog := { l.elog with r := l.elog.r ++ r } }
    else eloginsertLoop q0 r.length l r

def elogdelete (l : Logging) (q0 q1 : UInt32) : Editing Logging :=
  if q0 = q1 then pure l
  else do
    let l ← eloginit l
    let l ← (if l.elog.type ≠ Null ∧ q0 < l.elog.q0 + l.elog.nd then elogflush l else pure l)
    -- try to merge with previous
    if l.elog.type = Delete ∧ l.elog.q0 + l.elog.nd = q0 then
      return { l with elog := { l.elog with nd := l.elog.nd + (q1 - q0) } }
    else
      let l ← elogflush l
      return { l with elog := { l.elog with type := Delete, q0 := q0, nd := q1 - q0 } }

/-! ## Applying -/

def textinsert (f : File) (q0 : Nat) (r : List Rune) : Editing File := if r = [] then pure f else fileinsert f q0 r

def textdelete (f : File) (q0 q1 : Nat) : Editing File := if q1 = q0 then pure f else filedelete f q0 q1

def textconstrain (f : File) (q0 q1 : UInt32) : Editing (Nat × Nat) := do
  let dnc ← nc f.body
  return (min q0.toNat dnc, min q1.toNat dnc)

/-- The loops of `elogapply` that insert the `nr` runes at `up` of the log, from the `i`th on. -/
def elogcopy (log up nr tq0 : Nat) : Nat → Nat → File → Editing File
  | fuel, i, f =>
    if i < nr then
      match fuel with
      | 0 => error "elogapply"
      | fuel + 1 => do
        let n := min (nr - i) RBUFSIZE
        let buf ← call (.read log (up + i) n)
        let f ← textinsert f (tq0 + i) buf
        elogcopy log up nr tq0 fuel (i + n) f
    else pure f

/-- The `switch` of `elogapply`, with the record at `up`: the file, and where what belongs to the record begins. -/
def elogrecord (log : Nat) (seq : UInt32) (mod : Bool) (f : File) (b : Buflog) (up : Nat) : Editing (File × Nat) :=
  if b.type = Replace then do
    let f ← (if mod then pure f else filemark f seq)
    let (tq0, tq1) ← textconstrain f b.q0 (b.q0 + b.nd)
    let f ← textdelete f tq0 tq1
    let up := up - b.nr.toNat
    let f ← elogcopy log up b.nr.toNat tq0 b.nr.toNat 0 f
    return (f, up)
  else if b.type = Delete then do
    let f ← (if mod then pure f else filemark f seq)
    let (tq0, tq1) ← textconstrain f b.q0 (b.q0 + b.nd)
    let f ← textdelete f tq0 tq1
    return (f, up)
  else if b.type = Insert then do
    let f ← (if mod then pure f else filemark f seq)
    let (tq0, _) ← textconstrain f b.q0 b.q0
    let up := up - b.nr.toNat
    let f ← elogcopy log up b.nr.toNat tq0 b.nr.toNat 0 f
    return (f, up)
  else error "elogapply" -- abort

/-- The loop of `elogapply`. A record is taken off each time round, so a round more than there are runes is enough. -/
def elogLoop (log : Nat) (seq : UInt32) : Nat → Bool → File → Editing File
  | 0, _, _ => error "elogapply"
  | fuel + 1, mod, f => do
    let dnc ← nc log
    if dnc = 0 then return f
    let up := dnc - Buflogsize
    let r ← call (.read log up Buflogsize)
    let (f, up) ← elogrecord log seq mod f (Buflog.ofRunes r) up
    let dnc ← nc log
    let _ ← call (.delete log up dnc)
    elogLoop log seq fuel true f

def elogapply (l : Logging) (seq : UInt32) : Editing Logging := do
  let l ← elogflush l
  let dnc ← nc l.elogbuf
  let f ← elogLoop l.elogbuf seq (dnc + 1) false l.file
  elogterm { l with file := f }

/-- What `allupdate` does with the log when the commands are done. -/
def allupdate (l : Logging) (seq : UInt32) : Editing Logging :=
  if l.elog.type = Null then elogterm l else if l.elog.type ≠ Elog.Empty then elogapply l seq else pure l

/-! ## The commands -/

/-- A call of one of the functions for the log. -/
inductive Elogcall
  | insert (q0 : UInt32) (r : List Rune)
  | delete (q0 q1 : UInt32)
  | replace (q0 q1 : UInt32) (r : List Rune)

def Elogcall.run (l : Logging) : Elogcall → Editing Logging
  | .insert q0 r => eloginsert l q0 r
  | .delete q0 q1 => elogdelete l q0 q1
  | .replace q0 q1 r => elogreplace l q0 q1 r

/-- The calls, of which the last one is the first. -/
def logged (l : Logging) : List Elogcall → Editing Logging
  | [] => pure l
  | c :: cs => do
    let l ← logged l cs
    c.run l

/-- The calls for a file that nothing is logged of, and their changes. -/
def edited (f : File) (elogbuf : Nat) (seq : UInt32) (calls : List Elogcall) : Editing Logging := do
  let l ← logged ⟨f, ⟨Elog.Empty, 0, 0, []⟩, elogbuf⟩ calls
  allupdate l seq

end Plan9.Acme
