/-
Printing a quoted string of runes, as `fmt/fmtquote.c` in libc has it, and what
`quoterunestrdup` makes of the same string.

What a formatter puts down is bytes of UTF or runes, as it was set up; here both are
numbers, all of them in the order they came, flushed or not. `stop - to` is the room that is
left, and a flush leaves as much as the file's buffer has. The machine is little-endian: the byte
at a rune is its low one.
-/
import Plan9.Libc.QuoteFacts

namespace Plan9.Libc

open Bytes CInt List Option

def Runeself : Nat := 0x80

structure Fmt where
  runes : Bool
  width : Int
  /-- with `FmtPrec` -/
  prec : Option Int
  /-- `FmtLeft` -/
  left : Bool
  /-- `FmtSharp` -/
  sharp : Bool
  /-- `stop - to` -/
  room : Nat
  /-- The room there is after a flush, when there is a function for it. -/
  flush : Option Nat
  out : List Nat
  deriving DecidableEq, Repr

/-- What is put down for a rune. -/
def units (runes : Bool) (c : Rune) : List Nat :=
  if runes then [c.toNat]
  else if c.toNat < Runeself then [c.toNat]
  else (runetochar c).2.map UInt8.toNat

/-- `FMTRCHAR` and `FMTRUNE`; `none` is `return -1`. -/
def Fmt.put (f : Fmt) (c : Rune) : Option Fmt :=
  let u := units f.runes c
  if u.length ≤ f.room then some { f with room := f.room - u.length, out := f.out ++ u }
  else
    match f.flush with
    | none => none
    | some size => if u.length ≤ size then some { f with room := size - u.length, out := f.out ++ u } else none

/-- `_fmtpad` and `_rfmtpad` -/
def Fmt.pad (f : Fmt) (n : Int) : Option Fmt := (List.replicate n.toNat 0x20).foldlM Fmt.put f

def text (runes : Bool) (rs : List Rune) : List Nat := rs.flatMap (units runes)

/-- `f` after `t` is put down. -/
structure Puts (f : Fmt) (t : List Nat) (f' : Fmt) : Prop where
  out : f'.out = f.out ++ t
  runes : f'.runes = f.runes
  flush : f'.flush = f.flush
  room : f.flush = none → f'.room + t.length = f.room

theorem Puts.refl (f : Fmt) : Puts f [] f := ⟨(append_nil _).symm, rfl, rfl, fun _ => rfl⟩

theorem Puts.trans {f f' f'' : Fmt} {t u : List Nat} (h : Puts f t f') (h' : Puts f' u f'') : Puts f (t ++ u) f'' := by
  refine ⟨?_, h'.runes.trans h.runes, h'.flush.trans h.flush, fun hflush => ?_⟩
  · rw [h'.out, h.out, append_assoc]
  have := h.room hflush
  have := h'.room (h.flush.trans hflush)
  rw [length_append]
  omega

/-- There is room for `n` more. -/
def Fmt.Room (f : Fmt) (n : Nat) : Prop := (f.flush = none → n ≤ f.room) ∧ ∀ size, f.flush = some size → UTFmax ≤ size

theorem Puts.Room {f f' : Fmt} {t : List Nat} {n : Nat} (h : Puts f t f') (hroom : f.Room (t.length + n)) : f'.Room n := by
  refine ⟨fun hflush => ?_, fun size hflush => hroom.2 size (h.flush.symm.trans hflush)⟩
  have hnone := h.flush.symm.trans hflush
  have := h.room hnone
  have := hroom.1 hnone
  omega

/-- What limits the output. -/
def Quoteinfo.count (q : Quoteinfo) (runes : Bool) : Int := if runes then q.nrunesout else q.nbytesout

section

variable {doquote : Option (Rune → Bool)} {nout : Int} {runes : Bool} {c : Rune} {q : Quoteinfo}

end

section

variable {doquote : Option (Rune → Bool)} {nout : Int} {runes : Bool}

variable {r : List Rune}

end

/-! ## quoterunestrfmt -/

end Plan9.Libc
