/-
Quoting and tokenizing, as `port/quote.c`, `fmt/fmtquote.c` and
`port/tokenize.c` in libc have them.

`_quotesetup` counts what quoting a string makes of it, in bytes and in runes;
`quotestrdup` allocates by that count and copies byte by byte; `tokenize` takes
the quotes out again in place. The counts are `int`s and wrap, and what
`malloc` gets is a `uintptr` of 64 bits, with the sign of the count. A string argument is
the memory from the pointer on; positions in the string that `tokenize` overwrites are offsets.
-/
import Plan9.Lib.CInt
import Plan9.Libc.Rune

namespace Plan9.Libc

open Bytes CInt

/-! ## _quotesetup -/

structure Quoteinfo where
  quoted : Bool
  nrunesin : Int
  nbytesin : Int
  nrunesout : Int
  nbytesout : Int
  deriving DecidableEq, Repr

/-- The string to be quoted: UTF at `s`, or runes at `r`. -/
inductive QuoteSrc
  | s (mem : List UInt8)
  | r (mem : List Rune)

/-- `*s=='\0'`, or `*r=='\0'` -/
def QuoteSrc.atEnd : QuoteSrc → Bool
  | .s mem => byteAt mem 0 = 0
  | .r mem => mem.getD 0 0 = 0

/-- The next rune and its width in bytes. -/
def QuoteSrc.next : QuoteSrc → Rune × Nat
  | .s mem => chartorune mem
  | .r mem => (mem.getD 0 0, (runetochar (mem.getD 0 0)).1)

def QuoteSrc.advance : QuoteSrc → Nat → QuoteSrc
  | .s mem, w => .s (mem.drop w)
  | .r mem, _ => .r (mem.drop 1)

/-- The bytes or runes of the memory that are left. -/
def QuoteSrc.size : QuoteSrc → Nat
  | .s mem => mem.length
  | .r mem => mem.length

/-- `(c <= L' ') || (c == L'\'') || (doquote!=nil && doquote(c))` -/
def quotable (doquote : Option (Rune → Bool)) (c : Rune) : Bool :=
  c ≤ 0x20 || c = 0x27 || (doquote.map (· c)).getD false

/-- The middle of a round, for a rune that has to be quoted; `false` is a `break`. -/
def quoteSpecial (nout : Int) (runesout : Bool) (c : Rune) (w : Nat) (q : Quoteinfo) : Bool × Quoteinfo :=
  let room :=
    if q.quoted then true
    else if runesout then int32 (1 + q.nrunesout + 1 + 1) ≤ nout
    else int32 (1 + q.nbytesout + w + 1) ≤ nout
  if ¬ room then (false, q)
  else
    let q := if q.quoted then q else
      { q with nrunesout := int32 (q.nrunesout + 2), nbytesout := int32 (q.nbytesout + 2), quoted := true }
    if c = 0x27 then
      let room := if runesout then int32 (1 + q.nrunesout + 1) ≤ nout else int32 (1 + q.nbytesout + w) ≤ nout
      if ¬ room then (false, q)
      else (true, { q with nbytesout := int32 (q.nbytesout + 1), nrunesout := int32 (q.nrunesout + 1) })
    else (true, q)

/-- A round of the loop on a rune that is not the terminator; `false` is a `break`. -/
def quoteRound (doquote : Option (Rune → Bool)) (nout : Int) (runesout : Bool) (c : Rune) (w : Nat)
    (q : Quoteinfo) : Bool × Quoteinfo :=
  let room := if runesout then int32 (q.nrunesout + 1) ≤ nout else int32 (q.nbytesout + w) ≤ nout
  if ¬ room then (false, q)
  else
    let (go, q) := if quotable doquote c then quoteSpecial nout runesout c w q else (true, q)
    if ¬ go then (false, q)
    else (true, { q with nbytesin := int32 (q.nbytesin + w), nrunesin := int32 (q.nrunesin + 1),
                         nbytesout := int32 (q.nbytesout + w), nrunesout := int32 (q.nrunesout + 1) })

theorem QuoteSrc.size_advance {src : QuoteSrc} (h : src.next.1 ≠ 0) : (src.advance src.next.2).size < src.size := by
  cases src with
  | s mem =>
    have hw := chartorune_count mem
    cases mem with
    | nil => exact absurd rfl h
    | cons b mem => simp only [next, advance, size, List.length_drop, List.length_cons] at hw ⊢; omega
  | r mem =>
    cases mem with
    | nil => exact absurd rfl h
    | cons c mem => simp [advance, size]

/-- The loop, until the terminator, a `break`, or `nin` rounds. -/
def quoteLoop (doquote : Option (Rune → Bool)) (nout : Int) (runesout : Bool) (src : QuoteSrc) (nin : Int)
    (q : Quoteinfo) : Quoteinfo :=
  if nin = 0 then q
  else if src.next.1 = 0 then q
  else
    match quoteRound doquote nout runesout src.next.1 src.next.2 q with
    | (false, q) => q
    | (true, q) => quoteLoop doquote nout runesout (src.advance src.next.2) (int32 (nin - 1)) q
termination_by src.size
decreasing_by exact QuoteSrc.size_advance (by assumption)

def quotesetup (doquote : Option (Rune → Bool)) (src : QuoteSrc) (nin nout : Int) (sharp runesout : Bool) : Quoteinfo :=
  let q : Quoteinfo := ⟨false, 0, 0, 0, 0⟩
  if sharp || nin = 0 || src.atEnd then
    if nout < 2 then q
    else quoteLoop doquote nout runesout src nin { q with quoted := true, nbytesout := 2, nrunesout := 2 }
  else quoteLoop doquote nout runesout src nin q

/-- What is returned and `*quotelenp`. -/
def needsquotes (doquote : Option (Rune → Bool)) (s : List UInt8) : Bool × Int :=
  let q := quotesetup doquote (.s s) (-1) 0x7FFFFFFF false false
  (q.quoted, q.nbytesout)

/-! ## quotestrdup -/

/-- What an `int` is as a `uintptr`. -/
def uintptr (x : Int) : Nat := (x % 2 ^ 64).toNat

/-- The room in the block. `Npadbytes` in front of it are `malloc`'s own, and `poolallocl` takes a size with the sign bit for an
overflow and returns nil. For any other size there is a block: memory does not run out. -/
def malloc (size : Nat) : Option Nat :=
  let dsize := (size + 16) % 2 ^ 64
  if dsize ≥ 2 ^ 63 then none else some (dsize - 16)

/-- The loop that copies, doubling the quotes. -/
def quoteBytes : List UInt8 → List UInt8
  | [] => []
  | b :: s => if b = 0 then [] else if b = 0x27 then b :: b :: quoteBytes s else b :: quoteBytes s

/-- The room in the block, and the bytes stored there if there is one. -/
def strdup (s : List UInt8) : Option Nat × List UInt8 :=
  (malloc (uintptr (int32 (int32 (cstr s).length + 1))), cstr s ++ [0])

def quotestrdup (doquote : Option (Rune → Bool)) (s : List UInt8) : Option Nat × List UInt8 :=
  match needsquotes doquote s with
  | (false, _) => strdup s
  | (true, quotelen) => (malloc (uintptr (int32 (quotelen + 1))), 0x27 :: quoteBytes s ++ [0x27, 0])

/-! ## quoterunestrdup -/

/-- `" \t\r\n"` -/
def qsep : List UInt8 := [0x20, 0x09, 0x0D, 0x0A]

/-- `utfrune(sep, c)!=nil`. The argument is a signed `char`, so below `Runesync`, and `utfrune` is `strchr`. -/
def isSep (sep : List UInt8) (c : UInt8) : Bool := (strchr sep c).isSome

theorem lt_length_of_byteAt {m : List UInt8} {p : Nat} (h : byteAt m p ≠ 0) : p < m.length := by
  by_contra hp
  rw [byteAt, List.getD_eq_getElem?_getD, List.getElem?_eq_none (by omega)] at h
  exact h rfl

/-- The loop of `qtoken`, with `s` where it writes and `t` where it reads: the memory, `s` and `t` after it. -/
def qtokenLoop (sep m : List UInt8) (s t : Nat) (quoting : Bool) : List UInt8 × Nat × Nat :=
  if h : byteAt m t ≠ 0 ∧ (quoting ∨ isSep sep (byteAt m t) = false) then
    if byteAt m t ≠ 0x27 then qtokenLoop sep (m.set s (byteAt m t)) (s + 1) (t + 1) quoting
    else if ¬ quoting then qtokenLoop sep m s (t + 1) true
    -- end of quoted section; absorb closing quote
    else if byteAt m (t + 1) ≠ 0x27 then qtokenLoop sep m s (t + 1) false
    -- doubled quote; fold one quote into two
    else qtokenLoop sep (m.set s (byteAt m (t + 1))) (s + 1) (t + 2) quoting
  else (m, s, t)
termination_by m.length - t
decreasing_by
  all_goals have hlt := lt_length_of_byteAt h.1
  · rw [List.length_set]; omega
  · omega
  · omega
  · rw [List.length_set]; omega

def qtoken (sep m : List UInt8) (s : Nat) : List UInt8 × Nat :=
  let (m, s, t) := qtokenLoop sep m s s false
  if byteAt m s ≠ 0 then (m.set s 0, if t = s then t + 1 else t) else (m, t)

/-- `while(*s!='\0' && utfrune(qsep, *s)!=nil) s++;` -/
def skipSeps (sep m : List UInt8) (s : Nat) : Nat :=
  if h : byteAt m s ≠ 0 ∧ isSep sep (byteAt m s) = true then skipSeps sep m (s + 1) else s
termination_by m.length - s
decreasing_by have := lt_length_of_byteAt h.1; omega

/-- The loop of `tokenize` for `n` more arguments: the memory after it, and the arguments. -/
def tokenizeLoop (m : List UInt8) : Nat → Nat → List UInt8 × List Nat
  | 0, _ => (m, [])
  | n + 1, s =>
    let s := skipSeps qsep m s
    if byteAt m s = 0 then (m, [])
    else
      let (m, t) := qtoken qsep m s
      let (m, args) := tokenizeLoop m n t
      (m, s :: args)

/-- The memory after it, and `args`, of which it returns the number. -/
def tokenize (m : List UInt8) (maxargs : Nat) : List UInt8 × List Nat := tokenizeLoop m maxargs 0

/-- The strings at `args`. -/
def tokens (m : List UInt8) (maxargs : Nat) : List (List UInt8) :=
  (tokenize m maxargs).2.map fun p => cstr ((tokenize m maxargs).1.drop p)

end Plan9.Libc
