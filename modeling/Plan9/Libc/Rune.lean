/-
Runes and UTF-8, as `port/rune.c` in libc has them: `chartorune` and
`runetochar`, with the macros their masks are built from, and the loops that
call `chartorune` over a string.

A string argument is the memory from the pointer on. The `int`s and the `Rune`
`l` of `chartorune` are naturals: the widest, four bytes shifted together, is
below 2^26.
-/
import Plan9.Lib.Bytes

namespace Plan9.Libc

open Bytes

abbrev Rune := UInt32

def UTFmax : Nat := 4
def Runeerror : Nat := 0xFFFD
def Runemax : Nat := 0x10FFFF

def Bit (i : Nat) : Nat := 7 - i

/-- N 0's preceded by `i` 1's. -/
def T (i : Nat) : Nat := (1 <<< (Bit i + 1) - 1) ^^^ 0xFF

def Bitx : Nat := Bit 1

def RuneX (i : Nat) : Nat := 1 <<< (Bit i + (i - 1) * Bitx) - 1

def Tx : Nat := T 1
def Rune1 : Nat := 1 <<< (Bit 0 + 0 * Bitx) - 1
def Maskx : Nat := 1 <<< Bitx - 1
def Testx : Nat := Maskx ^^^ 0xFF
def SurrogateMin : Nat := 0xD800
def SurrogateMax : Nat := 0xDFFF
def Bad : Nat := Runeerror

/-! ## chartorune -/

/-- The tests of `chartorune` on the rune it has put together. -/
def badRune (i c0 l : Nat) : Bool :=
  (if i = 1 then c0 < T 2 || l ≤ Rune1 else l ≤ RuneX i || l > Runemax) ||
    (i = 2 && SurrogateMin ≤ l && l ≤ SurrogateMax)

/-- The loop of `chartorune` at `i`, for `n` more rounds; `none` is the label `bad`, which is also
where the loop ends. -/
def charLoop (str : List UInt8) (c0 : Nat) : Nat → Nat → Nat → Option (Rune × Nat)
  | 0, _, _ => none
  | n + 1, i, l =>
    let c := (byteAt str i).toNat ^^^ Tx
    if c &&& Testx ≠ 0 then none
    else
      let l := l <<< Bitx ||| c
      if c0 < T (i + 2) then
        let l := l &&& RuneX (i + 1)
        if badRune i c0 l then none else some (UInt32.ofNat l, i + 1)
      else charLoop str c0 n (i + 1) l

/-- The rune left and the count returned. -/
def chartorune (str : List UInt8) : Rune × Nat :=
  let c0 := (byteAt str 0).toNat
  if c0 < Tx then (UInt32.ofNat c0, 1)
  else (charLoop str c0 (UTFmax - 1) 1 c0).getD (UInt32.ofNat Bad, 1)

/-! ## runetochar -/

/-- The `i` bytes of `c`. -/
def runeBytes (i c : Nat) : List UInt8 :=
  UInt8.ofNat (T i ||| c >>> ((i - 1) * Bitx)) ::
    (List.range' 1 (i - 1)).map fun j => UInt8.ofNat (Tx ||| (c >>> ((i - j - 1) * Bitx) &&& Maskx))

/-- A rune that is out of range or a surrogate half is made the error rune. -/
def errRune (c : Nat) : Nat :=
  let c := if c > Runemax then Runeerror else c
  if SurrogateMin ≤ c ∧ c ≤ SurrogateMax then Runeerror else c

/-- The loop of `runetochar` at `i`, for `n` more rounds. -/
def runeLoop : Nat → Nat → Nat → Nat × List UInt8
  | 0, _, _ => (UTFmax, [])
  | n + 1, i, c =>
    -- tested here because the error rune encodes to three bytes
    let c := if i = 3 then errRune c else c
    if c ≤ RuneX i ∨ i = UTFmax then (i, runeBytes i c) else runeLoop n (i + 1) c

/-- The count returned and the bytes stored. -/
def runetochar (rune : Rune) : Nat × List UInt8 :=
  let c := rune.toNat
  if c ≤ Rune1 then (1, [UInt8.ofNat c])
  else runeLoop (UTFmax + 1 - 2) 2 c

/-! ## Loops over a string -/

theorem charLoop_count {str : List UInt8} {c0 : Nat} : ∀ {n i l : Nat} {r : Rune × Nat},
    charLoop str c0 n i l = some r → 0 < r.2
  | 0, _, _, _, h => by simp [charLoop] at h
  | n + 1, i, l, r, h => by
    unfold charLoop at h
    dsimp only at h
    split at h
    · simp at h
    split at h
    · split at h
      · simp at h
      · cases h
        exact Nat.succ_pos i
    · exact charLoop_count h

theorem chartorune_count (str : List UInt8) : 0 < (chartorune str).2 := by
  unfold chartorune
  dsimp only
  split
  · exact Nat.one_pos
  · cases h : charLoop str (byteAt str 0).toNat (UTFmax - 1) 1 (byteAt str 0).toNat with
    | none => exact Nat.one_pos
    | some r => exact charLoop_count h

/-- `while(*s) s += chartorune(r++, s);`: the runes, and the memory `s` points to at the end. -/
def runes (s : List UInt8) : List Rune × List UInt8 :=
  if byteAt s 0 = 0 then ([], s)
  else
    let (rs, s') := runes (s.drop (chartorune s).2)
    ((chartorune s).1 :: rs, s')
termination_by s.length
decreasing_by
  have hn := chartorune_count s
  rename_i h
  cases s with
  | nil => exact absurd rfl h
  | cons b s => simp only [List.length_drop, List.length_cons]; omega

/-- `while(s < e) s += chartorune(r++, s);` with `n` bytes from `s` to `e`. -/
def nrunes (s : List UInt8) (n : Nat) : List Rune :=
  if n = 0 then []
  else (chartorune s).1 :: nrunes (s.drop (chartorune s).2) (n - (chartorune s).2)
termination_by n
decreasing_by have := chartorune_count s; omega

/-- The bytes that `runetochar` makes of the runes, one after another. -/
def runesToChars (rs : List Rune) : List UInt8 := rs.flatMap fun r => (runetochar r).2

end Plan9.Libc
