/-
Compression of blocks: `whack` of `venti/srv/whack.c` and `unwhack` of
`venti/srv/unwhack.c`.

`ulong` has 32 bits, `ushort` 16. Pointers into a buffer are positions in it; what is
written through `wdst` and `d` is the list of what has been written. The statistics
are left out. `none` from `whackmatch` and what calls it is a read before the start of
the block; a loop over a counted number of rounds recurses on the count.
-/
import Plan9.Lib.Bytes
import Plan9.Lib.CInt
import Mathlib.Data.Int.Bitwise

namespace Plan9.Venti

open Bytes (byteAt)

/-! ## Constants and tables -/

def whackMaxOff : Nat := 16 * 1024
def hashLog : Nat := 14
def hashSize : Nat := 2 ^ hashLog
def hashMask : Nat := hashSize - 1
def minMatch : Nat := 3
def minDecode : Nat := 8

def maxFastLen : Nat := 9
def bigLenCode : Nat := 0x1f4
def bigLenBits : Nat := 9
def bigLenBase : Nat := 4
def minOffBits : Nat := 6
def maxOffBits : Nat := minOffBits + 8
def maxLen : Nat := 2051

/-- Length of the code, and the code. -/
def lentab : List (Nat × Nat) :=
  [(2, 0x2), (3, 0x6), (5, 0x1c), (5, 0x1d), (6, 0x3c), (7, 0x7a), (7, 0x7b), (8, 0xf8), (8, 0xf9)]

def dMaxFastLen : Nat := 7
def dBigLenCode : Nat := 0x3c
def dBigLenBits : Nat := 6
def dBigLenBase : Nat := 1

def lenval : List Nat :=
  [0, 0, 0, 0, 0, 0, 0, 0, 0, 0, 0, 0, 0, 0, 0, 0, 3, 3, 3, 3, 3, 3, 3, 3, 4, 4, 4, 4, 5, 6, 255, 255]

def lenbits : List Nat := [0, 0, 0, 2, 3, 5, 5]

def offbits : List Nat := [5, 5, 5, 5, 6, 6, 7, 7, 8, 8, 9, 9, 10, 10, 12, 13]

def offbase : List Nat :=
  [0, 0x20, 0x40, 0x60, 0x80, 0xc0, 0x100, 0x180, 0x200, 0x300, 0x400, 0x600, 0x800, 0xc00, 0x1000, 0x2000]

/-! ## Matches -/

structure Whack where
  begin : Nat
  hash : Nat → Nat
  next : Nat → Nat

/-- The state, and the global `thwmaxcheck`. -/
def whackinit (level : Nat) : Whack × Int :=
  let thwmaxcheck := CInt.int32 (2 ^ level)
  let thwmaxcheck := thwmaxcheck - thwmaxcheck >>> 2
  (⟨2 * whackMaxOff, fun _ => 0, fun _ => 0⟩, if thwmaxcheck < 2 then 2 else if thwmaxcheck > 1024 then 1024 else thwmaxcheck)

/-- `for(; s < esrc; s++){ if(*s != *t) break; t++; }`, `esrc` being `k` away -/
def extend (src : List UInt8) : Nat → Nat → Nat → Nat
  | 0, s, _ => s
  | k + 1, s, t => if byteAt src s = byteAt src t then extend src k (s + 1) (t + 1) else s

/-- The loop of `whackmatch`, by what `check` is: the best offset and length. -/
def matchLoop (w : Whack) (thwmaxcheck : Int) (src : List UInt8) (s esrc now : Nat) :
    Nat → Nat → Nat → Nat → Nat → Option (Nat × Nat)
  | 0, _, _, bestoff, bestlen => some (bestoff, bestlen)
  | check + 1, thn, last, bestoff, bestlen =>
    let off := (now + 2 ^ 16 - thn) % 2 ^ 16
    if off ≤ last ∨ off > whackMaxOff then some (bestoff, bestlen)
    else if s < off then none
    else
      let t := s - off
      let more := matchLoop w thwmaxcheck src s esrc now check (w.next (thn &&& (whackMaxOff - 1))) off
      if byteAt src s = byteAt src t ∧ byteAt src (s + 1) = byteAt src (t + 1) ∧
          byteAt src (s + 2) = byteAt src (t + 2) then
        if bestlen = 0 ∨ esrc - s > bestlen ∧ byteAt src (s + bestlen) = byteAt src (t + bestlen) then
          let len := extend src (esrc - (s + 3)) (s + 3) (t + 3) - s
          if len > bestlen then
            if (len : Int) > thwmaxcheck then some (off, len) else more off len
          else more bestoff bestlen
        else more bestoff bestlen
      else more bestoff bestlen

/-- What is returned, and `*ss`. -/
def whackmatch (w : Whack) (thwmaxcheck : Int) (src : List UInt8) (s esrc h now : Nat) : Option (Int × Nat) :=
  if esrc < s + minMatch then some (-1, s)
  else
    let esrc := if s + maxLen < esrc then s + maxLen else esrc
    match matchLoop w thwmaxcheck src s esrc now thwmaxcheck.toNat (w.hash h) 0 0 0 with
    | none => none
    | some (bestoff, bestlen) => some (bestoff, s + bestlen)

/-! ## Coding -/

def hashit (c : Nat) : Nat := (((c &&& 0xffffff) * 0x6b43a9b5 % 2 ^ 32) >>> (32 - hashLog)) &&& hashMask

/-- What `whack` keeps from one round to the next. -/
structure Coder where
  w : Whack
  now : Nat
  s : Nat
  half : Nat
  cont : Nat
  lithist : Nat
  lits : Nat
  wbits : Nat
  wnbits : Nat
  wdst : List UInt8

/-- `for(; wnbits >= 8; wnbits -= 8) *wdst++ = wbits >> (wnbits - 8)`, with room for `n`; `none` when there is none. -/
def flushLoop (n wbits : Nat) : Nat → Nat → List UInt8 → Option (Nat × List UInt8)
  | 0, wnbits, wdst => some (wnbits, wdst)
  | k + 1, wnbits, wdst =>
    if wdst.length ≥ n then none
    else flushLoop n wbits k (wnbits - 8) (wdst ++ [UInt8.ofNat (wbits >>> (wnbits - 8))])

def flush (n : Nat) (c : Coder) : Option Coder :=
  match flushLoop n c.wbits (c.wnbits / 8) c.wnbits c.wdst with
  | none => none
  | some (wnbits, wdst) => some { c with wnbits := wnbits, wdst := wdst }

/-- `wbits = (wbits << bits) | code; wnbits += bits` -/
def Coder.put (c : Coder) (bits code : Nat) : Coder :=
  { c with wbits := (c.wbits <<< bits ||| code) % 2 ^ 32, wnbits := c.wnbits + bits }

/-- The string at `s` into the table, and `now++`, `s++`. -/
def Coder.advance (src : List UInt8) (h : Nat) (c : Coder) : Coder :=
  let esrc := src.length
  let c := if c.s + minMatch ≤ esrc then
      { c with
        w := { c.w with
          next := Function.update c.w.next (c.now &&& (whackMaxOff - 1)) (c.w.hash h)
          hash := Function.update c.w.hash h c.now }
        cont := if c.s + minMatch < esrc then (c.cont <<< 8 ||| (byteAt src (c.s + minMatch)).toNat) % 2 ^ 32 else c.cont }
    else c
  { c with now := (c.now + 1) % 2 ^ 16, s := c.s + 1 }

/-- A literal byte. -/
def Coder.literal (toff : Nat) (c : Coder) : Coder :=
  let lithist := ((c.lithist <<< 1) ||| (if toff < 32 then 1 else 0) ||| (if toff > 127 then 1 else 0)) % 2 ^ 32
  let c := { c with lithist := lithist }
  if lithist &&& 0x1e ≠ 0 then c.put 9 toff
  else if lithist &&& 1 ≠ 0 then
    let toff := (toff + 64) &&& 0xff
    if toff < 96 then c.put 10 toff else c.put 11 toff
  else c.put 8 toff

/-- `while(len >= use)` of the code for a large length, in at most `k` rounds: the code, its length and what is left. -/
def bigLoop : Nat → Nat → Nat → Nat → Nat → Nat × Nat × Nat
  | 0, len, code, bits, _ => (code, bits, len)
  | k + 1, len, code, bits, use =>
    if len ≥ use then bigLoop k (len - use) ((code + use) <<< 1) (bits + 1) (use <<< ((bits &&& 1) ^^^ 1))
    else (code, bits, len)

/-- The length of a match, less `MinMatch`. -/
def Coder.length (n len : Nat) (c : Coder) : Option Coder :=
  if len < maxFastLen then
    let e := lentab.getD len (0, 0)
    some (c.put e.1 e.2)
  else
    let (code, bits, len) := bigLoop len (len - maxFastLen) bigLenCode bigLenBits bigLenBase
    flush n (c.put bits (code + len))

/-- `for(bits = minOffBits; toff >= (1 << bits); bits++) ;`, in at most `k` rounds -/
def offLoop : Nat → Nat → Nat → Nat
  | 0, _, bits => bits
  | k + 1, toff, bits => if toff ≥ 1 <<< bits then offLoop k toff (bits + 1) else bits

/-- The offset of a match. -/
def Coder.offset (toff : Nat) (c : Coder) : Coder :=
  let toff := toff - 1
  let bits := offLoop toff toff minOffBits
  if bits < maxOffBits - 1 then
    let c := { c with wbits := (c.wbits <<< 3 ||| (bits - minOffBits)) % 2 ^ 32 }
    let bits := if bits ≠ minOffBits then bits - 1 else bits
    { c with wnbits := c.wnbits + (bits + 3), wbits := (c.wbits <<< bits ||| toff &&& (1 <<< bits - 1)) % 2 ^ 32 }
  else
    let c := { c with wbits := (c.wbits <<< 4 ||| 0xe ||| (bits - (maxOffBits - 1))) % 2 ^ 32 }
    let bits := bits - 1
    { c with wnbits := c.wnbits + (bits + 4), wbits := (c.wbits <<< bits ||| toff &&& (1 <<< bits - 1)) % 2 ^ 32 }

/-- `for(; s != ss; s++)`, `ss` being `k` away -/
def Coder.advanceMatch (src : List UInt8) : Nat → Coder → Coder
  | 0, c => c
  | k + 1, c => Coder.advanceMatch src k (c.advance src (hashit c.cont))

/-- What a round comes to: another round, `return -1`, or a read outside the block. -/
inductive Round
  | next (c : Coder)
  | fail (c : Coder)
  | outside

def Coder.round (thwmaxcheck : Int) (src : List UInt8) (c : Coder) : Round :=
  let n := src.length
  let h := hashit c.cont
  match whackmatch c.w thwmaxcheck src c.s n h c.now with
  | none => .outside
  | some (toff, ss) =>
    match flush n c with
    | none => .fail c
    | some c =>
      let len := ss - c.s
      if len < minMatch then
        let c := c.literal (byteAt src c.s).toNat
        let c := { c with lits := c.lits + 1 }
        if c.s > c.half ∧ 4 * c.s < 5 * c.lits then .fail c
        else
          let c := if c.s > c.half then { c with half := n } else c
          .next (c.advance src h)
      else
        let len := if len > maxLen then maxLen else len
        match c.length n (len - minMatch) with
        | none => .fail c
        | some c => .next ((c.offset toff.toNat).advanceMatch src len)

/-- `while(s < esrc)`, in at most `k` rounds -/
def whackLoop (thwmaxcheck : Int) (src : List UInt8) : Nat → Coder → Round
  | 0, c => .next c
  | k + 1, c =>
    if c.s < src.length then
      match c.round thwmaxcheck src with
      | .next c => whackLoop thwmaxcheck src k c
      | r => r
    else .next c

/-- The state after, and what was written to `dst`, or `none` for -1. -/
def whack (compressblocks : Bool) (thwmaxcheck : Int) (w : Whack) (src : List UInt8) : Option (Whack × Option (List UInt8)) :=
  let n := src.length
  if compressblocks = false ∨ n < minMatch then some (w, none)
  else
    let cont := (byteAt src 0).toNat <<< 16 ||| (byteAt src 1).toNat <<< 8 ||| (byteAt src 2).toNat
    let c : Coder := ⟨w, w.begin, 0, n >>> 1, cont, 2 ^ 32 - 1, 0, 0, 0, []⟩
    match whackLoop thwmaxcheck src n c with
    | .outside => none
    | .fail c => some ({ c.w with begin := c.now }, none)
    | .next c =>
      let w := { c.w with begin := c.now }
      let c := if c.wnbits &&& 7 ≠ 0 then
          { c with wbits := (c.wbits <<< (8 - (c.wnbits &&& 7))) % 2 ^ 32, wnbits := c.wnbits + (8 - (c.wnbits &&& 7)) }
        else c
      match flush n c with
      | none => some (w, none)
      | some c => some (w, some c.wdst)

/-! ## Decoding -/

inductive UnwhackErr
  | tooMuchOutput
  | lenOutOfRange
  | offsetOutOfRange (off d len nbits : Nat)
  | overrun
  deriving DecidableEq

structure Decoder where
  src : List UInt8
  uwbits : Nat
  uwnbits : Nat
  overbits : Nat

def fillLoop : Nat → Decoder → Decoder
  | 0, u => u
  | k + 1, u =>
    let uwbits := (u.uwbits <<< 8) % 2 ^ 32
    match u.src with
    | [] => fillLoop k ⟨[], uwbits, u.uwnbits + 8, u.overbits + 8⟩
    | b :: src => fillLoop k ⟨src, uwbits ||| b.toNat, u.uwnbits + 8, u.overbits⟩

/-- `while(uwnbits <= 24)` with another byte each time -/
def fill (u : Decoder) : Decoder := fillLoop ((32 - u.uwnbits) / 8) u

/-- `uwnbits -= bits; (uwbits >> uwnbits) & ((1 << bits) - 1)` -/
def Decoder.take (bits : Nat) (u : Decoder) : Nat × Decoder :=
  let uwnbits := u.uwnbits - bits
  ((u.uwbits >>> uwnbits) &&& (1 <<< bits - 1), { u with uwnbits := uwnbits })

/-- The byte of a literal. -/
def Decoder.literal (lithist : Nat) (u : Decoder) : Nat × Decoder :=
  if lithist &&& 0xf ≠ 0 then
    let (lit, u) := u.take 9
    (lit &&& 0xff, u)
  else
    let (lit, u) := u.take 8
    let lit := lit &&& 0x7f
    if lit < 32 then
      if lit < 24 then
        let (low, u) := u.take 2
        (((lit <<< 2 ||| low) + 256 - 64) &&& 0xff, u)
      else
        let (low, u) := u.take 3
        (((lit <<< 3 ||| low) + 256 - 64) &&& 0xff, u)
    else (lit, u)

/-- `while(code >= use)` of a large length, in at most `k` rounds; `none` is "len out of range". -/
def unbigLoop : Nat → Nat → Nat → Nat → Nat → Decoder → Option (Nat × Decoder)
  | 0, len, code, _, _, u => some (len + code, u)
  | k + 1, len, code, use, bits, u =>
    if code ≥ use then
      if u.uwnbits = 0 then none
      else
        let (bit, u) := u.take 1
        unbigLoop k (len + use) ((code - use) <<< 1 ||| bit) (use <<< bits) (bits ^^^ 1) u
    else some (len + code, u)

/-- The length of a match whose first five bits are `len` in `lenval`. -/
def Decoder.length (len : Nat) (u : Decoder) : Option (Nat × Decoder) :=
  if len < 255 then some (len, { u with uwnbits := u.uwnbits - lenbits.getD len 0 })
  else
    let (code, u) := u.take dBigLenBits
    match unbigLoop 32 dMaxFastLen (code - dBigLenCode) dBigLenBase ((dBigLenBits &&& 1) ^^^ 1) u with
    | none => none
    | some (len, u) => some (len, fill u)

/-- The offset of a match. -/
def Decoder.offset (u : Decoder) : Nat × Decoder :=
  let (bits, u) := u.take 4
  let off := offbase.getD bits 0
  let bits := offbits.getD bits 0
  let (low, u) := u.take bits
  ((off ||| low) + 1, u)

/-- `for(i = 0; i < len; i++) d[i] = s[i]`, `s` being `off` before `d` -/
def copy (off : Nat) : Nat → List UInt8 → List UInt8
  | 0, d => d
  | len + 1, d => copy off len (d ++ [byteAt d (d.length - off)])

/-- One round of `unwhack`: what has been written, `lithist` and the bits, or the error. -/
def unwhackRound (ndst : Nat) (d : List UInt8) (lithist : Nat) (u : Decoder) : Except UnwhackErr (List UInt8 × Nat × Decoder) :=
  let u := fill u
  let len := lenval.getD ((u.uwbits >>> (u.uwnbits - 5)) &&& 0x1f) 0
  if len = 0 then
    let (lit, u) := u.literal lithist
    if d.length ≥ ndst then .error .tooMuchOutput
    else
      .ok (d ++ [UInt8.ofNat lit],
        ((lithist <<< 1) ||| (if lit < 32 then 1 else 0) ||| (if lit > 127 then 1 else 0)) % 2 ^ 32, u)
  else
    match u.length len with
    | none => .error .lenOutOfRange
    | some (len, u) =>
      let (off, u) := u.offset
      if off > d.length then .error (.offsetOutOfRange off d.length len u.uwnbits)
      else if d.length + len > ndst then .error .lenOutOfRange
      else .ok (copy off len d, lithist, u)

/-- `while(src < smax || uwnbits - overbits >= MinDecode)`, in at most `k` rounds -/
def unwhackLoop (ndst : Nat) : Nat → List UInt8 → Nat → Decoder → Option (Except UnwhackErr (List UInt8))
  | 0, _, _, _ => none
  | k + 1, d, lithist, u =>
    if u.src ≠ [] ∨ (u.uwnbits : Int) - u.overbits ≥ minDecode then
      match unwhackRound ndst d lithist u with
      | .error e => some (.error e)
      | .ok (d, lithist, u) => unwhackLoop ndst k d lithist u
    else if u.uwnbits < u.overbits then some (.error .overrun)
    else some (.ok d)

/-- What is written to `dst`. A round takes eight bits or more. -/
def unwhack (ndst : Nat) (src : List UInt8) : Option (Except UnwhackErr (List UInt8)) :=
  unwhackLoop ndst (src.length + 2) [] (2 ^ 32 - 1) ⟨src, 0, 0, 0⟩

end Plan9.Venti
