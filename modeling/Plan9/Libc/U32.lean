/-
The base-32 encoding of `port/u32.c` in libc: `enc32` and `dec32`.

A pointer argument is the memory from it on and `dest` what is stored there.
The counts are `int`s and their arithmetic wraps; the bytes and indices are
naturals, cut to a byte where they are stored.
-/
import Plan9.Lib.Bytes
import Plan9.Lib.CInt

namespace Plan9.Libc

open Bytes CInt

/-- `"23456789abcdefghijkmnpqrstuvwxyz"` -/
def tab32 : List UInt8 :=
  [50, 51, 52, 53, 54, 55, 56, 57, 97, 98, 99, 100, 101, 102, 103, 104,
   105, 106, 107, 109, 110, 112, 113, 114, 115, 116, 117, 118, 119, 120, 121, 122]

/-! ## dec32 -/

/-- `u[i]` -/
def digit32 (src : List UInt8) (i : Nat) : Nat := (strchr tab32 (byteAt src i)).getD 0

/-- The five expressions that `dec32` stores, in the loop and after it. -/
def dec0 (u : Nat → Nat) : UInt8 := UInt8.ofNat (u 0 <<< 3 ||| (0x7 &&& u 1 >>> 2))
def dec1 (u : Nat → Nat) : UInt8 := UInt8.ofNat ((0x3 &&& u 1) <<< 6 ||| u 2 <<< 1 ||| (0x1 &&& u 3 >>> 4))
def dec2 (u : Nat → Nat) : UInt8 := UInt8.ofNat ((0xf &&& u 3) <<< 4 ||| (0xf &&& u 4 >>> 1))
def dec3 (u : Nat → Nat) : UInt8 := UInt8.ofNat ((0x1 &&& u 4) <<< 7 ||| u 5 <<< 2 ||| (0x3 &&& u 6 >>> 3))
def dec4 (u : Nat → Nat) : UInt8 := UInt8.ofNat ((0x7 &&& u 6) <<< 5 ||| u 7)

/-- The loop of `dec32`: what it stores, and `src` and `nsrc` after it. -/
def decLoop (src : List UInt8) (nsrc : Int) : List UInt8 × List UInt8 × Int :=
  if nsrc ≥ 8 then
    let u := digit32 src
    let (dest, src, nsrc) := decLoop (src.drop 8) (nsrc - 8)
    ([dec0 u, dec1 u, dec2 u, dec3 u, dec4 u] ++ dest, src, nsrc)
  else ([], src, nsrc)
termination_by nsrc.toNat

/-- What is stored for the last characters, fewer than eight; `none` is `return -1`. -/
def decTail (src : List UInt8) (nsrc : Int) : Option (List UInt8) :=
  if nsrc > 0 then
    if nsrc = 1 ∨ nsrc = 3 ∨ nsrc = 6 then none
    else
      let u := digit32 src
      if nsrc = 2 then some [dec0 u]
      else if nsrc = 4 then some [dec0 u, dec1 u]
      else if nsrc = 5 then some [dec0 u, dec1 u, dec2 u]
      else some [dec0 u, dec1 u, dec2 u, dec3 u]
  else some []

/-- The count returned and the bytes stored at `dest`. -/
def dec32 (ndest : Int) (src : List UInt8) (nsrc : Int) : Int × List UInt8 :=
  if int32 (ndest + 1) < (int32 (5 * nsrc + 7)).tdiv 8 then (-1, [])
  else
    let (dest, src, nsrc) := decLoop src nsrc
    match decTail src nsrc with
    | none => (-1, dest)
    | some last => (int32 (dest ++ last).length, dest ++ last)

/-! ## enc32 -/

/-- `tab[j]` -/
def char32 (j : Nat) : UInt8 := byteAt tab32 j

/-- `src[i]` -/
def srcAt (src : List UInt8) (i : Nat) : Nat := (byteAt src i).toNat

/-- The eight characters of a round of `enc32`'s loop. -/
def encRound (src : List UInt8) : List UInt8 :=
  let s := srcAt src
  [char32 (0x1f &&& s 0 >>> 3),
   char32 ((0x1c &&& s 0 <<< 2) ||| (0x03 &&& s 1 >>> 6)),
   char32 (0x1f &&& s 1 >>> 1),
   char32 ((0x10 &&& s 1 <<< 4) ||| (0x0f &&& s 2 >>> 4)),
   char32 ((0x1e &&& s 2 <<< 1) ||| (0x01 &&& s 3 >>> 7)),
   char32 (0x1f &&& s 3 >>> 2),
   char32 ((0x18 &&& s 3 <<< 3) ||| (0x07 &&& s 4 >>> 5)),
   char32 (0x1f &&& s 4)]

/-- The loop of `enc32`. -/
def encLoop (src : List UInt8) (nsrc : Int) : List UInt8 × List UInt8 × Int :=
  if nsrc ≥ 5 then
    let (dest, rest, nsrc) := encLoop (src.drop 5) (nsrc - 5)
    (encRound src ++ dest, rest, nsrc)
  else ([], src, nsrc)
termination_by nsrc.toNat

/-- What is stored for the last bytes, down to the label `out`. -/
def encTail (src : List UInt8) (nsrc : Int) : List UInt8 :=
  let s := srcAt src
  let dest := [char32 (0x1f &&& s 0 >>> 3)]
  let j := 0x1c &&& s 0 <<< 2
  if nsrc = 1 then dest ++ [char32 j]
  else
    let j := j ||| (0x03 &&& s 1 >>> 6)
    let dest := dest ++ [char32 j]
    let j := 0x1f &&& s 1 >>> 1
    if nsrc = 2 then dest ++ [char32 j]
    else
      let dest := dest ++ [char32 j]
      let j := 0x10 &&& s 1 <<< 4
      if nsrc = 3 then dest ++ [char32 j]
      else
        let j := j ||| (0x0f &&& s 2 >>> 4)
        let dest := dest ++ [char32 j]
        let j := 0x1e &&& s 2 <<< 1
        if nsrc = 4 then dest ++ [char32 j]
        else
          let j := j ||| (0x01 &&& s 3 >>> 7)
          let dest := dest ++ [char32 j]
          let j := 0x1f &&& s 3 >>> 2
          let dest := dest ++ [char32 j]
          let j := 0x18 &&& s 3 <<< 3
          dest ++ [char32 j]

/-- The count returned and the bytes stored at `dest`, with the zero that ends them. -/
def enc32 (ndest : Int) (src : List UInt8) (nsrc : Int) : Int × List UInt8 :=
  if ndest ≤ (int32 (8 * nsrc + 4)).tdiv 5 then (-1, [])
  else
    let (dest, src, nsrc) := encLoop src nsrc
    let dest := if nsrc ≠ 0 then dest ++ encTail src nsrc else dest
    (int32 dest.length, dest ++ [0])

end Plan9.Libc
