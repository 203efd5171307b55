/-
The base-64 encoding of `port/u64.c` in libc: `enc64` and `dec64`.

Pointers are as in `Libc/U32`: an argument is the memory from it on, and what a loop has
stored so far stands for `out`. `none` beside it is `goto exhausted`.
-/
import Plan9.Libc.U32

namespace Plan9.Libc

open Bytes CInt

def INVAL : Nat := 255

/-- `"ABCDEFGHIJKLMNOPQRSTUVWXYZabcdefghijklmnopqrstuvwxyz0123456789+/"` -/
def t64e : List UInt8 :=
  [65, 66, 67, 68, 69, 70, 71, 72, 73, 74, 75, 76, 77, 78, 79, 80, 81, 82, 83, 84, 85, 86, 87, 88, 89, 90,
   97, 98, 99, 100, 101, 102, 103, 104, 105, 106, 107, 108, 109, 110, 111, 112, 113, 114, 115, 116, 117, 118,
   119, 120, 121, 122, 48, 49, 50, 51, 52, 53, 54, 55, 56, 57, 43, 47]

/-- The table `t64d`. -/
def t64d (c : UInt8) : Nat :=
  if c = 43 then 62
  else if c = 47 then 63
  else if 48 ≤ c ∧ c ≤ 57 then 52 + (c.toNat - 48)
  else if 65 ≤ c ∧ c ≤ 90 then c.toNat - 65
  else if 97 ≤ c ∧ c ≤ 122 then 26 + (c.toNat - 97)
  else INVAL

/-! ## dec64 -/

/-- `while(n-- > 0)`: what is stored, and `b24` and `i` after it. -/
def dec64Loop (lim : Int) : Nat → List UInt8 → Nat → Nat → List UInt8 → List UInt8 × Option (Nat × Nat)
  | 0, _, b24, i, out => (out, some (b24, i))
  | n + 1, src, b24, i, out =>
    let c := t64d (byteAt src 0)
    if c = INVAL then dec64Loop lim n (src.drop 1) b24 i out
    else
      match i with
      | 0 => dec64Loop lim n (src.drop 1) (c <<< 18) 1 out
      | 1 => dec64Loop lim n (src.drop 1) (b24 ||| c <<< 12) 2 out
      | 2 => dec64Loop lim n (src.drop 1) (b24 ||| c <<< 6) 3 out
      | _ =>
        if out.length + 3 > lim then (out, none)
        else
          let b24 := b24 ||| c
          let out := out ++ [UInt8.ofNat (b24 >>> 16), UInt8.ofNat (b24 >>> 8), UInt8.ofNat b24]
          dec64Loop lim n (src.drop 1) b24 0 out

/-- What is stored for the last characters, fewer than four. -/
def dec64Tail (lim : Int) (b24 i : Nat) (out : List UInt8) : List UInt8 :=
  match i with
  | 2 => if out.length + 1 > lim then out else out ++ [UInt8.ofNat (b24 >>> 16)]
  | 3 => if out.length + 2 > lim then out else out ++ [UInt8.ofNat (b24 >>> 16), UInt8.ofNat (b24 >>> 8)]
  | _ => out

/-- The count returned and the bytes stored at `out`. -/
def dec64 (lim : Int) (src : List UInt8) (n : Int) : Int × List UInt8 :=
  let out := match dec64Loop lim n.toNat src 0 0 [] with
    | (out, none) => out
    | (out, some (b24, i)) => dec64Tail lim b24 i out
  (int32 out.length, out)

/-! ## enc64 -/

/-- `t64e[j]` -/
def char64 (j : Nat) : UInt8 := byteAt t64e j

/-- `for(i = n/3; i > 0; i--)`: what is stored, and `in` after it. -/
def enc64Loop (lim : Int) : Nat → List UInt8 → List UInt8 → List UInt8 × Option (List UInt8)
  | 0, src, out => (out, some src)
  | i + 1, src, out =>
    let b24 := srcAt src 0 <<< 16 ||| srcAt src 1 <<< 8 ||| srcAt src 2
    if out.length + 4 ≥ lim then (out, none)
    else enc64Loop lim i (src.drop 3) (out ++ [char64 (b24 >>> 18), char64 (b24 >>> 12 &&& 0x3f),
      char64 (b24 >>> 6 &&& 0x3f), char64 (b24 &&& 0x3f)])

/-- What is stored for the last bytes, with the padding `=`. -/
def enc64Tail (lim : Int) (src : List UInt8) (rem : Int) (out : List UInt8) : List UInt8 :=
  if rem = 2 then
    let b24 := srcAt src 0 <<< 16 ||| srcAt src 1 <<< 8
    if out.length + 4 ≥ lim then out
    else out ++ [char64 (b24 >>> 18), char64 (b24 >>> 12 &&& 0x3f), char64 (b24 >>> 6 &&& 0x3f), 61]
  else if rem = 1 then
    let b24 := srcAt src 0 <<< 16
    if out.length + 4 ≥ lim then out
    else out ++ [char64 (b24 >>> 18), char64 (b24 >>> 12 &&& 0x3f), 61, 61]
  else out

/-- The count returned and the bytes stored at `out`, with the zero that ends them. -/
def enc64 (lim : Int) (src : List UInt8) (n : Int) : Int × List UInt8 :=
  let out := match enc64Loop lim (n.tdiv 3).toNat src [] with
    | (out, none) => out
    | (out, some src) => enc64Tail lim src (n.tmod 3) out
  (int32 out.length, out ++ [0])

end Plan9.Libc
