/-
The Bloom filter of the venti server (`venti/srv/bloom.c`): the filter in
memory, its copy on the partition, and the calls that mark scores, write the
filter and load it.

The bit array is looked at as `u32int`s, the header in its first sixteen bytes
byte by byte, most significant first. `Host` is how the machine reads the four
bytes `U32PUT` stores as one word. A header word is one of the first four.
-/
import Mathlib.Tactic.Ring

namespace Plan9.Venti

/-- A `u32int`, and a `ulong`. -/
abbrev U32 := BitVec 32

structure Host where
  put : U32 → U32
  get : U32 → U32
  get_put : ∀ v, get (put v) = v

/-- `BloomHeadSize*8` -/
def bloomHeadBits : U32 := 128

def bloomMagic : U32 := 0xb1004ead

def bloomVersion : U32 := 1

/-- `MaxBloomSize` -/
def maxBloomSize : U32 := 0x20000000

/-- A score is five words; the first is not looked at here. -/
abbrev Score := Fin 5 → U32

instance Score.neZero : NeZero 5 := ⟨by decide⟩

structure Bloom where
  nhash : U32
  size : U32
  bitmask : U32
  data : Nat → U32

/-! ## The header -/

def packbloomhead (h : Host) (b : Bloom) (data : Nat → U32) : Nat → U32 :=
  Function.update (Function.update (Function.update (Function.update data 0 (h.put bloomMagic))
    1 (h.put bloomVersion)) 2 (h.put b.nhash)) 3 (h.put b.size)

/-- `nhash` and `size`, if the header is one. -/
def unpackbloomhead (h : Host) (data : Nat → U32) : Option (U32 × U32) :=
  if h.get (data 0) ≠ bloomMagic then none
  else if h.get (data 1) ≠ bloomVersion then none
  else
    let nhash := h.get (data 2)
    let size := h.get (data 3)
    if size < 16 ∨ size > maxBloomSize ∨ size &&& (size - 1) ≠ 0 then none
    else some (nhash, size)

/-- `readbloom` and `loadbloom`: the header with its bit mask, then all of the data. -/
def loadbloom (h : Host) (part : Nat → U32) : Option Bloom :=
  match unpackbloomhead h part with
  | none => none
  | some (nhash, size) => some { nhash := nhash, size := size, bitmask := (size <<< 3) - 1, data := part }

def wbbloomhead (h : Host) (b : Bloom) : Bloom := { b with data := packbloomhead h b b.data }

/-! ## Marking -/

/-- The hash values: `a`, `a+b`, `a+2b`, kept off the bits of the header. -/
def hashesFrom (b : U32) : Nat → U32 → List U32
  | 0, _ => []
  | n + 1, a => (if a < bloomHeadBits then bloomHeadBits else a) :: hashesFrom b n (a + b)

def gethashes (score : Score) : List U32 := hashesFrom (score 2 ^^^ score 4) 32 (score 1 ^^^ score 3)

/-- The hash values a filter uses; there are `nhash` of them, at most `BloomMaxHash`. -/
def Bloom.hashes (b : Bloom) (score : Score) : List U32 := (gethashes score).take b.nhash.toNat

/-- `(x&b->bitmask)>>5` -/
def Bloom.word (b : Bloom) (x : U32) : Nat := ((x &&& b.bitmask) >>> 5).toNat

/-- `1<<(x&31)` -/
def bloomBit (x : U32) : U32 := 1#32 <<< (x &&& 31).toNat

/-- One turn of the loop of `_markbloomfilter`. -/
def Bloom.mark1 (b : Bloom) (x : U32) : Bloom :=
  if b.data (b.word x) &&& bloomBit x = 0 then
    { b with data := Function.update b.data (b.word x) (b.data (b.word x) ||| bloomBit x) }
  else b

def markbloomfilter (b : Bloom) (score : Score) : Bloom := (b.hashes score).foldl Bloom.mark1 b

def inbloomfilter (b : Bloom) (score : Score) : Bool :=
  (b.hashes score).all fun x => b.data (b.word x) &&& bloomBit x ≠ 0

/-! ## The filter and its partition -/

structure BloomSys where
  b : Bloom
  part : Nat → U32

inductive BloomOp
  | mark (score : Score)
  | write
  | load

namespace BloomSys

/-- `writebloom` puts the header in memory and writes the whole. -/
def step (h : Host) (s : BloomSys) : BloomOp → Option BloomSys
  | .mark score => some { s with b := markbloomfilter s.b score }
  | .write => some ⟨wbbloomhead h s.b, (wbbloomhead h s.b).data⟩
  | .load => (loadbloom h s.part).map fun b => { s with b := b }

def exec (h : Host) : List BloomOp → BloomSys → Option BloomSys
  | [], s => some s
  | op :: ops, s =>
    match s.step h op with
    | none => none
    | some s => exec h ops s

/-- A filter set up from the header on its partition, with whatever bits. -/
structure Init (h : Host) (s : BloomSys) : Prop where
  head : unpackbloomhead h s.part = some (s.b.nhash, s.b.size)
  bitmask : s.b.bitmask = (s.b.size <<< 3) - 1
  nhash : s.b.nhash.toNat ≤ 32

/-- Every mark is written before the next load, where those so far are if `clean`. -/
def written : Bool → List BloomOp → Bool
  | _, [] => true
  | _, .mark _ :: ops => written false ops
  | _, .write :: ops => written true ops
  | clean, .load :: ops => clean && written true ops

end BloomSys

end Plan9.Venti
