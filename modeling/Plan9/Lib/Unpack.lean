/-
Readers of big-endian records: a cursor into a buffer, and beside it a count of the bytes
that are said to be left, which a reader has to keep in step with the cursor itself.

Two things can go wrong and are told apart: a record may be refused, and a byte outside the
buffer may be read. `Safe` is the rule for the second: as long as cursor and count end at
the same place, what has been asked for (`need`) can be read. `Reads` and `Peeks` are the
rules for a record that was packed: what is read is what was put there.
-/
import Mathlib.Tactic.Ring

namespace Unpack

open List

/-- The next byte is at `p`, and `n` are left. -/
structure Cur where
  p : Nat
  n : Int
deriving DecidableEq

/-- Nothing where a byte outside the buffer was read, nothing inside where the record was refused. -/
abbrev Reader := ReaderT (List UInt8) (StateT Cur (OptionT Option))

variable {α β : Type} {buf : List UInt8} {c c' : Cur} {g : Reader α} {f : α → Reader β} {k off : Nat} {e : Int}

def refuse : Reader α := fun _ _ => some none

/-- Refuse unless `k` bytes are left. -/
def need (k : Nat) : Reader Unit := fun _ c => if c.n < k then some none else some (some ((), c))

/-- `p += k; n -= k` -/
def move (k : Nat) : Reader Unit := fun _ c => some (some ((), ⟨c.p + k, c.n - k⟩))

def cur : Reader Cur := fun _ c => some (some (c, c))

/-- `p[off]` -/
def byte (off : Nat) : Reader UInt8 := fun buf c =>
  match buf[c.p + off]? with
  | none => none
  | some b => some (some (b, c))

/-- The first `k` bytes. -/
def bytes (k : Nat) : Reader (List UInt8) := fun buf c =>
  if c.p + k ≤ buf.length then some (some ((buf.drop c.p).take k, c)) else none

def u16get (off : Nat) : Reader Nat := do
  let a ← byte off
  let b ← byte (off + 1)
  return a.toNat * 2 ^ 8 + b.toNat

def u32get (off : Nat) : Reader UInt32 := do
  let a ← u16get off
  let b ← u16get (off + 2)
  return UInt32.ofNat (a * 2 ^ 16 + b)

def u64get (off : Nat) : Reader UInt64 := do
  let a ← u32get off
  let b ← u32get (off + 4)
  return UInt64.ofNat (a.toNat * 2 ^ 32 + b.toNat)

theorem pure_apply (a : α) : (pure a : Reader α) buf c = some (some (a, c)) := rfl

theorem bind_apply (g : Reader α) (f : α → Reader β) (buf : List UInt8) (c : Cur) :
    (g >>= f) buf c =
      match g buf c with
      | none => none
      | some none => some none
      | some (some (a, c')) => f a buf c' := by
  change (g buf c).bind _ = _
  rcases g buf c with _ | _ | ⟨a, c'⟩
  · rfl
  · rfl
  · rfl

/-! ## Safety -/

/-- From where `P` holds nothing outside the buffer is read, and what is not refused has `Q`. -/
def Safe (buf : List UInt8) (P : Cur → Prop) (g : Reader α) (Q : α → Cur → Prop) : Prop :=
  ∀ c, P c →
    match g buf c with
    | none => False
    | some none => True
    | some (some (a, c')) => Q a c'

/-- The cursor has come to `a` at least, it ends with the count at `e`, and `k` bytes at least are left. -/
structure Left (a : Nat) (e : Int) (k : Nat) (c : Cur) : Prop where
  from_le : a ≤ c.p
  ends : c.p + c.n = e
  left : k ≤ c.n

namespace Safe

variable {P P' : Cur → Prop} {Q Q' : α → Cur → Prop} {R : β → Cur → Prop} {a : Nat}

theorem pure {a : α} (h : ∀ c, P c → Q a c) : Safe buf P (pure a) Q := h

theorem bind (hg : Safe buf P g Q) (hf : ∀ a, Safe buf (Q a) (f a) R) : Safe buf P (g >>= f) R := by
  intro c hc
  have h := hg c hc
  rw [bind_apply]
  rcases hrun : g buf c with _ | _ | ⟨a, c'⟩
  · rw [hrun] at h
    exact h
  · trivial
  · rw [hrun] at h
    exact hf a c' h

theorem mono (h : Safe buf P g Q) (hP : ∀ c, P' c → P c) (hQ : ∀ a c, Q a c → Q' a c) : Safe buf P' g Q' := by
  intro c hc
  have := h c (hP c hc)
  rcases hrun : g buf c with _ | _ | ⟨a, c'⟩
  · rw [hrun] at this
    exact this
  · trivial
  · rw [hrun] at this
    exact hQ a c' this

theorem ite {p : Prop} [Decidable p] {g' : Reader α} (h : p → Safe buf P g Q) (h' : ¬ p → Safe buf P g' Q) :
    Safe buf P (if p then g else g') Q := by
  by_cases hp : p
  · rw [if_pos hp]
    exact h hp
  · rw [if_neg hp]
    exact h' hp

theorem refuse : Safe buf P (refuse : Reader α) Q := fun _ _ => trivial

theorem need {j : Nat} : Safe buf (Left a e j) (need k) (fun _ => Left a e k) := by
  intro c hc
  rw [Unpack.need]
  by_cases hk : c.n < k
  · rw [if_pos hk]
    trivial
  · rw [if_neg hk]
    exact ⟨hc.from_le, hc.ends, Int.not_lt.1 hk⟩

theorem move : Safe buf (Left a e k) (move k) (fun _ => Left (a + k) e 0) := by
  rintro c ⟨hfrom, hends, hleft⟩
  refine ⟨?_, ?_, ?_⟩
  · exact Nat.add_le_add_right hfrom k
  · dsimp only
    omega
  · dsimp only
    omega

theorem weaken {a' j : Nat} (h : Safe buf P g (fun _ => Left a' e j)) (ha : a ≤ a') : Safe buf P g (fun _ => Left a e 0) :=
  h.mono (fun _ h => h) fun _ c h => ⟨Nat.le_trans ha h.from_le, h.ends, by have := h.left; omega⟩

theorem skip : Safe buf (Left a e k) (Unpack.move k) (fun _ => Left a e 0) := move.weaken (Nat.le_add_right a k)

theorem cur : Safe buf P cur (fun c c' => P c' ∧ c' = c) := fun _ hc => ⟨hc, rfl⟩

theorem byte (he : e ≤ buf.length) (hoff : off < k) : Safe buf (Left a e k) (byte off) (fun _ => Left a e k) := by
  intro c hc
  have hlt : c.p + off < buf.length := by
    obtain ⟨_, _, _⟩ := hc
    omega
  rw [Unpack.byte, getElem?_eq_getElem hlt]
  exact hc

theorem bytes (he : e ≤ buf.length) : Safe buf (Left a e k) (bytes k) (fun _ => Left a e k) := by
  intro c hc
  have hle : c.p + k ≤ buf.length := by
    obtain ⟨_, _, _⟩ := hc
    omega
  rw [Unpack.bytes, if_pos hle]
  exact hc

theorem u16get (he : e ≤ buf.length) (hoff : off + 2 ≤ k) : Safe buf (Left a e k) (u16get off) (fun _ => Left a e k) :=
  .bind (.byte he (by omega)) fun _ => .bind (.byte he (by omega)) fun _ => .pure fun _ h => h

theorem u32get (he : e ≤ buf.length) (hoff : off + 4 ≤ k) : Safe buf (Left a e k) (u32get off) (fun _ => Left a e k) :=
  .bind (.u16get he (by omega)) fun _ => .bind (.u16get he (by omega)) fun _ => .pure fun _ h => h

theorem u64get (he : e ≤ buf.length) (hoff : off + 8 ≤ k) : Safe buf (Left a e k) (u64get off) (fun _ => Left a e k) :=
  .bind (.u32get he (by omega)) fun _ => .bind (.u32get he (by omega)) fun _ => .pure fun _ h => h

end Safe

/-! ## Packed records -/

def be16 (n : Nat) : List UInt8 := [UInt8.ofNat (n / 2 ^ 8), UInt8.ofNat n]

def be32 (v : UInt32) : List UInt8 := be16 (v.toNat / 2 ^ 16) ++ be16 v.toNat

def be64 (v : UInt64) : List UInt8 := be32 (UInt32.ofNat (v.toNat / 2 ^ 32)) ++ be32 (UInt32.ofNat v.toNat)

@[simp] theorem length_be16 (n : Nat) : (be16 n).length = 2 := rfl
@[simp] theorem length_be32 (v : UInt32) : (be32 v).length = 4 := rfl
@[simp] theorem length_be64 (v : UInt64) : (be64 v).length = 8 := rfl
/-- Where `x` is next `g` gives `v` and stays. -/
def Peeks (g : Reader α) (x : List UInt8) (v : α) : Prop :=
  ∀ (pre post : List UInt8) (n : Int), g (pre ++ (x ++ post)) ⟨pre.length, n⟩ = some (some (v, ⟨pre.length, n⟩))

/-- Where `x` is next, and left with as many bytes behind it as `M` admits, `g` gives `v` and is behind it. -/
def Reads (M : Nat → Prop) (g : Reader α) (x : List UInt8) (v : α) : Prop :=
  ∀ (pre post : List UInt8) (m : Nat), M m → g (pre ++ (x ++ post)) ⟨pre.length, x.length + m⟩ =
    some (some (v, ⟨pre.length + x.length, m⟩))

/-- Whatever is left. -/
def Anywhere : Nat → Prop := fun _ => True

/-- Nothing is left. -/
def AtEnd : Nat → Prop := (· = 0)

namespace Peeks

variable {x y z : List UInt8} {v : α} {w : β}

theorem pure (v : α) : Peeks (pure v) x v := fun _ _ _ => rfl

theorem bind (hg : Peeks g x v) (hf : Peeks (f v) x w) : Peeks (g >>= f) x w := by
  intro pre post n
  rw [bind_apply, hg pre post n]
  exact hf pre post n

theorem byte {b : UInt8} (h : x[off]? = some b) : Peeks (byte off) x b := by
  intro pre post n
  have hlt : off < x.length := (List.getElem?_eq_some_iff.1 h).1
  rw [Unpack.byte]
  rw [List.getElem?_append_right (Nat.le_add_right _ _), Nat.add_sub_cancel_left, List.getElem?_append_left hlt, h]

theorem bytes (h : k = x.length) : Peeks (bytes k) (x ++ y) x := by
  intro pre post n
  rw [Unpack.bytes]
  rw [if_pos (by simp only [length_append]; omega), drop_left, h, append_assoc, take_left]

theorem getElem?_mid {b : UInt8} {i : Nat} (hlen : x.length = k) (h : y[i]? = some b) : (x ++ (y ++ z))[k + i]? = some b := by
  have hlt : i < y.length := (List.getElem?_eq_some_iff.1 h).1
  rw [List.getElem?_append_right (by omega), show k + i - x.length = i by omega, List.getElem?_append_left hlt, h]

theorem u16get (n : Nat) (hlen : x.length = off) : Peeks (u16get off) (x ++ (be16 n ++ y)) (n % 2 ^ 16) := by
  have hval : (UInt8.ofNat (n / 2 ^ 8)).toNat * 2 ^ 8 + (UInt8.ofNat n).toNat = n % 2 ^ 16 := by
    rw [UInt8.toNat_ofNat', UInt8.toNat_ofNat']
    omega
  have hread : Peeks (Unpack.u16get off) (x ++ (be16 n ++ y)) ((UInt8.ofNat (n / 2 ^ 8)).toNat * 2 ^ 8 + (UInt8.ofNat n).toNat) :=
    .bind (.byte (getElem?_mid (i := 0) hlen rfl)) (.bind (.byte (getElem?_mid (i := 1) hlen rfl)) (.pure _))
  rwa [hval] at hread

theorem u32get (v : UInt32) (hlen : x.length = off) : Peeks (u32get off) (x ++ (be32 v ++ y)) v := by
  have hlt := v.toNat_lt
  have hval : UInt32.ofNat (v.toNat / 2 ^ 16 % 2 ^ 16 * 2 ^ 16 + v.toNat % 2 ^ 16) = v := by
    rw [show v.toNat / 2 ^ 16 % 2 ^ 16 * 2 ^ 16 + v.toNat % 2 ^ 16 = v.toNat by omega, UInt32.ofNat_toNat]
  have hlow : x ++ (be32 v ++ y) = (x ++ be16 (v.toNat / 2 ^ 16)) ++ (be16 v.toNat ++ y) := by
    simp only [be32, append_assoc]
  have hread : Peeks (Unpack.u32get off) (x ++ (be32 v ++ y)) (UInt32.ofNat (v.toNat / 2 ^ 16 % 2 ^ 16 * 2 ^ 16 + v.toNat % 2 ^ 16)) := by
    refine .bind (v := v.toNat / 2 ^ 16 % 2 ^ 16) ?_ (.bind (v := v.toNat % 2 ^ 16) ?_ (.pure _))
    · exact .u16get _ hlen
    · rw [hlow]
      exact .u16get _ (by rw [length_append, length_be16, hlen])
  rwa [hval] at hread

theorem u64get (v : UInt64) (hlen : x.length = off) : Peeks (u64get off) (x ++ (be64 v ++ y)) v := by
  have hlt := v.toNat_lt
  have hval : UInt64.ofNat ((UInt32.ofNat (v.toNat / 2 ^ 32)).toNat * 2 ^ 32 + (UInt32.ofNat v.toNat).toNat) = v := by
    rw [UInt32.toNat_ofNat', UInt32.toNat_ofNat', show v.toNat / 2 ^ 32 % 2 ^ 32 * 2 ^ 32 + v.toNat % 2 ^ 32 = v.toNat by omega,
      UInt64.ofNat_toNat]
  have hlow : x ++ (be64 v ++ y) = (x ++ be32 (UInt32.ofNat (v.toNat / 2 ^ 32))) ++ (be32 (UInt32.ofNat v.toNat) ++ y) := by
    simp only [be64, append_assoc]
  have hread : Peeks (Unpack.u64get off) (x ++ (be64 v ++ y))
      (UInt64.ofNat ((UInt32.ofNat (v.toNat / 2 ^ 32)).toNat * 2 ^ 32 + (UInt32.ofNat v.toNat).toNat)) := by
    refine .bind (v := UInt32.ofNat (v.toNat / 2 ^ 32)) ?_ (.bind (v := UInt32.ofNat v.toNat) ?_ (.pure _))
    · exact .u32get _ hlen
    · rw [hlow]
      exact .u32get _ (by rw [length_append, length_be32, hlen])
  rwa [hval] at hread

end Peeks

namespace Reads

variable {x y : List UInt8} {v : α} {w : β} {M : Nat → Prop}

theorem pure (v : α) : Reads M (pure v) [] v := by
  intro pre post m _
  rw [pure_apply]
  simp

theorem bind (hg : Reads Anywhere g x v) (hf : Reads M (f v) y w) : Reads M (g >>= f) (x ++ y) w := by
  intro pre post m hm
  have h1 := hg pre (y ++ post) (y.length + m) trivial
  have h2 := hf (pre ++ x) post m hm
  rw [bind_apply, append_assoc, length_append, show ((x.length + y.length : Nat) : Int) + (m : Int) =
    x.length + ((y.length + m : Nat) : Int) by omega, h1]
  dsimp only
  rw [append_assoc, length_append] at h2
  rw [show (((y.length + m : Nat)) : Int) = y.length + (m : Int) by omega, h2, Nat.add_assoc]

theorem need {f : Unit → Reader β} (hk : k ≤ x.length) (hf : Reads M (f ()) x w) : Reads M (need k >>= f) x w := by
  intro pre post m hm
  rw [bind_apply, Unpack.need]
  dsimp only
  rw [if_neg (by omega)]
  exact hf pre post m hm

theorem passes {p : Prop} [Decidable p] (hp : ¬ p) (hg : Reads M g x v) : Reads M (if p then refuse else g) x v := by
  rw [if_neg hp]
  exact hg

theorem peek (hg : Peeks g x v) (hf : Reads M (f v) x w) : Reads M (g >>= f) x w := by
  intro pre post m hm
  rw [bind_apply, hg pre post]
  exact hf pre post m hm

theorem move {f : Unit → Reader β} (hk : x.length = k) (hf : Reads M (f ()) y w) : Reads M (move k >>= f) (x ++ y) w := by
  intro pre post m hm
  have h := hf (pre ++ x) post m hm
  rw [append_assoc, length_append] at h
  rw [bind_apply, Unpack.move]
  dsimp only
  rw [← hk, append_assoc, length_append, show ((x.length + y.length : Nat) : Int) + (m : Int) - x.length =
    y.length + (m : Int) by omega, h, Nat.add_assoc]

theorem move_pure (hk : x.length = k) (v : α) : Reads M (Unpack.move k >>= fun _ => Pure.pure v) x v := by
  have hread := Reads.move hk (f := fun _ => Pure.pure v) (Reads.pure (M := M) v)
  rwa [append_nil] at hread

end Reads

end Unpack
