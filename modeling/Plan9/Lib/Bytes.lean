/-
Byte buffers and little-endian numbers.

A buffer is the list of its bytes and a pointer into it an index. A read past
the end gives zero and a write past the end is dropped, so both are total; the
facts below are about accesses inside the buffer. `store_mid` and `load_mid`
are the forms the codecs use: a buffer written as what is before the pointer,
what the access touches, and what is after.
-/
import Mathlib.Data.List.TakeWhile
import Mathlib.Tactic.Ring

namespace Bytes

open List

/-- The byte at `p`. -/
def byteAt (buf : List UInt8) (p : Nat) : UInt8 := buf.getD p 0

/-- The `n` bytes at `p`. -/
def load (buf : List UInt8) (p n : Nat) : List UInt8 := (buf.drop p).take n

/-- The buffer with `bs` written at `p`. -/
def store (buf : List UInt8) (p : Nat) : List UInt8 → List UInt8
  | [] => buf
  | b :: bs => store (buf.set p b) (p + 1) bs

@[simp] theorem length_store (bs : List UInt8) : ∀ (buf : List UInt8) (p : Nat),
    (store buf p bs).length = buf.length := by
  induction bs with
  | nil => intro buf p; rfl
  | cons b bs ih => intro buf p; simp [store, ih]

theorem store_mid : ∀ (ys pre xs post : List UInt8), xs.length = ys.length →
    store (pre ++ (xs ++ post)) pre.length ys = pre ++ (ys ++ post)
  | [], pre, xs, post, h => by
    obtain rfl : xs = [] := length_eq_zero_iff.mp (by simpa using h)
    simp [store]
  | y :: ys, pre, [], post, h => by simp at h
  | y :: ys, pre, x :: xs, post, h => by
    have ih := store_mid ys (pre ++ [y]) xs post (by simpa using h)
    simp only [store, cons_append, set_append_right _ _ le_rfl, Nat.sub_self,
      set_cons_zero]
    simpa using ih

theorem load_mid (pre xs post : List UInt8) : load (pre ++ (xs ++ post)) pre.length xs.length = xs := by
  simp [load]

theorem byteAt_mid (pre : List UInt8) (x : UInt8) (post : List UInt8) :
    byteAt (pre ++ (x :: post)) pre.length = x := by
  simp [byteAt]

theorem byteAt_append (pre post : List UInt8) (i : Nat) : byteAt (pre ++ post) (pre.length + i) = byteAt post i := by
  simp [byteAt, getElem?_append_right]

theorem map_byteAt : ∀ {n : Nat} {buf : List UInt8}, n ≤ buf.length → (List.range n).map (byteAt buf) = buf.take n
  | 0, _, _ => rfl
  | n + 1, buf, h => by
    have ih := map_byteAt (show n ≤ buf.length by omega)
    rw [range_succ, map_append, ih, take_succ_eq_append_getElem (by omega)]
    simp only [map_cons, map_nil, byteAt, getD_eq_getElem?_getD]
    rw [getElem?_eq_getElem (by omega), Option.getD_some]

theorem split_at {buf : List UInt8} {p n : Nat} (h : p + n ≤ buf.length) :
    ∃ pre xs post, buf = pre ++ (xs ++ post) ∧ pre.length = p ∧ xs.length = n := by
  refine ⟨buf.take p, (buf.drop p).take n, buf.drop (p + n), ?_, ?_, ?_⟩
  · rw [← drop_drop, take_append_drop, take_append_drop]
  · simp; omega
  · simp; omega

theorem store_eq {buf ys : List UInt8} {p : Nat} (h : p + ys.length ≤ buf.length) :
    store buf p ys = buf.take p ++ (ys ++ buf.drop (p + ys.length)) := by
  obtain ⟨pre, xs, post, rfl, rfl, hx⟩ := split_at h
  rw [store_mid ys pre xs post hx, ← hx]
  simp

/-! ## Little-endian numbers -/

/-- The low `n` bytes of `v`, least significant first. -/
def leBytes : Nat → Nat → List UInt8
  | 0, _ => []
  | n + 1, v => UInt8.ofNat v :: leBytes n (v / 256)

/-- The number whose bytes are `bs`, least significant first. -/
def leNat : List UInt8 → Nat
  | [] => 0
  | b :: bs => b.toNat + 256 * leNat bs

@[simp] theorem length_leBytes (n v : Nat) : (leBytes n v).length = n := by
  induction n generalizing v with
  | zero => rfl
  | succ n ih => simp [leBytes, ih]

theorem leNat_lt (bs : List UInt8) : leNat bs < 256 ^ bs.length := by
  induction bs with
  | nil => simp [leNat]
  | cons b bs ih =>
    have hb := b.toNat_lt
    simp only [leNat, length_cons, Nat.pow_succ]
    omega

theorem leNat_leBytes (n v : Nat) : leNat (leBytes n v) = v % 256 ^ n := by
  induction n generalizing v with
  | zero => simp [leNat, leBytes, Nat.mod_one]
  | succ n ih =>
    simp only [leNat, leBytes, ih, UInt8.toNat_ofNat']
    rw [Nat.pow_succ 256 n, Nat.mul_comm (256 ^ n) 256, Nat.mod_mul]

theorem leBytes_leNat (bs : List UInt8) : leBytes bs.length (leNat bs) = bs := by
  induction bs with
  | nil => rfl
  | cons b bs ih =>
    have hb := b.toNat_lt
    simp only [leNat, leBytes, length_cons, cons.injEq]
    refine ⟨?_, ?_⟩
    · apply UInt8.toNat_inj.mp
      rw [UInt8.toNat_ofNat']
      omega
    · rw [show (b.toNat + 256 * leNat bs) / 256 = leNat bs by omega]
      exact ih

theorem or_shiftLeft {x i : Nat} (h : x < 2 ^ i) (y : Nat) : x ||| y <<< i = x + y * 2 ^ i := by
  rw [Nat.or_comm, ← Nat.shiftLeft_add_eq_or_of_lt h, Nat.shiftLeft_eq, Nat.add_comm]

/-! ## Strings ended by a zero byte -/

/-- The string that starts a stretch of memory: its bytes before the first zero. -/
def cstr (s : List UInt8) : List UInt8 := s.takeWhile (· ≠ 0)

/-- `strchr` on a string with no zero in it, as an index. The zero that ends the string is part of it. -/
def strchr (s : List UInt8) (c : UInt8) : Option Nat := if c = 0 then some s.length else s.idxOf? c

theorem cstr_of_nul {s : List UInt8} (h : 0 ∉ s) (t : List UInt8) : cstr (s ++ 0 :: t) = s := by
  induction s with
  | nil => simp [cstr]
  | cons b s ih =>
    simp only [mem_cons, not_or] at h
    have hb : b ≠ 0 := fun e => h.1 e.symm
    have hs : takeWhile (· ≠ 0) (s ++ 0 :: t) = s := ih h.2
    simp only [cstr, cons_append, ne_eq, hb, not_false_eq_true, decide_true,
      takeWhile_cons_of_pos]
    rw [hs]

theorem cstr_eq_self {s : List UInt8} (h : 0 ∉ s) : cstr s = s := by
  simp only [cstr, takeWhile_eq_self_iff]
  intro b hb
  simpa using fun e : b = 0 => h (e ▸ hb)

theorem nul_notMem_cstr (s : List UInt8) : 0 ∉ cstr s := by
  intro h
  have := mem_takeWhile_imp h
  simp at this

end Bytes
