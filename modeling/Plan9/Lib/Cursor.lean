/-
A buffer with a pointer that moves over it: writers, and readers that may fail.

`Runs k ep g xs v ys` is the reader's calculus: at pointer `k`, on a buffer
whose next bytes are `xs`, `g` answers `v` and leaves `ys` where `xs` was. It
composes along `bind`, so what a reader does on an encoding follows from what
its parts do. `Consumes` is the other direction: whatever a reader accepted,
split off the front of the buffer.
-/
import Plan9.Lib.Bytes

namespace Cursor

open Bytes List

/-- A buffer and the pointer that moves over it. -/
structure Cur where
  buf : List UInt8
  p : Nat
  deriving DecidableEq, Repr

/-! ## Writing -/

/-- Store at the pointer and advance it. -/
def Cur.put (c : Cur) (bs : List UInt8) : Cur := ⟨store c.buf c.p bs, c.p + bs.length⟩

theorem store_append : ∀ (xs ys buf : List UInt8) (p : Nat),
    store buf p (xs ++ ys) = store (store buf p xs) (p + xs.length) ys
  | [], _, _, _ => by simp [store]
  | x :: xs, ys, buf, p => by
    simp only [cons_append, store, length_cons]
    rw [store_append xs ys, Nat.add_assoc, Nat.add_comm 1]

theorem set_store_of_lt : ∀ (ys buf : List UInt8) {p q : Nat} (x : UInt8), p < q →
    (store buf q ys).set p x = store (buf.set p x) q ys
  | [], _, _, _, _, _ => rfl
  | y :: ys, buf, p, q, x, h => by
    simp only [store]
    rw [set_store_of_lt ys _ x (by omega), set_comm _ _ (by omega)]

/-- The order of two adjacent writes does not matter. -/
theorem store_store_before : ∀ (xs ys buf : List UInt8) (p : Nat),
    store (store buf (p + xs.length) ys) p xs = store buf p (xs ++ ys)
  | [], _, _, _ => by simp [store]
  | x :: xs, ys, buf, p => by
    simp only [cons_append, store, length_cons]
    rw [set_store_of_lt _ _ _ (by omega), ← store_store_before xs ys, Nat.add_assoc, Nat.add_comm 1]

@[simp] theorem Cur.put_put (c : Cur) (xs ys : List UInt8) : (c.put xs).put ys = c.put (xs ++ ys) := by
  simp [Cur.put, store_append, Nat.add_assoc]

@[simp] theorem Cur.put_nil (c : Cur) : c.put [] = c := by simp [Cur.put, store]

theorem Cur.put_p (c : Cur) (xs : List UInt8) : (c.put xs).p = c.p + xs.length := rfl

/-! ## Reading -/

/-- A read at the moving pointer, which may fail. -/
abbrev Get := StateT Cur Option

/-- Fail unless `n` bytes are left before `ep`. -/
def need (ep n : Nat) : Get Unit := fun c => if c.p + n > ep then none else some ((), c)

theorem bind_some_iff {α β : Type} {g : Get α} {h : α → Get β} {c : Cur} {r : β × Cur} :
    (g >>= h) c = some r ↔ ∃ a c', g c = some (a, c') ∧ h a c' = some r := by
  simp only [bind, StateT.bind, Option.bind_eq_some_iff]
  constructor
  · rintro ⟨⟨a, c'⟩, h1, h2⟩; exact ⟨a, c', h1, h2⟩
  · rintro ⟨a, c', h1, h2⟩; exact ⟨(a, c'), h1, h2⟩

theorem pure_some_iff {α : Type} {a : α} {c : Cur} {r : α × Cur} :
    (pure a : Get α) c = some r ↔ (a, c) = r := by
  rw [show (pure a : Get α) c = some (a, c) from rfl, Option.some.injEq]

theorem need_some_iff {ep n : Nat} {c : Cur} {r : Unit × Cur} :
    need ep n c = some r ↔ c.p + n ≤ ep ∧ ((), c) = r := by
  unfold need
  split
  · simp; omega
  · simp only [Option.some.injEq, iff_and_self]; omega

/-- At pointer `k`, on `xs`, `g` answers `v` and leaves `ys` in the place of `xs`. -/
structure Runs {α : Type} (k ep : Nat) (g : Get α) (xs : List UInt8) (v : α) (ys : List UInt8) : Prop where
  length : ys.length = xs.length
  run : ∀ pre post, pre.length = k → k + xs.length ≤ ep →
    g ⟨pre ++ (xs ++ post), k⟩ = some (v, ⟨pre ++ (ys ++ post), k + xs.length⟩)

section

variable {α β : Type} {k ep : Nat}

theorem Runs.pure (v : α) : Runs k ep (pure v) [] v [] :=
  ⟨rfl, fun _ _ _ _ => rfl⟩

theorem Runs.bind {g : Get α} {h : α → Get β} {xs xs' ys ys' : List UInt8} {v : α} {w : β}
    (hg : Runs k ep g xs v ys) (hh : Runs (k + xs.length) ep (h v) xs' w ys') :
    Runs k ep (g >>= h) (xs ++ xs') w (ys ++ ys') := by
  refine ⟨by simp [hg.length, hh.length], fun pre post hk hep => ?_⟩
  rw [length_append] at hep
  have h1 := hg.run pre (xs' ++ post) hk (by omega)
  have h2 := hh.run (pre ++ ys) post (by simp [hk, hg.length]) (by omega)
  refine bind_some_iff.mpr ⟨v, _, by rw [append_assoc]; exact h1, ?_⟩
  simpa [Nat.add_assoc] using h2

/-- The last read of a reader that only packages its answer. -/
theorem Runs.map {g : Get α} {h : α → β} {xs ys : List UInt8} {v : α} (hg : Runs k ep g xs v ys) :
    Runs k ep (g >>= fun a => Pure.pure (h a)) xs (h v) ys := by
  simpa using Runs.bind (h := fun a => Pure.pure (h a)) hg (Runs.pure (h v))

theorem Runs.need {g : Unit → Get α} {n : Nat} {xs ys : List UInt8} {v : α} (hn : n ≤ xs.length)
    (hg : Runs k ep (g ()) xs v ys) : Runs k ep (need ep n >>= g) xs v ys := by
  refine ⟨hg.length, fun pre post hk hep => ?_⟩
  exact bind_some_iff.mpr ⟨(), _, need_some_iff.mpr ⟨by simp; omega, rfl⟩, hg.run pre post hk hep⟩

end

/-! ## What was read -/

/-- From `c` to `c'` the bytes `xs` were read: they were next, and what was after them still is. -/
structure Consumes (c c' : Cur) (xs : List UInt8) : Prop where
  next : c.buf.drop c.p = xs ++ c'.buf.drop c'.p
  p : c'.p = c.p + xs.length
  length : c'.buf.length = c.buf.length

theorem Consumes.refl (c : Cur) : Consumes c c [] := ⟨by simp, by simp, rfl⟩

theorem Consumes.trans {c1 c2 c3 : Cur} {xs ys : List UInt8} (h1 : Consumes c1 c2 xs)
    (h2 : Consumes c2 c3 ys) : Consumes c1 c3 (xs ++ ys) := by
  refine ⟨?_, ?_, h2.length.trans h1.length⟩
  · rw [h1.next, h2.next, append_assoc]
  · rw [h2.p, h1.p, length_append, Nat.add_assoc]

/-- Bytes known to be there before a read are there after it, less what it took. -/
theorem Consumes.room {c c' : Cur} {xs : List UInt8} {n m : Nat} (h : Consumes c c' xs)
    (hc : c.p + n ≤ c.buf.length) (hm : xs.length + m ≤ n) : c'.p + m ≤ c'.buf.length := by
  rw [h.p, h.length]; omega

theorem Runs.consumes {α : Type} {ep : Nat} {g : Get α} {xs ys post : List UInt8} {v v' : α} {c c' : Cur}
    (hr : Runs c.p ep g xs v ys) (hc : c.p ≤ c.buf.length) (hx : c.buf.drop c.p = xs ++ post)
    (hep : c.p + xs.length ≤ ep) (h : g c = some (v', c')) : v' = v ∧ Consumes c c' xs := by
  obtain ⟨buf, p⟩ := c
  have hlen : (buf.take p).length = p := List.length_take_of_le hc
  have hbuf : buf = buf.take p ++ (xs ++ post) := by rw [← hx, List.take_append_drop]
  have hrun := hr.run (buf.take p) post hlen hep
  rw [← hbuf, h] at hrun
  obtain ⟨rfl, rfl⟩ := hrun
  refine ⟨rfl, ?_, rfl, ?_⟩
  · have hdrop : (buf.take p ++ (ys ++ post)).drop (p + xs.length) = post := by
      rw [← List.append_assoc, List.drop_left' (by rw [List.length_append, hlen, hr.length])]
    rw [hdrop]; exact hx
  · have hlen' := congrArg List.length hbuf
    simp only [List.length_append] at hlen' ⊢
    rw [hr.length]; exact hlen'.symm

/-- `Q` holds of every buffer with `ys` at `k`. -/
def Holds (k : Nat) (ys : List UInt8) (Q : List UInt8 → Prop) : Prop :=
  ∀ pre post, pre.length = k → Q (pre ++ (ys ++ post))

theorem Holds.left {k : Nat} {ys : List UInt8} {Q : List UInt8 → Prop} (h : Holds k ys Q)
    (zs : List UInt8) : Holds k (ys ++ zs) Q := fun pre post hk => by
  rw [append_assoc]; exact h pre (zs ++ post) hk

theorem Holds.right {k : Nat} {xs ys : List UInt8} {Q : List UInt8 → Prop}
    (h : Holds (k + xs.length) ys Q) : Holds k (xs ++ ys) Q := fun pre post hk => by
  have := h (pre ++ xs) post (by simp [hk])
  simpa using this

/-! ## Numbers -/

/-- `g` reads a number of `w` bytes. -/
def ReadsNum {α : Type} (w : Nat) (g : Get α) (of : Nat → α) : Prop :=
  ∀ pre xs post, xs.length = w →
    g ⟨pre ++ (xs ++ post), pre.length⟩ = some (of (leNat xs), ⟨pre ++ (xs ++ post), pre.length + w⟩)

theorem ReadsNum.runs {α : Type} {w : Nat} {g : Get α} {of : Nat → α} (hg : ReadsNum w g of) {n : Nat}
    (hn : n < 256 ^ w) (k ep : Nat) : Runs k ep g (leBytes w n) (of n) (leBytes w n) := by
  refine ⟨rfl, fun pre post hk _ => ?_⟩
  subst hk
  rw [hg pre _ post (length_leBytes w n), leNat_leBytes, Nat.mod_eq_of_lt hn, length_leBytes]

theorem ReadsNum.consumes {α : Type} {w : Nat} {g : Get α} {of : Nat → α} (hg : ReadsNum w g of)
    {c c' : Cur} {v : α} (hc : c.p + w ≤ c.buf.length) (h : g c = some (v, c')) :
    ∃ n, n < 256 ^ w ∧ v = of n ∧ Consumes c c' (leBytes w n) := by
  have hlen : ((c.buf.drop c.p).take w).length = w := by simp; omega
  have hlt := leNat_lt ((c.buf.drop c.p).take w)
  have hbytes := leBytes_leNat ((c.buf.drop c.p).take w)
  rw [hlen] at hlt hbytes
  have hx : c.buf.drop c.p = leBytes w (leNat ((c.buf.drop c.p).take w)) ++ c.buf.drop (c.p + w) := by
    rw [hbytes, ← drop_drop, take_append_drop]
  obtain ⟨hv, hcons⟩ := (hg.runs hlt c.p (c.p + w)).consumes (by omega) hx (by simp) h
  exact ⟨_, hlt, hv, hcons⟩

end Cursor
