/-
Memory as a function of the address, and the C library's operations on it:
a list stored at an address, `memmove`, `memset`.

`load mem p n` is the list of the `n` cells at `p`. The facts say what a load
gives inside what an operation wrote, and that it stays outside.
-/
import Mathlib.Data.List.Basic
import Mathlib.Tactic.Ring

namespace Memory

open List

variable {α : Type*} {mem mem' : Nat → α} {p q n m : Nat} {l : List α}

/-- The `n` cells at `p`. -/
def load (mem : Nat → α) (p n : Nat) : List α := (List.range n).map fun i => mem (p + i)

def store (mem : Nat → α) (p : Nat) (l : List α) : Nat → α :=
  fun x => if p ≤ x then (l[x - p]?).getD (mem x) else mem x

def memmove (mem : Nat → α) (dst src n : Nat) : Nat → α :=
  fun x => if dst ≤ x ∧ x < dst + n then mem (src + (x - dst)) else mem x

def memset (mem : Nat → α) (p : Nat) (v : α) (n : Nat) : Nat → α :=
  fun x => if p ≤ x ∧ x < p + n then v else mem x

/-! ## Loads -/

@[simp] theorem length_load : (load mem p n).length = n := by
  simp [load]

theorem load_congr (h : ∀ x, p ≤ x → x < p + n → mem' x = mem x) : load mem' p n = load mem p n := by
  apply map_congr_left
  intro i hi
  rw [mem_range] at hi
  exact h _ (by omega) (by omega)

theorem load_eq (h : ∀ i (hi : i < l.length), mem (p + i) = l[i]) : load mem p l.length = l := by
  apply ext_getElem
  · exact length_load
  · intro i h1 h2
    simp only [load, getElem_map, getElem_range]
    exact h i h2

theorem load_take (h : load mem p l.length = l) (hn : n ≤ l.length) : load mem p n = l.take n := by
  rw [← congrArg (take n) h]
  unfold load
  rw [← map_take, take_range, Nat.min_eq_left hn]

theorem load_add : load mem p (n + m) = load mem p n ++ load mem (p + n) m := by
  unfold load
  rw [range_add, map_append, map_map]
  exact congrArg _ (map_congr_left fun i _ => congrArg mem (Nat.add_assoc ..).symm)

theorem getElem?_load (h : n < m) : (load mem p m)[n]? = some (mem (p + n)) := by
  rw [load, getElem?_map, getElem?_range h]
  rfl

/-! ## Writes -/

theorem store_outside {x : Nat} (h : x < p ∨ p + l.length ≤ x) : store mem p l x = mem x := by
  unfold store
  split
  · rw [getElem?_eq_none (by omega), Option.getD_none]
  · rfl

theorem load_store : load (store mem p l) p l.length = l := by
  apply load_eq
  intro i hi
  unfold store
  rw [if_pos (Nat.le_add_right p i), Nat.add_sub_cancel_left, getElem?_eq_getElem hi, Option.getD_some]

theorem load_store_back : load (store mem (p + n) l) p (n + l.length) = load mem p n ++ l := by
  rw [load_add, load_store]
  exact congrArg (· ++ l) (load_congr fun x _ hx => store_outside (.inl hx))

theorem load_store_front : load (store mem p l) p (l.length + n) = l ++ load mem (p + l.length) n := by
  rw [load_add, load_store]
  exact congrArg (l ++ ·) (load_congr fun x hx _ => store_outside (.inr hx))

theorem memmove_outside {x : Nat} (h : x < p ∨ p + n ≤ x) : memmove mem p q n x = mem x := by
  unfold memmove
  rw [if_neg (by omega)]

theorem load_memmove : load (memmove mem p q n) p n = load mem q n := by
  apply map_congr_left
  intro i hi
  rw [mem_range] at hi
  unfold memmove
  rw [if_pos (by omega), Nat.add_sub_cancel_left]

theorem memset_outside {v : α} {x : Nat} (h : x < p ∨ p + n ≤ x) : memset mem p v n x = mem x := by
  unfold memset
  rw [if_neg (by omega)]

end Memory
