/-
Changes of a list at places of the list as it was: what they make of it at once, and what one of
them makes of it when those behind it have been made.
-/
import Mathlib.Tactic.Ring

namespace Changes

/-- What is between the places is to be `r`. -/
structure Change (α : Type) where
  q0 : Nat
  q1 : Nat
  r : List α

section

variable {α : Type} {t : List α} {cs : List (Change α)} {p q n : Nat}

/-- What is between two places. -/
def seg (t : List α) (p q : Nat) : List α := (t.drop p).take (q - p)

/-- The list up to a place with all the changes made at once, of which the one at the last place is the first. -/
def made (t : List α) : List (Change α) → Nat → List α
  | [], n => seg t 0 n
  | c :: cs, n => made t cs c.q0 ++ c.r ++ seg t c.q1 n

/-- The changes do not overlap, and end before a place. -/
def InOrder : List (Change α) → Nat → Prop
  | [], _ => True
  | c :: cs, n => InOrder cs c.q0 ∧ c.q0 ≤ c.q1 ∧ c.q1 ≤ n

/-- One change made. -/
def Change.make (c : Change α) (t : List α) : List α := t.take c.q0 ++ c.r ++ t.drop c.q1

@[simp] theorem seg_self : seg t p p = [] := by simp [seg]

theorem seg_append (hpq : p ≤ q) (hqn : q ≤ n) : seg t p q ++ seg t q n = seg t p n := by
  have hq : q = p + (q - p) := by omega
  have hn : n - p = (q - p) + (n - q) := by omega
  rw [seg, seg, seg, hn, List.take_add, List.drop_drop, ← hq]

theorem InOrder.mono (h : InOrder cs p) (hpn : p ≤ n) : InOrder cs n := by
  cases cs with
  | nil => trivial
  | cons c cs => exact ⟨h.1, h.2.1, Nat.le_trans h.2.2 hpn⟩

theorem made_append (h : InOrder cs p) (hpn : p ≤ n) : made t cs p ++ seg t p n = made t cs n := by
  cases cs with
  | nil => exact seg_append (Nat.zero_le p) hpn
  | cons c cs => rw [made, List.append_assoc, seg_append h.2.2 hpn, made]

/-- **Two changes are one**, with what is between them. -/
theorem made_merge (c d : Change α) :
    made t (⟨d.q0, c.q1, d.r ++ seg t d.q1 c.q0 ++ c.r⟩ :: cs) n = made t (c :: d :: cs) n := by simp [made]

theorem made_nothing (h : InOrder cs p) (hpn : p ≤ n) : made t (⟨p, p, []⟩ :: cs) n = made t cs n := by
  rw [made, List.append_nil, made_append h hpn]

theorem Change.make_seg {c : Change α} (h0 : c.q0 ≤ c.q1) (h1 : c.q1 ≤ n) (hn : n ≤ t.length) (x : List α) :
    c.make (seg t 0 n ++ x) = seg t 0 c.q0 ++ (c.r ++ (seg t c.q1 n ++ x)) := by
  have hlen : (seg t 0 n).length = n := by simp [seg, hn]
  have htake : (seg t 0 n).take c.q0 = seg t 0 c.q0 := by
    rw [seg, seg, List.take_take, Nat.sub_zero, Nat.sub_zero, Nat.min_eq_left (by omega)]
  have hdrop : (seg t 0 n).drop c.q1 = seg t c.q1 n := by simp [seg, List.drop_take]
  rw [Change.make, List.take_append_of_le_length (by omega), List.drop_append_of_le_length (by omega), htake, hdrop,
    List.append_assoc]

end

end Changes
