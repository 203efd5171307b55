/-
A pointer to a pointer, as a loop over a linked list keeps it to put in or take out
where it stops: `last` is the address of the head or of a node's `next`.

What is stored through it changes the head or one node. `Linked.insert` and
`Linked.remove` say what the list is afterwards.
-/
import Mathlib.Data.List.Nodup
import Mathlib.Data.List.TakeWhile
import Plan9.Lib.Chain

namespace Chain

open Function List

variable {α : Type}

inductive Place (α : Type)
  | first
  | behind (a : α)
  deriving DecidableEq, Repr

/-- The place behind all of a list. -/
def Place.past (l : List α) : Place α :=
  match l.getLast? with
  | none => .first
  | some a => .behind a

/-- `*last` -/
def deref (next : α → Option α) (head : Option α) : Place α → Option α
  | .first => head
  | .behind a => next a

/-- `for(; t = *last; last = &t->next) if(stop) break;` in less than a number of turns. -/
def seek (next : α → Option α) (head : Option α) (stop : α → Bool) : Nat → Place α → Option (Place α)
  | 0, _ => none
  | n + 1, last =>
    match deref next head last with
    | none => some last
    | some a => if stop a then some last else seek next head stop n (.behind a)

/-- The head when `v` is stored. -/
def storeHead (head v : Option α) : Place α → Option α
  | .first => v
  | .behind _ => head

variable {next : α → Option α} {head : Option α} {l l1 l2 : List α} {a : α}

@[simp] theorem Place.past_nil : Place.past ([] : List α) = .first := rfl

@[simp] theorem Place.past_concat : Place.past (l ++ [a]) = .behind a := by
  rw [Place.past, getLast?_concat]

theorem Place.mem_of_past (h : Place.past l = .behind a) : a ∈ l := by
  unfold Place.past at h
  cases hlast : l.getLast? with
  | none => rw [hlast] at h; cases h
  | some b =>
    rw [hlast] at h
    cases h
    exact mem_of_getLast? hlast

theorem Linked.deref_past (hl : Linked next head (l1 ++ l2)) : deref next head (.past l1) = l2.head? := by
  have hsplit := hl.split.head
  unfold Place.past
  cases hlast : l1.getLast? with
  | none => rw [hlast] at hsplit; exact hsplit
  | some b => rw [hlast] at hsplit; exact hsplit

theorem Linked.seek_eq {stop : α → Bool} : ∀ {l2 l1 : List α} {n : Nat}, Linked next head (l1 ++ l2) →
    seek next head stop n (.past l1) =
      if (l2.takeWhile (! stop ·)).length < n then some (.past (l1 ++ l2.takeWhile (! stop ·))) else none
  | _, _, 0, _ => rfl
  | [], l1, n + 1, hl => by
    rw [seek, hl.deref_past, takeWhile_nil, append_nil, length_nil, if_pos (Nat.succ_pos n)]
    rfl
  | b :: l2, l1, n + 1, hl => by
    rw [seek, hl.deref_past]
    change (if stop b then some (Place.past l1) else seek next head stop n (.behind b)) = _
    by_cases hb : stop b
    · rw [if_pos hb, takeWhile_cons_of_neg (by simp [hb]), append_nil, length_nil, if_pos (Nat.succ_pos n)]
    have hl' : Linked next head ((l1 ++ [b]) ++ l2) := by rwa [append_assoc]
    rw [if_neg hb, takeWhile_cons_of_pos (by simp [hb]), ← Place.past_concat (l := l1), hl'.seek_eq,
      append_assoc, singleton_append, length_cons]
    simp only [Nat.succ_lt_succ_iff]

theorem Linked.seek_split {stop : α → Bool} {n : Nat} {last : Place α} (hl : Linked next head l)
    (h : seek next head stop n .first = some last) : ∃ l1 l2, l = l1 ++ l2 ∧ last = .past l1 ∧
      (∀ a ∈ l1, stop a = false) ∧ ∀ a l, l2 = a :: l → stop a = true := by
  rw [← Place.past_nil, Linked.seek_eq (show Linked next head ([] ++ l) from hl), nil_append] at h
  split at h
  · refine ⟨_, _, takeWhile_append_dropWhile.symm, (Option.some.inj h).symm, ?_, ?_⟩
    · intro a ha
      simpa using mem_takeWhile_imp ha
    intro a l' hdrop
    have hnot := head?_dropWhile_not (! stop ·) l
    rw [hdrop] at hnot
    simpa using hnot
  · cases h

theorem Linked.seek_ends {stop : α → Bool} {n : Nat} (hl : Linked next head l) (hn : l.length < n) :
    ∃ last, seek next head stop n .first = some last := by
  have hle : (l.takeWhile (! stop ·)).length < n := Nat.lt_of_le_of_lt (takeWhile_sublist _).length_le hn
  rw [← Place.past_nil, Linked.seek_eq (show Linked next head ([] ++ l) from hl), if_pos hle]
  exact ⟨_, rfl⟩

variable [DecidableEq α]

/-- The nodes when `v` is stored. -/
def storeNext (next : α → Option α) (v : Option α) : Place α → α → Option α
  | .first => next
  | .behind a => Function.update next a v

theorem storeNext_of_ne {v : Option α} {last : Place α} (h : last ≠ .behind a) : storeNext next v last a = next a := by
  cases last with
  | first => rfl
  | behind b =>
    refine update_of_ne ?_ _ _
    intro hab
    exact h (hab ▸ rfl)

theorem Linked.store {next' : α → Option α} {v : Option α} : ∀ {l1 : List α} {head : Option α}, Linked next head (l1 ++ l2) →
    (l1 ++ l).Nodup → (∀ b ∈ l1, next' b = next b) → Linked next' v l →
    Linked (storeNext next' v (.past l1)) (storeHead head v (.past l1)) (l1 ++ l)
  | [], head, _, _, _, hv => hv
  | [b], head, hl, hnd, _, hv => by
    have hb : b ∉ l := (nodup_cons.1 hnd).1
    refine ⟨hl.1, ?_⟩
    change Linked (update next' b v) (update next' b v b) l
    rw [update_self]
    refine hv.congr fun c hc => update_of_ne ?_ _ _
    intro hcb
    exact hb (hcb ▸ hc)
  | b :: c :: l1, head, hl, hnd, heq, hv => by
    have hnd' := nodup_cons.1 hnd
    have hrest : Linked (storeNext next' v (.past (c :: l1))) (storeHead (next b) v (.past (c :: l1))) (c :: l1 ++ l) :=
      Linked.store hl.2 hnd'.2 (fun d hd => heq d (mem_cons_of_mem _ hd)) hv
    have hpast : Place.past (b :: c :: l1) = Place.past (c :: l1) := by
      rfl
    obtain ⟨d, hd⟩ : ∃ d, (c :: l1).getLast? = some d := ⟨_, getLast?_eq_getLast_of_ne_nil (by simp)⟩
    have hmem : d ∈ c :: l1 := mem_of_getLast? hd
    have hplace : Place.past (c :: l1) = .behind d := by rw [Place.past, hd]
    rw [hpast]
    rw [hplace] at hrest ⊢
    refine ⟨hl.1, ?_⟩
    have hbd : Place.behind d ≠ .behind b := by
      intro hdb
      cases hdb
      exact hnd'.1 (mem_append_left _ hmem)
    rw [storeNext_of_ne hbd, heq b (by simp)]
    exact hrest

/-- `a->next = *last; *last = a;` -/
theorem Linked.insert (hl : Linked next head (l1 ++ l2)) (hnd : (l1 ++ l2).Nodup) (ha : a ∉ l1 ++ l2) :
    Linked (storeNext (update next a (deref next head (.past l1))) (some a) (.past l1))
      (storeHead head (some a) (.past l1)) (l1 ++ a :: l2) := by
  have hne : ∀ b ∈ l1 ++ l2, update next a (deref next head (.past l1)) b = next b := by
    intro b hb
    refine update_of_ne ?_ _ _
    intro hba
    exact ha (hba ▸ hb)
  have hnd' : (l1 ++ a :: l2).Nodup := by
    rw [nodup_middle, nodup_cons]
    exact ⟨ha, hnd⟩
  refine hl.store hnd' (fun b hb => hne b (mem_append_left _ hb)) ⟨rfl, ?_⟩
  rw [update_self]
  have hrest : Linked next (deref next head (.past l1)) l2 := by
    have hsplit := hl.split
    rwa [hsplit.head, ← hl.deref_past] at hsplit
  exact hrest.congr fun b hb => hne b (mem_append_right _ hb)

theorem Linked.remove (hl : Linked next head (l1 ++ a :: l2)) (hnd : (l1 ++ a :: l2).Nodup) :
    Linked (storeNext next (next a) (.past l1)) (storeHead head (next a) (.past l1)) (l1 ++ l2) := by
  have hnd' : (l1 ++ l2).Nodup := by
    rw [nodup_middle, nodup_cons] at hnd
    exact hnd.2
  exact hl.store hnd' (fun _ _ => rfl) hl.node.2

end Chain
