/-
Queues linked through the nodes: a pointer to the first node, one to the last,
and in each node one to the next.

`IsQueue next head tail l` says that the nodes are those of `l` in order. The
three operations are on the pointers, as a program has them: put at the tail,
take from the head, put at the head.
-/
import Mathlib.Data.List.Basic
import Mathlib.Tactic.Ring

namespace Chain

open Function List

variable {α : Type}

/-- From `h` on, the pointers lead along `l` and end there. -/
def Linked (next : α → Option α) : Option α → List α → Prop
  | h, [] => h = none
  | h, a :: l => h = some a ∧ Linked next (next a) l

structure IsQueue (next : α → Option α) (head tail : Option α) (l : List α) : Prop where
  linked : Linked next head l
  tail : tail = l.getLast?
  nodup : l.Nodup

variable {next next' : α → Option α} {l : List α} {h : Option α} {a : α}

theorem Linked.congr : ∀ {l : List α} {h : Option α}, Linked next h l →
    (∀ a ∈ l, next' a = next a) → Linked next' h l
  | [], _, hl, _ => hl
  | a :: l, h, ⟨hh, hl⟩, heq => by
    refine ⟨hh, ?_⟩
    rw [heq a (by simp)]
    exact hl.congr fun b hb => heq b (by simp [hb])

theorem IsQueue.congr {head tail : Option α} (h : IsQueue next head tail l)
    (heq : ∀ a ∈ l, next' a = next a) : IsQueue next' head tail l :=
  ⟨h.linked.congr heq, h.tail, h.nodup⟩

theorem IsQueue.empty (next : α → Option α) : IsQueue next none none [] := ⟨rfl, rfl, nodup_nil⟩

theorem Linked.head (hl : Linked next h l) : h = l.head? := by
  cases l with
  | nil => exact hl
  | cons a l => exact hl.1

theorem IsQueue.head {head tail : Option α} (h : IsQueue next head tail l) :
    head = l.head? := h.linked.head

theorem IsQueue.head_none_iff {head tail : Option α}
    (h : IsQueue next head tail l) : head = none ↔ l = [] := by
  rw [h.head, head?_eq_none_iff]

theorem IsQueue.tail_none_iff {head tail : Option α}
    (h : IsQueue next head tail l) : tail = none ↔ l = [] := by
  rw [h.tail, getLast?_eq_none_iff]

theorem IsQueue.exists_last {head tail : Option α}
    (h : IsQueue next head tail l) (ha : head = some a) : ∃ l' b, l = l' ++ [b] ∧ tail = some b := by
  rcases eq_nil_or_concat l with rfl | ⟨l', b, hl⟩
  · rw [h.head_none_iff.2 rfl] at ha
    exact nomatch ha
  · rw [concat_eq_append] at hl
    refine ⟨l', b, hl, ?_⟩
    rw [h.tail, hl, getLast?_concat]

theorem Linked.split : ∀ {l l' : List α} {h : Option α}, Linked next h (l ++ l') →
    Linked next (match l.getLast? with | none => h | some a => next a) l'
  | [], _, _, hl => hl
  | [a], _, _, hl => hl.2
  | a :: b :: l, l', h, hl => by
    have := hl.2.split (l := b :: l)
    rw [getLast?_cons_cons]
    exact this

theorem Linked.node {l' : List α} (hl : Linked next h (l ++ a :: l')) :
    Linked next (some a) (a :: l') := by
  have hs := hl.split
  exact ⟨rfl, hs.2⟩

theorem Linked.cut {next next' : α → Option α} {a : α} (ha : next' a = none) : ∀ {l l' : List α} {h : Option α},
    Linked next h (l ++ a :: l') → (∀ b ∈ l, next' b = next b) → Linked next' h (l ++ [a])
  | [], _, _, hl, _ => ⟨hl.1, ha⟩
  | b :: l, _, _, hl, heq => by
    refine ⟨hl.1, ?_⟩
    rw [heq b (by simp)]
    exact Linked.cut ha hl.2 fun c hc => heq c (by simp [hc])

/-- The pointers lead from `a` along `l`; where the last one leads is left open. -/
def Path (next : α → Option α) : α → List α → Prop
  | _, [] => True
  | a, b :: l => next a = some b ∧ Path next b l

theorem Path.linked : ∀ {l : List α} {a b : α}, Path next a l → (a :: l).getLast? = some b →
    next b = none → Linked next (some a) (a :: l)
  | [], a, b, _, hb, hn => by
    obtain rfl : a = b := by simpa using hb
    exact ⟨rfl, hn⟩
  | c :: l, a, b, hp, hb, hn => by
    rw [getLast?_cons_cons] at hb
    refine ⟨rfl, ?_⟩
    rw [hp.1]
    exact hp.2.linked hb hn

theorem Path.congr : ∀ {l : List α} {a : α}, Path next a l →
    (∀ b, b = a ∨ b ∈ l → (a :: l).getLast? ≠ some b → next' b = next b) → (a :: l).Nodup → Path next' a l
  | [], _, _, _, _ => trivial
  | b :: l, a, hp, heq, hnd => by
    have hnd' := nodup_cons.1 hnd
    refine ⟨?_, hp.2.congr (fun c hc hlast => ?_) hnd'.2⟩
    · rw [heq a (.inl rfl) fun hlast => hnd'.1 ?_]
      · exact hp.1
      · rw [getLast?_cons_cons] at hlast
        exact mem_of_getLast? hlast
    refine heq c (.inr ?_) (by rw [getLast?_cons_cons]; exact hlast)
    rcases hc with rfl | hc
    · exact mem_cons_self ..
    · exact mem_cons_of_mem _ hc

/-- The nodes the pointers lead along, at most `n` of them. -/
def toList (next : α → Option α) : Nat → Option α → List α
  | 0, _ => []
  | _ + 1, none => []
  | n + 1, some a => a :: toList next n (next a)

theorem Linked.toList_eq : ∀ {l : List α} {h : Option α} {n : Nat}, Linked next h l →
    l.length ≤ n → toList next n h = l
  | [], h, n, hl, _ => by
    rw [show h = none from hl]
    cases n <;> rfl
  | a :: l, h, n, hl, hn => by
    cases n with
    | zero => exact absurd hn (by simp)
    | succ n =>
      rw [hl.1, toList, hl.2.toList_eq (Nat.le_of_succ_le_succ hn)]

/-! ## Taking from the head -/

theorem IsQueue.dequeue {head tail : Option α}
    (h : IsQueue next head tail (a :: l)) :
    IsQueue next (next a) (if (next a).isNone then none else tail) l := by
  have hl := h.linked.2
  have htail := h.tail
  refine ⟨hl, ?_, (nodup_cons.mp h.nodup).2⟩
  cases l with
  | nil =>
    have hn : next a = none := hl
    rw [hn]; rfl
  | cons b l =>
    rw [hl.1, htail, getLast?_cons_cons]; rfl

/-- The same with the tail looked at once, after several have gone: the pointer to the last node is still right
as long as there is one. -/
theorem IsQueue.suffix {xs : List α} {head tail : Option α}
    (hq : IsQueue next head tail (xs ++ l)) (hl : Linked next h l) :
    IsQueue next h (if h.isNone then none else tail) l := by
  refine ⟨hl, ?_, (nodup_append.mp hq.nodup).2.1⟩
  cases l with
  | nil =>
    have hn : h = none := hl
    rw [hn]; rfl
  | cons a l =>
    rw [hl.1, hq.tail, getLast?_append_of_ne_nil _ (cons_ne_nil a l)]; rfl

/-! ## Putting at the tail -/

/-- `head = tail = a;` when there is no last node, for a node that points nowhere. -/
theorem IsQueue.enqueue_empty {head : Option α}
    (h : IsQueue next head none l) (hn : next a = none) : IsQueue next (some a) (some a) (l ++ [a]) := by
  obtain rfl : l = [] := h.tail_none_iff.mp rfl
  exact ⟨⟨rfl, hn⟩, rfl, by simp⟩

section

variable [DecidableEq α]

theorem Linked.append {next : α → Option α} {a : α} (hn : next a = none) : ∀ {l : List α} {h : Option α} {p : α},
    Linked next h (l ++ [p]) → a ∉ l ++ [p] → (l ++ [p]).Nodup →
    Linked (update next p (some a)) h (l ++ [p] ++ [a])
  | [], h, p, hl, ha, _ => by
    have hpa : a ≠ p := by simpa using ha
    refine ⟨hl.1, by simp, ?_⟩
    change update next p (some a) a = none
    rw [update_of_ne hpa, hn]
  | b :: l, h, p, hl, ha, hnd => by
    have hnd' := nodup_cons.mp hnd
    have hbp : b ≠ p := fun e => hnd'.1 (by simp [e])
    refine ⟨hl.1, ?_⟩
    rw [update_of_ne hbp]
    exact Linked.append hn hl.2 (fun h => ha (mem_cons_of_mem _ h)) hnd'.2

/-- `tail->next = head'; tail = tail';`: one queue behind the other. -/
theorem Linked.concat {next : α → Option α} {a : α} {l' : List α} {h' : Option α} (hl' : Linked next h' l') :
    ∀ {l : List α} {h : Option α}, Linked next h (l ++ [a]) → (l ++ a :: l').Nodup →
    Linked (update next a h') h (l ++ a :: l')
  | [], h, hl, hnd => by
    have hnd' := nodup_cons.mp hnd
    refine ⟨hl.1, ?_⟩
    rw [update_self]
    exact hl'.congr fun b hb => update_of_ne (fun e => hnd'.1 (by simpa [e] using hb)) ..
  | b :: l, h, hl, hnd => by
    have hnd' := nodup_cons.mp hnd
    have hba : b ≠ a := fun e => hnd'.1 (by simp [e])
    refine ⟨hl.1, ?_⟩
    rw [update_of_ne hba]
    exact Linked.concat hl' hl.2 hnd'.2

theorem IsQueue.enqueue {head : Option α} {p : α}
    (h : IsQueue next head (some p) l) (ha : a ∉ l) (hn : next a = none) :
    IsQueue (update next p (some a)) head (some a) (l ++ [a]) := by
  rcases eq_nil_or_concat l with rfl | ⟨l, b, hl⟩
  · exact absurd h.tail (by simp)
  rw [concat_eq_append] at hl
  subst hl
  have hpb : some p = some b := by rw [h.tail]; simp
  obtain rfl : p = b := Option.some.inj hpb
  refine ⟨Linked.append hn h.linked ha h.nodup, by simp, ?_⟩
  rw [nodup_append]
  refine ⟨h.nodup, by simp, ?_⟩
  intro x hx y hy hxy
  rw [mem_singleton] at hy
  exact ha (hy ▸ hxy ▸ hx)

/-! ## Putting at the head -/

theorem IsQueue.push {head tail : Option α}
    (h : IsQueue next head tail l) (ha : a ∉ l) :
    IsQueue (update next a head) (some a) (if tail.isNone then some a else tail) (a :: l) := by
  refine ⟨⟨rfl, ?_⟩, ?_, nodup_cons.mpr ⟨ha, h.nodup⟩⟩
  · rw [update_self]
    refine h.linked.congr fun b hb => update_of_ne ?_ _ _
    intro e
    exact ha (e ▸ hb)
  rw [h.tail]
  cases l with
  | nil => rfl
  | cons b l => rw [getLast?_cons_cons]; rfl

end

end Chain
