/-
The queues of the channels, and who meets whom.

`Inv` is what is seen of a run with the values left out: where each thread is, what its
tag is, which entry was carried out (`did`), and which entries are in which queue. An
`alt` that waits is met by at most one thread, and by one as soon as its tag is a
channel.
-/
import Plan9.Libthread.Channel

namespace Plan9.Libthread

open Function Option List

variable {T C V : Type}

/-! ## The queue of a channel -/

/-- `c->qentry[i] == a` -/
def At (q : List (Option (T × Nat))) (i : Nat) (a : T × Nat) : Prop := q[i]? = some (some a)

/-- An entry is in a queue once at most. -/
def Once (q : List (Option (T × Nat))) : Prop := ∀ i j a, At q i a → At q j a → i = j

variable {q : List (Option (T × Nat))} {a : T × Nat}

theorem mem_iff_at : some a ∈ q ↔ ∃ i, At q i a := mem_iff_getElem?

theorem emptyentry_at (q : List (Option (T × Nat))) :
    (∀ b, ¬ At q (emptyentry q).1 b) ∧ (emptyentry q).1 < (emptyentry q).2.length ∧
      ∀ i b, At (emptyentry q).2 i b ↔ At q i b := by
  unfold emptyentry
  cases h : q.findIdx? Option.isNone with
  | some i =>
    obtain ⟨hi, hnone, -⟩ := findIdx?_eq_some_iff_getElem.1 h
    refine ⟨?_, hi, fun _ _ => Iff.rfl⟩
    intro b hb
    rw [At, getElem?_eq_getElem hi] at hb
    rw [some.inj hb] at hnone
    cases hnone
  | none =>
    refine ⟨?_, ?_, ?_⟩
    · intro b hb
      rw [At, getElem?_eq_none le_rfl] at hb
      cases hb
    · rw [length_append, length_replicate]
      exact Nat.lt_add_of_pos_right (by decide)
    intro i b
    unfold At
    by_cases hi : i < q.length
    · rw [getElem?_append_left hi]
    · have hle := Nat.le_of_not_lt hi
      rw [getElem?_append_right hle, getElem?_eq_none hle, getElem?_replicate]
      split <;> simp

theorem enqueue_at (q : List (Option (T × Nat))) (a : T × Nat) :
    ∃ e, (∀ b, ¬ At q e b) ∧ ∀ i b, At (enqueue q a) i b ↔ i = e ∧ b = a ∨ i ≠ e ∧ At q i b := by
  obtain ⟨hfree, hlt, hsame⟩ := emptyentry_at q
  refine ⟨(emptyentry q).1, hfree, ?_⟩
  intro i b
  by_cases hi : i = (emptyentry q).1
  · subst hi
    rw [At, enqueue, getElem?_set_self hlt]
    simp [eq_comm]
  · rw [At, enqueue, getElem?_set_ne (Ne.symm hi)]
    simp only [hi, false_and, false_or, ne_eq, not_false_eq_true, true_and]
    exact hsame i b

theorem dequeue_at [DecidableEq T] (hq : Once q) (a : T × Nat) (i : Nat) (b : T × Nat) :
    At (dequeue q a) i b ↔ At q i b ∧ b ≠ a := by
  unfold dequeue
  cases h : q.findIdx? (· == some a) with
  | none =>
    refine ⟨fun hb => ⟨hb, ?_⟩, And.left⟩
    intro hba
    have hnone := findIdx?_eq_none_iff.1 h (some b) (mem_of_getElem? hb)
    rw [hba] at hnone
    simp at hnone
  | some j =>
    obtain ⟨hj, hja, -⟩ := findIdx?_eq_some_iff_getElem.1 h
    have hat : At q j a := by
      rw [At, getElem?_eq_getElem hj, LawfulBEq.eq_of_beq hja]
    by_cases hi : i = j
    · subst hi
      rw [At, getElem?_set_self hj]
      refine ⟨fun hb => ?_, ?_⟩
      · cases hb
      rintro ⟨hb, hne⟩
      rw [At] at hat hb
      rw [hat] at hb
      exact absurd (some.inj (some.inj hb)).symm hne
    rw [At, getElem?_set_ne (Ne.symm hi)]
    refine ⟨fun hb => ⟨hb, ?_⟩, And.left⟩
    intro hba
    exact hi (hq i j a (hba ▸ hb) hat)

theorem Once.enqueue (hq : Once q) (ha : ∀ i, ¬ At q i a) : Once (enqueue q a) := by
  obtain ⟨e, -, hat⟩ := enqueue_at q a
  intro i j b hi hj
  rcases (hat i b).1 hi with ⟨rfl, rfl⟩ | ⟨-, hi⟩
  · rcases (hat j b).1 hj with ⟨rfl, -⟩ | ⟨-, hj⟩
    · rfl
    · exact absurd hj (ha j)
  · rcases (hat j b).1 hj with ⟨-, hba⟩ | ⟨-, hj⟩
    · exact absurd (hba ▸ hi) (ha i)
    · exact hq i j b hi hj

theorem Once.dequeue [DecidableEq T] (hq : Once q) (a : T × Nat) : Once (dequeue q a) := by
  intro i j b hi hj
  exact hq i j b ((dequeue_at hq a i b).1 hi).1 ((dequeue_at hq a j b).1 hj).1

/-! ## What a loop over the entries selects -/

theorem lastOf_none {α : Type} {f : α → Bool} : ∀ {as : List α} {i : Nat}, lastOf f i as = none → ∀ a ∈ as, f a = false
  | [], _, _, a, ha => nomatch ha
  | b :: as, i, h, a, ha => by
    rw [lastOf, Option.or_eq_none_iff] at h
    rcases mem_cons.1 ha with rfl | ha
    · cases hb : f a with
      | false => rfl
      | true =>
        rw [hb] at h
        cases h.2
    · exact lastOf_none h.1 a ha

theorem lastOf_some {α : Type} {f : α → Bool} : ∀ {as : List α} {i j : Nat}, lastOf f i as = some j →
    i ≤ j ∧ (∃ a, as[j - i]? = some a ∧ f a = true) ∧ ∀ k a, as[k]? = some a → f a = true → i + k ≤ j
  | [], _, _, h => nomatch h
  | b :: as, i, j, h => by
    rw [lastOf] at h
    cases hrest : lastOf f (i + 1) as with
    | some j' =>
      rw [hrest] at h
      obtain rfl : j' = j := some.inj h
      obtain ⟨hle, ⟨a, ha, hf⟩, hlast⟩ := lastOf_some hrest
      refine ⟨by omega, ⟨a, ?_, hf⟩, ?_⟩
      · rw [show j' - i = j' - (i + 1) + 1 by omega, getElem?_cons_succ]
        exact ha
      intro k a hk hf
      cases k with
      | zero => omega
      | succ k =>
        have := hlast k a (by simpa using hk) hf
        omega
    | none =>
      rw [hrest] at h
      cases hb : f b with
      | false => rw [hb] at h; cases h
      | true =>
        rw [hb] at h
        obtain rfl : i = j := some.inj h
        refine ⟨le_rfl, ⟨b, by rw [Nat.sub_self]; rfl, hb⟩, ?_⟩
        intro k a hk hf
        cases k with
        | zero => exact le_rfl
        | succ k =>
          have hnone := lastOf_none hrest a (mem_of_getElem? (by simpa using hk))
          rw [hnone] at hf
          cases hf

namespace Chans

/-! ## The entries and the queues -/

/-- The channel an entry of `t` is for. -/
def named (s : Chans T C V) (t : T) (j : Nat) : Option C :=
  (s.entry (t, j)).bind fun a => if a.op = .CHANNOP then none else a.c

def queue (s : Chans T C V) (c : C) : List (Option (T × Nat)) := (s.chan c).qentry

/-- Only the queues are others. -/
def setQueues (s : Chans T C V) (q : C → List (Option (T × Nat))) : Chans T C V :=
  { s with chan := fun c => { s.chan c with qentry := q c } }

variable {s s' : Chans T C V} {t w : T} {c : C}

theorem setQueues_queue (s : Chans T C V) : s.setQueues s.queue = s := rfl

variable [DecidableEq C]

theorem setQueues_chan (s : Chans T C V) (q : C → List (Option (T × Nat))) (c : C) (x : List (Option (T × Nat))) :
    (s.setQueues q).setChan c { (s.setQueues q).chan c with qentry := x } = s.setQueues (update q c x) := by
  unfold setChan setQueues
  congr 1
  funext c'
  by_cases hc : c' = c
  · subst hc
    simp only [update_self]
  · simp only [update_of_ne hc]

omit [DecidableEq C] in
theorem opens_some {a : Alt C V} (h : s.opens a = some c) :
    a.c = some c ∧ a.op ≠ .CHANNOP ∧ isopenfor (s.chan c) a.op = true := by
  unfold opens at h
  cases hc : a.c with
  | none => rw [hc] at h; cases h
  | some c' =>
    rw [hc] at h
    dsimp only at h
    split at h
    · rename_i hopen
      obtain rfl : c' = c := some.inj h
      exact ⟨rfl, hopen⟩
    · cases h

/-- What is in the queues after the entries `as`, numbered from `i` on, that are open are put in. -/
theorem enqueueAll_queues (s : Chans T C V) (t : T) : ∀ (as : List (Alt C V)) (i : Nat) (q : C → List (Option (T × Nat))),
    (∀ c j k, i ≤ k → ¬ At (q c) j (t, k)) → (∀ c, Once (q c)) →
    ∃ q', (s.setQueues q).enqueueAll t i as = s.setQueues q' ∧ (∀ c, Once (q' c)) ∧
      (∀ c j b, At (q c) j b → At (q' c) j b) ∧
      ∀ c j b, At (q' c) j b → At (q c) j b ∨ ∃ k a, as[k]? = some a ∧ b = (t, i + k) ∧ s.opens a = some c
  | [], i, q, _, hq => ⟨q, rfl, hq, fun _ _ _ => id, fun _ _ _ => .inl⟩
  | a :: as, i, q, hfree, hq => by
    have hopens : (s.setQueues q).opens a = s.opens a := rfl
    rw [enqueueAll, hopens]
    cases ho : s.opens a with
    | none =>
      obtain ⟨q', heq, hq', hkeep, hnew⟩ := enqueueAll_queues s t as (i + 1) q
        (fun c j k hk => hfree c j k (Nat.le_of_succ_le hk)) hq
      refine ⟨q', heq, hq', hkeep, ?_⟩
      intro c j b hb
      rcases hnew c j b hb with h | ⟨k, a', ha', rfl, ho'⟩
      · exact .inl h
      · exact .inr ⟨k + 1, a', ha', by rw [Nat.add_assoc, Nat.add_comm 1 k], ho'⟩
    | some c0 =>
      dsimp only
      rw [setQueues_chan]
      obtain ⟨e, he, hat⟩ := enqueue_at ((s.setQueues q).chan c0).qentry (t, i)
      have hcases : ∀ c j b, At (update q c0 (enqueue ((s.setQueues q).chan c0).qentry (t, i)) c) j b ↔
          (c = c0 ∧ j = e ∧ b = (t, i)) ∨ At (q c) j b := by
        intro c j b
        by_cases hc : c = c0
        · subst hc
          rw [update_self, hat]
          refine ⟨?_, ?_⟩
          · rintro (⟨hj, hb⟩ | ⟨-, hb⟩)
            · exact .inl ⟨rfl, hj, hb⟩
            · exact .inr hb
          rintro (⟨-, hj, hb⟩ | hb)
          · exact .inl ⟨hj, hb⟩
          · refine .inr ⟨?_, hb⟩
            intro hj
            exact he b (hj ▸ hb)
        · simp [hc]
      have hfree' : ∀ c j k, i + 1 ≤ k → ¬ At (update q c0 (enqueue ((s.setQueues q).chan c0).qentry (t, i)) c) j (t, k) := by
        intro c j k hk hb
        rcases (hcases c j (t, k)).1 hb with ⟨-, -, hb⟩ | hb
        · have := congrArg Prod.snd hb
          omega
        · exact hfree c j k (Nat.le_of_succ_le hk) hb
      have honce : ∀ c, Once (update q c0 (enqueue ((s.setQueues q).chan c0).qentry (t, i)) c) := by
        intro c
        by_cases hc : c = c0
        · subst hc
          rw [update_self]
          exact (hq c).enqueue fun j => hfree c j i (Nat.le_refl i)
        · rw [update_of_ne hc]
          exact hq c
      obtain ⟨q', heq, hq', hkeep, hnew⟩ := enqueueAll_queues s t as (i + 1) _ hfree' honce
      refine ⟨q', heq, hq', fun c j b hb => hkeep c j b ((hcases c j b).2 (.inr hb)), ?_⟩
      intro c j b hb
      rcases hnew c j b hb with h | ⟨k, a', ha', rfl, ho'⟩
      · rcases (hcases c j b).1 h with ⟨rfl, -, rfl⟩ | h
        · exact .inr ⟨0, a, rfl, rfl, ho⟩
        · exact .inl h
      · exact .inr ⟨k + 1, a', ha', by rw [Nat.add_assoc, Nat.add_comm 1 k], ho'⟩

variable [DecidableEq T]

theorem dequeueAll_queues (s : Chans T C V) (t : T) : ∀ (as : List (Alt C V)) (i : Nat) (q : C → List (Option (T × Nat))),
    (∀ c, Once (q c)) →
    ∃ q', (s.setQueues q).dequeueAll t i as = s.setQueues q' ∧ (∀ c, Once (q' c)) ∧
      ∀ c j b, At (q' c) j b ↔ At (q c) j b ∧ ¬ ∃ k a, as[k]? = some a ∧ b = (t, i + k) ∧ a.op ≠ .CHANNOP ∧ a.c = some c
  | [], i, q, hq => ⟨q, rfl, hq, fun c j b => by simp⟩
  | a :: as, i, q, hq => by
    -- The entry `a` itself, and what is left for the others.
    have hsplit : ∀ (c : C) (b : T × Nat),
        (∃ k a', (a :: as)[k]? = some a' ∧ b = (t, i + k) ∧ a'.op ≠ .CHANNOP ∧ a'.c = some c) ↔
        (b = (t, i) ∧ a.op ≠ .CHANNOP ∧ a.c = some c) ∨
          ∃ k a', as[k]? = some a' ∧ b = (t, i + 1 + k) ∧ a'.op ≠ .CHANNOP ∧ a'.c = some c := by
      intro c b
      refine ⟨?_, ?_⟩
      · rintro ⟨k, a', ha', hb, hop, hc⟩
        cases k with
        | zero =>
          obtain rfl : a = a' := by simpa using ha'
          exact .inl ⟨hb, hop, hc⟩
        | succ k => exact .inr ⟨k, a', by simpa using ha', by rw [hb, Nat.add_assoc, Nat.add_comm 1 k], hop, hc⟩
      · rintro (⟨hb, hop, hc⟩ | ⟨k, a', ha', hb, hop, hc⟩)
        · exact ⟨0, a, rfl, hb, hop, hc⟩
        · exact ⟨k + 1, a', ha', by rw [hb, Nat.add_assoc, Nat.add_comm 1 k], hop, hc⟩
    rw [dequeueAll]
    have hskip : (∀ c, ¬ (a.op ≠ .CHANNOP ∧ a.c = some c)) →
        ∃ q', (s.setQueues q).dequeueAll t (i + 1) as = s.setQueues q' ∧ (∀ c, Once (q' c)) ∧
          ∀ c j b, At (q' c) j b ↔ At (q c) j b ∧
            ¬ ∃ k a', (a :: as)[k]? = some a' ∧ b = (t, i + k) ∧ a'.op ≠ .CHANNOP ∧ a'.c = some c := by
      intro hno
      obtain ⟨q', heq, hq', hat⟩ := dequeueAll_queues s t as (i + 1) q hq
      refine ⟨q', heq, hq', ?_⟩
      intro c j b
      rw [hat, hsplit, or_iff_right (fun h => hno c h.2)]
    cases hac : a.c with
    | none => exact hskip fun c h => by rw [hac] at h; exact nomatch h.2
    | some c0 =>
      dsimp only
      split
      · rename_i hop
        exact hskip fun c h => h.1 hop
      rename_i hop
      rw [setQueues_chan]
      have honce : ∀ c, Once (update q c0 (dequeue ((s.setQueues q).chan c0).qentry (t, i)) c) := by
        intro c
        by_cases hc : c = c0
        · subst hc
          rw [update_self]
          exact (hq c).dequeue (t, i)
        · rw [update_of_ne hc]
          exact hq c
      obtain ⟨q', heq, hq', hat⟩ := dequeueAll_queues s t as (i + 1) _ honce
      refine ⟨q', heq, hq', ?_⟩
      intro c j b
      rw [hat, hsplit]
      by_cases hc : c = c0
      · subst hc
        have hd := dequeue_at (hq c) (t, i) j b
        rw [update_self, show (((s.setQueues q).chan c).qentry) = q c from rfl, hd]
        rw [and_assoc, ← not_or]
        simp only [hop, hac, ne_eq, not_false_eq_true, and_true]
      rw [update_of_ne hc, or_iff_right]
      rintro ⟨-, -, hac'⟩
      rw [hac] at hac'
      exact hc (some.inj hac').symm

end Chans

end Plan9.Libthread
