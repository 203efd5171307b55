/-
A blocked sender means a full buffer, and a blocked receiver an empty one.

So nothing is aborted. A channel that is being closed takes no new entry, and once the
loop of `chanclose` is over none is left that can be met.
-/
import Plan9.Libthread.ChannelSteps

namespace Plan9.Libthread

open Function Option

variable {T C V : Type}

/-- How far the loop of `chanclose` is. -/
def Pc.scanned : Pc T C → Option (C × Nat)
  | .closing _ c i => some (c, i + 1)
  | .closed c i => some (c, i)
  | _ => none

namespace Chans

/-- An entry in a queue that can be met. -/
def Open (s : Chans T C V) (c : C) (j : Nat) (op : ChanOp) (p : T × Nat) : Prop :=
  At (s.queue c) j p ∧ s.tag p.1 = .nil ∧ ∃ b, s.entry p = some b ∧ b.op = op

structure Full (s : Chans T C V) : Prop where
  le : ∀ c, (s.chan c).n ≤ (s.chan c).s
  snd : ∀ c j p, s.Open c j .CHANSND p → (s.chan c).n = (s.chan c).s
  rcv : ∀ c j p, s.Open c j .CHANRCV p → (s.chan c).n = 0
  aborted : s.aborted = false
  shut : ∀ c, (s.chan c).closed = 2 → ∀ j p, At (s.queue c) j p → s.tag p.1 ≠ .nil
  scanned : ∀ t c i, (s.pc t).scanned = some (c, i) →
    (s.chan c).closed ≠ 0 ∧ ∀ j p, j < i → At (s.queue c) j p → s.tag p.1 ≠ .nil

variable {s s' : Chans T C V} {t : T} {c : C} {p : T × Nat} {i : Nat} {a b : Alt C V} {zero : V}

theorem Full.init (h : s.Init) : s.Full := by
  have hat : ∀ c j p, ¬ At (s.queue c) j p := by
    intro c j p hp
    rw [At, queue, (h.chan c).2.2.2] at hp
    cases hp
  refine ⟨?_, ?_, ?_, h.aborted, ?_, ?_⟩
  · intro c
    rw [(h.chan c).2.1]
    exact Nat.zero_le _
  · intro c j p hp
    exact absurd hp.1 (hat c j p)
  · intro c j p hp
    exact absurd hp.1 (hat c j p)
  · intro c _ j p hp
    exact absurd hp (hat c j p)
  · intro t c i ht
    rw [h.pc t] at ht
    cases ht

/-- What is in no queue is nowhere `Open`, and what is met is not any more. -/
structure Shrinks (s s' : Chans T C V) : Prop where
  at_ : ∀ c j p, At (s'.queue c) j p → At (s.queue c) j p
  tag : ∀ c j p, At (s'.queue c) j p → s'.tag p.1 = .nil → s.tag p.1 = .nil
  entry : ∀ c j p, At (s'.queue c) j p → ∀ b, s'.entry p = some b → ∃ b', s.entry p = some b' ∧ b'.op = b.op

theorem Shrinks.open (h : Shrinks s s') {j : Nat} {op : ChanOp} (hp : s'.Open c j op p) : s.Open c j op p := by
  obtain ⟨hat, htag, b, hb, hop⟩ := hp
  obtain ⟨b', hb', hop'⟩ := h.entry c j p hat b hb
  exact ⟨h.at_ c j p hat, h.tag c j p hat htag, b', hb', hop'.trans hop⟩

theorem Full.shrinks (hf : s.Full) (h : Shrinks s s')
    (hchan : ∀ c, (s'.chan c).n = (s.chan c).n ∧ (s'.chan c).s = (s.chan c).s ∧ (s'.chan c).closed = (s.chan c).closed)
    (haborted : s'.aborted = s.aborted) (hscan : ∀ t x, (s'.pc t).scanned = some x → (s.pc t).scanned = some x) :
    s'.Full := by
  refine ⟨?_, ?_, ?_, haborted.trans hf.aborted, ?_, ?_⟩
  · intro c
    rw [(hchan c).1, (hchan c).2.1]
    exact hf.le c
  · intro c j p hp
    rw [(hchan c).1, (hchan c).2.1]
    exact hf.snd c j p (h.open hp)
  · intro c j p hp
    rw [(hchan c).1]
    exact hf.rcv c j p (h.open hp)
  · intro c hclosed j p hp htag
    rw [(hchan c).2.2] at hclosed
    exact hf.shut c hclosed j p (h.at_ c j p hp) (h.tag c j p hp htag)
  intro t c i ht
  obtain ⟨hclosed, hbefore⟩ := hf.scanned t c i (hscan t (c, i) ht)
  rw [(hchan c).2.2]
  refine ⟨hclosed, fun j p hj hp htag => ?_⟩
  exact hbefore j p hj (h.at_ c j p hp) (h.tag c j p hp htag)

theorem Frame.shrinks (h : Frame s s') (htag : ∀ w, s''.tag w = .nil → s'.tag w = .nil) (hqueue : s''.queue = s'.queue)
    (halts : s''.alts = s'.alts) : Shrinks s s'' := by
  refine ⟨?_, ?_, ?_⟩
  · intro c j p hp
    rw [hqueue, h.queue] at hp
    exact hp
  · intro c j p _ hnil
    have := htag p.1 hnil
    rwa [h.tag] at this
  intro c j p _ b hb
  have hentry := h.entry p
  have hb' : s'.entry p = some b := by
    unfold Chans.entry at hb ⊢
    rwa [halts] at hb
  rw [hb', map_some, eq_comm, map_eq_some_iff] at hentry
  obtain ⟨b', hb', heq⟩ := hentry
  exact ⟨b', hb', (Prod.mk.inj (Prod.mk.inj heq).2).1⟩

variable [DecidableEq C]

/-! ## What can be met -/

theorem open_of_blocked {op : ChanOp} (hmem : some p ∈ (s.chan c).qentry) (hblocked : s.blocked op p = true) :
    ∃ j, s.Open c j op p := by
  obtain ⟨j, hat⟩ := mem_iff_at.1 hmem
  exact ⟨j, hat, blocked_tag hblocked⟩

theorem Open.blocked {op : ChanOp} {j : Nat} (h : s.Open c j op p) : s.blocked op p = true := by
  obtain ⟨-, htag, b, hb, hop⟩ := h
  unfold Chans.blocked
  rw [hb, Option.any_some, htag, hop, Bool.and_eq_true]
  exact ⟨beq_self_eq_true op, rfl⟩

theorem not_open {op : ChanOp} (h : (s.chan c).qentry.any (·.any (s.blocked op)) = false) (j : Nat) (p : T × Nat) :
    ¬ s.Open c j op p := by
  intro hopen
  rw [List.any_eq_false] at h
  refine h (some p) (List.mem_of_getElem? hopen.1) ?_
  exact hopen.blocked

omit [DecidableEq C] in
theorem Inv.open_cases (hs : s.Inv) {j : Nat} (hat : At (s.queue c) j p) (htag : s.tag p.1 = .nil) :
    s.Open c j .CHANSND p ∨ s.Open c j .CHANRCV p := by
  obtain ⟨a, ha, hop, -⟩ := alts_of_named (hs.queued c j p hat).2
  cases hop' : a.op with
  | CHANSND => exact .inl ⟨hat, htag, a, ha, hop'⟩
  | CHANRCV => exact .inr ⟨hat, htag, a, ha, hop'⟩
  | CHANNOP => exact absurd hop' hop

theorem ready_some (h : s.ready a = some c) : s.opens a = some c ∧ s.canexec c a.op = true := by
  unfold ready at h
  cases ho : s.opens a with
  | none => rw [ho] at h; cases h
  | some c' =>
    rw [ho] at h
    dsimp only at h
    split at h
    · rename_i hexec
      obtain rfl : c' = c := some.inj h
      exact ⟨rfl, hexec⟩
    · cases h

theorem ready_none (h : s.ready a = none) (ho : s.opens a = some c) : s.canexec c a.op = false := by
  unfold ready at h
  rw [ho] at h
  dsimp only at h
  split at h
  · cases h
  · rename_i hexec
    exact eq_false_of_ne_true hexec

theorem canexec_false {op : ChanOp} (h : s.canexec c op = false) :
    (op = .CHANSND → (s.chan c).s ≤ (s.chan c).n) ∧ (op = .CHANRCV → (s.chan c).n = 0) := by
  unfold canexec at h
  rw [Bool.or_eq_false_iff, Bool.or_eq_false_iff] at h
  obtain ⟨-, hsnd, hrcv⟩ := h
  refine ⟨?_, ?_⟩
  · rintro rfl
    simpa using hsnd
  · rintro rfl
    simpa using hrcv

theorem closed_of_opens (hready : s.ready a = none) (ho : s.opens a = some c) : (s.chan c).closed = 0 := by
  obtain ⟨-, -, hopen⟩ := opens_some ho
  have hexec := canexec_false (ready_none hready ho)
  unfold isopenfor at hopen
  rw [Bool.or_eq_true, Bool.and_eq_true] at hopen
  rcases hopen with h | ⟨hop, hn⟩
  · simpa using h
  · have hzero := hexec.2 (LawfulBEq.eq_of_beq hop)
    rw [hzero] at hn
    cases hn

/-! ## Carrying out -/

variable [DecidableEq T]

theorem meet_counts (h : s.meet zero t i a c p b = some s') (c' : C) :
    (s'.chan c').n = (s.chan c').n ∧ (s'.chan c').s = (s.chan c').s := by
  unfold meet altexecbuffered at h
  dsimp only at h
  split at h
  · rename_i hn
    split at h
    · cases h
    rw [if_pos ⟨rfl, Nat.pos_of_ne_zero hn.2⟩] at h
    cases h
    dsimp only [carry, store, setChan]
    by_cases hc : c' = c
    · rw [hc, update_self]
      exact ⟨rfl, rfl⟩
    · rw [update_of_ne hc]
      exact ⟨rfl, rfl⟩
  · split at h <;> cases h <;> exact ⟨rfl, rfl⟩

theorem buffered_counts (h : s.buffered zero t i a c = some s') :
    (∀ c', c' ≠ c → s'.chan c' = s.chan c') ∧ (s'.chan c).s = (s.chan c).s ∧
    (a.op = .CHANRCV ∧ 0 < (s.chan c).n ∧ (s'.chan c).n = (s.chan c).n - 1 ∨
      a.op = .CHANSND ∧ (s.chan c).n < (s.chan c).s ∧ (s'.chan c).n = (s.chan c).n + 1) := by
  unfold buffered altexecbuffered at h
  by_cases hrcv : a.op = .CHANRCV ∧ 0 < (s.chan c).n
  · rw [if_pos hrcv] at h
    dsimp only at h
    rw [if_pos hrcv.1] at h
    cases h
    dsimp only [carry, store, setChan]
    rw [update_self]
    exact ⟨fun c' hc => update_of_ne hc .., rfl, .inl ⟨hrcv.1, hrcv.2, rfl⟩⟩
  rw [if_neg hrcv] at h
  by_cases hsnd : a.op = .CHANSND ∧ (s.chan c).n < (s.chan c).s
  · rw [if_pos hsnd] at h
    dsimp only at h
    rw [if_neg (by rw [hsnd.1]; simp)] at h
    cases h
    dsimp only [carry, setChan]
    rw [update_self]
    exact ⟨fun c' hc => update_of_ne hc .., rfl, .inr ⟨hsnd.1, hsnd.2, rfl⟩⟩
  · rw [if_neg hsnd] at h
    cases h

theorem Full.meet_some (hf : s.Full) (hready : s.ready a = some c) (hmem : some p ∈ (s.chan c).qentry)
    (hblocked : s.blocked (otherop a.op) p = true) : ∃ s', s.meet zero t i a c p b = some s' := by
  obtain ⟨j, hopen⟩ := open_of_blocked hmem hblocked
  obtain ⟨-, hop, -⟩ := opens_some (ready_some hready).1
  unfold meet altexecbuffered
  dsimp only
  split
  · rename_i hn
    have hrcv : a.op = .CHANRCV := by
      cases ha : a.op with
      | CHANSND =>
        rw [ha] at hopen
        exact absurd (hf.rcv c j p hopen) hn.2
      | CHANRCV => rfl
      | CHANNOP => exact absurd ha hop
    rw [if_neg (fun h => h hrcv), if_pos ⟨rfl, Nat.pos_of_ne_zero hn.2⟩]
    exact ⟨_, rfl⟩
  · split <;> exact ⟨_, rfl⟩

theorem buffered_some (hready : s.ready a = some c)
    (hnone : (s.chan c).qentry.any (·.any (s.blocked (otherop a.op))) = false) :
    ∃ s', s.buffered zero t i a c = some s' := by
  have hexec := (ready_some hready).2
  unfold canexec at hexec
  rw [hnone, Bool.false_or, Bool.or_eq_true, Bool.and_eq_true, Bool.and_eq_true] at hexec
  unfold buffered altexecbuffered
  rcases hexec with ⟨hop, hn⟩ | ⟨hop, hn⟩
  · have hop := LawfulBEq.eq_of_beq hop
    rw [if_neg (by rw [hop]; simp), if_pos ⟨hop, of_decide_eq_true hn⟩]
    dsimp only
    rw [if_neg (by rw [hop]; simp)]
    exact ⟨_, rfl⟩
  have hop := LawfulBEq.eq_of_beq hop
  rw [if_pos ⟨hop, of_decide_eq_true hn⟩]
  dsimp only
  rw [if_pos hop]
  exact ⟨_, rfl⟩

/-! ## The steps -/

omit [DecidableEq C] [DecidableEq T] in
theorem Inv.shrinks (hs : s.Inv) (hfree : s.Free t) (hqueue : ∀ c j p, At (s'.queue c) j p → At (s.queue c) j p)
    (htag : ∀ w, w ≠ t → s'.tag w = s.tag w) (halts : ∀ w, w ≠ t → s'.alts w = s.alts w) : Shrinks s s' := by
  refine ⟨hqueue, ?_, ?_⟩
  · intro c j p hp hnil
    rwa [htag p.1 (hs.notMem_free hfree (hqueue c j p hp))] at hnil
  intro c j p hp b hb
  unfold Chans.entry at hb ⊢
  rw [halts p.1 (hs.notMem_free hfree (hqueue c j p hp))] at hb
  exact ⟨b, hb, rfl⟩

omit [DecidableEq C] in
theorem scanned_goto {q : Pc T C} (hq : q.scanned = none) (hs' : s'.pc = update s.pc t q) :
    ∀ w x, (s'.pc w).scanned = some x → (s.pc w).scanned = some x := by
  intro w x hx
  rw [hs'] at hx
  by_cases hwt : w = t
  · rw [hwt, update_self, hq] at hx
    cases hx
  · rwa [update_of_ne hwt] at hx

omit [DecidableEq C] in
theorem Full.begin (hf : s.Full) (hs : s.Inv) (hfree : s.Free t) (alts : List (Alt C V)) (noblk : Bool) :
    (s.begin t alts noblk).Full :=
  hf.shrinks (hs.shrinks hfree (fun _ _ _ => id) (fun _ hw => update_of_ne hw ..) fun _ hw => update_of_ne hw ..)
    (fun _ => ⟨rfl, rfl, rfl⟩) rfl fun _ _ => id

theorem Full.await (hf : s.Full) (hs : s.Inv) (hfree : s.Free t) {alts : List (Alt C V)} (halts : s.alts t = alts)
    (hready : ∀ a ∈ alts, s.ready a = none) : (s.await t alts).Full := by
  have hshrinks : ∀ s' : Chans T C V, s'.queue = s.queue → s'.tag = s.tag → (∀ w, w ≠ t → s'.alts w = s.alts w) → Shrinks s s' :=
    fun s' hq htag ha => hs.shrinks hfree (fun c j p => by rw [hq]; exact id) (fun w _ => by rw [htag]) ha
  unfold Chans.await
  split
  · obtain ⟨q, heq, -, hkeep, hnew⟩ := enqueueAll_queues s t alts 0 s.queue
      (fun c j k _ hat => hs.notMem_free hfree hat rfl) hs.once
    rw [setQueues_queue] at heq
    rw [heq]
    -- What is new is the caller's, and the buffer is full or empty.
    have hopen : ∀ c j op p, ((s.setQueues q).goto t .waiting).Open c j op p → s.Open c j op p ∨
        ∃ a, s.opens a = some c ∧ s.ready a = none ∧ a.op = op := by
      intro c j op p hp
      rcases hnew c j p hp.1 with h | ⟨k, a, ha, rfl, ho⟩
      · exact .inl ⟨h, hp.2⟩
      obtain ⟨-, -, b, hb, hop⟩ := hp
      have hba : b = a := by
        change (s.alts t)[0 + k]? = some b at hb
        rw [halts, Nat.zero_add, ha] at hb
        exact (some.inj hb).symm
      exact .inr ⟨a, ho, hready a (List.mem_of_getElem? ha), hba ▸ hop⟩
    have hold : ∀ c j p, (s.chan c).closed ≠ 0 → At (q c) j p → At (s.queue c) j p := by
      intro c j p hclosed hp
      rcases hnew c j p hp with h | ⟨k, a, ha, -, ho⟩
      · exact h
      · exact absurd (closed_of_opens (hready a (List.mem_of_getElem? ha)) ho) hclosed
    refine ⟨hf.le, ?_, ?_, hf.aborted, ?_, ?_⟩
    · intro c j p hp
      rcases hopen c j _ p hp with h | ⟨a, ho, hr, hop⟩
      · exact hf.snd c j p h
      · exact Nat.le_antisymm (hf.le c) ((canexec_false (ready_none hr ho)).1 hop)
    · intro c j p hp
      rcases hopen c j _ p hp with h | ⟨a, ho, hr, hop⟩
      · exact hf.rcv c j p h
      · exact (canexec_false (ready_none hr ho)).2 hop
    · intro c hclosed j p hp
      have hne : (s.chan c).closed ≠ 0 := by
        rw [show (s.chan c).closed = 2 from hclosed]
        decide
      exact hf.shut c hclosed j p (hold c j p hne hp)
    intro w c i hw
    obtain ⟨hclosed, hbefore⟩ := hf.scanned w c i
      (scanned_goto (s := s) (t := t) (q := .waiting) rfl rfl w (c, i) hw)
    exact ⟨hclosed, fun j p hj hp => hbefore j p hj (hold c j p hclosed hp)⟩
  split
  · refine hf.shrinks (hshrinks _ rfl rfl fun w hw => update_of_ne hw ..) (fun _ => ⟨rfl, rfl, rfl⟩) rfl ?_
    exact scanned_goto rfl rfl
  · split
    · exact hf.shrinks (hshrinks _ rfl rfl fun _ _ => rfl) (fun _ => ⟨rfl, rfl, rfl⟩) rfl (scanned_goto rfl rfl)
    · exact hf.shrinks (hshrinks _ rfl rfl fun _ _ => rfl) (fun _ => ⟨rfl, rfl, rfl⟩) rfl (scanned_goto rfl rfl)

theorem Alts.full {alts : List (Alt C V)} {mate : Option (T × Nat)} (h : Alts zero s t alts mate s') (hs : s.Inv)
    (hf : s.Full) (hfree : s.Free t) (halts : s.alts t = alts) : s'.Full := by
  cases h with
  | @meet i a b c p s₁ _ hready hmem hblocked _ hmeet =>
    obtain ⟨hpt, -⟩ := hs.met_entry hfree hmem hblocked
    obtain ⟨hframe, -⟩ := meet_frame hpt hmeet
    have hshrinks : Shrinks s ((s₁.setTag p.1 (.chan c)).goto t (.meeting p.1 i)) := by
      refine hframe.shrinks ?_ rfl rfl
      intro w hw
      change update s₁.tag p.1 (.chan c) w = .nil at hw
      by_cases hwp : w = p.1
      · rw [hwp, update_self] at hw
        cases hw
      · rwa [update_of_ne hwp] at hw
    refine hf.shrinks hshrinks (fun c' => ?_) hframe.aborted ?_
    · obtain ⟨hn, hsz⟩ := meet_counts hmeet c'
      exact ⟨hn, hsz, hframe.closed c'⟩
    · refine scanned_goto (s := s) (t := t) (q := .meeting p.1 i) rfl ?_
      rw [← hframe.pc]
      rfl
  | @buffered i a c s₁ _ hready hnone hbuf =>
    obtain ⟨hframe, -, -⟩ := buffered_frame hbuf
    obtain ⟨hother, hsz, hcounts⟩ := buffered_counts hbuf
    have hshrinks : Shrinks s (s₁.goto t (.returned i)) := hframe.shrinks (fun _ => id) rfl rfl
    have hchan : ∀ c', c' ≠ c → (s₁.goto t (.returned i)).chan c' = s.chan c' := hother
    have hnot := not_open hnone
    refine ⟨?_, ?_, ?_, hframe.aborted.trans hf.aborted, ?_, ?_⟩
    · intro c'
      by_cases hc : c' = c
      · subst hc
        have hle := hf.le c'
        change (s₁.chan c').n ≤ (s₁.chan c').s
        omega
      · rw [hchan c' hc]
        exact hf.le c'
    · intro c' j p hp
      have hopen := hshrinks.open hp
      by_cases hc : c' = c
      · subst hc
        have hfull := hf.snd c' j p hopen
        rcases hcounts with ⟨hop, -⟩ | ⟨-, hlt, -⟩
        · rw [hop] at hnot
          exact absurd hopen (hnot j p)
        · omega
      · rw [hchan c' hc]
        exact hf.snd c' j p hopen
    · intro c' j p hp
      have hopen := hshrinks.open hp
      by_cases hc : c' = c
      · subst hc
        have hempty := hf.rcv c' j p hopen
        rcases hcounts with ⟨-, hlt, -⟩ | ⟨hop, -⟩
        · omega
        · rw [hop] at hnot
          exact absurd hopen (hnot j p)
      · rw [hchan c' hc]
        exact hf.rcv c' j p hopen
    · intro c' hclosed j p hp htag
      exact hf.shut c' ((hframe.closed c').symm.trans hclosed) j p (hshrinks.at_ c' j p hp) (hshrinks.tag c' j p hp htag)
    intro w c' i' hw
    have hw' : (s.pc w).scanned = some (c', i') := by
      refine scanned_goto (s := s) (t := t) (q := .returned i) rfl ?_ w _ hw
      rw [← hframe.pc]
      rfl
    obtain ⟨hclosed, hbefore⟩ := hf.scanned w c' i' hw'
    refine ⟨fun h => hclosed ((hframe.closed c').symm.trans h), fun j p hj hp htag => ?_⟩
    exact hbefore j p hj (hshrinks.at_ c' j p hp) (hshrinks.tag c' j p hp htag)
  | meetAborts _ hready hmem hblocked _ hmeet =>
    obtain ⟨s₁, hs1⟩ := hf.meet_some hready hmem hblocked
    rw [hmeet] at hs1
    cases hs1
  | bufferedAborts _ hready hnone hbuf =>
    obtain ⟨s₁, hs1⟩ := buffered_some hready hnone
    rw [hbuf] at hs1
    cases hs1
  | noblk =>
    exact hf.shrinks (hs.shrinks hfree (fun _ _ _ => id) (fun _ _ => rfl) fun _ _ => rfl) (fun _ => ⟨rfl, rfl, rfl⟩) rfl
      (scanned_goto rfl rfl)
  | await hready _ => exact hf.await hs hfree halts hready

theorem Full.resume (hf : s.Full) (hs : s.Inv) {r : Rend} (hr : s.pc t = .woken r) : (s.resume t r).Full := by
  rcases hs.resume_cases hr with ⟨-, -, heq⟩ | ⟨q, ret, heq, -, hqueue, -⟩
  · rw [heq]
    exact hf.shrinks ⟨fun _ _ _ => id, fun _ _ _ _ => id, fun _ _ _ _ b hb => ⟨b, hb, rfl⟩⟩ (fun _ => ⟨rfl, rfl, rfl⟩) rfl
      (scanned_goto rfl rfl)
  rw [heq]
  refine hf.shrinks ⟨fun c j p hp => ((hqueue c j p).1 hp).1, ?_, ?_⟩ (fun _ => ⟨rfl, rfl, rfl⟩) rfl (scanned_goto rfl rfl)
  · intro c j p hp hnil
    have hpt := ((hqueue c j p).1 hp).2
    change update s.tag t _ p.1 = .nil at hnil
    rwa [update_of_ne hpt] at hnil
  intro c j p hp b hb
  have hpt := ((hqueue c j p).1 hp).2
  change (update s.alts t _ p.1)[p.2]? = some b at hb
  rw [update_of_ne hpt] at hb
  exact ⟨b, hb, rfl⟩

theorem Full.closeFrom (hf : s.Full) (hs : s.Inv) (hnot : ¬ (s.pc t).InAlt) (hclosed : (s.chan c).closed ≠ 0)
    (hbefore : ∀ j p, j < i → At (s.queue c) j p → s.tag p.1 ≠ .nil) : (s.closeFrom t c i).Full := by
  have hpast : ∀ k p, At (s.queue c) (i + k) p →
      s.blocked .CHANSND p = false ∧ (s.blocked .CHANRCV p = true → (s.chan c).n ≠ 0) → s.tag p.1 ≠ .nil := by
    intro k p hp hblocked htag
    rcases hs.open_cases hp htag with h | h
    · have := h.blocked
      rw [hblocked.1] at this
      cases this
    · exact hblocked.2 h.blocked (hf.rcv c _ p h)
  have hall : ∀ {n j p}, (∀ k, k < n → ∀ p, At (s.queue c) (i + k) p → s.tag p.1 ≠ .nil) → j < i + n →
      At (s.queue c) j p → s.tag p.1 ≠ .nil := by
    intro n j p hn hj hp
    by_cases hji : j < i
    · exact hbefore j p hji hp
    · have heq : i + (j - i) = j := by omega
      exact hn (j - i) (by omega) p (by rwa [heq])
  unfold Chans.closeFrom
  cases hscan : s.closeScan c i ((s.chan c).qentry.drop i) with
  | none =>
    have hnone := closeScan_none hscan
    have hat : ∀ c' j p, At (((s.setChan c { s.chan c with closed := 2 }).goto t .idle).queue c') j p → At (s.queue c') j p := by
      intro c' j p hp
      change At (update s.chan c { s.chan c with closed := 2 } c').qentry j p at hp
      by_cases hc : c' = c
      · subst hc
        rwa [update_self] at hp
      · rwa [update_of_ne hc] at hp
    have hchan : ∀ c', ((s.setChan c { s.chan c with closed := 2 }).goto t .idle).chan c' =
        if c' = c then { s.chan c with closed := 2 } else s.chan c' := by
      intro c'
      change update s.chan c { s.chan c with closed := 2 } c' = _
      by_cases hc : c' = c
      · subst hc
        rw [update_self, if_pos rfl]
      · rw [update_of_ne hc, if_neg hc]
    have hnum : ∀ c', (((s.setChan c { s.chan c with closed := 2 }).goto t .idle).chan c').n = (s.chan c').n ∧
        (((s.setChan c { s.chan c with closed := 2 }).goto t .idle).chan c').s = (s.chan c').s := by
      intro c'
      rw [hchan]
      split
      · rename_i hc
        rw [hc]
        exact ⟨rfl, rfl⟩
      · exact ⟨rfl, rfl⟩
    refine ⟨?_, ?_, ?_, hf.aborted, ?_, ?_⟩
    · intro c'
      rw [(hnum c').1, (hnum c').2]
      exact hf.le c'
    · intro c' j p hp
      rw [(hnum c').1, (hnum c').2]
      exact hf.snd c' j p ⟨hat c' j p hp.1, hp.2⟩
    · intro c' j p hp
      rw [(hnum c').1]
      exact hf.rcv c' j p ⟨hat c' j p hp.1, hp.2⟩
    · intro c' hclosed' j p hp
      have hp' := hat c' j p hp
      by_cases hc : c' = c
      · subst hc
        exact hall (n := j + 1) (fun k _ p hp => hpast k p hp (hnone k p (at_drop.2 hp))) (by omega) hp'
      · rw [hchan, if_neg hc] at hclosed'
        exact hf.shut c' hclosed' j p hp'
    intro w c' i' hw
    obtain ⟨hclosed', hbefore'⟩ := hf.scanned w c' i' (scanned_goto (s := s) (t := t) (q := .idle) rfl rfl w _ hw)
    refine ⟨?_, fun j p hj hp => hbefore' j p hj (hat c' j p hp)⟩
    rw [hchan]
    split
    · exact Nat.succ_ne_zero 1
    · exact hclosed'
  | some x =>
    obtain ⟨j, a⟩ := x
    obtain ⟨k, rfl, hat, ⟨op, hblocked⟩, hskip⟩ := closeScan_some hscan
    have htag : ∀ w, ((s.setTag a.1 (.chan c)).goto t (.closing a.1 c (i + k))).tag w = .nil → s.tag w = .nil := by
      intro w hw
      change update s.tag a.1 (.chan c) w = .nil at hw
      by_cases hwa : w = a.1
      · rw [hwa, update_self] at hw
        cases hw
      · rwa [update_of_ne hwa] at hw
    have hshrinks : Shrinks s ((s.setTag a.1 (.chan c)).goto t (.closing a.1 c (i + k))) :=
      ⟨fun _ _ _ => id, fun _ _ p _ => htag p.1, fun _ _ _ _ b hb => ⟨b, hb, rfl⟩⟩
    refine ⟨hf.le, fun c' j p hp => hf.snd c' j p (hshrinks.open hp), fun c' j p hp => hf.rcv c' j p (hshrinks.open hp),
      hf.aborted, fun c' hc j p hp hnil => hf.shut c' hc j p hp (htag p.1 hnil), ?_⟩
    intro w c' i' hw
    by_cases hwt : w = t
    · subst hwt
      have hpc : ((s.setTag a.1 (.chan c)).goto w (.closing a.1 c (i + k))).pc w = .closing a.1 c (i + k) :=
        update_self ..
      rw [hpc] at hw
      cases hw
      refine ⟨hclosed, ?_⟩
      intro j p hj hp hnil
      have hnil' := htag p.1 hnil
      by_cases hjk : j < i + k
      · refine hall (n := k) (fun k' hk' p hp => hpast k' p hp (hskip k' hk' p (at_drop.2 hp))) hjk hp hnil'
      obtain rfl : j = i + k := by omega
      obtain rfl : p = a := by
        have hat' := at_drop.1 hat
        rw [At] at hat'
        change (s.chan c).qentry[i + k]? = some (some p) at hp
        rw [hp] at hat'
        exact some.inj (some.inj hat')
      change update s.tag p.1 (.chan c) p.1 = .nil at hnil
      rw [update_self] at hnil
      cases hnil
    have hw' : (s.pc w).scanned = some (c', i') := by
      change (update s.pc t _ w).scanned = _ at hw
      rwa [update_of_ne hwt] at hw
    obtain ⟨hclosed', hbefore'⟩ := hf.scanned w c' i' hw'
    exact ⟨hclosed', fun j p hj hp hnil => hbefore' j p hj hp (htag p.1 hnil)⟩

theorem Step.full {x : ChanAct T C V} (h : Step zero s x s') (hs : s.Inv) (hf : s.Full) : s'.Full := by
  have hgoto : ∀ {s' : Chans T C V}, s'.queue = s.queue → s'.tag = s.tag → s'.alts = s.alts → s'.chan = s.chan →
      s'.aborted = s.aborted → (∀ t x, (s'.pc t).scanned = some x → (s.pc t).scanned = some x) → s'.Full := by
    intro s' hq htag halts hchan haborted hscan
    refine hf.shrinks ⟨fun c j p => by rw [hq]; exact id, fun c j p _ => by rw [htag]; exact id, ?_⟩
      (fun c => by rw [hchan]; exact ⟨rfl, rfl, rfl⟩) haborted hscan
    intro c j p _ b hb
    unfold Chans.entry at hb ⊢
    rw [halts] at hb
    exact ⟨b, hb, rfl⟩
  cases h with
  | @nilchan t alts noblk hfree _ =>
    have hb := hf.begin hs hfree alts noblk
    have hib := hs.begin hfree alts noblk
    have hbegun : (s.begin t alts noblk).Free t := hfree
    exact hb.shrinks (hib.shrinks hbegun (fun _ _ _ => id) (fun _ _ => rfl) fun _ _ => rfl) (fun _ => ⟨rfl, rfl, rfl⟩) rfl
      (scanned_goto rfl rfl)
  | @alt _ t alts noblk _ hfree _ halts =>
    exact halts.full (hs.begin hfree alts noblk) (hf.begin hs hfree alts noblk) hfree (update_self ..)
  | @interrupt t hpc => exact hgoto rfl rfl rfl rfl rfl (scanned_goto rfl rfl)
  | @meeting p w i hp hw =>
    refine hgoto rfl rfl rfl rfl rfl fun t x hx => ?_
    have hx' := scanned_goto (s := s.goto p (.returned i)) (t := w) (q := .woken .nil) rfl rfl t x hx
    exact scanned_goto (s := s) (t := p) (q := .returned i) rfl rfl t x hx'
  | @closing p w c i hp hw =>
    refine hgoto rfl rfl rfl rfl rfl fun t x hx => ?_
    have hx' := scanned_goto (s := s.goto p (.closed c (i + 1))) (t := w) (q := .woken .closed) rfl rfl t x hx
    change (update s.pc p (.closed c (i + 1)) t).scanned = some x at hx'
    by_cases htp : t = p
    · rw [htp, update_self] at hx'
      rw [htp, hp]
      exact hx'
    · rwa [update_of_ne htp] at hx'
  | resume hr => exact hf.resume hs hr
  | @already t c hfree _ => exact hgoto rfl rfl rfl rfl rfl (scanned_goto rfl rfl)
  | @chanclose t c hfree hopen =>
    have hchan : ∀ c', ((s.setChan c { s.chan c with closed := 1 }).chan c').n = (s.chan c').n ∧
        ((s.setChan c { s.chan c with closed := 1 }).chan c').s = (s.chan c').s ∧
        (((s.setChan c { s.chan c with closed := 1 }).chan c').closed = if c' = c then 1 else (s.chan c').closed) := by
      intro c'
      change (update s.chan c { s.chan c with closed := 1 } c').n = _ ∧
        (update s.chan c { s.chan c with closed := 1 } c').s = _ ∧
        (update s.chan c { s.chan c with closed := 1 } c').closed = _
      by_cases hc : c' = c
      · rw [hc, update_self, if_pos rfl]
        exact ⟨rfl, rfl, rfl⟩
      · rw [update_of_ne hc, if_neg hc]
        exact ⟨rfl, rfl, rfl⟩
    have hqueue := s.queue_closed c
    have hopens : ∀ {c' j op p}, (s.setChan c { s.chan c with closed := 1 }).Open c' j op p → s.Open c' j op p := by
      intro c' j op p hp
      refine ⟨?_, hp.2⟩
      rw [← hqueue]
      exact hp.1
    have hfull : (s.setChan c { s.chan c with closed := 1 }).Full := by
      refine ⟨?_, ?_, ?_, hf.aborted, ?_, ?_⟩
      · intro c'
        rw [(hchan c').1, (hchan c').2.1]
        exact hf.le c'
      · intro c' j p hp
        rw [(hchan c').1, (hchan c').2.1]
        exact hf.snd c' j p (hopens hp)
      · intro c' j p hp
        rw [(hchan c').1]
        exact hf.rcv c' j p (hopens hp)
      · intro c' hclosed j p hp
        rw [hqueue] at hp
        rw [(hchan c').2.2] at hclosed
        split at hclosed
        · cases hclosed
        · exact hf.shut c' hclosed j p hp
      intro w c' i' hw
      obtain ⟨hclosed, hbefore⟩ := hf.scanned w c' i' hw
      rw [(hchan c').2.2, hqueue]
      refine ⟨?_, hbefore⟩
      split
      · exact Nat.one_ne_zero
      · exact hclosed
    refine hfull.closeFrom (hs.closed c) (fun h => h.not_free hfree) ?_ fun j p hj => absurd hj (Nat.not_lt_zero _)
    rw [(hchan c).2.2, if_pos rfl]
    exact Nat.one_ne_zero
  | @close t c i hpc =>
    obtain ⟨hclosed, hbefore⟩ := hf.scanned t c i (by rw [hpc]; rfl)
    refine hf.closeFrom hs ?_ hclosed hbefore
    rw [hpc]
    exact id

end Chans

end Plan9.Libthread
