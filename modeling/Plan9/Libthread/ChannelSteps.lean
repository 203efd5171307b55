/-
What the functions do to the threads, and which entry `alt` returns.

Carrying out an entry changes nothing that `Inv` is about but `did`. A waiting `alt`
takes the last entry for the channel that its tag is, so what it returns is the entry
that was carried out as long as the one it was met in is that one (`Careful`).
-/
import Plan9.Libthread.ChannelMeets

namespace Plan9.Libthread

open Function

variable {T C V : Type}

namespace Chans

/-! ## Carrying out -/

/-- All but what the channels have, what was carried out and the values. -/
structure Frame (s s' : Chans T C V) : Prop where
  pc : s'.pc = s.pc
  tag : s'.tag = s.tag
  noblk : s'.noblk = s.noblk
  calls : s'.calls = s.calls
  aborted : s'.aborted = s.aborted
  queue : s'.queue = s.queue
  closed : ∀ c, (s'.chan c).closed = (s.chan c).closed
  entry : ∀ p, (s'.entry p).map (fun a => (a.c, a.op, a.err)) = (s.entry p).map fun a => (a.c, a.op, a.err)

variable {s s' s'' : Chans T C V} {t : T} {c : C} {p : T × Nat} {i : Nat} {a b : Alt C V} {zero : V}

theorem Frame.trans (h : Frame s s') (h' : Frame s' s'') : Frame s s'' :=
  ⟨h'.pc.trans h.pc, h'.tag.trans h.tag, h'.noblk.trans h.noblk, h'.calls.trans h.calls, h'.aborted.trans h.aborted,
    h'.queue.trans h.queue, fun c => (h'.closed c).trans (h.closed c), fun p => (h'.entry p).trans (h.entry p)⟩

theorem Frame.named (h : Frame s s') : s'.named = s.named := by
  funext t j
  have hentry := h.entry (t, j)
  unfold Chans.named
  cases hs : s.entry (t, j) with
  | none =>
    rw [hs, Option.map_none, Option.map_eq_none_iff] at hentry
    rw [hentry]
  | some a =>
    rw [hs, Option.map_some, Option.map_eq_some_iff] at hentry
    obtain ⟨a', ha', heq⟩ := hentry
    rw [ha']
    obtain ⟨hc, hrest⟩ := Prod.mk.inj heq
    obtain ⟨hop, -⟩ := Prod.mk.inj hrest
    change (if a'.op = .CHANNOP then none else a'.c) = if a.op = .CHANNOP then none else a.c
    rw [hc, hop]

section

variable [DecidableEq T]

theorem store_entry (s : Chans T C V) (p q : T × Nat) (v : Option V) :
    (s.store p v).entry q = if q = p then (s.entry q).map (fun a => { a with v := v }) else s.entry q := by
  unfold store entry
  by_cases ht : q.1 = p.1
  · dsimp only
    rw [ht, update_self, List.getElem?_modify]
    by_cases hi : p.2 = q.2
    · have hqp : q = p := Prod.ext ht hi.symm
      simp only [hi, if_pos hqp, if_true]
      rfl
    · have hqp : q ≠ p := fun h => hi (by rw [h])
      simp only [hi, if_neg hqp, if_false]
      exact Option.map_id_apply
  · have hqp : q ≠ p := fun h => ht (by rw [h])
    dsimp only
    rw [update_of_ne ht, if_neg hqp]

theorem frame_store (s : Chans T C V) (p : T × Nat) (v : Option V) : Frame s (s.store p v) := by
  refine ⟨rfl, rfl, rfl, rfl, rfl, rfl, fun _ => rfl, ?_⟩
  intro q
  rw [store_entry]
  split
  · rw [Option.map_map]
    rfl
  · rfl

variable [DecidableEq C]

theorem frame_carry (s : Chans T C V) (p : T × Nat) (op : ChanOp) (c : C) (v : V) : Frame s (s.carry p op c v) :=
  ⟨rfl, rfl, rfl, rfl, rfl, rfl, fun _ => rfl, fun _ => rfl⟩

omit [DecidableEq T] in
theorem frame_setChan {ch : Channel T V} (hq : ch.qentry = (s.chan c).qentry) (hclosed : ch.closed = (s.chan c).closed) :
    Frame s (s.setChan c ch) := by
  refine ⟨rfl, rfl, rfl, rfl, rfl, ?_, ?_, fun _ => rfl⟩
  · funext c'
    change (update s.chan c ch c').qentry = (s.chan c').qentry
    by_cases hc : c' = c
    · rw [hc, update_self, hq]
    · rw [update_of_ne hc]
  intro c'
  change (update s.chan c ch c').closed = (s.chan c').closed
  by_cases hc : c' = c
  · rw [hc, update_self, hclosed]
  · rw [update_of_ne hc]

variable {alts : List (Alt C V)} {r : Rend} {op : ChanOp} {k : Nat}

omit [DecidableEq C] [DecidableEq T] in
theorem altexecbuffered_same {ch ch' : Channel T V} {w : Bool} {buf : Nat}
    (h : altexecbuffered ch op w = some (buf, ch')) : ch'.qentry = ch.qentry ∧ ch'.closed = ch.closed := by
  unfold altexecbuffered at h
  split at h
  · cases h
    exact ⟨rfl, rfl⟩
  split at h
  · cases h
    exact ⟨rfl, rfl⟩
  · cases h

theorem meet_frame (hp : p.1 ≠ t) (h : s.meet zero t i a c p b = some s') :
    Frame s s' ∧ s'.did t = some i ∧ s'.did p.1 = some p.2 ∧ (∀ w, w ≠ t → w ≠ p.1 → s'.did w = s.did w) ∧
      ∀ w, w ≠ t → w ≠ p.1 → s'.alts w = s.alts w := by
  have hdid : ∀ (did : T → Option Nat), update (update did t (some i)) p.1 (some p.2) t = some i ∧
      update (update did t (some i)) p.1 (some p.2) p.1 = some p.2 ∧
      ∀ w, w ≠ t → w ≠ p.1 → update (update did t (some i)) p.1 (some p.2) w = did w := by
    intro did
    refine ⟨?_, update_self .., ?_⟩
    · rw [update_of_ne (Ne.symm hp), update_self]
    · intro w hwt hwp
      rw [update_of_ne hwp, update_of_ne hwt]
  unfold meet at h
  dsimp only at h
  split at h
  · split at h
    · cases h
    cases hb : altexecbuffered (s.chan c) .CHANRCV true with
    | none => rw [hb] at h; cases h
    | some x =>
      obtain ⟨buf, ch'⟩ := x
      rw [hb] at h
      cases h
      have hsame := altexecbuffered_same hb
      have hframe : Frame s (s.setChan c { ch' with v := update ch'.v buf (b.v.getD zero) }) :=
        frame_setChan hsame.1 hsame.2
      refine ⟨((hframe.trans (frame_store ..)).trans (frame_carry ..)).trans (frame_carry ..), (hdid _).1, (hdid _).2.1,
        (hdid _).2.2, ?_⟩
      intro w hwt _
      exact update_of_ne hwt ..
  split at h
  · cases h
    refine ⟨((frame_store ..).trans (frame_carry ..)).trans (frame_carry ..), ?_⟩
    have hcomm := update_comm hp (some p.2) (some i) s.did
    have hcarried := hdid s.did
    rw [← hcomm] at hcarried
    refine ⟨hcarried.1, hcarried.2.1, hcarried.2.2, ?_⟩
    intro w hwt _
    exact update_of_ne hwt ..
  cases h
  refine ⟨((frame_store ..).trans (frame_carry ..)).trans (frame_carry ..), (hdid _).1, (hdid _).2.1, (hdid _).2.2, ?_⟩
  intro w _ hwp
  exact update_of_ne hwp ..

theorem buffered_frame (h : s.buffered zero t i a c = some s') :
    Frame s s' ∧ s'.did = update s.did t (some i) ∧ ∀ w, w ≠ t → s'.alts w = s.alts w := by
  unfold buffered at h
  cases hb : altexecbuffered (s.chan c) a.op false with
  | none => rw [hb] at h; cases h
  | some x =>
    obtain ⟨buf, ch'⟩ := x
    have hsame := altexecbuffered_same hb
    rw [hb] at h
    dsimp only at h
    split at h
    · cases h
      exact ⟨((frame_setChan hsame.1 hsame.2).trans (frame_store ..)).trans (frame_carry ..), rfl,
        fun w hw => update_of_ne hw ..⟩
    cases h
    have hframe : Frame s (s.setChan c { ch' with v := update ch'.v buf (a.v.getD zero) }) :=
      frame_setChan hsame.1 hsame.2
    exact ⟨hframe.trans (frame_carry ..), rfl, fun _ _ => rfl⟩

/-! ## `alt` -/

omit [DecidableEq T] in
theorem blocked_tag (h : s.blocked op p = true) :
    s.tag p.1 = .nil ∧ ∃ b, s.entry p = some b ∧ b.op = op := by
  unfold blocked at h
  rw [Bool.and_eq_true] at h
  obtain ⟨hop, htag⟩ := h
  refine ⟨LawfulBEq.eq_of_beq htag, ?_⟩
  cases hb : s.entry p with
  | none => rw [hb] at hop; cases hop
  | some b =>
    rw [hb, Option.any_some] at hop
    exact ⟨b, rfl, LawfulBEq.eq_of_beq hop⟩

omit [DecidableEq C] in
theorem named_update {w : T} (hw : w ≠ t) :
    named { s with alts := update s.alts t alts } w = s.named w := by
  funext j
  unfold named entry
  dsimp only
  rw [update_of_ne hw]

omit [DecidableEq C] [DecidableEq T] in
theorem Inv.notMem_free (hs : s.Inv) (hfree : s.Free t) {j : Nat} (hp : At (s.queue c) j p) : p.1 ≠ t := by
  intro hpt
  exact (hpt ▸ (hs.queued c j p hp).1 : (s.pc t).InAlt).not_free hfree

omit [DecidableEq C] in
theorem Inv.begin (hs : s.Inv) (hfree : s.Free t) (alts : List (Alt C V)) (noblk : Bool) : (s.begin t alts noblk).Inv := by
  refine hs.leaves (hs.unmet (.inl hfree.not_asleep)) hfree.meets ?_ ?_ hfree.meets hs.once ?_
  · intro w hw
    exact ⟨rfl, update_of_ne hw .., update_of_ne hw .., named_update hw⟩
  · intro h
    exact h.not_free hfree
  · intro c j p hp
    exact ⟨hp, hs.notMem_free hfree hp⟩

omit [DecidableEq T] in
theorem Inv.met_entry (hs : s.Inv) (hfree : s.Free t) (hmem : some p ∈ (s.chan c).qentry)
    (hblocked : s.blocked op p = true) :
    p.1 ≠ t ∧ s.tag p.1 = .nil ∧ (s.pc p.1).Asleep ∧ s.did p.1 = none ∧ s.named p.1 p.2 = some c := by
  obtain ⟨j, hat⟩ := mem_iff_at.1 hmem
  obtain ⟨hin, hnamed⟩ := hs.queued c j p hat
  obtain ⟨htag, -⟩ := blocked_tag hblocked
  rcases hs.tag p.1 hin with ⟨-, hasleep, hdid⟩ | ⟨_, _, htag', -⟩
  · exact ⟨hs.notMem_free hfree hat, htag, hasleep, hdid, hnamed⟩
  · rw [htag] at htag'
    cases htag'

omit [DecidableEq C] [DecidableEq T] in
theorem Inv.returns (hs : s.Inv) (hfree : s.Free t) {r : Int} (hother : Others (· = t) s s') (hqueue : s'.queue = s.queue)
    (hpc : s'.pc t = .returned r) : s'.Inv := by
  refine hs.leaves (hs.unmet (.inl hfree.not_asleep)) hfree.meets hother ?_ ?_ ?_ ?_
  · rw [hpc]
    exact id
  · rw [hpc]
    rfl
  · rw [hqueue]
    exact hs.once
  · intro c j p hp
    rw [hqueue] at hp
    exact ⟨hp, hs.notMem_free hfree hp⟩

omit [DecidableEq C] in
theorem Frame.others (h : Frame s s') {pc : Pc T C} (hdid : ∀ w, w ≠ t → s'.did w = s.did w) : Others (· = t) s (s'.goto t pc) := by
  intro w hw
  refine ⟨?_, by rw [← h.tag]; rfl, hdid w hw, congrFun h.named w⟩
  rw [← h.pc]
  exact update_of_ne hw ..

theorem Inv.meet (hs : s.Inv) (hfree : s.Free t) (hmem : some p ∈ (s.chan c).qentry)
    (hblocked : s.blocked (otherop a.op) p = true) (h : s.meet zero t i a c p b = some s') :
    ((s'.setTag p.1 (.chan c)).goto t (.meeting p.1 i)).Inv := by
  obtain ⟨hpt, htag, hasleep, -, hnamed⟩ := hs.met_entry hfree hmem hblocked
  obtain ⟨hframe, hdt, hdp, hdw, -⟩ := meet_frame hpt h
  have hnot : ¬ (s.pc t).InAlt := fun hin => hin.not_free hfree
  have hpcw : update s'.pc t (.meeting p.1 i) p.1 = s.pc p.1 := by
    rw [update_of_ne hpt, hframe.pc]
  have hpct : update s'.pc t (Pc.meeting p.1 i : Pc T C) t = .meeting p.1 i := update_self ..
  refine hs.commits hnot hfree.meets hasleep htag ?_ hpcw (congrFun hframe.named p.1) ?_ ?_ ?_ ?_ ?_
    fun c => congrFun hframe.queue c
  · intro w hw
    rw [not_or] at hw
    refine ⟨?_, ?_, hdw w hw.1 hw.2, congrFun hframe.named w⟩
    · change update s'.pc t _ w = s.pc w
      rw [update_of_ne hw.1, hframe.pc]
    · change update s'.tag p.1 _ w = s.tag w
      rw [update_of_ne hw.2, hframe.tag]
  · change ¬ (update s'.pc t (.meeting p.1 i) t).InAlt
    rw [hpct]
    exact id
  · change (update s'.pc t (.meeting p.1 i) t).meets = _
    rw [hpct]
    rfl
  · exact ⟨c, p.2, update_self .., hnamed, .inr hdp⟩
  · intro i' hi'
    change update s'.pc t (.meeting p.1 i) t = _ at hi'
    rw [hpct] at hi'
    cases hi'
    refine ⟨?_, hdt⟩
    change s'.did p.1 ≠ none
    rw [hdp]
    simp
  intro c' i' hi'
  change update s'.pc t (.meeting p.1 i) t = _ at hi'
  rw [hpct] at hi'
  cases hi'

omit [DecidableEq C] [DecidableEq T] in
theorem named_of_alts (halts : s.alts t = alts) (hk : alts[k]? = some a)
    (hc : a.c = some c) (hop : a.op ≠ .CHANNOP) : s.named t k = some c := by
  unfold named entry
  rw [halts, hk]
  change (if a.op = .CHANNOP then none else a.c) = some c
  rw [if_neg hop, hc]

omit [DecidableEq C] [DecidableEq T] in
theorem alts_of_named (h : s.named t k = some c) :
    ∃ a, (s.alts t)[k]? = some a ∧ a.op ≠ .CHANNOP ∧ a.c = some c := by
  unfold named entry at h
  cases ha : (s.alts t)[k]? with
  | none => rw [ha] at h; cases h
  | some a =>
    rw [ha] at h
    change (if a.op = .CHANNOP then none else a.c) = some c at h
    split at h
    · cases h
    · rename_i hop
      exact ⟨a, rfl, hop, h⟩

theorem Inv.await (hs : s.Inv) (hfree : s.Free t) (htag : s.tag t = .nil) (hdid : s.did t = none)
    (halts : s.alts t = alts) : (s.await t alts).Inv := by
  have hgoto : ∀ pc w, ¬ w = t → (s.goto t pc).pc w = s.pc w ∧ (s.goto t pc).tag w = s.tag w ∧
      (s.goto t pc).did w = s.did w ∧ (s.goto t pc).named w = s.named w :=
    fun pc w hw => ⟨update_of_ne hw .., rfl, rfl, rfl⟩
  have hnone : ∀ c j k, 0 ≤ k → ¬ At (s.queue c) j (t, k) := by
    intro c j k _ hat
    exact hs.notMem_free hfree hat rfl
  unfold Chans.await
  split
  · obtain ⟨_, heq, honce, -, hnew⟩ := enqueueAll_queues s t alts 0 s.queue hnone hs.once
    rw [setQueues_queue] at heq
    rw [heq]
    refine hs.waits hfree (hgoto .waiting) (update_self ..) htag hdid honce ?_
    intro c j p hp
    rcases hnew c j p hp with h | ⟨k, a, ha, rfl, ho⟩
    · exact .inl h
    obtain ⟨hc, hop, -⟩ := opens_some ho
    refine .inr ⟨rfl, ?_⟩
    rw [Nat.zero_add]
    exact named_of_alts halts ha hc hop
  split
  · refine hs.returns hfree ?_ rfl (update_self ..)
    intro w hw
    exact ⟨update_of_ne hw .., rfl, rfl, named_update hw⟩
  · split
    · exact hs.returns hfree (hgoto _) rfl (update_self ..)
    · exact hs.waits hfree (hgoto .waiting) (update_self ..) htag hdid hs.once fun c j p => .inl

theorem Alts.inv {mate : Option (T × Nat)} (h : Alts zero s t alts mate s') (hs : s.Inv) (hfree : s.Free t)
    (htag : s.tag t = .nil) (hdid : s.did t = none) (halts : s.alts t = alts) : s'.Inv := by
  cases h with
  | meet _ _ hmem hblocked _ hmeet => exact hs.meet hfree hmem hblocked hmeet
  | buffered _ _ _ hbuf =>
    obtain ⟨hframe, hdid', -⟩ := buffered_frame hbuf
    refine hs.returns hfree (hframe.others ?_) hframe.queue (update_self ..)
    intro w hw
    rw [hdid', update_of_ne hw]
  | meetAborts => exact ⟨hs.once, hs.queued, hs.one, hs.met, hs.comes, hs.tag, hs.meeting, hs.closing, hs.woken⟩
  | bufferedAborts => exact ⟨hs.once, hs.queued, hs.one, hs.met, hs.comes, hs.tag, hs.meeting, hs.closing, hs.woken⟩
  | noblk =>
    exact hs.returns hfree (fun w hw => ⟨update_of_ne hw .., rfl, rfl, rfl⟩) rfl (update_self ..)
  | await => exact hs.await hfree htag hdid halts

/-! ## Coming back -/

omit [DecidableEq T] in
theorem selects_iff {tag : Tag C} : selects tag a = true ↔ ∃ c, tag = .chan c ∧ a.op ≠ .CHANNOP ∧ a.c = some c := by
  cases tag with
  | chan c => simp [selects]
  | nil => simp [selects]
  | intred => simp [selects]

/-- What `c` has when the entries are looked at. -/
def seen (s : Chans T C V) (t : T) (r : Rend) : Tag C := if r = .intred then .intred else s.tag t

/-- The array and the tag then. -/
def woke (s : Chans T C V) (t : T) (r : Rend) : Chans T C V :=
  { s with
    tag := Function.update s.tag t (s.seen t r)
    alts := Function.update s.alts t
      ((s.alts t).map fun a => if selects (s.seen t r) a then { a with err := r == Rend.closed } else a) }

theorem resume_eq (h : ¬ (r = .intred ∧ s.tag t ≠ .nil)) :
    s.resume t r = match lastOf (selects (s.seen t r)) 0 (s.alts t) with
      | some i => ((s.woke t r).dequeueAll t 0 (s.alts t)).goto t (.returned i)
      | none =>
        if ((s.woke t r).dequeueAll t 0 (s.alts t)).tag t = .intred then
          ((s.woke t r).dequeueAll t 0 (s.alts t)).goto t (.returned (-1))
        else ((s.woke t r).dequeueAll t 0 (s.alts t)).abort := by
  unfold Chans.resume
  rw [if_neg h]
  by_cases hr : r = .intred
  · subst hr
    simp only [seen, woke, if_true, setTag, update_self] <;> rfl
  · have hself : update s.tag t (s.tag t) = s.tag := update_eq_self t s.tag
    simp only [seen, woke, hr, if_false, hself] <;> rfl

omit [DecidableEq T] in
theorem lastOf_selects_none {tag : Tag C} {as : List (Alt C V)} (h : ∀ c, tag ≠ .chan c) : lastOf (selects tag) 0 as = none := by
  cases hl : lastOf (selects tag) 0 as with
  | none => rfl
  | some i =>
    obtain ⟨-, ⟨a, -, hsel⟩, -⟩ := lastOf_some hl
    obtain ⟨c, htag, -⟩ := selects_iff.1 hsel
    exact absurd htag (h c)

/-- What a thread does that has been woken: it goes round, or its entries leave the queues and it returns. -/
theorem Inv.resume_cases (hs : s.Inv) (hr : s.pc t = .woken r) :
    (r = .intred ∧ s.tag t ≠ .nil ∧ s.resume t r = s.goto t .waiting) ∨
    ∃ q ret, s.resume t r = ((s.woke t r).setQueues q).goto t (.returned ret) ∧
      (∀ c, Once (q c)) ∧ (∀ c j p, At (q c) j p ↔ At (s.queue c) j p ∧ p.1 ≠ t) ∧
      (r = .intred ∧ s.tag t = .nil ∧ s.did t = none ∧ ret = -1 ∨
        r ≠ .intred ∧ ∃ i, lastOf (selects (s.tag t)) 0 (s.alts t) = some i ∧ ret = i) := by
  by_cases hround : r = .intred ∧ s.tag t ≠ .nil
  · refine .inl ⟨hround.1, hround.2, ?_⟩
    unfold Chans.resume
    rw [if_pos hround]
  right
  rw [resume_eq hround]
  obtain ⟨q, heq, honce, hat⟩ := dequeueAll_queues (s.woke t r) t (s.alts t) 0 s.queue hs.once
  have hqueue : ∀ c j p, At (q c) j p ↔ At (s.queue c) j p ∧ p.1 ≠ t := by
    intro c j p
    rw [hat]
    refine and_congr_right fun hp => not_congr ⟨?_, ?_⟩
    · rintro ⟨k, a, -, rfl, -⟩
      rfl
    · intro hpt
      obtain ⟨a, ha, hop, hc⟩ := alts_of_named (hs.queued c j p hp).2
      exact ⟨p.2, a, hpt ▸ ha, by rw [Nat.zero_add, ← hpt], hop, hc⟩
  have hself : (s.woke t r).setQueues s.queue = s.woke t r := rfl
  rw [hself] at heq
  rw [heq]
  have htagw : ((s.woke t r).setQueues q).tag t = s.seen t r := update_self ..
  rcases hs.tag t (by rw [hr]; trivial) with ⟨htag, hasleep, hdid⟩ | ⟨c, j, htag, hnamed, -⟩
  · -- It was interrupted.
    have hri : r = .intred := by
      rw [hr] at hasleep
      cases r with
      | intred => rfl
      | _ => exact hasleep.elim
    subst hri
    have hseen : s.seen t .intred = .intred := rfl
    rw [hseen, lastOf_selects_none (by simp)]
    rw [if_pos (htagw.trans hseen)]
    exact ⟨q, -1, rfl, honce, hqueue, .inl ⟨rfl, htag, hdid, rfl⟩⟩
  have hri : r ≠ .intred := by
    intro hri
    exact hround ⟨hri, by rw [htag]; simp⟩
  have hseen : s.seen t r = s.tag t := if_neg hri
  obtain ⟨a, ha, hop, hc⟩ := alts_of_named hnamed
  rw [hseen]
  cases hl : lastOf (selects (s.tag t)) 0 (s.alts t) with
  | none =>
    have hsel := lastOf_none hl a (List.mem_of_getElem? ha)
    rw [selects_iff.2 ⟨c, htag, hop, hc⟩] at hsel
    cases hsel
  | some i => exact ⟨q, i, rfl, honce, hqueue, .inr ⟨hri, i, rfl, rfl⟩⟩

theorem Inv.resume (hs : s.Inv) (hr : s.pc t = .woken r) : (s.resume t r).Inv := by
  rcases hs.resume_cases hr with ⟨rfl, -, heq⟩ | ⟨q, ret, heq, honce, hqueue, hret⟩
  · rw [heq]
    refine hs.sleeps (t := t) (by rw [hr]; trivial) ?_ (fun w hw => update_of_ne hw ..) rfl rfl rfl rfl
    rw [show (s.goto t .waiting).pc t = .waiting from update_self ..]
    trivial
  rw [heq]
  have hpc : (((s.woke t r).setQueues q).goto t (.returned ret)).pc t = .returned ret := update_self ..
  refine hs.leaves (hs.unmet ?_) (by rw [hr]; rfl) ?_ ?_ ?_ honce fun c j p hp => (hqueue c j p).1 hp
  · rcases hret with ⟨-, htag, -⟩ | ⟨hri, -⟩
    · exact .inr htag
    left
    rw [hr]
    cases r with
    | intred => exact absurd rfl hri
    | _ => exact id
  · intro w hw
    exact ⟨update_of_ne hw .., update_of_ne hw .., rfl, named_update hw⟩
  · rw [hpc]
    exact id
  · rw [hpc]
    rfl

/-! ## `chanclose` -/

omit [DecidableEq T] in
/-- The entry that the loop stops at, and those it goes past. -/
theorem closeScan_some : ∀ {q : List (Option (T × Nat))} {i j : Nat}, s.closeScan c i q = some (j, p) →
    ∃ k, j = i + k ∧ At q k p ∧ (∃ op, s.blocked op p = true) ∧
      ∀ k' < k, ∀ p', At q k' p' → s.blocked .CHANSND p' = false ∧ (s.blocked .CHANRCV p' = true → (s.chan c).n ≠ 0)
  | none :: q, i, j, h => by
    obtain ⟨k, hj, hat, hop, hbefore⟩ := closeScan_some (q := q) h
    refine ⟨k + 1, by omega, by simpa [At] using hat, hop, ?_⟩
    intro k' hk' p' hp'
    cases k' with
    | zero => simp [At] at hp'
    | succ k' => exact hbefore k' (Nat.lt_of_succ_lt_succ hk') p' (by simpa [At] using hp')
  | some a :: q, i, j, h => by
    rw [closeScan] at h
    split at h
    · rename_i hb
      cases h
      refine ⟨0, rfl, rfl, ?_, fun k' hk' => absurd hk' (Nat.not_lt_zero _)⟩
      rw [Bool.or_eq_true, Bool.and_eq_true] at hb
      rcases hb with hb | ⟨hb, -⟩
      · exact ⟨_, hb⟩
      · exact ⟨_, hb⟩
    rename_i hb
    obtain ⟨k, hj, hat, hop, hbefore⟩ := closeScan_some (q := q) h
    refine ⟨k + 1, by omega, by simpa [At] using hat, hop, ?_⟩
    intro k' hk' p' hp'
    cases k' with
    | zero =>
      obtain rfl : a = p' := by simpa [At] using hp'
      simpa using hb
    | succ k' => exact hbefore k' (Nat.lt_of_succ_lt_succ hk') p' (by simpa [At] using hp')

omit [DecidableEq T] in
theorem closeScan_none : ∀ {q : List (Option (T × Nat))} {i : Nat}, s.closeScan c i q = none →
    ∀ k p, At q k p → s.blocked .CHANSND p = false ∧ (s.blocked .CHANRCV p = true → (s.chan c).n ≠ 0)
  | [], _, _, k, p, hp => by simp [At] at hp
  | none :: q, i, h, k, p, hp => by
    cases k with
    | zero => simp [At] at hp
    | succ k => exact closeScan_none (q := q) h k p (by simpa [At] using hp)
  | some a :: q, i, h, k, p, hp => by
    rw [closeScan] at h
    split at h
    · cases h
    rename_i hb
    cases k with
    | zero =>
      obtain rfl : a = p := by simpa [At] using hp
      simpa using hb
    | succ k => exact closeScan_none (q := q) h k p (by simpa [At] using hp)

omit [DecidableEq C] [DecidableEq T] in
theorem at_drop {q : List (Option (T × Nat))} {i : Nat} : At (q.drop i) k p ↔ At q (i + k) p := by
  rw [At, List.getElem?_drop]
  rfl

theorem Inv.closeFrom (hs : s.Inv) (hnot : ¬ (s.pc t).InAlt) (hmeets : (s.pc t).meets = none) {i : Nat} :
    (s.closeFrom t c i).Inv := by
  unfold Chans.closeFrom
  cases hscan : s.closeScan c i ((s.chan c).qentry.drop i) with
  | none =>
    have hpc : ((s.setChan c { s.chan c with closed := 2 }).goto t .idle).pc t = .idle := update_self ..
    have hqueue : ((s.setChan c { s.chan c with closed := 2 }).goto t .idle).queue = s.queue := by
      funext c'
      change (update s.chan c { s.chan c with closed := 2 } c').qentry = (s.chan c').qentry
      by_cases hc : c' = c
      · rw [hc, update_self]
      · rw [update_of_ne hc]
    refine hs.leaves (hs.unmet (.inl fun h => hnot h.inAlt)) hmeets ?_ ?_ ?_ ?_ ?_
    · intro w hw
      exact ⟨update_of_ne hw .., rfl, rfl, rfl⟩
    · rw [hpc]
      exact id
    · rw [hpc]
      rfl
    · rw [hqueue]
      exact hs.once
    · intro c' j p hp
      rw [hqueue] at hp
      exact ⟨hp, fun hpt => hnot (hpt ▸ (hs.queued c' j p hp).1)⟩
  | some x =>
    obtain ⟨j, a⟩ := x
    obtain ⟨k, rfl, hat, ⟨_, hblocked⟩, -⟩ := closeScan_some hscan
    obtain ⟨hin, hnamed⟩ := hs.queued c (i + k) a (at_drop.1 hat)
    obtain ⟨htag, -⟩ := blocked_tag hblocked
    have hpt : a.1 ≠ t := fun hpt => hnot (hpt ▸ hin)
    rcases hs.tag a.1 hin with ⟨-, hasleep, hdid⟩ | ⟨c', _, htag', -⟩
    · have hpc : ((s.setTag a.1 (.chan c)).goto t (.closing a.1 c (i + k))).pc t = .closing a.1 c (i + k) :=
        update_self ..
      refine hs.commits hnot hmeets hasleep htag ?_ (update_of_ne hpt ..) rfl ?_ ?_ ?_ ?_ ?_ fun _ => rfl
      · intro w hw
        rw [not_or] at hw
        exact ⟨update_of_ne hw.1 .., update_of_ne hw.2 .., rfl, rfl⟩
      · rw [hpc]
        exact id
      · rw [hpc]
        rfl
      · exact ⟨c, a.2, update_self .., hnamed, .inl hdid⟩
      · intro i' hi'
        rw [hpc] at hi'
        cases hi'
      · intro c' i' _
        exact hdid
    · rw [htag] at htag'
      cases htag'

/-! ## Every step -/

omit [DecidableEq C] [DecidableEq T] in
theorem Inv.congr (hs : s.Inv) (hpc : s'.pc = s.pc) (htag : s'.tag = s.tag) (hdid : s'.did = s.did)
    (hnamed : s'.named = s.named) (hqueue : s'.queue = s.queue) : s'.Inv := by
  obtain ⟨_, _, _, _, _, _, _, _, _⟩ := hs
  constructor <;> simp only [hpc, htag, hdid, hnamed, hqueue] <;> assumption

omit [DecidableEq T] in
theorem queue_closed (s : Chans T C V) (c : C) : (s.setChan c { s.chan c with closed := 1 }).queue = s.queue := by
  funext c'
  change (update s.chan c { s.chan c with closed := 1 } c').qentry = (s.chan c').qentry
  by_cases hc : c' = c
  · rw [hc, update_self]
  · rw [update_of_ne hc]

omit [DecidableEq T] in
theorem Inv.closed (hs : s.Inv) (c : C) : (s.setChan c { s.chan c with closed := 1 }).Inv :=
  hs.congr rfl rfl rfl rfl (s.queue_closed c)

theorem Step.inv {x : ChanAct T C V} (h : Step zero s x s') (hs : s.Inv) : s'.Inv := by
  cases h with
  | @nilchan t alts noblk hfree _ =>
    have hbegun : (s.begin t alts noblk).Free t := hfree
    exact (hs.begin hfree alts noblk).returns hbegun (fun w hw => ⟨update_of_ne hw .., rfl, rfl, rfl⟩) rfl
      (update_self ..)
  | @alt _ t alts noblk _ hfree _ halts =>
    exact halts.inv (hs.begin hfree alts noblk) hfree (update_self ..) (update_self ..)
      (update_self ..)
  | @interrupt t hpc =>
    refine hs.sleeps (t := t) (by rw [hpc]; trivial) ?_ (fun w hw => update_of_ne hw ..) rfl rfl rfl rfl
    rw [show (s.goto t (.woken .intred)).pc t = .woken .intred from update_self ..]
    trivial
  | @meeting p w i hp hw =>
    have hpw : p ≠ w := by
      intro h
      rw [h, hw] at hp
      cases hp
    have hpc : ((s.goto p (.returned i)).goto w (.woken .nil)).pc p = .returned i := by
      change update (update s.pc p (.returned i)) w (.woken .nil) p = _
      rw [update_of_ne hpw, update_self]
    refine hs.pairs (r := .nil) (by rw [hp]; rfl) (by simp) ?_ ?_ ?_ (update_self ..)
      (fun _ => (hs.meeting p w i hp).1) nofun rfl rfl rfl rfl
    · intro t htp htw
      change update (update s.pc p (.returned i)) w (.woken .nil) t = _
      rw [update_of_ne htw, update_of_ne htp]
    · rw [hpc]
      exact id
    · rw [hpc]
      rfl
  | @closing p w c i hp hw =>
    have hpw : p ≠ w := by
      intro h
      rw [h, hw] at hp
      cases hp
    have hpc : ((s.goto p (.closed c (i + 1))).goto w (.woken .closed)).pc p = .closed c (i + 1) := by
      change update (update s.pc p (.closed c (i + 1))) w (.woken .closed) p = _
      rw [update_of_ne hpw, update_self]
    refine hs.pairs (r := .closed) (by rw [hp]; rfl) (by simp) ?_ ?_ ?_ (update_self ..) nofun
      (fun _ => hs.closing p w c i hp) rfl rfl rfl rfl
    · intro t htp htw
      change update (update s.pc p (.closed c (i + 1))) w (.woken .closed) t = _
      rw [update_of_ne htw, update_of_ne htp]
    · rw [hpc]
      exact id
    · rw [hpc]
      rfl
  | resume hr => exact hs.resume hr
  | @already t c hfree _ =>
    have hpc : (s.goto t .idle).pc t = .idle := update_self ..
    refine hs.leaves (hs.unmet (.inl hfree.not_asleep)) hfree.meets
      (fun w hw => ⟨update_of_ne hw .., rfl, rfl, rfl⟩) ?_ ?_ hs.once ?_
    · rw [hpc]
      exact id
    · rw [hpc]
      rfl
    · intro c j p hp
      exact ⟨hp, hs.notMem_free hfree hp⟩
  | @chanclose t c hfree _ =>
    exact (hs.closed c).closeFrom (fun h => h.not_free hfree) hfree.meets
  | @close t c i hpc =>
    refine hs.closeFrom ?_ ?_
    · rw [hpc]
      exact id
    · rw [hpc]
      rfl

end

end Chans

end Plan9.Libthread
