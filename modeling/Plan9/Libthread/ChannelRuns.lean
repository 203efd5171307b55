/-
The channels over whole runs, and where the ring goes wrong.

The number of a new value in the ring is `f + n` in 32 bits. It comes past 2³² while
fewer than 2³² values have been received, and when `s` does not divide 2³² the value is
then put in a slot that is not the next one (`Room`).
-/
import Plan9.Libthread.ChannelAlt
import Plan9.Libthread.ChannelLogs

namespace Plan9.Libthread

open Function List

variable {T C V : Type}

namespace Chans

variable {s s' : Chans T C V} {t : T} {c : C} {p : T × Nat} {i : Nat} {a b : Alt C V} {zero : V}

/-! ## A call that names a channel once -/

/-- The entries of a waiting thread are for different channels. -/
def Single (s : Chans T C V) (w : T) : Prop :=
  (s.pc w).InAlt → ∀ j k c, s.named w j = some c → s.named w k = some c → j = k

theorem Single.congr {w : T} (h : s.Single w) (hpc : (s'.pc w).InAlt → (s.pc w).InAlt) (hnamed : s'.named w = s.named w) :
    s'.Single w := by
  intro hin
  rw [hnamed]
  exact h (hpc hin)

theorem named_of_what {w : T} (h : ∀ j, (s'.entry (w, j)).map what = (s.entry (w, j)).map what) : s'.named w = s.named w := by
  funext j
  have hj := h j
  unfold Chans.named
  cases hs : s.entry (w, j) with
  | none =>
    rw [hs, Option.map_none, Option.map_eq_none_iff] at hj
    rw [hj]
  | some a =>
    rw [hs, Option.map_some, Option.map_eq_some_iff] at hj
    obtain ⟨a', ha', heq⟩ := hj
    rw [ha']
    obtain ⟨hc, hrest⟩ := Prod.mk.inj heq
    obtain ⟨hop, -⟩ := Prod.mk.inj hrest
    change (if a'.op = .CHANNOP then none else a'.c) = if a.op = .CHANNOP then none else a.c
    rw [hc, hop]

variable [DecidableEq C] [DecidableEq T]

theorem Alts.keeps {alts : List (Alt C V)} {mate : Option (T × Nat)} (h : Alts zero s t alts mate s') (hs : s.Inv)
    (hfree : s.Free t) (halts : s.alts t = alts) : s'.named = s.named ∧ ∀ w, w ≠ t → s'.pc w = s.pc w := by
  cases h with
  | meet _ _ hmem hblocked _ hmeet =>
    obtain ⟨hpt, -⟩ := hs.met_entry hfree hmem hblocked
    obtain ⟨hframe, -⟩ := meet_frame hpt hmeet
    refine ⟨hframe.named, ?_⟩
    intro w hw
    change update _ t _ w = _
    rw [update_of_ne hw]
    exact congrFun hframe.pc w
  | buffered _ _ _ hbuf =>
    obtain ⟨hframe, -⟩ := buffered_frame hbuf
    refine ⟨hframe.named, ?_⟩
    intro w hw
    change update _ t _ w = _
    rw [update_of_ne hw, hframe.pc]
  | meetAborts => exact ⟨rfl, fun _ _ => rfl⟩
  | bufferedAborts => exact ⟨rfl, fun _ _ => rfl⟩
  | noblk => exact ⟨rfl, fun w hw => update_of_ne hw ..⟩
  | await =>
    unfold Chans.await
    split
    · obtain ⟨q, heq, -⟩ := enqueueAll_queues s t alts 0 s.queue
        (fun c j k _ hat => hs.notMem_free hfree hat rfl) hs.once
      rw [setQueues_queue] at heq
      rw [heq]
      exact ⟨rfl, fun w hw => update_of_ne hw ..⟩
    split
    · rename_i i _
      refine ⟨?_, fun w hw => update_of_ne hw ..⟩
      funext w
      refine named_of_what ?_
      intro j
      unfold Chans.entry
      change ((update s.alts t _ w)[j]?).map what = _
      by_cases hwt : w = t
      · subst hwt
        rw [update_self, halts]
        refine what_modify ?_ i j
        intro a
        rfl
      · rw [update_of_ne hwt]
    · split
      · exact ⟨rfl, fun w hw => update_of_ne hw ..⟩
      · exact ⟨rfl, fun w hw => update_of_ne hw ..⟩

theorem Step.single {x : ChanAct T C V} (h : Step zero s x s') (hs : s.Inv) (hfits : s.Fits x) (hone : ∀ w, s.Single w)
    (w : T) : s'.Single w := by
  -- A thread that goes out of `alt`.
  have hgoto : ∀ {s₁ : Chans T C V} {t : T} {pc : Pc T C}, s₁.pc = s.pc → s₁.named = s.named →
      (pc.InAlt → (s.pc t).InAlt) → (s₁.goto t pc).Single w := by
    intro s₁ t pc hpc hnamed hin
    refine (hone w).congr ?_ (congrFun hnamed w)
    change (update s₁.pc t pc w).InAlt → _
    by_cases hwt : w = t
    · rw [hwt, update_self]
      exact hin
    · rw [update_of_ne hwt, hpc]
      exact id
  have hclose : ∀ {s₁ : Chans T C V} {t : T} {c : C} {i : Nat}, s₁.pc = s.pc → s₁.named = s.named →
      (s₁.closeFrom t c i).Single w := by
    intro s₁ t c i hpc hnamed
    unfold Chans.closeFrom
    split
    · refine (hone w).congr ?_ (congrFun hnamed w)
      change (update s₁.pc t _ w).InAlt → _
      by_cases hwt : w = t
      · rw [hwt, update_self]
        exact False.elim
      · rw [update_of_ne hwt, hpc]
        exact id
    refine (hone w).congr ?_ (congrFun hnamed w)
    change (update s₁.pc t _ w).InAlt → _
    by_cases hwt : w = t
    · rw [hwt, update_self]
      exact False.elim
    · rw [update_of_ne hwt, hpc]
      exact id
  cases h with
  | @nilchan t alts noblk hfree _ =>
    by_cases hwt : w = t
    · subst hwt
      intro hin
      change (update s.pc w (.returned (-1)) w).InAlt at hin
      rw [update_self] at hin
      exact hin.elim
    refine (hone w).congr ?_ (named_update hwt)
    change (update s.pc t _ w).InAlt → _
    rw [update_of_ne hwt]
    exact id
  | @alt _ t alts noblk _ hfree _ halts =>
    have hself : (s.begin t alts noblk).alts t = alts := update_self ..
    obtain ⟨hnamed, hpc⟩ := halts.keeps (hs.begin hfree alts noblk) hfree hself
    by_cases hwt : w = t
    · subst hwt
      intro _ j k c hj hk
      rw [hnamed] at hj hk
      obtain ⟨a, ha, haop, hac⟩ := alts_of_named hj
      obtain ⟨b, hb, hbop, hbc⟩ := alts_of_named hk
      rw [hself] at ha hb
      exact hfits.1 j k a b c ha hb haop hbop hac hbc
    refine (hone w).congr ?_ ?_
    · rw [hpc w hwt]
      exact id
    · rw [hnamed]
      exact named_update hwt
  | @interrupt t hpc =>
    refine hgoto rfl rfl ?_
    rw [hpc]
    exact fun _ => trivial
  | @meeting p q i _ hq =>
    refine (hone w).congr ?_ rfl
    change (update (update s.pc p _) q _ w).InAlt → _
    by_cases hwq : w = q
    · rw [hwq, hq]
      exact fun _ => trivial
    rw [update_of_ne hwq]
    by_cases hwp : w = p
    · rw [hwp, update_self]
      exact False.elim
    · rw [update_of_ne hwp]
      exact id
  | @closing p q c i _ hq =>
    refine (hone w).congr ?_ rfl
    change (update (update s.pc p _) q _ w).InAlt → _
    by_cases hwq : w = q
    · rw [hwq, hq]
      exact fun _ => trivial
    rw [update_of_ne hwq]
    by_cases hwp : w = p
    · rw [hwp, update_self]
      exact False.elim
    · rw [update_of_ne hwp]
      exact id
  | @resume t r hr =>
    rcases hs.resume_cases hr with ⟨-, -, heq⟩ | ⟨q, ret, heq, -⟩
    · rw [heq]
      refine hgoto rfl rfl ?_
      rw [hr]
      exact fun _ => trivial
    rw [heq]
    refine hgoto rfl ?_ False.elim
    funext w'
    refine named_of_what ?_
    intro j
    unfold Chans.entry
    change ((update s.alts t _ w')[j]?).map what = _
    by_cases hwt : w' = t
    · rw [hwt, update_self]
      refine what_map ?_ j
      intro a
      split <;> rfl
    · rw [update_of_ne hwt]
  | already => exact hgoto rfl rfl False.elim
  | chanclose => exact hclose rfl rfl
  | close => exact hclose rfl rfl

/-- The call of a thread that names channels once is met in the last of its entries for the channel. -/
theorem Step.careful {x : ChanAct T C V} (h : Step zero s x s') (hs : s.Inv) (hone : ∀ w, s.Single w) : s.Careful x := by
  cases h with
  | @alt _ t alts noblk mate hfree _ halts =>
    cases halts with
    | @meet _ _ _ _ p _ _ _ hmem hblocked =>
      obtain ⟨hpt, -, hasleep, -⟩ := (hs.begin hfree alts noblk).met_entry hfree hmem hblocked
      intro c k hc hk
      exact Nat.le_of_eq (hone p.1 hasleep.inAlt k p.2 c hk hc)
    | @meetAborts _ _ _ _ p _ _ hmem hblocked =>
      obtain ⟨hpt, -, hasleep, -⟩ := (hs.begin hfree alts noblk).met_entry hfree hmem hblocked
      intro c k hc hk
      exact Nat.le_of_eq (hone p.1 hasleep.inAlt k p.2 c hk hc)
    | buffered => trivial
    | bufferedAborts => trivial
    | noblk => trivial
    | await => trivial
  | _ => trivial

/-! ## A closed channel -/

omit [DecidableEq C] [DecidableEq T] in
theorem closed_of_sending (ho : s.opens a = some c) (hop : a.op = .CHANSND) : (s.chan c).closed = 0 := by
  obtain ⟨-, -, hopen⟩ := opens_some ho
  unfold isopenfor at hopen
  rw [hop] at hopen
  simpa using hopen

theorem meet_sent (h : s.meet zero t i a c p b = some s') {c' : C} (hc : c' ≠ c) : s'.sent c' = s.sent c' := by
  unfold Chans.meet at h
  dsimp only at h
  split at h
  · split at h
    · cases h
    split at h
    · cases h
    · cases h
      exact update_of_ne hc ..
  · split at h <;> cases h <;> exact update_of_ne hc ..

theorem buffered_sent (h : s.buffered zero t i a c = some s') {c' : C} (hc : c' ≠ c ∨ a.op = .CHANRCV) :
    s'.sent c' = s.sent c' := by
  unfold Chans.buffered at h
  split at h
  · cases h
  split at h
  · cases h
    rfl
  rename_i hrcv
  cases h
  rcases hc with hc | hop
  · exact update_of_ne hc ..
  · exact absurd hop hrcv

theorem Alts.shut {alts : List (Alt C V)} {mate : Option (T × Nat)} (h : Alts zero s t alts mate s') (hs : s.Inv)
    (hf : s.Full) (hfree : s.Free t) (hclosed : (s.chan c).closed = 2) :
    s'.sent c = s.sent c ∧ (s'.chan c).closed = 2 := by
  cases h with
  | @meet i a b c0 p s₁ _ hready hmem hblocked _ hmeet =>
    obtain ⟨hpt, htag, -⟩ := hs.met_entry hfree hmem hblocked
    obtain ⟨hframe, -⟩ := meet_frame hpt hmeet
    refine ⟨?_, (hframe.closed c).trans hclosed⟩
    by_cases hc : c = c0
    · subst hc
      obtain ⟨j, hat⟩ := mem_iff_at.1 hmem
      exact absurd htag (hf.shut c hclosed j p hat)
    · exact meet_sent hmeet hc
  | @buffered i a c0 s₁ _ hready _ hbuf =>
    obtain ⟨hframe, -⟩ := buffered_frame hbuf
    refine ⟨?_, (hframe.closed c).trans hclosed⟩
    by_cases hc : c = c0
    · subst hc
      refine buffered_sent hbuf (.inr ?_)
      obtain ⟨ho, -⟩ := ready_some hready
      cases hop : a.op with
      | CHANRCV => rfl
      | CHANSND =>
        have hzero := closed_of_sending ho hop
        rw [hclosed] at hzero
        cases hzero
      | CHANNOP => exact absurd hop (opens_some ho).2.1
    · exact buffered_sent hbuf (.inl hc)
  | meetAborts => exact ⟨rfl, hclosed⟩
  | bufferedAborts => exact ⟨rfl, hclosed⟩
  | noblk => exact ⟨rfl, hclosed⟩
  | await =>
    unfold Chans.await
    split
    · obtain ⟨q, heq, -⟩ := enqueueAll_queues s t alts 0 s.queue
        (fun c j k _ hat => hs.notMem_free hfree hat rfl) hs.once
      rw [setQueues_queue] at heq
      rw [heq]
      exact ⟨rfl, hclosed⟩
    · split
      · exact ⟨rfl, hclosed⟩
      · split <;> exact ⟨rfl, hclosed⟩

omit [DecidableEq T] in
theorem setClosed_closed (c c' : C) (k : Nat) :
    ((s.setChan c' { s.chan c' with closed := k }).chan c).closed = if c = c' then k else (s.chan c).closed := by
  change (update s.chan c' _ c).closed = _
  by_cases hc : c = c'
  · subst hc
    rw [update_self, if_pos rfl]
  · rw [update_of_ne hc, if_neg hc]

theorem closeFrom_shut {c' : C} (hclosed : (s.chan c).closed = 2) :
    (s.closeFrom t c' i).sent c = s.sent c ∧ ((s.closeFrom t c' i).chan c).closed = 2 := by
  unfold Chans.closeFrom
  split
  · exact ⟨rfl, hclosed⟩
  refine ⟨rfl, ?_⟩
  change ((s.setChan c' { s.chan c' with closed := 2 }).chan c).closed = 2
  rw [setClosed_closed]
  split
  · rfl
  · exact hclosed

/-- **No new value enters** a channel that `chanclose` has returned for. -/
theorem Step.shut {x : ChanAct T C V} (h : Step zero s x s') (hs : s.Inv) (hf : s.Full) (hclosed : (s.chan c).closed = 2) :
    s'.sent c = s.sent c ∧ (s'.chan c).closed = 2 := by
  cases h with
  | nilchan => exact ⟨rfl, hclosed⟩
  | @alt _ t alts noblk _ hfree _ halts =>
    exact halts.shut (hs.begin hfree alts noblk) (hf.begin hs hfree alts noblk) hfree hclosed
  | interrupt => exact ⟨rfl, hclosed⟩
  | meeting => exact ⟨rfl, hclosed⟩
  | closing => exact ⟨rfl, hclosed⟩
  | resume hr =>
    rcases hs.resume_cases hr with ⟨-, -, heq⟩ | ⟨q, ret, heq, -⟩ <;> rw [heq] <;> exact ⟨rfl, hclosed⟩
  | already => exact ⟨rfl, hclosed⟩
  | @chanclose t c' _ hopen =>
    have hne : c ≠ c' := by
      intro hc
      rw [← hc, hclosed] at hopen
      cases hopen
    refine closeFrom_shut (s := s.setChan c' { s.chan c' with closed := 1 }) ?_
    rw [setClosed_closed, if_neg hne]
    exact hclosed
  | close => exact closeFrom_shut hclosed

theorem meet_recvd (h : s.meet zero t i a c p b = some s') (hop : a.op = .CHANRCV) :
    ∃ x, s'.recvd c = s.recvd c ++ [(t, s.calls t, x)] := by
  unfold Chans.meet at h
  dsimp only at h
  split at h
  · split at h
    · cases h
    split at h
    · cases h
    · cases h
      exact ⟨_, update_self ..⟩
  · cases h
    exact ⟨_, update_self ..⟩

theorem buffered_recvd (h : s.buffered zero t i a c = some s') (hop : a.op = .CHANRCV) :
    ∃ x, s'.recvd c = s.recvd c ++ [(t, s.calls t, x)] := by
  unfold Chans.buffered at h
  split at h
  · cases h
  · rw [if_pos hop] at h
    cases h
    exact ⟨_, update_self ..⟩

/-- What is in the buffer can be received, also when the channel is closed. -/
theorem Full.drain (hf : s.Full) (hs : s.Inv) (hfree : s.Free t) (hn : 0 < (s.chan c).n) (v : Option V) (noblk : Bool) :
    (∃ mate s', Step zero s (.alt t (runop .CHANRCV (some c) v) noblk mate) s') ∧
    ∀ mate s', Step zero s (.alt t (runop .CHANRCV (some c) v) noblk mate) s' →
      ∃ x, s'.recvd c = s.recvd c ++ [(t, s.calls t + 1, x)] := by
  have hfull := hf.begin hs hfree (runop .CHANRCV (some c) v) noblk
  have hready : (s.begin t (runop .CHANRCV (some c) v) noblk).ready ⟨some c, v, .CHANRCV, false⟩ = some c := by
    have ho : (s.begin t (runop .CHANRCV (some c) v) noblk).opens ⟨some c, v, .CHANRCV, false⟩ = some c := by
      unfold opens isopenfor
      simp [Chans.begin, hn]
    unfold ready
    rw [ho]
    simp [canexec, Chans.begin, hn]
  have hcalls : (s.begin t (runop .CHANRCV (some c) v) noblk).calls t = s.calls t + 1 := update_self ..
  have hentry : ∀ {i : Nat} {a : Alt C V}, (runop .CHANRCV (some c) v)[i]? = some a → a = ⟨some c, v, .CHANRCV, false⟩ := by
    intro i a h
    exact mem_singleton.1 (mem_of_getElem? h)
  have hchan : ∀ a ∈ runop .CHANRCV (some c) v, a.op ≠ ChanOp.CHANNOP → a.c ≠ none := by
    intro a ha _
    rw [mem_singleton.1 ha]
    simp
  refine ⟨?_, ?_⟩
  · cases hany : ((s.begin t (runop .CHANRCV (some c) v) noblk).chan c).qentry.any
        (·.any ((s.begin t (runop .CHANRCV (some c) v) noblk).blocked .CHANSND)) with
    | true =>
      obtain ⟨o, hmem, hblocked⟩ := any_eq_true.1 hany
      obtain ⟨p, rfl, hblocked⟩ : ∃ p, o = some p ∧ (s.begin t (runop .CHANRCV (some c) v) noblk).blocked .CHANSND p = true := by
        cases o with
        | none => cases hblocked
        | some p => exact ⟨p, rfl, hblocked⟩
      obtain ⟨-, b, hb, -⟩ := blocked_tag hblocked
      have hsome : ∃ s', Chans.meet zero _ t 0 _ c p b = some s' := hfull.meet_some hready hmem hblocked
      obtain ⟨s', hmeet⟩ := hsome
      exact ⟨some p, _, .alt hfree hchan (.meet rfl hready hmem hblocked hb hmeet)⟩
    | false =>
      have hsome : ∃ s', Chans.buffered zero _ t 0 _ c = some s' := buffered_some hready hany
      obtain ⟨s', hbuf⟩ := hsome
      exact ⟨none, _, .alt hfree hchan (.buffered rfl hready hany hbuf)⟩
  intro mate s' hstep
  cases hstep with
  | nilchan _ hnil =>
    obtain ⟨a, ha, hop, hc⟩ := hnil
    exact absurd hc (hchan a ha hop)
  | alt _ _ halts =>
    have hno : ¬ ∀ a ∈ runop .CHANRCV (some c) v, (s.begin t (runop .CHANRCV (some c) v) noblk).ready a = none := by
      intro h
      have hnone := h ⟨some c, v, .CHANRCV, false⟩ (mem_singleton.2 rfl)
      rw [hready] at hnone
      cases hnone
    cases halts with
    | meet hi hr hmem hblocked hb hmeet =>
      obtain rfl := hentry hi
      rw [hready] at hr
      cases hr
      obtain ⟨x, hx⟩ := meet_recvd hmeet rfl
      rw [hcalls] at hx
      exact ⟨x, hx⟩
    | buffered hi hr _ hbuf =>
      obtain rfl := hentry hi
      rw [hready] at hr
      cases hr
      obtain ⟨x, hx⟩ := buffered_recvd hbuf rfl
      rw [hcalls] at hx
      exact ⟨x, hx⟩
    | meetAborts hi hr hmem hblocked hb hmeet =>
      obtain ⟨s', hsome⟩ := hfull.meet_some hr hmem hblocked
      rw [hmeet] at hsome
      cases hsome
    | bufferedAborts hi hr hnone hbuf =>
      obtain ⟨s', hsome⟩ := buffered_some hr hnone
      rw [hbuf] at hsome
      cases hsome
    | noblk h => exact absurd h hno
    | await h => exact absurd h hno

/-! ## Runs -/

/-- What the channels are for. -/
structure Safe (zero : V) (s : Chans T C V) : Prop where
  /-- An entry that `alt` returns and that has no error was carried out. -/
  returns : ∀ t (j : Nat) a, s.pc t = .returned j → s.entry (t, j) = some a → a.err = false → s.did t = some j
  /-- What was carried out is logged, and what was received is where the entry's `v` points to. -/
  carried : ∀ t, s.Done zero t
  /-- A call sends or receives once, on one channel. -/
  once : ∀ op c, (s.keys op c).Nodup
  one : ∀ op op' c c' k, k ∈ s.keys op c → k ∈ s.keys op' c' → op = op' ∧ c = c'
  /-- What was received of a channel is what was sent on it, in that order, up to what is in the buffer. -/
  order : ∀ c, ∃ q, s.sentVals c = s.recvdVals c ++ q ∧ q.length = (s.chan c).n
  /-- A blocked sender means a full buffer, a blocked receiver an empty one. -/
  snd : ∀ c j p, s.Open c j .CHANSND p → (s.chan c).n = (s.chan c).s
  rcv : ∀ c j p, s.Open c j .CHANRCV p → (s.chan c).n = 0
  aborted : s.aborted = false
  runopReturns : ∀ t a r err, s.alts t = [a] → s.pc t = .returned r → runopReturn r err ≠ none
  /-- One thread at most is at the tag of another. -/
  partner : ∀ p q w, (s.pc p).meets = some w → (s.pc q).meets = some w → p = q
  drain : ∀ t c v noblk, s.Free t → 0 < (s.chan c).n →
    (∃ mate s', Step zero s (.alt t (runop .CHANRCV (some c) v) noblk mate) s') ∧
    ∀ mate s', Step zero s (.alt t (runop .CHANRCV (some c) v) noblk mate) s' →
      ∃ x, s'.recvd c = s.recvd c ++ [(t, s.calls t + 1, x)]
  shut : ∀ c, (s.chan c).closed = 2 → ∀ x s', Step zero s x s' → s'.sent c = s.sent c ∧ (s'.chan c).closed = 2

/-- All that a step keeps. -/
structure Kept (zero : V) (s : Chans T C V) : Prop where
  inv : s.Inv
  full : s.Full
  right : ∀ w, s.Right w
  single : ∀ w, s.Single w
  ordered : s.Ordered
  logged : s.Logged zero

omit [DecidableEq C] [DecidableEq T] in
theorem Kept.init (h : s.Init) : s.Kept zero := by
  refine ⟨.init h, .init h, .init h, ?_, .init h, .init h⟩
  intro w hin
  rw [h.pc w] at hin
  exact hin.elim

theorem Kept.step {x : ChanAct T C V} (hk : s.Kept zero) (h : Step zero s x s') (hfits : s.Fits x) : s'.Kept zero := by
  obtain ⟨hs, hf, hright, hone, ho, hl⟩ := hk
  exact ⟨h.inv hs, h.full hs hf, h.right hs hf (h.careful hs hone) hright, h.single hs hfits hone, h.ordered hs hf hfits ho,
    h.logged hs hl⟩

theorem Kept.safe (hk : s.Kept zero) (hrecvd : ∀ c, (s.recvd c).length < 2 ^ 32) : s.Safe zero := by
  obtain ⟨hs, hf, hright, -, ho, hl⟩ := hk
  refine ⟨?_, hl.done, hl.once, hl.one, ?_, hf.snd, hf.rcv, hf.aborted, ?_, hs.one, ?_, ?_⟩
  · intro t j a hpc ha herr
    cases hdid : s.did t with
    | some k =>
      have hjk := (hright t).did j k hpc hdid
      rw [Int.ofNat_inj.1 hjk]
    | none =>
      obtain ⟨hj, -⟩ := List.getElem?_eq_some_iff.1 (show (s.alts t)[j]? = some a from ha)
      rcases (hright t).failed j hpc hdid with hr | ⟨-, hr⟩ | ⟨k, b, hr, hb, hberr⟩
      · cases hr
      · omega
      rw [← Int.ofNat_inj.1 hr, ha] at hb
      cases hb
      rw [herr] at hberr
      cases hberr
  · intro c
    obtain ⟨q, hq⟩ := ho c (hrecvd c)
    exact ⟨q, hq.sent, hq.length⟩
  · intro t a r err halts hpc
    have hentry : ∀ {j : Nat} {b : Alt C V}, s.entry (t, j) = some b → j = 0 := by
      intro j b hb
      change (s.alts t)[j]? = some b at hb
      rw [halts] at hb
      have := (List.getElem?_eq_some_iff.1 hb).1
      rw [List.length_singleton] at this
      omega
    have hr : r = -1 ∨ r = 1 ∨ r = 0 := by
      cases hdid : s.did t with
      | some k =>
        obtain ⟨b, c, hb, -⟩ := hl.done t k hdid
        rw [(hright t).did r k hpc hdid, hentry hb]
        exact .inr (.inr rfl)
      | none =>
        rcases (hright t).failed r hpc hdid with hr | ⟨-, hr⟩ | ⟨k, b, hr, hb, -⟩
        · exact .inl hr
        · rw [hr, halts]
          exact .inr (.inl rfl)
        · rw [hr, hentry hb]
          exact .inr (.inr rfl)
    rcases hr with rfl | rfl | rfl
    · simp [runopReturn]
    · simp [runopReturn]
    · cases err <;> simp [runopReturn]
  · intro t c v noblk hfree hn
    exact hf.drain hs hfree hn v noblk
  · intro c hclosed x s' hstep
    exact hstep.shut hs hf hclosed

/-- A step whose call names a channel once and finds room where it sends. -/
def FitStep (zero : V) (s : Chans T C V) (x : ChanAct T C V) (s' : Chans T C V) : Prop := Step zero s x s' ∧ s.Fits x

/-- **The channels are safe** in every run in which no value is sent when `f + n` is past 2³² and `s` does not divide
2³². -/
theorem channels_safe (zero : V) (s : Chans T C V) (hs : Trans.Reachable Init (FitStep zero) s)
    (hrecvd : ∀ c, (s.recvd c).length < 2 ^ 32) : s.Safe zero := by
  have hkept : s.Kept zero := by
    refine hs.invariant (Kept zero) ?_ ?_
    · intro s h
      exact Kept.init h
    · intro s x s' hk hstep
      exact hk.step hstep.1 hstep.2
  exact hkept.safe hrecvd

theorem channels_safe_two : (Two.s₄ false).Safe 0 := by
  have hfits : ∀ {t : Bool} {l : List (Alt Unit Nat)} {s : Chans Bool Unit Nat} {noblk : Bool} {mate : Option (Bool × Nat)},
      l.length = 1 → (s.chan ()).f = 0 → (s.chan ()).n = 0 → s.Fits (.alt t l noblk mate) := by
    intro t l s noblk mate hl hf hn
    refine ⟨?_, ?_⟩
    · intro j k a b c hj hk _ _ _ _
      have hj := (List.getElem?_eq_some_iff.1 hj).1
      have hk := (List.getElem?_eq_some_iff.1 hk).1
      omega
    intro a _ _ c _ _
    left
    rw [hf, hn]
    decide
  have hreach : Trans.Reachable Init (FitStep 0) (Two.s₄ false) :=
    .next (.next (.next (.next (.start Two.start) ⟨Two.step₁ false, hfits rfl rfl rfl⟩) ⟨Two.step₂ false, hfits rfl rfl rfl⟩)
      ⟨Two.step₃ false, trivial⟩) ⟨Two.step₄ false, trivial⟩
  refine channels_safe 0 (Two.s₄ false) hreach ?_
  intro c
  change 1 < 2 ^ 32
  decide

/-! ## Past 2³² -/

/-- A step whose call names a channel once. -/
def NameStep (zero : V) (s : Chans T C V) (x : ChanAct T C V) (s' : Chans T C V) : Prop :=
  Step zero s x s' ∧ ∀ t alts noblk mate, x = .alt t alts noblk mate → NamesOnce alts

namespace Wrapped

def s₀ : Chans Unit Unit Nat :=
  ⟨fun _ => ⟨6, 0, 0, 0, [], fun _ => 0⟩, fun _ => .idle, fun _ => [], fun _ => false, fun _ => .nil, false, fun _ => 0,
    fun _ => none, fun _ => [], fun _ => []⟩

/-- One thread that sends to itself through a ring of 6. -/
structure Alone (s : Chans Unit Unit Nat) (f n : Nat) (v : Nat → Nat) (sent recvd : List Nat) : Prop where
  reachable : Trans.Reachable Init (NameStep 0) s
  free : s.Free ()
  chan : s.chan () = ⟨6, f, n, 0, [], v⟩
  sent : s.sentVals () = sent
  recvd : s.recvdVals () = recvd

variable {s : Chans Unit Unit Nat} {f n : Nat} {v : Nat → Nat} {sent recvd : List Nat}

theorem namesOnce_runop (op : ChanOp) (x : Option Nat) (t : Unit) (noblk : Bool) (mate : Option (Unit × Nat)) :
    ∀ t' alts noblk' mate', ChanAct.alt t (runop op (some ()) x) noblk mate = .alt t' alts noblk' mate' → NamesOnce alts := by
  intro t' alts noblk' mate' heq
  cases heq
  intro j k a b c hj hk _ _ _ _
  have hj := (List.getElem?_eq_some_iff.1 hj).1
  have hk := (List.getElem?_eq_some_iff.1 hk).1
  change j < 1 at hj
  change k < 1 at hk
  omega

theorem Alone.send (h : Alone s f n v sent recvd) (hn : n < 6) (x : Nat) :
    ∃ s', Alone s' f (n + 1) (update v ((f + n) % 2 ^ 32 % 6) x) (sent ++ [x]) recvd := by
  have hchan : (s.begin () (runop .CHANSND (some ()) (some x)) false).chan () = ⟨6, f, n, 0, [], v⟩ := h.chan
  have hbuf : ∃ s', (s.begin () (runop .CHANSND (some ()) (some x)) false).buffered 0 () 0 ⟨some (), some x, .CHANSND, false⟩ () =
      some s' ∧ s'.chan () = ⟨6, f, n + 1, 0, [], update v ((f + n) % 2 ^ 32 % 6) x⟩ ∧
      s'.sentVals () = s.sentVals () ++ [x] ∧ s'.recvdVals () = s.recvdVals () := by
    unfold Chans.buffered altexecbuffered
    rw [hchan]
    simp only [reduceCtorEq, false_and, if_false, hn, and_self, if_true]
    refine ⟨_, rfl, rfl, ?_, rfl⟩
    change (s.sent () ++ [((), _, x)]).map (fun y : Unit × Nat × Nat => y.2.2) = _
    rw [map_append]
    rfl
  obtain ⟨s', hbuf, hchan', hsent, hrecvd⟩ := hbuf
  have hready : (s.begin () (runop .CHANSND (some ()) (some x)) false).ready ⟨some (), some x, .CHANSND, false⟩ = some () := by
    simp [ready, opens, isopenfor, canexec, hchan, hn]
  have hstep : Step 0 s (.alt () (runop .CHANSND (some ()) (some x)) false none) (s'.goto () (.returned (0 : Nat))) := by
    refine .alt h.free ?_ (.buffered rfl hready ?_ hbuf)
    · intro a ha _
      rw [mem_singleton.1 ha]
      simp
    · rw [hchan]
      rfl
  exact ⟨_, .next h.reachable ⟨hstep, namesOnce_runop _ _ _ _ _⟩, .inr ⟨_, rfl⟩, hchan', hsent.trans (by rw [h.sent]),
    hrecvd.trans h.recvd⟩

theorem Alone.recv (h : Alone s f n v sent recvd) (hn : 0 < n) :
    ∃ s', Alone s' ((f + 1) % 2 ^ 32) (n - 1) v sent (recvd ++ [v (f % 6)]) := by
  have hchan : (s.begin () (runop .CHANRCV (some ()) none) false).chan () = ⟨6, f, n, 0, [], v⟩ := h.chan
  have hbuf : ∃ s', (s.begin () (runop .CHANRCV (some ()) none) false).buffered 0 () 0 ⟨some (), none, .CHANRCV, false⟩ () =
      some s' ∧ s'.chan () = ⟨6, (f + 1) % 2 ^ 32, n - 1, 0, [], v⟩ ∧ s'.sentVals () = s.sentVals () ∧
      s'.recvdVals () = s.recvdVals () ++ [v (f % 6)] := by
    unfold Chans.buffered altexecbuffered
    rw [hchan]
    simp only [hn, and_self, if_true]
    refine ⟨_, rfl, rfl, rfl, ?_⟩
    change (s.recvd () ++ [((), _, v (f % 6))]).map (fun y : Unit × Nat × Nat => y.2.2) = _
    rw [map_append]
    rfl
  obtain ⟨s', hbuf, hchan', hsent, hrecvd⟩ := hbuf
  have hready : (s.begin () (runop .CHANRCV (some ()) none) false).ready ⟨some (), none, .CHANRCV, false⟩ = some () := by
    simp [ready, opens, isopenfor, canexec, hchan, hn]
  have hstep : Step 0 s (.alt () (runop .CHANRCV (some ()) none) false none) (s'.goto () (.returned (0 : Nat))) := by
    refine .alt h.free ?_ (.buffered rfl hready ?_ hbuf)
    · intro a ha _
      rw [mem_singleton.1 ha]
      simp
    · rw [hchan]
      rfl
  exact ⟨_, .next h.reachable ⟨hstep, namesOnce_runop _ _ _ _ _⟩, .inr ⟨_, rfl⟩, hchan', hsent.trans h.sent,
    hrecvd.trans (by rw [h.recvd])⟩

theorem rounds (k : Nat) : ∃ s l, l.length = k ∧ Alone s (k % 2 ^ 32) 0 (fun _ => 0) l l := by
  induction k with
  | zero => exact ⟨s₀, [], rfl, .start ⟨fun _ => rfl, fun _ => ⟨rfl, rfl, rfl, rfl⟩, rfl, fun _ => rfl, fun _ => rfl, fun _ => rfl⟩,
      .inl rfl, rfl, rfl, rfl⟩
  | succ k ih =>
    obtain ⟨s, l, hl, h⟩ := ih
    obtain ⟨s', h'⟩ := h.send (by decide) 0
    obtain ⟨s'', h''⟩ := h'.recv (by decide)
    refine ⟨s'', l ++ [0], by rw [length_append, hl]; rfl, ?_⟩
    have hzero : ∀ i, update (fun _ : Nat => 0) i 0 = fun _ => 0 := fun i => update_eq_self i _
    rw [hzero, Nat.mod_add_mod] at h''
    exact h''

end Wrapped

/-- The value 5 is put over the value 1, which has not been received. -/
theorem channels_unsafe :
    ¬ ∀ s : Chans Unit Unit Nat, Trans.Reachable Init (NameStep 0) s → (∀ c, (s.recvd c).length < 2 ^ 32) → s.Safe 0 := by
  intro hsafe
  obtain ⟨s, l, hl, h⟩ := Wrapped.rounds (2 ^ 32 - 4)
  obtain ⟨s, h⟩ := h.send (by decide) 1
  obtain ⟨s, h⟩ := h.send (by decide) 2
  obtain ⟨s, h⟩ := h.send (by decide) 3
  obtain ⟨s, h⟩ := h.send (by decide) 4
  obtain ⟨s, h⟩ := h.send (by decide) 5
  obtain ⟨s, h⟩ := h.recv (by decide)
  have hlen : ∀ c, (s.recvd c).length < 2 ^ 32 := by
    intro c
    have hrecvd := congrArg length h.recvd
    unfold recvdVals at hrecvd
    rw [length_map, length_append, hl] at hrecvd
    rw [hrecvd]
    decide
  obtain ⟨q, hq, -⟩ := (hsafe s h.reachable hlen).order ()
  rw [h.sent, h.recvd] at hq
  simp only [append_assoc, append_cancel_left_eq] at hq
  have hfirst := (cons.inj hq).1
  revert hfirst
  decide

end Chans

end Plan9.Libthread
