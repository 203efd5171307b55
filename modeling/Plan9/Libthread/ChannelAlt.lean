/-
Which entry `alt` returns.

A call that waits looks for the last entry for the channel that its tag is. It is the
one that was carried out when no later entry is for that channel (`Careful`); a call
that was met in an earlier one returns the wrong index.
-/
import Plan9.Libthread.ChannelFull

namespace Plan9.Libthread

open Function

variable {T C V : Type}

namespace Chans

variable {s s' : Chans T C V} {t w : T} {c : C} {p : T × Nat} {i : Nat} {zero : V}

/-- What `alt` returns to `w`, and what it is going to. -/
structure Right (s : Chans T C V) (w : T) : Prop where
  last : ∀ c j k, (s.pc w).InAlt → s.tag w = .chan c → s.did w = some j → s.named w k = some c → k ≤ j
  did : ∀ r j, s.pc w = .returned r → s.did w = some j → r = j
  failed : ∀ r, s.pc w = .returned r → s.did w = none →
    r = -1 ∨ s.noblk w = true ∧ r = (s.alts w).length ∨ ∃ j a, r = (j : Nat) ∧ s.entry (w, j) = some a ∧ a.err = true

theorem Right.congr (h : s.Right w) (hpc : s'.pc w = s.pc w) (htag : s'.tag w = s.tag w) (hdid : s'.did w = s.did w)
    (hnoblk : s'.noblk w = s.noblk w) (halts : s'.alts w = s.alts w) : s'.Right w := by
  have hentry : ∀ j, s'.entry (w, j) = s.entry (w, j) := by
    intro j
    unfold entry
    rw [halts]
  have hnamed : s'.named w = s.named w := by
    funext j
    unfold named
    rw [hentry]
  refine ⟨?_, ?_, ?_⟩
  · rw [hpc, htag, hdid, hnamed]
    exact h.last
  · rw [hpc, hdid]
    exact h.did
  rw [hpc, hdid, hnoblk, halts]
  intro r hr hnone
  rcases h.failed r hr hnone with hr | hr | ⟨j, a, hr, ha, herr⟩
  · exact .inl hr
  · exact .inr (.inl hr)
  · exact .inr (.inr ⟨j, a, hr, (hentry j).trans ha, herr⟩)

theorem Right.of_other (hin : ¬ (s.pc w).InAlt) (hret : ∀ r, s.pc w ≠ .returned r) : s.Right w :=
  ⟨fun _ _ _ h => absurd h hin, fun r _ h => absurd h (hret r), fun r h => absurd h (hret r)⟩

theorem Right.of_inAlt (hin : (s.pc w).InAlt)
    (hlast : ∀ c j k, s.tag w = .chan c → s.did w = some j → s.named w k = some c → k ≤ j) : s.Right w := by
  have hret : ∀ r, s.pc w ≠ .returned r := by
    intro r hr
    rw [hr] at hin
    exact hin
  exact ⟨fun c j k _ => hlast c j k, fun r _ h => absurd h (hret r), fun r h => absurd h (hret r)⟩

theorem Right.of_did {r : Int} (hpc : s.pc w = .returned r) (hdid : s.did w = some i) (hr : r = i) : s.Right w := by
  refine ⟨?_, ?_, ?_⟩
  · intro c j k hin
    rw [hpc] at hin
    exact hin.elim
  · intro r' j hr' hj
    rw [hpc] at hr'
    cases hr'
    rw [hdid] at hj
    cases hj
    exact hr
  · intro r' _ hnone
    rw [hdid] at hnone
    cases hnone

theorem Right.of_failed {r : Int} (hpc : s.pc w = .returned r) (hdid : s.did w = none)
    (hr : r = -1 ∨ s.noblk w = true ∧ r = (s.alts w).length ∨
      ∃ j a, r = (j : Nat) ∧ s.entry (w, j) = some a ∧ a.err = true) : s.Right w := by
  refine ⟨?_, ?_, ?_⟩
  · intro c j k hin
    rw [hpc] at hin
    exact hin.elim
  · intro r' j _ hj
    rw [hdid] at hj
    cases hj
  intro r' hr' _
  rw [hpc] at hr'
  cases hr'
  exact hr

/-- The entry of another that a call meets is the last of its array for the channel. -/
def Careful (s : Chans T C V) : ChanAct T C V → Prop
  | .alt _ _ _ (some p) => ∀ c k, s.named p.1 p.2 = some c → s.named p.1 k = some c → k ≤ p.2
  | _ => True

variable [DecidableEq C] [DecidableEq T]

theorem Alts.right {alts : List (Alt C V)} {mate : Option (T × Nat)} (h : Alts zero s t alts mate s') (hs : s.Inv)
    (hright : ∀ w, w ≠ t → s.Right w) (hfree : s.Free t) (htag : s.tag t = .nil) (hdid : s.did t = none)
    (halts : s.alts t = alts)
    (hcare : ∀ p, mate = some p → p.1 ≠ t → ∀ c k, s.named p.1 p.2 = some c → s.named p.1 k = some c → k ≤ p.2) (w : T) :
    s'.aborted = true ∨ s'.Right w := by
  have hgoto : ∀ {pc : Pc T C}, w ≠ t → (s.goto t pc).Right w := by
    intro pc hwt
    exact (hright w hwt).congr (update_of_ne hwt ..) rfl rfl rfl rfl
  cases h with
  | @meet i a b c p s₁ _ _ hmem hblocked _ hmeet =>
    right
    obtain ⟨hpt, -, hasleep, -, hnamed⟩ := hs.met_entry hfree hmem hblocked
    obtain ⟨hframe, -, hdp, hdw, haw⟩ := meet_frame hpt hmeet
    have hpc : ∀ w, w ≠ t → ((s₁.setTag p.1 (.chan c)).goto t (.meeting p.1 i)).pc w = s.pc w := by
      intro w hwt
      change update s₁.pc t (.meeting p.1 i) w = _
      rw [update_of_ne hwt, hframe.pc]
    have htagw : ∀ w, w ≠ p.1 → update s₁.tag p.1 (.chan c) w = s.tag w := by
      intro w hwp
      rw [update_of_ne hwp, hframe.tag]
    have hpct : ((s₁.setTag p.1 (.chan c)).goto t (.meeting p.1 i)).pc t = .meeting p.1 i := update_self ..
    by_cases hwt : w = t
    · subst hwt
      refine .of_other ?_ ?_ <;> rw [hpct]
      · exact id
      · simp
    by_cases hwp : w = p.1
    · subst hwp
      refine .of_inAlt ?_ ?_
      · rw [hpc _ hwt]
        exact hasleep.inAlt
      intro c' j k htag' hj hk
      change update s₁.tag p.1 (.chan c) p.1 = _ at htag'
      rw [update_self] at htag'
      cases htag'
      change s₁.did p.1 = some j at hj
      rw [hdp] at hj
      cases hj
      exact hcare p rfl hpt c k hnamed ((congrFun (congrFun hframe.named p.1) k).symm.trans hk)
    · exact (hright w hwt).congr (hpc w hwt) (htagw w hwp) (hdw w hwt hwp) (congrFun hframe.noblk w) (haw w hwt hwp)
  | @buffered i a c s₁ _ _ _ hbuf =>
    right
    obtain ⟨hframe, hdid', haw⟩ := buffered_frame hbuf
    by_cases hwt : w = t
    · subst hwt
      refine .of_did (update_self ..) ?_ rfl
      change s₁.did w = some i
      rw [hdid', update_self]
    refine (hright w hwt).congr ?_ (congrFun hframe.tag w) ?_ (congrFun hframe.noblk w) (haw w hwt)
    · change update s₁.pc t _ w = _
      rw [update_of_ne hwt, hframe.pc]
    · change s₁.did w = s.did w
      rw [hdid', update_of_ne hwt]
  | meetAborts => exact .inl rfl
  | bufferedAborts => exact .inl rfl
  | noblk _ hnoblk =>
    right
    by_cases hwt : w = t
    · subst hwt
      exact .of_failed (update_self ..) hdid (.inr (.inl ⟨hnoblk, by rw [← halts]; rfl⟩))
    · exact hgoto hwt
  | await _ _ =>
    right
    unfold Chans.await
    split
    · obtain ⟨q, heq, -⟩ := enqueueAll_queues s t alts 0 s.queue
        (fun c j k _ hat => hs.notMem_free hfree hat rfl) hs.once
      rw [setQueues_queue] at heq
      rw [heq]
      by_cases hwt : w = t
      · subst hwt
        have hpc : ((s.setQueues q).goto w .waiting).pc w = .waiting := update_self ..
        refine .of_inAlt (by rw [hpc]; trivial) ?_
        intro c j k htag'
        change s.tag w = _ at htag'
        rw [htag] at htag'
        cases htag'
      · exact (hright w hwt).congr (update_of_ne hwt ..) rfl rfl rfl rfl
    split
    · rename_i i hlast
      by_cases hwt : w = t
      · subst hwt
        obtain ⟨-, ⟨a, ha, -⟩, -⟩ := lastOf_some hlast
        rw [Nat.sub_zero] at ha
        refine .of_failed (update_self ..) hdid (.inr (.inr ⟨i, { a with err := true }, rfl, ?_, rfl⟩))
        change (update s.alts w _ w)[i]? = _
        rw [update_self, List.getElem?_modify, ha]
        simp
      · exact (hright w hwt).congr (update_of_ne hwt ..) rfl rfl rfl (update_of_ne hwt ..)
    split
    · by_cases hwt : w = t
      · subst hwt
        exact .of_failed (update_self ..) hdid (.inl rfl)
      · exact hgoto hwt
    by_cases hwt : w = t
    · subst hwt
      have hpc : (s.goto w .waiting).pc w = .waiting := update_self ..
      refine .of_inAlt (by rw [hpc]; trivial) ?_
      intro c j k htag'
      change s.tag w = _ at htag'
      rw [htag] at htag'
      cases htag'
    · exact hgoto hwt

theorem Inv.resume_right (hs : s.Inv) (hright : ∀ w, s.Right w) {r : Rend} (hr : s.pc t = .woken r) (w : T) :
    (s.resume t r).Right w := by
  have hin : (s.pc t).InAlt := by
    rw [hr]
    trivial
  rcases hs.resume_cases hr with ⟨rfl, -, heq⟩ | ⟨q, ret, heq, -, -, hret⟩
  · rw [heq]
    by_cases hwt : w = t
    · subst hwt
      have hpc : (s.goto w .waiting).pc w = .waiting := update_self ..
      exact .of_inAlt (by rw [hpc]; trivial) fun c j k => (hright w).last c j k hin
    · exact (hright w).congr (update_of_ne hwt ..) rfl rfl rfl rfl
  rw [heq]
  by_cases hwt : w = t
  · subst hwt
    have hpc : (((s.woke w r).setQueues q).goto w (.returned ret)).pc w = .returned ret := update_self ..
    rcases hret with ⟨-, -, hdid, rfl⟩ | ⟨hri, i, hlast, rfl⟩
    · exact .of_failed hpc hdid (.inl rfl)
    obtain ⟨-, ⟨a, ha, hsel⟩, hmax⟩ := lastOf_some hlast
    rw [Nat.sub_zero] at ha
    obtain ⟨c, htag, hop, hc⟩ := selects_iff.1 hsel
    have hnamed : s.named w i = some c := named_of_alts rfl ha hc hop
    cases hdid : s.did w with
    | some j =>
      refine .of_did hpc hdid ?_
      have hij : i ≤ j := (hright w).last c j i hin htag hdid hnamed
      have hji : j ≤ i := by
        rcases hs.tag w hin with ⟨hnil, -⟩ | ⟨_, j', htag', hnamed', hj'⟩
        · rw [hnil] at htag
          cases htag
        rw [htag] at htag'
        cases htag'
        obtain rfl : j' = j := by
          rcases hj' with hj' | hj' <;> rw [hdid] at hj' <;> cases hj'
          rfl
        obtain ⟨b, hb, hbop, hbc⟩ := alts_of_named hnamed'
        have hle := hmax j' b hb (selects_iff.2 ⟨c, htag, hbop, hbc⟩)
        rwa [Nat.zero_add] at hle
      rw [Nat.le_antisymm hij hji]
    | none =>
      refine .of_failed hpc hdid (.inr (.inr ⟨i, { a with err := true }, rfl, ?_, rfl⟩))
      have hclosed : r = .closed := by
        cases r with
        | closed => rfl
        | intred => exact absurd rfl hri
        | nil => exact absurd hdid ((hs.woken w).1 hr)
      have hseen : s.seen w r = s.tag w := if_neg hri
      change (update s.alts w _ w)[i]? = _
      rw [update_self, List.getElem?_map, ha, hseen, hclosed, Option.map_some, if_pos hsel]
      rfl
  · exact (hright w).congr (update_of_ne hwt ..) (update_of_ne hwt ..) rfl rfl
      (update_of_ne hwt ..)

theorem Inv.closeFrom_right (hs : s.Inv) (hright : ∀ w, s.Right w) (hnot : ¬ (s.pc t).InAlt) (w : T) :
    (s.closeFrom t c i).Right w := by
  unfold Chans.closeFrom
  cases hscan : s.closeScan c i ((s.chan c).qentry.drop i) with
  | none =>
    by_cases hwt : w = t
    · subst hwt
      have hpc : ((s.setChan c { s.chan c with closed := 2 }).goto w .idle).pc w = .idle := update_self ..
      refine .of_other ?_ ?_ <;> dsimp only <;> rw [hpc]
      · exact id
      · simp
    · exact (hright w).congr (update_of_ne hwt ..) rfl rfl rfl rfl
  | some x =>
    obtain ⟨j, a⟩ := x
    obtain ⟨k, rfl, hat, ⟨_, hblocked⟩, -⟩ := closeScan_some hscan
    obtain ⟨hin, -⟩ := hs.queued c (i + k) a (at_drop.1 hat)
    obtain ⟨htag, -⟩ := blocked_tag hblocked
    have hpt : a.1 ≠ t := fun hpt => hnot (hpt ▸ hin)
    by_cases hwt : w = t
    · subst hwt
      have hpc : ((s.setTag a.1 (.chan c)).goto w (.closing a.1 c (i + k))).pc w = .closing a.1 c (i + k) :=
        update_self ..
      refine .of_other ?_ ?_ <;> dsimp only <;> rw [hpc]
      · exact id
      · simp
    by_cases hwa : w = a.1
    · subst hwa
      have hpc : ((s.setTag a.1 (.chan c)).goto t (.closing a.1 c (i + k))).pc a.1 = s.pc a.1 :=
        update_of_ne hpt ..
      refine .of_inAlt ?_ ?_
      · rw [hpc]
        exact hin
      intro c' j' k' _ hj'
      rcases hs.tag a.1 hin with ⟨-, -, hdid⟩ | ⟨_, _, htag', -⟩
      · change s.did a.1 = some j' at hj'
        rw [hdid] at hj'
        cases hj'
      · rw [htag] at htag'
        cases htag'
    · exact (hright w).congr (update_of_ne hwt ..) (update_of_ne hwa ..) rfl rfl rfl

theorem Step.right {x : ChanAct T C V} (h : Step zero s x s') (hs : s.Inv) (hf : s.Full) (hcare : s.Careful x)
    (hright : ∀ w, s.Right w) (w : T) : s'.Right w := by
  have hfull := h.full hs hf
  cases h with
  | @nilchan t alts noblk hfree _ =>
    by_cases hwt : w = t
    · subst hwt
      exact .of_failed (update_self ..) (update_self ..) (.inl rfl)
    · exact (hright w).congr (update_of_ne hwt ..) (update_of_ne hwt ..) (update_of_ne hwt ..)
        (update_of_ne hwt ..) (update_of_ne hwt ..)
  | @alt _ t alts noblk mate hfree _ halts =>
    have hbegun : ∀ w, w ≠ t → (s.begin t alts noblk).Right w := by
      intro w hwt
      exact (hright w).congr rfl (update_of_ne hwt ..) (update_of_ne hwt ..)
        (update_of_ne hwt ..) (update_of_ne hwt ..)
    have hmate : ∀ p, mate = some p → p.1 ≠ t → ∀ c k, (s.begin t alts noblk).named p.1 p.2 = some c →
        (s.begin t alts noblk).named p.1 k = some c → k ≤ p.2 := by
      rintro p rfl hpt
      have hnamed : (s.begin t alts noblk).named p.1 = s.named p.1 := named_update hpt
      rw [hnamed]
      exact hcare
    rcases halts.right (hs.begin hfree alts noblk) hbegun hfree (update_self ..) (update_self ..)
      (update_self ..) hmate w with habort | h
    · rw [hfull.aborted] at habort
      cases habort
    · exact h
  | @interrupt t hpc =>
    by_cases hwt : w = t
    · subst hwt
      have hpc' : (s.goto w (.woken .intred)).pc w = .woken .intred := update_self ..
      exact .of_inAlt (by rw [hpc']; trivial) fun c j k => (hright w).last c j k (by rw [hpc]; trivial)
    · exact (hright w).congr (update_of_ne hwt ..) rfl rfl rfl rfl
  | @meeting p q i hp hq =>
    have hpc : ∀ w, w ≠ q → ((s.goto p (.returned i)).goto q (.woken .nil)).pc w = update s.pc p (.returned i) w :=
      fun w hw => update_of_ne hw ..
    by_cases hwq : w = q
    · subst hwq
      have hpc' : ((s.goto p (.returned i)).goto w (.woken .nil)).pc w = .woken .nil := update_self ..
      exact .of_inAlt (by rw [hpc']; trivial) fun c j k => (hright w).last c j k (by rw [hq]; trivial)
    by_cases hwp : w = p
    · subst hwp
      refine .of_did ?_ (hs.meeting w q i hp).2 rfl
      rw [hpc w hwq, update_self]
    · refine (hright w).congr ?_ rfl rfl rfl rfl
      rw [hpc w hwq, update_of_ne hwp]
  | @closing p q c i hp hq =>
    have hpc : ∀ w, w ≠ q →
        ((s.goto p (.closed c (i + 1))).goto q (.woken .closed)).pc w = update s.pc p (.closed c (i + 1)) w :=
      fun w hw => update_of_ne hw ..
    by_cases hwq : w = q
    · subst hwq
      have hpc' : ((s.goto p (.closed c (i + 1))).goto w (.woken .closed)).pc w = .woken .closed := update_self ..
      exact .of_inAlt (by rw [hpc']; trivial) fun c j k => (hright w).last c j k (by rw [hq]; trivial)
    by_cases hwp : w = p
    · subst hwp
      refine .of_other ?_ ?_ <;> rw [hpc w hwq, update_self]
      · exact id
      · simp
    · refine (hright w).congr ?_ rfl rfl rfl rfl
      rw [hpc w hwq, update_of_ne hwp]
  | resume hr => exact hs.resume_right hright hr w
  | @already t c hfree _ =>
    by_cases hwt : w = t
    · subst hwt
      have hpc' : (s.goto w .idle).pc w = .idle := update_self ..
      refine .of_other ?_ ?_ <;> rw [hpc']
      · exact id
      · simp
    · exact (hright w).congr (update_of_ne hwt ..) rfl rfl rfl rfl
  | @chanclose t c hfree _ =>
    have hright' : ∀ w, (s.setChan c { s.chan c with closed := 1 }).Right w := fun w => (hright w).congr rfl rfl rfl rfl rfl
    exact (hs.closed c).closeFrom_right hright' (fun h => h.not_free hfree) w
  | @close t c i hpc =>
    refine hs.closeFrom_right hright ?_ w
    rw [hpc]
    exact id

omit [DecidableEq C] [DecidableEq T] in
theorem Right.init (h : s.Init) (w : T) : s.Right w := by
  refine .of_other ?_ ?_ <;> rw [h.pc w]
  · exact id
  · simp

/-- A step with what makes it careful. -/
def CarefulStep (zero : V) (s : Chans T C V) (x : ChanAct T C V) (s' : Chans T C V) : Prop := Step zero s x s' ∧ s.Careful x

/-- **The index that `alt` returns** is that of the entry that was carried out, in every run in which no call is met in
an entry that a later one of its array for the same channel follows; and where none was carried out it is none, that of
the end of the array, or that of an entry with an error. -/
theorem alt_right (zero : V) (s : Chans T C V) (hs : Trans.Reachable Init (CarefulStep zero) s) (t : T) (r : Int)
    (hr : s.pc t = .returned r) :
    (∀ j, s.did t = some j → r = j) ∧
    (s.did t = none → r = -1 ∨ s.noblk t = true ∧ r = (s.alts t).length ∨
      ∃ j a, r = (j : Nat) ∧ s.entry (t, j) = some a ∧ a.err = true) := by
  have hinv : s.Inv ∧ s.Full ∧ ∀ w, s.Right w := by
    refine hs.invariant (fun s => s.Inv ∧ s.Full ∧ ∀ w, s.Right w) ?_ ?_
    · intro s h
      exact ⟨Inv.init h, Full.init h, Right.init h⟩
    · intro s x s' h hstep
      obtain ⟨hs, hf, hright⟩ := h
      exact ⟨hstep.1.inv hs, hstep.1.full hs hf, hstep.1.right hs hf hstep.2 hright⟩
  obtain ⟨-, -, hright⟩ := hinv
  exact ⟨fun j hj => (hright t).did r j hr hj, (hright t).failed r hr⟩

/-! ### One waits, the other sends to it -/

namespace Two

/-- The one that waits receives, and maybe sends on the same channel after that in its array. -/
def waiter (dup : Bool) : List (Alt Unit Nat) :=
  if dup then [⟨some (), some 0, .CHANRCV, false⟩, ⟨some (), some 7, .CHANSND, false⟩]
  else [⟨some (), some 0, .CHANRCV, false⟩]

def sender : List (Alt Unit Nat) := runop .CHANSND (some ()) (some 5)

def s₀ : Chans Bool Unit Nat :=
  ⟨fun _ => ⟨0, 0, 0, 0, [], fun _ => 0⟩, fun _ => .idle, fun _ => [], fun _ => false, fun _ => .nil, false, fun _ => 0,
    fun _ => none, fun _ => [], fun _ => []⟩

def s₁ (dup : Bool) : Chans Bool Unit Nat := (s₀.begin false (waiter dup) false).await false (waiter dup)

def s₂ (dup : Bool) : Chans Bool Unit Nat :=
  ((((((s₁ dup).begin true sender false).store (false, 0) (some 5)).carry (true, 0) .CHANSND () 5).carry (false, 0)
    .CHANRCV () 5).setTag false (.chan ())).goto true (.meeting false 0)

def s₃ (dup : Bool) : Chans Bool Unit Nat := ((s₂ dup).goto true (.returned 0)).goto false (.woken .nil)

def s₄ (dup : Bool) : Chans Bool Unit Nat := (s₃ dup).resume false .nil

theorem start : Init s₀ := ⟨fun _ => rfl, fun _ => ⟨rfl, rfl, rfl, rfl⟩, rfl, fun _ => rfl, fun _ => rfl, fun _ => rfl⟩

theorem step₁ (dup : Bool) : Step 0 s₀ (.alt false (waiter dup) false none) (s₁ dup) := by
  refine .alt (.inl rfl) ?_ (.await ?_ rfl)
  · cases dup <;> simp [waiter]
  · cases dup <;> decide

theorem step₂ (dup : Bool) : Step 0 (s₁ dup) (.alt true sender false (some (false, 0))) (s₂ dup) := by
  have hfree : (s₁ dup).Free true := by
    left
    cases dup <;> rfl
  have hmeet : Alts 0 ((s₁ dup).begin true sender false) true sender (some (false, 0)) (s₂ dup) := by
    cases dup
    · exact @Alts.meet _ _ _ _ _ 0 _ true sender 0 ⟨some (), some 5, .CHANSND, false⟩ ⟨some (), some 0, .CHANRCV, false⟩
        () (false, 0) _ rfl rfl (by decide) rfl rfl rfl
    · exact @Alts.meet _ _ _ _ _ 0 _ true sender 0 ⟨some (), some 5, .CHANSND, false⟩ ⟨some (), some 0, .CHANRCV, false⟩
        () (false, 0) _ rfl rfl (by decide) rfl rfl rfl
  exact .alt hfree (by simp [sender, runop]) hmeet

theorem step₃ (dup : Bool) : Step 0 (s₂ dup) (.rendezvous true false) (s₃ dup) := by
  refine @Step.meeting _ _ _ _ _ 0 (s₂ dup) true false 0 rfl ?_
  cases dup <;> rfl

theorem step₄ (dup : Bool) : Step 0 (s₃ dup) (.resume false) (s₄ dup) := .resume rfl

theorem reachable (dup : Bool) : Trans.Reachable Init (Step 0) (s₄ dup) :=
  .next (.next (.next (.next (.start start) (step₁ dup)) (step₂ dup)) (step₃ dup)) (step₄ dup)

theorem careful : Trans.Reachable Init (CarefulStep 0) (s₄ false) := by
  refine .next (.next (.next (.next (.start start) ⟨step₁ false, trivial⟩) ⟨step₂ false, ?_⟩) ⟨step₃ false, trivial⟩)
    ⟨step₄ false, trivial⟩
  intro c k _ hk
  cases k with
  | zero => exact Nat.le_refl 0
  | succ k => cases hk

end Two

theorem alt_right_two : (Two.s₄ false).pc false = .returned 0 ∧ ∀ j, (Two.s₄ false).did false = some j → (0 : Int) = j :=
  ⟨rfl, (alt_right 0 (Two.s₄ false) Two.careful false 0 rfl).1⟩

/-- With the same channel twice the other entry is returned: the value 5 has come in, and `alt` says that 7 is sent. -/
theorem alt_wrong :
    ¬ (∀ s : Chans Bool Unit Nat, Trans.Reachable Init (Step 0) s → ∀ t r, s.pc t = .returned r →
        ∀ j, s.did t = some j → r = j) ∧
    (Two.s₄ true).pc false = .returned 1 ∧ (Two.s₄ true).did false = some 0 := by
  refine ⟨?_, rfl, rfl⟩
  intro h
  have heq := h (Two.s₄ true) (Two.reachable true) false 1 rfl 0 rfl
  cases heq

end Chans

end Plan9.Libthread
