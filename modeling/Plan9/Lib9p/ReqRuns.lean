/-
The requests over whole runs.

No reference count goes wrong: what a request counts is the pool, its own `respond` and
the `Tflush`es that wait for it. A `Tflush` for its own tag is put on its own list and
is never replied to; there is no other way to leave one behind.
-/
import Mathlib.Data.Nat.Count
import Plan9.Lib9p.ReqFacts

namespace Plan9.Lib9p

open Function

theorem count_update (old : Nat → Option Nat) {f : Nat} (r : Nat) (x : Option Nat) : ∀ {n : Nat}, f < n →
    Nat.count (fun g => update old f x g = some r) n + (if old f = some r then 1 else 0) =
      Nat.count (fun g => old g = some r) n + (if x = some r then 1 else 0)
  | n + 1, hf => by
    rw [Nat.count_succ, Nat.count_succ]
    by_cases hfn : f = n
    · subst hfn
      have hbelow : Nat.count (fun g => update old f x g = some r) f = Nat.count (fun g => old g = some r) f := by
        rw [Nat.count_eq_card_filter_range, Nat.count_eq_card_filter_range]
        congr 1
        refine Finset.filter_congr ?_
        intro g hg
        rw [update_of_ne (Nat.ne_of_lt (Finset.mem_range.1 hg))]
      rw [hbelow, update_self]
      omega
    · have ih := count_update old r x (show f < n by omega)
      rw [update_of_ne (Ne.symm hfn)]
      omega

namespace Pc

/-- `respond` has not let go of it. -/
def own : Pc → Bool
  | .unread | .done => false
  | _ => true

end Pc

namespace Srv

variable {s s' : Srv} {r f o : Nat} {p : Pc}

/-- The `Tflush`es that have the request as their old one. -/
def waiters (s : Srv) (r : Nat) : Nat := Nat.count (fun f => (s.req f).oldreq = some r) s.n

structure Counted (s : Srv) : Prop where
  ref : ∀ r, s.ref r = (if (s.pc r).live = true then 1 else 0) + (if (s.pc r).own = true then 1 else 0) + s.waiters r
  bad : s.bad = false

theorem Counted.init (h : s.Init) : s.Counted := by
  refine ⟨?_, h.bad⟩
  intro r
  unfold waiters
  rw [h.ref, h.pc, h.n, Nat.count_zero]
  rfl

theorem Counted.congr (hc : s.Counted) (href : s'.ref = s.ref) (hbad : s'.bad = s.bad) (hn : s'.n = s.n)
    (hold : ∀ w, (s'.req w).oldreq = (s.req w).oldreq)
    (hpc : ∀ w, (s'.pc w).live = (s.pc w).live ∧ (s'.pc w).own = (s.pc w).own) : s'.Counted := by
  refine ⟨?_, hbad.trans hc.bad⟩
  intro r
  unfold waiters
  simp only [href, hn, hold, (hpc r).1, (hpc r).2]
  exact hc.ref r

theorem Counted.goto (hc : s.Counted) (hlive : p.live = (s.pc r).live) (hown : p.own = (s.pc r).own) : (s.goto r p).Counted :=
  hc.congr rfl rfl rfl (fun _ => rfl) fun w => ⟨same_update Pc.live hlive w, same_update Pc.own hown w⟩

theorem waiters_update (s' : Srv) {x : Option Nat} (hr : r < s.n) (hn : s'.n = s.n)
    (hold : (fun g => (s'.req g).oldreq) = update (fun g => (s.req g).oldreq) r x) (w : Nat) :
    s'.waiters w + (if (s.req r).oldreq = some w then 1 else 0) = s.waiters w + if x = some w then 1 else 0 := by
  have hw : s'.waiters w = Nat.count (fun g => update (fun g => (s.req g).oldreq) r x g = some w) s.n := by
    unfold waiters
    congr 1
    funext g
    rw [← hold]
  rw [hw]
  exact count_update _ w x hr

theorem Counted.getreq (hc : s.Counted) (h : s.Inv) {tag : Nat} {oldtag : Option Nat}
    (hfree : ∀ r < s.n, (s.req r).tag = tag → r ∈ s.out) : (s.getreq tag oldtag).Counted := by
  have hpool := h.pool_free hfree
  have hsame : ∀ w, (s.getreq tag oldtag).waiters w = s.waiters w := by
    intro w
    unfold waiters
    change Nat.count _ (s.n + 1) = _
    rw [Nat.count_succ, if_neg, Nat.add_zero, Nat.count_eq_card_filter_range, Nat.count_eq_card_filter_range]
    · congr 1
      refine Finset.filter_congr ?_
      intro g hg
      change (update s.req s.n _ g).oldreq = _ ↔ _
      rw [update_of_ne (Nat.ne_of_lt (Finset.mem_range.1 hg))]
    · change (update s.req s.n _ s.n).oldreq ≠ _
      rw [update_self]
      nofun
  refine ⟨?_, ?_⟩
  · intro w
    rw [hsame]
    change update s.ref s.n 2 w = (if (update s.pc s.n .read w).live = true then 1 else 0) +
      (if (update s.pc s.n .read w).own = true then 1 else 0) + s.waiters w
    by_cases hw : w = s.n
    · subst hw
      have hzero : s.waiters s.n = 0 := by
        unfold waiters
        rw [Nat.count_eq_card_filter_range, Finset.card_eq_zero, Finset.filter_eq_empty_iff]
        intro g hg hold
        have := (h.old g s.n hold).1
        have := Finset.mem_range.1 hg
        omega
      rw [update_self, update_self, hzero]
      rfl
    · rw [update_of_ne hw, update_of_ne hw]
      exact hc.ref w
  · change (s.bad || (s.pool tag).isSome) = false
    rw [hpool, hc.bad]
    rfl

theorem oldreq_update (s : Srv) (r : Nat) (x : Option Nat) :
    (fun g => (update s.req r { s.req r with oldreq := x } g).oldreq) = update (fun g => (s.req g).oldreq) r x := by
  funext g
  by_cases hg : g = r
  · rw [hg, update_self, update_self]
  · rw [update_of_ne hg, update_of_ne hg]

theorem Counted.sflush (hc : s.Counted) (hr : r < s.n) (hnone : (s.req r).oldreq = none) (t : Nat) : (s.sflush r t).Counted := by
  have hcount : (s.sflush r t).n = s.n → (s.sflush r t).req = update s.req r { s.req r with oldreq := s.pool t } →
      ∀ w, (s.sflush r t).waiters w = s.waiters w + if s.pool t = some w then 1 else 0 := by
    intro hn hreq w
    have hw := waiters_update (s.sflush r t) (x := s.pool t) hr hn (by rw [hreq]; exact oldreq_update ..) w
    rwa [hnone, if_neg nofun, Nat.add_zero] at hw
  obtain ⟨_, hs⟩ := sflush_eq s r t
  have hcount := hcount (by rw [hs]) (by rw [hs])
  have hpc : (s.sflush r t).pc = s.pc := by
    rw [hs]
  refine ⟨?_, by rw [hs]; exact hc.bad⟩
  intro w
  rw [hcount, hpc, ← Nat.add_assoc, ← hc.ref w]
  unfold Srv.sflush lookupreq
  cases ho : s.pool t with
  | none => rfl
  | some o =>
    change update s.ref o (s.ref o + 1) w = _
    by_cases hw : w = o
    · rw [hw, update_self, if_pos rfl]
    · rw [update_of_ne hw, if_neg (by simpa using Ne.symm hw), Nat.add_zero]

theorem closereq_ref (href : s.ref r ≠ 0) (hone : s.ref r = 1 → (s.req r).oldreq = none ∧ (s.req r).flush = []) :
    s.closereq r = { s with ref := update s.ref r (s.ref r - 1) } := by
  unfold closereq
  rw [if_neg]
  rintro (h | ⟨h, hor⟩)
  · exact href h
  obtain ⟨h1, h2⟩ := hone h
  rcases hor with hor | hor
  · exact hor h1
  · exact hor h2

theorem Counted.complete (hc : s.Counted) (h : s.Inv) (hpc : s.pc r = .responding) : (s.complete r).Counted := by
  have hsame : ∀ {p : Pc}, p.live = true → p.own = true → ∀ w,
      (update s.pc r p w).live = (s.pc w).live ∧ (update s.pc r p w).own = (s.pc w).own := by
    intro p hlive hown w
    exact ⟨same_update Pc.live (by rw [hlive, hpc]; rfl) w, same_update Pc.own (by rw [hown, hpc]; rfl) w⟩
  have hgo : ∀ {p : Pc}, p.live = true → p.own = true → (s.goto r p).Counted :=
    fun hlive hown => hc.congr rfl rfl rfl (fun _ => rfl) (hsame hlive hown)
  unfold Srv.complete
  cases ht : (s.req r).oldtag with
  | none => exact hgo rfl rfl
  | some t =>
    cases ho : (s.req r).oldreq with
    | none =>
      rw [rflush_none ho]
      exact hgo rfl rfl
    | some o =>
      obtain ⟨_, hr⟩ := h.old_lt ho
      cases hresp : (s.req o).responded with
      | false =>
        rw [rflush_park ho hresp]
        refine hc.congr rfl rfl rfl ?_ (hsame (p := .parked) rfl rfl)
        exact same_of_update Req.oldreq rfl rfl
      | true =>
        have hpos : 0 < s.waiters o := by
          unfold waiters
          rw [Nat.count_eq_card_filter_range, Finset.card_pos]
          exact ⟨r, Finset.mem_filter.2 ⟨Finset.mem_range.2 hr, ho⟩⟩
        have href := hc.ref o
        have hclose := closereq_ref (s := s) (r := o) (by omega) (by
          intro hone
          have hown : (s.pc o).own = false := by
            cases hown : (s.pc o).own with
            | false => rfl
            | true =>
              rw [hown, if_pos rfl] at href
              omega
          have hdone : s.pc o = .done := by
            have hunread := h.not_unread (show o < s.n by omega)
            cases hp : s.pc o <;> rw [hp] at hown hunread <;> first | rfl | (cases hown; done) | exact absurd rfl hunread
          exact ⟨h.old_none (by rw [hdone]; rfl), h.done o hdone⟩)
        rw [rflush_done ho hresp, hclose]
        obtain ⟨s', hs'⟩ : ∃ s' : Srv, s' =
          (({ s with ref := update s.ref o (s.ref o - 1) } : Srv).setReq r { s.req r with oldreq := none }).goto r .completed :=
          ⟨_, rfl⟩
        have hcounted : s'.Counted := by
          refine ⟨?_, by rw [hs']; exact hc.bad⟩
          intro w
          have hcount := waiters_update s' (x := none) hr (by rw [hs']; rfl)
            (by rw [hs']; exact oldreq_update s r none) w
          rw [ho, if_neg (show (none : Option Nat) ≠ some w by nofun), Nat.add_zero] at hcount
          have hw := hc.ref w
          rw [← hcount] at hw
          have hrefw : s'.ref w = update s.ref o (s.ref o - 1) w := by
            rw [hs']
            rfl
          have hpcw : s'.pc w = update s.pc r .completed w := by
            rw [hs']
            rfl
          rw [hrefw, hpcw, (hsame rfl rfl w).1, (hsame rfl rfl w).2]
          by_cases hwo : w = o
          · subst hwo
            rw [if_pos (show some w = some w from rfl)] at hw
            rw [update_self]
            omega
          · rw [if_neg (show some o ≠ some w by simpa using Ne.symm hwo)] at hw
            rw [update_of_ne hwo]
            exact hw
        rw [hs'] at hcounted
        exact hcounted

theorem Counted.closed (hc : s.Counted) (hn : s'.n = s.n) (href : s'.ref = update s.ref r (s.ref r - 1))
    (hbad : s'.bad = s.bad) (hold : ∀ w, (s'.req w).oldreq = (s.req w).oldreq) (hpc : s'.pc = update s.pc r p)
    (hgone : p.live = false ∧ (s.pc r).live = true ∧ p.own = (s.pc r).own ∨
      p.live = (s.pc r).live ∧ p.own = false ∧ (s.pc r).own = true) : s'.Counted := by
  refine ⟨?_, hbad.trans hc.bad⟩
  intro w
  have hw := hc.ref w
  unfold waiters at hw ⊢
  simp only [hn, hold]
  rw [href, hpc]
  by_cases hwr : w = r
  · subst hwr
    rw [update_self, update_self]
    rcases hgone with ⟨hl, hl', ho⟩ | ⟨hl, ho, ho'⟩
    · rw [hl'] at hw
      rw [hl, ho]
      simp only [if_true, Bool.false_eq_true, if_false] at hw ⊢
      omega
    rw [ho'] at hw
    rw [hl, ho]
    simp only [if_true, Bool.false_eq_true, if_false] at hw ⊢
    omega
  · rw [update_of_ne hwr, update_of_ne hwr]
    exact hw

theorem Counted.remove (hc : s.Counted) (h : s.Inv) (hpc : s.pc r = .completed) : (s.remove r).Counted := by
  have hpool : s.pool (s.req r).tag = some r := (h.pool _ r).2 ⟨by rw [hpc]; rfl, rfl⟩
  have href := hc.ref r
  rw [hpc] at href
  change s.ref r = 1 + 1 + s.waiters r at href
  have hclose := closereq_ref (s := { s with pool := update s.pool (s.req r).tag none, wlock := some r }) (r := r)
    (show s.ref r ≠ 0 by omega) (fun (_ : s.ref r = 1) => by omega)
  unfold Srv.remove
  rw [hpool]
  dsimp only
  rw [hclose]
  exact hc.closed (p := .writing) rfl rfl rfl (fun _ => rfl) rfl (.inl ⟨rfl, by rw [hpc]; rfl, by rw [hpc]; rfl⟩)

theorem Counted.finish (hc : s.Counted) (h : s.Inv) {i : Nat} (hpc : s.pc r = .flushing i) : (s.finish r).Counted := by
  have href := hc.ref r
  rw [hpc] at href
  change s.ref r = 0 + 1 + s.waiters r at href
  have hclose := closereq_ref (s := s.setReq r { s.req r with flush := [] }) (r := r) (show s.ref r ≠ 0 by omega) (by
    intro _
    change (update s.req r _ r).oldreq = none ∧ (update s.req r _ r).flush = []
    rw [update_self]
    exact ⟨h.old_none (by rw [hpc]; rfl), rfl⟩)
  unfold Srv.finish
  rw [hclose]
  refine hc.closed (p := .done) rfl rfl rfl ?_ rfl (.inr ⟨by rw [hpc]; rfl, rfl, by rw [hpc]; rfl⟩)
  exact same_of_update Req.oldreq rfl rfl

theorem Counted.dispatch (hc : s.Counted) (h : s.Inv) (hpc : s.pc r = .read) : (s.dispatch r).Counted := by
  have hgo : ∀ {s₁ : Srv}, s₁.Counted → s₁.pc = s.pc → ({ s₁ with loop := none }.goto r .given : Srv).Counted := by
    intro s₁ hc1 hpc1
    refine hc1.congr rfl rfl rfl (fun _ => rfl) fun w => ⟨same_update Pc.live ?_ w, same_update Pc.own ?_ w⟩ <;> rw [hpc1, hpc] <;> rfl
  unfold Srv.dispatch
  cases ht : (s.req r).oldtag with
  | none => exact hgo hc rfl
  | some t =>
    have hpcs : (s.sflush r t).pc = s.pc := by
      obtain ⟨_, hs⟩ := sflush_eq s r t
      rw [hs]
    exact hgo (hc.sflush (h.lt (by rw [hpc]; nofun)) (h.old_none (by rw [hpc]; rfl)) t) hpcs

theorem Counted.mark (hc : s.Counted) (hpc : s.pc r = .written) : (s.mark r).Counted := by
  have hpc' : ∀ w, (update s.pc r (.flushing 0) w).live = (s.pc w).live ∧
      (update s.pc r (.flushing 0) w).own = (s.pc w).own :=
    fun w => ⟨same_update Pc.live (by rw [hpc]; rfl) w, same_update Pc.own (by rw [hpc]; rfl) w⟩
  refine hc.congr rfl rfl rfl ?_ hpc'
  exact same_of_update Req.oldreq rfl rfl

theorem Counted.write (hc : s.Counted) (hpc : s.pc r = .writing) : (s.write r).Counted := by
  have hpc' : ∀ w, (update s.pc r .written w).live = (s.pc w).live ∧
      (update s.pc r .written w).own = (s.pc w).own :=
    fun w => ⟨same_update Pc.live (by rw [hpc]; rfl) w, same_update Pc.own (by rw [hpc]; rfl) w⟩
  exact hc.congr rfl rfl rfl (fun _ => rfl) hpc'

theorem Counted.next (hc : s.Counted) (h : s.Inv) {i : Nat} (hpc : s.pc r = .flushing i) (hf : (s.req r).flush[i]? = some f) :
    ((s.goto r (.calling i)).goto f .responding).Counted := by
  have hcur : (s.pc r).cursor = i := by
    rw [hpc]
    rfl
  have hmem : f ∈ (s.req r).flush.drop (s.pc r).cursor := by
    obtain ⟨hi, hfi⟩ := List.getElem?_eq_some_iff.1 hf
    rw [hcur, List.drop_eq_getElem_cons hi, hfi]
    exact List.mem_cons_self ..
  have hpf := ((h.queued r f).1 hmem).1
  have hrf : f ≠ r := by
    rintro rfl
    rw [hpc] at hpf
    cases hpf
  have hpf' : (s.goto r (.calling i)).pc f = .parked := by
    change update s.pc r _ f = _
    rw [update_of_ne hrf, hpf]
  refine Counted.goto ?_ (by rw [hpf']; rfl) (by rw [hpf']; rfl)
  exact hc.goto (by rw [hpc]; rfl) (by rw [hpc]; rfl)

/-! ## Every step -/

/-- A `Tflush` is not for its own tag. -/
def Fits : SrvAct → Prop
  | .getreq tag oldtag => oldtag ≠ some tag
  | _ => True

/-- No `Tflush` that has been read is for its own tag. -/
def Others (s : Srv) : Prop := ∀ r < s.n, (s.req r).oldtag ≠ some (s.req r).tag

structure Kept (s : Srv) : Prop where
  inv : s.Inv
  counted : s.Counted
  others : s.Others

theorem Others.congr (ho : s.Others) (hn : s'.n = s.n)
    (htag : ∀ w, (s'.req w).tag = (s.req w).tag ∧ (s'.req w).oldtag = (s.req w).oldtag) : s'.Others := by
  intro w hw
  rw [(htag w).1, (htag w).2]
  exact ho w (hn ▸ hw)

theorem tags_update {req : Nat → Req} {q : Req} (ht : q.tag = (req r).tag) (hot : q.oldtag = (req r).oldtag) (w : Nat) :
    (update req r q w).tag = (req w).tag ∧ (update req r q w).oldtag = (req w).oldtag :=
  ⟨same_update Req.tag ht w, same_update Req.oldtag hot w⟩

theorem complete_tags (s : Srv) (r : Nat) : (s.complete r).n = s.n ∧
    ∀ w, ((s.complete r).req w).tag = (s.req w).tag ∧ ((s.complete r).req w).oldtag = (s.req w).oldtag := by
  unfold Srv.complete
  cases ht : (s.req r).oldtag with
  | none => exact ⟨rfl, fun _ => ⟨rfl, rfl⟩⟩
  | some t =>
    cases ho : (s.req r).oldreq with
    | none =>
      rw [rflush_none ho]
      exact ⟨rfl, fun _ => ⟨rfl, rfl⟩⟩
    | some o =>
      cases hresp : (s.req o).responded with
      | false =>
        rw [rflush_park ho hresp]
        exact ⟨rfl, tags_update rfl rfl⟩
      | true =>
        rw [rflush_done ho hresp]
        obtain ⟨hn, hreq, -⟩ := closereq_same s o
        exact ⟨hn, hreq ▸ tags_update rfl rfl⟩

theorem Kept.step {a : SrvAct} (hk : s.Kept) (hstep : Step s a s') (hfits : Fits a) : s'.Kept := by
  obtain ⟨h, hc, ho⟩ := hk
  cases hstep with
  | @getreq tag oldtag hloop hfree =>
    refine ⟨h.getreq hloop hfree, hc.getreq h hfree, ?_⟩
    intro w hw
    change (update s.req s.n _ w).oldtag ≠ some (update s.req s.n _ w).tag
    by_cases hwn : w = s.n
    · rw [hwn, update_self]
      exact hfits
    · rw [update_of_ne hwn]
      change w < s.n + 1 at hw
      exact ho w (by omega)
  | @dispatch r hloop =>
    have hpc := (h.loop r).1 hloop
    refine ⟨h.dispatch hpc (ho r (h.lt (by rw [hpc]; nofun))), hc.dispatch h hpc, ?_⟩
    unfold Srv.dispatch
    cases ht : (s.req r).oldtag with
    | none => exact ho
    | some t =>
      obtain ⟨_, hs⟩ := sflush_eq s r t
      dsimp only
      rw [hs]
      exact ho.congr rfl (tags_update rfl rfl)
  | respond hpc => exact ⟨h.respond hpc, hc.goto (by rw [hpc]; rfl) (by rw [hpc]; rfl), ho⟩
  | @complete r hpc =>
    obtain ⟨hn, htag⟩ := complete_tags s r
    exact ⟨h.complete hpc, hc.complete h hpc, ho.congr hn htag⟩
  | @remove r hpc hlock =>
    refine ⟨h.remove hpc hlock, hc.remove h hpc, ?_⟩
    unfold Srv.remove
    cases hpool : s.pool (s.req r).tag with
    | none => exact ho
    | some o =>
      obtain ⟨hn, hreq, -⟩ := closereq_same { s with pool := update s.pool (s.req r).tag none, wlock := some r } o
      refine ho.congr hn ?_
      intro w
      change ((closereq _ o).req w).tag = _ ∧ ((closereq _ o).req w).oldtag = _
      rw [hreq]
      exact ⟨rfl, rfl⟩
  | write hpc => exact ⟨h.write hpc, hc.write hpc, ho⟩
  | mark hpc => exact ⟨h.mark hpc, hc.mark hpc, ho.congr rfl (tags_update rfl rfl)⟩
  | next hpc hf => exact ⟨h.next hpc hf, hc.next h hpc hf, ho⟩
  | back hpc _ _ => exact ⟨h.back hpc, hc.goto (by rw [hpc]; rfl) (by rw [hpc]; rfl), ho⟩
  | @finish r i hpc hi =>
    obtain ⟨hn, hreq, -⟩ := closereq_same (s.setReq r { s.req r with flush := [] }) r
    refine ⟨h.finish hpc hi, hc.finish h hpc, ho.congr hn ?_⟩
    intro w
    change ((closereq _ r).req w).tag = _ ∧ ((closereq _ r).req w).oldtag = _
    rw [hreq]
    exact tags_update (q := { s.req r with flush := [] }) rfl rfl w

/-! ## What the flush protocol promises -/

/-- `srv` has to dispatch it, or a call of `respond` for it is under way. -/
def Pc.busy : Pc → Bool
  | .unread | .given | .parked | .done => false
  | _ => true

/-- It is no message and no call of a handler. -/
def SrvAct.within : SrvAct → Bool
  | .dispatch _ | .go _ => true
  | _ => false

structure Flushes (s : Srv) : Prop where
  /-- A request is replied to once at most. -/
  once : s.out.Nodup
  /-- The reply to a `Tflush` comes after the reply to every request with its old tag that was read before it. -/
  order : ∀ o f l₁ l₂, o < f → (s.req f).oldtag = some (s.req o).tag → s.out = l₁ ++ f :: l₂ → o ∈ l₁
  /-- When `respond` has returned for every other request, and has been called and has returned for every `Tflush`, each
  `Tflush` has been replied to. -/
  answered : (∀ r < s.n, (s.req r).oldtag = none → s.pc r = .done) →
    (∀ f < s.n, (s.req f).oldtag ≠ none → s.pc f = .parked ∨ s.pc f = .done) → ∀ f < s.n, f ∈ s.out
  /-- As long as a call is under way, one can go on. -/
  goes : ∀ r, (Pc.busy (s.pc r)) = true → ∃ a s', SrvAct.within a = true ∧ Step s a s'
  bad : s.bad = false

theorem Inv.waits_for (h : s.Inv) (hf : s.pc f = .parked) : ∃ o < f, s.pc o ≠ .done := by
  cases ho : (s.req f).oldreq with
  | none => exact absurd ho (h.parked f hf)
  | some o =>
    refine ⟨o, (h.old f o ho).1, ?_⟩
    intro hdone
    have hmem := (h.queued o f).2 ⟨hf, ho⟩
    rw [h.done o hdone, List.drop_nil] at hmem
    cases hmem

theorem Inv.none_parked (h : s.Inv) (hother : ∀ r < s.n, (s.req r).oldtag = none → s.pc r = .done)
    (hflush : ∀ f < s.n, (s.req f).oldtag ≠ none → s.pc f = .parked ∨ s.pc f = .done) (f : Nat) : s.pc f ≠ .parked := by
  induction f using Nat.strong_induction_on with
  | _ f ih =>
    intro hf
    have hlt : f < s.n := h.lt (by rw [hf]; nofun)
    obtain ⟨o, ho, hdone⟩ := h.waits_for hf
    cases hold : (s.req o).oldtag with
    | none => exact hdone (hother o (by omega) hold)
    | some t =>
      rcases hflush o (by omega) (by rw [hold]; nofun) with hp | hp
      · exact ih o ho hp
      · exact hdone hp

theorem Inv.goes (h : s.Inv) : ∀ (k r : Nat), s.n - r ≤ k → Pc.busy (s.pc r) = true →
    ∃ a s', SrvAct.within a = true ∧ Step s a s' := by
  intro k
  induction k with
  | zero =>
    intro r hk hbusy
    have hu : s.pc r = .unread := (h.unread r).2 (by omega)
    rw [hu] at hbusy
    cases hbusy
  | succ k ih =>
    intro r hk hbusy
    have hgo : ∀ {w : Nat} {s' : Srv}, Step s (.go w) s' →
        ∃ a s', SrvAct.within a = true ∧ Step s a s' :=
      fun hstep => ⟨_, _, rfl, hstep⟩
    cases hpc : s.pc r with
    | read => exact ⟨_, _, rfl, .dispatch ((h.loop r).2 hpc)⟩
    | responding => exact hgo (.complete hpc)
    | completed =>
      cases hlock : s.wlock with
      | none => exact hgo (.remove hpc hlock)
      | some w => exact hgo (.write ((h.wlock w).1 hlock))
    | writing => exact hgo (.write hpc)
    | written => exact hgo (.mark hpc)
    | flushing i =>
      cases hf : (s.req r).flush[i]? with
      | none => exact hgo (.finish hpc (List.getElem?_eq_none_iff.1 hf))
      | some f => exact hgo (.next hpc hf)
    | calling i =>
      -- The call goes on, or one for a later request does.
      obtain ⟨f, hf, _, hcalled⟩ := h.calling r i hpc
      by_cases hback : s.pc f = .parked ∨ s.pc f = .done
      · exact hgo (.back hpc hf hback)
      refine ih f (by omega) ?_
      rw [not_or] at hback
      cases hp : s.pc f <;> rw [hp] at hcalled hback <;>
        first | rfl | (cases hcalled; done) | exact absurd rfl hback.1 | exact absurd rfl hback.2
    | unread => rw [hpc] at hbusy; cases hbusy
    | given => rw [hpc] at hbusy; cases hbusy
    | parked => rw [hpc] at hbusy; cases hbusy
    | done => rw [hpc] at hbusy; cases hbusy

theorem Kept.flushes (hk : s.Kept) : s.Flushes := by
  obtain ⟨h, hc, -⟩ := hk
  refine ⟨h.once, h.order, ?_, fun r hbusy => h.goes (s.n - r) r le_rfl hbusy, hc.bad⟩
  intro hother hflush f hf
  have hdone : s.pc f = .done := by
    cases ht : (s.req f).oldtag with
    | none => exact hother f hf ht
    | some t =>
      rcases hflush f hf (by rw [ht]; nofun) with hp | hp
      · exact absurd hp (h.none_parked hother hflush f)
      · exact hp
  rw [h.out, hdone]
  rfl

/-- A step that reads no `Tflush` for its own tag. -/
def FitStep (s : Srv) (a : SrvAct) (s' : Srv) : Prop := Step s a s' ∧ Fits a

/-- **The flush protocol is kept** in every run in which no `Tflush` is for its own tag. -/
theorem flush_protocol (s : Srv) (hs : Trans.Reachable Init FitStep s) : s.Flushes := by
  have hkept : s.Kept := by
    refine hs.invariant Kept ?_ ?_
    · intro s h
      refine ⟨.init h, .init h, ?_⟩
      intro r hr
      rw [h.n] at hr
      omega
    · intro s a s' hk hstep
      exact hk.step hstep.1 hstep.2
  exact hkept.flushes

/-! ### A request, and a `Tflush` for it; a `Tflush` for itself -/

def start : Srv := ⟨0, fun _ => ⟨0, none, none, false, []⟩, fun _ => 0, fun _ => .unread, fun _ => none, none, none, [], false⟩

theorem start_init : start.Init :=
  ⟨rfl, fun _ => rfl, fun _ => ⟨rfl, rfl, rfl⟩, fun _ => rfl, fun _ => rfl, rfl, rfl, rfl, rfl⟩

/-- The first request is given to its handler, and the `Tflush` for it is parked. -/
def waiting : Srv :=
  ((((start.getreq 7 none).dispatch 0).getreq 8 (some 7)).dispatch 1 |>.goto 1 .responding).complete 1

theorem flush_protocol_waiting : waiting.Flushes ∧ waiting.pc 1 = .parked := by
  refine ⟨flush_protocol waiting ?_, rfl⟩
  have hfree : ∀ r < ((start.getreq 7 none).dispatch 0).n, (((start.getreq 7 none).dispatch 0).req r).tag = 8 →
      r ∈ ((start.getreq 7 none).dispatch 0).out := by
    intro r hr ht
    obtain rfl : r = 0 := by
      change r < 1 at hr
      omega
    cases ht
  have hfirst : FitStep start (.getreq 7 none) (start.getreq 7 none) :=
    ⟨.getreq rfl fun r hr => absurd hr (Nat.not_lt_zero r), nofun⟩
  have hread : Trans.Reachable Init FitStep ((start.getreq 7 none).dispatch 0) :=
    .next (.next (.start start_init) hfirst) ⟨.dispatch rfl, trivial⟩
  have hown : some 7 ≠ some 8 := by decide
  exact .next (.next (.next (.next hread ⟨.getreq rfl hfree, hown⟩) ⟨.dispatch rfl, trivial⟩) ⟨.respond rfl, trivial⟩)
    ⟨.complete rfl, trivial⟩

def selfish : Srv := (((start.getreq 7 (some 7)).dispatch 0).goto 0 .responding).complete 0

/-- `respond` has returned, and nothing else is to come. -/
theorem flush_unanswered :
    ¬ (∀ s, Trans.Reachable Init Step s → s.Flushes) ∧ selfish.pc 0 = .parked ∧ selfish.out = [] := by
  refine ⟨?_, rfl, rfl⟩
  intro h
  have hreach : Trans.Reachable Init Step selfish :=
    .next (.next (.next (.next (.start start_init) (.getreq rfl fun r hr => absurd hr (Nat.not_lt_zero r))) (.dispatch rfl))
      (.respond rfl)) (.complete rfl)
  have hone : ∀ r < selfish.n, r = 0 := by
    intro r hr
    change r < 1 at hr
    omega
  have hmem := (h selfish hreach).answered (fun r hr ht => by rw [hone r hr] at ht; cases ht)
    (fun f hf _ => .inl (by rw [hone f hf]; rfl)) 0 Nat.one_pos
  cases hmem

end Srv

end Plan9.Lib9p
