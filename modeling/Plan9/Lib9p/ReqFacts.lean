/-
What is kept of the requests, the reference counts apart.

A request is in the pool until it takes `wlock`. A `Tflush` waits for an older request
only, as long as none is for its own tag; while its `respond` has not gone past
`rflush`, it has the request it waits for, and when it is parked it is on the list of
that request, behind where the loop over the list is.
-/
import Mathlib.Data.List.Nodup
import Plan9.Lib.Update
import Plan9.Lib9p.Req

namespace Plan9.Lib9p

open Function Option List

namespace Pc

/-- In the pool. -/
def live : Pc → Bool
  | .read | .given | .responding | .parked | .completed => true
  | _ => false

/-- It has been replied to. -/
def sent : Pc → Bool
  | .written | .flushing _ | .calling _ | .done => true
  | _ => false

def responded : Pc → Bool
  | .flushing _ | .calling _ | .done => true
  | _ => false

/-- Dispatched, and not past `rflush`. -/
def waits : Pc → Bool
  | .given | .responding | .parked => true
  | _ => false

def past : Pc → Bool
  | .completed | .writing | .written | .flushing _ | .calling _ | .done => true
  | _ => false

/-- `respond` has been called. -/
def called : Pc → Bool
  | .unread | .read | .given => false
  | _ => true

/-- How many of the list the loop has called `respond` for. -/
def cursor : Pc → Nat
  | .flushing i => i
  | .calling i => i + 1
  | _ => 0

end Pc

namespace Srv

/-- Who waits for whom. -/
structure Queues (s : Srv) : Prop where
  old : ∀ f o, (s.req f).oldreq = some o → o < f ∧ (s.req f).oldtag = some (s.req o).tag ∧ (s.pc f).waits = true
  parked : ∀ f, s.pc f = .parked → (s.req f).oldreq ≠ none
  queued : ∀ o f, f ∈ (s.req o).flush.drop (s.pc o).cursor ↔ s.pc f = .parked ∧ (s.req f).oldreq = some o
  nodup : ∀ o, ((s.req o).flush.drop (s.pc o).cursor).Nodup
  done : ∀ o, s.pc o = .done → (s.req o).flush = []
  calling : ∀ o i, s.pc o = .calling i → ∃ f, (s.req o).flush[i]? = some f ∧ o < f ∧ (s.pc f).called = true

/-- Where each request is, and what is in the pool and has been written. -/
structure Base (s : Srv) : Prop where
  unread : ∀ r, s.pc r = .unread ↔ s.n ≤ r
  loop : ∀ r, s.loop = some r ↔ s.pc r = .read
  last : ∀ r, s.pc r = .read → r + 1 = s.n
  pool : ∀ t r, s.pool t = some r ↔ (s.pc r).live = true ∧ (s.req r).tag = t
  wlock : ∀ r, s.wlock = some r ↔ s.pc r = .writing
  out : ∀ r, r ∈ s.out ↔ (s.pc r).sent = true
  once : s.out.Nodup
  responded : ∀ r, (s.req r).responded = (s.pc r).responded
  waits : ∀ o f, o < f → (s.req f).oldtag = some (s.req o).tag → (s.pc o).live = true →
    ((s.pc f).waits = true → (s.req f).oldreq = some o) ∧ (s.pc f).past = false
  order : ∀ o f l₁ l₂, o < f → (s.req f).oldtag = some (s.req o).tag → s.out = l₁ ++ f :: l₂ → o ∈ l₁

structure Inv (s : Srv) : Prop extends Base s, Queues s

variable {s : Srv} {r f o : Nat}

theorem Inv.init (h : s.Init) : s.Inv := by
  have hpc := h.pc
  have hreq := h.req
  have hflush : ∀ o, (s.req o).flush.drop (s.pc o).cursor = [] := by
    intro o
    rw [(hreq o).2.2, drop_nil]
  have hq : s.Queues := by
    constructor
    · intro f o hf
      rw [(hreq f).1] at hf
      cases hf
    · intro f hf
      rw [hpc f] at hf
      cases hf
    · intro o f
      rw [hflush]
      simp [hpc]
    · intro o
      rw [hflush]
      exact nodup_nil
    · intro o ho
      rw [hpc o] at ho
      cases ho
    · intro o i ho
      rw [hpc o] at ho
      cases ho
  refine ⟨⟨?_, ?_, ?_, ?_, ?_, ?_, ?_, ?_, ?_, ?_⟩, hq⟩
  · intro r
    simp [hpc, h.n]
  · intro r
    simp [hpc, h.loop]
  · intro r hr
    rw [hpc r] at hr
    cases hr
  · intro t r
    simp [hpc, h.pool, Pc.live]
  · intro r
    simp [hpc, h.wlock]
  · intro r
    simp [hpc, h.out, Pc.sent]
  · rw [h.out]
    exact nodup_nil
  · intro r
    rw [(hreq r).2.1, hpc r]
    rfl
  · intro o f _ _ ho
    rw [hpc o] at ho
    cases ho
  · intro o f l₁ l₂ _ _ hl
    rw [h.out] at hl
    simp at hl

/-- A request that is in the pool, or whose reply is to come, has been read. -/
theorem Base.lt (h : s.Base) (hr : s.pc r ≠ .unread) : r < s.n := by
  rw [ne_eq, h.unread] at hr
  exact Nat.lt_of_not_le hr

theorem Base.live_unique (h : s.Base) {r r' : Nat} (hr : (s.pc r).live = true) (hr' : (s.pc r').live = true)
    (htag : (s.req r).tag = (s.req r').tag) : r = r' := by
  have h1 := (h.pool _ r).2 ⟨hr, rfl⟩
  have h2 := (h.pool _ r').2 ⟨hr', htag.symm⟩
  rw [h1] at h2
  exact some.inj h2

theorem Pc.live_not_sent {p : Pc} (h : p.live = true) : p.sent = false := by
  cases p <;> first | rfl | cases h

theorem Base.pool_free (h : s.Base) {tag : Nat} (hfree : ∀ r < s.n, (s.req r).tag = tag → r ∈ s.out) : s.pool tag = none := by
  cases hp : s.pool tag with
  | none => rfl
  | some r =>
    obtain ⟨hlive, htag⟩ := (h.pool tag r).1 hp
    have hlt : r < s.n := h.lt (by intro hu; rw [hu] at hlive; cases hlive)
    have hsent := (h.out r).1 (hfree r hlt htag)
    rw [Pc.live_not_sent hlive] at hsent
    cases hsent

theorem Base.not_unread (h : s.Base) {w : Nat} (hw : w < s.n) : s.pc w ≠ .unread := by
  intro hu
  have := (h.unread w).1 hu
  omega

theorem Base.responded_of (h : s.Base) {p : Pc} (hp : (s.pc r).responded = p.responded) (w : Nat) :
    (s.req w).responded = if w = r then p.responded else (s.req w).responded := by
  split
  · rename_i hw
    rw [hw, h.responded, hp]
  · rfl

theorem Inv.old_lt (h : s.Inv) (hf : (s.req f).oldreq = some o) : o < f ∧ f < s.n := by
  obtain ⟨hlt, -, hwaits⟩ := h.old f o hf
  refine ⟨hlt, h.lt ?_⟩
  intro hu
  rw [hu] at hwaits
  cases hwaits

theorem Inv.getreq (h : s.Inv) {tag : Nat} {oldtag : Option Nat} (hloop : s.loop = none)
    (hfree : ∀ r < s.n, (s.req r).tag = tag → r ∈ s.out) : (s.getreq tag oldtag).Inv := by
  have hpool := h.pool_free hfree
  have hun : s.pc s.n = .unread := (h.unread _).2 le_rfl
  have hpc : ∀ w, w ≠ s.n → (s.getreq tag oldtag).pc w = s.pc w := fun w hw => update_of_ne hw ..
  have hpcn : (s.getreq tag oldtag).pc s.n = .read := update_self ..
  have hreq : ∀ w, w ≠ s.n → (s.getreq tag oldtag).req w = s.req w := fun w hw => update_of_ne hw ..
  have hreqn : (s.getreq tag oldtag).req s.n = ⟨tag, oldtag, none, false, []⟩ := update_self ..
  have hnoread : ∀ w, s.pc w ≠ .read := by
    intro w hw
    have := (h.loop w).2 hw
    rw [hloop] at this
    cases this
  have hq : (s.getreq tag oldtag).Queues := by
    constructor
    · intro f o hf
      by_cases hfn : f = s.n
      · subst hfn
        rw [hreqn] at hf
        cases hf
      rw [hreq f hfn] at hf ⊢
      obtain ⟨hlt, _⟩ := h.old_lt hf
      rw [hreq o (by omega), hpc f hfn]
      exact h.old f o hf
    · intro f hf
      by_cases hfn : f = s.n
      · subst hfn
        rw [hpcn] at hf
        cases hf
      · rw [hpc f hfn] at hf
        rw [hreq f hfn]
        exact h.parked f hf
    · intro o f
      by_cases hon : o = s.n
      · subst hon
        rw [hreqn]
        simp only [drop_nil, not_mem_nil, false_iff, not_and]
        intro hp hold
        by_cases hfn : f = s.n
        · subst hfn
          rw [hreqn] at hold
          cases hold
        · rw [hreq f hfn] at hold
          have := h.old_lt hold
          omega
      rw [hreq o hon, hpc o hon, h.queued]
      by_cases hfn : f = s.n
      · subst hfn
        simp [hun, hpcn]
      · rw [hpc f hfn, hreq f hfn]
    · intro o
      by_cases hon : o = s.n
      · subst hon
        rw [hreqn]
        simp
      · rw [hreq o hon, hpc o hon]
        exact h.nodup o
    · intro o ho
      by_cases hon : o = s.n
      · subst hon
        rw [hreqn]
      · rw [hpc o hon] at ho
        rw [hreq o hon]
        exact h.done o ho
    intro o i ho
    by_cases hon : o = s.n
    · subst hon
      rw [hpcn] at ho
      cases ho
    rw [hpc o hon] at ho
    obtain ⟨f, hf, hof, hcalled⟩ := h.calling o i ho
    have hfn : f ≠ s.n := by
      rintro rfl
      rw [hun] at hcalled
      cases hcalled
    rw [hreq o hon]
    exact ⟨f, hf, hof, by rw [hpc f hfn]; exact hcalled⟩
  refine ⟨⟨?_, ?_, ?_, ?_, ?_, ?_, ?_, ?_, ?_, ?_⟩, hq⟩
  · intro w
    change (s.getreq tag oldtag).pc w = .unread ↔ s.n + 1 ≤ w
    by_cases hw : w = s.n
    · subst hw
      rw [hpcn]
      simp
    · rw [hpc w hw, h.unread]
      omega
  · intro w
    change some s.n = some w ↔ _
    by_cases hw : w = s.n
    · subst hw
      simp [hpcn]
    · rw [hpc w hw]
      simp [hnoread w, Ne.symm hw]
  · intro w hw'
    change w + 1 = s.n + 1
    by_cases hw : w = s.n
    · rw [hw]
    · rw [hpc w hw] at hw'
      exact absurd hw' (hnoread w)
  · intro t w
    change update s.pool tag (some s.n) t = some w ↔ _
    by_cases hw : w = s.n
    · subst hw
      rw [hpcn, hreqn]
      by_cases ht : t = tag
      · subst ht
        simp [Pc.live]
      · rw [update_of_ne ht, h.pool]
        simp [hun, Pc.live, Ne.symm ht]
    rw [hpc w hw, hreq w hw, ← h.pool]
    by_cases ht : t = tag
    · subst ht
      rw [update_self, hpool]
      simp [Ne.symm hw]
    · rw [update_of_ne ht]
  · intro w
    change s.wlock = some w ↔ _
    rw [h.wlock]
    by_cases hw : w = s.n
    · subst hw
      simp [hpcn, hun]
    · rw [hpc w hw]
  · intro w
    change w ∈ s.out ↔ _
    rw [h.out]
    by_cases hw : w = s.n
    · subst hw
      simp [hpcn, hun, Pc.sent]
    · rw [hpc w hw]
  · exact h.once
  · intro w
    by_cases hw : w = s.n
    · subst hw
      rw [hpcn, hreqn]
      rfl
    · rw [hpc w hw, hreq w hw]
      exact h.responded w
  · intro o f hlt htag hlive
    by_cases hfn : f = s.n
    · subst hfn
      rw [hpcn]
      exact ⟨nofun, rfl⟩
    rw [hreq f hfn] at htag ⊢
    rw [hpc f hfn]
    by_cases hon : o = s.n
    · have hu : s.pc f = .unread := (h.unread f).2 (by omega)
      rw [hu]
      exact ⟨nofun, rfl⟩
    · rw [hreq o hon] at htag
      rw [hpc o hon] at hlive
      exact h.waits o f hlt htag hlive
  intro o f l₁ l₂ hlt htag hout
  change s.out = l₁ ++ f :: l₂ at hout
  have hsent := (h.out f).1 (by rw [hout]; simp)
  have hfn : f < s.n := h.lt (by intro hu; rw [hu] at hsent; cases hsent)
  rw [hreq f (by omega), hreq o (by omega)] at htag
  exact h.order o f l₁ l₂ hlt htag hout

/-! ## One request goes on -/

/-- `r` comes to `p`, and what that means for the pool, the lock and the replies. -/
structure Moves (s s' : Srv) (r : Nat) (p : Pc) : Prop where
  n : s'.n = s.n
  pc : s'.pc = Function.update s.pc r p
  tag : ∀ w, (s'.req w).tag = (s.req w).tag ∧ (s'.req w).oldtag = (s.req w).oldtag
  oldreq : ∀ w, w ≠ r → (s'.req w).oldreq = (s.req w).oldreq
  responded : ∀ w, (s'.req w).responded = if w = r then p.responded else (s.req w).responded
  known : s.pc r ≠ .unread ∧ p ≠ .unread ∧ p ≠ .read
  loop : s'.loop = if s.pc r = .read then none else s.loop
  live : p.live = true → (s.pc r).live = true
  pool : ∀ t, s'.pool t = if (s.pc r).live = true ∧ p.live = false ∧ t = (s.req r).tag then none else s.pool t
  wlock : s'.wlock = if p = .writing then some r else if s.pc r = .writing then none else s.wlock
  free : p = .writing → s.wlock = none
  out : p.sent = (s.pc r).sent ∧ s'.out = s.out ∨
    p.sent = true ∧ (s.pc r).sent = false ∧ s'.out = s.out ++ [r] ∧
      ∀ o < r, (s.req r).oldtag = some (s.req o).tag → o ∈ s.out
  waits : p.waits = true → ∀ o < r, (s.req r).oldtag = some (s.req o).tag → (s.pc o).live = true → (s'.req r).oldreq = some o
  past : p.past = true → ∀ o < r, (s.req r).oldtag = some (s.req o).tag → (s.pc o).live = false

variable {s' : Srv} {p : Pc}

theorem Base.moves (h : s.Base) (m : Moves s s' r p) : s'.Base := by
  have hpc : ∀ w, w ≠ r → s'.pc w = s.pc w := by
    intro w hw
    rw [m.pc, update_of_ne hw]
  have hpcr : s'.pc r = p := by
    rw [m.pc, update_self]
  obtain ⟨hru, hpu, hpr⟩ := m.known
  refine ⟨?_, ?_, ?_, ?_, ?_, ?_, ?_, ?_, ?_, ?_⟩
  · intro w
    rw [m.n, ← h.unread]
    by_cases hw : w = r
    · subst hw
      simp [hpcr, hpu, hru]
    · rw [hpc w hw]
  · intro w
    rw [m.loop]
    by_cases hw : w = r
    · subst hw
      rw [hpcr]
      simp only [hpr, iff_false]
      split
      · simp
      · rwa [h.loop]
    rw [hpc w hw]
    split
    · rename_i hread
      have hloop := (h.loop r).2 hread
      rw [← h.loop, hloop]
      simp [Ne.symm hw]
    · exact h.loop w
  · intro w hw'
    rw [m.n]
    by_cases hw : w = r
    · subst hw
      rw [hpcr] at hw'
      exact absurd hw' hpr
    · rw [hpc w hw] at hw'
      exact h.last w hw'
  · intro t w
    rw [m.pool, (m.tag w).1]
    by_cases hw : w = r
    · subst hw
      rw [hpcr]
      split
      · rename_i hgone
        simp [hgone.2.1]
      rename_i hstays
      rw [h.pool]
      refine and_congr_left fun ht => ?_
      cases hp : p.live with
      | true => simp [m.live hp]
      | false =>
        simp only [hp, ht, and_true, Bool.not_eq_true] at hstays
        simp [hstays]
    rw [hpc w hw]
    split
    · rename_i hgone
      obtain ⟨hlive, -, rfl⟩ := hgone
      simp only [reduceCtorEq, false_iff, not_and]
      intro hlive' htag
      exact hw (h.live_unique hlive' hlive htag)
    · exact h.pool t w
  · intro w
    rw [m.wlock]
    by_cases hw : w = r
    · subst hw
      rw [hpcr]
      split
      · rename_i hwr
        simp [hwr]
      rename_i hwr
      split
      · simp [hwr]
      · rename_i hwr'
        simp [hwr, h.wlock, hwr']
    rw [hpc w hw]
    split
    · rename_i hwr
      rw [← h.wlock, m.free hwr]
      simp [Ne.symm hw]
    split
    · rename_i hwr
      have hlock := (h.wlock r).2 hwr
      rw [← h.wlock, hlock]
      simp [Ne.symm hw]
    · exact h.wlock w
  · intro w
    rcases m.out with ⟨hsent, hout⟩ | ⟨hsent, hnot, hout, -⟩
    · rw [hout, h.out]
      by_cases hw : w = r
      · rw [hw, hpcr, hsent]
      · rw [hpc w hw]
    rw [hout, mem_append, mem_singleton, h.out]
    by_cases hw : w = r
    · rw [hw, hpcr, hsent]
      simp
    · rw [hpc w hw]
      simp [hw]
  · rcases m.out with ⟨-, hout⟩ | ⟨-, hnot, hout, -⟩
    · rw [hout]
      exact h.once
    rw [hout, ← concat_eq_append]
    refine h.once.concat ?_
    rw [h.out, hnot]
    simp
  · intro w
    rw [m.responded]
    split
    · rename_i hw
      rw [hw, hpcr]
    · rename_i hw
      rw [hpc w hw]
      exact h.responded w
  · intro o f hlt htag hlive
    rw [(m.tag f).2, (m.tag o).1] at htag
    have hlive : (s.pc o).live = true := by
      by_cases ho : o = r
      · subst ho
        rw [hpcr] at hlive
        exact m.live hlive
      · rwa [hpc o ho] at hlive
    by_cases hf : f = r
    · subst hf
      rw [hpcr]
      refine ⟨fun hw => m.waits hw o hlt htag hlive, ?_⟩
      cases hp : p.past with
      | false => rfl
      | true =>
        have := m.past hp o hlt htag
        rw [hlive] at this
        cases this
    · rw [hpc f hf, m.oldreq f hf]
      exact h.waits o f hlt htag hlive
  intro o f l₁ l₂ hlt htag hl
  rw [(m.tag f).2, (m.tag o).1] at htag
  rcases m.out with ⟨-, hout⟩ | ⟨-, hnot, hout, holder⟩
  · rw [hout] at hl
    exact h.order o f l₁ l₂ hlt htag hl
  rw [hout] at hl
  rcases eq_nil_or_concat l₂ with rfl | ⟨l₂, x, rfl⟩
  · obtain ⟨rfl, hfr⟩ := append_inj' hl rfl
    obtain rfl : r = f := by simpa using hfr
    exact holder o hlt htag
  · rw [concat_eq_append, ← cons_append, ← append_assoc] at hl
    obtain ⟨hl, -⟩ := append_inj' hl rfl
    exact h.order o f l₁ l₂ hlt htag hl

theorem Queues.keep (hq : s.Queues) (hpc : s'.pc = update s.pc r p)
    (htag : ∀ w, (s'.req w).tag = (s.req w).tag ∧ (s'.req w).oldtag = (s.req w).oldtag)
    (hflush : ∀ w, (s'.req w).flush = (s.req w).flush) (hother : ∀ w, w ≠ r → (s'.req w).oldreq = (s.req w).oldreq)
    (hold : ∀ o, (s'.req r).oldreq = some o → o < r ∧ (s.req r).oldtag = some (s.req o).tag ∧ p.waits = true)
    (hparked : p ≠ .parked ∧ s.pc r ≠ .parked) (hcursor : p.cursor = (s.pc r).cursor) (hdone : p ≠ .done)
    (hcalling : ∀ i, p ≠ .calling i) (hcalled : (s.pc r).called = true → p.called = true) : s'.Queues := by
  have hpc' : ∀ w, w ≠ r → s'.pc w = s.pc w := by
    intro w hw
    rw [hpc, update_of_ne hw]
  have hpcr : s'.pc r = p := by
    rw [hpc, update_self]
  have hcursor' : ∀ w, (s'.pc w).cursor = (s.pc w).cursor := by
    intro w
    rw [hpc]
    exact same_update Pc.cursor hcursor w
  constructor
  · intro f o hf
    rw [(htag f).2, (htag o).1]
    by_cases hfr : f = r
    · subst hfr
      rw [hpcr]
      exact hold o hf
    · rw [hother f hfr] at hf
      rw [hpc' f hfr]
      exact hq.old f o hf
  · intro f hf
    by_cases hfr : f = r
    · rw [hfr, hpcr] at hf
      exact absurd hf hparked.1
    · rw [hpc' f hfr] at hf
      rw [hother f hfr]
      exact hq.parked f hf
  · intro o f
    rw [hflush, hcursor', hq.queued]
    by_cases hfr : f = r
    · subst hfr
      simp [hpcr, hparked.1, hparked.2]
    · rw [hpc' f hfr, hother f hfr]
  · intro o
    rw [hflush, hcursor']
    exact hq.nodup o
  · intro o ho
    rw [hflush]
    by_cases hor : o = r
    · rw [hor, hpcr] at ho
      exact absurd ho hdone
    · rw [hpc' o hor] at ho
      exact hq.done o ho
  intro o i ho
  by_cases hor : o = r
  · rw [hor, hpcr] at ho
    exact absurd ho (hcalling i)
  rw [hpc' o hor] at ho
  obtain ⟨f, hf, hlt, hc⟩ := hq.calling o i ho
  rw [hflush]
  refine ⟨f, hf, hlt, ?_⟩
  by_cases hfr : f = r
  · rw [hfr, hpcr]
    exact hcalled (hfr ▸ hc)
  · rwa [hpc' f hfr]

/-! ## The steps -/

theorem closereq_same (s : Srv) (r : Nat) : (s.closereq r).n = s.n ∧ (s.closereq r).req = s.req ∧ (s.closereq r).pc = s.pc ∧
    (s.closereq r).pool = s.pool ∧ (s.closereq r).loop = s.loop ∧ (s.closereq r).wlock = s.wlock ∧ (s.closereq r).out = s.out := by
  unfold closereq
  split <;> exact ⟨rfl, rfl, rfl, rfl, rfl, rfl, rfl⟩

theorem Queues.old_none (hq : s.Queues) (hw : (s.pc r).waits = false) : (s.req r).oldreq = none := by
  cases ho : (s.req r).oldreq with
  | none => rfl
  | some o =>
    have := (hq.old r o ho).2.2
    rw [hw] at this
    cases this

theorem Base.not_live (h : s.Base) (hp : (s.pc r).past = true) :
    ∀ o < r, (s.req r).oldtag = some (s.req o).tag → (s.pc o).live = false := by
  intro o hlt htag
  cases ho : (s.pc o).live with
  | false => rfl
  | true =>
    have := (h.waits o r hlt htag ho).2
    rw [hp] at this
    cases this

theorem Pc.live_cases {p : Pc} (h : p.live = true) : p.sent = false ∧ p ≠ .writing ∧ p ≠ .unread ∧ p.responded = false ∧
    p.cursor = 0 ∧ p ≠ .done ∧ ∀ i, p ≠ .calling i := by
  cases p <;> first | (cases h; done) | exact ⟨rfl, nofun, nofun, rfl, rfl, nofun, nofun⟩

theorem Pc.sent_cases {p : Pc} (h : p.sent = true) : p.live = false ∧ p ≠ .writing ∧ p ≠ .unread ∧ p ≠ .read ∧
    p.waits = false ∧ p.past = true := by
  cases p <;> first | (cases h; done) | exact ⟨rfl, nofun, nofun, nofun, rfl, rfl⟩

theorem Moves.of_live (h : s.Base) (hr : (s.pc r).live = true) (hp : p.live = true) (hread : p ≠ .read)
    (hpc : s'.pc = update s.pc r p) (hn : s'.n = s.n)
    (htag : ∀ w, (s'.req w).tag = (s.req w).tag ∧ (s'.req w).oldtag = (s.req w).oldtag)
    (holdreq : ∀ w, w ≠ r → (s'.req w).oldreq = (s.req w).oldreq)
    (hresponded : ∀ w, (s'.req w).responded = (s.req w).responded)
    (hloop : s'.loop = if s.pc r = .read then none else s.loop) (hpool : s'.pool = s.pool) (hwlock : s'.wlock = s.wlock)
    (hout : s'.out = s.out)
    (hwaits : p.waits = true → ∀ o < r, (s.req r).oldtag = some (s.req o).tag → (s.pc o).live = true →
      (s'.req r).oldreq = some o)
    (hpast : p.past = true → ∀ o < r, (s.req r).oldtag = some (s.req o).tag → (s.pc o).live = false) : Moves s s' r p := by
  obtain ⟨hsent, hwriting, hunread, hresp, -⟩ := Pc.live_cases hr
  obtain ⟨hsent', hwriting', hunread', hresp', -⟩ := Pc.live_cases hp
  refine ⟨hn, hpc, htag, holdreq, ?_, ⟨hunread, hunread', hread⟩, hloop, fun _ => hr, ?_, ?_, ?_, .inl ⟨?_, hout⟩, hwaits, hpast⟩
  · exact fun w => (hresponded w).trans (h.responded_of (by rw [hresp, hresp']) w)
  · intro t
    rw [hpool, if_neg]
    rw [hp]
    simp
  · rw [hwlock, if_neg hwriting', if_neg hwriting]
  · intro hw
    exact absurd hw hwriting'
  · rw [hsent, hsent']

theorem Moves.of_sent (h : s.Base) (hr : (s.pc r).sent = true) (hp : p.sent = true)
    (hpc : s'.pc = update s.pc r p) (hn : s'.n = s.n)
    (htag : ∀ w, (s'.req w).tag = (s.req w).tag ∧ (s'.req w).oldtag = (s.req w).oldtag)
    (holdreq : ∀ w, w ≠ r → (s'.req w).oldreq = (s.req w).oldreq)
    (hresponded : ∀ w, (s'.req w).responded = if w = r then p.responded else (s.req w).responded)
    (hloop : s'.loop = s.loop) (hpool : s'.pool = s.pool) (hwlock : s'.wlock = s.wlock) (hout : s'.out = s.out) :
    Moves s s' r p := by
  obtain ⟨hlive, hwriting, hunread, hread, -, hpast⟩ := Pc.sent_cases hr
  obtain ⟨hlive', hwriting', hunread', hread', hwaits', -⟩ := Pc.sent_cases hp
  refine ⟨hn, hpc, htag, holdreq, hresponded, ⟨hunread, hunread', hread'⟩, ?_, ?_, ?_, ?_, ?_, .inl ⟨?_, hout⟩, ?_,
    fun _ => h.not_live hpast⟩
  · rw [hloop, if_neg hread]
  · intro hl
    rw [hlive'] at hl
    cases hl
  · intro t
    rw [hpool, if_neg]
    rw [hlive]
    simp
  · rw [hwlock, if_neg hwriting', if_neg hwriting]
  · intro hw
    exact absurd hw hwriting'
  · rw [hr, hp]
  · intro hw
    rw [hwaits'] at hw
    cases hw

theorem Inv.respond (h : s.Inv) (hpc : s.pc r = .given) : (s.goto r .responding).Inv := by
  refine ⟨h.toBase.moves (.of_live (p := .responding) h.toBase (by rw [hpc]; rfl) rfl nofun rfl rfl (fun _ => ⟨rfl, rfl⟩) (fun _ _ => rfl) (fun _ => rfl)
    ?_ rfl rfl rfl ?_ nofun), ?_⟩
  · rw [if_neg (by rw [hpc]; nofun)]
    rfl
  · intro _ o hlt htag ho
    exact (h.waits o r hlt htag ho).1 (by rw [hpc]; rfl)
  refine h.toQueues.keep rfl (fun _ => ⟨rfl, rfl⟩) (fun _ => rfl) (fun _ _ => rfl) ?_ ⟨nofun, by rw [hpc]; nofun⟩
    (by rw [hpc]; rfl) nofun nofun fun _ => rfl
  intro o ho
  obtain ⟨hlt, htag, -⟩ := h.old r o ho
  exact ⟨hlt, htag, rfl⟩

theorem Inv.completed (h : s.Inv) (hpc : s.pc r = .responding) (hnone : (s.req r).oldreq = none) :
    (s.goto r .completed).Inv := by
  refine ⟨h.toBase.moves (.of_live (p := .completed) h.toBase (by rw [hpc]; rfl) rfl nofun rfl rfl (fun _ => ⟨rfl, rfl⟩) (fun _ _ => rfl) (fun _ => rfl)
    ?_ rfl rfl rfl nofun ?_), ?_⟩
  · rw [if_neg (by rw [hpc]; nofun)]
    rfl
  · intro _ o hlt htag
    cases ho : (s.pc o).live with
    | false => rfl
    | true =>
      have := (h.waits o r hlt htag ho).1 (by rw [hpc]; rfl)
      rw [hnone] at this
      cases this
  · refine h.toQueues.keep rfl (fun _ => ⟨rfl, rfl⟩) (fun _ => rfl) (fun _ _ => rfl) ?_ ⟨nofun, by rw [hpc]; nofun⟩
      (by rw [hpc]; rfl) nofun nofun fun _ => rfl
    exact fun o ho => nomatch hnone.symm.trans ho

theorem Inv.flushed (h : s.Inv) (hpc : s.pc r = .responding) (ho : (s.req r).oldreq = some o)
    (hresp : (s.req o).responded = true) (hn : s'.n = s.n) (hpc' : s'.pc = update s.pc r .completed)
    (hreq : s'.req = update s.req r { s.req r with oldreq := none }) (hpool : s'.pool = s.pool)
    (hloop : s'.loop = s.loop) (hwlock : s'.wlock = s.wlock) (hout : s'.out = s.out) : s'.Inv := by
  have hother : ∀ w, w ≠ r → (s'.req w).oldreq = (s.req w).oldreq := by
    intro w hw
    rw [hreq, update_of_ne hw]
  have htag : ∀ w, (s'.req w).tag = (s.req w).tag ∧ (s'.req w).oldtag = (s.req w).oldtag :=
    fun w => ⟨same_of_update Req.tag hreq rfl w, same_of_update Req.oldtag hreq rfl w⟩
  refine ⟨h.toBase.moves (.of_live (p := .completed) h.toBase (by rw [hpc]; rfl) rfl nofun hpc' hn htag hother (same_of_update Req.responded hreq rfl) ?_
    hpool hwlock hout nofun ?_), ?_⟩
  · rw [if_neg (by rw [hpc]; nofun), hloop]
  · intro _ o' hlt htag'
    cases ho' : (s.pc o').live with
    | false => rfl
    | true =>
      have hold := (h.waits o' r hlt htag' ho').1 (by rw [hpc]; rfl)
      rw [ho] at hold
      cases hold
      rw [h.responded, (Pc.live_cases ho').2.2.2.1] at hresp
      cases hresp
  refine h.toQueues.keep hpc' htag (same_of_update Req.flush hreq rfl) hother ?_ ⟨nofun, by rw [hpc]; nofun⟩ (by rw [hpc]; rfl) nofun nofun
    fun _ => rfl
  intro o' ho'
  rw [hreq, update_self] at ho'
  cases ho'

theorem Inv.park (h : s.Inv) (hpc : s.pc r = .responding) (ho : (s.req r).oldreq = some o)
    (hresp : (s.req o).responded = false) :
    ((s.setReq o { s.req o with flush := (s.req o).flush ++ [r] }).goto r .parked).Inv := by
  obtain ⟨_, _, hwaits⟩ := h.old r o ho
  obtain ⟨s', hs'⟩ : ∃ s', s' = (s.setReq o { s.req o with flush := (s.req o).flush ++ [r] }).goto r .parked := ⟨_, rfl⟩
  have hset : s'.req = update s.req o { s.req o with flush := (s.req o).flush ++ [r] } := by
    rw [hs']
    rfl
  have hreqo : s'.req o = { s.req o with flush := (s.req o).flush ++ [r] } := by
    rw [hset, update_self]
  have hreq : ∀ w, w ≠ o → s'.req w = s.req w := by
    intro w hw
    rw [hset, update_of_ne hw]
  have hpc' : ∀ w, w ≠ r → s'.pc w = s.pc w := by
    intro w hw
    rw [hs']
    exact update_of_ne hw ..
  have hpcr : s'.pc r = .parked := by
    rw [hs']
    exact update_self ..
  have holdreq := same_of_update Req.oldreq hset rfl
  have htag : ∀ w, (s'.req w).tag = (s.req w).tag ∧ (s'.req w).oldtag = (s.req w).oldtag :=
    fun w => ⟨same_of_update Req.tag hset rfl w, same_of_update Req.oldtag hset rfl w⟩
  -- The loop over its list has not begun.
  have hcur : ∀ {p : Pc}, p.responded = false → p.cursor = 0 ∧ p ≠ .done ∧ ∀ i, p ≠ .calling i := by
    intro p hp
    cases p <;> first | (cases hp; done) | exact ⟨rfl, nofun, nofun⟩
  have hoc := hcur (h.responded o ▸ hresp)
  have hcursor : ∀ w, (s'.pc w).cursor = (s.pc w).cursor := by
    intro w
    by_cases hw : w = r
    · rw [hw, hpcr, hpc]
      rfl
    · rw [hpc' w hw]
  have hnot : r ∉ (s.req o).flush := by
    intro hmem
    have hin := (h.queued o r).1 (by rw [hoc.1]; exact hmem)
    rw [hpc] at hin
    cases hin.1
  rw [← hs']
  have hq : s'.Queues := by
    constructor
    · intro f o' hf
      rw [holdreq] at hf
      rw [(htag f).2, (htag o').1]
      obtain ⟨hlt', htag', hw⟩ := h.old f o' hf
      refine ⟨hlt', htag', ?_⟩
      by_cases hfr : f = r
      · rw [hfr, hpcr]
        rfl
      · rwa [hpc' f hfr]
    · intro f hf
      rw [holdreq]
      by_cases hfr : f = r
      · rw [hfr, ho]
        simp
      · rw [hpc' f hfr] at hf
        exact h.parked f hf
    · intro o' f
      rw [holdreq, hcursor]
      have hin := h.queued o' f
      by_cases ho' : o' = o
      · subst ho'
        rw [hreqo, hoc.1, drop_zero, mem_append, mem_singleton]
        rw [hoc.1, drop_zero] at hin
        rw [hin]
        by_cases hfr : f = r
        · subst hfr
          simp [hpcr, ho]
        · rw [hpc' f hfr]
          simp [hfr]
      rw [hreq o' ho', hin]
      by_cases hfr : f = r
      · subst hfr
        rw [hpc, ho]
        simp [Ne.symm ho']
      · rw [hpc' f hfr]
    · intro o'
      rw [hcursor]
      by_cases ho' : o' = o
      · subst ho'
        have hnd := h.nodup o'
        rw [hoc.1, drop_zero] at hnd
        rw [hreqo, hoc.1, drop_zero, ← concat_eq_append]
        exact hnd.concat hnot
      · rw [hreq o' ho']
        exact h.nodup o'
    · intro o' ho'
      by_cases hor' : o' = r
      · rw [hor', hpcr] at ho'
        cases ho'
      rw [hpc' o' hor'] at ho'
      by_cases hoo : o' = o
      · rw [hoo] at ho'
        exact absurd ho' hoc.2.1
      · rw [hreq o' hoo]
        exact h.done o' ho'
    intro o' i ho'
    by_cases hor' : o' = r
    · rw [hor', hpcr] at ho'
      cases ho'
    rw [hpc' o' hor'] at ho'
    by_cases hoo : o' = o
    · rw [hoo] at ho'
      exact absurd ho' (hoc.2.2 i)
    obtain ⟨f, hf, hlt', _⟩ := h.calling o' i ho'
    rw [hreq o' hoo]
    refine ⟨f, hf, hlt', ?_⟩
    by_cases hfr : f = r
    · rw [hfr, hpcr]
      rfl
    · rwa [hpc' f hfr]
  refine ⟨h.toBase.moves (.of_live (p := .parked) h.toBase (by rw [hpc]; rfl) rfl nofun ?_ ?_ htag (fun w _ => holdreq w) (same_of_update Req.responded hset rfl) ?_ ?_ ?_ ?_
    ?_ nofun), hq⟩
  · rw [hs']
    rfl
  · rw [hs']
    rfl
  · rw [if_neg (by rw [hpc]; nofun), hs']
    rfl
  · rw [hs']
    rfl
  · rw [hs']
    rfl
  · rw [hs']
    rfl
  · intro _ o' hlt' htag' ho'
    rw [holdreq]
    exact (h.waits o' r hlt' htag' ho').1 hwaits

theorem rflush_none (ho : (s.req r).oldreq = none) : s.rflush r = (s, 0) := by
  unfold rflush
  rw [ho]

theorem rflush_park (ho : (s.req r).oldreq = some o) (hresp : (s.req o).responded = false) :
    s.rflush r = (s.setReq o { s.req o with flush := (s.req o).flush ++ [r] }, -1) := by
  unfold rflush
  rw [ho]
  dsimp only
  rw [hresp]
  simp

theorem rflush_done (ho : (s.req r).oldreq = some o) (hresp : (s.req o).responded = true) :
    s.rflush r = ((s.closereq o).setReq r { (s.closereq o).req r with oldreq := none }, 0) := by
  unfold rflush
  rw [ho]
  dsimp only
  rw [if_pos hresp]

theorem Inv.complete (h : s.Inv) (hpc : s.pc r = .responding) : (s.complete r).Inv := by
  unfold Srv.complete
  cases ht : (s.req r).oldtag with
  | none =>
    refine h.completed hpc ?_
    cases ho : (s.req r).oldreq with
    | none => rfl
    | some o =>
      have := (h.old r o ho).2.1
      rw [ht] at this
      cases this
  | some t =>
    cases ho : (s.req r).oldreq with
    | none =>
      rw [rflush_none ho]
      exact h.completed hpc ho
    | some o =>
      cases hresp : (s.req o).responded with
      | false =>
        rw [rflush_park ho hresp]
        exact h.park hpc ho hresp
      | true =>
        rw [rflush_done ho hresp]
        obtain ⟨hn, hreq, hpc', hpool, hloop, hwlock, hout⟩ := closereq_same s o
        refine h.flushed hpc ho hresp hn ?_ ?_ hpool hloop hwlock hout
        · change update (s.closereq o).pc r .completed = _
          rw [hpc']
        · change update (s.closereq o).req r { (s.closereq o).req r with oldreq := none } = _
          rw [hreq]

theorem sflush_eq (s : Srv) (r t : Nat) :
    ∃ ref, s.sflush r t = { s with ref := ref, req := update s.req r { s.req r with oldreq := s.pool t } } := by
  unfold sflush lookupreq
  cases ho : s.pool t with
  | none => exact ⟨s.ref, rfl⟩
  | some o => exact ⟨_, rfl⟩

theorem Inv.dispatched (h : s.Inv) (hpc : s.pc r = .read) (hown : (s.req r).oldtag ≠ some (s.req r).tag) {x : Option Nat}
    (hx : x = (s.req r).oldtag.bind s.pool) (hn : s'.n = s.n) (hpc' : s'.pc = update s.pc r .given)
    (hreq : s'.req = update s.req r { s.req r with oldreq := x }) (hpool : s'.pool = s.pool)
    (hloop : s'.loop = none) (hwlock : s'.wlock = s.wlock) (hout : s'.out = s.out) : s'.Inv := by
  have hother : ∀ w, w ≠ r → (s'.req w).oldreq = (s.req w).oldreq := by
    intro w hw
    rw [hreq, update_of_ne hw]
  have hself : (s'.req r).oldreq = x := by
    rw [hreq, update_self]
  have htag : ∀ w, (s'.req w).tag = (s.req w).tag ∧ (s'.req w).oldtag = (s.req w).oldtag :=
    fun w => ⟨same_of_update Req.tag hreq rfl w, same_of_update Req.oldtag hreq rfl w⟩
  refine ⟨h.toBase.moves (.of_live (p := .given) h.toBase (by rw [hpc]; rfl) rfl nofun hpc' hn htag hother (same_of_update Req.responded hreq rfl) ?_
    hpool hwlock hout ?_ nofun), ?_⟩
  · rw [if_pos hpc, hloop]
  · intro _ o hlt htago ho
    rw [hself, hx, htago, bind_some]
    exact (h.pool _ o).2 ⟨ho, rfl⟩
  refine h.toQueues.keep hpc' htag (same_of_update Req.flush hreq rfl) hother ?_ ⟨nofun, by rw [hpc]; nofun⟩ (by rw [hpc]; rfl) nofun nofun
    (by rw [hpc]; nofun)
  intro o ho
  rw [hself, hx, bind_eq_some_iff] at ho
  obtain ⟨t, ht, ho⟩ := ho
  obtain ⟨hlive', htag'⟩ := (h.pool t o).1 ho
  have hlt := h.lt (r := o) (Pc.live_cases hlive').2.2.1
  have hlast := h.last r hpc
  have hne : o ≠ r := by
    rintro rfl
    exact hown (by rw [ht, htag'])
  exact ⟨by omega, by rw [ht, htag'], rfl⟩

theorem Inv.dispatch (h : s.Inv) (hpc : s.pc r = .read) (hown : (s.req r).oldtag ≠ some (s.req r).tag) :
    (s.dispatch r).Inv := by
  unfold Srv.dispatch
  cases ht : (s.req r).oldtag with
  | none =>
    have hnone : (s.req r).oldreq = none := h.old_none (by rw [hpc]; rfl)
    refine h.dispatched hpc hown (x := none) (by rw [ht]; rfl) rfl rfl ?_ rfl rfl rfl rfl
    change s.req = _
    rw [← hnone, update_eq_self]
  | some t =>
    obtain ⟨_, hs⟩ := sflush_eq s r t
    dsimp only
    rw [hs]
    exact h.dispatched hpc hown (x := s.pool t) (by rw [ht, bind_some]) rfl rfl rfl rfl rfl rfl rfl

theorem Inv.remove (h : s.Inv) (hpc : s.pc r = .completed) (hlock : s.wlock = none) : (s.remove r).Inv := by
  have hnone : (s.req r).oldreq = none := h.old_none (by rw [hpc]; rfl)
  have hpool : s.pool (s.req r).tag = some r := (h.pool _ r).2 ⟨by rw [hpc]; rfl, rfl⟩
  obtain ⟨s', hs'⟩ : ∃ s', s' = s.remove r := ⟨_, rfl⟩
  have hfields : s'.n = s.n ∧ s'.req = s.req ∧ s'.pc = update s.pc r .writing ∧
      s'.pool = update s.pool (s.req r).tag none ∧ s'.loop = s.loop ∧ s'.wlock = some r ∧ s'.out = s.out := by
    rw [hs']
    unfold Srv.remove
    rw [hpool]
    obtain ⟨hn, hreq, hpc', hpool', hloop, hwlock, hout⟩ :=
      closereq_same { s with pool := update s.pool (s.req r).tag none, wlock := some r } r
    refine ⟨hn, hreq, ?_, hpool', hloop, hwlock, hout⟩
    change update (closereq _ r).pc r .writing = _
    rw [hpc']
  obtain ⟨hn, hreq, hpc', hpool', hloop, hwlock, hout⟩ := hfields
  rw [← hs']
  have htag : ∀ w, (s'.req w).tag = (s.req w).tag ∧ (s'.req w).oldtag = (s.req w).oldtag := by
    intro w
    rw [hreq]
    exact ⟨rfl, rfl⟩
  have hm : Moves s s' r .writing := by
    refine ⟨hn, hpc', htag, ?_, ?_, ⟨by rw [hpc]; nofun, nofun, nofun⟩, ?_, nofun, ?_, ?_, fun _ => hlock, .inl ⟨?_, hout⟩, nofun,
      fun _ => h.not_live ?_⟩
    · intro w _
      rw [hreq]
    · rw [hreq]
      exact h.responded_of (by rw [hpc]; rfl)
    · rw [if_neg (by rw [hpc]; nofun), hloop]
    · intro t
      rw [hpool', hpc]
      by_cases ht : t = (s.req r).tag
      · rw [ht, update_self, if_pos ⟨rfl, rfl, rfl⟩]
      · rw [update_of_ne ht, if_neg (fun h => ht h.2.2)]
    · rw [if_pos rfl, hwlock]
    · rw [hpc]
      rfl
    · rw [hpc]
      rfl
  refine ⟨h.toBase.moves hm, ?_⟩
  refine h.toQueues.keep hpc' htag ?_ ?_ ?_ ⟨nofun, by rw [hpc]; nofun⟩ (by rw [hpc]; rfl) nofun nofun fun _ => rfl
  · intro w
    rw [hreq]
  · intro w _
    rw [hreq]
  · intro o ho
    rw [hreq, hnone] at ho
    cases ho

theorem Pc.sent_of {p : Pc} (hunread : p ≠ .unread) (hlive : p.live = false) (hwriting : p ≠ .writing) : p.sent = true := by
  cases p <;> first | rfl | (cases hlive; done) | exact absurd rfl hunread | exact absurd rfl hwriting

theorem Inv.write (h : s.Inv) (hpc : s.pc r = .writing) : (s.write r).Inv := by
  have hnone : (s.req r).oldreq = none := h.old_none (by rw [hpc]; rfl)
  have hlock := (h.wlock r).2 hpc
  have hm : Moves s (s.write r) r .written := by
    refine ⟨rfl, rfl, fun _ => ⟨rfl, rfl⟩, fun _ _ => rfl, ?_, ⟨by rw [hpc]; nofun, nofun, nofun⟩, ?_, nofun, ?_, ?_, nofun,
      .inr ⟨rfl, by rw [hpc]; rfl, rfl, ?_⟩, nofun, fun _ => h.not_live ?_⟩
    · exact h.responded_of (by rw [hpc]; rfl)
    · rw [if_neg (by rw [hpc]; nofun)]
      rfl
    · intro t
      rw [if_neg (by rw [hpc]; nofun)]
      rfl
    · rw [if_neg nofun, if_pos hpc]
      rfl
    · intro o hlt htag
      have hlive := h.not_live (r := r) (by rw [hpc]; rfl) o hlt htag
      have hr : r < s.n := h.lt (by rw [hpc]; nofun)
      rw [h.out]
      refine Pc.sent_of (h.not_unread (by omega)) hlive ?_
      intro ho
      have := (h.wlock o).2 ho
      rw [hlock] at this
      have := some.inj this
      omega
    · rw [hpc]
      rfl
  refine ⟨h.toBase.moves hm, ?_⟩
  refine h.toQueues.keep rfl (fun _ => ⟨rfl, rfl⟩) (fun _ => rfl) (fun _ _ => rfl) ?_ ⟨nofun, by rw [hpc]; nofun⟩ (by rw [hpc]; rfl)
    nofun nofun fun _ => rfl
  exact fun o ho => nomatch hnone.symm.trans ho

theorem Inv.mark (h : s.Inv) (hpc : s.pc r = .written) : (s.mark r).Inv := by
  have hnone : (s.req r).oldreq = none := h.old_none (by rw [hpc]; rfl)
  have hreq : (s.mark r).req = update s.req r { s.req r with responded := true } := rfl
  have htag : ∀ w, ((s.mark r).req w).tag = (s.req w).tag ∧ ((s.mark r).req w).oldtag = (s.req w).oldtag :=
    fun w => ⟨same_of_update Req.tag hreq rfl w, same_of_update Req.oldtag hreq rfl w⟩
  have hold := same_of_update Req.oldreq hreq rfl
  refine ⟨h.toBase.moves (.of_sent (p := .flushing 0) h.toBase (by rw [hpc]; rfl) rfl rfl rfl htag (fun w _ => hold w) ?_ rfl rfl rfl rfl), ?_⟩
  · intro w
    rw [hreq]
    by_cases hw : w = r
    · rw [hw, update_self, if_pos rfl]
      rfl
    · rw [update_of_ne hw, if_neg hw]
  refine h.toQueues.keep rfl htag (same_of_update Req.flush hreq rfl) (fun w _ => hold w) ?_ ⟨nofun, by rw [hpc]; nofun⟩ (by rw [hpc]; rfl)
    nofun nofun fun _ => rfl
  intro o ho
  rw [hold, hnone] at ho
  cases ho

theorem Inv.back (h : s.Inv) {i : Nat} (hpc : s.pc r = .calling i) : (s.goto r (.flushing (i + 1))).Inv := by
  have hnone : (s.req r).oldreq = none := h.old_none (by rw [hpc]; rfl)
  refine ⟨h.toBase.moves (.of_sent (p := .flushing (i + 1)) h.toBase (by rw [hpc]; rfl) rfl rfl rfl (fun _ => ⟨rfl, rfl⟩)
    (fun _ _ => rfl) ?_ rfl rfl rfl rfl), ?_⟩
  · exact h.responded_of (by rw [hpc]; rfl)
  · refine h.toQueues.keep rfl (fun _ => ⟨rfl, rfl⟩) (fun _ => rfl) (fun _ _ => rfl) ?_ ⟨nofun, by rw [hpc]; nofun⟩
      (by rw [hpc]; rfl) nofun nofun fun _ => rfl
    exact fun o ho => nomatch hnone.symm.trans ho

theorem Inv.next (h : s.Inv) {i : Nat} (hpc : s.pc r = .flushing i) (hf : (s.req r).flush[i]? = some f) :
    ((s.goto r (.calling i)).goto f .responding).Inv := by
  have hdrop : (s.req r).flush.drop i = f :: (s.req r).flush.drop (i + 1) := by
    obtain ⟨hi, hfi⟩ := List.getElem?_eq_some_iff.1 hf
    rw [List.drop_eq_getElem_cons hi, hfi]
  have hcur : (s.pc r).cursor = i := by
    rw [hpc]
    rfl
  obtain ⟨hpf, hof⟩ := (h.queued r f).1 (by rw [hcur, hdrop]; exact List.mem_cons_self ..)
  obtain ⟨hlt, _, _⟩ := h.old f r hof
  have hrf : r ≠ f := Nat.ne_of_lt hlt
  have hnd := h.nodup r
  rw [hcur, hdrop, List.nodup_cons] at hnd
  have hnone : (s.req r).oldreq = none := h.old_none (by rw [hpc]; rfl)
  have hbase : (s.goto r (.calling i)).Base := by
    refine h.toBase.moves (.of_sent (p := .calling i) h.toBase (by rw [hpc]; rfl) rfl rfl rfl (fun _ => ⟨rfl, rfl⟩)
      (fun _ _ => rfl) ?_ rfl rfl rfl rfl)
    exact h.responded_of (by rw [hpc]; rfl)
  have hpf' : (s.goto r (.calling i)).pc f = .parked := by
    change update s.pc r _ f = _
    rw [update_of_ne (Ne.symm hrf), hpf]
  refine ⟨hbase.moves (.of_live (p := .responding) hbase (by rw [hpf']; rfl) rfl nofun rfl rfl (fun _ => ⟨rfl, rfl⟩) (fun _ _ => rfl)
    (fun _ => rfl) ?_ rfl rfl rfl ?_ nofun), ?_⟩
  · rw [if_neg (by rw [hpf']; nofun)]
    rfl
  · intro _ o hlt' htag' ho'
    exact (hbase.waits o f hlt' htag' ho').1 (by rw [hpf']; rfl)
  obtain ⟨s', hs'⟩ : ∃ s', s' = (s.goto r (.calling i)).goto f .responding := ⟨_, rfl⟩
  have hreq : s'.req = s.req := by
    rw [hs']
    rfl
  have hpcf : s'.pc f = .responding := by
    rw [hs']
    exact update_self ..
  have hpcr : s'.pc r = .calling i := by
    rw [hs']
    change update (update s.pc r (.calling i)) f .responding r = _
    rw [update_of_ne hrf, update_self]
  have hpc' : ∀ w, w ≠ r → w ≠ f → s'.pc w = s.pc w := by
    intro w hwr hwf
    rw [hs']
    change update (update s.pc r (.calling i)) f .responding w = _
    rw [update_of_ne hwf, update_of_ne hwr]
  have hcursor : ∀ w, w ≠ r → (s'.pc w).cursor = (s.pc w).cursor := by
    intro w hwr
    by_cases hwf : w = f
    · rw [hwf, hpcf, hpf]
      rfl
    · rw [hpc' w hwr hwf]
  have hparked : ∀ w, s'.pc w = .parked ↔ s.pc w = .parked ∧ w ≠ f := by
    intro w
    by_cases hwf : w = f
    · simp [hwf, hpcf]
    · by_cases hwr : w = r
      · simp [hwr, hpcr, hpc]
      · simp [hpc' w hwr hwf, hwf]
  rw [← hs']
  constructor
  · intro g o hg
    rw [hreq] at hg ⊢
    obtain ⟨hlt', htag', _⟩ := h.old g o hg
    refine ⟨hlt', htag', ?_⟩
    by_cases hgf : g = f
    · rw [hgf, hpcf]
      rfl
    by_cases hgr : g = r
    · rw [hgr, hnone] at hg
      cases hg
    · rwa [hpc' g hgr hgf]
  · intro g hg
    rw [hreq]
    exact h.parked g ((hparked g).1 hg).1
  · intro o g
    rw [hreq, hparked]
    have hin := h.queued o g
    by_cases hor : o = r
    · subst hor
      rw [hpcr]
      change g ∈ (s.req o).flush.drop (i + 1) ↔ _
      rw [hcur, hdrop, List.mem_cons] at hin
      by_cases hgf : g = f
      · subst hgf
        simp [hnd.1]
      · simp only [hgf, false_or] at hin
        rw [hin]
        simp [hgf]
    rw [hcursor o hor, hin]
    by_cases hgf : g = f
    · subst hgf
      rw [hof]
      simp [Ne.symm hor]
    · simp [hgf]
  · intro o
    rw [hreq]
    by_cases hor : o = r
    · subst hor
      rw [hpcr]
      exact hnd.2
    · rw [hcursor o hor]
      exact h.nodup o
  · intro o ho
    rw [hreq]
    by_cases hof' : o = f
    · rw [hof', hpcf] at ho
      cases ho
    by_cases hor : o = r
    · rw [hor, hpcr] at ho
      cases ho
    · rw [hpc' o hor hof'] at ho
      exact h.done o ho
  intro o j ho
  rw [hreq]
  have hcalled : ∀ g, (s.pc g).called = true → (s'.pc g).called = true := by
    intro g hg
    by_cases hgf : g = f
    · rw [hgf, hpcf]
      rfl
    by_cases hgr : g = r
    · rw [hgr, hpcr]
      rfl
    · rwa [hpc' g hgr hgf]
  by_cases hof' : o = f
  · rw [hof', hpcf] at ho
    cases ho
  by_cases hor : o = r
  · subst hor
    rw [hpcr] at ho
    cases ho
    exact ⟨f, hf, hlt, by rw [hpcf]; rfl⟩
  · rw [hpc' o hor hof'] at ho
    obtain ⟨g, hg, hlt', hc⟩ := h.calling o j ho
    exact ⟨g, hg, hlt', hcalled g hc⟩

theorem Inv.finish (h : s.Inv) {i : Nat} (hpc : s.pc r = .flushing i) (hi : (s.req r).flush.length ≤ i) : (s.finish r).Inv := by
  have hnone : (s.req r).oldreq = none := h.old_none (by rw [hpc]; rfl)
  obtain ⟨s', hs'⟩ : ∃ s', s' = s.finish r := ⟨_, rfl⟩
  have hfields : s'.n = s.n ∧ s'.req = update s.req r { s.req r with flush := [] } ∧
      s'.pc = update s.pc r .done ∧ s'.pool = s.pool ∧ s'.loop = s.loop ∧ s'.wlock = s.wlock ∧ s'.out = s.out := by
    rw [hs']
    obtain ⟨hn, hreq, hpc', hpool, hloop, hwlock, hout⟩ := closereq_same (s.setReq r { s.req r with flush := [] }) r
    refine ⟨hn, hreq, ?_, hpool, hloop, hwlock, hout⟩
    change update (closereq _ r).pc r .done = _
    rw [hpc']
    rfl
  obtain ⟨hn, hreq, hpc', hpool, hloop, hwlock, hout⟩ := hfields
  rw [← hs']
  have htag : ∀ w, (s'.req w).tag = (s.req w).tag ∧ (s'.req w).oldtag = (s.req w).oldtag :=
    fun w => ⟨same_of_update Req.tag hreq rfl w, same_of_update Req.oldtag hreq rfl w⟩
  have hold := same_of_update Req.oldreq hreq rfl
  have hpcr : s'.pc r = .done := by
    rw [hpc', update_self]
  have hpcw : ∀ w, w ≠ r → s'.pc w = s.pc w := by
    intro w hw
    rw [hpc', update_of_ne hw]
  have hflushr : (s'.req r).flush = [] := by
    rw [hreq, update_self]
  have hflushw : ∀ w, w ≠ r → (s'.req w).flush = (s.req w).flush := by
    intro w hw
    rw [hreq, update_of_ne hw]
  have hempty : ∀ f, ¬ (s.pc f = .parked ∧ (s.req f).oldreq = some r) := by
    intro f hf
    have hmem := (h.queued r f).2 hf
    rw [hpc] at hmem
    change f ∈ (s.req r).flush.drop i at hmem
    rw [drop_eq_nil_of_le hi] at hmem
    cases hmem
  refine ⟨h.toBase.moves (.of_sent (p := .done) h.toBase (by rw [hpc]; rfl) rfl hpc' hn htag (fun w _ => hold w) ?_ hloop hpool hwlock
    hout), ?_⟩
  · exact fun w => (same_of_update Req.responded hreq rfl w).trans (h.responded_of (by rw [hpc]; rfl) w)
  constructor
  · intro f o hf
    rw [hold] at hf
    rw [(htag f).2, (htag o).1]
    obtain ⟨hlt, htag', hw⟩ := h.old f o hf
    refine ⟨hlt, htag', ?_⟩
    by_cases hfr : f = r
    · rw [hfr, hnone] at hf
      cases hf
    · rwa [hpcw f hfr]
  · intro f hf
    rw [hold]
    by_cases hfr : f = r
    · rw [hfr, hpcr] at hf
      cases hf
    · rw [hpcw f hfr] at hf
      exact h.parked f hf
  · intro o f
    rw [hold]
    have hf : s'.pc f = .parked ↔ s.pc f = .parked := by
      by_cases hfr : f = r
      · rw [hfr, hpcr, hpc]
        simp
      · rw [hpcw f hfr]
    rw [hf]
    by_cases hor : o = r
    · subst hor
      rw [hflushr]
      simp only [drop_nil, not_mem_nil, false_iff]
      exact hempty f
    · rw [hflushw o hor, hpcw o hor]
      exact h.queued o f
  · intro o
    by_cases hor : o = r
    · rw [hor, hflushr, drop_nil]
      exact nodup_nil
    · rw [hflushw o hor, hpcw o hor]
      exact h.nodup o
  · intro o ho
    by_cases hor : o = r
    · rw [hor, hflushr]
    · rw [hpcw o hor] at ho
      rw [hflushw o hor]
      exact h.done o ho
  intro o j ho
  by_cases hor : o = r
  · rw [hor, hpcr] at ho
    cases ho
  rw [hpcw o hor] at ho
  obtain ⟨f, hf, hlt, _⟩ := h.calling o j ho
  rw [hflushw o hor]
  refine ⟨f, hf, hlt, ?_⟩
  by_cases hfr : f = r
  · rw [hfr, hpcr]
    rfl
  · rwa [hpcw f hfr]

end Srv

end Plan9.Lib9p
