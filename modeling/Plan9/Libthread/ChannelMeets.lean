/-
Who meets whom, in every state the channels reach.

`Inv` is kept by what a step does to the threads it is about, one lemma for each kind of
step: a thread that comes out of a function or goes into `alt` alone, one that commits
another, two that meet.
-/
import Plan9.Libthread.ChannelFacts

namespace Plan9.Libthread

variable {T C V : Type}

namespace Pc

/-- The entries of the thread may be in queues. -/
def InAlt : Pc T C → Prop
  | .waiting => True
  | .woken _ => True
  | _ => False

/-- It has not been met. -/
def Asleep : Pc T C → Prop
  | .waiting => True
  | .woken .intred => True
  | _ => False

/-- Whose tag it is at. -/
def meets : Pc T C → Option T
  | .meeting w _ => some w
  | .closing w _ _ => some w
  | _ => none

theorem Asleep.inAlt {x : Pc T C} (h : x.Asleep) : x.InAlt := by
  cases x with
  | waiting => trivial
  | woken r => trivial
  | _ => exact h

theorem Asleep.meets {x : Pc T C} (h : x.Asleep) : x.meets = none := by
  cases x with
  | waiting => rfl
  | woken r => rfl
  | _ => exact h.elim

theorem InAlt.not_free {s : Chans T C V} {t : T} (h : (s.pc t).InAlt) : ¬ s.Free t := by
  rintro (hpc | ⟨r, hpc⟩) <;> rw [hpc] at h <;> exact h

end Pc

namespace Chans

structure Inv (s : Chans T C V) : Prop where
  once : ∀ c, Once (s.queue c)
  queued : ∀ c j p, At (s.queue c) j p → (s.pc p.1).InAlt ∧ s.named p.1 p.2 = some c
  one : ∀ p q w, (s.pc p).meets = some w → (s.pc q).meets = some w → p = q
  met : ∀ p w, (s.pc p).meets = some w → (s.pc w).Asleep ∧ ∃ c, s.tag w = .chan c
  comes : ∀ w c, (s.pc w).Asleep → s.tag w = .chan c → ∃ p, (s.pc p).meets = some w
  tag : ∀ w, (s.pc w).InAlt → s.tag w = .nil ∧ (s.pc w).Asleep ∧ s.did w = none ∨
    ∃ c j, s.tag w = .chan c ∧ s.named w j = some c ∧ (s.did w = none ∨ s.did w = some j)
  meeting : ∀ p w i, s.pc p = .meeting w i → s.did w ≠ none ∧ s.did p = some i
  closing : ∀ p w c i, s.pc p = .closing w c i → s.did w = none
  woken : ∀ w, (s.pc w = .woken .nil → s.did w ≠ none) ∧ (s.pc w = .woken .closed → s.did w = none)

variable {s s' : Chans T C V} {t p w : T} {c : C}

theorem Inv.init (h : s.Init) : s.Inv := by
  have hpc := h.pc
  refine ⟨?_, ?_, ?_, ?_, ?_, ?_, ?_, ?_, ?_⟩
  · intro c i j a hi
    rw [At, queue, (h.chan c).2.2.2] at hi
    cases hi
  · intro c j p hp
    rw [At, queue, (h.chan c).2.2.2] at hp
    cases hp
  · intro p q w hp
    rw [hpc p] at hp
    cases hp
  · intro p w hp
    rw [hpc p] at hp
    cases hp
  · intro w c hw
    rw [hpc w] at hw
    exact hw.elim
  · intro w hw
    rw [hpc w] at hw
    exact hw.elim
  · intro p w i hp
    rw [hpc p] at hp
    cases hp
  · intro p w c i hp
    rw [hpc p] at hp
    cases hp
  · intro w
    rw [hpc w]
    constructor <;> simp

theorem Inv.unmet (hs : s.Inv) (h : ¬ (s.pc t).Asleep ∨ s.tag t = .nil) (p : T) : (s.pc p).meets ≠ some t := by
  intro hp
  obtain ⟨hasleep, c, htag⟩ := hs.met p t hp
  rcases h with h | h
  · exact h hasleep
  · rw [h] at htag
    cases htag

theorem Free.not_asleep (h : s.Free t) : ¬ (s.pc t).Asleep := fun ha => ha.inAlt.not_free h

theorem Free.meets (h : s.Free t) : (s.pc t).meets = none := by
  rcases h with h | ⟨r, h⟩ <;> rw [h] <;> rfl

/-- What is left as it is of all threads but some. -/
def Others (P : T → Prop) (s s' : Chans T C V) : Prop :=
  ∀ w, ¬ P w → s'.pc w = s.pc w ∧ s'.tag w = s.tag w ∧ s'.did w = s.did w ∧ s'.named w = s.named w

theorem Inv.leaves (hs : s.Inv) (hunmet : ∀ p, (s.pc p).meets ≠ some t) (hmeets : (s.pc t).meets = none)
    (hother : Others (· = t) s s') (hx : ¬ (s'.pc t).InAlt) (hxm : (s'.pc t).meets = none)
    (honce : ∀ c, Once (s'.queue c)) (hqueue : ∀ c j p, At (s'.queue c) j p → At (s.queue c) j p ∧ p.1 ≠ t) :
    s'.Inv := by
  have hpc : ∀ w, w ≠ t → s'.pc w = s.pc w := fun w hw => (hother w hw).1
  have hnot : ∀ {w}, (s'.pc w).InAlt → w ≠ t := by
    intro w hw hwt
    exact hx (hwt ▸ hw)
  have hmeets' : ∀ {p w}, (s'.pc p).meets = some w → p ≠ t ∧ (s.pc p).meets = some w ∧ w ≠ t := by
    intro p w hp
    have hpt : p ≠ t := by
      intro hpt
      rw [hpt, hxm] at hp
      cases hp
    rw [hpc p hpt] at hp
    refine ⟨hpt, hp, ?_⟩
    intro hwt
    exact hunmet p (hwt ▸ hp)
  refine ⟨honce, ?_, ?_, ?_, ?_, ?_, ?_, ?_, ?_⟩
  · intro c j p hp
    obtain ⟨hp, hpt⟩ := hqueue c j p hp
    rw [(hother p.1 hpt).1, (hother p.1 hpt).2.2.2]
    exact hs.queued c j p hp
  · intro p q w hp hq
    exact hs.one p q w (hmeets' hp).2.1 (hmeets' hq).2.1
  · intro p w hp
    obtain ⟨-, hp, hwt⟩ := hmeets' hp
    rw [hpc w hwt, (hother w hwt).2.1]
    exact hs.met p w hp
  · intro w c hw htag
    have hwt := hnot hw.inAlt
    rw [hpc w hwt] at hw
    rw [(hother w hwt).2.1] at htag
    obtain ⟨p, hp⟩ := hs.comes w c hw htag
    refine ⟨p, ?_⟩
    rw [hpc p]
    · exact hp
    · intro hpt
      rw [hpt, hmeets] at hp
      cases hp
  · intro w hw
    have hwt := hnot hw
    rw [hpc w hwt] at hw ⊢
    rw [(hother w hwt).2.1, (hother w hwt).2.2.1, (hother w hwt).2.2.2]
    exact hs.tag w hw
  · intro p w i hp
    obtain ⟨hpt, -, hwt⟩ := hmeets' (p := p) (w := w) (by rw [hp]; rfl)
    rw [hpc p hpt] at hp
    rw [(hother w hwt).2.2.1, (hother p hpt).2.2.1]
    exact hs.meeting p w i hp
  · intro p w c i hp
    obtain ⟨hpt, -, hwt⟩ := hmeets' (p := p) (w := w) (by rw [hp]; rfl)
    rw [hpc p hpt] at hp
    rw [(hother w hwt).2.2.1]
    exact hs.closing p w c i hp
  intro w
  refine ⟨fun hw => ?_, fun hw => ?_⟩
  · have hwt : w ≠ t := hnot (by rw [hw]; trivial)
    rw [hpc w hwt] at hw
    rw [(hother w hwt).2.2.1]
    exact (hs.woken w).1 hw
  have hwt : w ≠ t := hnot (by rw [hw]; trivial)
  rw [hpc w hwt] at hw
  rw [(hother w hwt).2.2.1]
  exact (hs.woken w).2 hw

theorem Inv.waits (hs : s.Inv) (hfree : s.Free t) (hother : Others (· = t) s s') (hpc : s'.pc t = .waiting)
    (htag : s'.tag t = .nil) (hdid : s'.did t = none) (honce : ∀ c, Once (s'.queue c))
    (hqueue : ∀ c j p, At (s'.queue c) j p → At (s.queue c) j p ∨ p.1 = t ∧ s'.named t p.2 = some c) : s'.Inv := by
  have hmeets' : ∀ {p w}, (s'.pc p).meets = some w → p ≠ t ∧ (s.pc p).meets = some w ∧ w ≠ t := by
    intro p w hp
    have hpt : p ≠ t := by
      intro hpt
      rw [hpt, hpc] at hp
      cases hp
    rw [(hother p hpt).1] at hp
    refine ⟨hpt, hp, ?_⟩
    intro hwt
    exact hs.unmet (.inl hfree.not_asleep) p (hwt ▸ hp)
  refine ⟨honce, ?_, ?_, ?_, ?_, ?_, ?_, ?_, ?_⟩
  · intro c j p hp
    rcases hqueue c j p hp with hp | ⟨hpt, hnamed⟩
    · have hin := hs.queued c j p hp
      have hpt : p.1 ≠ t := by
        intro hpt
        exact (hpt ▸ hin.1 : (s.pc t).InAlt).not_free hfree
      rw [(hother p.1 hpt).1, (hother p.1 hpt).2.2.2]
      exact hin
    · rw [hpt, hpc]
      exact ⟨trivial, hnamed⟩
  · intro p q w hp hq
    exact hs.one p q w (hmeets' hp).2.1 (hmeets' hq).2.1
  · intro p w hp
    obtain ⟨-, hp, hwt⟩ := hmeets' hp
    rw [(hother w hwt).1, (hother w hwt).2.1]
    exact hs.met p w hp
  · intro w c hw htag'
    have hwt : w ≠ t := by
      intro hwt
      rw [hwt, htag] at htag'
      cases htag'
    rw [(hother w hwt).1] at hw
    rw [(hother w hwt).2.1] at htag'
    obtain ⟨p, hp⟩ := hs.comes w c hw htag'
    refine ⟨p, ?_⟩
    rw [(hother p ?_).1]
    · exact hp
    · intro hpt
      rw [hpt, hfree.meets] at hp
      cases hp
  · intro w hw
    by_cases hwt : w = t
    · subst hwt
      rw [hpc]
      exact .inl ⟨htag, trivial, hdid⟩
    · rw [(hother w hwt).1] at hw ⊢
      rw [(hother w hwt).2.1, (hother w hwt).2.2.1, (hother w hwt).2.2.2]
      exact hs.tag w hw
  · intro p w i hp
    obtain ⟨hpt, -, hwt⟩ := hmeets' (p := p) (w := w) (by rw [hp]; rfl)
    rw [(hother p hpt).1] at hp
    rw [(hother w hwt).2.2.1, (hother p hpt).2.2.1]
    exact hs.meeting p w i hp
  · intro p w c i hp
    obtain ⟨hpt, -, hwt⟩ := hmeets' (p := p) (w := w) (by rw [hp]; rfl)
    rw [(hother p hpt).1] at hp
    rw [(hother w hwt).2.2.1]
    exact hs.closing p w c i hp
  intro w
  by_cases hwt : w = t
  · rw [hwt, hpc]
    exact ⟨nofun, nofun⟩
  · rw [(hother w hwt).1, (hother w hwt).2.2.1]
    exact hs.woken w

theorem Inv.commits (hs : s.Inv) (hp : ¬ (s.pc p).InAlt) (hpm : (s.pc p).meets = none) (hw : (s.pc w).Asleep)
    (htag : s.tag w = .nil) (hother : Others (fun t => t = p ∨ t = w) s s') (hpcw : s'.pc w = s.pc w)
    (hnamed : s'.named w = s.named w) (hx : ¬ (s'.pc p).InAlt) (hxm : (s'.pc p).meets = some w)
    (htag' : ∃ c j, s'.tag w = .chan c ∧ s.named w j = some c ∧ (s'.did w = none ∨ s'.did w = some j))
    (hmeeting : ∀ i, s'.pc p = .meeting w i → s'.did w ≠ none ∧ s'.did p = some i)
    (hclosing : ∀ c i, s'.pc p = .closing w c i → s'.did w = none) (hqueue : ∀ c, s'.queue c = s.queue c) : s'.Inv := by
  have hunmet := hs.unmet (.inr htag)
  have hunmetp := hs.unmet (.inl fun h => hp h.inAlt)
  -- The threads that are as they were.
  have hkeep : ∀ {t}, t ≠ p → t ≠ w → s'.pc t = s.pc t ∧ s'.tag t = s.tag t ∧ s'.did t = s.did t ∧ s'.named t = s.named t :=
    fun htp htw => hother _ (by simp [htp, htw])
  have hpc : ∀ {t}, t ≠ p → s'.pc t = s.pc t := by
    intro t htp
    by_cases htw : t = w
    · rw [htw, hpcw]
    · exact (hkeep htp htw).1
  have hmeets' : ∀ {q t}, (s'.pc q).meets = some t → q = p ∧ t = w ∨ q ≠ p ∧ (s.pc q).meets = some t ∧ t ≠ w ∧ t ≠ p := by
    intro q t hq
    by_cases hqp : q = p
    · rw [hqp, hxm] at hq
      exact .inl ⟨hqp, (Option.some.inj hq).symm⟩
    · rw [hpc hqp] at hq
      refine .inr ⟨hqp, hq, fun htw => hunmet q (htw ▸ hq), fun htp => hunmetp q (htp ▸ hq)⟩
  have hnp : ∀ {t}, (s'.pc t).InAlt → t ≠ p := by
    intro t ht htp
    exact hx (htp ▸ ht)
  refine ⟨?_, ?_, ?_, ?_, ?_, ?_, ?_, ?_, ?_⟩
  · intro c
    rw [hqueue c]
    exact hs.once c
  · intro c j a ha
    rw [hqueue c] at ha
    obtain ⟨hin, hname⟩ := hs.queued c j a ha
    have hap : a.1 ≠ p := fun hap => hp (hap ▸ hin)
    rw [hpc hap]
    by_cases haw : a.1 = w
    · rw [haw, hnamed, ← haw]
      exact ⟨hin, hname⟩
    · rw [(hkeep hap haw).2.2.2]
      exact ⟨hin, hname⟩
  · intro q q' t hq hq'
    rcases hmeets' hq with ⟨rfl, rfl⟩ | ⟨-, hq, htw, -⟩
    · rcases hmeets' hq' with ⟨rfl, -⟩ | ⟨-, -, htw, -⟩
      · rfl
      · exact absurd rfl htw
    · rcases hmeets' hq' with ⟨-, htw'⟩ | ⟨-, hq', -, -⟩
      · exact absurd htw' htw
      · exact hs.one q q' t hq hq'
  · intro q t hq
    rcases hmeets' hq with ⟨rfl, rfl⟩ | ⟨-, hq, htw, htp⟩
    · obtain ⟨c, -, htag', -⟩ := htag'
      rw [hpcw]
      exact ⟨hw, c, htag'⟩
    · rw [hpc htp, (hkeep htp htw).2.1]
      exact hs.met q t hq
  · intro t c ht htagt
    by_cases htw : t = w
    · exact ⟨p, by rw [htw, hxm]⟩
    have htp := hnp ht.inAlt
    rw [hpc htp] at ht
    rw [(hkeep htp htw).2.1] at htagt
    obtain ⟨q, hq⟩ := hs.comes t c ht htagt
    refine ⟨q, ?_⟩
    rw [hpc]
    · exact hq
    · intro hqp
      rw [hqp, hpm] at hq
      cases hq
  · intro t ht
    have htp := hnp ht
    by_cases htw : t = w
    · obtain ⟨c, j, h1, h2, h3⟩ := htag'
      rw [htw, hnamed]
      exact .inr ⟨c, j, h1, h2, h3⟩
    · rw [hpc htp] at ht ⊢
      rw [(hkeep htp htw).2.1, (hkeep htp htw).2.2.1, (hkeep htp htw).2.2.2]
      exact hs.tag t ht
  · intro q t i hq
    rcases hmeets' (q := q) (t := t) (by rw [hq]; rfl) with ⟨rfl, rfl⟩ | ⟨hqp, -, htw, htp⟩
    · exact hmeeting i hq
    rw [hpc hqp] at hq
    have hqw : q ≠ w := by
      intro hqw
      rw [hqw] at hq
      rw [hq] at hw
      exact hw
    rw [(hkeep htp htw).2.2.1, (hkeep hqp hqw).2.2.1]
    exact hs.meeting q t i hq
  · intro q t c i hq
    rcases hmeets' (q := q) (t := t) (by rw [hq]; rfl) with ⟨rfl, rfl⟩ | ⟨hqp, -, htw, htp⟩
    · exact hclosing c i hq
    · rw [hpc hqp] at hq
      rw [(hkeep htp htw).2.2.1]
      exact hs.closing q t c i hq
  intro t
  by_cases htw : t = w
  · rw [htw, hpcw]
    refine ⟨fun h => ?_, fun h => ?_⟩ <;> rw [h] at hw <;> exact hw.elim
  refine ⟨fun h => ?_, fun h => ?_⟩
  · have htp := hnp (t := t) (by rw [h]; trivial)
    rw [hpc htp] at h
    rw [(hkeep htp htw).2.2.1]
    exact (hs.woken t).1 h
  have htp := hnp (t := t) (by rw [h]; trivial)
  rw [hpc htp] at h
  rw [(hkeep htp htw).2.2.1]
  exact (hs.woken t).2 h

theorem Inv.sleeps (hs : s.Inv) (ht : (s.pc t).Asleep) (hx : (s'.pc t).Asleep) (hpc : ∀ w, w ≠ t → s'.pc w = s.pc w)
    (htag : s'.tag = s.tag) (hdid : s'.did = s.did) (hnamed : s'.named = s.named) (hqueue : s'.queue = s.queue) : s'.Inv := by
  have hmeets : ∀ p, (s'.pc p).meets = (s.pc p).meets := by
    intro p
    by_cases hpt : p = t
    · rw [hpt, hx.meets, ht.meets]
    · rw [hpc p hpt]
  have hasleep : ∀ w, (s'.pc w).Asleep ↔ (s.pc w).Asleep := by
    intro w
    by_cases hwt : w = t
    · rw [hwt]
      exact ⟨fun _ => ht, fun _ => hx⟩
    · rw [hpc w hwt]
  have hin : ∀ w, (s'.pc w).InAlt ↔ (s.pc w).InAlt := by
    intro w
    by_cases hwt : w = t
    · rw [hwt]
      exact ⟨fun _ => ht.inAlt, fun _ => hx.inAlt⟩
    · rw [hpc w hwt]
  have hsame : ∀ {w}, ¬ (s'.pc w).Asleep → s'.pc w = s.pc w := by
    intro w hw
    refine hpc w ?_
    intro hwt
    exact hw (hwt ▸ hx)
  refine ⟨?_, ?_, ?_, ?_, ?_, ?_, ?_, ?_, ?_⟩
  · rw [hqueue]
    exact hs.once
  · intro c j p hp
    rw [hqueue] at hp
    rw [hin, hnamed]
    exact hs.queued c j p hp
  · intro p q w hp hq
    rw [hmeets] at hp hq
    exact hs.one p q w hp hq
  · intro p w hp
    rw [hmeets] at hp
    rw [hasleep, htag]
    exact hs.met p w hp
  · intro w c hw htagw
    rw [hasleep] at hw
    rw [htag] at htagw
    obtain ⟨p, hp⟩ := hs.comes w c hw htagw
    exact ⟨p, by rw [hmeets, hp]⟩
  · intro w hw
    rw [hin] at hw
    rw [htag, hasleep, hdid, hnamed]
    exact hs.tag w hw
  · intro p w i hp
    rw [hsame (by rw [hp]; exact id)] at hp
    rw [hdid]
    exact hs.meeting p w i hp
  · intro p w c i hp
    rw [hsame (by rw [hp]; exact id)] at hp
    rw [hdid]
    exact hs.closing p w c i hp
  intro w
  rw [hdid]
  refine ⟨fun hw => ?_, fun hw => ?_⟩
  · rw [hsame (by rw [hw]; exact id)] at hw
    exact (hs.woken w).1 hw
  · rw [hsame (by rw [hw]; exact id)] at hw
    exact (hs.woken w).2 hw

theorem Inv.pairs (hs : s.Inv) {r : Rend} (hp : (s.pc p).meets = some w) (hr : r ≠ .intred)
    (hpc : ∀ t, t ≠ p → t ≠ w → s'.pc t = s.pc t) (hx : ¬ (s'.pc p).InAlt) (hxm : (s'.pc p).meets = none)
    (hwr : s'.pc w = .woken r) (hnil : r = .nil → s.did w ≠ none) (hclosed : r = .closed → s.did w = none)
    (htag : s'.tag = s.tag) (hdid : s'.did = s.did) (hnamed : s'.named = s.named) (hqueue : s'.queue = s.queue) : s'.Inv := by
  obtain ⟨hw, c, htagw⟩ := hs.met p w hp
  have hpa : ¬ (s.pc p).InAlt := by
    intro h
    cases hpp : s.pc p <;> rw [hpp] at h hp <;> first | exact h | cases hp
  have hmeets : ∀ {q t}, (s'.pc q).meets = some t → q ≠ p ∧ q ≠ w ∧ t ≠ w ∧ (s.pc q).meets = some t := by
    intro q t hq
    have hqp : q ≠ p := by
      intro hqp
      rw [hqp, hxm] at hq
      cases hq
    have hqw : q ≠ w := by
      intro hqw
      rw [hqw, hwr] at hq
      cases hq
    rw [hpc q hqp hqw] at hq
    refine ⟨hqp, hqw, ?_, hq⟩
    intro htw
    exact hqp (hs.one q p w (htw ▸ hq) hp)
  have hwa : ¬ (s'.pc w).Asleep := by
    rw [hwr]
    cases r with
    | intred => exact absurd rfl hr
    | _ => exact id
  have hpt : ∀ {t}, (s'.pc t).InAlt → t ≠ p := by
    intro t ht htp
    exact hx (htp ▸ ht)
  have hin : ∀ {t}, (s'.pc t).InAlt → (s.pc t).InAlt := by
    intro t ht
    by_cases htw : t = w
    · rw [htw]
      exact hw.inAlt
    · rwa [hpc t (hpt ht) htw] at ht
  refine ⟨?_, ?_, ?_, ?_, ?_, ?_, ?_, ?_, ?_⟩
  · rw [hqueue]
    exact hs.once
  · intro c j a ha
    rw [hqueue] at ha
    obtain ⟨h, hname⟩ := hs.queued c j a ha
    rw [hnamed]
    refine ⟨?_, hname⟩
    by_cases haw : a.1 = w
    · rw [haw, hwr]
      trivial
    · rw [hpc a.1 (fun hap => hpa (hap ▸ h)) haw]
      exact h
  · intro q q' t hq hq'
    exact hs.one q q' t (hmeets hq).2.2.2 (hmeets hq').2.2.2
  · intro q t hq
    obtain ⟨-, -, htw, hq⟩ := hmeets hq
    obtain ⟨ht, htagt⟩ := hs.met q t hq
    rw [hpc t (fun htp => hpa (htp ▸ ht.inAlt)) htw, htag]
    exact ⟨ht, htagt⟩
  · intro t c ht htagt
    have htw : t ≠ w := fun htw => hwa (htw ▸ ht)
    rw [hpc t (hpt ht.inAlt) htw] at ht
    rw [htag] at htagt
    obtain ⟨q, hq⟩ := hs.comes t c ht htagt
    refine ⟨q, ?_⟩
    rw [hpc q]
    · exact hq
    · intro hqp
      rw [hqp, hp] at hq
      exact htw (Option.some.inj hq).symm
    · intro hqw
      rw [hqw, hw.meets] at hq
      cases hq
  · intro t ht
    rw [htag, hdid, hnamed]
    by_cases htw : t = w
    · subst htw
      rcases hs.tag t hw.inAlt with ⟨h, -⟩ | h
      · rw [htagw] at h
        cases h
      · exact .inr h
    · rw [hpc t (hpt ht) htw]
      exact hs.tag t (hin ht)
  · intro q t i hq
    obtain ⟨hqp, hqw, htw, -⟩ := hmeets (q := q) (t := t) (by rw [hq]; rfl)
    rw [hpc q hqp hqw] at hq
    rw [hdid]
    exact hs.meeting q t i hq
  · intro q t c i hq
    obtain ⟨hqp, hqw, htw, -⟩ := hmeets (q := q) (t := t) (by rw [hq]; rfl)
    rw [hpc q hqp hqw] at hq
    rw [hdid]
    exact hs.closing q t c i hq
  intro t
  rw [hdid]
  by_cases htw : t = w
  · rw [htw, hwr]
    exact ⟨fun h => hnil (Pc.woken.inj h), fun h => hclosed (Pc.woken.inj h)⟩
  refine ⟨fun h => ?_, fun h => ?_⟩
  · rw [hpc t (hpt (by rw [h]; trivial)) htw] at h
    exact (hs.woken t).1 h
  · rw [hpc t (hpt (by rw [h]; trivial)) htw] at h
    exact (hs.woken t).2 h

end Chans

end Plan9.Libthread
