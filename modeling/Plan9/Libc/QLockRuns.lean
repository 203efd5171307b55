/-
What holds in every state the queueing lock and its `Rendez` reach.

A step keeps the invariant and moves the queues in one of a few ways (`Moved`);
the only way out of the queue of a `Rendez` is the one `rwakeup` takes, to the
front of the queue of the lock.
-/
import Plan9.Libc.QLockFacts

namespace Plan9.Libc

open Function

namespace QSys

variable {P R : Type} [DecidableEq R]

/-! ## The steps -/

/-- How a step moves the queue of the lock from `l` to `l'` and the others from `ls` to `ls'`. -/
inductive Moved : QAct P R → List QLp → List QLp → (R → List QLp) → (R → List QLp) → Prop
  | stay {a : QAct P R} {l : List QLp} {ls : R → List QLp} : Moved a l l ls ls
  | queue {i : P} {l : List QLp} {ls : R → List QLp} {mp : QLp} : Moved (.qlock i) l (l ++ [mp]) ls ls
  | pass {i : P} {p : QLp} {l : List QLp} {ls : R → List QLp} : Moved (.qunlock i) (p :: l) l ls ls
  | sleep {i : P} {r : R} {l l' : List QLp} {ls : R → List QLp} {me : QLp} :
      (l' = l ∨ ∃ p, l = p :: l') → Moved (.rsleep i r) l l' ls (Function.update ls r (ls r ++ [me]))
  | wake {i : P} {r : R} {a : QAct P R} {t : QLp} {rest l : List QLp} {ls : R → List QLp} :
      a = .rwakeup i r ∨ a = .rwakeupall i r → ls r = t :: rest →
      Moved a l (t :: l) ls (Function.update ls r rest)

variable {s s' : QSys P R} {l : List QLp} {ls : R → List QLp} {h : Option QLp} {i : P} {r : R}

/-- From a `Rendez` the way is to the front of the lock's queue, and `rwakeup` shows it. -/
theorem Moved.woken {a : QAct P R} {l' : List QLp} {ls' : R → List QLp} (hm : Moved a l l' ls ls') {p : QLp}
    (hp : p ∈ ls r) (hp' : p ∉ ls' r) : (∃ i, a = .rwakeup i r ∨ a = .rwakeupall i r) ∧ l' = p :: l := by
  cases hm with
  | stay => exact absurd hp hp'
  | queue => exact absurd hp hp'
  | pass => exact absurd hp hp'
  | @sleep i r1 _ _ _ me _ =>
    refine absurd ?_ hp'
    by_cases hr : r = r1
    · subst hr
      rw [update_self]
      exact List.mem_append_left _ hp
    · rwa [update_of_ne hr]
  | @wake i r1 _ t rest _ _ ha hls =>
    by_cases hr : r = r1
    · subst hr
      rw [update_self] at hp'
      rw [hls] at hp
      obtain rfl : p = t := (List.mem_cons.mp hp).resolve_right hp'
      exact ⟨⟨i, ha⟩, rfl⟩
    · rw [update_of_ne hr] at hp'
      exact absurd hp hp'

theorem Inv.wakeup (hs : Inv s l ls h) {ok : Bool} (hown : i ∈ s.owning) (hw : Wakeup s r ok s') :
    s'.pc = s.pc ∧ s'.owning = s.owning ∧
    (ok = false ∧ s' = s ∧ ls r = [] ∨
     ∃ t rest, ok = true ∧ ls r = t :: rest ∧ Inv s' (t :: l) (update ls r rest) none) := by
  obtain ⟨rfl, -, hlocked⟩ := hs.owner hown
  cases hw with
  | @mk rz q ql _ hq =>
    refine ⟨rfl, rfl, ?_⟩
    unfold rwakeup at hq
    rw [if_neg (by simp [hs.bound r]), if_neg (by simp [hlocked]), (hs.places.rqueue r).head] at hq
    cases hls : ls r with
    | nil =>
      rw [hls] at hq
      cases hq
      left
      refine ⟨rfl, ?_, rfl⟩
      rw [update_eq_self]
    | cons t rest =>
      rw [hls] at hq
      cases hq
      right
      have hmove := hs.places.move hls
      refine ⟨t, rest, rfl, rfl, ?_, ⟨hs.owners.one, fun _ => hlocked⟩, ?_, hs.mine⟩
      · rw [toWaitQ_update]
        exact hmove
      intro r'
      change (update s.r r _ r').l = true
      by_cases hr : r' = r
      · rw [hr, update_self]
        exact hs.bound r
      · rw [update_of_ne hr, hs.bound r']

variable [DecidableEq P]

theorem Inv.qlock (hs : Inv s l ls h) {q : QLock} {ql : Ql} {w : Option QLp} (hi : s.pc i = .idle)
    (hq : Libc.qlock s.q s.ql = some (q, ql, w)) :
    ∃ l', Inv ({ s with q := q, ql := ql }.enter i w) l' ls h ∧ Moved (.qlock i) l l' ls ls := by
  unfold Libc.qlock at hq
  by_cases hfree : s.q.locked = false
  · rw [if_pos hfree] at hq
    cases hq
    exact ⟨l, hs.take hfree, .stay⟩
  rw [if_neg hfree] at hq
  have hlocked : s.q.locked = true := by simpa using hfree
  cases hg : getqlp s.ql with
  | none => rw [hg] at hq; exact absurd hq (by simp)
  | some g =>
    obtain ⟨mp, _⟩ := g
    rw [hg] at hq
    cases hq
    exact ⟨l ++ [mp], ⟨hs.places.enqueue hi hg, ⟨hs.owners.one, fun _ => hlocked⟩, hs.bound,
      mine_update (x := .waiting mp .qlock) hs.mine False.elim⟩, .queue⟩

theorem Inv.qunlock (hs : Inv s l ls h) {q : QLock} {w : Option QLp} {msg : Bool} (hi : s.pc i = .idle)
    (hown : i ∈ s.owning) (hq : Libc.qunlock s.q s.ql = (q, w, msg)) :
    ∃ l' h', Inv (({ s with q := q }.drop i).wake i w) l' ls h' ∧ Moved (.qunlock i) l l' ls ls := by
  obtain ⟨rfl, hone, hlocked⟩ := hs.owner hown
  have herase : s.owning.erase i = 0 := by rw [hone]; simp
  unfold Libc.qunlock at hq
  rw [hs.places.queue.head] at hq
  cases l with
  | nil =>
    cases hq
    refine ⟨[], none, ⟨hs.places, ⟨?_, fun hne => absurd rfl hne⟩, hs.bound, ?_⟩, .stay⟩
    · change (s.owning.erase i).card + 0 = 0
      rw [herase]; rfl
    intro j hj
    have hji : j ≠ i := by
      intro e
      change (s.pc j).Mine at hj
      rw [e, hi] at hj
      exact hj
    exact (Multiset.mem_erase_of_ne hji).mpr (hs.mine hj)
  | cons p l =>
    cases hq
    refine ⟨l, some p, ⟨hs.places.hand none hi (by simp), ⟨?_, fun _ => hlocked⟩, hs.bound, ?_⟩, .pass⟩
    · change (s.owning.erase i).card + 1 = if s.q.locked then 1 else 0
      rw [herase, hlocked]; rfl
    · intro j hj
      exact hs.mine_drop id hj

theorem Inv.rsleep (hs : Inv s l ls h) {rz : Rendez} {q : QLock} {ql : Ql} {me : QLp} {t : Option QLp}
    (hi : s.pc i = .idle) (hown : i ∈ s.owning) (hq : Libc.rsleep (s.r r) s.q s.ql = some (rz, q, ql, me, t)) :
    ∃ l' ls' h',
      Inv (({ s with r := update s.r r rz, q := q, ql := ql }.drop i).sleep i me t) l' ls' h' ∧
      Moved (.rsleep i r) l l' ls ls' := by
  obtain ⟨rfl, hone, hlocked⟩ := hs.owner hown
  have herase : s.owning.erase i = 0 := by rw [hone]; simp
  cases hg : getqlp s.ql with
  | none =>
    unfold Libc.rsleep at hq
    rw [if_neg (by simp [hs.bound r]), if_neg (by simp [hlocked]), hg] at hq
    exact absurd hq (by simp)
  | some g =>
    obtain ⟨_, _⟩ := g
    obtain ⟨rz', _, hl, hholds, hu, hn, heq⟩ := hs.rsleep_eq hown r hg
    have hplaces := hs.places.sleep hi hg hholds hu hn
    have hbound : ∀ r', (update s.r r rz' r').l = true := by
      intro r'
      by_cases hr : r' = r
      · rw [hr, update_self, hl]
      · rw [update_of_ne hr, hs.bound r']
    rw [heq] at hq
    cases l with
    | nil =>
      cases hq
      refine ⟨[], update ls r (ls r ++ [me]), none, ⟨?_, ⟨?_, fun hne => absurd rfl hne⟩, hbound, fun hj => hs.mine_drop id hj⟩,
        .sleep (.inl rfl)⟩
      · change Places _ ql _ (fun r' => (update s.r r rz r').toWaitQ) _ _ _
        rw [toWaitQ_update]
        exact hplaces
      · change (s.owning.erase i).card + 0 = 0
        rw [herase]; rfl
    | cons p l =>
      cases hq
      have hhand := hplaces.hand (some me) (update_self i _ _) (by
        intro m hm
        obtain rfl : me = m := Option.some.inj hm
        exact ⟨r, by rw [update_self]; simp⟩)
      rw [update_idem] at hhand
      refine ⟨l, update ls r (ls r ++ [me]), some p, ⟨?_, ⟨?_, fun _ => hlocked⟩, hbound, fun hj => hs.mine_drop id hj⟩,
        .sleep (.inr ⟨p, rfl⟩)⟩
      · change Places _ ql _ (fun r' => (update s.r r rz r').toWaitQ) _ _ _
        rw [toWaitQ_update]
        exact hhand
      · change (s.owning.erase i).card + 1 = if s.q.locked then 1 else 0
        rw [herase, hlocked]; rfl

/-- **A step keeps the invariant.** -/
theorem Step.inv {a : QAct P R} (hstep : Step s a s') (hs : Inv s l ls h) :
    ∃ l' ls' h', Inv s' l' ls' h' ∧ Moved a l l' ls ls' := by
  cases hstep with
  | @qlock i q ql w hi hq =>
    obtain ⟨l', hinv, hmoved⟩ := hs.qlock hi hq
    exact ⟨l', ls, h, hinv, hmoved⟩
  | @qunlock i q w msg hi hown hq =>
    obtain ⟨l', h', hinv, hmoved⟩ := hs.qunlock hi hown hq
    exact ⟨l', ls, h', hinv, hmoved⟩
  | @canqlock i got q hi hq =>
    unfold Libc.canqlock at hq
    by_cases hgot : got = false
    · rw [if_pos hgot] at hq
      cases hq
    rw [if_neg hgot] at hq
    by_cases hfree : s.q.locked = false
    · rw [if_pos hfree] at hq
      cases hq
      exact ⟨l, ls, h, hs.take hfree, .stay⟩
    · rw [if_neg hfree] at hq
      cases hq
  | @cannotqlock i got q hi hq =>
    have hsame : q = s.q := by
      unfold Libc.canqlock at hq
      by_cases hgot : got = false
      · rw [if_pos hgot] at hq
        cases hq; rfl
      rw [if_neg hgot] at hq
      by_cases hfree : s.q.locked = false
      · rw [if_pos hfree] at hq
        cases hq
      · rw [if_neg hfree] at hq
        cases hq; rfl
    subst hsame
    exact ⟨l, ls, h, hs, .stay⟩
  | @rsleep i r rz q ql me t hi hown hq => exact hs.rsleep hi hown hq
  | @rwakeup _ i r ok hi hown hw =>
    obtain ⟨-, -, ⟨-, rfl, -⟩ | ⟨t, rest, -, hls, hinv⟩⟩ := hs.wakeup hown hw
    · exact ⟨l, ls, h, hs, .stay⟩
    · exact ⟨t :: l, _, none, hinv, .wake (.inl rfl) hls⟩
  | @rwakeupall i r hi hown =>
    have hplaces := hs.places.quiet (x := .rwakeupall r 0) (by rw [hi]; rfl) (by simp [hi]) rfl (by simp)
    exact ⟨l, ls, h, ⟨hplaces, hs.owners, hs.bound, mine_update hs.mine fun _ => hown⟩, .stay⟩
  | @wokeone s₁ i r n hi hw =>
    have hown := hs.mine (i := i) (by rw [hi]; trivial)
    obtain ⟨hpc, howning, ⟨hok, -⟩ | ⟨t, rest, -, hls, hinv⟩⟩ := hs.wakeup hown hw
    · exact absurd hok (by simp)
    have hplaces := hinv.places.quiet (x := .rwakeupall r (n + 1)) (by rw [hpc, hi]; rfl) (by simp [hpc, hi]) rfl
      (by simp)
    exact ⟨t :: l, _, none, ⟨hplaces, hinv.owners, hinv.bound, mine_update hinv.mine fun _ => howning ▸ hown⟩,
      .wake (.inr rfl) hls⟩
  | @wokeall s₁ i r n hi hw =>
    have hown := hs.mine (i := i) (by rw [hi]; trivial)
    obtain ⟨-, -, ⟨-, rfl, -⟩ | ⟨t, rest, hok, -⟩⟩ := hs.wakeup hown hw
    · have hplaces := hs.places.quiet (x := .idle) (by rw [hi]; rfl) (by simp [hi]) rfl (by simp)
      exact ⟨l, ls, h, ⟨hplaces, hs.owners, hs.bound, mine_update hs.mine fun _ => hown⟩, .stay⟩
    · exact absurd hok (by simp)
  | @rendezvous i j p me c hi hj =>
    obtain ⟨rfl, hplaces⟩ := hs.places.meet hi hj
    refine ⟨l, ls, none, ⟨hplaces, ⟨?_, hs.owners.wait⟩, hs.bound, ?_⟩, .stay⟩
    · have hone := hs.owners.one
      change (j ::ₘ s.owning).card + 0 = _
      rw [Multiset.card_cons]
      exact hone
    refine mine_update (mine_update (fun hk => Multiset.mem_cons_of_mem (hs.mine hk)) ?_)
      fun _ => Multiset.mem_cons_self ..
    cases me with
    | none => exact fun e => e.elim
    | some m => exact fun e => e.elim
  | @free i mp hi =>
    exact ⟨l, ls, h, ⟨hs.places.free hi, hs.owners, hs.bound, mine_update (x := .idle) hs.mine False.elim⟩, .stay⟩
  | @other ql hx => exact ⟨l, ls, h, ⟨hs.places.other hx, hs.owners, hs.bound, hs.mine⟩, .stay⟩

theorem Inv.of_reachable (hs : Trans.Reachable Init Step s) : ∃ l ls h, Inv s l ls h := by
  refine hs.invariant (fun s => ∃ l ls h, Inv s l ls h) ?_ ?_
  · intro s hinit
    exact ⟨[], fun _ => [], none, Inv.init hinit⟩
  intro s a s' hinv hstep
  obtain ⟨l, ls, h, hinv⟩ := hinv
  obtain ⟨l', ls', h', hinv', -⟩ := hstep.inv hinv
  exact ⟨l', ls', h', hinv'⟩

/-! ## Every step -/

theorem Step.moves_on {a : QAct P R} (hstep : Step s a s') {p : QLp} :
    (∀ c, s.pc i = .waiting p c → s'.pc i = .waiting p c ∨ s'.pc i = .returning p) ∧
    (s.pc i = .returning p → s'.pc i = .returning p ∨ s'.pc i = .idle ∧ s'.owning = s.owning ∧ s'.q = s.q) := by
  -- A process elsewhere that moves is not this one.
  have hmove : ∀ {j : P} {x y : QPc R}, s.pc j = x → x.slot = none →
      (∀ c, s.pc i = .waiting p c → update s.pc j y i = .waiting p c) ∧
      (s.pc i = .returning p → update s.pc j y i = .returning p) := by
    intro j x y hj hx
    have hne : (s.pc i).slot = some p → i ≠ j := by
      intro hi hij
      rw [hij, hj, hx] at hi
      cases hi
    refine ⟨?_, ?_⟩
    · intro c hi
      exact (update_of_ne (hne (slot_waiting hi)) ..).trans hi
    · intro hi
      exact (update_of_ne (hne (by rw [hi]; rfl)) ..).trans hi
  have hstay : s'.pc = s.pc →
      (∀ c, s.pc i = .waiting p c → s'.pc i = .waiting p c ∨ s'.pc i = .returning p) ∧
      (s.pc i = .returning p → s'.pc i = .returning p ∨ s'.pc i = .idle ∧ s'.owning = s.owning ∧ s'.q = s.q) := by
    intro heq
    rw [heq]
    exact ⟨fun c hi => .inl hi, .inl⟩
  cases hstep with
  | @qlock j q ql w hj hq =>
    cases w with
    | none => exact hstay rfl
    | some mp =>
      obtain ⟨hw, hr⟩ := hmove (y := .waiting mp .qlock) hj rfl
      exact ⟨fun c hi => .inl (hw c hi), fun hi => .inl (hr hi)⟩
  | @qunlock j q w msg hj hown hq =>
    cases w with
    | none => exact hstay rfl
    | some mp =>
      obtain ⟨hw, hr⟩ := hmove (y := .waking mp none) hj rfl
      exact ⟨fun c hi => .inl (hw c hi), fun hi => .inl (hr hi)⟩
  | canqlock => exact hstay rfl
  | cannotqlock => exact hstay rfl
  | @rsleep j r rz q ql me t hj hown hq =>
    cases t with
    | none =>
      obtain ⟨hw, hr⟩ := hmove (y := .waiting me .rsleep) hj rfl
      exact ⟨fun c hi => .inl (hw c hi), fun hi => .inl (hr hi)⟩
    | some t =>
      obtain ⟨hw, hr⟩ := hmove (y := .waking t (some me)) hj rfl
      exact ⟨fun c hi => .inl (hw c hi), fun hi => .inl (hr hi)⟩
  | @rwakeup _ j r ok hj hown hw =>
    cases hw
    exact hstay rfl
  | @rwakeupall j r hj hown =>
    obtain ⟨hw, hr⟩ := hmove (y := .rwakeupall r 0) hj rfl
    exact ⟨fun c hi => .inl (hw c hi), fun hi => .inl (hr hi)⟩
  | @wokeone s₁ j r n hj hw =>
    cases hw
    obtain ⟨hw, hr⟩ := hmove (y := .rwakeupall r (n + 1)) hj rfl
    exact ⟨fun c hi => .inl (hw c hi), fun hi => .inl (hr hi)⟩
  | @wokeall s₁ j r n hj hw =>
    cases hw
    obtain ⟨hw, hr⟩ := hmove (y := .idle) hj rfl
    exact ⟨fun c hi => .inl (hw c hi), fun hi => .inl (hr hi)⟩
  | @rendezvous j k a me c' hj hk =>
    have hij : ∀ {x : QPc R}, s.pc i = x → (∀ b m, x ≠ .waking b m) → i ≠ j := by
      intro x hi hx hij
      rw [hij, hj] at hi
      exact hx a me hi.symm
    by_cases hik : i = k
    · subst hik
      refine ⟨?_, ?_⟩
      · intro c hi
        rw [hk] at hi
        cases hi
        exact .inr (update_self ..)
      · intro hi
        rw [hk] at hi
        cases hi
    refine ⟨?_, ?_⟩
    · intro c hi
      exact .inl ((update_of_ne hik ..).trans
        ((update_of_ne (hij hi (by simp)) ..).trans hi))
    · intro hi
      exact .inl ((update_of_ne hik ..).trans
        ((update_of_ne (hij hi (by simp)) ..).trans hi))
  | @free j mp hj =>
    by_cases hij : i = j
    · subst hij
      refine ⟨?_, ?_⟩
      · intro c hi
        rw [hj] at hi
        cases hi
      · intro _
        exact .inr ⟨update_self .., rfl, rfl⟩
    refine ⟨?_, ?_⟩
    · intro c hi
      exact .inl ((update_of_ne hij ..).trans hi)
    · intro hi
      exact .inl ((update_of_ne hij ..).trans hi)
  | other => exact hstay rfl

/-- **The queueing lock and `rsleep`.** Every state that can be reached is safe; a process leaves the queue of a
`Rendez` only by `rwakeup` or `rwakeupall`, for the front of the lock's queue; and a process at its rendezvous in
`rsleep` gets past it, and returns, as the only owner of the lock. -/
theorem qlock_rendez_safe (s : QSys P R) (hs : Trans.Reachable Init Step s) :
    s.Safe ∧ ∀ a s', Step s a s' →
      (∀ r p, p ∈ s.rendezQueue r → p ∉ s'.rendezQueue r →
        (∃ i, a = .rwakeup i r ∨ a = .rwakeupall i r) ∧ s'.lockQueue = p :: s.lockQueue) ∧
      (∀ i p, s.pc i = .waiting p .rsleep → s'.pc i ≠ .waiting p .rsleep →
        s'.pc i = .returning p ∧ s'.owning = {i} ∧ s'.q.locked = true) ∧
      ∀ i p, s.pc i = .returning p → s'.pc i ≠ .returning p →
        s'.pc i = .idle ∧ s'.owning = {i} ∧ s'.q.locked = true := by
  obtain ⟨l, _, h, hinv⟩ := Inv.of_reachable hs
  refine ⟨hinv.safe, ?_⟩
  intro a s' hstep
  obtain ⟨_, _, _, hinv', hmoved⟩ := hstep.inv hinv
  refine ⟨?_, ?_, ?_⟩
  · intro r p hp hp'
    rw [hinv.rendezQueue_eq] at hp
    rw [hinv'.rendezQueue_eq] at hp'
    rw [hinv.lockQueue_eq, hinv'.lockQueue_eq]
    exact hmoved.woken hp hp'
  · intro i p hi hne
    have hret := (hstep.moves_on.1 .rsleep hi).resolve_left hne
    obtain ⟨hown, hlocked⟩ := hinv'.safe.returning i p hret
    exact ⟨hret, hown, hlocked⟩
  intro i p hi hne
  obtain ⟨hidle, hown', hq'⟩ := (hstep.moves_on.2 hi).resolve_left hne
  obtain ⟨hown, hlocked⟩ := hinv.safe.returning i p hi
  exact ⟨hidle, hown'.trans hown, hq' ▸ hlocked⟩

/-! ### One sleeps, the other wakes it -/

namespace Two

def s₀ : QSys Bool Unit :=
  ⟨⟨⟨none, none⟩, false⟩, fun _ => ⟨⟨none, none⟩, true⟩, ⟨0, fun _ => ⟨false, none, .Queuing⟩⟩, fun _ => .idle, 0⟩

def s₁ : QSys Bool Unit := { s₀ with q := { s₀.q with locked := true } }.hold false

def s₂ : QSys Bool Unit :=
  ({ s₁ with
    r := Function.update s₁.r () ⟨⟨some 1, some 1⟩, true⟩
    q := { s₁.q with locked := false }
    ql := ((({ s₁.ql with p := 1 }.setInuse 1 true).setNext 1 none).setState 1 .Sleeping).setNext 1 none }.drop
    false).sleep false 1 none

def s₃ : QSys Bool Unit := { s₂ with q := { s₂.q with locked := true } }.hold true

def s₄ : QSys Bool Unit :=
  { s₃ with
    r := Function.update s₃.r () ⟨⟨none, none⟩, true⟩
    q := { s₃.q with head := some 1, tail := some 1 }
    ql := (s₃.ql.setNext 1 none).setState 1 .Queuing }

def s₅ : QSys Bool Unit := ({ s₄ with q := { s₄.q with head := none, tail := none } }.drop true).wake true (some 1)

def s₆ : QSys Bool Unit := ((s₅.goto true .idle).goto false (.returning 1)).hold false

theorem reachable : Trans.Reachable Init Step s₅ := by
  have h0 : Trans.Reachable Init Step s₀ := .start ⟨rfl, fun _ => rfl, fun _ => rfl, rfl⟩
  have h1 : Step s₀ (.qlock false) s₁ := @Step.qlock _ _ _ _ s₀ false _ s₀.ql none rfl rfl
  have h2 : Step s₁ (.rsleep false ()) s₂ :=
    @Step.rsleep _ _ _ _ s₁ false () _ _ _ 1 none rfl (show false ∈ false ::ₘ 0 by simp) rfl
  have h3 : Step s₂ (.qlock true) s₃ := @Step.qlock _ _ _ _ s₂ true _ s₂.ql none rfl rfl
  have hown : true ∈ s₃.owning := Multiset.mem_cons_self true s₂.owning
  have h4 : Step s₃ (.rwakeup true ()) s₄ := @Step.rwakeup _ _ _ _ s₃ s₄ true () true rfl hown (.mk rfl)
  have h5 : Step s₄ (.qunlock true) s₅ := @Step.qunlock _ _ _ _ s₄ true _ (some 1) false rfl hown rfl
  exact ((((h0.next h1).next h2).next h3).next h4).next h5

theorem step₅ : Step s₅ (.rendezvous 1) s₆ := @Step.rendezvous _ _ _ _ s₅ true false 1 none .rsleep rfl rfl

end Two

theorem qlock_rendez_safe_two : Two.s₆.pc false = .returning 1 ∧ Two.s₆.owning = {false} ∧
    Two.s₆.q.locked = true :=
  ((qlock_rendez_safe Two.s₅ Two.reachable).2 _ _ Two.step₅).2.1 false 1 rfl (by
    intro h
    cases h)

end QSys

end Plan9.Libc
