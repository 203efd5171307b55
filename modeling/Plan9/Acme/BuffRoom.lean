/-
The room that the functions on a buffer take of the temporary file: no rune of it is lost,
and it grows by no more than a block of the largest size for each block that is made.

This is about the blocks alone, and holds whatever is in them.
-/
import Plan9.Acme.BuffSteps

namespace Plan9.Acme

open List Function

/-! ## The file -/

/-- The rune at `x` is in the block. -/
def Block.Has (k : Block) (x : Nat) : Prop := k.addr ≤ x ∧ x < k.addr + roundup k.n

/-- It is in a block on the free list for its size. -/
def Freed (d : Disk) (x : Nat) : Prop := ∃ i, ∃ a ∈ d.free i, a ≤ x ∧ x < a + i * Blockincr

/-- Every rune of the file is in a block of one's own, in a free one, or elsewhere. -/
def Covered (rest : Nat → Prop) (d : Disk) (own : List Block) : Prop :=
  ∀ x < d.addr, (∃ k ∈ own, k.Has x) ∨ Freed d x ∨ rest x

/-- From one disk to the other no rune is lost, and no more than `n` blocks are made. -/
structure Keeps (rest : Nat → Prop) (n : Nat) (d : Disk) (own : List Block) (d' : Disk) (own' : List Block) : Prop where
  addr : d.addr ≤ d'.addr
  room : d'.addr ≤ d.addr + n * Maxblock
  covered : d'.addr ≤ ADDRS → Covered rest d own → Covered rest d' own'

theorem roundup_le {n : Nat} (h : n ≤ Maxblock) : roundup n ≤ Maxblock := by
  rw [Maxblock] at h ⊢
  rw [roundup, Blockincr]
  split <;> omega

/-- It may fail. -/
abbrev May {α : Type} (Q : α → Prop) (x : Except String α) : Prop := Outcome (fun _ => True) Q x

section

variable {rest : Nat → Prop} {n m l : Nat} {d d' d'' : Disk} {own own' own'' : List Block} {b : Buffer} {k : Block}

theorem Keeps.refl (rest : Nat → Prop) (n : Nat) (d : Disk) (own : List Block) : Keeps rest n d own d own :=
  ⟨le_rfl, Nat.le_add_right _ _, fun _ => id⟩

theorem Keeps.trans (h : Keeps rest n d own d' own') (h' : Keeps rest m d' own' d'' own'') (hm : n + m = l) :
    Keeps rest l d own d'' own'' := by
  subst hm
  refine ⟨Nat.le_trans h.addr h'.addr, ?_, fun hle hc => h'.covered hle (h.covered (Nat.le_trans h'.addr hle) hc)⟩
  have := h.room
  have := h'.room
  rw [Nat.add_mul]
  omega

theorem Keeps.mono (h : Keeps rest n d own d' own') (hle : n ≤ m) : Keeps rest m d own d' own' :=
  ⟨h.addr, Nat.le_trans h.room (Nat.add_le_add_left (Nat.mul_le_mul_right _ hle) _), h.covered⟩

theorem Keeps.perm {own1 own1' : List Block} (h : Keeps rest n d own d' own') (hp : own1.Perm own) (hp' : own'.Perm own1') :
    Keeps rest n d own1 d' own1' := by
  refine ⟨h.addr, h.room, fun hle hc x hx => ?_⟩
  have hc' : Covered rest d own := fun x hx => (hc x hx).imp_left fun ⟨k, hk, hhas⟩ => ⟨k, hp.subset hk, hhas⟩
  exact (h.covered hle hc' x hx).imp_left fun ⟨k, hk, hhas⟩ => ⟨k, hp'.subset hk, hhas⟩

theorem disknewblock_keeps (rest : Nat → Prop) (own : List Block) (n : Nat) :
    May (fun x => Keeps rest 1 d own x.2 (x.1 :: own) ∧ x.1.n = n) (disknewblock d n) := by
  rw [disknewblock]
  by_cases hmax : n ≤ Maxblock
  · rw [ntosize_ok hmax]
    dsimp only [bind, Except.bind]
    cases hfree : d.free (roundup n / Blockincr) with
    | cons a as =>
      refine Outcome.ok ⟨⟨le_rfl, Nat.le_add_right _ _, fun _ hc x hx => ?_⟩, rfl⟩
      rcases hc x hx with ⟨k, hk, hhas⟩ | ⟨i, a', ha', hlo, hhi⟩ | hrest
      · exact .inl ⟨k, mem_cons_of_mem _ hk, hhas⟩
      · by_cases hi : i = roundup n / Blockincr
        · rw [hi, hfree] at ha'
          rcases mem_cons.1 ha' with rfl | ha'
          · refine .inl ⟨_, mem_cons_self, hlo, ?_⟩
            rw [hi, roundup_div] at hhi
            exact hhi
          refine .inr (.inl ⟨i, a', ?_, hlo, hhi⟩)
          change a' ∈ update d.free _ as i
          rw [hi, update_self]
          exact ha'
        refine .inr (.inl ⟨i, a', ?_, hlo, hhi⟩)
        change a' ∈ update d.free _ as i
        rw [update_of_ne hi]
        exact ha'
      · exact .inr (.inr hrest)
    | nil =>
      refine Outcome.ok ⟨⟨Nat.le_add_right _ _, ?_, fun hle hc x hx => ?_⟩, rfl⟩
      · change d.addr + roundup n ≤ d.addr + 1 * Maxblock
        rw [Nat.one_mul]
        exact Nat.add_le_add_left (roundup_le hmax) _
      change d.addr + roundup n ≤ ADDRS at hle
      change x < d.addr + roundup n at hx
      by_cases hold : x < d.addr
      · exact (hc x hold).imp_left fun h => h.imp fun _ hk => ⟨mem_cons_of_mem _ hk.1, hk.2⟩
      have haddr : d.addr % ADDRS = d.addr := Nat.mod_eq_of_lt (by omega)
      refine .inl ⟨_, mem_cons_self, ?_⟩
      rw [haddr]
      exact ⟨Nat.not_lt.1 hold, hx⟩
  · rw [ntosize, if_pos (Nat.not_le.1 hmax)]
    trivial

theorem diskrelease_keeps (rest : Nat → Prop) (own : List Block) (k : Block) :
    May (fun d' => Keeps rest 0 d (k :: own) d' own) (diskrelease d k) := by
  rw [diskrelease]
  by_cases hmax : k.n ≤ Maxblock
  · rw [ntosize_ok hmax]
    refine Outcome.ok ⟨le_rfl, Nat.le_add_right _ _, fun _ hc x hx => ?_⟩
    have hfreed : ∀ i, ∀ a ∈ d.free i, a ∈ update d.free (roundup k.n / Blockincr)
        (k.addr :: d.free (roundup k.n / Blockincr)) i := by
      intro i a ha
      by_cases hi : i = roundup k.n / Blockincr
      · rw [hi, update_self]
        exact mem_cons_of_mem _ (hi ▸ ha)
      · rw [update_of_ne hi]
        exact ha
    rcases hc x hx with ⟨k', hk', hhas⟩ | ⟨i, a, ha, hin⟩ | hrest
    · rcases mem_cons.1 hk' with rfl | hk'
      · refine .inr (.inl ⟨roundup k'.n / Blockincr, k'.addr, ?_, ?_⟩)
        · change k'.addr ∈ update d.free _ _ _
          rw [update_self]
          exact mem_cons_self
        · rw [roundup_div]
          exact hhas
      · exact .inl ⟨k', hk', hhas⟩
    · exact .inr (.inl ⟨i, a, hfreed i a ha, hin⟩)
    · exact .inr (.inr hrest)
  · rw [ntosize, if_pos (Nat.not_le.1 hmax)]
    trivial

theorem diskwrite_keeps (rest : Nat → Prop) (own : List Block) (k : Block) (r : List Rune) :
    May (fun x => Keeps rest 1 d (k :: own) x.2 (x.1 :: own)) (diskwrite d k r) := by
  rw [diskwrite]
  by_cases hk : k.n ≤ Maxblock
  · by_cases hr : r.length ≤ Maxblock
    · rw [ntosize_ok hk, ntosize_ok hr]
      have hwrite : ∀ {k' : Block} {d' : Disk}, Keeps rest 1 d (k :: own) d' (k' :: own) →
          roundup k'.n = roundup r.length → Keeps rest 1 d (k :: own) (pwrite d' r k'.addr) (⟨k'.addr, r.length⟩ :: own) := by
        intro k' d' h hsize
        refine ⟨h.addr, h.room, fun hle hc x hx => ?_⟩
        rcases h.covered hle hc x hx with ⟨j, hj, hhas⟩ | hfree
        · rcases mem_cons.1 hj with rfl | hj
          · refine .inl ⟨_, mem_cons_self, hhas.1, ?_⟩
            rw [← hsize]
            exact hhas.2
          · exact .inl ⟨j, mem_cons_of_mem _ hj, hhas⟩
        · exact .inr hfree
      change May _ ((if roundup k.n ≠ roundup r.length then _ else _) >>= _)
      by_cases hsame : roundup k.n = roundup r.length
      · rw [if_neg (not_not.2 hsame)]
        exact Outcome.ok (hwrite (Keeps.refl _ _ _ _) hsame)
      rw [if_pos hsame]
      have hmove : May (fun x => Keeps rest 1 d (k :: own) x.2 (x.1 :: own) ∧ x.1.n = r.length)
          (diskrelease d k >>= fun d => disknewblock d r.length) := by
        refine Outcome.bind (diskrelease_keeps rest own k) fun d' hrel => ?_
        refine (disknewblock_keeps rest own r.length).mono (fun _ => id) ?_
        rintro ⟨k', _⟩ ⟨hnew, hn⟩
        exact ⟨hrel.trans hnew rfl, hn⟩
      refine Outcome.bind hmove ?_
      rintro ⟨k', d'⟩ ⟨hkeeps, hn⟩
      exact Outcome.ok (hwrite hkeeps (congrArg roundup hn))
    · rw [ntosize_ok hk, ntosize, if_pos (Nat.not_le.1 hr)]
      trivial
  · rw [ntosize, if_pos (Nat.not_le.1 hk)]
    trivial

/-! ## The blocks of a buffer -/

theorem addblock_keeps (rest : Nat → Prop) (i n : Nat) : May (fun x => Keeps rest 1 d b.bl x.1 x.2.bl) (addblock d b i n) := by
  rw [addblock]
  split
  · trivial
  rename_i hi
  refine Outcome.bind (disknewblock_keeps rest b.bl n) ?_
  rintro ⟨k, _⟩ ⟨hkeeps, -⟩
  exact Outcome.ok (hkeeps.perm (.refl _) (perm_insertIdx k b.bl (Nat.not_lt.1 hi)).symm)

theorem block_perm {i : Nat} (h : b.block i = .ok k) :
    b.bl.Perm (k :: b.bl.eraseIdx i) ∧ ∀ k', (b.bl.set i k').Perm (k' :: b.bl.eraseIdx i) := by
  rw [Buffer.block] at h
  cases hk : b.bl[i]? with
  | none =>
    rw [hk] at h
    cases h
  | some k0 =>
    rw [hk] at h
    obtain rfl : k0 = k := Except.ok.inj h
    obtain ⟨hi, rfl⟩ := List.getElem?_eq_some_iff.1 hk
    exact ⟨(List.getElem_cons_eraseIdx_perm hi).symm, List.set_perm_cons_eraseIdx hi⟩

theorem delblock_keeps (rest : Nat → Prop) (i : Nat) : May (fun x => Keeps rest 0 d b.bl x.1 x.2.bl) (delblock d b i) := by
  rw [delblock]
  split
  · trivial
  cases hk : b.block i with
  | error e => trivial
  | ok k =>
    change May _ (diskrelease d k >>= _)
    refine Outcome.bind (diskrelease_keeps rest (b.bl.eraseIdx i) k) fun d' hrel => ?_
    exact Outcome.ok (hrel.perm (block_perm hk).1 (.refl _))

theorem writeblock_keeps (rest : Nat → Prop) (i : Nat) (r : List Rune) :
    May (fun x => Keeps rest 1 d b.bl x.1 x.2.bl) (writeblock d b i r) := by
  rw [writeblock]
  cases hk : b.block i with
  | error e => trivial
  | ok k =>
    change May _ (diskwrite d k r >>= _)
    refine Outcome.bind (diskwrite_keeps rest (b.bl.eraseIdx i) k r) ?_
    rintro ⟨k', _⟩ hkeeps
    exact Outcome.ok (hkeeps.perm (block_perm hk).1 ((block_perm hk).2 k').symm)

theorem flush_keeps (rest : Nat → Prop) : May (fun x => Keeps rest 1 d b.bl x.1 x.2.bl) (flush d b) := by
  have hgo : May (fun x => Keeps rest 1 d b.bl x.1 x.2.bl)
      (if b.cnc = 0 then delblock d b b.cbi else writeblock d b b.cbi b.c) := by
    split
    · exact (delblock_keeps rest b.cbi).mono (fun _ => id) fun _ hkeeps => hkeeps.mono (Nat.zero_le 1)
    · exact writeblock_keeps rest b.cbi b.c
  rw [flush]
  split
  · refine Outcome.bind hgo ?_
    rintro ⟨_, _⟩ hkeeps
    exact Outcome.ok hkeeps
  · exact Outcome.ok (Keeps.refl _ _ _ _)

theorem setcache_keeps (rest : Nat → Prop) (q0 : Nat) : May (fun x => Keeps rest 1 d b.bl x.1 x.2.bl) (setcache d b q0) := by
  rw [setcache]
  split
  · trivial
  split
  · exact Outcome.ok (Keeps.refl _ _ _ _)
  split
  · exact Outcome.ok (Keeps.refl _ _ _ _)
  refine Outcome.bind (flush_keeps rest) ?_
  rintro ⟨_, _⟩ hkeeps
  refine Outcome.bind Outcome.any ?_
  rintro ⟨k, i, q⟩ -
  exact Outcome.bind Outcome.any fun c _ => Outcome.ok hkeeps

/-- The cache is set; then the block in it is written and there is another, or there are two for what is cut off. -/
theorem insertStep_keeps (rest : Nat → Prop) (q0 : Nat) (s : List Rune) :
    May (fun x => Keeps rest 3 d b.bl x.1 x.2.1.bl) (insertStep d b q0 s) := by
  refine Outcome.bind (setcache_keeps rest q0) ?_
  rintro ⟨d1, b1⟩ h1
  dsimp only at h1 ⊢
  split
  · refine @Outcome.bind _ _ _ _ (fun x => Keeps rest 3 d b.bl x.1 x.2.bl) _ _ _ ?_ ?_
    · split
      · split
        · trivial
        · refine Outcome.bind (addblock_keeps rest 0 _) ?_
          rintro ⟨d2, b2⟩ h2
          exact Outcome.ok ((h1.trans h2 rfl).mono (by decide))
      · exact Outcome.ok (h1.mono (by decide))
    rintro ⟨d2, b2⟩ h2
    exact Outcome.ok h2
  split
  · have hflush : May (fun x => Keeps rest 2 d b.bl x.1 x.2.bl)
        (if b1.cdirty then flush d1 b1 else .ok (d1, b1)) := by
      split
      · exact (flush_keeps rest).mono (fun _ => id) fun x hx => h1.trans hx rfl
      · exact Outcome.ok (h1.mono (by decide))
    refine Outcome.bind hflush ?_
    rintro ⟨d2, b2⟩ h2
    refine Outcome.bind Outcome.any fun i _ => ?_
    refine Outcome.bind (addblock_keeps rest i _) ?_
    rintro ⟨d3, b3⟩ h3
    exact Outcome.ok (h2.trans h3 rfl)
  refine @Outcome.bind _ _ _ _ (fun x => Keeps rest 3 d b.bl x.1 x.2.bl) _ _ _ ?_ ?_
  · split
    · refine Outcome.bind (addblock_keeps rest _ _) ?_
      rintro ⟨d2, b2⟩ h2
      refine Outcome.bind (writeblock_keeps rest _ _) ?_
      rintro ⟨d3, b3⟩ h3
      exact Outcome.ok ((h1.trans h2 rfl).trans h3 rfl)
    · exact Outcome.ok (h1.mono (by decide))
  rintro ⟨d2, b2⟩ h2
  exact Outcome.ok h2

theorem insertLoop_keeps (rest : Nat → Prop) : ∀ (fuel : Nat) (d : Disk) (b : Buffer) (q0 : Nat) (s : List Rune),
    May (fun x => Keeps rest (3 * fuel) d b.bl x.1 x.2.bl) (insertLoop fuel d b q0 s)
  | 0, d, b, _, [] => Outcome.ok (Keeps.refl rest 0 d b.bl)
  | fuel + 1, d, b, _, [] => Outcome.ok (Keeps.refl rest (3 * (fuel + 1)) d b.bl)
  | 0, _, _, _, _ :: _ => trivial
  | fuel + 1, d, b, q0, r :: s => by
    rw [insertLoop]
    · refine Outcome.bind (insertStep_keeps rest q0 _) ?_
      rintro ⟨d', b', m⟩ h
      exact (insertLoop_keeps rest fuel d' b' _ _).mono (fun _ => id) fun x hx => h.trans hx (by omega)
    · simp

theorem deleteStep_keeps (rest : Nat → Prop) (q0 q1 : Nat) :
    May (fun x => Keeps rest 1 d b.bl x.1 x.2.1.bl) (deleteStep d b q0 q1) := by
  refine Outcome.bind (setcache_keeps rest q0) ?_
  rintro ⟨_, _⟩ h
  exact Outcome.ok h

theorem deleteLoop_keeps (rest : Nat → Prop) : ∀ (fuel : Nat) (d : Disk) (b : Buffer) (q0 q1 : Nat),
    May (fun x => Keeps rest fuel d b.bl x.1 x.2.bl) (deleteLoop fuel d b q0 q1) := by
  intro fuel
  induction fuel with
  | zero =>
    intro d b q0 q1
    rw [deleteLoop]
    split
    · trivial
    · exact Outcome.ok (Keeps.refl rest 0 d b.bl)
  | succ fuel ih =>
    intro d b q0 q1
    rw [deleteLoop]
    split
    · refine Outcome.bind (deleteStep_keeps rest q0 q1) ?_
      rintro ⟨d', b', n⟩ h
      exact (ih d' b' q0 _).mono (fun _ => id) fun x hx => h.trans hx (Nat.add_comm 1 fuel)
    · exact Outcome.ok (Keeps.refl rest _ d b.bl)

theorem readLoop_keeps (rest : Nat → Prop) : ∀ (fuel : Nat) (d : Disk) (b : Buffer) (q0 n : Nat) (s : List Rune),
    May (fun x => Keeps rest fuel d b.bl x.1 x.2.1.bl) (readLoop fuel d b q0 n s)
  | 0, d, b, _, 0, _ => Outcome.ok (Keeps.refl rest 0 d b.bl)
  | fuel + 1, d, b, _, 0, _ => Outcome.ok (Keeps.refl rest (fuel + 1) d b.bl)
  | 0, _, _, _, _ + 1, _ => trivial
  | fuel + 1, d, b, q0, n + 1, s => by
    rw [readLoop]
    · refine Outcome.bind (setcache_keeps rest q0) ?_
      rintro ⟨d', b'⟩ h
      exact (readLoop_keeps rest fuel d' b' _ _ _).mono (fun _ => id) fun x hx => h.trans hx (Nat.add_comm 1 fuel)
    · simp

theorem resetLoop_keeps (rest : Nat → Prop) : ∀ (i : Nat) (d : Disk) (b : Buffer),
    May (fun x => Keeps rest 0 d b.bl x.1 x.2.bl) (resetLoop i d b)
  | 0, d, b => Outcome.ok (Keeps.refl rest 0 d b.bl)
  | i + 1, d, b => by
    rw [resetLoop]
    refine Outcome.bind (delblock_keeps rest i) ?_
    rintro ⟨d', b'⟩ h
    exact (resetLoop_keeps rest i d' b').mono (fun _ => id) fun x hx => h.trans hx rfl

end

end Plan9.Acme
