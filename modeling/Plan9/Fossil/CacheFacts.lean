/-
What is on disk points only at what is on disk, as long as a block is copied only when what it points at is.

The invariant follows a slot from the value it has through the values saved for it,
newest first: each is of a block on disk, or the next dependency for the slot is
for it and the block is still to be written (`Chain`). The oldest saved value is thus always safe
to write, which is what `blockRollback` ends with. `vet` takes a dependency out only when the
block has been written, so the value before it in the chain has become safe;
`blockRemoveLink` takes out dependencies on a block that is not of an earlier epoch than the one that waits, and the
saved values are, because `blockWalk` copies no others; the roots saved in the super block are on disk.

A copy takes the pointers of the block but none of its dependencies, so a block that waits can be on disk, by its copy,
before what it waits for (`unsettled_copy`).
-/
import Plan9.Fossil.Cache
import Plan9.Fossil.SourceFacts

namespace Plan9.Fossil

open Function List

namespace Cache

variable {V : Type} [Slot V] {c c' : Cache V} {i : Nat} {x y : V} {ds : List (BList V)}

/-- The version of the block that is waited for is still to be written. -/
def Pending (c : Cache V) (d : BList V) : Prop :=
  d.key.part = .data ∧ ∃ b, c.block d.key = some b ∧ b.vers = d.vers ∧ b.iostate ≠ .clean

/-- The value of slot `i` and the values saved for it. -/
def Chain (c : Cache V) (i : Nat) : V → List (BList V) → Prop
  | x, [] => c.OnDisk x
  | x, d :: ds =>
    match d.index with
    | none => Chain c i x ds
    | some (j, old) =>
      if j = i then (c.OnDisk x ∨ Slot.addr x = some d.key.addr ∧ c.Pending d) ∧ Chain c i old ds
      else Chain c i x ds

/-! ## Chains -/

theorem Chain.swap (h : c.Chain i y ds) (hx : c.OnDisk x ∨ Slot.addr x = Slot.addr y) : c.Chain i x ds := by
  induction ds with
  | nil =>
    refine hx.elim id fun he a ha => h a ?_
    rwa [← he]
  | cons d ds ih =>
    unfold Chain at h ⊢
    split
    · rename_i hd
      rw [hd] at h
      exact ih h
    rename_i j old hd
    rw [hd] at h
    dsimp only at h
    split
    · rename_i hj
      rw [if_pos hj] at h
      refine ⟨hx.elim Or.inl fun he => h.1.imp (fun hy a ha => hy a ?_) fun hy => ⟨he.trans hy.1, hy.2⟩, h.2⟩
      rwa [← he]
    · rename_i hj
      rw [if_neg hj] at h
      exact ih h

variable {d : BList V} {p a vers : Nat} {b bb : CBlock V} {k : Key}

theorem Chain.tail (h : c.Chain i x (d :: ds)) (hx : c.OnDisk x) : c.Chain i x ds := by
  unfold Chain at h
  split at h
  · exact h
  · split at h
    · exact h.2.swap (Or.inl hx)
    · exact h

theorem Chain.head (h : c.Chain i x ds) : c.OnDisk x ∨ ∃ d ∈ ds, Slot.addr x = some d.key.addr ∧ c.Pending d := by
  induction ds with
  | nil => exact Or.inl h
  | cons d ds ih =>
    unfold Chain at h
    split at h
    · rcases ih h with hx | ⟨d', hd', hx⟩
      · exact Or.inl hx
      · exact Or.inr ⟨d', mem_cons_of_mem d hd', hx⟩
    split at h
    · rcases h.1 with hx | hx
      · exact Or.inl hx
      · exact Or.inr ⟨d, mem_cons_self, hx⟩
    · rcases ih h with hx | ⟨d', hd', hx⟩
      · exact Or.inl hx
      · exact Or.inr ⟨d', mem_cons_of_mem d hd', hx⟩

theorem Chain.saved (h : c.Chain i x ds) (hd : d ∈ ds) {old : V} (hi : d.index = some (i, old)) :
    ∃ ds', c.Chain i old ds' ∧ ∀ e ∈ ds', e ∈ ds := by
  induction ds generalizing x with
  | nil => cases hd
  | cons e ds ih =>
    unfold Chain at h
    rcases mem_cons.1 hd with rfl | hd
    · rw [hi] at h
      dsimp only at h
      rw [if_pos rfl] at h
      exact ⟨ds, h.2, fun e he => mem_cons_of_mem _ he⟩
    have hrest : ∃ y, c.Chain i y ds := by
      split at h
      · exact ⟨_, h⟩
      · split at h
        · exact ⟨_, h.2⟩
        · exact ⟨_, h⟩
    obtain ⟨y, hy⟩ := hrest
    obtain ⟨ds', hc, hsub⟩ := ih hy hd
    exact ⟨ds', hc, fun e' he' => mem_cons_of_mem _ (hsub e' he')⟩

theorem Chain.mono (h : c.Chain i x ds) (hx : c.OnDisk x → c'.OnDisk x)
    (hold : ∀ d ∈ ds, ∀ j old, d.index = some (j, old) → c.OnDisk old → c'.OnDisk old)
    (hp : ∀ d ∈ ds, c.Pending d → c'.Pending d ∨ c'.ondisk d.key.addr = true) : c'.Chain i x ds := by
  induction ds generalizing x with
  | nil => exact hx h
  | cons d ds ih =>
    have hold' := fun d' (hd' : d' ∈ ds) => hold d' (mem_cons_of_mem d hd')
    have hp' := fun d' (hd' : d' ∈ ds) => hp d' (mem_cons_of_mem d hd')
    unfold Chain at h ⊢
    split
    · rename_i hd
      rw [hd] at h
      exact ih h hx hold' hp'
    rename_i j old hd
    rw [hd] at h
    dsimp only at h
    split
    · rename_i hj
      rw [if_pos hj] at h
      refine ⟨?_, ih h.2 (hold d mem_cons_self j old hd) hold' hp'⟩
      rcases h.1 with hok | ⟨haddr, hpend⟩
      · exact Or.inl (hx hok)
      rcases hp d mem_cons_self hpend with hpend' | hdisk
      · exact Or.inr ⟨haddr, hpend'⟩
      refine Or.inl fun a ha => ?_
      rw [haddr] at ha
      cases ha
      exact hdisk
    · rename_i hj
      rw [if_neg hj] at h
      exact ih h hx hold' hp'

/-- From one state to the next, what is safe stays safe and what is waited for is pending or written. -/
structure Keeps (c c' : Cache V) : Prop where
  ondisk : ∀ a, c.ondisk a = true → c'.ondisk a = true
  pending : ∀ d : BList V, c.Pending d → c'.Pending d ∨ c'.ondisk d.key.addr = true

theorem Keeps.onDisk (h : Keeps c c') (hx : c.OnDisk x) : c'.OnDisk x := fun a ha => h.ondisk a (hx a ha)

theorem Chain.keeps (h : c.Chain i x ds) (hk : Keeps c c') : c'.Chain i x ds :=
  h.mono hk.onDisk (fun _ _ _ _ _ => hk.onDisk) fun d _ => hk.pending d

/-- `blockRollback` ends with safe values. -/
theorem Chain.rollback {part : Part} {buf image : Nat → V} (hr : blockRollback part ds buf = some image)
    (h : c.Chain i (buf i) ds) : c.OnDisk (image i) := by
  induction ds generalizing buf with
  | nil =>
    cases hr
    exact h
  | cons d ds ih =>
    unfold blockRollback at hr
    unfold Chain at h
    split at hr
    · cases hr
    rename_i j old hd
    rw [hd] at h
    dsimp only at h
    have hnext : ∀ v, Slot.addr v = Slot.addr old → c.Chain i (update buf j v i) ds := by
      intro v hv
      by_cases hj : j = i
      · subst hj
        rw [if_pos rfl] at h
        rw [update_self]
        exact h.2.swap (Or.inr hv)
      · rw [if_neg hj] at h
        rw [update_of_ne (Ne.symm hj)]
        exact h
    split at hr
    · cases hr
    · exact ih hr (hnext old rfl)
    split at hr
    · cases hr
    rename_i hj
    obtain rfl : j = 0 := not_not.1 hj
    split at hr
    · cases hr
    rename_i a ha
    exact ih hr (hnext _ ((Slot.addr_point _ _ (Slot.addr_lt _ _ ha)).trans ha.symm))

omit [Slot V] in
theorem not_pending_of_lookup
    (h : ∀ b, c.cacheLocalLookup d.key d.vers = some b → b.iostate = .clean) : ¬ c.Pending d := by
  rintro ⟨-, b, hb, hv, hd⟩
  apply hd
  apply h b
  unfold cacheLocalLookup
  rw [hb]
  exact if_pos hv

theorem Chain.drop (h : c.Chain i x (d :: ds)) (hd : ¬ c.Pending d) : c.Chain i x ds := by
  cases hi : d.index with
  | none =>
    unfold Chain at h
    rw [hi] at h
    exact h
  | some p =>
    unfold Chain at h
    rw [hi] at h
    dsimp only at h
    split at h
    · rcases h.1 with hx | hx
      · exact h.2.swap (Or.inl hx)
      · exact absurd hx.2 hd
    · exact h

variable {lockfail : Key → Bool} {addr lvers : Nat}

/-- The loop of `blockWrite` keeps every chain, and lets through only what can be rolled back. -/
theorem vet_chain {ok : Bool} : ∀ {ds l : List (BList V)} {dmap : List Nat} {x : V},
    c.vet lockfail dmap ds = some (l, ok) → (i ∈ dmap → c.OnDisk x) → c.Chain i x ds → c.Chain i x l := by
  intro ds
  induction ds with
  | nil =>
    intro l dmap x hv _ h
    cases hv
    exact h
  | cons d ds ih =>
    intro l dmap x hv hmap h
    unfold vet at hv
    by_cases hin : (d.index.elim false fun p => dmap.contains p.1) = true
    · -- a more recent dependency has succeeded
      rw [if_pos hin] at hv
      refine ih hv hmap ?_
      cases hi : d.index with
      | none =>
        rw [hi] at hin
        cases hin
      | some p =>
        obtain ⟨j, old⟩ := p
        by_cases hj : j = i
        · subst hj
          rw [hi] at hin
          exact h.tail (hmap (by simpa using hin))
        unfold Chain at h
        rw [hi] at h
        dsimp only at h
        rwa [if_neg hj] at h
    rw [if_neg hin] at hv
    split at hv
    · -- the block is written: the value is safe from here on
      rename_i hl
      have hnp : ¬ c.Pending d := not_pending_of_lookup fun b hb => by
        rw [hl] at hb
        cases hb
      refine ih hv ?_ (h.drop hnp)
      intro hmem
      cases hi : d.index with
      | none =>
        rw [hi] at hmem
        exact hmap hmem
      | some p =>
        obtain ⟨j, old⟩ := p
        rw [hi] at hmem
        rcases mem_cons.1 hmem with rfl | hmem
        · unfold Chain at h
          rw [hi] at h
          dsimp only at h
          rw [if_pos rfl] at h
          rcases h.1 with hx | hx
          · exact hx
          · exact absurd hx.2 hnp
        · exact hmap hmem
    rename_i bb hl
    split at hv
    · cases hv
      exact h
    split at hv
    · cases hv
    · rename_i hclean
      have hnp : ¬ c.Pending d := not_pending_of_lookup fun b hb => by
        rw [hl] at hb
        cases hb
        exact hclean
      exact ih hv hmap (h.drop hnp)
    split at hv
    · cases hv
      exact h
    rename_i p hi
    split at hv
    · cases hv
    rename_i l' ok' hv'
    cases hv
    obtain ⟨j, old⟩ := p
    unfold Chain at h ⊢
    rw [hi] at h ⊢
    dsimp only at h ⊢
    by_cases hj : j = i
    · rw [if_pos hj] at h ⊢
      refine ⟨h.1, ih hv' ?_ h.2⟩
      intro hmem
      rw [hi, hj] at hin
      exact absurd (contains_iff_mem.2 hmem) hin
    · rw [if_neg hj] at h ⊢
      exact ih hv' hmap h

omit [Slot V] in
theorem vet_sub {ok : Bool} : ∀ {ds l : List (BList V)} {dmap : List Nat},
    c.vet lockfail dmap ds = some (l, ok) → ∀ d ∈ l, d ∈ ds ∧ (ok = true → d.index ≠ none) := by
  intro ds
  induction ds with
  | nil =>
    intro l dmap hv d hd
    cases hv
    cases hd
  | cons e ds ih =>
    intro l dmap hv d hd
    have hskip : ∀ dmap', c.vet lockfail dmap' ds = some (l, ok) → d ∈ e :: ds ∧ (ok = true → d.index ≠ none) := by
      intro dmap' hv'
      obtain ⟨h1, h2⟩ := ih hv' d hd
      exact ⟨mem_cons_of_mem e h1, h2⟩
    unfold vet at hv
    split at hv
    · exact hskip _ hv
    split at hv
    · exact hskip _ hv
    split at hv
    · cases hv
      exact ⟨hd, nofun⟩
    split at hv
    · cases hv
    · exact hskip _ hv
    split at hv
    · cases hv
      exact ⟨hd, nofun⟩
    rename_i hi
    split at hv
    · cases hv
    rename_i l' ok' hv'
    cases hv
    rcases mem_cons.1 hd with rfl | hd
    · refine ⟨mem_cons_self, fun _ => ?_⟩
      rw [hi]
      exact Option.some_ne_none _
    · obtain ⟨h1, h2⟩ := ih hv' d hd
      exact ⟨mem_cons_of_mem _ h1, h2⟩

/-! ## The invariant -/

/-- For a block that was saved in one at `k`: of an earlier epoch, or for the super block on disk. -/
def Past (c : Cache V) (k : Key) (a : Nat) : Prop :=
  if k.part = .data then c.epoch a < c.epoch k.addr else c.ondisk a = true

/-- A block in memory is in order. -/
structure Good (c : Cache V) (k : Key) (b : CBlock V) : Prop where
  clean : b.iostate = .clean → b.prior = [] ∧ b.data = c.disk k
  chain : b.iostate ≠ .clean → ∀ i, c.Chain i (b.data i) b.prior
  target : k.part = .data → ∀ d ∈ b.prior, d.key.part = .data → c.epoch k.addr ≤ c.epoch d.key.addr
  saved : ∀ d ∈ b.prior, ∀ i old, d.index = some (i, old) → ∀ a, Slot.addr old = some a → c.Past k a
  vetted : b.iostate = .writing → ∀ d ∈ b.prior, d.index ≠ none

structure Inv (c : Cache V) : Prop where
  image : ∀ k, k.part ≠ .label → c.Written k → ∀ i, c.OnDisk (c.disk k i)
  label : ∀ n b, c.block ⟨.label, n⟩ = some b → b.prior = []
  upto : ∀ a, c.epoch a ≤ c.ehi
  good : ∀ k b, k.part ≠ .label → c.block k = some b → c.Good k b

theorem data_part (p : Nat) : (⟨.data, p⟩ : Key).part ≠ .label := Part.noConfusion

theorem ne_label {q : Key} (hq : q.part ≠ .label) (n : Nat) : q ≠ ⟨.label, n⟩ := fun he => hq (congrArg Key.part he)

theorem Inv.init (h : c.Init) : c.Inv := by
  obtain ⟨hnone, hdisk, hepoch⟩ := h
  refine ⟨hdisk, fun n b hb => ?_, hepoch, fun k b _ hb => ?_⟩
  · rw [hnone] at hb
    cases hb
  · rw [hnone] at hb
    cases hb

theorem Inv.chain_of_inUse (h : c.Inv) (hk : k.part ≠ .label) (hu : c.InUse k) (hb : c.block k = some b) (i : Nat) :
    c.Chain i (b.data i) b.prior := by
  by_cases hclean : b.iostate = .clean
  · obtain ⟨hprior, hdata⟩ := (h.good k b hk hb).clean hclean
    rw [hprior, hdata]
    rcases hu with hd | ⟨b', hb', hne⟩
    · exact h.image k hk hd i
    · rw [hb] at hb'
      cases hb'
      exact absurd hclean hne
  · exact (h.good k b hk hb).chain hclean i

/-- What the disk has stays; only free blocks get into the epoch. -/
structure Same (c c' : Cache V) : Prop where
  ehi : c.ehi ≤ c'.ehi
  disk : ∀ k, k.part ≠ .label → c'.disk k = c.disk k
  ondisk : c'.ondisk = c.ondisk
  epoch : ∀ a, c'.epoch a = c.epoch a ∨
    c'.epoch a = c'.ehi ∧ c.ondisk a = false ∧ ∀ b, c.block ⟨.data, a⟩ = some b → b.iostate = .clean
  label : ∀ n b, c'.block ⟨.label, n⟩ = some b → b.prior = []

theorem Chain.not_free (h : c.Chain i x ds) (hd : c.ondisk a = false)
    (hf : ∀ b, c.block ⟨.data, a⟩ = some b → b.iostate = .clean) : Slot.addr x ≠ some a := by
  intro hx
  rcases h.head with hok | ⟨⟨⟨part, addr⟩, vers, index⟩, -, haddr, hpart, b, hb, -, hne⟩
  · rw [hok a hx] at hd
    cases hd
  subst hpart
  rw [hx] at haddr
  cases haddr
  exact hne (hf b hb)

theorem Inv.grows (h : c.Inv) (hs : Same c c') (a : Nat) : c.epoch a ≤ c'.epoch a := by
  rcases hs.epoch a with he | ⟨he, -⟩
  · exact he.ge
  · rw [he]
    exact Nat.le_trans (h.upto a) hs.ehi

theorem Inv.target_next (h : c.Inv) (hs : Same c c') (hb : c.block ⟨.data, p⟩ = some b) (hd : d ∈ b.prior)
    (hpart : d.key.part = .data) : c'.epoch p ≤ c'.epoch d.key.addr := by
  have hg := h.good _ b (data_part p) hb
  rcases hs.epoch p with he | ⟨-, -, hfree⟩
  · rw [he]
    exact Nat.le_trans (hg.target rfl d hd hpart) (h.grows hs _)
  · -- a free block waits for nothing
    rw [(hg.clean (hfree b hb)).1] at hd
    cases hd

theorem Inv.past_next (h : c.Inv) (hs : Same c c') (hc : c.Chain i x ds) (hx : Slot.addr x = some a)
    (hp : c.Past k a) : c'.Past k a := by
  unfold Past at hp ⊢
  split
  · rename_i hdata
    rw [if_pos hdata] at hp
    rcases hs.epoch a with he | ⟨-, hdisk, hfree⟩
    · rw [he]
      exact Nat.lt_of_lt_of_le hp (h.grows hs _)
    · exact absurd hx (hc.not_free hdisk hfree)
  · rename_i hdata
    rwa [if_neg hdata, ← hs.ondisk] at hp

theorem Inv.saved_next (h : c.Inv) (hs : Same c c') (hk : k.part ≠ .label) (hb : c.block k = some b) :
    ∀ d ∈ b.prior, ∀ i old, d.index = some (i, old) → ∀ a, Slot.addr old = some a → c'.Past k a := by
  intro d hd i old hi a ha
  have hg := h.good k b hk hb
  have hne : b.iostate ≠ .clean := by
    intro hclean
    rw [(hg.clean hclean).1] at hd
    cases hd
  obtain ⟨_, hchain, -⟩ := (hg.chain hne i).saved hd hi
  exact h.past_next hs hchain ha (hg.saved d hd i old hi a ha)

/-- **A step that writes nothing** keeps the invariant if the blocks it changes are in order. -/
theorem Inv.next (h : c.Inv) (hs : Same c c') (hk : Keeps c c')
    (hblock : ∀ q b, q.part ≠ .label → c'.block q = some b → c.block q = some b ∨ c'.Good q b) : c'.Inv := by
  refine ⟨fun q hq hw i => ?_, hs.label, fun a => ?_, fun q b hq hb => ?_⟩
  · rw [hs.disk q hq]
    unfold Written at hw
    rw [hs.ondisk] at hw
    exact hk.onDisk (h.image q hq hw i)
  · rcases hs.epoch a with he | ⟨he, -⟩
    · rw [he]
      exact Nat.le_trans (h.upto a) hs.ehi
    · exact he.le
  rcases hblock q b hq hb with hb | hg
  · have hg := h.good q b hq hb
    refine ⟨?_, fun hne i => (hg.chain hne i).keeps hk, fun hpart d hd => ?_, h.saved_next hs hq hb, hg.vetted⟩
    · rw [hs.disk q hq]
      exact hg.clean
    · obtain ⟨_, p⟩ := q
      subst hpart
      exact h.target_next hs hb hd
  · exact hg

omit [Slot V] in
theorem keeps_put
    (hb : ∀ b0, c.block k = some b0 → b0.iostate ≠ .clean → b.vers = b0.vers ∧ b.iostate ≠ .clean) : Keeps c (c.put k b) := by
  refine ⟨fun a ha => ha, ?_⟩
  rintro d ⟨hpart, b', hb', hvers, hne⟩
  refine Or.inl ⟨hpart, ?_⟩
  by_cases hk : d.key = k
  · subst hk
    obtain ⟨h1, h2⟩ := hb b' hb' hne
    exact ⟨b, update_self _ _ _, h1.trans hvers, h2⟩
  · exact ⟨b', (update_of_ne hk _ _).trans hb', hvers, hne⟩

omit [Slot V] in
theorem put_of_ne {q : Key} (h : q ≠ k) (b : CBlock V) : (c.put k b).block q = c.block q := update_of_ne h _ _

omit [Slot V] in
theorem put_block {q : Key} {b' : CBlock V} (h : (c.put k b).block q = some b') : q = k ∧ b' = b ∨ c.block q = some b' := by
  by_cases hq : q = k
  · subst hq
    rw [show (c.put q b).block q = some b from update_self _ _ _] at h
    cases h
    exact Or.inl ⟨rfl, rfl⟩
  · exact Or.inr ((update_of_ne hq _ _).symm.trans h)

theorem Inv.put (h : c.Inv) (hk : k.part ≠ .label)
    (hv : ∀ b0, c.block k = some b0 → b0.iostate ≠ .clean → b.vers = b0.vers ∧ b.iostate ≠ .clean)
    (hg : Keeps c (c.put k b) → (c.put k b).Good k b) : (c.put k b).Inv := by
  have hkeep : Keeps c (c.put k b) := keeps_put hv
  refine h.next ⟨Nat.le_refl _, fun _ _ => rfl, rfl, fun _ => Or.inl rfl, ?_⟩ hkeep ?_
  · intro n b' hb'
    rcases put_block hb' with ⟨hq, -⟩ | hb'
    · exact absurd hq.symm (ne_label hk n)
    · exact h.label n b' hb'
  intro q b' _ hb'
  rcases put_block hb' with ⟨rfl, rfl⟩ | hb'
  · exact Or.inr (hg hkeep)
  · exact Or.inl hb'

theorem Inv.put_label (h : c.Inv) {n : Nat} (hb : b.prior = []) :
    (c.put ⟨.label, n⟩ b).Inv ∧ Keeps c (c.put ⟨.label, n⟩ b) := by
  have hk : Keeps c (c.put ⟨.label, n⟩ b) := by
    refine ⟨fun a ha => ha, ?_⟩
    rintro ⟨⟨_, addr⟩, _, _⟩ ⟨hpart, b', hb', hvers, hne⟩
    subst hpart
    exact Or.inl ⟨rfl, b', (put_of_ne (ne_label (data_part addr) n) b).trans hb', hvers, hne⟩
  refine ⟨h.next ⟨Nat.le_refl _, fun _ _ => rfl, rfl, fun _ => Or.inl rfl, ?_⟩ hk ?_, hk⟩
  · intro m b' hb'
    rcases put_block hb' with ⟨-, rfl⟩ | hb'
    · exact hb
    · exact h.label m b' hb'
  intro q b' hq hb'
  rcases put_block hb' with ⟨he, -⟩ | hb'
  · exact absurd he (ne_label hq n)
  · exact Or.inl hb'

/-- The next epoch begins. -/
theorem Inv.age (h : c.Inv) : { c with ehi := c.ehi + 1 }.Inv :=
  h.next ⟨Nat.le_succ _, fun _ _ => rfl, rfl, fun _ => Or.inl rfl, h.label⟩ ⟨fun _ ha => ha, fun _ hd => Or.inl hd⟩
    fun _ _ _ hb => Or.inl hb

/-! ## The steps -/

theorem Inv.load (h : c.Inv) (hs : c.cacheLocal k vers = some c') : c'.Inv := by
  unfold cacheLocal at hs
  split at hs
  · rename_i hnone
    cases hs
    obtain ⟨part, n⟩ := k
    by_cases hk : part = .label
    · subst hk
      exact (h.put_label rfl).1
    refine h.put hk (fun b0 hb0 => ?_) fun _ => ?_
    · rw [hnone] at hb0
      cases hb0
    · exact ⟨fun _ => ⟨rfl, rfl⟩, fun hne => absurd rfl hne, fun _ _ hd => absurd hd not_mem_nil,
        fun _ hd => absurd hd not_mem_nil, fun _ _ hd => absurd hd not_mem_nil⟩
  · cases hs
    exact h

theorem Inv.bump (h : c.Inv) (hs : c.cacheBumpBlock k = some c') : c'.Inv := by
  unfold cacheBumpBlock at hs
  split at hs
  · cases hs
  rename_i b hb
  split at hs
  · rename_i hclean
    cases hs
    have hcases : ∀ q b', update c.block k none q = some b' → c.block q = some b' := by
      intro q b' hb'
      by_cases hq : q = k
      · subst hq
        rw [update_self] at hb'
        cases hb'
      · rwa [update_of_ne hq] at hb'
    refine h.next ⟨Nat.le_refl _, fun _ _ => rfl, rfl, fun _ => Or.inl rfl, fun n b' hb' => h.label n b' (hcases _ _ hb')⟩
      ⟨fun a ha => ha, ?_⟩ fun q b' _ hb' => Or.inl (hcases _ _ hb')
    rintro d ⟨hpart, b', hb', hvers, hne⟩
    refine Or.inl ⟨hpart, b', ?_, hvers, hne⟩
    refine (update_of_ne ?_ _ _).trans hb'
    rintro hq
    rw [hq, hb] at hb'
    cases hb'
    exact hne hclean
  · cases hs

theorem Inv.clear (h : c.Inv) {i : Nat} (hu : c.InUse ⟨.data, p⟩) (hs : c.clearSlot p i = some c') : c'.Inv := by
  unfold clearSlot at hs
  split at hs
  · cases hs
  rename_i b hb
  split at hs
  · cases hs
  cases hs
  have hg := h.good _ b (data_part p) hb
  refine h.put (data_part p) (fun b0 hb0 _ => ?_) fun hk => ?_
  · rw [hb] at hb0
    cases hb0
    exact ⟨rfl, nofun⟩
  refine ⟨nofun, fun _ j => ?_, hg.target, hg.saved, nofun⟩
  have hchain := (h.chain_of_inUse (data_part p) hu hb j).keeps hk
  dsimp only
  by_cases hj : j = i
  · subst hj
    rw [update_self]
    refine hchain.swap (Or.inl fun a ha => ?_)
    rw [Slot.addr_nil] at ha
    cases ha
  · rw [update_of_ne hj]
    exact hchain

/-- Dependencies on a block are taken out: no value in the chain is of it, or it is on disk. -/
theorem Chain.filter (h : c.Chain i x ds) (hx : c.OnDisk x ∨ Slot.addr x ≠ some a)
    (hold : ∀ d ∈ ds, ∀ j old, d.index = some (j, old) → c.OnDisk old ∨ Slot.addr old ≠ some a) :
    c.Chain i x (ds.filter fun d => d.key ≠ ⟨.data, a⟩) := by
  induction ds generalizing x with
  | nil => exact h
  | cons d ds ih =>
    have hold' := fun d' (hd' : d' ∈ ds) => hold d' (mem_cons_of_mem d hd')
    by_cases hkey : d.key = ⟨.data, a⟩
    · rw [filter_cons_of_neg (by simp [hkey])]
      refine ih ?_ hx hold'
      cases hi : d.index with
      | none =>
        unfold Chain at h
        rw [hi] at h
        exact h
      | some q =>
        obtain ⟨j, old⟩ := q
        unfold Chain at h
        rw [hi] at h
        dsimp only at h
        split at h
        · rcases h.1 with hok | ⟨haddr, -⟩
          · exact h.2.swap (Or.inl hok)
          · rw [hkey] at haddr
            exact h.2.swap (Or.inl (hx.resolve_right (not_not.2 haddr)))
        · exact h
    rw [filter_cons_of_pos (by simpa using hkey)]
    cases hi : d.index with
    | none =>
      unfold Chain at h ⊢
      rw [hi] at h ⊢
      exact ih h hx hold'
    | some q =>
      obtain ⟨j, old⟩ := q
      unfold Chain at h ⊢
      rw [hi] at h ⊢
      dsimp only at h ⊢
      split
      · rename_i hj
        rw [if_pos hj] at h
        exact ⟨h.1, ih h.2 (hold d mem_cons_self j old hi) hold'⟩
      · rename_i hj
        rw [if_neg hj] at h
        exact ih h hx hold'

/-- **Removing a link** keeps the chains: what is saved is older than what is waited for, or on disk. -/
theorem Inv.removeLink (h : c.Inv)
    (hno : ∀ b, c.block k = some b → (∃ d ∈ b.prior, d.key = ⟨.data, a⟩) → ∀ i, Slot.addr (b.data i) ≠ some a)
    (hs : c.blockRemoveLink k a = some c') : c'.Inv := by
  unfold blockRemoveLink at hs
  split at hs
  · cases hs
  rename_i b hb
  split at hs
  · cases hs
  rename_i hw
  cases hs
  by_cases hk : k.part = .label
  · obtain ⟨_, n⟩ := k
    subst hk
    refine (h.put_label ?_).1
    rw [h.label n b hb]
    rfl
  have hg := h.good k b hk hb
  have hsub : ∀ d ∈ b.prior.filter (fun d => d.key ≠ ⟨.data, a⟩), d ∈ b.prior := fun d hd => (mem_filter.1 hd).1
  refine h.put hk (fun b0 hb0 hne => ?_) fun hkeep => ?_
  · rw [hb] at hb0
    cases hb0
    exact ⟨rfl, hne⟩
  refine ⟨fun hclean => ?_, fun hne i => ?_, fun hpart d hd => hg.target hpart d (hsub d hd),
    fun d hd => hg.saved d (hsub d hd), fun hwr => absurd hwr hw⟩
  · obtain ⟨hprior, hdata⟩ := hg.clean hclean
    refine ⟨?_, hdata⟩
    rw [hprior]
    rfl
  have hchain := (hg.chain hne i).keeps hkeep
  by_cases htarget : ∃ d ∈ b.prior, d.key = ⟨.data, a⟩
  · refine hchain.filter (Or.inr (hno b hb htarget i)) fun d' hd' j old hi => ?_
    have hpast := hg.saved d' hd' j old hi
    by_cases hpart : k.part = .data
    · refine Or.inr fun ha => ?_
      obtain ⟨d, hd, hkey⟩ := htarget
      have hle := hg.target hpart d hd (by rw [hkey])
      have hlt := hpast a ha
      rw [Past, if_pos hpart] at hlt
      rw [hkey] at hle
      exact absurd hlt (Nat.not_lt.2 hle)
    · refine Or.inl fun a' ha' => ?_
      have := hpast a' ha'
      rwa [Past, if_neg hpart] at this
  push Not at htarget
  have hfilter : b.prior.filter (fun d => d.key ≠ ⟨.data, a⟩) = b.prior :=
    filter_eq_self.2 fun d hd => by simpa using htarget d hd
  exact Eq.mpr (congrArg (Chain _ i (b.data i)) hfilter) hchain

theorem Inv.setLabel (h : c.Inv) (hs : c.blockSetLabel addr vers = some (c', d)) :
    c'.Inv ∧ d.key.part = .label ∧ d.index = none ∧ Same c c' ∧
      ∀ q : Key, q.part ≠ .label → c'.block q = c.block q := by
  have hdo : ∀ b : CBlock V, b.prior = [] → c' = c.put ⟨.label, addr / c.lpb⟩ b →
      c'.Inv ∧ Same c c' ∧ ∀ q : Key, q.part ≠ .label → c'.block q = c.block q := by
    rintro b hb rfl
    have hput := h.put_label (n := addr / c.lpb) hb
    exact ⟨hput.1, ⟨Nat.le_refl _, fun _ _ => rfl, rfl, fun _ => Or.inl rfl, hput.1.label⟩,
      fun q hq => put_of_ne (ne_label hq _) b⟩
  unfold blockSetLabel at hs
  dsimp only at hs
  split at hs
  · cases hs
    obtain ⟨h1, h2, h3⟩ := hdo _ rfl rfl
    exact ⟨h1, rfl, rfl, h2, h3⟩
  rename_i b hb
  split at hs
  · cases hs
  cases hs
  obtain ⟨h1, h2, h3⟩ := hdo { b with iostate := .dirty } (h.label _ b hb) rfl
  exact ⟨h1, rfl, rfl, h2, h3⟩

/-! ### Copying -/

/-- A new block at `a`. -/
structure Alloc (c c' : Cache V) (a : Nat) (bb : CBlock V) : Prop where
  free : c.ondisk a = false
  bound : a < 2 ^ 32 - 1
  clean : ∀ b, c.block ⟨.data, a⟩ = some b → b.iostate = .clean
  here : c'.block ⟨.data, a⟩ = some bb
  other : ∀ q : Key, q.part ≠ .label → q ≠ ⟨.data, a⟩ → c'.block q = c.block q
  ehi : c'.ehi = c.ehi
  disk : ∀ k, k.part ≠ .label → c'.disk k = c.disk k
  ondisk : c'.ondisk = c.ondisk
  epoch : c'.epoch = Function.update c.epoch a c.ehi
  label : ∀ n b, c'.block ⟨.label, n⟩ = some b → b.prior = []
  prior : ∀ d ∈ bb.prior, d.key.part = .label ∧ d.index = none

omit [Slot V] in
theorem freeVers_spec {v : Nat} (h : c.freeVers a vers = some v) :
    c.ondisk a = false ∧ a < 2 ^ 32 - 1 ∧ ∀ b, c.block ⟨.data, a⟩ = some b → b.iostate = .clean := by
  unfold freeVers at h
  split at h
  · cases h
  rename_i hn
  push Not at hn
  refine ⟨by simpa using hn.1, by omega, fun b hb => ?_⟩
  rw [hb] at h
  dsimp only at h
  split at h
  · assumption
  · cases h

theorem Inv.cacheAllocBlock (h : c.Inv) (hs : c.cacheAllocBlock a vers lvers = some (c', bb)) :
    Alloc c c' a bb := by
  unfold Cache.cacheAllocBlock at hs
  split at hs
  · cases hs
  rename_i v hv
  obtain ⟨hfree, hbound, hclean⟩ := freeVers_spec hv
  split at hs
  · cases hs
  rename_i c1 d hlabel
  obtain ⟨h1, hpart, hindex, hsame, hdata⟩ := h.setLabel hlabel
  have hkept : c1.epoch = c.epoch ∧ c1.ehi = c.ehi := by
    unfold blockSetLabel at hlabel
    dsimp only at hlabel
    split at hlabel
    · cases hlabel
      exact ⟨rfl, rfl⟩
    split at hlabel
    · cases hlabel
    · cases hlabel
      exact ⟨rfl, rfl⟩
  cases hs
  refine ⟨hfree, hbound, hclean, update_self _ _ _, fun q hq hne => ?_, hkept.2, hsame.disk, ?_, ?_, ?_, ?_⟩
  · exact (put_of_ne hne _).trans (hdata q hq)
  · rw [hsame.ondisk, ← hfree, update_eq_self]
  · rw [hkept.1, hkept.2]
  · intro n b hb
    have hkey : (⟨.label, n⟩ : Key) ≠ ⟨.data, a⟩ := (ne_label (data_part a) n).symm
    exact h1.label n b ((put_of_ne (c := c1) hkey ⟨fun _ => Slot.nil, v, .clean, [d]⟩).symm.trans hb)
  · intro d' hd'
    rw [mem_singleton.1 hd']
    exact ⟨hpart, hindex⟩

omit [Slot V] in
theorem Alloc.put {bb' : CBlock V} (h : Alloc c c' a bb)
    (hp : ∀ d ∈ bb'.prior, d.key.part = .label ∧ d.index = none) : Alloc c (c'.put ⟨.data, a⟩ bb') a bb' := by
  refine ⟨h.free, h.bound, h.clean, update_self _ _ _, fun q hq hne => ?_, h.ehi, h.disk, h.ondisk, h.epoch, ?_, hp⟩
  · exact (put_of_ne hne _).trans (h.other q hq hne)
  intro n b hb
  rcases put_block hb with ⟨hq, -⟩ | hb
  · exact absurd hq.symm (ne_label (data_part a) n)
  · exact h.label n b hb

omit [Slot V] in
theorem Alloc.setLabel (h : Alloc c c' a bb) {c1 : Cache V}
    (hs : c'.blockSetLabel addr vers = some (c1, d)) : Alloc c c1 a bb ∧ d.key.part = .label ∧ d.index = none := by
  have hput : ∀ n (b : CBlock V), b.prior = [] → Alloc c (c'.put ⟨.label, n⟩ b) a bb := by
    intro n b hb
    refine ⟨h.free, h.bound, h.clean, (put_of_ne (ne_label (data_part a) n) b).trans h.here,
      fun q hq hne => (put_of_ne (ne_label hq n) b).trans (h.other q hq hne), h.ehi, h.disk, h.ondisk, h.epoch, ?_, h.prior⟩
    intro m b' hb'
    rcases put_block hb' with ⟨-, rfl⟩ | hb'
    · exact hb
    · exact h.label m b' hb'
  unfold blockSetLabel at hs
  dsimp only at hs
  split at hs
  · cases hs
    exact ⟨hput _ _ rfl, rfl, rfl⟩
  rename_i b hb
  split at hs
  · cases hs
  · cases hs
    exact ⟨hput _ _ (h.label _ b hb), rfl, rfl⟩

theorem Inv.blockCopy (h : c.Inv) {b : Option Nat} {copied : Bool} {data : Nat → V}
    (hs : c.blockCopy b copied data a vers lvers = some (c', bb)) : Alloc c c' a bb ∧ bb.data = data ∧ bb.iostate = .dirty := by
  unfold Cache.blockCopy at hs
  split at hs
  · cases hs
  rename_i c1 bb1 halloc
  have h1 := h.cacheAllocBlock halloc
  split at hs
  · split at hs
    · cases hs
    rename_i c2 d hlabel
    obtain ⟨h2, hpart, hindex⟩ := h1.setLabel hlabel
    cases hs
    refine ⟨h2.put ?_, rfl, rfl⟩
    intro d' hd'
    rcases mem_cons.1 hd' with rfl | hd'
    · exact ⟨hpart, hindex⟩
    · exact h1.prior d' hd'
  · cases hs
    exact ⟨h1.put h1.prior, rfl, rfl⟩

theorem chain_labels (hx : c.OnDisk x) (h : ∀ d ∈ ds, d.index = none) : c.Chain i x ds := by
  induction ds with
  | nil => exact hx
  | cons d ds ih =>
    unfold Chain
    rw [h d mem_cons_self]
    exact ih fun d' hd' => h d' (mem_cons_of_mem d hd')

theorem oldBlock_spec {old : V} {venti data : Nat → V} {b : Option Nat} (hv : ∀ j, Slot.addr (venti j) = none)
    (hset : ∀ a bb, Slot.addr old = some a → c.epoch a ≠ c.ehi → c.block ⟨.data, a⟩ = some bb → ∀ j, c.OnDisk (bb.data j))
    (hs : c.oldBlock old venti = some (b, data)) :
    (∀ j, c.OnDisk (data j)) ∧ Slot.addr old = b ∧ ∀ a, b = some a → c.epoch a ≠ c.ehi := by
  unfold Cache.oldBlock at hs
  split at hs
  · rename_i hnone
    cases hs
    refine ⟨fun j a ha => ?_, hnone, nofun⟩
    rw [hv] at ha
    cases ha
  rename_i a haddr
  split at hs
  · cases hs
  rename_i he
  split at hs
  · cases hs
  rename_i bb hbb
  split at hs
  · cases hs
  cases hs
  refine ⟨hset a bb haddr he hbb, haddr, fun a' ha' => ?_⟩
  cases ha'
  exact he

/-- A slot is made to point at a new block. -/
theorem Inv.link (h : c.Inv) {i : Nat} {pb : CBlock V} (hk : k.part ≠ .label) (hu : c.InUse k) (hpb : c.block k = some pb)
    (ha : Alloc c c' a bb) (hdirty : bb.iostate = .dirty) (hdata : ∀ j, c.OnDisk (bb.data j))
    (hold : ∀ b, Slot.addr (pb.data i) = some b → c.Past k b) : (c'.setSlot k pb i a bb).Inv ∧ k ≠ ⟨.data, a⟩ := by
  have hka : k ≠ ⟨.data, a⟩ := by
    rintro rfl
    rcases hu with hd | ⟨b, hb, hne⟩
    · exact absurd ((hd rfl).symm.trans ha.free) Bool.noConfusion
    · exact hne (ha.clean b hb)
  refine ⟨?_, hka⟩
  have hself : ∃ newp, (c'.setSlot k pb i a bb).block k = some newp ∧ newp.vers = pb.vers ∧ newp.iostate = .dirty ∧
      newp.data = update pb.data i (Slot.point (pb.data i) a) ∧
      newp.prior = ⟨⟨.data, a⟩, bb.vers, some (i, pb.data i)⟩ :: pb.prior :=
    ⟨_, update_self _ _ _, rfl, rfl, rfl, rfl⟩
  have hblock : ∀ q, q ≠ k → (c'.setSlot k pb i a bb).block q = c'.block q := fun q hq => put_of_ne hq _
  have hepoch : ∀ q, (c'.setSlot k pb i a bb).epoch q = if q = a then c.ehi else c.epoch q := by
    intro q
    change c'.epoch q = _
    rw [ha.epoch, update_apply]
  have hsame : Same c (c'.setSlot k pb i a bb) := by
    refine ⟨ha.ehi.ge, ha.disk, ha.ondisk, fun q => ?_, fun n b hb => ?_⟩
    · rw [hepoch]
      split
      · rename_i hq
        subst hq
        exact Or.inr ⟨ha.ehi.symm, ha.free, ha.clean⟩
      · exact Or.inl rfl
    · rcases put_block hb with ⟨hq, -⟩ | hb
      · exact absurd hq.symm (ne_label hk n)
      · exact ha.label n b hb
  generalize c'.setSlot k pb i a bb = next at hself hblock hepoch hsame ⊢
  obtain ⟨newp, hself, hvers, hio, hnewdata, hprior⟩ := hself
  have hkeep : Keeps c next := by
    refine ⟨fun q hq => by rw [hsame.ondisk]; exact hq, ?_⟩
    rintro ⟨q, vers, _⟩ ⟨hpart, b, hb, hv, hne⟩
    refine Or.inl ⟨hpart, ?_⟩
    by_cases hqk : q = k
    · subst hqk
      rw [hpb] at hb
      cases hb
      refine ⟨newp, hself, hvers.trans hv, ?_⟩
      rw [hio]
      nofun
    have hqa : q ≠ ⟨.data, a⟩ := by
      rintro rfl
      exact hne (ha.clean b hb)
    have hq : q.part ≠ .label := by
      rw [show q.part = .data from hpart]
      exact Part.noConfusion
    exact ⟨b, (hblock q hqk).trans ((ha.other q hq hqa).trans hb), hv, hne⟩
  have hchain := fun j => (h.chain_of_inUse hk hu hpb j)
  refine h.next hsame hkeep fun q b hq hb => ?_
  by_cases hqk : q = k
  · subst hqk
    rw [hself] at hb
    cases hb
    refine Or.inr ⟨fun hclean => ?_, fun _ j => ?_, fun hpart d hd hdata => ?_, fun d hd j old hi a' ha' => ?_, fun hw => ?_⟩
    · rw [hio] at hclean
      cases hclean
    · rw [hprior, hnewdata]
      have hkept := (hchain j).keeps hkeep
      unfold Chain
      dsimp only
      split
      · -- the slot that was changed
        rename_i hj
        subst hj
        rw [update_self]
        refine ⟨Or.inr ⟨Slot.addr_point _ _ ha.bound, rfl, bb, (hblock _ hka.symm).trans ha.here, rfl, ?_⟩, hkept⟩
        rw [hdirty]
        nofun
      · rename_i hj
        rw [update_of_ne (Ne.symm hj)]
        exact hkept
    · obtain ⟨_, p⟩ := q
      subst hpart
      rw [hprior] at hd
      rcases mem_cons.1 hd with rfl | hd
      · have hpa : p ≠ a := fun he => hka (by rw [he])
        dsimp only
        rw [hepoch, hepoch, if_pos rfl, if_neg hpa]
        exact h.upto p
      · exact h.target_next hsame hpb hd hdata
    · rw [hprior] at hd
      rcases mem_cons.1 hd with rfl | hd
      · cases hi
        exact h.past_next hsame (hchain i) ha' (hold a' ha')
      · exact h.saved_next hsame hk hpb d hd j old hi a' ha'
    · rw [hio] at hw
      cases hw
  rw [hblock q hqk] at hb
  by_cases hqa : q = ⟨.data, a⟩
  · subst hqa
    rw [ha.here] at hb
    cases hb
    refine Or.inr ⟨fun hclean => ?_, fun _ j => ?_, fun _ d hd hpart => ?_, fun d hd j old hi => ?_, fun hw => ?_⟩
    · rw [hdirty] at hclean
      cases hclean
    · exact chain_labels (hkeep.onDisk (hdata j)) fun d hd => (ha.prior d hd).2
    · rw [(ha.prior d hd).1] at hpart
      cases hpart
    · rw [(ha.prior d hd).2] at hi
      cases hi
    · rw [hdirty] at hw
      cases hw
  · exact Or.inl ((ha.other q hq hqa).symm.trans hb)

/-- **Copy on write**. -/
theorem Inv.walk (h : c.Inv) {i : Nat} {venti : Nat → V} {copied : Bool} (hu : c.InUse ⟨.data, p⟩)
    (hv : ∀ j, Slot.addr (venti j) = none) (hset : c.Settled (.walk p i venti copied a vers lvers))
    (hs : c.blockWalk p i venti copied a vers lvers = some c') : c'.Inv := by
  unfold blockWalk at hs
  split at hs
  · cases hs
  rename_i pb hpb
  split at hs
  · cases hs
  rename_i hguard
  push Not at hguard
  split at hs
  · cases hs
  rename_i b data hold
  split at hs
  · cases hs
  rename_i c1 bb hcopy
  obtain ⟨ha, hbdata, hdirty⟩ := h.blockCopy hcopy
  obtain ⟨hdata, haddr, hepoch⟩ := oldBlock_spec hv (fun a bb => hset pb a bb hpb) hold
  rw [← hbdata] at hdata
  have hpast : ∀ b', b = some b' → c.epoch b' < c.epoch p := fun b' hb' =>
    hguard.2 ▸ Nat.lt_of_le_of_ne (h.upto b') (hepoch b' hb')
  obtain ⟨hlink, hpa⟩ := h.link (i := i) (data_part p) hu hpb ha hdirty hdata fun b' hb' => by
    rw [Past, if_pos rfl]
    exact hpast b' (haddr.symm.trans hb')
  split at hs
  · cases hs
    exact hlink
  rename_i b'
  refine hlink.removeLink (fun b hb => ?_) hs
  -- the old block is of an earlier epoch, so nothing waits for it
  rintro ⟨d, hd, hkey⟩
  exfalso
  have hba : b' ≠ a := by
    rintro rfl
    exact (h.chain_of_inUse (data_part p) hu hpb i).not_free ha.free ha.clean haddr
  have hle := (hlink.good _ b (data_part p) hb).target rfl d hd (by rw [hkey])
  rw [hkey] at hle
  change c1.epoch p ≤ c1.epoch b' at hle
  rw [ha.epoch, update_of_ne hba, update_of_ne fun he => hpa (by rw [he])] at hle
  exact absurd (hpast b' rfl) (Nat.not_lt.2 hle)

/-- **A new epoch**. -/
theorem Inv.bumpEpoch (h : c.Inv) {copied : Bool} (hset : c.Settled (.bumpEpoch copied a vers lvers))
    (hs : c.bumpEpoch copied a vers lvers = some c') : c'.Inv := by
  unfold Cache.bumpEpoch at hs
  split at hs
  · cases hs
  rename_i bs hbs
  split at hs
  · cases hs
  rename_i root hroot
  split at hs
  · cases hs
  rename_i b hb
  split at hs
  · cases hs
  split at hs
  · cases hs
  rename_i c1 bb hcopy
  cases hs
  obtain ⟨hdisk, hdata⟩ := hset bs root b hbs hroot hb
  obtain ⟨ha, hbdata, hdirty⟩ := h.age.blockCopy hcopy
  have hput : Alloc _ (c1.put ⟨.data, a⟩ { bb with data := update bb.data 1 (Slot.point (bb.data 1) root) }) a _ :=
    ha.put ha.prior
  refine (h.age.link (k := ⟨.super, 0⟩) Part.noConfusion (Or.inl Part.noConfusion) hbs hput hdirty (fun j => ?_) fun b' hb' => ?_).1
  · dsimp only
    by_cases hj : j = 1
    · subst hj
      rw [update_self]
      intro a' ha'
      rw [Slot.addr_point _ _ (Slot.addr_lt _ _ hroot)] at ha'
      cases ha'
      exact hdisk
    · rw [update_of_ne hj, hbdata]
      exact hdata j
  · rw [Past, if_neg Part.noConfusion]
    rw [hroot] at hb'
    cases hb'
    exact hdisk

/-- **Vetting a block** keeps its chains. -/
theorem Inv.write (h : c.Inv) (hs : c.blockWrite k lockfail = some c') : c'.Inv := by
  unfold blockWrite at hs
  split at hs
  · cases hs
  rename_i b hb
  split at hs
  · cases hs
    exact h
  rename_i hdirty
  push Not at hdirty
  have hput : ∀ l io ok, c.vet lockfail [] b.prior = some (l, ok) → io ≠ .clean → (io = .writing → ok = true) →
      (c.put k { b with prior := l, iostate := io }).Inv := by
    intro l io ok hv hio hok
    by_cases hk : k.part = .label
    · obtain ⟨_, n⟩ := k
      subst hk
      refine (h.put_label ?_).1
      rw [h.label n b hb] at hv
      cases hv
      rfl
    have hg := h.good k b hk hb
    have hsub := vet_sub hv
    refine h.put hk (fun b0 hb0 _ => ?_) fun hkeep => ?_
    · rw [hb] at hb0
      cases hb0
      exact ⟨rfl, hio⟩
    refine ⟨fun hclean => absurd hclean hio, fun _ i => ?_, fun hpart d hd => hg.target hpart d (hsub d hd).1,
      fun d hd => hg.saved d (hsub d hd).1, fun hwr d hd => (hsub d hd).2 (hok hwr)⟩
    have hchain := hg.chain (by rw [hdirty]; nofun) i
    exact (vet_chain hv nofun hchain).keeps hkeep
  split at hs
  · cases hs
  · rename_i l hv
    cases hs
    exact hput l .writing true hv nofun fun _ => rfl
  rename_i l hv
  cases hs
  have := hput l .dirty false hv nofun nofun
  rwa [← hdirty] at this

theorem Inv.reclaim (h : c.Inv) (hu : c.Unreferenced addr) :
    { c with ondisk := update c.ondisk addr false }.Inv := by
  obtain ⟨himage, hblocks⟩ := hu
  have hdisk : ∀ a, update c.ondisk addr false a = true → c.ondisk a = true := by
    intro a ha
    by_cases haddr : a = addr
    · subst haddr
      rw [update_self] at ha
      cases ha
    · rwa [update_of_ne haddr] at ha
  have hstays : ∀ x : V, Slot.addr x ≠ some addr → ∀ a, Slot.addr x = some a → c.ondisk a = true →
      update c.ondisk addr false a = true := by
    intro x hx a ha hok
    refine (update_of_ne ?_ _ _).trans hok
    rintro rfl
    exact hx ha
  have honDisk : ∀ x : V, Slot.addr x ≠ some addr → c.OnDisk x →
      { c with ondisk := update c.ondisk addr false }.OnDisk x := fun x hx hok a ha => hstays x hx a ha (hok a ha)
  refine ⟨?_, h.label, h.upto, fun k b hk hb => ?_⟩
  · intro k hk hw i
    have hw' : c.Written k := fun hpart => hdisk _ (hw hpart)
    exact honDisk _ (himage k hk hw' i) (h.image k hk hw' i)
  have hg := h.good k b hk hb
  refine ⟨hg.clean, fun hne i => ?_, hg.target, fun d hd i old hi a ha => ?_, hg.vetted⟩
  · obtain ⟨hdata, hprior⟩ := hblocks k b hk hb hne
    refine (hg.chain hne i).mono (honDisk _ (hdata i)) (fun d hd j old hi => honDisk _ (hprior d hd j old hi)) ?_
    exact fun d _ hp => Or.inl hp
  have hpast := hg.saved d hd i old hi a ha
  unfold Past at hpast ⊢
  split
  · rename_i hpart
    rwa [if_pos hpart] at hpast
  · rename_i hpart
    rw [if_neg hpart] at hpast
    have hne : b.iostate ≠ .clean := by
      intro hclean
      rw [(hg.clean hclean).1] at hd
      cases hd
    exact hstays old ((hblocks k b hk hb hne).2 d hd i old hi) a ha hpast

/-- What `diskThread` does to a block it writes. -/
structure Flushed (c c' : Cache V) (k : Key) (b : CBlock V) (image : Nat → V) : Prop where
  block : ∀ q b', c'.block q = some b' →
    q = k ∧ b' = { b with vers := c.vers, iostate := if b.prior.isEmpty then .clean else .dirty } ∨
      q ≠ k ∧ c.block q = some b'
  keeps : Keeps c c'
  here : c'.disk k = image
  disk : ∀ q, q ≠ k → c'.disk q = c.disk q
  written : ∀ q, q ≠ k → c'.Written q → c.Written q
  epoch : c'.epoch = c.epoch
  ehi : c'.ehi = c.ehi

omit [Slot V] in
theorem flushed (c : Cache V) (k : Key) (b : CBlock V) (image : Nat → V) :
    Flushed c
      { c with
        block := update c.block k (some { b with vers := c.vers, iostate := if b.prior.isEmpty then .clean else .dirty })
        disk := update c.disk k image
        vers := c.vers + 1
        ondisk := if k.part = .data then update c.ondisk k.addr true else c.ondisk } k b image where
  block := by
    intro q b' hb'
    by_cases hq : q = k
    · subst hq
      have hself := (update_self (β := fun _ => Option (CBlock V)) _ _ _).symm.trans hb'
      cases hself
      exact Or.inl ⟨rfl, rfl⟩
    · exact Or.inr ⟨hq, (update_of_ne hq _ _).symm.trans hb'⟩
  keeps := by
    refine ⟨fun a ha => ?_, ?_⟩
    · dsimp only
      split
      · rw [update_apply]
        split
        · rfl
        · exact ha
      · exact ha
    rintro ⟨q, vers, _⟩ ⟨hpart, b', hb', hvers, hne⟩
    by_cases hq : q = k
    · subst hq
      refine Or.inr ?_
      dsimp only at hpart ⊢
      rw [if_pos hpart]
      exact update_self _ _ _
    · exact Or.inl ⟨hpart, b', (update_of_ne hq _ _).trans hb', hvers, hne⟩
  here := update_self _ _ _
  disk := fun q hq => update_of_ne hq _ _
  written := by
    intro q hq hw hpart
    have ha := hw hpart
    dsimp only at ha
    split at ha
    · rename_i hk
      rwa [update_of_ne fun he => hq (congrArg₂ Key.mk (hpart.trans hk.symm) he)] at ha
    · exact ha
  epoch := rfl
  ehi := rfl

theorem Inv.flushed (h : c.Inv) {image : Nat → V} (hb : c.block k = some b)
    (hw : b.iostate = .writing) (hroll : blockRollback k.part b.prior b.data = some image) (hf : Flushed c c' k b image) :
    c'.Inv := by
  have hdirty : b.iostate ≠ .clean := by
    rw [hw]
    nofun
  have hpast : ∀ q a, c.Past q a → c'.Past q a := by
    intro q a hp
    unfold Past at hp ⊢
    rw [hf.epoch]
    split
    · rename_i hpart
      rwa [if_pos hpart] at hp
    · rename_i hpart
      rw [if_neg hpart] at hp
      exact hf.keeps.ondisk a hp
  refine ⟨fun q hq hwr i => ?_, fun n b' hb' => ?_, fun a => ?_, fun q b' hq hb' => ?_⟩
  · by_cases hqk : q = k
    · subst hqk
      rw [hf.here]
      exact hf.keeps.onDisk (((h.good q b hq hb).chain hdirty i).rollback hroll)
    · rw [hf.disk q hqk]
      exact hf.keeps.onDisk (h.image q hq (hf.written q hqk hwr) i)
  · rcases hf.block _ b' hb' with ⟨hk, rfl⟩ | ⟨-, hb'⟩
    · subst hk
      exact h.label n b hb
    · exact h.label n b' hb'
  · rw [hf.epoch, hf.ehi]
    exact h.upto a
  rcases hf.block q b' hb' with ⟨rfl, rfl⟩ | ⟨hqk, hb'⟩
  · have hg := h.good q b hq hb
    refine ⟨fun hclean => ?_, fun _ i => (hg.chain hdirty i).keeps hf.keeps, ?_,
      fun d hd i old hi a ha => hpast q a (hg.saved d hd i old hi a ha), fun hwr => ?_⟩
    · -- written as it is
      have hempty : b.prior = [] := by
        by_contra hne
        rw [if_neg (by simpa using hne)] at hclean
        cases hclean
      rw [hempty] at hroll
      cases hroll
      exact ⟨hempty, hf.here.symm⟩
    · rw [hf.epoch]
      exact hg.target
    · split at hwr <;> cases hwr
  · have hg := h.good q b' hq hb'
    refine ⟨?_, fun hne i => (hg.chain hne i).keeps hf.keeps, ?_,
      fun d hd i old hi a ha => hpast q a (hg.saved d hd i old hi a ha), hg.vetted⟩
    · rw [hf.disk q hqk]
      exact hg.clean
    · rw [hf.epoch]
      exact hg.target

/-- **A write reaches the disk**: its image points only at what is on disk. -/
theorem Inv.disk (h : c.Inv) (hs : c.diskThread k = some c') : c'.Inv := by
  unfold diskThread at hs
  split at hs
  · cases hs
  rename_i b hb
  split at hs
  · cases hs
  rename_i hw
  push Not at hw
  split at hs
  · cases hs
  rename_i image hroll
  cases hs
  exact h.flushed hb hw hroll (Cache.flushed c k b image)

/-! ## Runs -/

theorem Inv.step (h : c.Inv) {op : Op V} (hset : c.Settled op) (hs : c.Step op c') : c'.Inv := by
  obtain ⟨hlegal, hs⟩ := hs
  cases op with
  | load k vers => exact h.load hs
  | bump k => exact h.bump hs
  | walk p i venti copied addr vers lvers => exact h.walk hlegal.1 hlegal.2 hset hs
  | clear p i => exact h.clear hlegal hs
  | bumpEpoch copied addr vers lvers => exact h.bumpEpoch hset hs
  | removeLink k addr => exact h.removeLink (fun b hb _ => hlegal b hb) hs
  | setLabel addr vers =>
    obtain ⟨⟨_, d⟩, hlabel, rfl⟩ := Option.map_eq_some_iff.1 hs
    exact (h.setLabel hlabel).1
  | reclaim addr =>
    cases hs
    exact h.reclaim hlegal
  | write k lockfail => exact h.write hs
  | disk k => exact h.disk hs

theorem Inv.safe (h : c.Inv) : c.Safe := by
  intro k b hb hw d hd i old _
  refine Or.inl (h.image k (fun hk => ?_) hw i)
  obtain ⟨_, n⟩ := k
  subst hk
  rw [h.label n b hb] at hd
  cases hd

/-- **Crash safety**: if only settled blocks are copied, then at every moment of every run what is on disk points only
at blocks on disk. -/
theorem disk_points_at_disk (h : Trans.Reachable Init SettledStep c) :
    c.Safe ∧ ∀ k, k.part ≠ .label → c.Written k → ∀ i, c.OnDisk (c.disk k i) := by
  have hinv : c.Inv := h.invariant Inv (fun _ => Inv.init) fun _ _ _ hinv hs => hinv.step hs.1 hs.2
  exact ⟨hinv.safe, hinv.image⟩

end Cache

/-- The slots of fossil: scores, and entries by their score. -/
instance : Slot (Score ⊕ Entry) where
  addr := Sum.elim globalToLocal fun e => globalToLocal e.score
  nil := Sum.inl vtzeroscore
  point v a := v.map (fun _ => localToGlobal a) fun e => { e with score := localToGlobal a, isLocal := true }
  addr_nil := by decide
  addr_point := by
    rintro (v | v) a ha
    · exact globalToLocal_localToGlobal ha
    · exact globalToLocal_localToGlobal ha
  addr_lt := by
    rintro (v | v) a ha
    · exact globalToLocal_lt ha
    · exact globalToLocal_lt ha

namespace Cache

/-- A root of this epoch that points at a block of the last. -/
def twoBlocks : Cache (Score ⊕ Entry) where
  ehi := 1
  lpb := 8
  block := fun _ => none
  disk := fun k j =>
    if j = 0 then
      if k = ⟨.super, 0⟩ then Sum.inl (localToGlobal 0)
      else if k = ⟨.data, 0⟩ then Sum.inl (localToGlobal 1)
      else Sum.inl vtzeroscore
    else Sum.inl vtzeroscore
  vers := 1
  epoch := fun a => if a = 0 then 1 else 0
  ondisk := fun a => a = 0 ∨ a = 1

theorem twoBlocks_nil {k : Key} {j a : Nat} (h : Slot.addr (twoBlocks.disk k j) = some a) :
    j = 0 ∧ (k = ⟨.super, 0⟩ ∧ a = 0 ∨ k = ⟨.data, 0⟩ ∧ a = 1) := by
  unfold twoBlocks at h
  dsimp only at h
  split at h
  · rename_i hj
    split at h
    · rename_i hk
      cases h
      exact ⟨hj, Or.inl ⟨hk, rfl⟩⟩
    split at h
    · rename_i hk
      cases h
      exact ⟨hj, Or.inr ⟨hk, rfl⟩⟩
    · cases h
  · cases h

theorem twoBlocks_other {k : Key} {data : Nat → Score ⊕ Entry} {a : Nat} (h : ∀ i, i ≠ 0 → data i = twoBlocks.disk k i)
    (h0 : Slot.addr (data 0) ≠ some a) (i : Nat) : Slot.addr (data i) ≠ some a := by
  intro ha
  by_cases hi : i = 0
  · exact h0 (hi ▸ ha)
  · rw [h i hi] at ha
    exact hi (twoBlocks_nil ha).1

theorem twoBlocks_init : Init twoBlocks := by
  refine ⟨fun _ => rfl, fun k _ _ i a ha => ?_, fun a => ?_⟩
  · obtain ⟨-, ⟨-, rfl⟩ | ⟨-, rfl⟩⟩ := twoBlocks_nil ha
    · rfl
    · rfl
  · unfold twoBlocks
    dsimp only
    split <;> omega

/-- The root is copied for a new epoch and the block under it into the copy; the super block and the new root are written,
rolled back. -/
theorem disk_points_at_disk_copied : ∃ c : Cache (Score ⊕ Entry),
    ((∃ b, c.block ⟨.super, 0⟩ = some b ∧ Slot.addr (b.data 0) = some 2) ∧ Slot.addr (c.disk ⟨.super, 0⟩ 0) = some 0) ∧
    ((∃ b, c.block ⟨.data, 2⟩ = some b ∧ Slot.addr (b.data 0) = some 3) ∧ Slot.addr (c.disk ⟨.data, 2⟩ 0) = some 1) ∧
    c.Safe ∧ ∀ k, k.part ≠ .label → c.Written k → ∀ i, c.OnDisk (c.disk k i) := by
  have h1 : Trans.Reachable Init SettledStep _ := .next (.start twoBlocks_init) (a := .load ⟨.super, 0⟩ 0) ⟨trivial, trivial, rfl⟩
  have h2 : Trans.Reachable Init SettledStep _ := .next h1 (a := .load ⟨.data, 0⟩ 0) ⟨trivial, trivial, rfl⟩
  have h3 : Trans.Reachable Init SettledStep _ :=
    .next h2 (a := .bumpEpoch false 2 0 0) ⟨fun bs root b hbs hroot hb => by
      obtain rfl : _ = bs := Option.some.inj hbs
      obtain rfl : 0 = root := Option.some.inj hroot
      obtain rfl : _ = b := Option.some.inj hb
      exact ⟨rfl, twoBlocks_init.2.1 ⟨.data, 0⟩ Part.noConfusion fun _ => rfl⟩, trivial, rfl⟩
  have h4 : Trans.Reachable Init SettledStep _ := .next h3 (a := .load ⟨.data, 1⟩ 0) ⟨trivial, trivial, rfl⟩
  have h5 : Trans.Reachable Init SettledStep _ :=
    .next h4 (a := .walk 2 0 (fun _ => Sum.inl vtzeroscore) false 3 0 0) ⟨fun pb b bb hpb hb _ hbb j a ha => by
      obtain rfl : _ = pb := Option.some.inj hpb
      obtain rfl : 1 = b := Option.some.inj hb
      obtain rfl : _ = bb := Option.some.inj hbb
      exact absurd (twoBlocks_nil (k := ⟨.data, 1⟩) ha).2 (by simp),
      ⟨Or.inr ⟨_, rfl, by decide⟩, fun _ => (by decide : globalToLocal vtzeroscore = none)⟩, rfl⟩
  have h6 : Trans.Reachable Init SettledStep _ := .next h5 (a := .write ⟨.super, 0⟩ fun _ => false) ⟨trivial, trivial, rfl⟩
  have h7 : Trans.Reachable Init SettledStep _ := .next h6 (a := .disk ⟨.super, 0⟩) ⟨trivial, trivial, rfl⟩
  have h8 : Trans.Reachable Init SettledStep _ := .next h7 (a := .write ⟨.label, 0⟩ fun _ => false) ⟨trivial, trivial, rfl⟩
  have h9 : Trans.Reachable Init SettledStep _ := .next h8 (a := .disk ⟨.label, 0⟩) ⟨trivial, trivial, rfl⟩
  have h10 : Trans.Reachable Init SettledStep _ := .next h9 (a := .write ⟨.data, 2⟩ fun _ => false) ⟨trivial, trivial, rfl⟩
  have h11 : Trans.Reachable Init SettledStep _ := .next h10 (a := .disk ⟨.data, 2⟩) ⟨trivial, trivial, rfl⟩
  exact ⟨_, ⟨⟨_, rfl, by decide⟩, by decide⟩, ⟨⟨_, rfl, by decide⟩, by decide⟩, disk_points_at_disk h11⟩

/-- The block under the root is copied, and before the copy is written the root is copied for a new epoch. That copy is
written: it points at what is not on disk, and keeps doing so when its slot is cleared and used again. -/
theorem unsettled_copy : ∃ c : Cache (Score ⊕ Entry), Trans.Reachable Init Step c ∧ ¬c.Safe := by
  have h1 : Trans.Reachable Init Step _ := .next (.start twoBlocks_init) (a := .load ⟨.super, 0⟩ 0) ⟨trivial, rfl⟩
  have h2 : Trans.Reachable Init Step _ := .next h1 (a := .load ⟨.data, 0⟩ 0) ⟨trivial, rfl⟩
  have h3 : Trans.Reachable Init Step _ := .next h2 (a := .load ⟨.data, 1⟩ 0) ⟨trivial, rfl⟩
  have h4 : Trans.Reachable Init Step _ := .next h3 (a := .walk 0 0 (fun _ => Sum.inl vtzeroscore) false 2 0 0)
    ⟨⟨Or.inl fun _ => rfl, fun _ => (by decide : globalToLocal vtzeroscore = none)⟩, rfl⟩
  have h5 : Trans.Reachable Init Step _ := .next h4 (a := .bumpEpoch false 3 0 0) ⟨trivial, rfl⟩
  have h6 : Trans.Reachable Init Step _ := .next h5 (a := .write ⟨.super, 0⟩ fun _ => false) ⟨trivial, rfl⟩
  have h7 : Trans.Reachable Init Step _ := .next h6 (a := .disk ⟨.super, 0⟩) ⟨trivial, rfl⟩
  have h8 : Trans.Reachable Init Step _ := .next h7 (a := .removeLink ⟨.super, 0⟩ 0)
    ⟨fun b hb i => by
      obtain rfl : _ = b := Option.some.inj hb
      exact twoBlocks_other (k := ⟨.super, 0⟩) (fun i hi => update_of_ne hi _ _) (by decide) i, rfl⟩
  have h9 : Trans.Reachable Init Step _ := .next h8 (a := .write ⟨.label, 0⟩ fun _ => false) ⟨trivial, rfl⟩
  have h10 : Trans.Reachable Init Step _ := .next h9 (a := .disk ⟨.label, 0⟩) ⟨trivial, rfl⟩
  have h11 : Trans.Reachable Init Step _ := .next h10 (a := .write ⟨.data, 3⟩ fun _ => false) ⟨trivial, rfl⟩
  have h12 : Trans.Reachable Init Step _ := .next h11 (a := .disk ⟨.data, 3⟩) ⟨trivial, rfl⟩
  have h13 : Trans.Reachable Init Step _ := .next h12 (a := .clear 3 0) ⟨Or.inl fun _ => rfl, rfl⟩
  have h14 : Trans.Reachable Init Step _ := .next h13 (a := .walk 3 0 (fun _ => Sum.inl vtzeroscore) false 4 0 0)
    ⟨⟨Or.inl fun _ => rfl, fun _ => (by decide : globalToLocal vtzeroscore = none)⟩, rfl⟩
  refine ⟨_, h14, fun hsafe => ?_⟩
  rcases hsafe ⟨.data, 3⟩ _ rfl (fun _ => rfl) _ mem_cons_self 0 _ rfl with hdisk | ⟨d, hd, old, hi, haddr⟩
  · exact absurd (hdisk 2 (by decide)) (by decide)
  · obtain rfl := mem_singleton.1 hd
    cases hi
    exact absurd haddr (by decide)

end Cache

end Plan9.Fossil
