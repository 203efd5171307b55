/-
A file made smaller and then larger: what reads as zero.

The bytes from the new end on read as zero exactly when, for each of them, the
blocks on the way to the new end down to the one where the way to the byte parts
could be written, or the byte was zero before. `sourceShrinkSize` gives up at the first
block that belongs to an older epoch or to venti, and its result is not looked at.
-/
import Plan9.Fossil.ReadFacts

namespace Plan9.Fossil

open Memory

/-! ## What is known of a file -/

/-- Pointers in what is archived are never local addresses. -/
def Fs.Archived (fs : Fs) : Prop :=
  ∀ score type data i, level type ≠ 0 → fs.venti score type = some data → globalToLocal (pointer data i) = none

/-- An entry that opens: the flag for a local root says what the score is. -/
structure Entry.Opens (e : Entry) : Prop where
  ok : e.Ok
  score : e.score.length = vtScoreSize
  tagged : e.isLocal = true → e.tag ≠ 0
  placed : e.isLocal = false → globalToLocal e.score = none

/-- The tree goes through the local block at `addr`. -/
def Uses (fs : Fs) (g : Shape) (tag : Nat) : Nat → Score → Nat → Prop
  | 0, score, addr => globalToLocal score = some addr
  | d + 1, score, addr =>
    globalToLocal score = some addr ∨
      ∃ b i, fs.cacheGlobal score (g.base + (d + 1)) tag = some b ∧ i < g.np ∧ Uses fs g tag d (pointer b.data i) addr

/-- New blocks are different and not of the file. -/
structure Fresh (env : Env) (f : File) : Prop where
  once : ∀ j k addr, env.alloc j = some addr → env.alloc k = some addr → j = k
  unused : ∀ k addr, env.alloc k = some addr → ¬ Uses f.fs f.ent.shape f.ent.tag f.ent.depth f.ent.score addr

/-- The byte at `x` is erased when the size becomes `n`, or was zero. -/
def File.Clears (env : Env) (f : File) (n x : Nat) : Prop :=
  let d := sizeToDepth n f.ent.psize f.ent.dsize
  Writable f.fs f.ent.shape f.ent.tag d (f.newRoot env n) n x ∨
    look f.fs f.ent.shape f.ent.tag d (f.newRoot env n) x = some 0

/-! ## Scores of blocks -/

variable {env : Env} {fs fs' : Fs} {f f' : File} {score : Score} {e ent : Entry} {type : Nat} {b : Block}

theorem cacheGlobal_global (h : globalToLocal score = none) (hv : fs'.venti = fs.venti)
    (type tag tag' : Nat) : fs'.cacheGlobal score type tag' = fs.cacheGlobal score type tag := by
  unfold Fs.cacheGlobal
  rw [h, hv]

theorem cacheGlobal_congr {score' : Score} {addr : Nat} (h : globalToLocal score = some addr)
    (h' : globalToLocal score' = some addr) (type tag : Nat) :
    fs.cacheGlobal score' type tag = fs.cacheGlobal score type tag := by
  unfold Fs.cacheGlobal
  rw [h, h']

variable {e' : Entry} {n tag d : Nat} {g : Shape}

theorem cacheGlobal_none (h : fs.cacheGlobal score type tag = some b)
    (hg : globalToLocal score = none) :
    b.score = score ∧ b.addr = none ∧ (b.data = zeroData type ∨ fs.venti score type = some b.data) := by
  unfold Fs.cacheGlobal at h
  rw [hg] at h
  dsimp only at h
  split at h
  · cases h
    exact ⟨rfl, rfl, Or.inl rfl⟩
  split at h
  · cases h
  · rename_i data hv
    cases h
    exact ⟨rfl, rfl, Or.inr hv⟩

theorem cacheGlobal_some {addr : Nat}
    (h : fs.cacheGlobal score type tag = some b) (hg : globalToLocal score = some addr) : b.addr = some addr := by
  unfold Fs.cacheGlobal at h
  rw [hg] at h
  dsimp only at h
  unfold Fs.cacheLocalData at h
  split at h
  · cases h
  split at h
  · cases h
  · cases h
    rfl

/-- A block's own score leads where the score it was found by leads. -/
theorem cacheGlobal_score (h : fs.cacheGlobal score type tag = some b)
    (type' tag' : Nat) : fs'.cacheGlobal b.score type' tag' = fs'.cacheGlobal score type' tag' := by
  cases hg : globalToLocal score with
  | none => rw [(cacheGlobal_none h hg).1]
  | some addr =>
    obtain ⟨-, -, -, hs⟩ := cacheGlobal_addr h (cacheGlobal_some h hg)
    rw [hs]
    exact cacheGlobal_congr hg (globalToLocal_localToGlobal (globalToLocal_lt hg)) _ _

theorem look_congr {tag' : Nat} {score' : Score}
    (h : ∀ type, fs'.cacheGlobal score' type tag' = fs.cacheGlobal score type tag) (hsub : ∀ d' score x, d' < d → look fs' g tag' d' score x = look fs g tag d' score x) (x : Nat) :
    look fs' g tag' d score' x = look fs g tag d score x := by
  cases d with
  | zero =>
    unfold look
    rw [h]
  | succ d =>
    unfold look
    rw [h]
    cases fs.cacheGlobal score (g.base + (d + 1)) tag with
    | none => rfl
    | some b => exact hsub d _ _ (Nat.lt_succ_self d)

theorem pointer_global (ha : fs.Archived)
    (h : fs.cacheGlobal score type tag = some b) (hg : globalToLocal score = none) (hl : level type ≠ 0) (i : Nat) :
    globalToLocal (pointer b.data i) = none := by
  rcases (cacheGlobal_none h hg).2.2 with hz | hv
  · rw [hz, pointer_zeroData hl]
    exact globalToLocal_zero
  · exact ha _ _ _ i hl hv

theorem Shape.Wide.level (hg : g.Wide) (hd : d < 7) : level (g.base + (d + 1)) ≠ 0 := by
  unfold Fossil.level
  rcases hg.base with h | h <;> omega

theorem look_global (ha : fs.Archived) (hv : fs'.venti = fs.venti) (hg : g.Wide) (tag tag' : Nat) :
    ∀ d, d ≤ 7 → ∀ score x, globalToLocal score = none → look fs' g tag' d score x = look fs g tag d score x := by
  intro d
  induction d with
  | zero =>
    intro _ score x h
    unfold look
    rw [cacheGlobal_global h hv]
  | succ d ih =>
    intro hd score x h
    unfold look
    rw [cacheGlobal_global h hv _ tag]
    cases hb : fs.cacheGlobal score (g.base + (d + 1)) tag with
    | none => rfl
    | some b => exact ih (by omega) _ _ (pointer_global ha hb h (hg.level (by omega)) _)

theorem Shape.Wide.index_lt (hg : g.Wide) {x : Nat} (hx : x < g.span (d + 1)) : x / g.span d < g.np :=
  (Nat.div_lt_iff_lt_mul (hg.span_pos d)).2 (by
    rw [Nat.mul_comm, ← Shape.span_succ]
    exact hx)

/-- Only the blocks a tree goes through matter for it. -/
theorem look_uses (hv : fs'.venti = fs.venti) (hg : g.Wide) :
    ∀ d score x, x < g.span d → (∀ addr, Uses fs g tag d score addr → fs'.block addr = fs.block addr) →
      look fs' g tag d score x = look fs g tag d score x := by
  have hcache : ∀ score type, (∀ addr, globalToLocal score = some addr → fs'.block addr = fs.block addr) →
      fs'.cacheGlobal score type tag = fs.cacheGlobal score type tag := by
    intro score type h
    unfold Fs.cacheGlobal
    cases hg : globalToLocal score with
    | none => rw [hv]
    | some addr =>
      dsimp only
      unfold Fs.cacheLocalData
      rw [h addr hg]
  intro d
  induction d with
  | zero =>
    intro score x _ h
    unfold look
    rw [hcache score g.base h]
  | succ d ih =>
    intro score x hx h
    unfold look
    rw [hcache score _ fun addr hg => h addr (Or.inl hg)]
    cases hb : fs.cacheGlobal score (g.base + (d + 1)) tag with
    | none => rfl
    | some b =>
      exact ih _ _ (Nat.mod_lt _ (hg.span_pos d)) fun addr hu => h addr (Or.inr ⟨b, _, hb, hg.index_lt hx, hu⟩)

/-! ## The smaller size -/

/-- The walk to a new root: where it ends, the block above is at a level above, and after the first
step the types asked for are at least the one of the old root. -/
theorem shrinkLoop_spec (h0 : 0 < type) : ∀ n ob b k,
    (∃ s t tg, fs.cacheGlobal s t tg = some b ∧ type < t + k + 1) →
    let r := shrinkLoop fs tag n ob b (type + k) k
    r = (ob, b, k) ∨
      (k < r.2.2 ∧ (r.2.2 = k + 1 → r.1 = b) ∧ (∃ s t tg, fs.cacheGlobal s t tg = some r.1 ∧ type < t + r.2.2) ∧
        ∃ t, t + 2 = type + r.2.2 ∧ fs.cacheGlobal (pointer r.1.data 0) t tag = some r.2.1) := by
  intro n
  induction n with
  | zero =>
    intro ob b k _
    exact Or.inl rfl
  | succ n ih =>
    intro ob b k hb
    unfold shrinkLoop
    cases hnb : fs.cacheGlobal (pointer b.data 0) (type + k - 1) tag with
    | none => exact Or.inl rfl
    | some nb =>
      refine Or.inr ?_
      dsimp only
      rw [Nat.add_assoc]
      rcases ih b nb (k + 1) ⟨_, _, _, hnb, by omega⟩ with hstop | ⟨hlt, -, hob, hroot⟩
      · rw [hstop]
        obtain ⟨s, t, tg, hb, hlt⟩ := hb
        exact ⟨by dsimp only; omega, fun _ => rfl, ⟨s, t, tg, hb, by dsimp only; omega⟩, _, by dsimp only; omega, hnb⟩
      · exact ⟨by omega, fun heq => by omega, hob, hroot⟩

theorem shrinkLoop_count (fs : Fs) (tag : Nat) : ∀ n ob b type k, (shrinkLoop fs tag n ob b type k).2.2 ≤ k + n := by
  intro n
  induction n with
  | zero =>
    intro ob b type k
    exact Nat.le_refl k
  | succ n ih =>
    intro ob b type k
    unfold shrinkLoop
    split
    · exact Nat.le_add_right _ _
    · have := ih b ‹_› (type + 1) (k + 1)
      omega

theorem sourceShrinkDepth_done {depth : Nat} (hlt : depth < e.depth)
    (h : sourceShrinkDepth env fs e e depth = some (fs', e', ent, true)) :
    ∃ rb ob b, fs.cacheGlobal e.score e.entryType e.tag = some rb ∧
      shrinkLoop fs (if e.tag = 0 then env.tag else e.tag) (e.depth - depth) rb rb e.entryType 0 = (ob, b, e.depth - depth) ∧
      e' = { e with
        depth := depth
        isLocal := if globalToLocal b.score = none then false else e.isLocal
        score := b.score } ∧
      fs' = fs.write ob (store ob.data 0 vtzeroscore) := by
  unfold sourceShrinkDepth at h
  cases hrb : fs.cacheGlobal e.score e.entryType e.tag with
  | none =>
    rw [hrb] at h
    cases h
  | some rb =>
    rw [hrb] at h
    cases hr : shrinkLoop fs (if e.tag = 0 then env.tag else e.tag) (e.depth - depth) rb rb e.entryType 0 with
    | mk ob r =>
      cases r with
      | mk b k =>
        have hcount := shrinkLoop_count fs (if e.tag = 0 then env.tag else e.tag) (e.depth - depth) rb rb e.entryType 0
        rw [hr] at hcount
        dsimp only at h hcount
        rw [hr] at h
        split at h
        · cases h
        split at h
        · cases h
        split at h
        · cases h
        simp only [Option.some.injEq, Prod.mk.injEq, decide_eq_true_eq] at h
        obtain ⟨hfs, he, -, hd⟩ := h
        have hk : k = e.depth - depth := by omega
        subst hk
        rw [hd] at he
        exact ⟨rb, ob, b, rfl, hr, he.symm, hfs.symm⟩

/-- The root can be read under this tag, or under any, or under none. -/
def Kind (fs : Fs) (g : Shape) (e : Entry) : Prop :=
  (e.isLocal = true ∧ e.tag ≠ 0) ∨ globalToLocal e.score = none ∨ ∀ tag, fs.cacheGlobal e.score (g.base + e.depth) tag = none

/-- The entry once its depth is changed. -/
structure Rooted (env : Env) (f : File) (n : Nat) (fs : Fs) (e : Entry) : Prop where
  depth : e.depth = sizeToDepth n f.ent.psize f.ent.dsize
  root : e.score = f.newRoot env n
  tag : e.tag = f.ent.tag
  shape : e.shape = f.ent.shape
  psize : e.psize = f.ent.psize
  dsize : e.dsize = f.ent.dsize
  gen : e.gen = f.ent.gen
  packs : e.Packs
  score : e.score.length = vtScoreSize
  kind : Kind fs f.ent.shape e
  below : Below (f.ent.shape.base + e.depth) f.fs fs

theorem length_score (h : fs.cacheGlobal score type tag = some b)
    (hs : score.length = vtScoreSize) : b.score.length = vtScoreSize := by
  cases hg : globalToLocal score with
  | none =>
    rw [(cacheGlobal_none h hg).1]
    exact hs
  | some addr =>
    obtain ⟨-, -, -, hscore⟩ := cacheGlobal_addr h (cacheGlobal_some h hg)
    rw [hscore]
    rfl

theorem globalToLocal_score (h : fs.cacheGlobal score type tag = some b) :
    globalToLocal b.score = globalToLocal score := by
  cases hg : globalToLocal score with
  | none =>
    rw [(cacheGlobal_none h hg).1]
    exact hg
  | some addr =>
    obtain ⟨-, -, -, hscore⟩ := cacheGlobal_addr h (cacheGlobal_some h hg)
    rw [hscore]
    exact globalToLocal_localToGlobal (globalToLocal_lt hg)

theorem rooted_shrink (ho : f.ent.Opens) (ha : f.fs.Archived) (h0 : n ≠ 0)
    (hlt : sizeToDepth n f.ent.psize f.ent.dsize < f.ent.depth)
    (h : sourceShrinkDepth env f.fs f.ent f.ent (sizeToDepth n f.ent.psize f.ent.dsize) = some (fs, e, ent, true)) :
    Rooted env f n fs e := by
  obtain ⟨_, -, _⟩ := ho.ok.bounds
  obtain ⟨rb, ob, b, hrb, hloop, rfl, rfl⟩ := sourceShrinkDepth_done hlt h
  have htype : f.ent.entryType = f.ent.shape.base + f.ent.depth := rfl
  have hspec := @shrinkLoop_spec f.fs f.ent.entryType (if f.ent.tag = 0 then env.tag else f.ent.tag) (by omega)
    (f.ent.depth - sizeToDepth n f.ent.psize f.ent.dsize) rb rb 0 ⟨_, _, _, hrb, by omega⟩
  rw [Nat.add_zero, hloop] at hspec
  rcases hspec with hstop | ⟨-, hone, ⟨s, t, tg, hob, hobt⟩, t', ht', hb⟩
  · simp only [Prod.mk.injEq] at hstop
    omega
  dsimp only at hone hobt ht' hb
  have hbelow : Below (f.ent.shape.base + sizeToDepth n f.ent.psize f.ent.dsize) f.fs
      (f.fs.write ob (store ob.data 0 vtzeroscore)) := write_below hob (by omega) _
  refine ⟨rfl, ?_, rfl, rfl, rfl, rfl, rfl, packs_shrunk _ _ _, length_score hb length_load, ?_, hbelow⟩
  · unfold File.newRoot
    rw [if_neg h0, if_pos hlt, hrb]
    dsimp only
    rw [hloop]
  unfold Kind
  cases hg : globalToLocal b.score with
  | none => exact Or.inr (Or.inl rfl)
  | some addr =>
    cases hl : f.ent.isLocal with
    | true => exact Or.inl ⟨rfl, ho.tagged hl⟩
    | false =>
      -- a local block under one of venti: found under the type of a block above
      refine Or.inr (Or.inr fun tag => ?_)
      rw [globalToLocal_score hb] at hg
      have hne : f.ent.depth - sizeToDepth n f.ent.psize f.ent.dsize ≠ 1 := by
        intro hk
        rw [hone (by omega)] at hg
        have hlevel : level f.ent.entryType ≠ 0 := by
          have := (ho.ok.wide).level (show f.ent.depth - 1 < 7 by omega)
          rwa [show f.ent.depth - 1 + 1 = f.ent.depth by omega] at this
        rw [pointer_global ha hrb (ho.placed hl) hlevel] at hg
        cases hg
      rw [hbelow.cacheGlobal le_rfl, cacheGlobal_score hb]
      obtain ⟨-, hblk, -, -⟩ := cacheGlobal_addr hb (cacheGlobal_some hb hg)
      have hbt := cacheGlobal_type_eq hb
      unfold Fs.cacheGlobal
      rw [hg]
      dsimp only
      unfold Fs.cacheLocalData
      rw [hblk]
      dsimp only
      rw [if_pos (Or.inl (by omega))]

theorem sourceShrinkSize_look (hg : e.shape.Wide) (hd : e.depth ≤ 7) {x : Nat} (hx : n ≤ x)
    (hspan : x < e.shape.span e.depth) :
    (Writable fs e.shape e.tag e.depth e.score n x →
        look (sourceShrinkSize fs e n) e.shape e.tag e.depth e.score x = some 0) ∧
      (¬ Writable fs e.shape e.tag e.depth e.score n x →
        look (sourceShrinkSize fs e n) e.shape e.tag e.depth e.score x = look fs e.shape e.tag e.depth e.score x) := by
  have htype : e.entryType = e.shape.base + e.depth := rfl
  have hlevel : level e.entryType = e.depth := by
    unfold level
    rcases hg.base with h | h <;> omega
  unfold sourceShrinkSize
  cases hb : fs.cacheGlobal e.score e.entryType e.tag with
  | none =>
    refine ⟨fun hw => ?_, fun _ => rfl⟩
    rw [htype] at hb
    cases hdepth : e.depth with
    | zero =>
      rw [hdepth] at hw hb
      obtain ⟨b, hb', -⟩ := hw
      rw [Nat.add_zero, hb'] at hb
      cases hb
    | succ d =>
      rw [hdepth] at hw hb
      obtain ⟨b, hb', -⟩ := hw
      rw [hb'] at hb
      cases hb
  | some b =>
    rw [hlevel]
    refine shrinkSizeLoop_look hg rfl rfl rfl e.depth hd fs e.score b n x _ hb ?_ hx hspan
    intro l hl
    rw [hl, Nat.add_sub_cancel]
    rfl

theorem venti_sourceShrinkSize (fs : Fs) (e : Entry) (n : Nat) (hd : level e.entryType ≤ e.entryType) :
    (sourceShrinkSize fs e n).venti = fs.venti := by
  unfold sourceShrinkSize
  cases hb : fs.cacheGlobal e.score e.entryType e.tag with
  | none => rfl
  | some b => exact (shrinkSizeLoop_above e _ fs _ _ b _ _ _ hb hd).2.1

/-- What packing leaves of an entry. -/
structure Entry.Repacked (e e' : Entry) : Prop where
  gen : e'.gen = e.gen
  psize : e'.psize = e.psize
  dsize : e'.dsize = e.dsize
  shape : e'.shape = e.shape
  depth : e'.depth = e.depth % 8
  size : e'.size = e.size % 2 ^ 48
  isLocal : e'.isLocal = e.isLocal
  tag : e.isLocal = true → e'.tag = e.tag
  addr : globalToLocal e'.score = globalToLocal e.score
  score : ∀ (fs : Fs) type tag, fs.cacheGlobal e'.score type tag = fs.cacheGlobal e.score type tag
  length : e.score.length = vtScoreSize → e'.score.length = vtScoreSize

theorem Entry.repacked (h : e.entryPack = some e') : e.Repacked e' := by
  have hp := packs_of_entryPack h
  cases hl : e.isLocal with
  | true =>
    cases hg : globalToLocal e.score with
    | none => exact absurd hg (hp hl)
    | some addr =>
      rw [entryPack_local hl hg] at h
      cases h
      have haddr := globalToLocal_localToGlobal (globalToLocal_lt hg)
      exact ⟨rfl, rfl, rfl, rfl, rfl, rfl, rfl, fun _ => rfl, haddr.trans hg.symm,
        fun fs type tag => cacheGlobal_congr hg haddr type tag, fun _ => rfl⟩
  | false =>
    rw [entryPack_global hl] at h
    cases h
    exact ⟨rfl, rfl, rfl, rfl, rfl, rfl, rfl, fun ht => absurd ht (by simp [hl]), rfl, fun _ _ _ => rfl, fun h => h⟩

theorem Entry.Repacked.look (h : e.Repacked e') (hg : g.Wide) (ha : fs.Archived)
    (hk : Kind fs g e) (hd : e.depth ≤ 7) (x : Nat) :
    Fossil.look fs g e'.tag e.depth e'.score x = Fossil.look fs g e.tag e.depth e.score x := by
  rcases hk with ⟨hl, -⟩ | hg' | hn
  · rw [h.tag hl]
    exact look_congr (fun type => h.score fs type e.tag) (fun _ _ _ _ => rfl) x
  · rw [look_global ha rfl hg e.tag e'.tag e.depth hd e'.score x (h.addr.trans hg')]
    exact look_congr (fun type => h.score fs type e.tag) (fun _ _ _ _ => rfl) x
  have hnone : ∀ score tag, (∀ tag, fs.cacheGlobal score (g.base + e.depth) tag = none) →
      Fossil.look fs g tag e.depth score x = none := by
    intro score tag hs
    cases hdepth : e.depth with
    | zero =>
      rw [hdepth, Nat.add_zero] at hs
      unfold Fossil.look
      rw [hs]
      rfl
    | succ d =>
      rw [hdepth] at hs
      unfold Fossil.look
      rw [hs]
  rw [hnone e.score _ hn, hnone e'.score _ fun tag => (h.score fs _ tag).trans (hn tag)]

theorem Entry.Repacked.kind (h : e.Repacked e') (hk : Kind fs g e) (hd : e.depth ≤ 7) :
    Kind fs g e' := by
  have hdepth : e'.depth = e.depth := h.depth.trans (Nat.mod_eq_of_lt (by omega))
  rcases hk with ⟨hl, ht⟩ | hg | hn
  · exact Or.inl ⟨h.isLocal.trans hl, h.tag hl ▸ ht⟩
  · exact Or.inr (Or.inl (h.addr.trans hg))
  · refine Or.inr (Or.inr fun tag => ?_)
    rw [hdepth, h.score]
    exact hn tag

/-- A file after a change of size that went well, and the entry it had. -/
structure Sized (f : File) (e : Entry) (size : Nat) : Prop where
  gen : f.ent.gen = f.gen
  ok : f.ent.Ok
  shape : f.ent.shape = e.shape
  psize : f.ent.psize = e.psize
  dsize : f.ent.dsize = e.dsize
  depth : f.ent.depth = sizeToDepth size e.psize e.dsize
  size : f.ent.size = size
  score : f.ent.score.length = vtScoreSize
  kind : Kind f.fs e.shape f.ent
  archived : f.fs.Archived

theorem File.sourceSetSize_true {size : Nat} (h0 : size ≠ 0) (hne : f.ent.size ≠ size)
    (h : f.sourceSetSize env size = some (f', true)) :
    f.ent.gen = f.gen ∧ size < 2 ^ 48 ∧ ∃ fs e ent ent',
      (if sizeToDepth size f.ent.psize f.ent.dsize < f.ent.depth
        then sourceShrinkDepth env f.fs f.ent f.ent (sizeToDepth size f.ent.psize f.ent.dsize)
        else if sizeToDepth size f.ent.psize f.ent.dsize > f.ent.depth
        then sourceGrowDepth env f.fs f.ent f.ent (sizeToDepth size f.ent.psize f.ent.dsize)
        else some (f.fs, f.ent, f.ent, true)) = some (fs, e, ent, true) ∧
      { e with size := size }.entryPack = some ent' ∧
      f' = { f with fs := if size < e.size then sourceShrinkSize fs e size else fs, ent := ent' } := by
  unfold File.sourceSetSize at h
  rw [if_neg h0] at h
  split at h
  · cases h
  rename_i hbig
  split at h
  · cases h
  rename_i hgen
  dsimp only at h
  rw [if_neg hne] at h
  have hlt : size < 2 ^ 48 := by
    unfold File.tooBig at hbig
    omega
  refine ⟨not_not.1 hgen, hlt, ?_⟩
  split at h
  · cases h
  · cases h
  rename_i fs e ent hchanged
  split at h
  · cases h
  · rename_i ent' hent'
    cases h
    exact ⟨fs, e, ent, ent', hchanged, hent', rfl⟩

theorem sized_of_pack {e0 : Entry} {size : Nat} (hgen : e.gen = f.gen) (h0 : e0.Ok)
    (hshape : e.shape = e0.shape) (hps : e.psize = e0.psize) (hds : e.dsize = e0.dsize)
    (hdepth : e.depth = sizeToDepth size e0.psize e0.dsize) (hd : e.depth ≤ 7) (hs : size < 2 ^ 48)
    (hlen : e.score.length = vtScoreSize) (hk : Kind fs e0.shape e) (ha : fs.Archived)
    (h : { e with size := size }.entryPack = some ent) : Sized { f with fs := fs, ent := ent } e0 size := by
  have hr := Entry.repacked h
  obtain ⟨_, hent', hok⟩ := Entry.ok_of_deep (Entry.packs_of_entryPack h) (show 256 ≤ e.psize from hps ▸ h0.psize)
    (show 256 ≤ e.dsize from hds ▸ h0.dsize) (show e.depth < 8 by omega) hs (by
      rw [hps, hds, ← hdepth])
  rw [h] at hent'
  cases hent'
  have hkind : Kind fs e0.shape { e with size := size } := hk
  exact {
    gen := hr.gen.trans hgen
    ok := hok
    shape := hr.shape.trans hshape
    psize := hr.psize.trans hps
    dsize := hr.dsize.trans hds
    depth := (hr.depth.trans (Nat.mod_eq_of_lt (show e.depth < 8 by omega))).trans hdepth
    size := hr.size.trans (Nat.mod_eq_of_lt hs)
    score := hr.length hlen
    kind := hr.kind hkind hd
    archived := ha }

theorem Rooted.kept (ho : f.ent.Opens)
    (heq : sizeToDepth n f.ent.psize f.ent.dsize = f.ent.depth) (h0 : n ≠ 0) : Rooted env f n f.fs f.ent := by
  obtain ⟨-, -, hpacks⟩ := ho.ok.bounds
  refine ⟨heq.symm, ?_, rfl, rfl, rfl, rfl, rfl, hpacks, ho.score, ?_, rfl, rfl, fun _ => Or.inl rfl⟩
  · unfold File.newRoot
    rw [if_neg h0, if_neg (by omega)]
  · cases hl : f.ent.isLocal with
    | true => exact Or.inl ⟨hl, ho.tagged hl⟩
    | false => exact Or.inr (Or.inl (ho.placed hl))

/-- **The smaller size**: past the new end a byte of the tree is zero if it is cleared, and only then. -/
theorem sourceSetSize_smaller (ho : f.ent.Opens) (ha : f.fs.Archived)
    (hlt : n < f.ent.size) (h : f.sourceSetSize env n = some (f', true)) :
    Sized f' f.ent n ∧ ∀ x, n ≤ x → x < f.ent.shape.span f'.ent.depth →
      (look f'.fs f.ent.shape f'.ent.tag f'.ent.depth f'.ent.score x = some 0 ↔ f.Clears env n x) := by
  obtain ⟨_, -, -⟩ := ho.ok.bounds
  have hg := ho.ok.wide
  by_cases h0 : n = 0
  · subst h0
    have hz : sizeToDepth 0 f.ent.psize f.ent.dsize = 0 := File.sizeToDepth_zero _ ho.ok.dsize
    unfold File.sourceSetSize at h
    rw [if_pos rfl] at h
    unfold File.sourceTruncate at h
    split at h
    · cases h
    rename_i hgen
    rw [if_neg (by omega)] at h
    split at h
    · cases h
    rename_i ent hent
    cases h
    have hkind : Kind f.fs f.ent.shape
        { f.ent with isLocal := false, depth := 0, size := 0, tag := 0, score := vtzeroscore } :=
      Or.inr (Or.inl globalToLocal_zero)
    have hsized := @sized_of_pack f.fs f { f.ent with isLocal := false, depth := 0, tag := 0, score := vtzeroscore } ent f.ent 0
      (not_not.1 hgen) ho.ok rfl rfl rfl hz.symm (Nat.zero_le 7) (by decide) rfl hkind ha hent
    refine ⟨hsized, fun x _ _ => ?_⟩
    have hrep := Entry.repacked hent
    have hlook := hrep.look hg ha hkind (Nat.zero_le 7) x
    have hd0 : ent.depth = 0 := hrep.depth
    rw [hd0, hlook, look_zero f.fs hg 0 0 (by decide)]
    refine ⟨fun _ => Or.inr ?_, fun _ => rfl⟩
    rw [hz, show f.newRoot env 0 = vtzeroscore from rfl]
    exact look_zero f.fs hg _ 0 (by decide) x
  obtain ⟨hgen, hn48, fs, e, ent, ent', hchanged, hent', rfl⟩ := File.sourceSetSize_true h0 (by omega) h
  have hle : sizeToDepth n f.ent.psize f.ent.dsize ≤ f.ent.depth := by
    refine Nat.le_trans ?_ ho.ok.deep
    rw [sizeToDepth_le ho.ok.psize ho.ok.dsize]
    exact Nat.le_trans (Nat.le_of_lt hlt) ((sizeToDepth_le ho.ok.psize ho.ok.dsize _ _).1 le_rfl)
  have hr : Rooted env f n fs e ∧ e.size = f.ent.size := by
    rcases Nat.lt_or_eq_of_le hle with hl | heq
    · rw [if_pos hl] at hchanged
      refine ⟨rooted_shrink ho ha h0 hl hchanged, ?_⟩
      obtain ⟨_, _, b, -, -, rfl, -⟩ := sourceShrinkDepth_done hl hchanged
      rfl
    · rw [if_neg (by omega), if_neg (by omega)] at hchanged
      cases hchanged
      exact ⟨Rooted.kept ho heq h0, rfl⟩
  obtain ⟨hr, _⟩ := hr
  have hd7 : e.depth ≤ 7 := by
    rw [hr.depth]
    omega
  rw [if_pos (by omega)]
  have hlevel : level e.entryType ≤ e.entryType := Nat.mod_le _ _
  have hv : (sourceShrinkSize fs e n).venti = f.fs.venti := (venti_sourceShrinkSize fs e n hlevel).trans hr.below.venti
  have ha' : (sourceShrinkSize fs e n).Archived := by
    intro score type data i hlev hd
    rw [hv] at hd
    exact ha score type data i hlev hd
  have hkind : Kind (sourceShrinkSize fs e n) f.ent.shape e := by
    rcases hr.kind with hk | hk | hk
    · exact Or.inl hk
    · exact Or.inr (Or.inl hk)
    have hsame : sourceShrinkSize fs e n = fs := by
      unfold sourceShrinkSize
      rw [show fs.cacheGlobal e.score e.entryType e.tag = none by
        rw [← hr.shape] at hk
        exact hk e.tag]
    rw [hsame]
    exact Or.inr (Or.inr hk)
  have hsized := sized_of_pack (f := f) (hr.gen.trans hgen) ho.ok hr.shape hr.psize hr.dsize hr.depth hd7 hn48 hr.score hkind
    ha' hent'
  refine ⟨hsized, fun x hx hspan => ?_⟩
  have hde : ent'.depth = e.depth := hsized.depth.trans hr.depth.symm
  have hrep := Entry.repacked hent'
  have hlook := hrep.look hg ha' (show Kind _ _ { e with size := n } from hkind) hd7 x
  rw [hde] at hspan ⊢
  rw [hlook]
  have hsh := hr.shape
  obtain ⟨hw, hnw⟩ := @sourceShrinkSize_look fs e n (hsh ▸ hg) hd7 x hx (hsh ▸ hspan)
  rw [hsh] at hw hnw
  unfold File.Clears
  rw [← hr.root, ← hr.depth, ← hr.tag]
  rw [hr.below.writable e.depth le_rfl] at hw hnw
  rw [hr.below.look e.depth le_rfl] at hnw
  by_cases hwr : Writable f.fs f.ent.shape e.tag e.depth e.score n x
  · exact ⟨fun _ => Or.inl hwr, fun _ => hw hwr⟩
  · rw [hnw hwr]
    exact ⟨Or.inr, fun hc => hc.resolve_left hwr⟩

/-! ## The larger size -/

theorem pointer_store (hl : level type ≠ 0) (hs : score.length = vtScoreSize) (i : Nat) :
    pointer (store (zeroData type) 0 score) i = if i = 0 then score else vtzeroscore := by
  split
  · rename_i h
    subst h
    unfold pointer
    rw [Nat.zero_mul, ← hs]
    exact load_store
  rw [← pointer_zeroData hl i]
  apply pointer_congr
  intro x hx
  apply store_outside
  right
  unfold vtScoreSize at *
  omega

/-- Growing writes only new blocks; above the old root there is only it, as the first pointer. -/
theorem growLoop_look (honce : ∀ j k addr, env.alloc j = some addr → env.alloc k = some addr → j = k) (hg : g.Wide) (tag : Nat) : ∀ n k (fs : Fs) (e : Entry) score d,
    e.depth = d → d + n ≤ 7 → score.length = vtScoreSize →
    let r := growLoop env tag n k fs e score (g.base + d)
    r.2.depth = d + n →
    r.1.venti = fs.venti ∧
      (∀ addr, (∀ j, k ≤ j → env.alloc j ≠ some addr) → r.1.block addr = fs.block addr) ∧
      r.2.gen = e.gen ∧ r.2.shape = e.shape ∧ r.2.psize = e.psize ∧ r.2.dsize = e.dsize ∧ r.2.size = e.size ∧
      ((0 < n ∨ e.score = score ∧ e.tag = tag ∧ e.isLocal = true) →
        r.2.score.length = vtScoreSize ∧ r.2.tag = tag ∧ r.2.isLocal = true ∧
        ∀ x, x < g.span (d + n) →
          look r.1 g tag (d + n) r.2.score x = if x < g.span d then look r.1 g tag d score x else some 0) := by
  intro n
  induction n with
  | zero =>
    intro k fs e score d _ _ hs
    refine fun _ => ⟨rfl, fun _ _ => rfl, rfl, rfl, rfl, rfl, rfl, ?_⟩
    rintro (h | ⟨rfl, htag, hl⟩)
    · omega
    refine ⟨hs, htag, hl, fun x hx => ?_⟩
    rw [Nat.add_zero] at hx
    rw [if_pos hx]
    rfl
  | succ n ih =>
    intro k fs e score d hd hle hs
    unfold growLoop
    cases halloc : env.alloc k with
    | none =>
      dsimp only
      intro hdepth
      omega
    | some addr =>
      dsimp only
      intro hdepth
      rw [Nat.add_assoc] at hdepth ⊢
      obtain ⟨hv, hblk, hgen, hshape, hps, hds, hsize, hlook⟩ := ih (k + 1)
        { fs with
          block := Function.update fs.block addr
            (some ⟨⟨g.base + (d + 1), tag, fs.ehi⟩, store (zeroData (g.base + (d + 1))) 0 score⟩) }
        { e with score := localToGlobal addr, depth := e.depth + 1, tag := tag, isLocal := true }
        (localToGlobal addr) (d + 1) (by dsimp only; omega) (by omega) rfl (by rw [hdepth]; omega)
      generalize growLoop env tag n (k + 1) _ _ (localToGlobal addr) (g.base + (d + 1)) = r at *
      refine ⟨hv, fun a ha => ?_, hgen, hshape, hps, hds, hsize, fun _ => ?_⟩
      · rw [hblk a fun j hj => ha j (by omega)]
        refine Function.update_of_ne ?_ _ _
        rintro rfl
        exact ha k (Nat.le_refl k) halloc
      -- the new root stays as it is written: later levels use other blocks
      have hroot : r.1.block addr =
          some ⟨⟨g.base + (d + 1), tag, fs.ehi⟩, store (zeroData (g.base + (d + 1))) 0 score⟩ := by
        rw [hblk addr fun j hj hja => absurd (honce j k addr hja halloc) (by omega)]
        exact Function.update_self _ _ _
      have hglobal := globalToLocal_localToGlobal (env.alloc_lt k addr halloc)
      have hup : ∀ x, look r.1 g tag (d + 1) (localToGlobal addr) x =
          if x < g.span d then look r.1 g tag d score x else some 0 := by
        intro x
        conv => lhs; unfold look
        rw [cacheGlobal_local ⟨hglobal, hroot, rfl, rfl⟩]
        dsimp only
        rw [pointer_store (hg.level (by omega)) hs]
        have hzero := @Nat.div_eq_zero_iff_lt (g.span d) x (hg.span_pos d)
        split
        · rename_i h
          rw [if_pos (hzero.1 h), Nat.mod_eq_of_lt (hzero.1 h)]
        · rename_i h
          rw [if_neg fun hn => h (hzero.2 hn)]
          exact look_zero _ hg tag d (by omega) _
      obtain ⟨hlen, htag, hl, hlook⟩ := hlook (Or.inr ⟨rfl, rfl, rfl⟩)
      refine ⟨hlen, htag, hl, fun x hx => ?_⟩
      rw [show d + (n + 1) = d + 1 + n by omega] at hx ⊢
      rw [hlook x hx, hup]
      have hmono : g.span d ≤ g.span (d + 1) := by
        rw [Shape.span_succ]
        exact Nat.le_mul_of_pos_right _ (by have := hg.np; omega)
      split
      · rfl
      · rw [if_neg (by omega)]

theorem sourceGrowDepth_done {depth : Nat}
    (h : sourceGrowDepth env fs e e depth = some (fs', e', ent, true)) :
    depth ≤ 7 ∧ ∃ b, fs.cacheGlobal e.score e.entryType e.tag = some b ∧ e'.depth = depth ∧
      growLoop env (if e.tag = 0 then env.tag else e.tag) (depth - e.depth) 0 fs e b.score e.entryType = (fs', e') := by
  unfold sourceGrowDepth at h
  split at h
  · rename_i hd
    split at h
    · cases h
    rename_i b hb
    dsimp only at h
    split at h
    · cases h
    · simp only [Option.some.injEq, Prod.mk.injEq, decide_eq_true_eq] at h
      obtain ⟨rfl, rfl, -, hdepth⟩ := h
      exact ⟨hd, b, hb, hdepth, rfl⟩
  · cases h

/-- **The larger size**: the tree of before, and zeros past it. -/
theorem sourceSetSize_larger {e0 : Entry} (h0 : e0.Ok) {m : Nat} (hs : Sized f e0 n)
    (hf : Fresh env f) (hlt : n < m) (h : f.sourceSetSize env m = some (f', true)) :
    Sized f' e0 m ∧ ∀ x, x < e0.shape.span f'.ent.depth →
      look f'.fs e0.shape f'.ent.tag f'.ent.depth f'.ent.score x =
        if x < e0.shape.span f.ent.depth then look f.fs e0.shape f.ent.tag f.ent.depth f.ent.score x else some 0 := by
  have hg := h0.wide
  obtain ⟨hgen, hm48, fs, e, _, ent', hchanged, hent', rfl⟩ :=
    File.sourceSetSize_true (by omega) (by rw [hs.size]; omega) h
  rw [hs.psize, hs.dsize] at hchanged
  have hle : f.ent.depth ≤ sizeToDepth m e0.psize e0.dsize := by
    rw [hs.depth, sizeToDepth_le h0.psize h0.dsize]
    exact Nat.le_trans (Nat.le_of_lt hlt) ((sizeToDepth_le h0.psize h0.dsize _ _).1 le_rfl)
  obtain ⟨_, -, -⟩ := hs.ok.bounds
  rw [if_neg (by omega)] at hchanged
  rcases Nat.lt_or_eq_of_le hle with hgt | heq
  · rw [if_pos hgt] at hchanged
    obtain ⟨_, b, hb, hdepth, hgrow⟩ := sourceGrowDepth_done hchanged
    have htype : f.ent.entryType = e0.shape.base + f.ent.depth := by
      rw [← hs.shape]
      rfl
    rw [htype] at hb hgrow
    have hspec := growLoop_look hf.once hg (if f.ent.tag = 0 then env.tag else f.ent.tag)
      (sizeToDepth m e0.psize e0.dsize - f.ent.depth) 0 f.fs f.ent b.score f.ent.depth rfl (by omega) (length_score hb hs.score)
    rw [hgrow, show f.ent.depth + (sizeToDepth m e0.psize e0.dsize - f.ent.depth) = sizeToDepth m e0.psize e0.dsize by omega]
      at hspec
    obtain ⟨hv, hblk, hgen', hshape, hps, hds, hsize, hup⟩ := hspec hdepth
    obtain ⟨hlen, htag, hl, hlook⟩ := hup (Or.inl (by omega))
    dsimp only at hv hblk hgen' hshape hps hds hsize hlen htag hl hlook
    rw [if_neg (by rw [hsize, hs.size]; omega)]
    have ha' : fs.Archived := by
      intro score type data i hlev hd
      rw [hv] at hd
      exact hs.archived score type data i hlev hd
    have hkind : Kind fs e0.shape e := by
      refine Or.inl ⟨hl, ?_⟩
      rw [htag]
      split
      · exact env.tag_ne
      · assumption
    have hsized := sized_of_pack (f := f) (hgen'.trans hgen) h0 (hshape.trans hs.shape) (hps.trans hs.psize)
      (hds.trans hs.dsize) hdepth (by omega) hm48 hlen hkind ha' hent'
    refine ⟨hsized, fun x hx => ?_⟩
    have hde : ent'.depth = e.depth := hsized.depth.trans hdepth.symm
    have hrep := (Entry.repacked hent').look hg ha' (show Kind _ _ { e with size := m } from hkind)
      (show e.depth ≤ 7 by omega) x
    rw [hde] at hx ⊢
    rw [hrep, htag, hdepth, hlook x (hdepth ▸ hx)]
    split
    · rename_i hin
      -- the old tree, found by the score of its root block, is where it was
      rcases hs.kind with ⟨-, ht⟩ | hgl | hn
      · rw [if_neg ht]
        have hsame : look fs e0.shape f.ent.tag f.ent.depth f.ent.score x =
            look f.fs e0.shape f.ent.tag f.ent.depth f.ent.score x := by
          refine look_uses hv hg _ _ _ hin fun addr hu => hblk addr fun j _ hj => ?_
          have hun := hf.unused j addr hj
          rw [hs.shape] at hun
          exact hun hu
        rw [← hsame]
        exact look_congr (fun type => cacheGlobal_score hb type _) (fun _ _ _ _ => rfl) x
      · rw [(cacheGlobal_none hb hgl).1]
        exact look_global hs.archived hv hg _ _ _ (by omega) _ _ hgl
      · rw [hn] at hb
        cases hb
    · rfl
  rw [if_neg (by omega)] at hchanged
  cases hchanged
  rw [if_neg (by rw [hs.size]; omega)]
  have hkind : Kind f.fs e0.shape { f.ent with size := m } := hs.kind
  have hsized := sized_of_pack (f := f) hgen h0 hs.shape hs.psize hs.dsize heq (by omega) hm48 hs.score hkind hs.archived hent'
  refine ⟨hsized, fun x hx => ?_⟩
  have hde : ent'.depth = f.ent.depth := hsized.depth.trans heq.symm
  have hrep := (Entry.repacked hent').look hg hs.archived hkind (show f.ent.depth ≤ 7 by omega) x
  rw [hde] at hx ⊢
  rw [hrep, if_pos hx]

/-! ## Both -/

/-- **Truncation erases**, as far as it does: of the bytes between the two sizes, those read as zero that
lie past the smaller tree, that could be written over, or that were zero. -/
theorem sourceSetSize_erases (env env' : Env) (f f' f'' : File) (ho : f.ent.Opens) (ha : f.fs.Archived) (n m : Nat)
    (hn : n < f.ent.size) (hm : n < m) (h : f.sourceSetSize env n = some (f', true)) (hf : Fresh env' f')
    (h' : f'.sourceSetSize env' m = some (f'', true)) :
    (∀ x, n ≤ x → x < m → f''.fileRead x = some 0) ↔
      ∀ x, n ≤ x → x < m → x < f.ent.shape.span (sizeToDepth n f.ent.psize f.ent.dsize) → f.Clears env n x := by
  obtain ⟨hs, hclears⟩ := sourceSetSize_smaller ho ha hn h
  obtain ⟨hs', hlook⟩ := sourceSetSize_larger ho.ok hs hf hm h'
  have hread : ∀ x, x < m → f''.fileRead x = if x < f.ent.shape.span f'.ent.depth
      then look f'.fs f.ent.shape f'.ent.tag f'.ent.depth f'.ent.score x else some 0 := by
    intro x hx
    have hspan : x < f.ent.shape.span f''.ent.depth := by
      have := (sizeToDepth_le ho.ok.psize ho.ok.dsize m f''.ent.depth).1 (Nat.le_of_eq hs'.depth.symm)
      exact Nat.lt_of_lt_of_le hx this
    rw [← hlook x hspan]
    have hd := hs'.ok.bounds.1
    rw [File.fileRead_look hs'.ok.wide hs'.gen (by rw [hs'.size]; exact hx) (by rw [hs'.shape]; exact hspan) (by omega), hs'.shape]
  rw [← hs.depth]
  constructor
  · intro hall x hx hxm hspan
    rw [← hclears x hx hspan, ← hall x hx hxm, hread x hxm, if_pos hspan]
  intro hall x hx hxm
  rw [hread x hxm]
  split
  · rename_i hspan
    exact (hclears x hx hspan).2 (hall x hx hxm hspan)
  · rfl

/-- Two bytes in one block, of the given epoch. -/
def onePage (epoch : Nat) : File where
  fs :=
    { ehi := 1
      block := fun addr => if addr = 1 then some ⟨⟨0, 5, epoch⟩, fun _ => 7⟩ else none
      venti := fun _ _ => none }
  ent :=
    { gen := 1, psize := 256, dsize := 256, depth := 0, dir := false, isLocal := true, size := 2,
      score := localToGlobal 1, tag := 5, snap := 0, archive := 0 }
  gen := 1

/-- The file after the size is one. -/
def onePageCut (epoch : Nat) : File :=
  { onePage epoch with
    fs := sourceShrinkSize (onePage epoch).fs (onePage epoch).ent 1
    ent := { (onePage epoch).ent with size := 1 } }

theorem onePage_opens (epoch : Nat) : (onePage epoch).ent.Opens where
  ok :=
    { packed := by
        refine (Entry.entryPack_local rfl (globalToLocal_localToGlobal (by decide : 1 < 2 ^ 32 - 1))).trans ?_
        rfl
      psize := Nat.le_refl 256
      dsize := Nat.le_refl 256
      deep := Nat.le_of_eq (File.sizeToDepth_small (by decide : 2 ≤ 256)) }
  score := rfl
  tagged := nofun
  placed := nofun

theorem onePage_cut (epoch : Nat) : (onePage epoch).sourceSetSize File.fullEnv 1 = some (onePageCut epoch, true) := by
  have hd : sizeToDepth 1 256 256 = 0 := File.sizeToDepth_small (by decide)
  simp [File.sourceSetSize, onePage, onePageCut, File.tooBig, hd, Entry.entryPack,
    globalToLocal_localToGlobal (by decide : 1 < 2 ^ 32 - 1)]

theorem onePage_back (epoch : Nat) : (onePageCut epoch).sourceSetSize File.fullEnv 2 =
    some ({ onePageCut epoch with ent := (onePage epoch).ent }, true) := by
  have hd : sizeToDepth 2 256 256 = 0 := File.sizeToDepth_small (by decide)
  simp [File.sourceSetSize, onePage, onePageCut, File.tooBig, hd, Entry.entryPack,
    globalToLocal_localToGlobal (by decide : 1 < 2 ^ 32 - 1)]

theorem onePageCut_fresh (epoch : Nat) : Fresh File.fullEnv (onePageCut epoch) := ⟨nofun, nofun⟩

theorem sourceSetSize_erases_onePage :
    (∀ x, 1 ≤ x → x < 2 → File.fileRead { onePageCut 1 with ent := (onePage 1).ent } x = some 0) ↔
      ∀ x, 1 ≤ x → x < 2 → x < (onePage 1).ent.shape.span (sizeToDepth 1 256 256) → (onePage 1).Clears File.fullEnv 1 x :=
  sourceSetSize_erases File.fullEnv File.fullEnv (onePage 1) (onePageCut 1) _ (onePage_opens 1) nofun 1 2 (by decide) (by decide)
    (onePage_cut 1) (onePageCut_fresh 1) (onePage_back 1)

/-- A block of an older epoch: the byte comes back. -/
theorem sourceSetSize_keeps_old :
    ∃ (f f' f'' : File), f.ent.Opens ∧ f.fs.Archived ∧ 1 < f.ent.size ∧
      f.sourceSetSize File.fullEnv 1 = some (f', true) ∧ Fresh File.fullEnv f' ∧
      f'.sourceSetSize File.fullEnv 2 = some (f'', true) ∧ f''.fileRead 1 = some 7 :=
  ⟨onePage 0, onePageCut 0, _, onePage_opens 0, nofun, by decide, onePage_cut 0, onePageCut_fresh 0, onePage_back 0, by decide⟩

end Plan9.Fossil
