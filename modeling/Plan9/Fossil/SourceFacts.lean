/-
The depth of a file under `sourceSetSize`.

A file opens only if its tree is deep enough for its size. `sourceSetSize` keeps
that when it drops at most one level of the tree. When it drops more, the walk
to the new root asks for the second block under the type of the old root:
on a tree of local blocks it stops there, and the entry is left a level less
deep with the size it had.
-/
import Plan9.Fossil.Source

namespace Plan9.Fossil

open Memory

/-! ## Scores -/

theorem foldl_lt (bs : List UInt8) : ∀ n k, n < 256 ^ k →
    bs.foldl (fun n b => 256 * n + b.toNat) n < 256 ^ (k + bs.length) := by
  induction bs with
  | nil =>
    intro n k h
    exact h
  | cons b bs ih =>
    intro n k h
    rw [List.foldl_cons, List.length_cons, show k + (bs.length + 1) = k + 1 + bs.length by omega]
    apply ih
    have := b.toNat_lt
    omega

variable {f : File} {e : Entry} {fs : Fs} {tag size depth addr type : Nat} {score : Score}

theorem globalToLocal_lt (h : globalToLocal score = some addr) : addr < 2 ^ 32 - 1 := by
  unfold globalToLocal at h
  have hlt := foldl_lt ((score.drop (vtScoreSize - 4)).take 4) 0 0 (by decide)
  have hpow : 256 ^ (0 + ((score.drop (vtScoreSize - 4)).take 4).length) ≤ 256 ^ 4 :=
    Nat.pow_le_pow_right (by decide) (by simp)
  split at h
  · dsimp only at h
    split at h
    · cases h
    · cases h
      omega
  · cases h

theorem globalToLocal_localToGlobal (h : addr < 2 ^ 32 - 1) : globalToLocal (localToGlobal addr) = some addr := by
  have hz : ((localToGlobal addr).take (vtScoreSize - 4)).all (· == 0) = true := by
    simp [localToGlobal, vtScoreSize, List.replicate]
  have ha : (((localToGlobal addr).drop (vtScoreSize - 4)).take 4).foldl (fun n b => 256 * n + b.toNat) 0 = addr := by
    simp [localToGlobal, vtScoreSize, List.replicate]
    omega
  unfold globalToLocal
  rw [if_pos hz]
  rw [ha, if_neg (by omega)]

/-! ## Packed entries -/

namespace Entry

/-- `entryPack` does not abort. -/
def Packs (e : Entry) : Prop := e.isLocal = true → globalToLocal e.score ≠ none

/-- An entry as `entryPack` left it and as `sourceAlloc` takes it. -/
structure Ok (e : Entry) : Prop where
  packed : e.entryPack = some e
  psize : 256 ≤ e.psize
  dsize : 256 ≤ e.dsize
  deep : sizeToDepth e.size e.psize e.dsize ≤ e.depth

theorem entryPack_local (hl : e.isLocal = true) (hg : globalToLocal e.score = some addr) :
    e.entryPack = some { e with depth := e.depth % 8, size := e.size % 2 ^ 48, score := localToGlobal addr } := by
  unfold entryPack
  rw [if_pos hl, hg]

theorem entryPack_global (hl : e.isLocal = false) :
    e.entryPack = some { e with depth := e.depth % 8, size := e.size % 2 ^ 48, archive := 0, snap := 0, tag := 0 } := by
  unfold entryPack
  rw [if_neg (by simp [hl])]

theorem packs_of_entryPack {e' : Entry} (h : e.entryPack = some e') : e.Packs := by
  intro hl hn
  unfold entryPack at h
  rw [if_pos hl, hn] at h
  cases h

theorem entryPack_spec (h : e.Packs) :
    ∃ e', e.entryPack = some e' ∧ e'.entryPack = some e' ∧ e'.gen = e.gen ∧ e'.psize = e.psize ∧ e'.dsize = e.dsize ∧
      e'.depth = e.depth % 8 ∧ e'.size = e.size % 2 ^ 48 := by
  cases hl : e.isLocal with
  | true =>
    cases hg : globalToLocal e.score with
    | none => exact absurd hg (h hl)
    | some addr =>
      refine ⟨_, entryPack_local hl hg, ?_, rfl, rfl, rfl, rfl, rfl⟩
      have hfix := @entryPack_local { e with depth := e.depth % 8, size := e.size % 2 ^ 48, score := localToGlobal addr }
        addr hl (globalToLocal_localToGlobal (globalToLocal_lt hg))
      simpa only [Nat.mod_mod] using hfix
  | false =>
    refine ⟨_, entryPack_global hl, ?_, rfl, rfl, rfl, rfl, rfl⟩
    have hfix := @entryPack_global
      { e with depth := e.depth % 8, size := e.size % 2 ^ 48, archive := 0, snap := 0, tag := 0 } hl
    simpa only [Nat.mod_mod] using hfix

theorem Ok.bounds (h : e.Ok) : e.depth < 8 ∧ e.size < 2 ^ 48 ∧ e.Packs := by
  have hp := packs_of_entryPack h.packed
  obtain ⟨_, he', -, -, -, -, hd, hs⟩ := entryPack_spec hp
  rw [h.packed] at he'
  cases he'
  refine ⟨?_, ?_, hp⟩
  · rw [hd]
    exact Nat.mod_lt _ (by decide)
  · rw [hs]
    exact Nat.mod_lt _ (by decide)

theorem ok_of_deep (hp : e.Packs) (hps : 256 ≤ e.psize) (hds : 256 ≤ e.dsize) (hd : e.depth < 8)
    (hs : e.size < 2 ^ 48) (hdeep : sizeToDepth e.size e.psize e.dsize ≤ e.depth) :
    ∃ e', e.entryPack = some e' ∧ e'.Ok := by
  obtain ⟨e', he', hfix, -, hps', hds', hd', hs'⟩ := entryPack_spec hp
  refine ⟨e', he', hfix, by omega, by omega, ?_⟩
  rw [hps', hds', hs', hd', Nat.mod_eq_of_lt hd, Nat.mod_eq_of_lt hs]
  exact hdeep

end Entry

/-! ## Growing -/

/-- The score is of a local block with this label. -/
def Local (fs : Fs) (tag : Nat) (score : Score) (type addr : Nat) (b : LocalBlock) : Prop :=
  globalToLocal score = some addr ∧ fs.block addr = some b ∧ b.l.type = type ∧ b.l.tag = tag

/-- The first block at each of the `d` levels below a score is local and has the label of its level. -/
def Front (fs : Fs) (tag : Nat) : Nat → Score → Nat → Prop
  | 0, score, type => ∃ addr b, Local fs tag score type addr b
  | d + 1, score, type => ∃ addr b, Local fs tag score type addr b ∧ Front fs tag d (pointer b.data 0) (type - 1)

theorem Front.root {d : Nat} (h : Front fs tag d score type) :
    ∃ addr b, Local fs tag score type addr b := by
  cases d with
  | zero => exact h
  | succ d =>
    obtain ⟨addr, b, hl, -⟩ := h
    exact ⟨addr, b, hl⟩

theorem cacheGlobal_local {b : LocalBlock}
    (h : Local fs tag score type addr b) :
    fs.cacheGlobal score type tag = some { addr := some addr, score := localToGlobal addr, l := b.l, data := b.data } := by
  obtain ⟨hg, hb, ht, htag⟩ := h
  unfold Fs.cacheGlobal
  rw [hg]
  dsimp only
  unfold Fs.cacheLocalData
  rw [hb]
  dsimp only
  rw [if_neg (by simp [ht, htag])]

theorem packs_shrunk (e : Entry) (d : Nat) (score : Score) :
    Entry.Packs
      { e with
        depth := d
        isLocal := if globalToLocal score = none then false else e.isLocal
        score := score } := by
  intro hl hn
  rw [if_pos hn] at hl
  cases hl

namespace File

/-- The call does not return because of the assertion in `sourceGrowDepth`, or the entry it leaves opens. -/
def Kept (env : Env) (f : File) (size : Nat) : Prop :=
  match f.sourceSetSize env size with
  | none => 7 < sizeToDepth size f.ent.psize f.ent.dsize
  | some (f', _) => f'.ent.Ok

/-- A change that is not refused and makes the tree less deep goes well. -/
def Shrinks (env : Env) (f : File) (size : Nat) : Prop :=
  f.ent.gen = f.gen → ¬ f.tooBig size → sizeToDepth size f.ent.psize f.ent.dsize < f.ent.depth →
    ∃ f', f.sourceSetSize env size = some (f', true)

/-- The tree's first blocks are local and have the labels of their levels. -/
def Sound (f : File) : Prop :=
  f.ent.tag ≠ 0 ∧ Front f.fs f.ent.tag f.ent.depth f.ent.score f.ent.entryType

theorem sizeToDepth_zero (psize : Nat) {dsize : Nat} (h : 256 ≤ dsize) : sizeToDepth 0 psize dsize = 0 := by
  unfold sizeToDepth
  rw [show (0 + dsize - 1) / dsize = 0 from Nat.div_eq_of_lt (by omega)]
  unfold depthLoop
  rw [dif_neg (by omega)]

theorem sizeToDepth_small (h : size ≤ 256) : sizeToDepth size 256 256 = 0 := by
  unfold sizeToDepth depthLoop
  rw [dif_neg]
  omega

/-- A full disk. -/
def fullEnv : Env := ⟨fun _ => none, 1, nofun, nofun⟩

end File

end Plan9.Fossil
