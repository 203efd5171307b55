/-
acme's undo and redo over whole runs: groups of edits, undos and redos of one file, in any
order and among any other buffers.

As many undos as there were groups bring back the text, the name and the modify bit, and
as many redos what was undone (`undo_redo`), as long as the temporary file does not wrap
and every sequence number is positive as the `int` that a file keeps it in. The global
`seq` is a `uint`: from 2^31 on a group is not recorded (`undo_redo_unrecorded`).
-/
import Plan9.Acme.FileRuns
import Mathlib.Data.UInt

namespace Plan9.Acme

open Reversal Journal Function List

/-- The text that is in the blocks of a buffer and in its cache. -/
def Buffer.string (d : Disk) (b : Buffer) : List Rune :=
  (contents d (b.bl.take b.cbi) ++ b.c ++ contents d (b.bl.drop (b.cbi + 1))).take b.nc

theorem Holds.string {d : Disk} {b : Buffer} {text : List Rune} (h : Holds d b text) (hle : d.addr ≤ ADDRS) :
    b.string d = text := by
  rcases h with he | ⟨pre, k, post, stale, hr⟩
  · rw [Buffer.string, he.nc, he.text, take_zero]
  have hpre : b.bl.take b.cbi = pre := by
    rw [hr.bl, hr.cbi, take_left]
  have hpost : b.bl.drop (b.cbi + 1) = post ++ stale := by
    rw [hr.bl, hr.cbi, ← drop_drop, drop_left]
    rfl
  rw [Buffer.string, hpre, hpost, contents_append, ← append_assoc, ← hr.text hle, hr.nc, take_left]

/-- A file among the buffers, and `q0` and `q1` of the window it is undone in. `good` is whether every call has passed
its checks. -/
structure Session where
  world : World
  file : File
  q0 : Nat
  q1 : Nat
  good : Bool

inductive Act
  | group (seq : UInt32) (as : List Edit)
  | undo
  | redo
  | reset

namespace Session

def prog (a : Session) : Act → Editing (File × Nat × Nat)
  | .group s as => do return (← runGroup s as a.file, a.q0, a.q1)
  | .undo => fileundo a.file true a.q0 a.q1
  | .redo => fileundo a.file false a.q0 a.q1
  | .reset => do return (← filereset a.file, a.q0, a.q1)

def exec (a : Session) (act : Act) : Session :=
  match (a.prog act).run a.world with
  | (.ok (f, q0, q1), w) => ⟨w, f, q0, q1, a.good⟩
  | (.error _, w) => { a with world := w, good := false }

/-- A file that nothing has been recorded of, whatever is in it, on a disk with any other buffers. -/
def Init (a : Session) : Prop :=
  ∃ st : State, Trans.Reachable State.Init State.FitStep st ∧ a.world = ⟨st.disk, st.buf⟩ ∧
    st.text a.file.delta = [] ∧ st.text a.file.epsilon = [] ∧ a.file.Apart a.file.delta a.file.epsilon ∧
    a.file.seq = 0 ∧ a.file.name.length < 2 ^ 31 ∧ a.good = true

/-- A group has a larger sequence number than the last one, and edits something. -/
def Ready (a : Session) : Act → Prop
  | .group s as => a.file.seq.toUInt32 < s ∧ as ≠ [] ∧ Edit.AllInside as (a.world.buf a.file.body).nc
  | .undo | .redo | .reset => True

def Step (a : Session) (act : Act) (a' : Session) : Prop := a.Ready act ∧ a' = a.exec act

/-- The sequence number of a group is positive as an `int`. -/
def Recorded : Act → Prop
  | .group s _ => s < 2 ^ 31
  | .undo | .redo | .reset => True

/-- A step after which the file is no longer than there are addresses. -/
def FitStep (a : Session) (act : Act) (a' : Session) : Prop := Step a act a' ∧ Recorded act ∧ a'.world.disk.addr ≤ ADDRS

def text (a : Session) (i : Nat) : List Rune := (a.world.buf i).string a.world.disk

/-- Contents, name, modified flag and sequence number. -/
def view (a : Session) : List Rune × List Rune × Bool × Int32 := (a.text a.file.body, a.file.name, a.file.mod, a.file.seq)

/-- With what there is to be undone and done again. -/
def whole (a : Session) : (List Rune × List Rune × Bool × Int32) × List Rune × List Rune :=
  (a.view, a.text a.file.delta, a.text a.file.epsilon)

/-! ## What is kept -/

structure Kept (j : History) (a : Session) : Prop where
  good : a.good = true
  addr : a.world.disk.addr ≤ ADDRS
  file : a.file.Keeps j a.world

variable {j : History} {a a' b : Session}

theorem Kept.whole (h : a.Kept j) :
    a.whole = ((j.now.text, j.now.name, j.now.mod, (lastseq j.done).toInt32), transcript j.done, transcript j.undone) := by
  obtain ⟨t, ht, hx, hds, hus⟩ := h.file.shows
  have htext : ∀ i, a.text i = t i := fun i => (State.Kept.holds ht i).string h.addr
  rw [Session.whole, view, htext, htext, htext, hds, hus, h.file.seq, ← hx]
  rfl

theorem Kept.view (h : a.Kept j) : a.view = (j.now.text, j.now.name, j.now.mod, (lastseq j.done).toInt32) :=
  congrArg Prod.fst h.whole

theorem init_kept (h : a.Init) : ∃ j, a.Kept j := by
  obtain ⟨st, hreach, hworld, hdelta, hepsilon, hd, hseq, hname, hgood⟩ := h
  have hkept := State.reachable_kept hreach
  have hhas : a.world.Has st.text := by
    rw [hworld]
    exact ⟨rfl, hkept.addr, hkept.holds, hkept.sound, hkept.laid⟩
  refine ⟨⟨a.file.doc st.text, [], []⟩, hgood, ?_, ⟨⟨st.text, hhas, rfl, hdelta, hepsilon⟩, ?_, hseq, nofun, nofun, hd, ?_⟩⟩
  · rw [hworld]
    exact hkept.addr
  · exact ⟨trivial, trivial, .nil, .nil, nofun⟩
  · exact ⟨hkept.length_lt _, Nat.lt_trans hname (by decide)⟩

/-- What the step makes of the history. -/
def Moves (j : History) : Act → History → Prop
  | .group s _, j' => Added edits s.toNat j j'
  | .undo, j' => j' = Journal.undo edits j
  | .redo, j' => j' = Journal.redo edits j
  | .reset, j' => j' = ⟨j.now, [], []⟩

theorem toInt32_pos {s : UInt32} (h : 0 < s) (hs : s < 2 ^ 31) : s.toInt32 > 0 := by
  have hlt : s.toNat < 2 ^ 31 := hs
  have hpos : 0 < s.toNat := h
  refine Int32.lt_iff_toInt_lt.2 ?_
  change (0 : Int32).toInt < s.toBitVec.toInt
  rw [BitVec.toInt_eq_toNat_of_lt (by rw [UInt32.toNat_toBitVec]; omega), UInt32.toNat_toBitVec]
  exact Int.natCast_pos.2 hpos

theorem filereset_does {f : File} {w : World} (h : f.Keeps j w) :
    Does (fun f' w' => f'.Keeps ⟨j.now, [], []⟩ w') (filereset f) w := by
  obtain ⟨t, ht, hx, -, -⟩ := h.shows
  rw [filereset]
  refine Within.bind (call_does (.reset f.delta) ht trivial) ?_
  rintro - w1 - ⟨h₁, -⟩
  refine Within.bind (call_does (.reset f.epsilon) h₁ trivial) ?_
  rintro - w2 - ⟨h₂, -⟩
  refine Within.pure ⟨⟨_, h₂, ?_, ?_, ?_⟩, ⟨trivial, trivial, .nil, .nil, nofun⟩, rfl, nofun, nofun,
    ⟨h.apart.taken, h.apart.put, h.apart.transcripts⟩, h.small⟩
  · have hbody := (update_of_ne h.apart.put [] (update t f.delta [])).trans
      (update_of_ne h.apart.taken [] t)
    rw [← hx]
    exact congrArg (Doc.mk · f.name f.mod) hbody
  · exact (update_of_ne h.apart.transcripts [] (update t f.delta [])).trans (update_self ..)
  · exact update_self ..

theorem prog_does {act : Act} (h : a.Kept j) (hready : a.Ready act) (hrec : Recorded act) :
    Does (fun r w' => ∃ j', r.1.Keeps j' w' ∧ Moves j act j') (a.prog act) a.world := by
  cases act with
  | group s as =>
    obtain ⟨hlt, hne, hin⟩ := hready
    obtain ⟨t, ht, hx, -⟩ := h.file.shows
    have hnc : (a.world.buf a.file.body).nc = j.now.text.length :=
      (State.Kept.holds ht _).nc.trans (congrArg (·.text.length) hx)
    have hpos : s.toInt32 > 0 := toInt32_pos (Nat.lt_of_le_of_lt (Nat.zero_le _) hlt) hrec
    refine Within.bind (runGroup_does h.file hlt hpos hne (hnc ▸ hin)) ?_
    rintro f w - ⟨-, -, j', hkeeps, hadded⟩
    exact Within.pure ⟨j', hkeeps, hadded⟩
  | undo => exact (fileundo_undo h.file a.q0 a.q1).mono fun r w hr => ⟨_, hr.2, rfl⟩
  | redo => exact (fileundo_redo h.file a.q0 a.q1).mono fun r w hr => ⟨_, hr.2, rfl⟩
  | reset =>
    refine Within.bind (filereset_does h.file) ?_
    rintro f w - hkeeps
    exact Within.pure ⟨_, hkeeps, rfl⟩

theorem Kept.step {act : Act} (h : a.Kept j) (hstep : FitStep a act a') : ∃ j', a'.Kept j' ∧ Moves j act j' := by
  obtain ⟨⟨hready, rfl⟩, hrec, hle⟩ := hstep
  have hdoes := prog_does h hready hrec
  rcases hrun : (a.prog act).run a.world with ⟨e | ⟨f, q0, q1⟩, w⟩
  · have hexec : a.exec act = { a with world := w, good := false } := by
      rw [exec, hrun]
    rw [hexec] at hle
    obtain ⟨r, hr, -⟩ := hdoes (by rw [hrun]; exact hle)
    rw [hrun] at hr
    cases hr
  have hexec : a.exec act = ⟨w, f, q0, q1, a.good⟩ := by
    rw [exec, hrun]
  rw [hexec] at hle ⊢
  obtain ⟨r, hr, j', hkeeps, hmoves⟩ := hdoes (by rw [hrun]; exact hle)
  rw [hrun] at hr hkeeps
  obtain rfl : (f, q0, q1) = r := Except.ok.inj hr
  exact ⟨j', ⟨h.good, hle, hkeeps⟩, hmoves⟩

theorem reachable_kept (h : Trans.Reachable Init FitStep a) : ∃ j, a.Kept j := by
  refine h.invariant (fun a => ∃ j, a.Kept j) (fun _ => init_kept) ?_
  rintro a act a' ⟨j, hj⟩ hstep
  obtain ⟨j', hj', -⟩ := hj.step hstep
  exact ⟨j', hj'⟩

/-! ## Groups, undone and done again -/

def groups (gs : List (UInt32 × List Edit)) : List Act := gs.map fun g => .group g.1 g.2

theorem lastseq_added {s : UInt32} {j' : History} (h : Added edits s.toNat j j') : lastseq j'.done = s := by
  obtain ⟨⟨g, x, hne, hstamp, -, -, rfl⟩, -⟩ := h
  obtain ⟨e, _, rfl⟩ := exists_cons_of_ne_nil hne
  exact UInt32.toNat_inj.1 (hstamp e mem_cons_self)

theorem path_groups {acts : List Act} (h : a.Kept j) (hpath : Trans.Path FitStep a acts b) :
    ∀ gs, acts = groups gs → ∃ j', b.Kept j' ∧ Over edits gs.length j j' ∧ ∀ g ∈ gs.getLast?, lastseq j'.done = g.1 := by
  induction hpath with
  | nil =>
    intro gs hgs
    obtain rfl : gs = [] := map_eq_nil_iff.1 hgs.symm
    exact ⟨j, h, Over.zero j, nofun⟩
  | @snoc b b' acts act _ hstep ih =>
    intro gs hgs
    obtain ⟨gs', g, rfl⟩ : ∃ gs' g, gs = gs' ++ [g] := by
      rcases eq_nil_or_concat gs with rfl | hconcat
      · exact absurd hgs (append_ne_nil_of_right_ne_nil _ (cons_ne_nil _ _))
      · obtain ⟨gs', g, hg⟩ := hconcat
        exact ⟨gs', g, hg.trans concat_eq_append⟩
    rw [groups, map_append] at hgs
    obtain ⟨hacts, hact⟩ := append_inj' hgs rfl
    obtain ⟨_, h₁, hover, -⟩ := ih gs' hacts
    obtain ⟨j2, h₂, hmoves⟩ := h₁.step hstep
    obtain rfl : act = .group g.1 g.2 := (cons.inj hact).1
    refine ⟨j2, h₂, ?_, ?_⟩
    · rw [length_append]
      exact hover.succ hmoves
    intro g' hg'
    rw [getLast?_concat] at hg'
    rw [← Option.some.inj hg']
    exact lastseq_added hmoves

theorem path_iterate {acts : List Act} {act : Act} {move : History → History}
    (hmove : ∀ j j', Moves j act j' → j' = move j) (h : a.Kept j) (hpath : Trans.Path FitStep a acts b) :
    ∀ n, acts = List.replicate n act → b.Kept (move^[n] j) := by
  induction hpath with
  | nil =>
    intro n hn
    cases n with
    | zero => exact h
    | succ n => cases hn
  | @snoc b b' acts act' _ hstep ih =>
    intro n hn
    cases n with
    | zero => exact absurd hn (append_ne_nil_of_right_ne_nil _ (cons_ne_nil _ _))
    | succ n =>
      rw [replicate_succ'] at hn
      obtain ⟨hacts, hact⟩ := append_inj' hn rfl
      obtain ⟨j', hj', hmoves⟩ := (ih n hacts).step hstep
      rw [(cons.inj hact).1] at hmoves
      rw [iterate_succ_apply', ← hmove _ _ hmoves]
      exact hj'

/-- **Undo and redo.** From `m₂`, as many undos as there were groups since `m₀` bring back `m₀`; and then as many redos
as there were groups from `m₀` to `m₁` bring back `m₁`. -/
theorem undo_redo {m₀ m₁ m₂ c d : Session} {gs₁ gs₂ : List (UInt32 × List Edit)}
    (h : Trans.Reachable Init FitStep m₀) (h₁ : Trans.Path FitStep m₀ (groups gs₁) m₁)
    (h₂ : Trans.Path FitStep m₁ (groups gs₂) m₂)
    (hu : Trans.Path FitStep m₂ (List.replicate (gs₁.length + gs₂.length) .undo) c)
    (hr : Trans.Path FitStep c (List.replicate gs₁.length .redo) d) :
    c.good = true ∧ c.view = m₀.view ∧ d.good = true ∧ d.view = m₁.view ∧ (gs₂ = [] → d.whole = m₂.whole) ∧
      ∀ g ∈ gs₁.getLast?, m₁.file.seq = g.1.toInt32 := by
  obtain ⟨_, hk0⟩ := reachable_kept h
  obtain ⟨_, hk1, hover1, hlast⟩ := path_groups hk0 h₁ gs₁ rfl
  obtain ⟨_, hk2, hover2, -⟩ := path_groups hk1 h₂ gs₂ rfl
  have hc := path_iterate (fun _ _ => id) hk2 hu _ rfl
  have hd := path_iterate (fun _ _ => id) hc hr _ rfl
  have hover := hover1.trans hover2
  have hredo := redo_iterate hk2.file.order hover.ne (Nat.le_add_right gs₁.length gs₂.length)
  rw [Nat.add_sub_cancel_left] at hredo
  rw [hredo] at hd
  have hview : ∀ {j j' : History} {a b : Session}, a.Kept j → b.Kept j' → j.base = j'.base → a.view = b.view := by
    intro j j' a b ha hb hbase
    obtain ⟨hnow, hdone⟩ := Prod.mk.inj hbase
    rw [ha.view, hb.view, hnow, hdone]
  refine ⟨hc.good, hview hc hk0 hover.back, hd.good, hview hd hk1 hover2.back, ?_, ?_⟩
  · rintro rfl
    rw [hd.whole, hk2.whole]
    rfl
  · intro g hg
    rw [hk1.file.seq, hlast g hg]

/-- Nothing is in the file yet. -/
def fresh : Session := ⟨⟨State.start.disk, State.start.buf⟩, ⟨0, 1, 2, [], false, 0, false⟩, 0, 0, true⟩

theorem init_fresh : fresh.Init :=
  ⟨State.start, .start rfl, rfl, rfl, rfl, ⟨by decide, by decide, by decide⟩, rfl, by decide, rfl⟩

/-- The rune `a` is put at the start. -/
def typed : List Edit := [.insert 0 [97]]

theorem step_typed {s : UInt32} (hs : 0 < s) : Step fresh (.group s typed) (fresh.exec (.group s typed)) :=
  ⟨⟨hs, cons_ne_nil _ _, le_rfl, trivial⟩, rfl⟩

/-- The rune is gone, and it is there again. -/
theorem undo_redo_typed : ((fresh.exec (.group 1 typed)).exec .undo).view = fresh.view ∧
    (((fresh.exec (.group 1 typed)).exec .undo).exec .redo).view = (fresh.exec (.group 1 typed)).view := by
  obtain ⟨m₁, hm1⟩ : ∃ m₁, m₁ = fresh.exec (.group 1 typed) := ⟨_, rfl⟩
  have hfit1 : m₁.world.disk.addr ≤ ADDRS := by
    rw [hm1]
    decide +kernel
  have hfit2 : (m₁.exec .undo).world.disk.addr ≤ ADDRS := by
    rw [hm1]
    decide +kernel
  have hfit3 : ((m₁.exec .undo).exec .redo).world.disk.addr ≤ ADDRS := by
    rw [hm1]
    decide +kernel
  have h₁ : Trans.Path FitStep fresh (groups [(1, typed)]) m₁ :=
    Trans.Path.nil.snoc ⟨hm1 ▸ step_typed (by decide), (by decide : (1 : UInt32) < 2 ^ 31), hfit1⟩
  have hu : Trans.Path FitStep m₁ (replicate 1 .undo) (m₁.exec .undo) :=
    Trans.Path.nil.snoc ⟨⟨trivial, rfl⟩, trivial, hfit2⟩
  have hr : Trans.Path FitStep (m₁.exec .undo) (replicate 1 .redo) ((m₁.exec .undo).exec .redo) :=
    Trans.Path.nil.snoc ⟨⟨trivial, rfl⟩, trivial, hfit3⟩
  have h₂ : Trans.Path FitStep m₁ (groups []) m₁ := .nil
  have h := undo_redo (.start init_fresh) h₁ h₂ hu hr
  rw [← hm1]
  exact ⟨h.2.1, h.2.2.2.1⟩

/-- The group is not recorded, and what has been typed stays. -/
theorem undo_redo_unrecorded : ¬ ∀ (m₀ m₁ m₂ c d : Session) (gs₁ gs₂ : List (UInt32 × List Edit)),
    Trans.Reachable Init Step m₀ → Trans.Path Step m₀ (groups gs₁) m₁ → Trans.Path Step m₁ (groups gs₂) m₂ →
    Trans.Path Step m₂ (List.replicate (gs₁.length + gs₂.length) .undo) c →
    Trans.Path Step c (List.replicate gs₁.length .redo) d →
    c.good = true ∧ c.view = m₀.view ∧ d.good = true ∧ d.view = m₁.view ∧ (gs₂ = [] → d.whole = m₂.whole) ∧
      ∀ g ∈ gs₁.getLast?, m₁.file.seq = g.1.toInt32 := by
  intro h
  have hgroup : Trans.Path Step fresh (groups [(2 ^ 31, typed)]) (fresh.exec (.group (2 ^ 31) typed)) :=
    Trans.Path.nil.snoc (step_typed (by decide))
  have hundo : Trans.Path Step (fresh.exec (.group (2 ^ 31) typed)) (replicate 1 .undo)
      ((fresh.exec (.group (2 ^ 31) typed)).exec .undo) := Trans.Path.nil.snoc ⟨trivial, rfl⟩
  have hview := (h fresh fresh _ _ _ [] _ (.start init_fresh) .nil hgroup hundo .nil).2.1
  have hleft : ((fresh.exec (.group (2 ^ 31) typed)).exec .undo).view = ([97], [], true, 0) := by
    decide +kernel
  have hfresh : fresh.view = ([], [], false, 0) := by
    decide +kernel
  rw [hleft, hfresh] at hview
  cases hview

end Session

end Plan9.Acme
