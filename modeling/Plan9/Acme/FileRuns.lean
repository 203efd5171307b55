/-
What undo, redo and groups of edits make of a file: its transcripts are the changes done
and those undone (`File.Keeps`), an undo takes back the last group that is done, and a redo
the first that is undone.
-/
import Plan9.Acme.FileSteps

namespace Plan9.Acme

open Reversal Journal Function List

/-- The sequence number of the last change. -/
def lastseq : List Entry → UInt32
  | [] => 0
  | e :: _ => e.seq

/-- What a file is to be, what has been done to it and what has been undone. -/
abbrev History := Journal Doc Entry

structure File.Keeps (f : File) (j : History) (w : World) : Prop where
  shows : f.Shows f.delta f.epsilon j.now j.done j.undone w
  order : InOrder edits (· < ·) j
  seq : f.seq = (lastseq j.done).toInt32
  done : ∀ e ∈ j.done, e.seq ≠ 0
  undone : ∀ e ∈ j.undone, e.seq ≠ 0
  apart : f.Apart f.delta f.epsilon
  small : j.now.Small

section

variable {f : File} {w : World} {j : History}

theorem length_le_transcript (es : List Entry) : es.length ≤ (transcript es).length := by
  induction es with
  | nil => exact le_rfl
  | cons e es ih =>
    rw [transcript, length_append, Entry.runes, length_append, Undo.length_runes, length_cons, Undosize]
    omega

theorem small_rewind {g : List Entry} {x : Doc} {us : List Entry} (h : edits.Along g x) (hx : x.Small) :
    (edits.rewind g x us).1.Small := by
  induction g generalizing x us with
  | nil => exact hx
  | cons e g ih => exact ih h.2 ⟨h.1.after.text, h.1.after.name⟩

theorem mem_rewind_seq {g : List Entry} {x : Doc} {us : List Entry} {k : UInt32} (hg : ∀ e ∈ g, e.seq = k) :
    ∀ e ∈ (edits.rewind g x us).2, e.seq = k ∨ e ∈ us := by
  intro e he
  rw [rewind_stack] at he
  rcases mem_append.1 he with he | he
  · refine .inl (UInt32.toNat_inj.1 ?_)
    exact mem_rewind (r := edits) (fun a ha => congrArg UInt32.toNat (hg a ha)) x e he
  · exact .inr he

/-- The record on top of a transcript of which something has been taken back. -/
theorem lastseq_rewind {g : List Entry} {x : Doc} {us : List Entry} {k : UInt32} (hne : g ≠ [])
    (hg : ∀ e ∈ g, e.seq = k) : lastseq (edits.rewind g x us).2 = k := by
  have hlen := congrArg length (rewind_stamps (r := edits) g x)
  rw [length_map, length_reverse, length_map] at hlen
  cases hu : (edits.rewind g x []).2 with
  | nil =>
    rw [hu] at hlen
    exact absurd (eq_nil_of_length_eq_zero hlen.symm) hne
  | cons e es =>
    have he : e.seq = k ∨ e ∈ ([] : List Entry) := mem_rewind_seq hg e (hu ▸ mem_cons_self)
    rw [rewind_stack, hu]
    exact he.resolve_right nofun

theorem group_seq {n : Nat} {g bs : List Entry} (h : Group edits n g bs) :
    ∃ k : UInt32, k.toNat = n ∧ (∀ e ∈ g, e.seq = k) ∧ lastseq (g ++ bs) = k := by
  obtain ⟨e, _, rfl⟩ := exists_cons_of_ne_nil h.ne
  refine ⟨e.seq, h.stamp e mem_cons_self, fun a ha => UInt32.toNat_inj.1 ?_, rfl⟩
  exact (h.stamp a ha).trans (h.stamp e mem_cons_self).symm

theorem File.Keeps.with_self (h : f.Keeps j w) : f.with j.now f.seq = f := by
  obtain ⟨t, -, hx, -⟩ := h.shows
  rw [← hx]
  rfl

/-- **An undo** is one. -/
theorem fileundo_undo (h : f.Keeps j w) (q0 q1 : Nat) :
    Does (fun r w' => (∃ x s, r.1 = f.with x s) ∧ r.1.Keeps (Journal.undo edits j) w') (fileundo f true q0 q1) w := by
  obtain ⟨x, ds, us⟩ := j
  have hwith : f.with x f.seq = f := h.with_self
  obtain ⟨t, ht, hx, hds, hus⟩ := h.shows
  refine Within.bind (nc_does ht f.delta) ?_
  rintro n w' - ⟨rfl, rfl⟩
  by_cases hnil : ds = []
  · subst hnil
    refine (undoLoop_nil _ q0 q1 ht hds).mono ?_
    rintro r w'' ⟨h'', hr⟩
    have hzero : f.seq = 0 := h.seq
    have hsame : r.1 = f := by
      rw [hr, if_pos rfl, ← hzero]
    rw [hsame]
    exact ⟨⟨x, f.seq, hwith.symm⟩, ⟨t, h'', hx, hds, hus⟩, h.order, h.seq, h.done, h.undone, h.apart, h.small⟩
  obtain ⟨n, g, bs, rfl, hg⟩ := exists_group (r := edits) hnil
  obtain ⟨k, rfl, hall, hlast⟩ := group_seq hg
  have hkz : k ≠ 0 := by
    obtain ⟨e, he⟩ := exists_mem_of_ne_nil g hg.ne
    exact hall e he ▸ h.done e (mem_append_left _ he)
  have hk : f.seq = k.toInt32 := h.seq.trans (congrArg UInt32.toInt32 hlast)
  have halong := (along_append g bs x us).1 h.order.done
  have hfuel : g.length ≤ (t f.delta).length := by
    rw [hds]
    refine Nat.le_trans ?_ (length_le_transcript _)
    rw [length_append]
    exact Nat.le_add_right _ _
  -- the loop ends at a record with a smaller number, or when there is none
  have hend : ∀ (f' : File) (t' : Nat → List Rune) (w : World) (fuel q0 q1 : Nat), f'.seq = k.toInt32 → w.Has t' →
      t' f.delta = transcript bs → Does (fun r w' => w'.Has t' ∧ r.1 = { f' with seq := (lastseq bs).toInt32 })
        (undoLoop true f.delta f.epsilon (fuel + 1) f' k q0 q1) w := by
    intro f' t' w fuel q0 q1 _ h' hbs
    cases bs with
    | nil => exact undoLoop_nil k q0 q1 h' hbs
    | cons b bs =>
      have hlt : b.seq < k := hg.below_lt h.order.falls b mem_cons_self
      exact undoLoop_stop q0 q1 h' hbs hkz (.inl ⟨rfl, hlt⟩)
  have hshows : (f.with x k.toInt32).Shows f.delta f.epsilon x (g ++ bs) us w' := by
    rw [← hk, hwith]
    exact ⟨t, ht, hx, hds, hus⟩
  have hrun := undoLoop_group h.apart hkz hend g q0 q1 hshows halong.1 hall hfuel
  have hstop : f.seq.toUInt32 = k := hk ▸ rfl
  rw [← hk, hwith] at hrun
  have horder := h.order.undo
  rw [undo_group hg] at horder ⊢
  rw [hstop]
  refine hrun.mono ?_
  rintro ⟨f', _, _⟩ w'' ⟨hr, hshows'⟩
  subst hr
  refine ⟨⟨_, _, rfl⟩, hshows', horder, rfl, fun e he => h.done e (mem_append_right _ he), ?_,
    ⟨h.apart.taken, h.apart.put, h.apart.transcripts⟩, small_rewind halong.1 h.small⟩
  intro e he
  rcases mem_rewind_seq hall e he with he | he
  · exact he ▸ hkz
  · exact h.undone e he

/-- **A redo** is one. -/
theorem fileundo_redo (h : f.Keeps j w) (q0 q1 : Nat) :
    Does (fun r w' => (∃ x s, r.1 = f.with x s) ∧ r.1.Keeps (Journal.redo edits j) w') (fileundo f false q0 q1) w := by
  obtain ⟨x, ds, us⟩ := j
  have hwith : f.with x f.seq = f := h.with_self
  obtain ⟨t, ht, hx, hds, hus⟩ := h.shows
  have hflip : f.Apart f.epsilon f.delta := ⟨h.apart.put, h.apart.taken, h.apart.transcripts.symm⟩
  refine Within.bind (nc_does ht f.epsilon) ?_
  rintro n w' - ⟨rfl, rfl⟩
  by_cases hnil : us = []
  · subst hnil
    refine (undoLoop_nil _ q0 q1 ht hus).mono ?_
    rintro r w'' ⟨h'', hr⟩
    have hsame : r.1 = f := by
      rw [hr, if_neg Bool.false_ne_true]
    rw [hsame]
    exact ⟨⟨x, f.seq, hwith.symm⟩, ⟨t, h'', hx, hds, hus⟩, h.order, h.seq, h.done, h.undone, h.apart, h.small⟩
  obtain ⟨n, g, bs, rfl, hg⟩ := exists_group (r := edits) hnil
  obtain ⟨k, rfl, hall, -⟩ := group_seq hg
  have hkz : k ≠ 0 := by
    obtain ⟨e, he⟩ := exists_mem_of_ne_nil g hg.ne
    exact hall e he ▸ h.undone e (mem_append_left _ he)
  have halong := (along_append g bs x ds).1 h.order.undone
  have hfuel : g.length ≤ (t f.epsilon).length := by
    rw [hus]
    refine Nat.le_trans ?_ (length_le_transcript _)
    rw [length_append]
    exact Nat.le_add_right _ _
  have hend : ∀ (f' : File) (t' : Nat → List Rune) (w : World) (fuel q0 q1 : Nat), f'.seq = k.toInt32 → w.Has t' →
      t' f.epsilon = transcript bs → Does (fun r w' => w'.Has t' ∧ r.1 = { f' with seq := k.toInt32 })
        (undoLoop false f.epsilon f.delta (fuel + 1) f' k q0 q1) w := by
    intro f' t' w fuel q0 q1 hseq h' hbs
    rw [← hseq]
    cases bs with
    | nil => exact undoLoop_nil k q0 q1 h' hbs
    | cons b bs =>
      have hgt : k < b.seq := hg.below_lt h.order.flip.falls b mem_cons_self
      exact undoLoop_stop q0 q1 h' hbs hkz (.inr ⟨rfl, hgt⟩)
  have horder := h.order.redo
  have hundo : Journal.undo edits ⟨x, g ++ bs, ds⟩ = ⟨(edits.rewind g x ds).1, bs, (edits.rewind g x ds).2⟩ :=
    undo_group hg
  have hredo : Journal.redo edits ⟨x, ds, g ++ bs⟩ = ⟨(edits.rewind g x ds).1, (edits.rewind g x ds).2, bs⟩ :=
    congrArg Journal.flip hundo
  rw [hredo] at horder ⊢
  -- where to stop is known once the first record has been read
  obtain ⟨e, g', rfl⟩ := exists_cons_of_ne_nil hg.ne
  have he : e.seq = k := hall e mem_cons_self
  have hstop : k = if false = false ∧ (0 : UInt32) = 0 then e.seq else 0 := by
    rw [if_pos ⟨rfl, rfl⟩, he]
  refine undoLoop_next ⟨t, ht, hx, hus, hds⟩ hflip halong.1.1 hstop (fun hc => Bool.false_ne_true hc.1) ?_ ?_
  · rw [he]
    exact fun hc => UInt32.lt_irrefl k hc.2
  rw [he]
  intro w1 q0' q1' hshows
  obtain ⟨m, hm⟩ : ∃ m, (t f.epsilon).length = m + 1 := ⟨_, (Nat.sub_add_cancel (Nat.le_trans (Nat.succ_pos _) hfuel)).symm⟩
  rw [hm] at hfuel ⊢
  refine (undoLoop_group hflip hkz hend g' q0' q1' hshows halong.1.2
    (fun e he => hall e (mem_cons_of_mem _ he)) (Nat.le_of_succ_le_succ hfuel)).mono ?_
  rintro ⟨f', q0', q1'⟩ w'' ⟨hr, t', h', hx', hus', hds'⟩
  subst hr
  refine ⟨⟨_, _, rfl⟩, ⟨t', h', hx', hds', hus'⟩, horder, ?_, ?_, fun e he => h.undone e (mem_append_right _ he),
    ⟨h.apart.taken, h.apart.put, h.apart.transcripts⟩, small_rewind halong.1 h.small⟩
  · exact congrArg UInt32.toInt32 (lastseq_rewind (cons_ne_nil e g') hall).symm
  · intro e' he'
    rcases mem_rewind_seq hall e' he' with he' | he'
    · exact he' ▸ hkz
    · exact h.done e' he'

end

/-! ## Groups of edits -/

inductive Edit
  | insert (p0 : Nat) (s : List Rune)
  | delete (p0 p1 : Nat)
  | setname (name : List Rune)

def Edit.run (f : File) : Edit → Editing File
  | .insert p0 s => fileinsert f p0 s
  | .delete p0 p1 => filedelete f p0 p1
  | .setname name => filesetname f name

/-- In a text of `n` runes. The length of a name is an `int`. -/
def Edit.Inside : Edit → Nat → Prop
  | .insert p0 _, n => p0 ≤ n
  | .delete p0 p1, n => p0 ≤ p1 ∧ p1 ≤ n
  | .setname name, _ => name.length < 2 ^ 31

/-- How long the text is afterwards. -/
def Edit.len : Edit → Nat → Nat
  | .insert _ s, n => n + s.length
  | .delete p0 p1, n => n - (p1 - p0)
  | .setname _, n => n

/-- One edit after another. -/
def runEdits : List Edit → File → Editing File
  | [], f => pure f
  | a :: as, f => do
    let f ← a.run f
    runEdits as f

def Edit.AllInside : List Edit → Nat → Prop
  | [], _ => True
  | a :: as, n => a.Inside n ∧ AllInside as (a.len n)

/-- The buffers are the same ones. -/
structure File.Like (f f' : File) : Prop where
  body : f'.body = f.body
  delta : f'.delta = f.delta
  epsilon : f'.epsilon = f.epsilon

section

variable {f : File} {w : World} {x : Doc} {ds us : List Entry}

theorem shows_record {f' : File} {t : Nat → List Rune} {e : Entry} {text : List Rune} (hf : f.Like f')
    (hd : f.Apart f.delta f.epsilon) (hds : t f.delta = transcript ds) (hus : t f.epsilon = transcript us)
    (h : w.Has (update (update t f.delta (t f.delta ++ e.runes)) f.body text)) :
    f'.Shows f'.delta f'.epsilon ⟨text, f'.name, f'.mod⟩ (e :: ds) us w := by
  refine ⟨_, h, ?_, ?_, ?_⟩
  · rw [File.doc, hf.body, update_self]
  · rw [hf.delta, update_of_ne hd.taken.symm, update_self, hds]
    rfl
  · rw [hf.epsilon, update_of_ne hd.put.symm, update_of_ne hd.transcripts.symm, hus]

/-- **An edit** puts what takes it back on the transcript. -/
theorem edit_does {a : Edit} (h : f.Shows f.delta f.epsilon x ds us w) (hd : f.Apart f.delta f.epsilon) (hseq : f.seq > 0)
    (hin : a.Inside x.text.length) (hx : x.Small) :
    Does (fun f' w' => f.Like f' ∧ f'.seq = f.seq ∧ ∃ e x', f'.Shows f'.delta f'.epsilon x' (e :: ds) us w' ∧
      e.seq = f.seq.toUInt32 ∧ e.change.Fits x' ∧ (e.turn x').2 = x ∧ x'.text.length = a.len x.text.length) (a.run f) w := by
  obtain ⟨t, ht, rfl, hds, hus⟩ := h
  have hbody : ∀ y, update t f.delta y f.body = t f.body := fun y => update_of_ne hd.taken y t
  have hfit : ∀ {w' : World} {y text : List Rune}, w'.Has (update (update t f.delta y) f.body text) →
      text.length < 2 ^ 32 := by
    intro w' y text h'
    have hself : update (update t f.delta y) f.body text f.body = text := update_self ..
    exact hself ▸ State.Kept.length_lt h' f.body
  cases a with
  | insert p0 s =>
    have hp : p0 ≤ (t f.body).length := hin
    refine Within.bind (nc_does ht f.body) ?_
    rintro n w' - ⟨rfl, rfl⟩
    rw [if_neg (Nat.not_lt.2 hp), if_pos hseq]
    refine Within.bind (fileuninsert_does ht f f.delta p0 s.length) ?_
    rintro - w1 - h1
    refine Within.bind (insert_does h1 (hbody _ ▸ hp)) ?_
    rintro - w2 - h2
    rw [hbody] at h2
    obtain ⟨m, hm⟩ : ∃ m, (if s.length ≠ 0 then { f with mod := true } else f) = { f with mod := m } := by
      by_cases hs : s.length ≠ 0
      · exact ⟨true, if_pos hs⟩
      · exact ⟨f.mod, if_neg hs⟩
    have hlike : f.Like { f with mod := m } := ⟨rfl, rfl, rfl⟩
    rw [hm]
    refine Within.pure ⟨hlike, rfl, _, _, shows_record hlike hd hds hus h2, rfl, ⟨?_, ⟨hfit h2, hx.name⟩, ?_⟩, ?_, ?_⟩
    · change p0 + s.length ≤ (insertAt p0 s (t f.body)).length
      rw [length_insertAt]
      omega
    · refine ⟨?_, hx.name⟩
      change (deleteFrom p0 (p0 + s.length) (insertAt p0 s (t f.body))).length < 2 ^ 32
      rw [deleteFrom_insertAt hp]
      exact hx.text
    · change (⟨deleteFrom p0 (p0 + s.length) (insertAt p0 s (t f.body)), f.name, f.mod⟩ : Doc) = _
      rw [deleteFrom_insertAt hp]
      rfl
    · exact length_insertAt p0 s (t f.body)
  | delete p0 p1 =>
    obtain ⟨hp, hp1⟩ := hin
    change p1 ≤ (t f.body).length at hp1
    refine Within.bind (nc_does ht f.body) ?_
    rintro n w' - ⟨rfl, rfl⟩
    rw [if_neg (not_not.2 ⟨hp, Nat.le_trans hp hp1, hp1⟩), if_pos hseq]
    refine Within.bind (fileundelete_does ht f hd.taken hp hp1) ?_
    rintro - w1 - h1
    refine Within.bind (delete_does h1 hp (Nat.le_trans hp1 (Nat.le_of_eq (congrArg length (hbody _).symm)))) ?_
    rintro - w2 - h2
    rw [hbody] at h2
    obtain ⟨m, hm⟩ : ∃ m, (if p1 > p0 then { f with mod := true } else f) = { f with mod := m } := by
      by_cases hs : p1 > p0
      · exact ⟨true, if_pos hs⟩
      · exact ⟨f.mod, if_neg hs⟩
    have hlike : f.Like { f with mod := m } := ⟨rfl, rfl, rfl⟩
    have hcut : p0 + (p1 - p0) = p1 := Nat.add_sub_of_le hp
    have hback : insertAt p0 (((t f.body).drop p0).take (p1 - p0)) (deleteFrom p0 p1 (t f.body)) = t f.body := by
      have := insertAt_deleteFrom (show p0 + (p1 - p0) ≤ (t f.body).length by omega)
      rw [hcut] at this
      exact this
    rw [hm]
    refine Within.pure ⟨hlike, rfl, _, _, shows_record hlike hd hds hus h2, rfl, ⟨?_, ⟨hfit h2, hx.name⟩, ?_⟩, ?_, ?_⟩
    · change p0 ≤ (deleteFrom p0 p1 (t f.body)).length
      rw [length_deleteFrom hp hp1]
      omega
    · refine ⟨?_, hx.name⟩
      change (insertAt p0 (((t f.body).drop p0).take (p1 - p0)) (deleteFrom p0 p1 (t f.body))).length < 2 ^ 32
      rw [hback]
      exact hx.text
    · change (⟨insertAt p0 (((t f.body).drop p0).take (p1 - p0)) (deleteFrom p0 p1 (t f.body)), f.name, f.mod⟩ : Doc) = _
      rw [hback]
      rfl
    · exact length_deleteFrom hp hp1
  | setname name =>
    have hname : name.length < 2 ^ 32 := Nat.lt_trans hin (by decide)
    change Does _ (filesetname f name) w
    rw [filesetname, if_pos hseq]
    refine Within.bind (fileunsetname_does ht f f.delta) ?_
    rintro - w1 - h1
    have hlike : f.Like { f with name := name, unread := true } := ⟨rfl, rfl, rfl⟩
    have hsame := update_eq_self f.body (update t f.delta
      (t f.delta ++ (⟨f.seq.toUInt32, f.mod, .filename f.name⟩ : Entry).runes))
    rw [hbody] at hsame
    have hrec := shows_record hlike hd hds hus (hsame.symm ▸ h1)
    exact Within.pure ⟨hlike, rfl, _, _, hrec, rfl, ⟨trivial, ⟨hx.text, hname⟩, ⟨hx.text, hx.name⟩⟩, rfl, rfl⟩

theorem runEdits_does : ∀ (as : List Edit) {f : File} {w : World} {x : Doc} {ds us : List Entry},
    f.Shows f.delta f.epsilon x ds us w → f.Apart f.delta f.epsilon → f.seq > 0 → Edit.AllInside as x.text.length →
    x.Small → Does (fun f' w' => f.Like f' ∧ f'.seq = f.seq ∧ ∃ g x', f'.Shows f'.delta f'.epsilon x' (g ++ ds) us w' ∧
      (∀ e ∈ g, e.seq = f.seq.toUInt32) ∧ edits.Along g x' ∧ (edits.rewind g x' []).1 = x ∧ x'.Small ∧
      (as ≠ [] → g ≠ [])) (runEdits as f) w
  | [], f, w, x, ds, us, h, _, _, _, hx =>
    Within.pure ⟨⟨rfl, rfl, rfl⟩, rfl, [], x, h, nofun, trivial, rfl, hx, fun hne => absurd rfl hne⟩
  | a :: as, f, w, x, ds, us, h, hd, hseq, hin, hx => by
    refine Within.bind (edit_does h hd hseq hin.1 hx) ?_
    rintro f1 w1 - ⟨hlike, hseq1, e, x1, hshows, he, hfits, hturn, hlen⟩
    have hd1 : f1.Apart f1.delta f1.epsilon := by
      rw [hlike.delta, hlike.epsilon]
      exact ⟨hlike.body ▸ hd.taken, hlike.body ▸ hd.put, hd.transcripts⟩
    refine (runEdits_does as hshows hd1 (hseq1 ▸ hseq) (hlen ▸ hin.2) hfits.before).mono ?_
    rintro f2 w2 ⟨hlike2, hseq2, g, x2, hshows2, hg, halong, hback, hsmall, -⟩
    refine ⟨⟨hlike2.body.trans hlike.body, hlike2.delta.trans hlike.delta, hlike2.epsilon.trans hlike.epsilon⟩,
      hseq2.trans hseq1, g ++ [e], x2, ?_, ?_, ?_, ?_, hsmall, fun _ => append_ne_nil_of_right_ne_nil g (cons_ne_nil e [])⟩
    · rw [append_assoc]
      exact hshows2
    · intro e' he'
      rcases mem_append.1 he' with he' | he'
      · rw [hg e' he', hseq1]
      · rw [mem_singleton.1 he', he]
    · exact (along_append g [e] x2 []).2 ⟨halong, hback.symm ▸ ⟨hfits, trivial⟩⟩
    · rw [rewind_append, hback]
      exact hturn

/-- A mark, and the edits after it. -/
def runGroup (s : UInt32) (as : List Edit) (f : File) : Editing File := do
  let f ← filemark f s
  runEdits as f

theorem filemark_does {j : History} (h : f.Keeps j w) (s : UInt32) :
    Does (fun f' w' => f' = { f with seq := s.toInt32 } ∧ f.Shows f.delta f.epsilon j.now j.done [] w') (filemark f s) w := by
  obtain ⟨t, ht, hx, hds, -⟩ := h.shows
  refine Within.bind (nc_does ht f.epsilon) ?_
  rintro n w' - ⟨rfl, rfl⟩
  by_cases hz : (t f.epsilon).length ≠ 0
  · rw [if_pos hz]
    refine Within.bind (delete_does ht (Nat.zero_le _) le_rfl) ?_
    rintro - w1 - h1
    refine Within.pure ⟨rfl, _, h1, ?_, ?_, ?_⟩
    · rw [File.doc, update_of_ne h.apart.put]
      exact hx
    · rw [update_of_ne h.apart.transcripts]
      exact hds
    · rw [update_self, deleteFrom, drop_length]
      rfl
  · rw [if_neg hz]
    exact Within.pure ⟨rfl, t, ht, hx, hds, eq_nil_of_length_eq_zero (not_not.1 hz)⟩

/-- **A group of edits** is one more. -/
theorem runGroup_does {j : History} {s : UInt32} {as : List Edit} (h : f.Keeps j w) (hs : f.seq.toUInt32 < s)
    (hpos : s.toInt32 > 0) (hne : as ≠ []) (hin : Edit.AllInside as j.now.text.length) :
    Does (fun f' w' => f.Like f' ∧ f'.seq = s.toInt32 ∧ ∃ j', f'.Keeps j' w' ∧ Added edits s.toNat j j') (runGroup s as f) w := by
  refine Within.bind (filemark_does h s) ?_
  rintro f1 w1 - ⟨rfl, hshows⟩
  have hmarked : File.Shows { f with seq := s.toInt32 } f.delta f.epsilon j.now j.done [] w1 := hshows
  have hd : File.Apart { f with seq := s.toInt32 } f.delta f.epsilon := ⟨h.apart.taken, h.apart.put, h.apart.transcripts⟩
  refine (runEdits_does as hmarked hd hpos hin h.small).mono ?_
  rintro f2 w2 ⟨hlike, hseq, g, x, hshows2, hg, halong, hback, hsmall, hgne⟩
  have hzero : s ≠ 0 := by
    rintro rfl
    exact absurd hs (Nat.not_lt_zero _)
  have hlarger : ∀ a ∈ j.done, edits.stamp a < s.toNat := by
    have hseq := h.seq
    have hfalls := h.order.falls
    intro a ha
    cases hdone : j.done with
    | nil =>
      rw [hdone] at ha
      cases ha
    | cons e es =>
      rw [hdone] at ha hseq hfalls
      have he : e.seq < s := by
        rw [hseq] at hs
        exact hs
      rcases mem_cons.1 ha with rfl | ha
      · exact he
      · have hle := (pairwise_cons.1 hfalls).1 _ (mem_map_of_mem ha)
        exact Nat.lt_of_le_of_lt (Nat.not_lt.1 hle) he
  have hadded : Added edits s.toNat j ⟨x, g ++ j.done, []⟩ :=
    ⟨⟨g, x, hgne hne, fun a ha => congrArg UInt32.toNat (hg a ha), halong, hback, rfl⟩, hlarger⟩
  refine ⟨⟨hlike.body, hlike.delta, hlike.epsilon⟩, hseq, _, ⟨hshows2, hadded.inOrder h.order, ?_, ?_, nofun, ?_, hsmall⟩, hadded⟩
  · obtain ⟨e, _, rfl⟩ := exists_cons_of_ne_nil (hgne hne)
    exact hseq.trans (congrArg UInt32.toInt32 (hg e mem_cons_self).symm)
  · intro e he
    rcases mem_append.1 he with he | he
    · exact hg e he ▸ hzero
    · exact h.done e he
  · rw [hlike.delta, hlike.epsilon]
    exact ⟨hlike.body ▸ hd.taken, hlike.body ▸ hd.put, hd.transcripts⟩

end

end Plan9.Acme
