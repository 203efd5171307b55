/-
A file as its text, name and modify bit, with its transcripts as records of changes: each
function of `file.c` is an operation on these, as long as the temporary file has not
wrapped.

What a record says is taken back, and the record that takes that back in turn is put on the
other transcript (`edits`).
-/
import Plan9.Acme.File
import Plan9.Lib.Journal

namespace Plan9.Acme

open List

/-! ## Changes -/

/-- What undo and redo bring back. -/
structure Doc where
  text : List Rune
  name : List Rune
  mod : Bool

inductive Change
  | delete (p0 n : Nat)
  | insert (p0 : Nat) (s : List Rune)
  | filename (s : List Rune)

def Change.apply : Change → Doc → Doc
  | .delete p0 n, x => { x with text := deleteFrom p0 (p0 + n) x.text }
  | .insert p0 s, x => { x with text := insertAt p0 s x.text }
  | .filename s, x => { x with name := s }

/-- What takes the change back. -/
def Change.inverse : Change → Doc → Change
  | .delete p0 n, x => .insert p0 ((x.text.drop p0).take n)
  | .insert p0 s, _ => .delete p0 s.length
  | .filename _, x => .filename x.name

/-- A `uint` has room for the lengths. -/
structure Doc.Small (x : Doc) : Prop where
  text : x.text.length < 2 ^ 32
  name : x.name.length < 2 ^ 32

/-- It is in the text. -/
def Change.Inside : Change → List Rune → Prop
  | .delete p0 n, t => p0 + n ≤ t.length
  | .insert p0 _, t => p0 ≤ t.length
  | .filename _, _ => True

structure Change.Fits (c : Change) (x : Doc) : Prop where
  inside : c.Inside x.text
  before : x.Small
  after : (c.apply x).Small

/-- What a record says: the sequence number, the modify bit as it was, and the change to be made. -/
structure Entry where
  seq : UInt32
  mod : Bool
  change : Change

def Entry.turn (e : Entry) (x : Doc) : Entry × Doc :=
  (⟨e.seq, x.mod, e.change.inverse x⟩, { e.change.apply x with mod := e.mod })

section

variable {p0 n : Nat} {s t : List Rune}

theorem exists_cut (h : p0 ≤ t.length) : ∃ a b, t = a ++ b ∧ p0 = a.length :=
  ⟨t.take p0, t.drop p0, (take_append_drop p0 t).symm, (length_take_of_le h).symm⟩

theorem insertAt_cut (a b : List Rune) : insertAt a.length s (a ++ b) = a ++ s ++ b := by
  rw [insertAt, take_left, drop_left]

theorem deleteFrom_cut (a b : List Rune) : deleteFrom a.length (a.length + s.length) (a ++ s ++ b) = a ++ b := by
  rw [deleteFrom, ← length_append, drop_left, append_assoc, take_left]

theorem slice_cut (a b : List Rune) : ((a ++ s ++ b).drop a.length).take s.length = s := by
  rw [append_assoc, drop_left, take_left]

theorem insertAt_deleteFrom (h : p0 + n ≤ t.length) : insertAt p0 ((t.drop p0).take n) (deleteFrom p0 (p0 + n) t) = t := by
  obtain ⟨a, r, rfl, rfl⟩ := exists_cut (Nat.le_of_add_right_le h)
  have hn : n ≤ r.length := by
    rw [length_append] at h
    omega
  obtain ⟨b, c, rfl, rfl⟩ := exists_cut hn
  rw [← append_assoc, deleteFrom_cut, slice_cut, insertAt_cut]

theorem deleteFrom_insertAt (h : p0 ≤ t.length) : deleteFrom p0 (p0 + s.length) (insertAt p0 s t) = t := by
  obtain ⟨a, b, rfl, rfl⟩ := exists_cut h
  rw [insertAt_cut, deleteFrom_cut]

theorem slice_insertAt (h : p0 ≤ t.length) : ((insertAt p0 s t).drop p0).take s.length = s := by
  obtain ⟨a, b, rfl, rfl⟩ := exists_cut h
  rw [insertAt_cut, slice_cut]

end

/-- **What is changed back** is as it was, and so is the record. -/
theorem Entry.turn_turn {e : Entry} {x : Doc} (h : e.change.Inside x.text) : (e.turn x).1.turn (e.turn x).2 = (e, x) := by
  obtain ⟨seq, mod, change⟩ := e
  obtain ⟨t, name, m⟩ := x
  cases change with
  | delete p0 n =>
    have hlen : ((t.drop p0).take n).length = n := by
      rw [length_take, length_drop]
      exact Nat.min_eq_left (Nat.le_sub_of_add_le (Nat.add_comm p0 n ▸ h))
    change ((⟨seq, mod, .delete p0 ((t.drop p0).take n).length⟩ : Entry),
      (⟨insertAt p0 ((t.drop p0).take n) (deleteFrom p0 (p0 + n) t), name, m⟩ : Doc)) = _
    rw [hlen, insertAt_deleteFrom h]
  | insert p0 s =>
    change ((⟨seq, mod, .insert p0 (((insertAt p0 s t).drop p0).take s.length)⟩ : Entry),
      (⟨deleteFrom p0 (p0 + s.length) (insertAt p0 s t), name, m⟩ : Doc)) = _
    rw [slice_insertAt h, deleteFrom_insertAt h]
  | filename s => rfl

theorem Entry.turn_inside {e : Entry} {x : Doc} (h : e.change.Inside x.text) :
    (e.turn x).1.change.Inside (e.turn x).2.text := by
  obtain ⟨_, _, change⟩ := e
  obtain ⟨t, _, m⟩ := x
  cases change with
  | delete p0 n =>
    change p0 + n ≤ t.length at h
    change p0 ≤ (deleteFrom p0 (p0 + n) t).length
    rw [length_deleteFrom (Nat.le_add_right p0 n) h]
    omega
  | insert p0 s =>
    change p0 ≤ t.length at h
    change p0 + s.length ≤ (insertAt p0 s t).length
    rw [length_insertAt]
    omega
  | filename s => trivial

theorem Entry.turn_fits {e : Entry} {x : Doc} (h : e.change.Fits x) : (e.turn x).1.change.Fits (e.turn x).2 := by
  have hback : ((e.turn x).1.turn (e.turn x).2).2 = x := congrArg Prod.snd (turn_turn h.inside)
  have htext : ((e.turn x).1.change.apply (e.turn x).2).text = x.text :=
    (rfl : _ = ((e.turn x).1.turn (e.turn x).2).2.text).trans (congrArg Doc.text hback)
  have hname : ((e.turn x).1.change.apply (e.turn x).2).name = x.name :=
    (rfl : _ = ((e.turn x).1.turn (e.turn x).2).2.name).trans (congrArg Doc.name hback)
  refine ⟨turn_inside h.inside, ⟨h.after.text, h.after.name⟩, ?_, ?_⟩
  · rw [htext]
    exact h.before.text
  · rw [hname]
    exact h.before.name

/-- The changes to a file can be taken back. -/
def edits : Reversal Doc Entry where
  stamp e := e.seq.toNat
  turn := Entry.turn
  Fits e x := e.change.Fits x
  turn_stamp _ _ := rfl
  turn_fits _ _ := Entry.turn_fits
  turn_turn _ _ h := Entry.turn_turn h.inside

/-! ## Records -/

/-- What stands before the structure. -/
def Entry.data (e : Entry) : List Rune :=
  match e.change with
  | .delete _ _ => []
  | .insert _ s => s
  | .filename s => s

def Entry.undo (e : Entry) : Undo :=
  match e.change with
  | .delete p0 n => ⟨Delete, modbit e.mod, e.seq, .ofNat p0, .ofNat n⟩
  | .insert p0 s => ⟨Insert, modbit e.mod, e.seq, .ofNat p0, .ofNat s.length⟩
  | .filename s => ⟨Filename, modbit e.mod, e.seq, 0, .ofNat s.length⟩

def Entry.runes (e : Entry) : List Rune := e.data ++ e.undo.runes

/-- A transcript, the last record first. -/
def transcript : List Entry → List Rune
  | [] => []
  | e :: es => transcript es ++ e.runes

theorem Undo.ofRunes_runes (u : Undo) : Undo.ofRunes u.runes = u := by
  obtain ⟨type, mod, _, _, n⟩ := u
  have ht := type.toNat_lt
  have hm := mod.toNat_lt
  have hr : (UInt32.ofNat (type.toNat + 2 ^ 16 * mod.toNat)).toNat = type.toNat + 2 ^ 16 * mod.toNat := by
    exact Nat.mod_eq_of_lt (by omega)
  rw [runes, ofRunes, hr, Nat.add_mul_mod_self_left, Nat.mod_eq_of_lt ht, Nat.add_mul_div_left _ _ (by decide),
    Nat.div_eq_of_lt ht, Nat.zero_add, UInt16.ofNat_toNat, UInt16.ofNat_toNat]

theorem Undo.length_runes (u : Undo) : u.runes.length = Undosize := rfl

theorem modbit_ne (mod : Bool) : decide (modbit mod ≠ 0) = mod := by
  cases mod with
  | false => rfl
  | true => rfl

end Plan9.Acme
