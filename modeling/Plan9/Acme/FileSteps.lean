/-
What each function of `file.c` does to the texts of a file's buffers.

The texts of all buffers are known (`World.Has`) as long as the temporary file has not
wrapped. A record that is put on a transcript is an `Entry`, and one that is taken back is
turned.
-/
import Plan9.Acme.FileFacts

namespace Plan9.Acme

open Function List

/-- The buffers have these texts. -/
def World.Has (w : World) (t : Nat → List Rune) : Prop := State.Kept ⟨w.disk, w.buf, t, true⟩

/-- As long as the temporary file does not wrap. -/
abbrev Does {α : Type} (Q : α → World → Prop) (p : Editing α) (w : World) : Prop := Within ADDRS Q p w

section

variable {w : World} {t : Nat → List Rune}

theorem call_does (op : Op) (h : w.Has t) (hin : op.Inside (t op.buf)) :
    Does (fun s w' => w'.Has (update t op.buf (op.text (t op.buf))) ∧ s = op.out (t op.buf)) (call op) w := by
  obtain ⟨⟨d, b, s⟩, hcall, hw, hout, -⟩ := (State.call_spec op (h.works op.buf) hin).exists_ok fun _ => id
  have hrun : (call op).run w = (.ok s, ⟨d, update w.buf op.buf b⟩) := by
    simp only [call, hcall]
  intro hle
  rw [hrun] at hle ⊢
  exact ⟨s, rfl, State.Kept.update h hle hw, hout hle⟩

variable {i fuel q0 q1 : Nat} {e : Entry} {rest : List Rune} {stop : UInt32}

theorem read_does {n : Nat} (h : w.Has t) (hin : q0 + n ≤ (t i).length) :
    Does (fun s w' => w'.Has t ∧ s = ((t i).drop q0).take n) (call (.read i q0 n)) w := by
  refine (call_does (.read i q0 n) h hin).mono ?_
  rintro s w' ⟨h', hs⟩
  have hsame : update t i (t i) = t := update_eq_self i t
  exact ⟨hsame ▸ h', hs⟩

theorem insert_does {s : List Rune} (h : w.Has t) (hin : q0 ≤ (t i).length) :
    Does (fun _ w' => w'.Has (update t i (insertAt q0 s (t i)))) (call (.insert i q0 s)) w :=
  (call_does (.insert i q0 s) h hin).mono fun _ _ h => h.1

theorem delete_does (h : w.Has t) (hq : q0 ≤ q1) (hin : q1 ≤ (t i).length) :
    Does (fun _ w' => w'.Has (update t i (deleteFrom q0 q1 (t i)))) (call (.delete i q0 q1)) w :=
  (call_does (.delete i q0 q1) h ⟨hq, hin⟩).mono fun _ _ h => h.1

theorem nc_does (h : w.Has t) (i : Nat) : Does (fun n w' => w' = w ∧ n = (t i).length) (nc i) w :=
  fun _ => ⟨_, rfl, rfl, (State.Kept.holds h i).nc⟩

theorem bufappend_does (h : w.Has t) (i : Nat) (s : List Rune) :
    Does (fun _ w' => w'.Has (update t i (t i ++ s))) (bufappend i s) w := by
  refine Within.bind (nc_does h i) ?_
  rintro n w' - ⟨rfl, rfl⟩
  refine Within.bind (insert_does h le_rfl) ?_
  rintro - w'' - h'
  refine Within.pure ?_
  have htext : insertAt (t i).length s (t i) = t i ++ s := by
    rw [insertAt, take_length, drop_length, append_nil]
  exact htext ▸ h'

/-! ## Putting records on a transcript -/

theorem fileuninsert_does (h : w.Has t) (f : File) (delta p0 ns : Nat) :
    Does (fun _ w' => w'.Has (update t delta
      (t delta ++ (⟨f.seq.toUInt32, f.mod, .delete p0 ns⟩ : Entry).runes))) (fileuninsert f delta p0 ns) w :=
  bufappend_does h delta _

theorem slice_add (l : List Rune) (i m n : Nat) :
    (l.drop i).take m ++ (l.drop (i + m)).take n = (l.drop i).take (m + n) := by
  rw [take_add, drop_drop]

theorem copyLoop_does (f : File) {delta p1 : Nat} (hne : f.body ≠ delta) : ∀ (fuel : Nat) {w : World}
    {t : Nat → List Rune} {i : Nat}, w.Has t → i ≤ p1 → p1 ≤ (t f.body).length → p1 - i ≤ fuel →
    Does (fun _ w' => w'.Has (update t delta (t delta ++ ((t f.body).drop i).take (p1 - i))))
      (copyLoop f delta p1 fuel i) w := by
  intro fuel
  induction fuel with
  | zero =>
    intro w t i h hi hp hfuel
    obtain rfl : i = p1 := by omega
    rw [copyLoop, if_neg (Nat.lt_irrefl i)]
    refine Within.pure ?_
    rw [Nat.sub_self, take_zero, append_nil, update_eq_self]
    exact h
  | succ fuel ih =>
    intro w t i h hi hp hfuel
    rw [copyLoop]
    by_cases hlt : i < p1
    · rw [if_pos hlt]
      obtain ⟨n, hn⟩ : ∃ n, n = min (p1 - i) RBUFSIZE := ⟨_, rfl⟩
      have hpos : 0 < RBUFSIZE := by decide
      rw [← hn]
      have hin : i + n ≤ (t f.body).length := by omega
      refine Within.bind (read_does h hin) ?_
      rintro buf w1 - ⟨h1, rfl⟩
      refine Within.bind (bufappend_does h1 delta _) ?_
      rintro - w2 - h2
      have hrest : p1 - (i + n) ≤ fuel := by omega
      have hbody : update t delta (t delta ++ ((t f.body).drop i).take n) f.body = t f.body :=
        update_of_ne hne _ _
      have hlast := ih h2 (i := i + n) (by omega) (by rw [hbody]; exact hp) hrest
      rw [hbody, update_self, update_idem, append_assoc, slice_add] at hlast
      have hsum : n + (p1 - (i + n)) = p1 - i := by omega
      rw [hsum] at hlast
      exact hlast
    rw [if_neg hlt]
    obtain rfl : i = p1 := by omega
    refine Within.pure ?_
    rw [Nat.sub_self, take_zero, append_nil, update_eq_self]
    exact h

theorem fileundelete_does (h : w.Has t) (f : File) {delta p0 p1 : Nat} (hne : f.body ≠ delta) (hp : p0 ≤ p1)
    (hp1 : p1 ≤ (t f.body).length) :
    Does (fun _ w' => w'.Has (update t delta
      (t delta ++ (⟨f.seq.toUInt32, f.mod, .insert p0 (((t f.body).drop p0).take (p1 - p0))⟩ : Entry).runes)))
      (fileundelete f delta p0 p1) w := by
  refine Within.bind (copyLoop_does f hne (p1 - p0) h hp hp1 le_rfl) ?_
  rintro - w1 - h1
  refine (bufappend_does h1 delta _).mono ?_
  rintro - w2 h2
  rw [update_self, update_idem, append_assoc] at h2
  have hlen : (((t f.body).drop p0).take (p1 - p0)).length = p1 - p0 := by
    rw [length_take, length_drop]
    omega
  rw [Entry.runes, Entry.undo]
  dsimp only
  rw [hlen]
  exact h2

theorem fileunsetname_does (h : w.Has t) (f : File) (delta : Nat) :
    Does (fun _ w' => w'.Has (update t delta (t delta ++ (⟨f.seq.toUInt32, f.mod, .filename f.name⟩ : Entry).runes)))
      (fileunsetname f delta) w := by
  rw [fileunsetname]
  by_cases hz : f.name.length ≠ 0
  · rw [if_pos hz]
    refine Within.bind (bufappend_does h delta f.name) ?_
    rintro - w1 - h1
    refine (bufappend_does h1 delta _).mono ?_
    rintro - w2 h2
    rw [update_self, update_idem, append_assoc] at h2
    exact h2
  rw [if_neg hz]
  refine (bufappend_does h delta _).mono ?_
  rintro - w1 h1
  have hnil : f.name = [] := eq_nil_of_length_eq_zero (not_not.1 hz)
  rw [hnil] at h1 ⊢
  exact h1

theorem reinsertLoop_does (f : File) {delta up p0 n : Nat} (hne : f.body ≠ delta) : ∀ (fuel : Nat) {w : World}
    {t : Nat → List Rune} {i : Nat}, w.Has t → i ≤ n → up + n ≤ (t delta).length → p0 + i ≤ (t f.body).length →
    n - i ≤ fuel →
    Does (fun _ w' => w'.Has (update t f.body
      (insertAt (p0 + i) (((t delta).drop (up + i)).take (n - i)) (t f.body)))) (reinsertLoop f delta up p0 n fuel i) w := by
  have hdone : ∀ {w : World} {t : Nat → List Rune} {i : Nat}, w.Has t → i = n →
      Does (fun _ w' => w'.Has (update t f.body
        (insertAt (p0 + i) (((t delta).drop (up + i)).take (n - i)) (t f.body)))) (pure ()) w := by
    rintro w t i h rfl
    refine Within.pure ?_
    rw [Nat.sub_self, take_zero, insertAt, append_nil, take_append_drop, update_eq_self]
    exact h
  intro fuel
  induction fuel with
  | zero =>
    intro w t i h hi hup hp hfuel
    have hin : i = n := by omega
    rw [reinsertLoop, if_neg (by omega)]
    exact hdone h hin
  | succ fuel ih =>
    intro w t i h hi hup hp hfuel
    rw [reinsertLoop]
    by_cases hlt : i < n
    · rw [if_pos hlt]
      obtain ⟨m, hm⟩ : ∃ m, m = min (n - i) RBUFSIZE := ⟨_, rfl⟩
      have hpos : 0 < RBUFSIZE := by decide
      have hmle : 0 < m ∧ m ≤ n - i := by omega
      rw [← hm]
      have hin : up + i + m ≤ (t delta).length := by omega
      refine Within.bind (read_does h hin) ?_
      rintro buf w1 - ⟨h1, rfl⟩
      refine Within.bind (insert_does h1 hp) ?_
      rintro - w2 - h2
      -- the rest of what is inserted comes after it
      obtain ⟨s, hs⟩ : ∃ s, s = ((t delta).drop (up + i)).take (n - i) := ⟨_, rfl⟩
      have hslen : s.length = n - i := by
        rw [hs, length_take, length_drop]
        omega
      have hfirst : ((t delta).drop (up + i)).take m = s.take m := by
        rw [hs, take_take, Nat.min_eq_left hmle.2]
      have hlast : ((t delta).drop (up + (i + m))).take (n - (i + m)) = s.drop m := by
        rw [hs, drop_take, drop_drop, Nat.add_assoc, Nat.sub_sub]
      have hdelta : update t f.body (insertAt (p0 + i) (s.take m) (t f.body)) delta = t delta :=
        update_of_ne hne.symm _ _
      rw [hfirst] at h2
      have hnext := ih h2 (i := i + m) (by omega) (hdelta ▸ hup) ?_ (by omega)
      · rw [hdelta, hlast, update_self, update_idem, ← Nat.add_assoc,
          insertAt_insertAt hp (by omega), hs] at hnext
        exact hnext
      · rw [update_self, length_insertAt, length_take]
        omega
    · rw [if_neg hlt]
      exact hdone h (by omega)

/-! ## Taking a record back -/

/-- What is undone of the file. -/
def File.doc (f : File) (t : Nat → List Rune) : Doc := ⟨t f.body, f.name, f.mod⟩

/-- The file with what a record brings back. -/
def File.back (f : File) (e : Entry) (x : Doc) : File := { f with name := x.name, seq := e.seq.toInt32, mod := x.mod }

/-- The file's text, and the transcripts that are taken from and put on, are different buffers. -/
structure File.Apart (f : File) (delta epsilon : Nat) : Prop where
  taken : f.body ≠ delta
  put : f.body ≠ epsilon
  transcripts : delta ≠ epsilon

theorem undoRecord_does {f : File} {delta epsilon : Nat} (q0 q1 : Nat) (h : w.Has t)
    (hd : f.Apart delta epsilon) (hfits : e.change.Fits (f.doc t)) (htop : t delta = rest ++ e.runes) :
    Does (fun r w' => w'.Has (update
          (update t epsilon (t epsilon ++ (e.turn (f.doc t)).1.runes)) f.body (e.turn (f.doc t)).2.text) ∧
        r.1 = f.back e (e.turn (f.doc t)).2 ∧ r.2.1 = rest.length)
      (undoRecord f delta epsilon e.undo (rest.length + e.data.length) q0 q1) w := by
  have hsmall : ∀ {n : Nat}, n < 2 ^ 32 → (UInt32.ofNat n).toNat = n := by
    intro n hn
    exact Nat.mod_eq_of_lt hn
  have hsum : ∀ {p n : Nat}, p + n < 2 ^ 32 → (UInt32.ofNat p + UInt32.ofNat n).toNat = p + n := by
    intro p n hn
    rw [← UInt32.ofNat_add]
    exact hsmall hn
  obtain ⟨seq, mod, change⟩ := e
  cases change with
  | delete p0 n =>
    have hin : p0 + n ≤ (t f.body).length := hfits.inside
    have hlt : (t f.body).length < 2 ^ 32 := hfits.before.text
    have hp := hsmall (show p0 < 2 ^ 32 by omega)
    have hpn := hsum (show p0 + n < 2 ^ 32 by omega)
    change Does _ (undoRecord f delta epsilon ⟨Delete, modbit mod, seq, .ofNat p0, .ofNat n⟩ rest.length q0 q1) w
    rw [undoRecord, if_pos rfl]
    rw [hp, hpn, modbit_ne]
    obtain ⟨y, hy⟩ : ∃ y, y = t epsilon ++ (⟨seq, f.mod, .insert p0 (((t f.body).drop p0).take n)⟩ : Entry).runes := ⟨_, rfl⟩
    have hrec : Does (fun _ w' => w'.Has (update t epsilon y))
        (fileundelete { f with seq := seq.toInt32 } epsilon p0 (p0 + n)) w := by
      have := fileundelete_does h { f with seq := seq.toInt32 } hd.put (Nat.le_add_right p0 n) hin
      rw [Nat.add_sub_cancel_left] at this
      rw [hy]
      exact this
    have hbody : update t epsilon y f.body = t f.body := update_of_ne hd.put _ _
    refine Within.bind hrec ?_
    rintro - w1 - h1
    refine Within.bind (delete_does h1 (Nat.le_add_right p0 n) (hbody.symm ▸ hin)) ?_
    rintro - w2 - h2
    refine Within.pure ⟨?_, rfl, rfl⟩
    rw [hbody, hy] at h2
    exact h2
  | insert p0 s =>
    have hin : p0 ≤ (t f.body).length := hfits.inside
    have hlt : (insertAt p0 s (t f.body)).length < 2 ^ 32 := hfits.after.text
    rw [length_insertAt] at hlt
    have hp := hsmall (show p0 < 2 ^ 32 by omega)
    have hn := hsmall (show s.length < 2 ^ 32 by omega)
    change Does _ (undoRecord f delta epsilon ⟨Insert, modbit mod, seq, .ofNat p0, .ofNat s.length⟩
      (rest.length + s.length) q0 q1) w
    rw [undoRecord, if_neg (show Insert ≠ Delete by decide), if_pos rfl]
    rw [hp, hn, modbit_ne, Nat.add_sub_cancel]
    obtain ⟨y, hy⟩ : ∃ y, y = t epsilon ++ (⟨seq, f.mod, .delete p0 s.length⟩ : Entry).runes := ⟨_, rfl⟩
    have hrec : Does (fun _ w' => w'.Has (update t epsilon y))
        (fileuninsert { f with seq := seq.toInt32 } epsilon p0 s.length) w :=
      hy ▸ fileuninsert_does h { f with seq := seq.toInt32 } epsilon p0 s.length
    have hbody : update t epsilon y f.body = t f.body := update_of_ne hd.put _ _
    have hdelta : update t epsilon y delta = t delta := update_of_ne hd.transcripts _ _
    have hdata : ((t delta).drop (rest.length + 0)).take (s.length - 0) = s := by
      rw [htop, Nat.add_zero, drop_left]
      exact take_left
    have hroom : rest.length + s.length ≤ (t delta).length := by
      rw [htop, length_append]
      exact Nat.add_le_add_left (by rw [Entry.runes, length_append]; exact Nat.le_add_right _ _) _
    refine Within.bind hrec ?_
    rintro - w1 - h1
    refine Within.bind (reinsertLoop_does { f with seq := seq.toInt32, mod := mod } hd.taken s.length h1 (Nat.zero_le _)
      (hdelta.symm ▸ hroom) (hbody.symm ▸ hin) le_rfl) ?_
    rintro - w2 - h2
    refine Within.pure ⟨?_, rfl, rfl⟩
    rw [hdelta, hdata, hbody, hy] at h2
    exact h2
  | filename s =>
    have hn := hsmall (show s.length < 2 ^ 32 from hfits.after.name)
    change Does _ (undoRecord f delta epsilon ⟨Filename, modbit mod, seq, 0, .ofNat s.length⟩
      (rest.length + s.length) q0 q1) w
    rw [undoRecord, if_neg (show Filename ≠ Delete by decide), if_neg (show Filename ≠ Insert by decide), if_pos rfl]
    rw [hn, modbit_ne, Nat.add_sub_cancel]
    obtain ⟨y, hy⟩ : ∃ y, y = t epsilon ++ (⟨seq, f.mod, .filename f.name⟩ : Entry).runes := ⟨_, rfl⟩
    have hrec : Does (fun _ w' => w'.Has (update t epsilon y))
        (fileunsetname { f with seq := seq.toInt32 } epsilon) w :=
      hy ▸ fileunsetname_does h { f with seq := seq.toInt32 } epsilon
    have hbody : update t epsilon y f.body = t f.body := update_of_ne hd.put _ _
    have hdelta : update t epsilon y delta = t delta := update_of_ne hd.transcripts _ _
    have hdata : ((t delta).drop rest.length).take s.length = s := by
      rw [htop, drop_left]
      exact take_left
    have hroom : rest.length + s.length ≤ (t delta).length := by
      rw [htop, length_append]
      exact Nat.add_le_add_left (by rw [Entry.runes, length_append]; exact Nat.le_add_right _ _) _
    refine Within.bind hrec ?_
    rintro - w1 - h1
    refine Within.bind (read_does h1 (hdelta.symm ▸ hroom)) ?_
    rintro name w2 - ⟨h2, hname⟩
    refine Within.pure ⟨?_, ?_, rfl⟩
    · rw [hy] at h2 hbody
      have hstay := update_eq_self f.body (update t epsilon (t epsilon ++ Entry.runes ⟨seq, f.mod, .filename f.name⟩))
      rw [hbody] at hstay
      exact hstay.symm ▸ h2
    · rw [hdelta, hdata] at hname
      rw [hname]
      rfl

/-! ## The loop of `fileundo` -/

/-- The texts once the record is taken back. -/
def File.texts (f : File) (delta epsilon : Nat) (e : Entry) (rest : List Rune) (t : Nat → List Rune) : Nat → List Rune :=
  Function.update (Function.update
    (Function.update t epsilon (t epsilon ++ (e.turn (f.doc t)).1.runes)) f.body (e.turn (f.doc t)).2.text) delta rest

variable {f : File} {delta epsilon : Nat} {isundo : Bool}

theorem Entry.undo_seq (e : Entry) : e.undo.seq = e.seq := by
  obtain ⟨_, _, change⟩ := e
  cases change with
  | delete p0 n => rfl
  | insert p0 s => rfl
  | filename s => rfl

theorem length_top (htop : t delta = rest ++ e.runes) :
    (t delta).length = rest.length + e.data.length + Undosize := by
  rw [htop, Entry.runes, length_append, length_append, Undo.length_runes, Nat.add_assoc]

theorem top_does (h : w.Has t) (htop : t delta = rest ++ e.runes) :
    Does (fun r w' => w'.Has t ∧ Undo.ofRunes r = e.undo) (call (.read delta ((t delta).length - Undosize) Undosize)) w := by
  have hlen := length_top htop
  have hin : (t delta).length - Undosize + Undosize ≤ (t delta).length := by omega
  refine (read_does h hin).mono ?_
  rintro r w' ⟨h', rfl⟩
  refine ⟨h', ?_⟩
  have hup : (t delta).length - Undosize = (rest ++ e.data).length := by
    rw [length_append]
    omega
  have htake : e.undo.runes.take Undosize = e.undo.runes := take_of_length_le le_rfl
  rw [hup, htop, Entry.runes, ← append_assoc, drop_left, htake, Undo.ofRunes_runes]

theorem undoLoop_step {stop' : UInt32}
    {Q : File × Nat × Nat → World → Prop} (h : w.Has t) (hd : f.Apart delta epsilon) (hfits : e.change.Fits (f.doc t))
    (htop : t delta = rest ++ e.runes) (hstop : stop' = if isundo = false ∧ stop = 0 then e.seq else stop)
    (hundo : ¬ (isundo = true ∧ e.seq < stop')) (hredo : ¬ (isundo = false ∧ e.seq > stop'))
    (hnext : ∀ w' q0' q1', w'.Has (f.texts delta epsilon e rest t) →
      Does Q (undoLoop isundo delta epsilon fuel (f.back e (e.turn (f.doc t)).2) stop' q0' q1') w') :
    Does Q (undoLoop isundo delta epsilon (fuel + 1) f stop q0 q1) w := by
  have hlen := length_top htop
  have hpos : 0 < Undosize := by decide
  refine Within.bind (nc_does h delta) ?_
  rintro n w' - ⟨rfl, rfl⟩
  rw [if_neg (show ¬ (t delta).length = 0 by omega)]
  dsimp only
  refine Within.bind (top_does h htop) ?_
  rintro r w1 - ⟨h1, hr⟩
  have hup : (t delta).length - Undosize = rest.length + e.data.length := by omega
  rw [hr, e.undo_seq, ← hstop, if_neg hundo, if_neg hredo, hup]
  refine Within.bind (undoRecord_does q0 q1 h1 hd hfits htop) ?_
  rintro ⟨_, _, q0', q1'⟩ _ - ⟨h2, rfl, rfl⟩
  refine Within.bind (nc_does h2 delta) ?_
  rintro n w' - ⟨rfl, rfl⟩
  have hdelta : update (update t epsilon (t epsilon ++ (e.turn (f.doc t)).1.runes)) f.body
      (e.turn (f.doc t)).2.text delta = t delta := by
    rw [update_of_ne hd.taken.symm, update_of_ne hd.transcripts]
  rw [hdelta]
  have hle : rest.length ≤ (t delta).length := by omega
  refine Within.bind (delete_does h2 hle (by rw [hdelta])) ?_
  rintro - w3 - h3
  rw [hdelta] at h3
  have hrest : deleteFrom rest.length (t delta).length (t delta) = rest := by
    rw [deleteFrom, drop_length, append_nil, htop, take_left]
  rw [hrest] at h3
  exact hnext w3 q0' q1' h3

theorem undoLoop_nil (stop : UInt32) (q0 q1 : Nat) (h : w.Has t) (hnil : t delta = []) :
    Does (fun r w' => w'.Has t ∧ r.1 = if isundo then { f with seq := 0 } else f)
      (undoLoop isundo delta epsilon (fuel + 1) f stop q0 q1) w := by
  refine Within.bind (nc_does h delta) ?_
  rintro n w' - ⟨rfl, rfl⟩
  rw [hnil, if_pos length_nil]
  exact Within.pure ⟨h, rfl⟩

theorem undoLoop_stop (q0 q1 : Nat) (h : w.Has t)
    (htop : t delta = rest ++ e.runes) (hzero : stop ≠ 0)
    (hstop : isundo = true ∧ e.seq < stop ∨ isundo = false ∧ e.seq > stop) :
    Does (fun r w' => w'.Has t ∧ r.1 = if isundo then { f with seq := e.seq.toInt32 } else f)
      (undoLoop isundo delta epsilon (fuel + 1) f stop q0 q1) w := by
  have hlen := length_top htop
  have hpos : 0 < Undosize := by decide
  refine Within.bind (nc_does h delta) ?_
  rintro n w' - ⟨rfl, rfl⟩
  rw [if_neg (show ¬ (t delta).length = 0 by omega)]
  dsimp only
  refine Within.bind (top_does h htop) ?_
  rintro r w1 - ⟨h1, hr⟩
  have hsame : (if isundo = false ∧ stop = 0 then e.seq else stop) = stop := if_neg fun hz => hzero hz.2
  rw [hr, e.undo_seq, hsame]
  rcases hstop with ⟨rfl, hlt⟩ | ⟨rfl, hgt⟩
  · rw [if_pos (show true = true ∧ e.seq < stop from ⟨rfl, hlt⟩)]
    exact Within.pure ⟨h1, rfl⟩
  · rw [if_neg (show ¬ (false = true ∧ e.seq < stop) from fun hc => Bool.false_ne_true hc.1),
      if_pos (show false = false ∧ e.seq > stop from ⟨rfl, hgt⟩)]
    exact Within.pure ⟨h1, rfl⟩

/-- The file and the texts of its buffers, with `x` to be seen and `ds` and `us` on the transcripts. -/
def File.Shows (f : File) (delta epsilon : Nat) (x : Doc) (ds us : List Entry) (w : World) : Prop :=
  ∃ t, w.Has t ∧ f.doc t = x ∧ t delta = transcript ds ∧ t epsilon = transcript us

/-- The file with this to be seen. -/
def File.with (f : File) (x : Doc) (seq : Int32) : File := { f with name := x.name, seq := seq, mod := x.mod }

theorem undoLoop_next {x : Doc} {es us : List Entry} {stop' : UInt32}
    {Q : File × Nat × Nat → World → Prop} (h : f.Shows delta epsilon x (e :: es) us w) (hd : f.Apart delta epsilon)
    (hfits : e.change.Fits x) (hstop : stop' = if isundo = false ∧ stop = 0 then e.seq else stop)
    (hundo : ¬ (isundo = true ∧ e.seq < stop')) (hredo : ¬ (isundo = false ∧ e.seq > stop'))
    (hnext : ∀ w' q0' q1',
      (f.with (e.turn x).2 e.seq.toInt32).Shows delta epsilon (e.turn x).2 es ((e.turn x).1 :: us) w' →
      Does Q (undoLoop isundo delta epsilon fuel (f.with (e.turn x).2 e.seq.toInt32) stop' q0' q1') w') :
    Does Q (undoLoop isundo delta epsilon (fuel + 1) f stop q0 q1) w := by
  obtain ⟨t, h, rfl, hds, hus⟩ := h
  refine undoLoop_step h hd hfits hds hstop hundo hredo ?_
  intro w' q0' q1' h'
  refine hnext w' q0' q1' ⟨_, h', ?_, ?_, ?_⟩
  · have hbody : f.texts delta epsilon e (transcript es) t f.body = (e.turn (f.doc t)).2.text :=
      (update_of_ne hd.taken ..).trans (update_self ..)
    exact congrArg (Doc.mk · (e.turn (f.doc t)).2.name (e.turn (f.doc t)).2.mod) hbody
  · exact update_self ..
  · rw [File.texts, update_of_ne hd.transcripts.symm, update_of_ne hd.put.symm, update_self, hus]
    rfl

/-- **A group of records** is taken back, up to where the loop ends. -/
theorem undoLoop_group {k : UInt32} {rest : List Entry} {last : Int32} (hd : f.Apart delta epsilon) (hk : k ≠ 0)
    (hend : ∀ (f' : File) (t : Nat → List Rune) (w : World) (fuel q0 q1 : Nat), f'.seq = k.toInt32 → w.Has t →
      t delta = transcript rest → Does (fun r w' => w'.Has t ∧ r.1 = { f' with seq := last })
        (undoLoop isundo delta epsilon (fuel + 1) f' k q0 q1) w) :
    ∀ (g : List Entry) {x : Doc} {us : List Entry} {w : World} {fuel : Nat} (q0 q1 : Nat),
      (f.with x k.toInt32).Shows delta epsilon x (g ++ rest) us w → edits.Along g x → (∀ e ∈ g, e.seq = k) →
      g.length ≤ fuel →
      Does (fun r w' => r.1 = f.with (edits.rewind g x us).1 last ∧
          r.1.Shows delta epsilon (edits.rewind g x us).1 rest (edits.rewind g x us).2 w')
        (undoLoop isundo delta epsilon (fuel + 1) (f.with x k.toInt32) k q0 q1) w := by
  intro g
  induction g with
  | nil =>
    rintro x us w fuel q0 q1 ⟨t, h, hx, hds, hus⟩ - - -
    refine (hend _ t w fuel q0 q1 rfl h hds).mono ?_
    rintro r w' ⟨h', hr⟩
    rw [hr]
    exact ⟨rfl, t, h', hx, hds, hus⟩
  | cons e g ih =>
    rintro x us w fuel q0 q1 hshows halong hall hfuel
    obtain ⟨fuel, rfl⟩ : ∃ n, fuel = n + 1 := ⟨fuel - 1, by rw [length_cons] at hfuel; omega⟩
    have he : e.seq = k := hall e mem_cons_self
    have hd' : (f.with x k.toInt32).Apart delta epsilon := ⟨hd.taken, hd.put, hd.transcripts⟩
    refine undoLoop_next hshows hd' halong.1 (if_neg fun hz => hk hz.2).symm ?_ ?_ ?_
    · rw [he]
      exact fun hc => UInt32.lt_irrefl k hc.2
    · rw [he]
      exact fun hc => UInt32.lt_irrefl k hc.2
    · rw [he]
      intro w' q0' q1' hshows'
      exact ih q0' q1' hshows' halong.2 (fun e he => hall e (mem_cons_of_mem _ he)) (Nat.le_of_succ_le_succ hfuel)

end

end Plan9.Acme
