/-
The log as the records in it, the last one first, each with the runes that stand before it there: what the calls of
editing commands put into it makes of the text what they ask for, however they are merged and split.

`Elogs` is a text with its log. Its functions are those of `elog.c` with the records for the buffer.
-/
import Plan9.Acme.Elog
import Plan9.Lib.Changes

namespace Plan9.Acme

open Changes List

/-- What may wait to be logged. -/
structure Elog.Fits (e : Elog) : Prop where
  type : e.type = Insert ∧ e.nd = 0 ∨ e.type = Delete ∧ e.r = [] ∨ e.type = Replace
  room : e.r.length ≤ RBUFSIZE
  ends : e.q0.toNat + e.nd.toNat < 2 ^ 32

def Elog.change (e : Elog) : Changes.Change Rune := ⟨e.q0.toNat, (e.q0 + e.nd).toNat, e.r⟩

/-- The change that a call asks for. -/
def Elogcall.change : Elogcall → Changes.Change Rune
  | .insert q0 r => ⟨q0.toNat, q0.toNat, r⟩
  | .delete q0 q1 => ⟨q0.toNat, q1.toNat, []⟩
  | .replace q0 q1 r => ⟨q0.toNat, q1.toNat, r⟩

section

variable {e : Elog}

theorem Elog.Fits.type_ne (h : e.Fits) : e.type ≠ Null ∧ e.type ≠ Elog.Empty := by
  rcases h.type with ⟨ht, -⟩ | ⟨ht, -⟩ | ht <;> rw [ht] <;> decide

theorem Elog.Fits.end_eq (h : e.Fits) : (e.q0 + e.nd).toNat = e.q0.toNat + e.nd.toNat := by
  rw [UInt32.toNat_add, Nat.mod_eq_of_lt h.ends]

theorem fits_between (type : UInt16) {q0 q1 : UInt32} {r : List Rune} (hle : q0 ≤ q1)
    (ht : type = Insert ∧ q1 = q0 ∨ type = Delete ∧ r = [] ∨ type = Replace) (hr : r.length ≤ RBUFSIZE) :
    (Elog.mk type q0 (q1 - q0) r).Fits ∧ (Elog.mk type q0 (q1 - q0) r).change = ⟨q0.toNat, q1.toNat, r⟩ := by
  have hnd : (q1 - q0).toNat = q1.toNat - q0.toNat := UInt32.toNat_sub_of_le _ _ hle
  have hq1 := q1.toNat_lt
  rw [UInt32.le_iff_toNat_le] at hle
  have hend : q0 + (q1 - q0) = q1 := by grind
  refine ⟨⟨ht.imp_left fun ⟨ht, heq⟩ => ⟨ht, by rw [heq]; exact UInt32.sub_self q0⟩, hr, ?_⟩, by rw [Elog.change, hend]⟩
  dsimp only
  omega

end

/-- A text with the log. -/
structure Elogs where
  body : List Rune
  elog : Elog
  elogbuf : Option (List Elog)

namespace Elogs

def eloginit (f : Elogs) : Elogs :=
  if f.elog.type ≠ Elog.Empty then f else { f with elog := { f.elog with type := Null }, elogbuf := some [] }

def elogreset (f : Elogs) : Elogs := { f with elog := { f.elog with type := Null, nd := 0, r := [] } }

def elogflush (f : Elogs) : Elogs :=
  let logged := f.elog.type = Insert ∨ f.elog.type = Replace ∨ f.elog.type = Delete
  elogreset { f with elogbuf := if logged then f.elogbuf.map (f.elog :: ·) else f.elogbuf }

/-- `none` is `editerror`. -/
def elogreplace (f : Elogs) (q0 q1 : UInt32) (r : List Rune) : Option Elogs :=
  if q0 = q1 ∧ r = [] then some f
  else
    let f := eloginit f
    let f := if f.elog.type ≠ Null ∧ q0 < f.elog.q0 then elogflush f else f
    -- try to merge with previous
    let e := f.elog
    let gap := q0 - (e.q0 + e.nd)
    if e.type = Replace ∧ UInt32.ofNat e.r.length + gap + .ofNat r.length < Maxstring ∧ gap < Minstring then
      some { f with elog := { e with
        nd := e.nd + (gap + q1 - q0), r := e.r ++ (f.body.drop (e.q0 + e.nd).toNat).take gap.toNat ++ r } }
    else if RBUFSIZE < r.length then none
    else some { elogflush f with elog := ⟨Replace, q0, q1 - q0, r⟩ }

/-- The loop of `eloginsert`. -/
def insertLoop (f : Elogs) (q0 : UInt32) (r : List Rune) : Elogs :=
  if _ : r = [] then f
  else
    let f := elogflush f
    insertLoop { f with elog := { f.elog with type := Insert, q0 := q0, r := r.take RBUFSIZE } } q0 (r.drop RBUFSIZE)
termination_by r.length
decreasing_by
  have := length_pos_iff.2 ‹¬ r = []›
  rw [length_drop]
  exact Nat.sub_lt this (by decide)

def eloginsert (f : Elogs) (q0 : UInt32) (r : List Rune) : Elogs :=
  if r = [] then f
  else
    let f := eloginit f
    let f := if f.elog.type ≠ Null ∧ q0 < f.elog.q0 then elogflush f else f
    -- try to merge with previous
    if f.elog.type = Insert ∧ q0 = f.elog.q0 ∧ UInt32.ofNat f.elog.r.length + .ofNat r.length < Maxstring then
      { f with elog := { f.elog with r := f.elog.r ++ r } }
    else insertLoop f q0 r

def elogdelete (f : Elogs) (q0 q1 : UInt32) : Elogs :=
  if q0 = q1 then f
  else
    let f := eloginit f
    let f := if f.elog.type ≠ Null ∧ q0 < f.elog.q0 + f.elog.nd then elogflush f else f
    -- try to merge with previous
    if f.elog.type = Delete ∧ f.elog.q0 + f.elog.nd = q0 then
      { f with elog := { f.elog with nd := f.elog.nd + (q1 - q0) } }
    else
      let f := elogflush f
      { f with elog := { f.elog with type := Delete, q0 := q0, nd := q1 - q0 } }

def run (f : Elogs) : Elogcall → Option Elogs
  | .insert q0 r => some (eloginsert f q0 r)
  | .delete q0 q1 => some (elogdelete f q0 q1)
  | .replace q0 q1 r => elogreplace f q0 q1 r

/-- A text before an editing command. -/
def edited (body : List Rune) : Elogs := ⟨body, ⟨Elog.Empty, 0, 0, []⟩, none⟩

/-! ## What is logged -/

/-- Nothing waits. -/
structure Flushed (f : Elogs) (es : List Elog) : Prop where
  elogbuf : f.elogbuf = some es
  type : f.elog.type = Null
  nd : f.elog.nd = 0
  r : f.elog.r = []
  fits : ∀ e ∈ es, e.Fits

/-- Something waits after the entries of the log. -/
structure Waits (f : Elogs) (es : List Elog) : Prop where
  elogbuf : f.elogbuf = some es
  fits : ∀ e ∈ f.elog :: es, e.Fits

/-- The entries, with the one that waits. -/
def Holds (f : Elogs) (es : List Elog) : Prop := Flushed f es ∨ ∃ es', es = f.elog :: es' ∧ Waits f es'

section

variable {f : Elogs} {e : Elog} {es : List Elog}

/-- **elogflush** -/
theorem Holds.elogflush (h : Holds f es) : Flushed (elogflush f) es := by
  obtain h | ⟨es', rfl, h⟩ := h
  · refine ⟨?_, rfl, rfl, rfl, h.fits⟩
    rw [Elogs.elogflush, h.type]
    exact h.elogbuf
  have ht := (h.fits _ mem_cons_self).type
  refine ⟨?_, rfl, rfl, rfl, h.fits⟩
  rw [Elogs.elogflush, if_pos (by tauto)]
  exact congrArg (Option.map (f.elog :: ·)) h.elogbuf

/-- Between the calls: nothing was logged yet, or something waits. -/
def Opened (f : Elogs) (es : List Elog) : Prop :=
  f.elog.type = Elog.Empty ∧ f.elog.nd = 0 ∧ f.elog.r = [] ∧ es = [] ∨ ∃ es', es = f.elog :: es' ∧ Waits f es'

theorem Opened.eloginit (h : Opened f es) : Holds (eloginit f) es ∧ (eloginit f).body = f.body := by
  rw [Elogs.eloginit]
  obtain ⟨ht, hnd, hr, rfl⟩ | ⟨es', rfl, h⟩ := h
  · rw [if_neg (not_not.2 ht)]
    exact ⟨.inl ⟨rfl, rfl, hnd, hr, nofun⟩, rfl⟩
  · rw [if_pos (h.fits _ mem_cons_self).type_ne.2]
    exact ⟨.inr ⟨es', rfl, h⟩, rfl⟩

theorem Holds.waits (h : Holds f es) (ht : f.elog.type ≠ Null) : ∃ es', es = f.elog :: es' ∧ Waits f es' :=
  h.resolve_left fun h => ht h.type

theorem Holds.in_sequence (h : Holds f es) {q0 : UInt32} (hin : InOrder (es.map Elog.change) q0.toNat) :
    ¬ (f.elog.type ≠ Null ∧ q0 < f.elog.q0) ∧ ¬ (f.elog.type ≠ Null ∧ q0 < f.elog.q0 + f.elog.nd) := by
  refine ⟨fun ⟨ht, hlt⟩ => ?_, fun ⟨ht, hlt⟩ => ?_⟩
  all_goals
    obtain ⟨_, rfl, h⟩ := h.waits ht
    obtain ⟨-, hle, hle'⟩ := hin
    rw [UInt32.lt_iff_toNat_lt] at hlt
    simp only [Elog.change] at hle hle'
    omega

/-- A call takes a change to the log. -/
def Takes (f f' : Elogs) (es : List Elog) (c : Changes.Change Rune) : Prop :=
  ∃ es', Opened f' es' ∧ f'.body = f.body ∧ InOrder (es'.map Elog.change) c.q1 ∧
    ∀ n, c.q1 ≤ n → made f.body (es'.map Elog.change) n = made f.body (c :: es.map Elog.change) n

theorem Flushed.put (h : Flushed f es) (he : e.Fits) (hin : InOrder (es.map Elog.change) e.change.q0) :
    Takes f { f with elog := e } es e.change := by
  refine ⟨e :: es, .inr ⟨es, rfl, h.elogbuf, forall_mem_cons.2 ⟨he, h.fits⟩⟩, rfl, ⟨hin, ?_, le_rfl⟩, fun _ _ => rfl⟩
  simp [Elog.change, he.end_eq]

theorem Waits.merge (h : Waits f es) {c : Changes.Change Rune} (hin : InOrder ((f.elog :: es).map Elog.change) c.q0) (hc : c.q0 ≤ c.q1)
    (he : e.Fits) (heq : e.change = ⟨f.elog.change.q0, c.q1,
      f.elog.change.r ++ seg f.body f.elog.change.q1 c.q0 ++ c.r⟩) :
    Takes f { f with elog := e } (f.elog :: es) c := by
  obtain ⟨hes, _, _⟩ := hin
  refine ⟨e :: es, .inr ⟨es, rfl, h.elogbuf, forall_mem_cons.2 ⟨he, fun e h' => h.fits e (mem_cons_of_mem _ h')⟩⟩, rfl, ?_, ?_⟩
  · rw [map_cons, heq]
    exact ⟨hes, by dsimp only; omega, le_rfl⟩
  · intro n _
    rw [map_cons, heq]
    exact made_merge c f.elog.change

theorem Opened.same (h : Opened f es) {p : Nat} (hin : InOrder (es.map Elog.change) p) : Takes f f es ⟨p, p, []⟩ :=
  ⟨es, h, rfl, hin, fun _ hn => (made_nothing hin hn).symm⟩

theorem Takes.congr (f0 : Elogs) {f' : Elogs} {c : Changes.Change Rune} (h : Takes f f' es c) (hbody : f.body = f0.body) : Takes f0 f' es c := by
  rw [Takes, ← hbody]
  exact h

variable {q0 q1 : UInt32} {r : List Rune}

theorem length_merged {a b : Nat} {gap : UInt32} (ha : a ≤ RBUFSIZE) (hgap : gap < Minstring) (hb : b < 2 ^ 31)
    (h : UInt32.ofNat a + gap + .ofNat b < Maxstring) : a + gap.toNat + b ≤ RBUFSIZE := by
  have hsize : RBUFSIZE = 4102 := by decide
  have hmin : Minstring.toNat = 16 := rfl
  have hmax : Maxstring.toNat = 4102 := rfl
  rw [UInt32.lt_iff_toNat_lt] at h hgap
  simp only [UInt32.toNat_add, UInt32.toNat_ofNat'] at h
  omega

/-- **elogreplace** -/
theorem Opened.elogreplace (h : Opened f es) (hle : q0 ≤ q1) (hin : InOrder (es.map Elog.change) q0.toNat)
    (hr : r.length < 2 ^ 31) {f' : Elogs} (hrun : elogreplace f q0 q1 r = some f') :
    Takes f f' es ⟨q0.toNat, q1.toNat, r⟩ := by
  rw [Elogs.elogreplace] at hrun
  obtain ⟨hinit, hbody⟩ := h.eloginit
  split at hrun
  · rename_i hnothing
    obtain ⟨rfl, rfl⟩ := hnothing
    cases hrun
    exact h.same hin
  dsimp only at hrun
  rw [if_neg (hinit.in_sequence hin).1] at hrun
  refine Takes.congr f (f := Elogs.eloginit f) ?_ hbody
  generalize Elogs.eloginit f = f at hinit hrun ⊢
  split at hrun
  · rename_i hmerge
    obtain ⟨ht, hroom, hgap⟩ := hmerge
    cases hrun
    obtain ⟨_, rfl, hw⟩ := hinit.waits (by rw [ht]; decide)
    have hafter : (f.elog.q0 + f.elog.nd).toNat ≤ q0.toNat := hin.2.2
    have hnd : f.elog.nd + (q0 - (f.elog.q0 + f.elog.nd) + q1 - q0) = q1 - f.elog.q0 := by grind
    have hgap' : (q0 - (f.elog.q0 + f.elog.nd)).toNat = q0.toNat - (f.elog.q0 + f.elog.nd).toNat :=
      UInt32.toNat_sub_of_le _ _ (UInt32.le_iff_toNat_le.2 hafter)
    have hle' : f.elog.q0 ≤ q1 := by
      have := (hw.fits _ mem_cons_self).end_eq
      rw [UInt32.le_iff_toNat_le] at hle ⊢
      omega
    have hlen := length_merged (by simpa using (hw.fits _ mem_cons_self).room) hgap hr hroom
    have hread : (f.body.drop (f.elog.q0 + f.elog.nd).toNat).take (q0 - (f.elog.q0 + f.elog.nd)).toNat =
        seg f.body (f.elog.q0 + f.elog.nd).toNat q0.toNat := by rw [hgap', seg]
    have hseg : (seg f.body (f.elog.q0 + f.elog.nd).toNat q0.toNat).length ≤ (q0 - (f.elog.q0 + f.elog.nd)).toNat := by
      rw [hgap', seg]
      exact length_take_le _ _
    obtain ⟨hfits, hchange⟩ := fits_between Replace (r := f.elog.r ++ seg f.body (f.elog.q0 + f.elog.nd).toNat
      q0.toNat ++ r) hle' (.inr (.inr rfl)) (by rw [length_append, length_append]; omega)
    rw [hnd, hread, ht]
    exact hw.merge (c := ⟨q0.toNat, q1.toNat, r⟩) hin (UInt32.le_iff_toNat_le.1 hle) hfits hchange
  split at hrun
  · cases hrun
  rename_i hlen
  cases hrun
  obtain ⟨hfits, hchange⟩ := fits_between Replace hle (.inr (.inr rfl)) (Nat.not_lt.1 hlen)
  rw [← hchange]
  exact hinit.elogflush.put hfits (by rw [hchange]; exact hin)

theorem Holds.insertLoop (h : Holds f es) (hin : InOrder (es.map Elog.change) q0.toNat) (hr : r ≠ []) :
    Takes f (insertLoop f q0 r) es ⟨q0.toNat, q0.toNat, r⟩ := by
  induction hn : r.length using Nat.strong_induction_on generalizing f es r with
  | _ n ih =>
    subst hn
    obtain ⟨hfits, hchange⟩ := fits_between Insert (r := r.take RBUFSIZE) (UInt32.le_refl q0) (.inl ⟨rfl, rfl⟩)
      (length_take_le _ _)
    have hput := (h.elogflush.put hfits (by rw [hchange]; exact hin)).congr f rfl
    rw [hchange, UInt32.sub_self, ← h.elogflush.nd] at hput
    rw [Elogs.insertLoop, dif_neg hr]
    by_cases hrest : r.drop RBUFSIZE = []
    · rw [hrest, Elogs.insertLoop, dif_pos rfl]
      rw [take_of_length_le (drop_eq_nil_iff.1 hrest)] at hput ⊢
      exact hput
    obtain ⟨es', hopened, -, hin', hmade⟩ := hput
    have hholds : Holds _ es' := .inr (hopened.resolve_left fun h => absurd h.1 (by simp; decide))
    have hpos := length_pos_iff.2 hr
    have hlt : (r.drop RBUFSIZE).length < r.length := by
      rw [length_drop]
      exact Nat.sub_lt hpos (by decide)
    obtain ⟨es'', hopened', hbody', hin'', hmade'⟩ := (ih _ hlt hholds hin' hrest rfl).congr f rfl
    refine ⟨es'', hopened', hbody', hin'', fun n hn => ?_⟩
    rw [hmade' n hn, made, hmade _ le_rfl, made, made, seg_self, append_nil, append_assoc _ (r.take _),
      take_append_drop]

/-- **eloginsert** -/
theorem Opened.eloginsert (h : Opened f es) (hin : InOrder (es.map Elog.change) q0.toNat) (hr : r.length < 2 ^ 31) :
    Takes f (eloginsert f q0 r) es ⟨q0.toNat, q0.toNat, r⟩ := by
  rw [Elogs.eloginsert]
  obtain ⟨hinit, hbody⟩ := h.eloginit
  split
  · rename_i hnothing
    rw [hnothing]
    exact h.same hin
  rename_i hne
  dsimp only
  rw [if_neg (hinit.in_sequence hin).1]
  refine Takes.congr f (f := Elogs.eloginit f) ?_ hbody
  generalize Elogs.eloginit f = f at hinit ⊢
  split
  · rename_i hmerge
    obtain ⟨ht, rfl, hroom⟩ := hmerge
    obtain ⟨_, rfl, hw⟩ := hinit.waits (by rw [ht]; decide)
    have he := hw.fits _ mem_cons_self
    have hnd : f.elog.nd = f.elog.q0 - f.elog.q0 := by
      simpa [ht, Insert, Delete, Replace] using he.type
    have hlen := @length_merged _ _ 0 he.room (by decide) hr (by simpa using hroom)
    obtain ⟨hfits, hchange⟩ := fits_between Insert (r := f.elog.r ++ r) (UInt32.le_refl f.elog.q0)
      (.inl ⟨rfl, rfl⟩) (by simpa using hlen)
    rw [hnd, ht]
    refine hw.merge (c := ⟨f.elog.q0.toNat, f.elog.q0.toNat, r⟩) hin le_rfl hfits (hchange.trans ?_)
    simp [Elog.change, hnd]
  · exact hinit.insertLoop hin hne

/-- **elogdelete** -/
theorem Opened.elogdelete (h : Opened f es) (hle : q0 ≤ q1) (hin : InOrder (es.map Elog.change) q0.toNat) :
    Takes f (elogdelete f q0 q1) es ⟨q0.toNat, q1.toNat, []⟩ := by
  rw [Elogs.elogdelete]
  obtain ⟨hinit, hbody⟩ := h.eloginit
  split
  · rename_i hnothing
    rw [← hnothing]
    exact h.same hin
  dsimp only
  rw [if_neg (hinit.in_sequence hin).2]
  refine Takes.congr f (f := Elogs.eloginit f) ?_ hbody
  generalize Elogs.eloginit f = f at hinit ⊢
  split
  · rename_i hmerge
    obtain ⟨ht, rfl⟩ := hmerge
    obtain ⟨_, rfl, hw⟩ := hinit.waits (by rw [ht]; decide)
    have he := hw.fits _ mem_cons_self
    have hr : f.elog.r = [] := by simpa [ht, Insert, Delete, Replace] using he.type
    have hnd : f.elog.nd + (q1 - (f.elog.q0 + f.elog.nd)) = q1 - f.elog.q0 := by grind
    have hle' : f.elog.q0 ≤ q1 := by
      have := he.end_eq
      rw [UInt32.le_iff_toNat_le] at hle ⊢
      omega
    obtain ⟨hfits, hchange⟩ := fits_between Delete (r := []) hle' (.inr (.inl ⟨rfl, rfl⟩)) (Nat.zero_le _)
    rw [hnd, ht, hr]
    refine hw.merge (c := ⟨_, q1.toNat, []⟩) hin (UInt32.le_iff_toNat_le.1 hle) hfits (hchange.trans ?_)
    simp [Elog.change, hr]
  · obtain ⟨hfits, hchange⟩ := fits_between Delete (r := []) hle (.inr (.inl ⟨rfl, rfl⟩)) (Nat.zero_le _)
    rw [hinit.elogflush.r, ← hchange]
    exact hinit.elogflush.put hfits (by rw [hchange]; exact hin)

/-- The calls, of which the last one is the first. -/
def logged (f : Elogs) : List Elogcall → Option Elogs
  | [] => some f
  | c :: cs => (logged f cs).bind (·.run c)

/-- **What is logged makes the same of the text** as what was asked for. -/
theorem logged_opened {t : List Rune} {calls : List Elogcall} {n : Nat} (hin : InOrder (calls.map Elogcall.change) n)
    (hr : ∀ c ∈ calls, c.change.r.length < 2 ^ 31) (hrun : logged (edited t) calls = some f) :
    ∃ es, Opened f es ∧ f.body = t ∧ InOrder (es.map Elog.change) n ∧
      ∀ m, n ≤ m → made t (es.map Elog.change) m = made t (calls.map Elogcall.change) m := by
  induction calls generalizing n f with
  | nil =>
    cases hrun
    exact ⟨[], .inl ⟨rfl, rfl, rfl, rfl⟩, rfl, trivial, fun _ _ => rfl⟩
  | cons c cs ih =>
    obtain ⟨hcs, hle, hle'⟩ := hin
    obtain ⟨f1, hrun1, hcall⟩ := Option.bind_eq_some_iff.1 hrun
    obtain ⟨es, hopened, rfl, hin, hmade⟩ := ih hcs (fun c hc => hr c (mem_cons_of_mem _ hc)) hrun1
    have htakes : Takes f1 f es c.change := by
      cases c with
      | insert q0 r =>
        cases hcall
        exact hopened.eloginsert hin (hr _ mem_cons_self)
      | delete q0 q1 =>
        cases hcall
        exact hopened.elogdelete (UInt32.le_iff_toNat_le.2 hle) hin
      | replace q0 q1 r => exact hopened.elogreplace (UInt32.le_iff_toNat_le.2 hle) hin (hr _ mem_cons_self) hcall
    obtain ⟨es', hopened', hbody, hin', hmade'⟩ := htakes
    refine ⟨es', hopened', hbody, hin'.mono hle', fun m hm => ?_⟩
    rw [hmade' m (hle'.trans hm), made, hmade _ le_rfl, map_cons, made]

end

end Elogs

end Plan9.Acme
