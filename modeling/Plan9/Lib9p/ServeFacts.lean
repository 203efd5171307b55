/-
What the functions of `srv.c` leave for `respond`, and what `respond` makes of it.

A request of any type that is safe is served to an answer that is right (`serve_ok`), the
function for its type keeps it so if it is safe to complete (`finishCall_ready`), and the
reply it then calls for is a message of the protocol, of a size that is read off the
answer (`reply_msg`).
-/
import Plan9.Lib9p.Serve
import Plan9.Libc.DirFacts

namespace Plan9.Lib9p.Serve

open Libc List

/-! ## Texts -/

/-- A string that fits its count in a message, or nil. -/
def Short (p : Ptr) : Prop := ∀ e, p = some e → strlen e < 2 ^ 16

theorem strlen_le (s : List UInt8) : strlen s ≤ s.length := (takeWhile_sublist _).length_le

theorem short_none : Short none := nofun

theorem short_text {s : String} (h : s.toList.length < 2 ^ 15) : Short (text s) := by
  intro e he
  cases he
  have hlen : (ascii s ++ [0]).length = s.toList.length + 1 := by
    rw [length_append, ascii, length_map, length_singleton]
  have hle := strlen_le (ascii s ++ [0])
  omega

theorem short_snprint (s : List UInt8) : Short (snprint s) := by
  intro e he
  cases he
  have hlen : (s.take (ERRMAX - 1) ++ [0]).length ≤ ERRMAX := by
    rw [length_append, length_take, length_singleton, ERRMAX]
    omega
  have hle := Nat.le_trans (strlen_le _) hlen
  exact Nat.lt_of_le_of_lt hle (by decide)

/-! ## Served -/

def isRequest : FType → Bool
  | .Tversion | .Tauth | .Tattach | .Tflush | .Twalk | .Topen | .Tcreate | .Tread | .Twrite | .Tclunk | .Tremove
  | .Tstat | .Twstat => true
  | _ => false

theorem code_inj {t t' : FType} (h : t.code = t'.code) : t = t' := by
  have := ofCode_code t
  rw [h, ofCode_code] at this
  exact (Option.some.inj this).symm

/-- Completed, a request of this type follows its `fid`. -/
def follows : FType → Bool
  | .Twalk | .Topen | .Tcreate | .Tread | .Twrite | .Tremove => true
  | _ => false

/-- What is followed then is not nil. -/
structure Held (c : Call) : Prop where
  fid : ∀ t : FType, c.ifcall.type = t.code → follows t = true → c.fid ≠ none
  newfid : c.ifcall.type = FType.Twalk.code → c.newfid ≠ none

section Held

variable {c c' : Call} {t : FType}

theorem Held.of (h : Held c) (hi : c'.ifcall.type = c.ifcall.type) (hf : c'.fid = c.fid) (hn : c'.newfid = c.newfid) :
    Held c' :=
  ⟨fun t ht hr => hf ▸ h.fid t (hi ▸ ht) hr, fun ht => hn ▸ h.newfid (hi ▸ ht)⟩

theorem held_free (htype : c.ifcall.type = t.code) (hf : follows t = false) : Held c := by
  refine ⟨fun t' ht' hr => ?_, fun hw => ?_⟩
  · rw [code_inj (htype.symm.trans ht'), hr] at hf
    cases hf
  · rw [code_inj (htype.symm.trans hw)] at hf
    cases hf

theorem held_fid (htype : c.ifcall.type = t.code) (ht : t ≠ .Twalk) (hf : c.fid ≠ none) : Held c :=
  ⟨fun _ _ _ => hf, fun hw => absurd (code_inj (htype.symm.trans hw)) ht⟩

end Held

/-- What `respond` is called with. The last three are read only where there is no error. -/
structure Right (c : Call) : Prop where
  error : Short c.error
  held : c.error = none → Held c
  flush : c.ifcall.type = FType.Tflush.code → c.error = none
  version : c.ifcall.type = FType.Tversion.code →
    c.error = none ∧ c.ofcall.version = text "9P2000" ∧ c.ofcall.msize = c.ifcall.msize
  nwqid : c.ifcall.type = FType.Twalk.code → c.ofcall.nwqid.toNat ≤ MAXWELEM
  data : c.ifcall.type = FType.Tread.code → c.error = none → c.ofcall.count.toNat ≤ (c.ofcall.data.getD []).length

/-- A request before it is served. -/
structure Fresh (c : Call) : Prop where
  nwqid : c.ofcall.nwqid = 0
  count : c.ofcall.count = 0
  nwname : c.ifcall.type = FType.Twalk.code → c.ifcall.nwname.toNat ≤ MAXWELEM

/-- The message is the same one, and what has been put into the answer does not count. -/
structure Keeps (c c' : Call) : Prop where
  type : c'.ifcall.type = c.ifcall.type
  nwname : c'.ifcall.nwname = c.ifcall.nwname
  msize : c'.ifcall.msize = c.ifcall.msize
  nwqid : c'.ofcall.nwqid = c.ofcall.nwqid
  count : c'.ofcall.count = c.ofcall.count

structure Served.Ok (c : Call) (x : Served) : Prop where
  type : x.2.1.ifcall.type = c.ifcall.type
  nwname : x.2.1.ifcall.nwname = c.ifcall.nwname
  msize : x.2.1.ifcall.msize = c.ifcall.msize
  respond : ∀ e, x.2.2 = .respond e → Right { x.2.1 with error := e }
  handler : x.2.2 = .handler → c.ifcall.type ≠ FType.Tversion.code ∧ Held x.2.1
  fail : x.2.2 ≠ .fail

/-- Neither a `Tversion` nor a `Tflush`. -/
def Plain (c : Call) : Prop := c.ifcall.type ≠ FType.Tversion.code ∧ c.ifcall.type ≠ FType.Tflush.code

section Plain

variable {c c' : Call} {F : Fids} {e : Ptr}

theorem ok_respond (hc : Fresh c) (hp : Plain c) (hk : Keeps c c') (he : Short e) (hheld : e = none → Held c') :
    Served.Ok c (F, c', .respond e) := by
  refine ⟨hk.type, hk.nwname, hk.msize, ?_, nofun, nofun⟩
  intro e' h
  cases h
  refine ⟨he, fun h => (hheld h).of rfl rfl rfl, fun h => absurd (hk.type.symm.trans h) hp.2,
    fun h => absurd (hk.type.symm.trans h) hp.1, ?_, ?_⟩
  · intro _
    rw [hk.nwqid, hc.nwqid]
    exact Nat.zero_le _
  · intro _ _
    rw [hk.count, hc.count]
    exact Nat.zero_le _

theorem ok_text {s : String} (hc : Fresh c) (hp : Plain c) (hk : Keeps c c') (hs : s.toList.length < 2 ^ 15) :
    Served.Ok c (F, c', .respond (text s)) :=
  ok_respond hc hp hk (short_text hs) fun h => (nomatch (h : some (ascii s ++ [0]) = none))

theorem ok_error {s : String} (hc : Fresh c) (hp : Plain c) (hi : c'.ifcall = c.ifcall) (ho : c'.ofcall = c.ofcall)
    (hs : s.toList.length < 2 ^ 15) : Served.Ok c (F, c', .respond (text s)) :=
  ok_text hc hp ⟨by rw [hi], by rw [hi], by rw [hi], by rw [ho], by rw [ho]⟩ hs

theorem ok_snprint {s : List UInt8} (hc : Fresh c) (hp : Plain c) (hk : Keeps c c') :
    Served.Ok c (F, c', .respond (snprint s)) :=
  ok_respond hc hp hk (short_snprint s) fun h => (nomatch (h : some (s.take (ERRMAX - 1) ++ [0]) = none))

theorem ok_handler (hp : Plain c) (hk : Keeps c c') (hheld : Held c') : Served.Ok c (F, c', .handler) :=
  ⟨hk.type, hk.nwname, hk.msize, nofun, fun _ => ⟨hp.1, hheld⟩, nofun⟩

theorem ok_handlerOr {h : Bool} (hc : Fresh c) (hp : Plain c) (hk : Keeps c c') (he : Short e) (hheld : Held c') :
    Served.Ok c (F, c', handlerOr h e) := by
  cases h with
  | true => exact ok_handler hp hk hheld
  | false => exact ok_respond hc hp hk he fun _ => hheld

theorem ok_sysfatal (hk : Keeps c c') : Served.Ok c (F, c', .sysfatal) :=
  ⟨hk.type, hk.nwname, hk.msize, nofun, nofun, nofun⟩

/-- What serving a request follows without looking. -/
structure Safe (t : Tree) (F : Fids) (f : Fcall Ptr) : Prop where
  /-- A fid that another is made from has a `uid`: one that `Tauth` has made has none. -/
  uid : f.type = FType.Twalk.code → f.fid ≠ f.newfid → ∀ i, F.map f.fid = some i → (F.fid i).uid ≠ none
  /-- The file has not been removed. -/
  parent : f.type = FType.Twalk.code ∧ f.nwname ≠ 0 ∨ f.type = FType.Topen.code ∧ f.mode &&& ORCLOSE ≠ 0 ∨
    f.type = FType.Tremove.code → ∀ i file, F.map f.fid = some i → (F.fid i).file = some file → t.parent file ≠ none
  /-- A fid with a file has a `uid`. -/
  perm : f.type = FType.Topen.code ∨ f.type = FType.Tcreate.code ∨ f.type = FType.Tremove.code →
    ∀ i, F.map f.fid = some i → (F.fid i).file ≠ none → (F.fid i).uid ≠ none
  /-- A directory of the tree that is read has been opened. -/
  rdir : f.type = FType.Tread.code → ∀ i, F.map f.fid = some i → (F.fid i).isdir = true → (F.fid i).file ≠ none →
    (F.fid i).rdir = true

variable (conf : Conf) (t : Tree) (msize : UInt32) (F : Fids)

theorem sauth_ok (hc : Fresh c) (hp : Plain c) (htype : c.ifcall.type = FType.Tauth.code) : (sauth conf F c).Ok c := by
  rw [sauth]
  split
  · exact ok_error hc hp rfl rfl (by decide)
  · exact ok_handlerOr hc hp ⟨rfl, rfl, rfl, rfl, rfl⟩ (short_snprint _) (held_free (t := .Tauth) htype rfl)

theorem sattach_ok (hc : Fresh c) (hp : Plain c) (htype : c.ifcall.type = FType.Tattach.code) :
    (sattach conf t F c).Ok c := by
  rw [sattach]
  split
  · exact ok_error hc hp rfl rfl (by decide)
  rename_i i F' _
  dsimp only
  generalize (if c.ifcall.afid ≠ NOFID then F'.lookupfid c.ifcall.afid else none) = afid
  split
  · exact ok_error hc hp rfl rfl (by decide)
  · split
    · exact ok_handlerOr hc hp ⟨rfl, rfl, rfl, rfl, rfl⟩ short_none (held_free (t := .Tattach) htype rfl)
    · exact ok_handlerOr hc hp ⟨rfl, rfl, rfl, rfl, rfl⟩ short_none (held_free (t := .Tattach) htype rfl)

theorem access_ne_none (mode : UInt8) : access mode ≠ none := by
  have hcases : mode &&& 3 = 0 ∨ mode &&& 3 = 1 ∨ mode &&& 3 = 2 ∨ mode &&& 3 = 3 := by
    have hle : (mode &&& 3).toNat ≤ 3 := by
      exact Nat.and_le_right
    rcases Nat.lt_or_ge (mode &&& 3).toNat 2 with h | h
    · rcases Nat.lt_or_ge (mode &&& 3).toNat 1 with h | h
      · exact .inl (UInt8.toNat.inj (by change _ = 0; omega))
      · exact .inr (.inl (UInt8.toNat.inj (by change _ = 1; omega)))
    · rcases Nat.lt_or_ge (mode &&& 3).toNat 3 with h | h
      · exact .inr (.inr (.inl (UInt8.toNat.inj (by change _ = 2; omega))))
      · exact .inr (.inr (.inr (UInt8.toNat.inj (by change _ = 3; omega))))
  rw [access]
  rcases hcases with h | h | h | h <;> rw [h] <;> decide

theorem hasperm_some {d : Dir Ptr} {uid : Ptr} (h : uid ≠ none) (p : Nat) : ∃ b, hasperm d uid p = some b := by
  obtain ⟨u, rfl⟩ := Option.ne_none_iff_exists'.1 h
  rw [hasperm]
  split
  · exact ⟨true, rfl⟩
  · exact ⟨_, rfl⟩

theorem permits_some {t : Tree} {file : Option Nat} {uid : Ptr} (hf : file ≠ none) (h : uid ≠ none) :
    ∃ b, t.permits file uid = some b := by
  obtain ⟨f, rfl⟩ := Option.ne_none_iff_exists'.1 hf
  exact hasperm_some h AWRITE

theorem sopen_ok (hc : Fresh c) (hp : Plain c) (htype : c.ifcall.type = FType.Topen.code) (hs : Safe t F c.ifcall) :
    (sopen conf t F c).Ok c := by
  rw [sopen]
  split
  · exact ok_error hc hp rfl rfl (by decide)
  rename_i i hi
  dsimp only at hi ⊢
  have hheld : ∀ c' : Call, c'.ifcall = c.ifcall → c'.fid = F.lookupfid c.ifcall.fid → Held c' := fun c' hc' hf =>
    held_fid (t := .Topen) (hc' ▸ htype) (by decide) (by rw [hf, hi]; nofun)
  split
  · exact ok_error hc hp rfl rfl (by decide)
  split
  · exact ok_error hc hp rfl rfl (by decide)
  cases haccess : access c.ifcall.mode with
  | none => exact absurd haccess (access_ne_none _)
  | some p =>
    dsimp only
    generalize (if c.ifcall.mode &&& OTRUNC ≠ 0 then p ||| AWRITE else p) = p
    split
    · exact ok_text hc hp ⟨rfl, rfl, rfl, rfl, rfl⟩ (by decide)
    split
    · exact ok_handlerOr hc hp ⟨rfl, rfl, rfl, rfl, rfl⟩ short_none (hheld _ rfl rfl)
    rename_i file hfile
    have huid := hs.perm (.inl htype) i hi (by rw [hfile]; nofun)
    obtain ⟨b, hb⟩ := hasperm_some (d := t.dir file) huid p
    rw [hb]
    cases b with
    | false => exact ok_text hc hp ⟨rfl, rfl, rfl, rfl, rfl⟩ (by decide)
    | true => ?_
    obtain ⟨b, hb⟩ : ∃ b, (if c.ifcall.mode &&& ORCLOSE ≠ 0 then t.permits (t.parent file) (F.fid i).uid else some true) =
        some b := by
      split
      · rename_i hclose
        exact permits_some (hs.parent (.inr (.inl ⟨htype, hclose⟩)) i file hi hfile) huid
      · exact ⟨true, rfl⟩
    dsimp only
    rw [hb]
    cases b with
    | false => exact ok_text hc hp ⟨rfl, rfl, rfl, rfl, rfl⟩ (by decide)
    | true => ?_
    dsimp only
    split
    · cases t.opendirfile file with
      | true => exact ok_handlerOr hc hp ⟨rfl, rfl, rfl, rfl, rfl⟩ short_none (hheld _ rfl rfl)
      | false => exact ok_text hc hp ⟨rfl, rfl, rfl, rfl, rfl⟩ (by decide)
    · exact ok_handlerOr hc hp ⟨rfl, rfl, rfl, rfl, rfl⟩ short_none (hheld _ rfl rfl)

theorem screate_ok (hc : Fresh c) (hp : Plain c) (htype : c.ifcall.type = FType.Tcreate.code) (hs : Safe t F c.ifcall) :
    (screate conf t F c).Ok c := by
  rw [screate]
  split
  · exact ok_error hc hp rfl rfl (by decide)
  rename_i i hi
  dsimp only at hi ⊢
  split
  · exact ok_error hc hp rfl rfl (by decide)
  split
  · exact ok_error hc hp rfl rfl (by decide)
  obtain ⟨b, hb⟩ : ∃ b, (if (F.fid i).file ≠ none then t.permits (F.fid i).file (F.fid i).uid else some true) = some b := by
    split
    · rename_i hfile
      exact permits_some hfile (hs.perm (.inr (.inl htype)) i hi hfile)
    · exact ⟨true, rfl⟩
  rw [hb]
  cases b with
  | false => exact ok_error hc hp rfl rfl (by decide)
  | true =>
    exact ok_handlerOr hc hp ⟨rfl, rfl, rfl, rfl, rfl⟩ (short_text (by decide))
      (held_fid (t := .Tcreate) htype (by decide) (by rw [hi]; nofun))

theorem swrite_ok (hc : Fresh c) (hp : Plain c) (htype : c.ifcall.type = FType.Twrite.code) :
    (swrite conf msize F c).Ok c := by
  rw [swrite]
  split
  · exact ok_error hc hp rfl rfl (by decide)
  rename_i i hi
  dsimp only at hi ⊢
  split
  · exact ok_error hc hp rfl rfl (by decide)
  split
  · exact ok_error hc hp rfl rfl (by decide)
  split
  · exact ok_snprint hc hp ⟨rfl, rfl, rfl, rfl, rfl⟩
  · exact ok_handlerOr hc hp ⟨rfl, rfl, rfl, rfl, rfl⟩ (short_text (by decide))
      (held_fid (t := .Twrite) htype (by decide) (by dsimp only; rw [hi]; nofun))

theorem sclunk_ok (hc : Fresh c) (hp : Plain c) (htype : c.ifcall.type = FType.Tclunk.code) : (sclunk F c).Ok c := by
  refine ok_respond hc hp ⟨rfl, rfl, rfl, rfl, rfl⟩ ?_ fun _ => held_free (t := .Tclunk) htype rfl
  split
  · exact short_text (by decide)
  · exact short_none

theorem sremove_ok (hc : Fresh c) (hp : Plain c) (htype : c.ifcall.type = FType.Tremove.code) (hs : Safe t F c.ifcall) :
    (sremove conf t F c).Ok c := by
  rw [sremove]
  dsimp only
  split
  · exact ok_error hc hp rfl rfl (by decide)
  rename_i i hi
  have hheld : Held { c with fid := (F.removefid c.ifcall.fid).1 } :=
    held_fid (t := .Tremove) htype (by decide) (by dsimp only; rw [hi]; nofun)
  split
  · exact ok_handlerOr hc hp ⟨rfl, rfl, rfl, rfl, rfl⟩ (short_text (by decide)) hheld
  rename_i file hfile
  have hfile' : (F.fid i).file ≠ none := fun hnone => (nomatch (hfile.symm.trans hnone : some file = none))
  obtain ⟨b, hb⟩ : ∃ b, t.permits (t.parent file) ((F.removefid c.ifcall.fid).2.fid i).uid = some b :=
    permits_some (hs.parent (.inr (.inr htype)) i file hi hfile) (hs.perm (.inr (.inr htype)) i hi hfile')
  rw [hb]
  cases b with
  | false => exact ok_error hc hp rfl rfl (by decide)
  | true => exact ok_handlerOr hc hp ⟨rfl, rfl, rfl, rfl, rfl⟩ short_none hheld

theorem sstat_ok (hc : Fresh c) (hp : Plain c) (htype : c.ifcall.type = FType.Tstat.code) : (sstat conf t F c).Ok c := by
  rw [sstat]
  split
  · exact ok_error hc hp rfl rfl (by decide)
  split
  · exact ok_handlerOr hc hp ⟨rfl, rfl, rfl, rfl, rfl⟩ short_none (held_free (t := .Tstat) htype rfl)
  · exact ok_handlerOr hc hp ⟨rfl, rfl, rfl, rfl, rfl⟩ (short_text (by decide)) (held_free (t := .Tstat) htype rfl)

theorem swstat_ok (hc : Fresh c) (hp : Plain c) (htype : c.ifcall.type = FType.Twstat.code) : (swstat conf F c).Ok c := by
  rw [swstat]
  split
  · exact ok_error hc hp rfl rfl (by decide)
  split
  · exact ok_error hc hp rfl rfl (by decide)
  dsimp only
  split
  · exact ok_error hc hp rfl rfl (by decide)
  split
  · exact ok_error hc hp rfl rfl (by decide)
  split
  · exact ok_error hc hp rfl rfl (by decide)
  split
  · exact ok_error hc hp rfl rfl (by decide)
  split
  · exact ok_error hc hp rfl rfl (by decide)
  split
  · exact ok_error hc hp rfl rfl (by decide)
  · exact ok_handler hp ⟨rfl, rfl, rfl, rfl, rfl⟩ (held_free (t := .Twstat) htype rfl)

/-- What is read of a directory is what was asked for, at most. -/
theorem sread_ok (ht : t.Fits) (hc : Fresh c) (hp : Plain c) (htype : c.ifcall.type = FType.Tread.code)
    (hs : Safe t F c.ifcall) : (sread conf t msize F c).Ok c := by
  rw [sread]
  split
  · exact ok_error hc hp rfl rfl (by decide)
  rename_i i hi
  dsimp only at hi ⊢
  have hheld : ∀ c' : Call, c'.ifcall.type = c.ifcall.type → c'.fid = F.lookupfid c.ifcall.fid → Held c' := fun c' hc' hf =>
    held_fid (t := .Tread) (hc'.trans htype) (by decide) (by rw [hf, hi]; nofun)
  split
  · exact ok_error hc hp rfl rfl (by decide)
  split
  · exact ok_error hc hp rfl rfl (by decide)
  split
  · exact ok_text hc hp ⟨rfl, rfl, rfl, rfl, rfl⟩ (by decide)
  split
  · rename_i hdir
    rw [if_neg (not_not.2 (hs.rdir htype i hi hdir.1 hdir.2))]
    refine ⟨rfl, rfl, rfl, ?_, nofun, nofun⟩
    intro e he
    cases he
    refine ⟨short_none, fun _ => hheld _ rfl rfl, fun _ => rfl, fun h => absurd h hp.1, ?_, ?_⟩
    · intro _
      rw [hc.nwqid]
      exact Nat.zero_le _
    · intro _ _
      exact Nat.le_of_eq (UInt32.toNat_ofNat_of_lt'
        (Nat.lt_of_le_of_lt (ht.readdirfile i _) (clamp msize c.ifcall.count).toNat_lt))
  · exact ok_handlerOr hc hp ⟨rfl, rfl, rfl, rfl, rfl⟩ (short_text (by decide)) (hheld _ rfl rfl)

/-! ## Walks -/

theorem walkfile1_some {d : Nat} (ht : t.Fits) (hd : t.parent d ≠ none) (elem : List UInt8) :
    ∃ x, t.walkfile1 d elem = some x ∧ ∀ f, x = some f → t.parent f ≠ none := by
  rw [Tree.walkfile1]
  split
  · obtain ⟨p, hp⟩ := Option.ne_none_iff_exists'.1 hd
    refine ⟨some p, by rw [hp]; rfl, fun f hf => ?_⟩
    cases hf
    exact ht.parent d p hp
  · exact ⟨_, rfl, ht.child d elem⟩

/-- No directory on the way from one that has not been removed has been. -/
theorem walkelems_some (ht : t.Fits) (path : List (List UInt8)) : ∀ d, t.parent d ≠ none →
    ∃ x, t.walkelems d path = some x ∧ ∀ f, x = some f → t.parent f ≠ none := by
  induction path with
  | nil =>
    intro d hd
    refine ⟨some d, rfl, fun f hf => ?_⟩
    cases hf
    exact hd
  | cons elem path ih =>
    intro d hd
    obtain ⟨x, hx, hlive⟩ := walkfile1_some t ht hd elem
    rw [Tree.walkelems, hx]
    cases x with
    | none => exact ⟨none, rfl, nofun⟩
    | some f => exact ih f (hlive f rfl)

theorem walkfile_some {d : Nat} (ht : t.Fits) (hd : t.parent d ≠ none) (path : List UInt8) :
    ∃ x, t.walkfile d path = some x ∧ ∀ f, x = some f → t.parent f ≠ none := by
  rw [Tree.walkfile]
  split
  · exact walkfile1_some t ht hd path
  · exact walkelems_some t ht _ d hd

theorem walkfiles_some (ht : t.Fits) (wname : Nat → Ptr) : ∀ (n i f : Nat) (wqid : Nat → Qid),
    (n ≠ 0 → t.parent f ≠ none) → ∃ x, walkfiles t wname n i f wqid = some x ∧ x.1 ≤ i + n := by
  intro n
  induction n with
  | zero => exact fun i f wqid _ => ⟨_, rfl, Nat.le_refl i⟩
  | succ n ih =>
    intro i f wqid hf
    obtain ⟨x, hx, hlive⟩ := walkfile_some t ht (hf (Nat.succ_ne_zero n)) (str (wname i))
    rw [walkfiles, hx]
    cases x with
    | none => exact ⟨_, rfl, Nat.le_add_right i _⟩
    | some g =>
      obtain ⟨x, hx, hle⟩ := ih (i + 1) g (Function.update wqid i (t.dir g).qid) fun _ => hlive g rfl
      exact ⟨x, hx, by omega⟩

theorem walk1s_le (ht : t.Fits) (wname : Nat → Ptr) (newfid : Nat) : ∀ (n i : Nat) (F : Fids) (wqid : Nat → Qid),
    (walk1s t wname newfid n i F wqid).2.1 ≤ i + n ∧ Short (walk1s t wname newfid n i F wqid).1 := by
  intro n
  induction n with
  | zero => exact fun i F wqid => ⟨Nat.le_refl i, short_none⟩
  | succ n ih =>
    intro i F wqid
    rw [walk1s]
    cases hwalk : t.walk1 (F.fid newfid) (wname i) with
    | mk e qid =>
      cases e with
      | some e =>
        refine ⟨Nat.le_add_right i _, ?_⟩
        intro e' he
        cases he
        exact ht.walk1 _ _ e (by rw [hwalk])
      | none =>
        obtain ⟨hle, hshort⟩ := ih (i + 1) (F.set newfid { F.fid newfid with qid := qid }) (Function.update wqid i qid)
        exact ⟨Nat.le_trans hle (by omega), hshort⟩

theorem ok_walked {i : Nat} {wqid : Nat → Qid} (hc : Fresh c) (hp : Plain c) (hk : Keeps c c')
    (hi : i ≤ c.ifcall.nwname.toNat) (he : Short e) (hheld : Held c') :
    Served.Ok c (F, { c' with ofcall := { c'.ofcall with nwqid := UInt16.ofNat i, wqid := wqid } }, .respond e) := by
  refine ⟨hk.type, hk.nwname, hk.msize, ?_, nofun, nofun⟩
  intro e' h
  cases h
  refine ⟨he, fun _ => hheld.of rfl rfl rfl, fun h => absurd (hk.type.symm.trans h) hp.2,
    fun h => absurd (hk.type.symm.trans h) hp.1, ?_, ?_⟩
  · intro htype
    have hlt : i < 2 ^ 16 := Nat.lt_of_le_of_lt hi c.ifcall.nwname.toNat_lt
    rw [UInt16.toNat_ofNat_of_lt' hlt]
    exact Nat.le_trans hi (hc.nwname (hk.type.symm.trans htype))
  · intro _ _
    rw [hk.count, hc.count]
    exact Nat.zero_le _

theorem filewalk_ok {fid newfid f : Nat} (ht : t.Fits) (hc : Fresh c) (hp : Plain c) (hk : Keeps c c') (hheld : Held c')
    (hfile : (F.fid fid).file = some f) (hlive : c.ifcall.nwname ≠ 0 → t.parent f ≠ none) :
    (filewalk t F c' fid newfid).Ok c := by
  obtain ⟨⟨i, g, wqid⟩, hx, hle⟩ := walkfiles_some t ht c'.ifcall.wname c.ifcall.nwname.toNat 0 f c'.ofcall.wqid fun hn =>
    hlive fun hzero => hn (by rw [hzero]; rfl)
  rw [Nat.zero_add] at hle
  rw [filewalk, hfile]
  dsimp only
  rw [hk.nwname, hx]
  cases g with
  | none => exact ok_walked _ hc hp hk hle short_none hheld
  | some g => exact ok_walked _ hc hp hk hle short_none hheld

theorem walkandclone_ok {fid newfid : Nat} (ht : t.Fits) (hc : Fresh c) (hp : Plain c) (hk : Keeps c c') (hheld : Held c') :
    (walkandclone conf t F c' fid newfid).Ok c := by
  rw [walkandclone]
  split
  · exact ok_text hc hp hk (by decide)
  dsimp only
  generalize (if fid ≠ newfid then F.set newfid { F.fid newfid with qid := (F.fid fid).qid } else F) = F
  cases hclone : (if fid ≠ newfid ∧ conf.clone then t.clone (F.fid fid) (F.fid newfid) else none) with
  | some e =>
    refine ok_respond hc hp hk ?_ nofun
    intro e' he
    cases he
    split at hclone
    · exact ht.clone _ _ _ hclone
    · cases hclone
  | none =>
    obtain ⟨hle, hshort⟩ := walk1s_le t ht c'.ifcall.wname newfid c'.ifcall.nwname.toNat 0 F c'.ofcall.wqid
    rw [hk.nwname, Nat.zero_add] at hle
    rw [hk.nwname] at hshort
    dsimp only
    rw [hk.nwname]
    split
    · exact ok_walked _ hc hp hk hle hshort hheld
    · exact ok_walked _ hc hp hk hle short_none hheld

theorem walkWith_ok {fid newfid : Nat} (ht : t.Fits) (hc : Fresh c) (hp : Plain c) (hk : Keeps c c')
    (hfid : c'.fid ≠ none) (hlive : c.ifcall.nwname ≠ 0 → ∀ f, (F.fid fid).file = some f → t.parent f ≠ none) :
    (walkWith conf t F c' fid newfid).Ok c := by
  have hk' : Keeps c { c' with newfid := some newfid } := ⟨hk.type, hk.nwname, hk.msize, hk.nwqid, hk.count⟩
  have hheld : Held { c' with newfid := some newfid } := ⟨fun _ _ _ => hfid, fun _ => nofun⟩
  rw [walkWith]
  split
  · rename_i hfile
    obtain ⟨f, hf⟩ := Option.ne_none_iff_exists'.1 hfile
    exact filewalk_ok t F ht hc hp hk' hheld hf fun hn => hlive hn f hf
  split
  · exact walkandclone_ok conf t F ht hc hp hk' hheld
  split
  · exact ok_handler hp hk' hheld
  · exact ok_sysfatal hk'

/-- A new fid has no file. -/
theorem allocfid_file {F F' : Fids} {fid : UInt32} {i j f : Nat} (h : F.allocfid fid = (some j, F')) {uid : Ptr}
    (hf : ((F'.set j { F'.fid j with uid := uid }).fid i).file = some f) : (F.fid i).file = some f := by
  rw [Fids.allocfid] at h
  split at h
  · cases h
  cases h
  by_cases hij : i = F.n
  · rw [hij] at hf
    dsimp only [Fids.set] at hf
    rw [Function.update_self, Function.update_self] at hf
    cases hf
  · dsimp only [Fids.set] at hf
    rw [Function.update_of_ne hij, Function.update_of_ne hij] at hf
    exact hf

theorem swalk_ok (ht : t.Fits) (hc : Fresh c) (hp : Plain c) (htype : c.ifcall.type = FType.Twalk.code)
    (hs : Safe t F c.ifcall) : (swalk conf t F c).Ok c := by
  have hk : Keeps c { c with fid := F.lookupfid c.ifcall.fid } := ⟨rfl, rfl, rfl, rfl, rfl⟩
  rw [swalk]
  split
  · exact ok_text hc hp hk (by decide)
  rename_i i hi
  have hfid : ({ c with fid := F.lookupfid c.ifcall.fid } : Call).fid ≠ none := by
    rw [hi]
    nofun
  split
  · exact ok_text hc hp hk (by decide)
  split
  · exact ok_text hc hp hk (by decide)
  split
  · rename_i hnew
    split
    · exact ok_error hc hp rfl rfl (by decide)
    rename_i j F' halloc
    cases huid : (F.fid i).uid with
    | none => exact absurd huid (hs.uid htype hnew i hi)
    | some uid =>
      exact walkWith_ok conf t _ ht hc hp hk hfid fun hn f hf =>
        hs.parent (.inl ⟨htype, hn⟩) i f hi (allocfid_file halloc hf)
  · exact walkWith_ok conf t F ht hc hp hk hfid fun hn f hf => hs.parent (.inl ⟨htype, hn⟩) i f hi hf

end Plain

/-! ## Every request -/

/-- A `Tversion` for a version of 9P. -/
def Versioned (c : Call) : Prop := c.ifcall.type = FType.Tversion.code → (str c.ifcall.version).take 2 = ascii "9P"

theorem sversion_ok {c : Call} (F : Fids) (hv : (str c.ifcall.version).take 2 = ascii "9P")
    (htype : c.ifcall.type = FType.Tversion.code) : (sversion F c).Ok c := by
  rw [sversion, if_neg (not_not.2 hv)]
  refine ⟨rfl, rfl, rfl, ?_, nofun, nofun⟩
  intro e he
  cases he
  refine ⟨short_none, fun _ => held_free (t := .Tversion) htype rfl, fun _ => rfl, fun _ => ⟨rfl, rfl, rfl⟩, ?_, ?_⟩
  · intro h
    exact absurd (htype.symm.trans h) (by decide)
  · intro h
    exact absurd (htype.symm.trans h) (by decide)

theorem serve_ok {t : Tree} {c : Call} {type : FType} (conf : Conf) (msize : UInt32) (F : Fids) (ht : t.Fits)
    (hc : Fresh c) (hv : Versioned c) (htype : c.ifcall.type = type.code) (hr : isRequest type = true)
    (hf : type ≠ .Tflush) (hs : Safe t F c.ifcall) : (serve conf t msize F c type).Ok c := by
  have hplain : type ≠ .Tversion → Plain c := by
    intro hn
    refine ⟨fun h => hn (code_inj (htype.symm.trans h)), fun h => hf (code_inj (htype.symm.trans h))⟩
  cases type with
  | Tversion => exact sversion_ok F (hv htype) htype
  | Tauth => exact sauth_ok conf F hc (hplain (by decide)) htype
  | Tattach => exact sattach_ok conf t F hc (hplain (by decide)) htype
  | Twalk => exact swalk_ok conf t F ht hc (hplain (by decide)) htype hs
  | Topen => exact sopen_ok conf t F hc (hplain (by decide)) htype hs
  | Tcreate => exact screate_ok conf t F hc (hplain (by decide)) htype hs
  | Tread => exact sread_ok conf t msize F ht hc (hplain (by decide)) htype hs
  | Twrite => exact swrite_ok conf msize F hc (hplain (by decide)) htype
  | Tclunk => exact sclunk_ok F hc (hplain (by decide)) htype
  | Tremove => exact sremove_ok conf t F hc (hplain (by decide)) htype hs
  | Tstat => exact sstat_ok conf t F hc (hplain (by decide)) htype
  | Twstat => exact swstat_ok conf F hc (hplain (by decide)) htype
  | Tflush => exact absurd rfl hf
  | _ => cases hr

/-! ## Completed -/

/-- What the reply is made of. -/
structure Ready (c : Call) : Prop where
  error : Short c.error
  version : c.ifcall.type = FType.Tversion.code → c.error = none ∧ c.ofcall.version = text "9P2000"
  nwqid : c.ifcall.type = FType.Twalk.code → c.ofcall.nwqid.toNat ≤ MAXWELEM
  data : c.ifcall.type = FType.Tread.code → c.error = none → c.ofcall.count.toNat ≤ (c.ofcall.data.getD []).length
  stat : c.ifcall.type = FType.Tstat.code → c.error = none → c.ofcall.nstat.toNat ≤ (c.ofcall.stat.getD []).length

theorem Right.ready {c : Call} (h : Right c) (hs : c.ifcall.type ≠ FType.Tstat.code) : Ready c :=
  ⟨h.error, fun htype => ⟨(h.version htype).1, (h.version htype).2.1⟩, h.nwqid, h.data, fun htype => absurd htype hs⟩

theorem ready_error {c : Call} (he : Short c.error) (hv : c.ifcall.type ≠ FType.Tversion.code)
    (hw : c.ifcall.type = FType.Twalk.code → c.ofcall.nwqid.toNat ≤ MAXWELEM)
    (hd : c.ifcall.type ≠ FType.Tread.code) (hs : c.ifcall.type ≠ FType.Tstat.code) : Ready c :=
  ⟨he, fun h => absurd h hv, hw, fun h => absurd h hd, fun h => absurd h hs⟩

/-- The fid that a request of this type closes. -/
def closes (c : Call) : FType → Option Nat
  | .Tauth => if c.error ≠ none then c.afid else none
  | .Tattach => if c.error ≠ none then c.fid else none
  | .Twalk =>
    if (c.error ≠ none ∨ c.ofcall.nwqid < c.ifcall.nwname) ∧ c.ifcall.fid ≠ c.ifcall.newfid then c.newfid else none
  | _ => none

/-- What completing a request follows, and frees. -/
structure SafeEnd (F : Fids) (c : Call) (type : FType) : Prop where
  /-- A fid that is closed is still there. -/
  fid : ∀ i, closes c type = some i → F.map (F.fid i).fid ≠ none
  /-- The size of the entry fits its count. -/
  stat : type = .Tstat → c.error = none → sizeD2M c.d < 2 ^ 16

section Completed

variable {t : Tree} {F : Fids} {c : Call}

theorem drop_some {fid : UInt32} (h : F.map fid ≠ none) : ∃ G, F.drop fid = some G := by
  obtain ⟨i, hi⟩ := Option.ne_none_iff_exists'.1 h
  rw [Fids.drop, Fids.removefid, hi]
  exact ⟨_, rfl⟩

theorem rauth_some (hs : SafeEnd F c .Tauth) : ∃ G, rauth F c = some G := by
  rw [rauth]
  split
  · rename_i e i he hi
    exact drop_some (hs.fid i (by rw [closes, if_pos (by rw [he]; nofun), hi]))
  · exact ⟨F, rfl⟩

theorem rattach_some (hs : SafeEnd F c .Tattach) : ∃ G, rattach F c = some G := by
  rw [rattach]
  split
  · rename_i e i he hi
    exact drop_some (hs.fid i (by rw [closes, if_pos (by rw [he]; nofun), hi]))
  · exact ⟨F, rfl⟩

theorem ropen_some (h : c.error = none → c.fid ≠ none) : ∃ G, ropen F c = some G := by
  rw [ropen]
  split
  · exact ⟨_, rfl⟩
  · rename_i he hf
    exact absurd hf (h he)
  · exact ⟨F, rfl⟩

theorem rcreate_some (h : c.error = none → c.fid ≠ none) : ∃ G, rcreate F c = some G := by
  rw [rcreate]
  split
  · exact ⟨_, rfl⟩
  · rename_i he hf
    exact absurd hf (h he)
  · exact ⟨F, rfl⟩

theorem rread_some (h : c.error = none → c.fid ≠ none) : ∃ G, rread F c = some G := by
  rw [rread]
  split
  · exact ⟨_, rfl⟩
  · rename_i he hf
    exact absurd hf (h he)
  · exact ⟨F, rfl⟩

theorem rwrite_some (h : c.error = none → c.fid ≠ none) : ∃ G, rwrite F c = some G := by
  rw [rwrite]
  split
  · rename_i he hf
    exact absurd hf (h he)
  · exact ⟨F, rfl⟩

theorem rwalk_ready (h : Right c) (htype : c.ifcall.type = FType.Twalk.code) (hs : SafeEnd F c .Twalk) :
    ∃ x, rwalk F c = some x ∧ Ready x.2 ∧ x.2.ifcall = c.ifcall := by
  have hready := h.ready (by rw [htype]; decide)
  have herror : ∀ {e : Ptr}, Short e → Ready { c with error := e } := fun he =>
    ready_error he (by rw [htype]; decide) h.nwqid (by rw [htype]; decide) (by rw [htype]; decide)
  rw [rwalk]
  split
  · rename_i hfail
    obtain ⟨G, hG⟩ : ∃ G, (if c.ifcall.fid ≠ c.ifcall.newfid then c.newfid.elim (some F) fun j => F.drop (F.fid j).fid
        else some F) = some G := by
      split
      · rename_i hnew
        cases hj : c.newfid with
        | none => exact ⟨F, rfl⟩
        | some j => exact drop_some (hs.fid j (by rw [closes, if_pos ⟨hfail, hnew⟩, hj]))
      · exact ⟨F, rfl⟩
    dsimp only
    rw [hG]
    refine ⟨_, rfl, ?_⟩
    dsimp only
    split
    · dsimp only
      split
      · exact ⟨herror (short_text (by decide)), rfl⟩
      · exact ⟨hready, rfl⟩
    · exact ⟨herror short_none, rfl⟩
  · rename_i hok
    obtain ⟨hfid, hnewfid⟩ := h.held (not_not.1 fun he => hok (.inl he))
    split
    · exact ⟨_, rfl, hready, rfl⟩
    · rename_i hnot
      obtain ⟨i, hi⟩ := Option.ne_none_iff_exists'.1 (hfid .Twalk htype rfl)
      obtain ⟨j, hj⟩ := Option.ne_none_iff_exists'.1 (hnewfid htype)
      exact absurd hj (hnot i j hi)

theorem rremove_ready (h : Right c) (htype : c.ifcall.type = FType.Tremove.code) :
    ∃ x, rremove t F c = some x ∧ Ready x.2 ∧ x.2.ifcall = c.ifcall := by
  have hready := h.ready (by rw [htype]; decide)
  rw [rremove]
  split
  · split
    · exact ⟨_, rfl, hready, rfl⟩
    rename_i file _
    cases t.removefile file with
    | none => exact ⟨_, rfl, hready, rfl⟩
    | some e =>
      exact ⟨_, rfl, ready_error (short_snprint _) (by rw [htype]; decide) (fun h => absurd (htype.symm.trans h) (by decide))
        (by rw [htype]; decide) (by rw [htype]; decide), rfl⟩
  · rename_i he hf
    exact absurd hf ((h.held he).fid .Tremove htype rfl)
  · exact ⟨_, rfl, hready, rfl⟩

/-- In two bytes only the size is written. -/
theorem convD2M_size (d : Dir Ptr) :
    convD2M d (replicate BIT16SZ 0) BIT16SZ = (BIT16SZ, Bytes.leBytes 2 (sizeD2M d - BIT16SZ)) := by
  have hss : STATFIXLEN + (d.sv.map nsv).sum = sizeD2M d := rfl
  have hgt : sizeD2M d > BIT16SZ := Nat.lt_of_lt_of_le (by decide) (Nat.le_add_right STATFIXLEN _)
  rw [convD2M, if_neg (lt_irrefl _)]
  dsimp only
  rw [hss, if_pos hgt, PBIT16_eq, Cursor.Cur.put, Bytes.store_eq (by rw [Bytes.length_leBytes]; decide)]
  simp [Bytes.length_leBytes, BIT16SZ]

theorem GBIT16_leBytes {n : Nat} (h : n < 2 ^ 16) : GBIT16 (Bytes.leBytes 2 n) 0 = n := by
  have hget := GBIT16_at [] [] (Bytes.length_leBytes 2 n)
  rw [nil_append, append_nil] at hget
  exact (hget.trans (Bytes.leNat_leBytes 2 n)).trans (Nat.mod_eq_of_lt h)

/-- `rstat` writes the whole entry. -/
theorem rstat_ready (h : Right c) (htype : c.ifcall.type = FType.Tstat.code) (hs : SafeEnd F c .Tstat) :
    ∃ c', rstat c = some c' ∧ Ready c' ∧ c'.ifcall = c.ifcall := by
  have hready : ∀ c' : Call, c'.ifcall = c.ifcall → Short c'.error →
      (c'.error = none → c'.ofcall.nstat.toNat ≤ (c'.ofcall.stat.getD []).length) → Ready c' := by
    intro c' hc he hs
    rw [← hc] at htype
    exact ⟨he, fun h => absurd (htype.symm.trans h) (by decide), fun h => absurd (htype.symm.trans h) (by decide),
      fun h => absurd (htype.symm.trans h) (by decide), fun _ => hs⟩
  rw [rstat]
  split
  · rename_i he
    exact ⟨c, rfl, hready c rfl h.error fun h => absurd h he, rfl⟩
  rename_i herror
  have hlt := hs.stat rfl (not_not.1 herror)
  have hge : STATFIXLEN ≤ sizeD2M c.d := Nat.le_add_right _ _
  have hsize : BIT16SZ + (sizeD2M c.d - BIT16SZ) = sizeD2M c.d := Nat.add_sub_cancel' (Nat.le_trans (by decide) hge)
  dsimp only
  rw [convD2M_size, if_neg (not_not.2 rfl), GBIT16_leBytes (Nat.lt_of_le_of_lt (Nat.sub_le _ _) hlt), Nat.add_comm, hsize,
    convD2M_wire le_rfl (by rw [length_replicate])]
  dsimp only
  rw [UInt16.toNat_ofNat_of_lt' hlt, if_neg (Nat.not_le.2 (Nat.lt_of_lt_of_le (by decide) hge))]
  refine ⟨_, rfl, hready _ rfl (by rw [not_not.1 herror]; exact short_none) fun _ => ?_, rfl⟩
  change (UInt16.ofNat (sizeD2M c.d)).toNat ≤ length (_ ++ _)
  rw [UInt16.toNat_ofNat_of_lt' hlt, length_append, length_dirWire, ← sizeD2M_eq]
  exact Nat.le_add_right _ _

/-- **The function for the type keeps what is right**, and there is one for every request. -/
theorem finishCall_ready {type : FType} (h : Right c) (htype : c.ifcall.type = type.code) (hr : isRequest type = true)
    (hv : type ≠ .Tversion) (hf : type ≠ .Tflush) (hs : SafeEnd F c type) :
    ∃ F' c', finishCall t F c type = some (F', c') ∧ Ready c' ∧ c'.ifcall = c.ifcall := by
  have hready : type ≠ .Tstat → Ready c := fun hn => h.ready fun hs => hn (code_inj (htype.symm.trans hs))
  have hheld : follows type = true → c.error = none → c.fid ≠ none := fun hf he => (h.held he).fid type htype hf
  have hmap : ∀ {x : Option Fids}, type ≠ .Tstat → (∃ G, x = some G) →
      ∃ F' c', x.map (·, c) = some (F', c') ∧ Ready c' ∧ c'.ifcall = c.ifcall := by
    intro x hn hx
    obtain ⟨G, rfl⟩ := hx
    exact ⟨G, c, rfl, hready hn, rfl⟩
  cases type with
  | Tauth => exact hmap (by decide) (rauth_some hs)
  | Tattach => exact hmap (by decide) (rattach_some hs)
  | Topen => exact hmap (by decide) (ropen_some (hheld rfl))
  | Tcreate => exact hmap (by decide) (rcreate_some (hheld rfl))
  | Tread => exact hmap (by decide) (rread_some (hheld rfl))
  | Twrite => exact hmap (by decide) (rwrite_some (hheld rfl))
  | Tclunk | Twstat => exact ⟨_, _, rfl, hready (by decide), rfl⟩
  | Twalk =>
    obtain ⟨x, hx, h⟩ := rwalk_ready h htype hs
    exact ⟨x.1, x.2, hx, h⟩
  | Tremove =>
    obtain ⟨x, hx, h⟩ := rremove_ready (t := t) (F := F) h htype
    exact ⟨x.1, x.2, hx, h⟩
  | Tstat =>
    obtain ⟨c', hc', h⟩ := rstat_ready h htype hs
    exact ⟨F, c', by rw [finishCall, hc']; rfl, h⟩
  | Tversion => exact absurd rfl hv
  | Tflush => exact absurd rfl hf
  | _ => cases hr

end Completed

/-! ## The reply -/

/-- The size of the reply to `c`: an error's text, or what its type answers with. -/
def room (c : Call) : Nat :=
  match c.error with
  | some e => 9 + strlen e
  | none =>
    match FType.ofCode c.ifcall.type with
    | some .Tversion => 19
    | some .Tauth | some .Tattach => 20
    | some .Twalk => 9 + 13 * c.ofcall.nwqid.toNat
    | some .Topen | some .Tcreate => 24
    | some .Tread => 11 + c.ofcall.count.toNat
    | some .Twrite => 11
    | some .Tstat => 9 + c.ofcall.nstat.toNat
    | _ => 7

/-- The message that a request of this type is answered with. -/
def replyOf : FType → FType
  | .Tversion => .Rversion | .Tauth => .Rauth | .Tattach => .Rattach | .Tflush => .Rflush | .Twalk => .Rwalk
  | .Topen => .Ropen | .Tcreate => .Rcreate | .Tread => .Rread | .Twrite => .Rwrite | .Tclunk => .Rclunk
  | .Tremove => .Rremove | .Tstat => .Rstat | .Twstat => .Rwstat
  | t => t

theorem replyOf_code {t : FType} (h : isRequest t = true) : t.code + 1 = (replyOf t).code := by
  cases t <;> first | rfl | cases h

theorem str_length (e : List UInt8) : (str (some e)).length = strlen e := rfl

theorem length_bytes_le (p : Ptr) (n : Nat) : (bytes p n).length ≤ n := by
  rw [bytes, length_take]
  exact Nat.min_le_left _ _

section Reply

variable {c : Call} {t : FType}

theorem body_ok (h : Ready c) (ht : c.ifcall.type = t.code) (hr : isRequest t = true) :
    (c.ofcall.body (replyOf t)).Ok := by
  cases t with
  | Tversion =>
    refine ⟨?_, trivial⟩
    intro s hs
    rw [mem_singleton.1 hs, (h.version ht).2]
    exact short_text (s := "9P2000") (by decide) _ rfl
  | Twalk =>
    refine ⟨nofun, ?_⟩
    change length (map _ _) ≤ _
    rw [length_map, length_range]
    exact h.nwqid ht
  | Tread => exact ⟨nofun, Nat.lt_of_le_of_lt (length_bytes_le _ _) c.ofcall.count.toNat_lt⟩
  | Tstat => exact ⟨nofun, Nat.lt_of_le_of_lt (length_bytes_le _ _) c.ofcall.nstat.toNat_lt⟩
  | Tauth | Tattach | Tflush | Topen | Tcreate | Twrite | Tclunk | Tremove | Twstat => exact ⟨nofun, trivial⟩
  | _ => cases hr

theorem body_backed (h : Ready c) (he : c.error = none) (ht : c.ifcall.type = t.code) (hr : isRequest t = true) :
    c.ofcall.Backed (replyOf t) := by
  cases t with
  | Tread => exact h.data ht he
  | Tstat => exact h.stat ht he
  | Tversion | Twalk | Tauth | Tattach | Tflush | Topen | Tcreate | Twrite | Tclunk | Tremove | Twstat => trivial
  | _ => cases hr

theorem body_size (h : Ready c) (he : c.error = none) (ht : c.ifcall.type = t.code) (hr : isRequest t = true) :
    7 + (c.ofcall.body (replyOf t)).wire.length = room c := by
  rw [room, he, ht, ofCode_code]
  cases t with
  | Tversion =>
    have hversion : (str c.ofcall.version).length = 6 := by
      rw [(h.version ht).2]
      decide
    simp only [replyOf, Fcall.body, Body.wire, length_append, length_wire32, length_wireStr, hversion]
  | Twalk =>
    simp only [replyOf, Fcall.body, Body.wire, length_append, length_qids, length_map, length_range,
      Bytes.length_leBytes]
    omega
  | Tread =>
    simp only [replyOf, Fcall.body, Body.wire, length_append, length_bytes (h.data ht he), Bytes.length_leBytes]
    omega
  | Tstat =>
    simp only [replyOf, Fcall.body, Body.wire, length_append, length_bytes (h.stat ht he), Bytes.length_leBytes]
    omega
  | Tauth | Tattach | Topen | Tcreate | Twrite =>
    simp only [replyOf, Fcall.body, Body.wire, length_append, length_wireQid, length_wire32]
  | Tflush | Tclunk | Tremove | Twstat => rfl
  | _ => cases hr

/-- **The reply is a message of the protocol, of the size `room` says.** -/
theorem reply_msg (h : Ready c) (ht : c.ifcall.type = t.code) (hr : isRequest t = true) :
    ∃ m, (reply c).msg = some m ∧ m.body.Ok ∧ (reply c).Backed m.body.type ∧ m.size = room c := by
  cases he : c.error with
  | some e =>
    have hreply : reply c = { c.ofcall with tag := c.ifcall.tag, type := FType.Rerror.code, ename := some e } := by
      rw [reply, if_pos (by rw [he]; nofun), he]
    rw [hreply]
    refine ⟨⟨c.ifcall.tag, .Rerror (str (some e))⟩, rfl, ⟨?_, trivial⟩, trivial, ?_⟩
    · intro s hs
      rw [mem_singleton.1 hs]
      exact h.error e he
    · rw [Msg.size, Body.wire, length_wireStr, str_length, room, he]
      dsimp only
      omega
  | none =>
    have hreply : reply c = { c.ofcall with tag := c.ifcall.tag, type := (replyOf t).code } := by
      rw [reply, if_neg (by rw [he]; exact not_not.2 rfl), ht, replyOf_code hr]
    have hbody : (reply c).body (replyOf t) = c.ofcall.body (replyOf t) := by
      rw [hreply]
      cases t <;> rfl
    have hmsg : (reply c).msg = some ⟨c.ifcall.tag, c.ofcall.body (replyOf t)⟩ := by
      rw [← hbody, Fcall.msg, hreply, ofCode_code]
      rfl
    refine ⟨_, hmsg, body_ok h ht hr, ?_, body_size h he ht hr⟩
    rw [body_type, hreply]
    have hb := body_backed h he ht hr
    cases t <;> exact hb

theorem convS2M_reply (h : Ready c) (ht : c.ifcall.type = t.code) (hr : isRequest t = true) {wbuf : List UInt8}
    {msize : UInt32} (hbuf : wbuf.length = msize.toNat) (hroom : room c ≤ msize.toNat) :
    ∃ buf, convS2M (reply c) wbuf msize.toNat = (room c, buf) ∧ buf.length = wbuf.length := by
  obtain ⟨m, hm, hok, hb, hsize⟩ := reply_msg h ht hr
  have hlt : m.size < 2 ^ 32 := by
    have := msize.toNat_lt
    omega
  refine ⟨m.wire ++ wbuf.drop m.size, ?_, ?_⟩
  · rw [convS2M_wire hm ⟨hok, hlt⟩ hb (by omega) (Nat.le_of_eq hbuf.symm), hsize]
  · rw [length_append, length_wire, length_drop]
    omega

end Reply

/-! ## The message -/

theorem convM2S_type {buf buf' : List UInt8} {a : Place buf.length} {f0 f : Fcall Off}
    (h : convM2S a.addr buf buf.length f0 = some (buf.length, f, buf')) :
    (∃ t : FType, f.type = t.code) ∧ (f.type = FType.Twalk.code → f.nwname.toNat ≤ MAXWELEM) := by
  obtain ⟨m, rest, hok, hbuf, -, hle⟩ := convM2S_sound le_rfl (not_wraps_of_whole h) h
  obtain ⟨f', ys, hacc⟩ := convM2S_wire hok f0
  have hrun := hacc.run rest buf.length a hle
  rw [← hbuf, h] at hrun
  have hf : f = f' := (Prod.mk.inj (Prod.mk.inj (Option.some.inj hrun)).2).1
  subst hf
  refine ⟨⟨_, hacc.type⟩, ?_⟩
  intro htype
  have hwalk : m.body.type = .Twalk := code_inj (hacc.type.symm.trans htype)
  have hstrings := congrArg length (hacc.strings rest)
  rw [hwalk, length_map] at hstrings
  have hnames : (f.strings .Twalk).length = f.nwname.toNat := by
    rw [Fcall.strings, length_map, length_range]
  rw [hnames] at hstrings
  have hbody := hok.body.2
  cases hm : m.body with
  | Twalk fid newfid wname =>
    rw [hm] at hbody hstrings
    rw [hstrings]
    exact hbody
  | _ =>
    rw [hm] at hwalk
    cases hwalk

end Plan9.Lib9p.Serve
