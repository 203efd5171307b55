/-
Where the data of a record ends.

The fields of a record lie one behind the other (`Layout`), and are read to the end of the
message, not to that of the data. `convM2RR` drops a record whose fields are too short for
the length it declares, but not one whose fields are too long.
-/
import Plan9.Ndb.NameExact

namespace Plan9.Ndb

open List Option

/-- Behind the counted string at `p`; there is none at the end of the message. -/
def stringEnd (msg : List UInt8) (p : Nat) : Nat := if p < msg.length then p + 1 + count msg p else p

def Field.width : Field → Option Nat
  | .ushort _ => some 2
  | .uchar _ => some 1
  | .ulong _ => some 4
  | .v4addr _ => some 4
  | .v6addr _ => some 16
  | _ => none

/-- The field at `p` ends at `e`, in data up to `stop`. -/
inductive Ends (msg : List UInt8) (stop : Nat) : Field → Nat → Nat → Prop
  | fixed {f : Field} {n p : Nat} : f.width = some n → Ends msg stop f p (p + n)
  | name {x : DnPart} {xs : List (Nat × Str)} {p e : Nat} {dangling : Bool} : Wire msg p 0 true xs e dangling →
      Ends msg stop (.name x) p e
  | symbol {x : DnPart} {p : Nat} : Ends msg stop (.symbol x) p (stringEnd msg p)
  | string {x : DnPart} {p : Nat} : Ends msg stop (.string x) p (stringEnd msg p)
  | txtEnd {p : Nat} : stop ≤ p → Ends msg stop .txt p p
  | txt {p e : Nat} : p < stop → Ends msg stop .txt (stringEnd msg p) e → Ends msg stop .txt p e
  | bytes {p : Nat} : Ends msg stop .bytes p stop

/-- The fields from `p` on end at `e`. -/
inductive Layout (msg : List UInt8) (stop : Nat) : List Field → Nat → Nat → Prop
  | nil {p : Nat} : Layout msg stop [] p p
  | cons {f : Field} {fs : List Field} {p q e : Nat} : Ends msg stop f p q → Layout msg stop fs q e → Layout msg stop (f :: fs) p e

variable {msg : List UInt8} {env : Env} {what : String} {α : Type} {sp sp' : Scan} {rp rp' : RR} {n data len turns : Nat}
  {f : Field} {fs : List Field}

/-! ## Fields without an error -/

theorem not_failed {v x : α} (h : some (x, sp) = some (v, sp')) (herr : sp'.err = none) : ¬ sp.err.isSome := by
  cases h
  simp [herr]

theorem gfixed_ends {v x : α} {g : List UInt8 → α} {a b : Int} {site : String}
    (h : (if sp.err.isSome then some (x, sp)
      else if remain msg sp.p < n then some (x, errtoolong msg sp a b site)
      else (bytesAt msg sp.p n).map fun bs => (g bs, { sp with p := sp.p + n })) = some (v, sp')) (herr : sp'.err = none) :
    v = g ((msg.drop sp.p).take n) ∧ sp' = { sp with p := sp.p + n } ∧ sp.err = none := by
  split at h
  · exact absurd ‹_› (not_failed h herr)
  split at h
  · exact absurd rfl (not_failed h herr)
  obtain ⟨bs, hbs, hpair⟩ := map_eq_some_iff.1 h
  cases hpair
  unfold bytesAt at hbs
  split at hbs
  · exact ⟨by rw [some.inj hbs], rfl, herr⟩
  · cases hbs

theorem gbytes_ends {n : Int} {v : Option (List UInt8)} (h : gbytes msg n sp = some (v, sp')) (herr : sp'.err = none) :
    0 ≤ n ∧ sp' = { sp with p := sp.p + n.toNat } ∧ sp.err = none := by
  by_cases hn : n < 0
  · unfold gbytes at h
    split at h
    · exact absurd ‹_› (not_failed h herr)
    · exact absurd rfl (not_failed h herr)
  · lift n to Nat using Int.not_lt.1 hn
    exact ⟨by omega, (gfixed_ends (g := some) h herr).2⟩

theorem gcounted_ends {site long short : String} {v : Option Str} (h : gcounted msg site long short sp = some (v, sp'))
    (herr : sp'.err = none) : sp' = { sp with p := stringEnd msg sp.p } ∧ sp.err = none := by
  unfold gcounted at h
  split at h
  · exact absurd ‹_› (not_failed h herr)
  obtain ⟨⟨n, sp₁⟩, hcount, h⟩ := bind_eq_some_iff.1 h
  have hn : sp₁ = { sp with p := stringEnd msg sp.p - n } ∧ n ≤ stringEnd msg sp.p := by
    unfold stringEnd
    split at hcount
    · rename_i hp
      rw [bytesAt_some (show sp.p + 1 ≤ msg.length from hp), map_some] at hcount
      cases hcount
      have hn : beNat ((msg.drop sp.p).take 1) = count msg sp.p := rfl
      rw [if_pos hp, hn, Nat.add_sub_cancel]
      exact ⟨rfl, Nat.le_add_left _ _⟩
    · rename_i hp
      cases hcount
      rw [if_neg hp]
      exact ⟨rfl, Nat.zero_le _⟩
  obtain ⟨rfl, hle⟩ := hn
  dsimp only at h
  split at h
  · exact absurd rfl (not_failed h herr)
  split at h
  · exact absurd rfl (not_failed h herr)
  obtain ⟨_, -, h⟩ := bind_eq_some_iff.1 h
  split at h
  · cases h
  cases h
  split at herr
  · cases herr
  · rename_i hfull
    rw [if_neg hfull]
    exact ⟨by rw [Nat.sub_add_cancel hle], herr⟩

theorem gtxt_ends {stop : Nat} {txt txt' : List Str} {good : Bool} (h : gtxt msg stop turns txt good sp = some (txt', sp'))
    (herr : sp'.err = none) : Ends msg stop .txt sp.p sp'.p ∧ sp.err = none ∧ sp'.stop = sp.stop ∧
      (sp.p ≤ msg.length → sp'.p ≤ msg.length) := by
  induction turns generalizing txt good sp with
  | zero => cases h
  | succ turns ih =>
    rw [gtxt] at h
    split at h
    · rename_i hmore
      obtain ⟨⟨t, sp₁⟩, hstr, h⟩ := bind_eq_some_iff.1 h
      obtain ⟨hrest, herr1, hstop, hwithin⟩ : Ends msg stop .txt sp₁.p sp'.p ∧ sp₁.err = none ∧ sp'.stop = sp₁.stop ∧
          (sp₁.p ≤ msg.length → sp'.p ≤ msg.length) := by
        dsimp only at h
        split at h
        · cases t with
          | none => exact ih h
          | some t => exact ih h
        · cases h
      have hmoves : sp.p ≤ msg.length → sp₁.p ≤ msg.length := fun hp => by
        obtain ⟨_, _, heq, hmoves⟩ := gcounted_safe hp
        obtain ⟨-, rfl⟩ := Prod.mk.inj (some.inj (hstr.symm.trans heq))
        exact hmoves.within
      obtain ⟨rfl, herr0⟩ := gcounted_ends hstr herr1
      exact ⟨.txt hmore hrest, herr0, hstop, fun hp => hwithin (hmoves hp)⟩
    · rename_i hend
      cases h
      exact ⟨.txtEnd (Nat.not_lt.1 hend), herr, rfl, id⟩

theorem gname_ends {s : Str} (h : gname msg sp = some (s, sp')) (herr : sp'.err = none) (hstop : sp'.stop = false) :
    (∃ xs dangling, Wire msg sp.p 0 true xs sp'.p dangling) ∧ sp.err = none ∧ sp.stop = false := by
  unfold gname at h
  split at h
  · rename_i hfailed
    cases h
    rw [herr, hstop] at hfailed
    simp at hfailed
  rename_i hok
  rw [not_or] at hok
  refine ⟨?_, not_isSome_iff_eq_none.1 hok.1, Bool.not_eq_true _ ▸ hok.2⟩
  rcases gnameLoop_named h with herr' | hstop' | ⟨xs, e, dangling, hwire, hnext, -⟩
  · rw [herr] at herr'
    cases herr'
  · rw [hstop] at hstop'
    cases hstop'
  · have := hwire.more.2.1
    rw [if_pos rfl, Nat.zero_add, Nat.add_sub_cancel' (by omega)] at hnext
    exact ⟨xs, dangling, hnext ▸ hwire⟩

theorem scanField_ends (h : scanField msg env data len f rp sp = some (rp', sp')) (herr : sp'.err = none) (hstop : sp'.stop = false) :
    Ends msg (data + len) f sp.p sp'.p ∧ sp.err = none ∧ sp.stop = false := by
  have hfixed : sp' = { sp with p := sp.p + f.width.getD 0 } ∧ sp.err = none → f.width.isSome →
      Ends msg (data + len) f sp.p sp'.p ∧ sp.err = none ∧ sp.stop = false := by
    rintro ⟨rfl, herr⟩ hwidth
    obtain ⟨n, hn⟩ := isSome_iff_exists.1 hwidth
    exact ⟨by rw [hn]; exact .fixed hn, herr, hstop⟩
  cases f with
  | name x =>
    obtain ⟨⟨s, sp₁⟩, hr, heq⟩ := map_eq_some_iff.1 h
    cases heq
    obtain ⟨⟨_, _, hwire⟩, hok⟩ := gname_ends hr herr hstop
    exact ⟨.name hwire, hok⟩
  | symbol x =>
    obtain ⟨⟨s, sp₁⟩, hr, heq⟩ := map_eq_some_iff.1 h
    obtain ⟨⟨_, _⟩, hr', heq'⟩ := map_eq_some_iff.1 hr
    cases heq
    cases heq'
    obtain ⟨rfl, hok⟩ := gcounted_ends hr' herr
    exact ⟨.symbol, hok, hstop⟩
  | string x =>
    obtain ⟨⟨s, sp₁⟩, hr, heq⟩ := map_eq_some_iff.1 h
    cases heq
    obtain ⟨rfl, hok⟩ := gcounted_ends hr herr
    exact ⟨.string, hok, hstop⟩
  | ushort x | uchar x | ulong x | v4addr x | v6addr x =>
    obtain ⟨⟨v, sp₁⟩, hr, heq⟩ := map_eq_some_iff.1 h
    cases heq
    exact hfixed (gfixed_ends hr herr).2 rfl
  | txt =>
    obtain ⟨⟨v, sp₁⟩, hr, heq⟩ := map_eq_some_iff.1 h
    cases heq
    obtain ⟨hends, hok, hsame, -⟩ := gtxt_ends hr herr
    exact ⟨hends, hok, hsame ▸ hstop⟩
  | bytes =>
    obtain ⟨⟨v, sp₁⟩, hr, heq⟩ := map_eq_some_iff.1 h
    cases heq
    obtain ⟨hn, rfl, hok⟩ := gbytes_ends hr herr
    refine ⟨?_, hok, hstop⟩
    rw [show sp.p + (len - (sp.p - data : Int)).toNat = data + len by omega]
    exact .bytes

theorem scanField_within (h : scanField msg env data len f rp sp = some (rp', sp')) (herr : sp'.err = none) (hp : sp.p ≤ msg.length) :
    sp'.p ≤ msg.length := by
  by_cases hf : f = .txt
  · subst hf
    obtain ⟨⟨v, _⟩, hr, heq⟩ := map_eq_some_iff.1 h
    cases heq
    exact (gtxt_ends hr herr).2.2.2 hp
  · obtain ⟨_, _, heq, hmoves⟩ := @scanField_safe msg sp env rp data len f hf hp
    obtain ⟨-, rfl⟩ := Prod.mk.inj (some.inj (h.symm.trans heq))
    exact hmoves.within

theorem scanFields_layout (h : scanFields msg env data len fs rp sp = some (rp', sp')) (herr : sp'.err = none)
    (hstop : sp'.stop = false) : Layout msg (data + len) fs sp.p sp'.p ∧ (sp.p ≤ msg.length → sp'.p ≤ msg.length) ∧
      sp.err = none ∧ sp.stop = false := by
  induction fs generalizing rp sp with
  | nil =>
    cases h
    exact ⟨.nil, id, herr, hstop⟩
  | cons f fs ih =>
    obtain ⟨⟨_, _⟩, hf, hfs⟩ := bind_eq_some_iff.1 h
    obtain ⟨hrest, hwithin, herr1, hstop1⟩ := ih hfs
    obtain ⟨hends, hok⟩ := scanField_ends hf herr1 hstop1
    exact ⟨.cons hends hrest, fun hp => hwithin (scanField_within hf herr1 hp), hok⟩

/-! ## Records -/

/-- The length of the data at `data`, as it is declared before it. -/
def rdlength (msg : List UInt8) (data : Nat) : Nat := beNat ((msg.drop (data - 2)).take 2)

theorem rrHeader_len (h : rrHeader msg env what sp = some ((rp, len), sp')) (hok : sp'.failed = false) :
    len = min (rdlength msg sp'.p) (remain msg sp'.p).toNat := by
  have herr := Scan.failed_err hok
  simp only [rrHeader, bind_eq_bind, bind_eq_some_iff] at h
  obtain ⟨_, -, _, -, _, -, ⟨_, _⟩, -, ⟨n, _⟩, hn, h⟩ := h
  obtain ⟨hpair, rfl⟩ := Prod.mk.inj (some.inj h)
  cases hpair
  split at herr
  · cases herr
  rename_i hshort
  rw [if_neg hshort]
  obtain ⟨rfl, rfl, -⟩ := gfixed_ends (g := beNat) hn herr
  rw [rdlength, Nat.add_sub_cancel]
  split <;> omega

/-- The record that is read, behind others that are skipped: its data is at the second scan. -/
inductive RecordAt (msg : List UInt8) (env : Env) (what : String) : Scan → RR → Scan → Prop
  | here {sp sp' : Scan} {rp : RR} {len : Nat} : rrHeader msg env what sp = some ((rp, len), sp') → RecordAt msg env what sp rp sp'
  | skip {sp sp₁ sp' : Scan} {rp₁ rp : RR} {len : Nat} : rrHeader msg env what sp = some ((rp₁, len), sp₁) →
      scans rp₁.type = none → RecordAt msg env what { sp₁ with p := sp₁.p + len } rp sp' → RecordAt msg env what sp rp sp'

/-- A record whose fields are read without an error uses the data it declares, and no more, if and only if the message
has so much and the fields do not end behind it. -/
theorem convM2RR_rdata_iff (hp : sp.p ≤ msg.length) (h : convM2RR msg env what turns sp = some (some rp', sp')) :
    ∃ rp sp₁ fields, RecordAt msg env what sp rp sp₁ ∧ scans rp.type = some fields ∧ (sp'.err.isSome ∨ sp'.stop = true ∨
      ∃ e, Layout msg (min (sp₁.p + rdlength msg sp₁.p) msg.length) fields sp₁.p e ∧
        (sp'.p = sp₁.p + rdlength msg sp₁.p ↔
          sp₁.p + rdlength msg sp₁.p ≤ msg.length ∧ e ≤ sp₁.p + rdlength msg sp₁.p)) := by
  induction turns generalizing sp with
  | zero => cases h
  | succ turns ih =>
    obtain ⟨rp, len, sp₁, hheader, _, hlen, -⟩ := @rrHeader_spec msg sp env what hp
    rw [convM2RR, hheader, bind_some] at h
    dsimp only at h
    split at h
    · cases (Prod.mk.inj (some.inj h)).1
    rename_i hok
    have hmin := rrHeader_len hheader (Bool.not_eq_true _ ▸ hok)
    have hdata : sp₁.p + len = min (sp₁.p + rdlength msg sp₁.p) msg.length := by
      unfold remain at hmin
      omega
    split at h
    · rename_i hscans
      obtain ⟨rp, sp2, fields, hat, hrest⟩ := ih hlen h
      exact ⟨rp, sp2, fields, .skip hheader hscans hat, hrest⟩
    rename_i fields hscans
    refine ⟨rp, sp₁, fields, .here hheader, hscans, ?_⟩
    obtain ⟨⟨_, sp2⟩, hfields, hcheck⟩ := map_eq_some_iff.1 h
    split at hcheck
    · cases (Prod.mk.inj hcheck).1
    rename_i hchecked
    cases hcheck
    dsimp only at hchecked ⊢
    cases herr : sp2.err with
    | some e => exact .inl rfl
    | none =>
      cases hstop : sp2.stop with
      | true => exact .inr (.inl rfl)
      | false =>
        obtain ⟨hlayout, _, -⟩ := scanFields_layout hfields herr hstop
        refine .inr (.inr ⟨sp2.p, hdata ▸ hlayout, ?_⟩)
        omega

/-- The record of an address, with a length for its data. -/
def address (n : UInt8) : List UInt8 := [0, 0, 1, 0, 1, 0, 0, 0, 0, 0, n, 10, 0, 0, 1]

def plain : Env := { noEnv with fmtV := id, fmtI := id }

theorem convM2RR_rdata_address : ∃ rp sp₁ fields, RecordAt (address 4) plain "answers" ⟨0, none, rok, false, false⟩ rp sp₁ ∧
    scans rp.type = some fields ∧ ((none : Option Err).isSome ∨ false = true ∨
      ∃ e, Layout (address 4) (min (sp₁.p + rdlength (address 4) sp₁.p) (address 4).length) fields sp₁.p e ∧
        (15 = sp₁.p + rdlength (address 4) sp₁.p ↔
          sp₁.p + rdlength (address 4) sp₁.p ≤ (address 4).length ∧ e ≤ sp₁.p + rdlength (address 4) sp₁.p)) :=
  @convM2RR_rdata_iff (address 4) plain "answers" ⟨0, none, rok, false, false⟩ ⟨15, none, rok, false, false⟩ _ 1 (Nat.zero_le _) rfl

/-- The scan is behind the data that is declared. -/
def Within (msg : List UInt8) (env : Env) (what : String) (turns : Nat) (sp : Scan) : Prop :=
  ∀ rp sp', convM2RR msg env what turns sp = some (some rp, sp') →
    ∀ rp₁ sp₁, RecordAt msg env what sp rp₁ sp₁ → scans rp₁.type ≠ none → sp'.p = sp₁.p + rdlength msg sp₁.p

/-- Without data, the address is read from what follows. -/
theorem convM2RR_overread : ¬ Within (address 0) plain "answers" 1 ⟨0, none, rok, false, false⟩ := by
  intro h
  have := h _ ⟨15, none, rok, false, false⟩ rfl _ ⟨11, none, rok, false, false⟩ (.here rfl) (by decide)
  revert this
  decide

end Plan9.Ndb
