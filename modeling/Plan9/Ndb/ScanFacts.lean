/-
Scanning stays within the message.

Every step takes the scan on, by as much as it reads, and never over the end (`Moves`);
with an error it stays where it is. `gname` ends because each turn goes on in the message
or takes one of 11 pointers, and what it writes fits. The loop over the strings of a text
record is the exception: after a string that could not be read its link is nil
(`TxtBroken`).
-/
import Plan9.Ndb.NameFacts

namespace Plan9.Ndb

open Option List

variable {msg : List UInt8} {sp sp' sp'' : Scan} {α : Type}

structure Moves (msg : List UInt8) (sp sp' : Scan) : Prop where
  le : sp.p ≤ sp'.p
  within : sp'.p ≤ msg.length
  err : sp'.err = none → sp.err = none

/-- The step comes to a result. -/
def Safe (msg : List UInt8) (sp : Scan) (r : Option (α × Scan)) : Prop := ∃ v sp', r = some (v, sp') ∧ Moves msg sp sp'

theorem Moves.refl (h : sp.p ≤ msg.length) : Moves msg sp sp := ⟨le_rfl, h, id⟩

theorem Moves.trans (h : Moves msg sp sp') (h' : Moves msg sp' sp'') : Moves msg sp sp'' :=
  ⟨Nat.le_trans h.le h'.le, h'.within, fun herr => h.err (h'.err herr)⟩

theorem Moves.fail (h : sp.p ≤ msg.length) (remain need : Int) (site : String) : Moves msg sp (errtoolong msg sp remain need site) :=
  ⟨le_rfl, h, fun herr => nomatch herr⟩

theorem bytesAt_some {p n : Nat} (h : p + n ≤ msg.length) : bytesAt msg p n = some ((msg.drop p).take n) := if_pos h

theorem Safe.map {β : Type} {r : Option (α × Scan)} (h : Safe msg sp r) (f : α × Scan → β × Scan) (hf : ∀ v sp', (f (v, sp')).2 = sp') :
    Safe msg sp (r.map f) := by
  obtain ⟨v, sp', rfl, hmoves⟩ := h
  refine ⟨(f (v, sp')).1, sp', ?_, hmoves⟩
  rw [map_some]
  congr 1
  exact Prod.ext rfl (hf v sp')

/-! ## Numbers, addresses, strings -/

theorem gnum_spec {n : Nat} {site : String} (h : sp.p ≤ msg.length) :
    ∃ v sp', gnum msg n site sp = some (v, sp') ∧ Moves msg sp sp' ∧ (sp'.err = none → sp'.p = sp.p + n) ∧
      sp'.rcode = sp.rcode ∧ sp'.stop = sp.stop := by
  unfold gnum
  by_cases herr : sp.err.isSome
  · rw [if_pos herr]
    refine ⟨0, sp, rfl, .refl h, fun hnone => ?_, rfl, rfl⟩
    rw [hnone] at herr
    exact nomatch herr
  rw [if_neg herr]
  by_cases hshort : remain msg sp.p < n
  · rw [if_pos hshort]
    exact ⟨0, _, rfl, .fail h _ _ _, fun hnone => (nomatch hnone), rfl, rfl⟩
  rw [if_neg hshort]
  unfold remain at hshort
  have hle : sp.p + n ≤ msg.length := by omega
  rw [bytesAt_some hle, map_some]
  exact ⟨_, _, rfl, ⟨Nat.le_add_right _ _, hle, id⟩, fun _ => rfl, rfl, rfl⟩

theorem gaddr_safe {n : Nat} {fmt : List UInt8 → Str} {site : String} (h : sp.p ≤ msg.length) : Safe msg sp (gaddr msg n fmt site sp) := by
  unfold gaddr
  by_cases herr : sp.err.isSome
  · rw [if_pos herr]
    exact ⟨none, sp, rfl, .refl h⟩
  rw [if_neg herr]
  by_cases hshort : remain msg sp.p < n
  · rw [if_pos hshort]
    exact ⟨none, _, rfl, .fail h _ _ _⟩
  rw [if_neg hshort]
  unfold remain at hshort
  have hle : sp.p + n ≤ msg.length := by omega
  rw [bytesAt_some hle, map_some]
  exact ⟨_, _, rfl, Nat.le_add_right _ _, hle, id⟩

theorem gbytes_safe {n : Int} (h : sp.p ≤ msg.length) : Safe msg sp (gbytes msg n sp) := by
  unfold gbytes
  by_cases herr : sp.err.isSome
  · rw [if_pos herr]
    exact ⟨none, sp, rfl, .refl h⟩
  rw [if_neg herr]
  by_cases hneg : n < 0
  · rw [if_pos hneg]
    exact ⟨none, _, rfl, le_rfl, h, fun hnone => (nomatch hnone)⟩
  rw [if_neg hneg]
  by_cases hshort : remain msg sp.p < n
  · rw [if_pos hshort]
    exact ⟨none, _, rfl, .fail h _ _ _⟩
  rw [if_neg hshort]
  unfold remain at hshort
  have hle : sp.p + n.toNat ≤ msg.length := by omega
  rw [bytesAt_some hle, map_some]
  exact ⟨_, _, rfl, Nat.le_add_right _ _, hle, id⟩

/-- The count of the string at `p`. -/
def count (msg : List UInt8) (p : Nat) : Nat := beNat ((msg.drop p).take 1)

theorem count_lt (msg : List UInt8) (p : Nat) : count msg p < 256 := by
  have hlt := beNat_lt ((msg.drop p).take 1)
  have hlen : ((msg.drop p).take 1).length ≤ 1 := by
    rw [length_take]
    exact Nat.min_le_left _ _
  exact Nat.lt_of_lt_of_le hlt (Nat.pow_le_pow_right (by decide) hlen)

/-- The string lies within the message. -/
def Whole (msg : List UInt8) (p : Nat) : Prop := p + 1 + count msg p ≤ msg.length

/-- The bytes of the string. -/
def counted (msg : List UInt8) (p : Nat) : List UInt8 := (msg.drop (p + 1)).take (count msg p)

/-- What becomes of a counted string, without an error before: it is read; or has a NUL; or runs past the message. -/
theorem gcounted_spec {site long short : String} (h : sp.p < msg.length) (herr : sp.err = none) :
    ∃ v sp', gcounted msg site long short sp = some (v, sp') ∧
      (Whole msg sp.p ∧ sp'.p = sp.p + 1 + count msg sp.p ∧ (0 ∉ counted msg sp.p ∧ v = some (counted msg sp.p) ∧ sp'.err = none ∨
          0 ∈ counted msg sp.p ∧ v.isSome ∧ sp'.err.isSome) ∨
        ¬ Whole msg sp.p ∧ sp'.p = sp.p + 1 ∧ v = none ∧ sp'.err.isSome) := by
  have hone : sp.p + 1 ≤ msg.length := h
  have hlt := count_lt msg sp.p
  unfold gcounted
  rw [if_neg (by rw [herr]; simp), if_pos h, bytesAt_some hone, map_some, bind_some]
  have hcount : beNat ((msg.drop sp.p).take 1) = count msg sp.p := rfl
  dsimp only
  rw [hcount]
  by_cases hwhole : Whole msg sp.p
  · have hle : sp.p + 1 + count msg sp.p ≤ msg.length := hwhole
    have hremain : ¬ remain msg (sp.p + 1) < (count msg sp.p : Nat) := by
      unfold remain
      omega
    rw [if_neg hremain, if_neg (by unfold strlen; omega), bytesAt_some hle, bind_some, if_neg (by unfold strlen; omega)]
    have hlen : (counted msg sp.p).length = count msg sp.p := by
      unfold counted
      rw [length_take, length_drop]
      omega
    refine ⟨_, _, rfl, .inl ⟨hwhole, ?_, ?_⟩⟩
    · split <;> rfl
    have hstr : take (count msg sp.p) (drop (sp.p + 1) msg) = counted msg sp.p := rfl
    rw [hstr]
    by_cases hnul : 0 ∈ counted msg sp.p
    · refine .inr ⟨hnul, rfl, ?_⟩
      have hne : (Bytes.cstr (counted msg sp.p)).length ≠ count msg sp.p := by
        intro heq
        have hsame : Bytes.cstr (counted msg sp.p) = counted msg sp.p :=
          ( takeWhile_prefix _).eq_of_length (heq.trans hlen.symm)
        have hnot := Bytes.nul_notMem_cstr (counted msg sp.p)
        rw [hsame] at hnot
        exact hnot hnul
      rw [if_pos hne]
      rfl
    · rw [Bytes.cstr_eq_self hnul, if_neg (not_not_intro hlen)]
      exact .inl ⟨hnul, rfl, herr⟩
  have hremain : remain msg (sp.p + 1) < (count msg sp.p : Nat) := by
    unfold remain
    unfold Whole at hwhole
    omega
  rw [if_pos hremain]
  exact ⟨none, _, rfl, .inr ⟨hwhole, rfl, rfl, rfl⟩⟩

theorem gcounted_failed {site long short : String} (herr : sp.err.isSome) : gcounted msg site long short sp = some (none, sp) := by
  unfold gcounted
  rw [if_pos herr]

theorem gcounted_safe {site long short : String} (h : sp.p ≤ msg.length) : Safe msg sp (gcounted msg site long short sp) := by
  cases herr : sp.err with
  | some e => exact ⟨none, sp, gcounted_failed (by rw [herr]; rfl), .refl h⟩
  | none =>
    by_cases hend : sp.p < msg.length
    · obtain ⟨v, sp', hr, hcases⟩ := @gcounted_spec msg sp site long short hend herr
      refine ⟨v, sp', hr, ?_⟩
      rcases hcases with ⟨hwhole, hp, -⟩ | ⟨-, hp, -⟩
      · unfold Whole at hwhole
        exact ⟨by omega, by omega, fun _ => herr⟩
      · exact ⟨by omega, by omega, fun _ => herr⟩
    have hremain : ¬ remain msg sp.p < (0 : Nat) := by
      unfold remain
      omega
    unfold gcounted
    rw [if_neg (by rw [herr]; simp), if_neg hend, bind_some]
    dsimp only
    rw [if_neg hremain, if_neg (by decide), bytesAt_some (by omega), bind_some, if_neg (by decide)]
    exact ⟨_, _, rfl, ⟨le_rfl, h, fun _ => herr⟩⟩

/-! ## The strings of a text record -/

theorem moreName_some (msg : List UInt8) (p : Nat) : ∃ more, moreName msg p = some more ∧ (more = true → p < msg.length) := by
  unfold moreName
  by_cases hp : p < msg.length
  · rw [if_pos hp, bytesAt_some (show p + 1 ≤ msg.length from hp)]
    exact ⟨_, rfl, fun _ => hp⟩
  · rw [if_neg hp]
    exact ⟨false, rfl, fun hmore => nomatch hmore⟩

theorem gnameLoop_safe {turns p len pointer : Nat} {dst : Str} (hturns : enough msg p pointer < turns) (hp : p ≤ msg.length)
    (hdst : dst.length ≤ domlen) (hpointer : pointer ≤ 11) (hdirect : pointer = 0 → sp.p + len = p)
    (hpointed : pointer ≠ 0 → sp.p + len + 2 ≤ msg.length) (hsp : sp.p ≤ msg.length) :
    Safe msg sp (gnameLoop msg sp turns p len pointer dst) := by
  induction turns generalizing p len pointer dst with
  | zero => exact absurd hturns (Nat.not_lt_zero _)
  | succ turns ih =>
    obtain ⟨more, hmore, hlt⟩ := moreName_some msg p
    rw [gnameLoop, hmore, bind_some]
    cases more with
    | false =>
      by_cases hend : p ≥ msg.length
      · rw [if_pos hend]
        exact ⟨_, _, rfl, le_rfl, hsp, by simp⟩
      rw [if_neg hend, putName_of (show dst.length + [0].length ≤ domlen + 1 from Nat.add_le_add_right hdst 1), map_some]
      refine ⟨_, _, rfl, Nat.le_add_right _ _, ?_, id⟩
      dsimp only
      split
      · omega
      · omega
    | true =>
      have hin := hlt rfl
      rw [if_pos rfl, bytesAt_some (show p + 1 ≤ msg.length from hin), bind_some]
      have hb : beNat ((msg.drop p).take 1) = count msg p := rfl
      dsimp only
      rw [hb]
      split
      · -- a label
        by_cases hlong : remain msg (p + 1) < (count msg p % 64 : Nat)
        · rw [if_pos hlong]
          exact ⟨_, _, rfl, .fail hsp _ _ _⟩
        rw [if_neg hlong]
        have hle : p + 1 + count msg p % 64 ≤ msg.length := by
          unfold remain at hlong
          omega
        by_cases hbig : len + count msg p % 64 < domlen - 1 ∧ ((count msg p % 64 : Nat) : Int) > domlen - dst.length
        · rw [if_pos hbig]
          exact ⟨_, _, rfl, .fail hsp _ _ _⟩
        rw [if_neg hbig]
        obtain ⟨dst', hdst', hroom⟩ : ∃ dst', (if len + count msg p % 64 < domlen - 1 then
            (bytesAt msg (p + 1) (count msg p % 64)).bind (putName dst) else some dst) = some dst' ∧ dst'.length ≤ domlen := by
          by_cases hcopy : len + count msg p % 64 < domlen - 1
          · have hlen : ((msg.drop (p + 1)).take (count msg p % 64)).length = count msg p % 64 := by
              rw [length_take, length_drop]
              omega
            rw [if_pos hcopy, bytesAt_some hle, bind_some, putName_of (by omega)]
            refine ⟨_, rfl, ?_⟩
            rw [length_append]
            omega
          · rw [if_neg hcopy]
            exact ⟨dst, rfl, hdst⟩
        obtain ⟨more', hmore', -⟩ := moreName_some msg (p + 1 + count msg p % 64)
        have hdec : enough msg (p + 1 + count msg p % 64) pointer < enough msg p pointer := enough_label hin
        have hnext : ∀ dst'' : Str, dst''.length ≤ domlen → Safe msg sp (gnameLoop msg sp turns (p + 1 + count msg p % 64)
            (if pointer = 0 then len + count msg p % 64 + 1 else len) pointer dst'') := by
          intro dst'' hdst''
          refine ih (by omega) hle hdst'' hpointer (fun h0 => ?_) fun h0 => ?_
          · rw [if_pos h0]
            omega
          · rw [if_neg h0]
            exact hpointed h0
        rw [hdst', bind_some, hmore', bind_some]
        cases more' with
        | false =>
          exact hnext dst' hroom
        | true =>
          by_cases hfull : dst'.length ≥ domlen
          · rw [if_pos hfull]
            exact ⟨_, _, rfl, .fail hsp _ _ _⟩
          rw [if_neg hfull, putName_of (show dst'.length + [46].length ≤ domlen + 1 from Nat.add_le_add_right hroom 1),
            bind_some]
          refine hnext _ ?_
          rw [length_append, length_singleton]
          omega
      · exact ⟨_, _, rfl, le_rfl, hsp, id⟩
      · exact ⟨_, _, rfl, le_rfl, hsp, by simp⟩
      -- a pointer
      by_cases hmax : pointer > 10
      · rw [if_pos hmax]
        exact ⟨_, _, rfl, le_rfl, hsp, by simp⟩
      rw [if_neg hmax]
      by_cases hshort : remain msg p < 2
      · rw [if_pos hshort]
        exact ⟨_, _, rfl, .fail hsp _ _ _⟩
      have hle : p + 2 ≤ msg.length := by
        unfold remain at hshort
        omega
      rw [if_neg hshort, bytesAt_some hle, bind_some]
      by_cases hbad : beNat ((msg.drop p).take 2) % 2 ^ 14 ≥ msg.length
      · rw [if_pos hbad]
        exact ⟨_, _, rfl, le_rfl, hsp, by simp⟩
      rw [if_neg hbad]
      have hdec : enough msg (beNat ((msg.drop p).take 2) % 2 ^ 14) (pointer + 1) < enough msg p pointer :=
        enough_pointer (by omega)
      refine ih (by omega) (by omega) hdst (by omega) (fun h0 => absurd h0 (Nat.succ_ne_zero _)) fun _ => ?_
      by_cases h0 : pointer = 0
      · omega
      · exact hpointed h0

theorem gname_safe (h : sp.p ≤ msg.length) : Safe msg sp (gname msg sp) := by
  unfold gname
  split
  · exact ⟨_, _, rfl, .refl h⟩
  · refine gnameLoop_safe ?_ h (Nat.zero_le _) (Nat.zero_le _) (fun _ => rfl) (fun h0 => absurd rfl h0) h
    unfold enough
    omega

/-! ## Records -/

variable {env : Env} {what : String} {rp : RR} {data len : Nat} {f : Field} {fs : List Field}

theorem gnum_safe {n : Nat} {site : String} (h : sp.p ≤ msg.length) : Safe msg sp (gnum msg n site sp) := by
  obtain ⟨v, sp', hr, hmoves, -⟩ := @gnum_spec msg sp n site h
  exact ⟨v, sp', hr, hmoves⟩

theorem scanField_safe (hf : f ≠ .txt) (h : sp.p ≤ msg.length) : Safe msg sp (scanField msg env data len f rp sp) := by
  cases f with
  | name x => exact (gname_safe h).map _ fun _ _ => rfl
  | symbol x => exact ((gcounted_safe h).map _ fun _ _ => rfl).map _ fun _ _ => rfl
  | string x => exact (gcounted_safe h).map _ fun _ _ => rfl
  | ushort x => exact (gnum_safe h).map _ fun _ _ => rfl
  | uchar x => exact (gnum_safe h).map _ fun _ _ => rfl
  | ulong x => exact (gnum_safe h).map _ fun _ _ => rfl
  | v4addr x => exact (gaddr_safe h).map _ fun _ _ => rfl
  | v6addr x => exact (gaddr_safe h).map _ fun _ _ => rfl
  | txt => exact absurd rfl hf
  | bytes => exact (gbytes_safe h).map _ fun _ _ => rfl

theorem mstypehack_p (sp : Scan) (type : Nat) : (mstypehack sp type).2.p = sp.p ∧ (mstypehack sp type).2.err = sp.err := by
  unfold mstypehack
  split
  · split <;> exact ⟨rfl, rfl⟩
  · exact ⟨rfl, rfl⟩

/-- The header of a record takes ten bytes, at least, if nothing is wrong. -/
theorem rrHeader_spec (h : sp.p ≤ msg.length) : ∃ rp len sp', rrHeader msg env what sp = some ((rp, len), sp') ∧ Moves msg sp sp' ∧
    sp'.p + len ≤ msg.length ∧ (sp'.failed = false → sp.p + 10 ≤ sp'.p) := by
  obtain ⟨_, sp1, h1, hm1⟩ := gname_safe h
  obtain ⟨type, sp2, h2, hm2, hp2, -⟩ := @gnum_spec msg sp1 2 "gshort" hm1.within
  obtain ⟨_, sp3, h3, hm3, hp3, -⟩ := @gnum_spec msg sp2 2 "gshort" hm2.within
  obtain ⟨hhackp, hhackerr⟩ := mstypehack_p sp3 type
  have hm3' : Moves msg sp3 (mstypehack sp3 type).2 := ⟨Nat.le_of_eq hhackp.symm, hhackp ▸ hm3.within, fun herr => hhackerr ▸ herr⟩
  obtain ⟨_, sp4, h4, hm4, hp4, -⟩ := @gnum_spec msg (mstypehack sp3 type).2 4 "glong" hm3'.within
  obtain ⟨len, sp5, h5, hm5, hp5, -⟩ := @gnum_spec msg sp4 2 "gshort" hm4.within
  have hmoves : Moves msg sp sp5 := (((hm1.trans hm2).trans hm3).trans hm3').trans (hm4.trans hm5)
  have hwithin := hmoves.within
  unfold rrHeader gshort glong
  rw [h1]
  simp only [bind_eq_bind, bind_some, h2, h3, h4, h5]
  have hlen : sp5.p + (if (len : Int) > remain msg sp5.p then (remain msg sp5.p).toNat else len) ≤ msg.length := by
    unfold remain
    split <;> omega
  have hadvance : sp5.err = none → sp.p + 10 ≤ sp5.p := by
    intro herr
    have h10 := hp5 herr
    have h8 := hp4 (hm5.err herr)
    have h4' := hp3 (hm3'.err (hm4.err (hm5.err herr)))
    have h2' := hp2 (hm3.err (hm3'.err (hm4.err (hm5.err herr))))
    have h0 := hm1.le
    omega
  by_cases hlong : (len : Int) > remain msg sp5.p ∧ ¬ (what = "hints" ∨ sp5.p = msg.length + 1 ∧ what = "answers")
  · rw [if_pos hlong]
    refine ⟨_, _, _, rfl, ⟨hmoves.le, hwithin, fun herr => nomatch herr⟩, hlen, fun hok => ?_⟩
    unfold Scan.failed errtoolong at hok
    simp at hok
  rw [if_neg hlong]
  refine ⟨_, _, _, rfl, hmoves, hlen, fun hok => hadvance ?_⟩
  unfold Scan.failed at hok
  simp only [Bool.or_eq_false_iff] at hok
  exact Option.not_isSome_iff_eq_none.1 (by rw [hok.1.1]; simp)

theorem Scan.failed_err (h : sp.failed = false) : sp.err = none := by
  unfold Scan.failed at h
  simp only [Bool.or_eq_false_iff] at h
  exact Option.not_isSome_iff_eq_none.1 (by rw [h.1.1]; simp)

/-- No address, and no time. -/
def noEnv : Env where
  now := 0
  pv4 _ := List.replicate 4 0
  pv6 _ := List.replicate 16 0
  fmtV _ := []
  fmtI _ := []
  newline _ := false
  pv4_length _ := rfl
  pv6_length _ := rfl

end Plan9.Ndb
