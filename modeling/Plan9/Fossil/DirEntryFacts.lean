/-
Directory entries of fossil come back from what they were packed to, and no packed entry
makes `deUnpack` read past its end.

Both go part by part through `deUnpack`: a part is safe (`Unpack.Safe`) where cursor and
count end at the same place before it and after it, and reads (`Unpack.Reads`) what the
part of `dePack` under the same words wrote.
-/
import Plan9.Fossil.DirEntry

namespace Plan9.Fossil

open Unpack List

/-! ## Nothing past the end is read -/

section Safety

variable {buf : List UInt8} {a : Nat} {e : Int} (he : e ≤ buf.length)

include he

theorem stringUnpack_safe : Safe buf (Left a e 0) stringUnpack (fun _ => Left a e 0) := by
  refine .bind .need fun _ => .bind (.u16get he (by omega)) fun nn => .bind .skip fun _ => .bind .need fun _ =>
    .bind (.bytes he) fun s => .bind .skip fun _ => .pure fun _ h => h

theorem deGens_safe (version : Nat) (dir : DirEntry) : Safe buf (Left a e 0) (deGens version dir) (fun _ => Left a e 0) := by
  refine .ite (fun _ => .pure fun _ h => h) fun _ => ?_
  exact .bind .need fun _ => .bind (.u32get he (by omega)) fun _ => .bind (.u32get he (by omega)) fun _ =>
    .bind (.u32get he (by omega)) fun _ => .bind .skip fun _ => .pure fun _ h => h

omit he in
theorem deReplacement_safe (version : Nat) : Safe buf (Left a e 0) (deReplacement version) (fun _ => Left a e 0) := by
  exact .ite (fun _ => .bind .need fun _ => .skip) fun _ => .pure fun _ h => h

theorem deTimes_safe (dir : DirEntry) : Safe buf (Left a e 0) (deTimes dir) (fun _ => Left a e 0) :=
  .bind .need fun _ => .bind (.u32get he (by omega)) fun _ => .bind (.u32get he (by omega)) fun _ =>
    .bind (.u32get he (by omega)) fun _ => .bind (.u32get he (by omega)) fun _ => .bind (.u32get he (by omega)) fun _ =>
    .bind .skip fun _ => .pure fun _ h => h

/-- A section is looked at only as far as it goes: the sections that are read have their length checked. -/
theorem deOption_safe (version : Nat) (dir : DirEntry) (t : UInt8) (nn : Nat) :
    Safe buf (Left a e nn) (deOption version dir t nn) (fun _ => Left a e nn) := by
  refine .ite (fun _ => .ite (fun _ => .pure fun _ h => h) fun _ => .ite (fun _ => .refuse) fun hlen => ?_) fun _ =>
    .ite (fun _ => .ite (fun _ => .refuse) fun hlen => ?_) fun _ => .pure fun _ h => h
  · have hnn : nn = 12 := not_not.1 (not_or.1 hlen).2
    exact .bind (.u64get he (by omega)) fun _ => .bind (.u32get he (by omega)) fun _ => .pure fun _ h => h
  · exact .bind (.u64get he (by omega)) fun _ => .bind (.u64get he (by omega)) fun _ => .pure fun _ h => h

/-- Each round takes three bytes at least, so that the rounds are enough, and the last leaves nothing. -/
theorem deOptions_safe (version : Nat) : ∀ (fuel a : Nat) (dir : DirEntry), e ≤ a + fuel →
    Safe buf (Left a e 0) (deOptions version fuel dir) (fun _ c => Left a e 0 c ∧ c.n = 0) := by
  intro fuel
  induction fuel with
  | zero =>
    intro a dir hfuel
    refine .pure fun c h => ⟨h, ?_⟩
    have hfrom := h.from_le
    have hends := h.ends
    have hleft := h.left
    omega
  | succ fuel ih =>
    intro a dir hfuel
    refine .bind .cur fun c0 => ?_
    refine .ite (fun hpos => ?_) fun hdone => .pure fun c h => ⟨h.1, ?_⟩
    · have hrest : Safe buf (Left a e 0) (do
          need 3
          let t ← byte 0
          let nn ← u16get 1
          move 3
          need nn
          let dir ← deOption version dir t nn
          move nn
          deOptions version fuel dir) (fun _ c => Left (a + 3) e 0 c ∧ c.n = 0) :=
        .bind .need fun _ => .bind (.byte he (by omega)) fun t => .bind (.u16get he (by omega)) fun nn => .bind .move fun _ =>
          .bind .need fun _ => .bind (deOption_safe he version dir t nn) fun dir => .bind .skip fun _ =>
          ih (a + 3) dir (by omega)
      exact hrest.mono (fun c h => h.1) fun _ c h => ⟨⟨by have := h.1.from_le; omega, h.1.ends, h.1.left⟩, h.2⟩
    · have hleft := h.1.left
      rw [h.2] at hleft ⊢
      omega

theorem deBody_safe {fuel : Nat} (hfuel : e ≤ a + fuel) :
    Safe buf (Left a e 0) (deBody fuel) (fun _ c => Left a e 0 c ∧ c.n = 0) := by
  refine .bind .need fun _ => .bind (.u32get he (by omega)) fun magic => .ite (fun _ => .refuse) fun _ => ?_
  refine .bind .skip fun _ => .bind .need fun _ => .bind (.u16get he (by omega)) fun version => .ite (fun _ => .refuse) fun _ => ?_
  refine .bind .skip fun _ => .bind (stringUnpack_safe he) fun elem => .bind .need fun _ => .bind (.u32get he (by omega)) fun entry =>
    .bind .skip fun _ => .bind (deGens_safe he _ _) fun dir => ?_
  refine .bind .need fun _ => .bind (.u64get he (by omega)) fun qid => .bind .skip fun _ =>
    .bind (deReplacement_safe version) fun _ => ?_
  exact .bind (stringUnpack_safe he) fun uid => .bind (stringUnpack_safe he) fun gid => .bind (stringUnpack_safe he) fun mid =>
    .bind (deTimes_safe he _) fun dir => deOptions_safe he version fuel a dir hfuel

end Safety

/-- An entry inside a buffer is refused, or is taken from its first byte to its last; nothing outside the buffer is read. -/
theorem deUnpack_safe {buf : List UInt8} {me : MetaEntry} (hme : me.p + me.size ≤ buf.length) :
    deUnpack buf me = some none ∨ ∃ dir, deUnpack buf me = some (some (dir, ⟨me.p + me.size, 0⟩)) := by
  have hsafe : Safe buf (Left me.p (me.p + me.size : Nat) 0) (deRead (me.p + me.size) me.size)
      (fun _ c => c = ⟨me.p + me.size, 0⟩) := by
    refine .bind (deBody_safe (by omega) (by omega)) fun dir => .bind .cur fun c => .ite (fun _ => .refuse) fun hend => ?_
    refine .pure fun c' h => ?_
    obtain ⟨⟨hleft, hn⟩, rfl⟩ := h
    cases c'
    rw [Cur.mk.injEq]
    exact ⟨not_not.1 hend, hn⟩
  have h := hsafe ⟨me.p, me.size⟩ ⟨le_rfl, by dsimp only; omega, by dsimp only; omega⟩
  rw [deUnpack]
  rcases hrun : deRead (me.p + me.size) me.size buf ⟨me.p, me.size⟩ with _ | _ | ⟨dir, c⟩
  · rw [hrun] at h
    exact absurd h id
  · exact .inl rfl
  · rw [hrun] at h
    cases h
    exact .inr ⟨dir, rfl⟩

/-! ## What was packed comes back -/

variable {M : Nat → Prop}

variable {s : List UInt8}

theorem stringPack_eq (h : 0 ∉ s) : stringPack s = be16 s.length ++ s := by
  rw [stringPack, strlen, Bytes.cstr_eq_self h]

theorem strlen_eq (h : 0 ∉ s) : strlen s = s.length := by
  rw [strlen, Bytes.cstr_eq_self h]

theorem stringUnpack_reads (h : 0 ∉ s) (hlen : s.length < 2 ^ 16) : Reads M stringUnpack (stringPack s) s := by
  have hcount : Peeks (u16get 0) (be16 s.length ++ s) s.length := by
    have hpeek := Peeks.u16get (x := []) (y := s) s.length rfl
    rwa [Nat.mod_eq_of_lt hlen] at hpeek
  have hbytes : Peeks (Unpack.bytes s.length) s s := by
    have hpeek := Peeks.bytes (x := s) (y := []) rfl
    rwa [append_nil] at hpeek
  rw [stringPack_eq h]
  exact .need (by rw [length_append, length_be16]; omega) (.peek hcount (.move rfl (.need le_rfl
    (.peek hbytes (.move_pure rfl s)))))

theorem deGens_reads (dir : DirEntry) (gen mentry mgen : UInt32) :
    Reads M (deGens 9 dir) (be32 gen ++ (be32 mentry ++ be32 mgen)) { dir with gen := gen, mentry := mentry, mgen := mgen } := by
  have h0 := Peeks.u32get (x := []) (y := be32 mentry ++ be32 mgen) gen rfl
  have h4 := Peeks.u32get (x := be32 gen) (y := be32 mgen) mentry rfl
  have h8 := Peeks.u32get (x := be32 gen ++ be32 mentry) (y := []) mgen rfl
  exact .need (by simp) (.peek h0 (.peek h4 (.peek h8 (.move_pure rfl _))))

theorem deTimes_reads (dir : DirEntry) (mtime mcount ctime atime mode : UInt32) :
    Reads M (deTimes dir) (be32 mtime ++ (be32 mcount ++ (be32 ctime ++ (be32 atime ++ be32 mode))))
      { dir with mtime := mtime, mcount := mcount, ctime := ctime, atime := atime, mode := mode } := by
  have h0 := Peeks.u32get (x := []) (y := be32 mcount ++ (be32 ctime ++ (be32 atime ++ be32 mode))) mtime rfl
  have h4 := Peeks.u32get (x := be32 mtime) (y := be32 ctime ++ (be32 atime ++ be32 mode)) mcount rfl
  have h8 := Peeks.u32get (x := be32 mtime ++ be32 mcount) (y := be32 atime ++ be32 mode) ctime rfl
  have h12 := Peeks.u32get (x := be32 mtime ++ (be32 mcount ++ be32 ctime)) (y := be32 mode) atime rfl
  have h16 := Peeks.u32get (x := be32 mtime ++ (be32 mcount ++ (be32 ctime ++ be32 atime))) (y := []) mode rfl
  exact .need (by simp) (.peek h0 (.peek h4 (.peek h8 (.peek h12 (.peek h16 (.move_pure rfl _))))))

theorem deOptions_none (version fuel : Nat) (dir : DirEntry) : Reads AtEnd (deOptions version fuel dir) [] dir := by
  intro pre post m hm
  rw [hm]
  cases fuel with
  | zero =>
    rw [deOptions, pure_apply]
    simp
  | succ fuel =>
    rw [deOptions, bind_apply, Unpack.cur]
    dsimp only
    rw [if_neg (by simp), pure_apply]
    simp

theorem deOptions_qidSpace (version fuel : Nat) {dir : DirEntry} (hno : dir.qidSpace = false) (offset qmax : UInt64) :
    Reads AtEnd (deOptions version (fuel + 1) dir) (([deQidSpace] ++ be16 (2 * 8)) ++ (be64 offset ++ be64 qmax))
      { dir with qidSpace := true, qidOffset := offset, qidMax := qmax } := by
  have h0 := Peeks.u64get (x := []) (y := be64 qmax) offset rfl
  have h8 := Peeks.u64get (x := be64 offset) (y := []) qmax rfl
  have hsection : Peeks (deOption version dir deQidSpace 16) ((be64 offset ++ be64 qmax) ++ [])
      { dir with qidSpace := true, qidOffset := offset, qidMax := qmax } := by
    rw [append_nil, deOption, if_neg (by decide), if_pos rfl, if_neg (by simp [hno])]
    exact .bind h0 (.bind h8 (.pure _))
  have htype : Peeks (byte 0) (([deQidSpace] ++ be16 (2 * 8)) ++ ((be64 offset ++ be64 qmax) ++ [])) deQidSpace := .byte rfl
  have hlen : Peeks (u16get 1) (([deQidSpace] ++ be16 (2 * 8)) ++ ((be64 offset ++ be64 qmax) ++ [])) 16 := by
    exact Peeks.u16get (x := [deQidSpace]) (2 * 8) rfl
  have hround : Reads AtEnd (do
      need 3
      let t ← byte 0
      let nn ← u16get 1
      move 3
      need nn
      let dir ← deOption version dir t nn
      move nn
      deOptions version fuel dir) (([deQidSpace] ++ be16 (2 * 8)) ++ ((be64 offset ++ be64 qmax) ++ []))
      { dir with qidSpace := true, qidOffset := offset, qidMax := qmax } :=
    .need (by simp) (.peek htype (.peek hlen (.move rfl (.need (by simp) (.peek hsection (.move (by simp)
      (deOptions_none version fuel _)))))))
  intro pre post m hm
  rw [deOptions, bind_apply, Unpack.cur]
  dsimp only
  rw [if_pos (by simp; omega)]
  exact hround pre post m hm

/-- What `deUnpack` gives of a packed entry: the fields that were packed, and nothing in the others. -/
def DirEntry.packed (dir : DirEntry) : DirEntry :=
  { dir with
    size := 0, plan9 := false, p9path := 0, p9version := 0,
    qidOffset := if dir.qidSpace then dir.qidOffset else 0, qidMax := if dir.qidSpace then dir.qidMax else 0 }

/-- The strings of an entry are C strings. -/
structure DirEntry.NulFree (dir : DirEntry) : Prop where
  elem : 0 ∉ dir.elem
  uid : 0 ∉ dir.uid
  gid : 0 ∉ dir.gid
  mid : 0 ∉ dir.mid

theorem deOptions_reads (dir : DirEntry) {d : DirEntry} (fuel : Nat) (hno : d.qidSpace = false) :
    Reads AtEnd (deOptions 9 (fuel + 1) d)
      (if dir.qidSpace then ([deQidSpace] ++ be16 (2 * 8)) ++ (be64 dir.qidOffset ++ be64 dir.qidMax) else [])
      (if dir.qidSpace then { d with qidSpace := true, qidOffset := dir.qidOffset, qidMax := dir.qidMax } else d) := by
  cases dir.qidSpace with
  | false => exact deOptions_none 9 _ d
  | true => exact deOptions_qidSpace 9 fuel hno dir.qidOffset dir.qidMax

theorem deReplacement_reads : Reads M (deReplacement 9) [] () := Reads.pure ()

theorem deBody_reads {dir : DirEntry} (hnul : dir.NulFree) (hsize : deSize dir < 2 ^ 16) (fuel : Nat) :
    Reads AtEnd (deBody (fuel + 1)) (dePackBytes dir) dir.packed := by
  rw [deSize, strlen_eq hnul.elem, strlen_eq hnul.uid, strlen_eq hnul.gid, strlen_eq hnul.mid] at hsize
  rw [deBody, dePackBytes]
  dsimp only
  refine .need (by simp) (.peek (Peeks.u32get (x := []) dirMagicWord rfl) (.passes (fun h => h rfl) (.move rfl ?_)))
  refine .need (by simp) (.peek (v := 9) (Peeks.u16get (x := []) 9 rfl) (.passes (by decide) (.move rfl ?_)))
  refine .bind (stringUnpack_reads hnul.elem (by omega)) ?_
  refine .need (by simp) (.peek (Peeks.u32get (x := []) dir.entry rfl) (.move rfl ?_))
  refine .bind (deGens_reads _ dir.gen dir.mentry dir.mgen) ?_
  refine .need (by simp) (.peek (Peeks.u64get (x := []) dir.qid rfl) (.move rfl ?_))
  refine Reads.bind (x := []) deReplacement_reads ?_
  refine .bind (stringUnpack_reads hnul.uid (by omega)) ?_
  refine .bind (stringUnpack_reads hnul.gid (by omega)) ?_
  refine .bind (stringUnpack_reads hnul.mid (by omega)) ?_
  refine .bind (deTimes_reads _ dir.mtime dir.mcount dir.ctime dir.atime dir.mode) ?_
  obtain ⟨d, hd⟩ : ∃ d : DirEntry, d = { DirEntry.zero with
    elem := dir.elem, entry := dir.entry, gen := dir.gen, mentry := dir.mentry, mgen := dir.mgen, qid := dir.qid,
    uid := dir.uid, gid := dir.gid, mid := dir.mid, mtime := dir.mtime, mcount := dir.mcount, ctime := dir.ctime,
    atime := dir.atime, mode := dir.mode } := ⟨_, rfl⟩
  have hpacked : (if dir.qidSpace then { d with qidSpace := true, qidOffset := dir.qidOffset, qidMax := dir.qidMax } else d) =
      dir.packed := by
    rw [hd, DirEntry.packed]
    cases hq : dir.qidSpace with
    | false => rfl
    | true => rfl
  have hopts := deOptions_reads dir (d := d) fuel (by rw [hd]; rfl)
  rw [hpacked, hd] at hopts
  exact hopts

theorem length_stringPack : (stringPack s).length = 2 + strlen s := by
  rw [stringPack, length_append, length_be16, strlen]

theorem length_dePackBytes (dir : DirEntry) : (dePackBytes dir).length = deSize dir := by
  rw [dePackBytes, deSize]
  cases dir.qidSpace with
  | false =>
    simp only [length_append, length_be16, length_be32, length_be64, length_stringPack, Bool.false_eq_true, if_false,
      length_nil]
    omega
  | true =>
    simp only [length_append, length_be16, length_be32, length_be64, length_stringPack, if_true, length_cons,
      length_nil]
    omega

/-- **Directory entries.** An entry that a `MetaEntry` has room for is packed to as many bytes as `deSize` says, and comes
back from them; and any bytes are refused or taken to the last, and no more of them. -/
theorem deUnpack_dePack :
    (∀ dir : DirEntry, dir.NulFree → deSize dir < 2 ^ 16 →
      ∃ bytes, dePack dir ⟨0, u16 (deSize dir)⟩ = some bytes ∧ bytes.length = deSize dir ∧
        deUnpack bytes ⟨0, deSize dir⟩ = some (some (dir.packed, ⟨deSize dir, 0⟩))) ∧
    ∀ bytes : List UInt8, deUnpack bytes ⟨0, bytes.length⟩ = some none ∨
      ∃ dir, deUnpack bytes ⟨0, bytes.length⟩ = some (some (dir, ⟨bytes.length, 0⟩)) := by
  refine ⟨fun dir hnul hsize => ?_, fun bytes => ?_⟩
  · have hlen := length_dePackBytes dir
    refine ⟨dePackBytes dir, ?_, hlen, ?_⟩
    · rw [dePack, if_pos (by rw [hlen, u16, Nat.mod_eq_of_lt hsize])]
    obtain ⟨fuel, hfuel⟩ : ∃ fuel, deSize dir = fuel + 1 := ⟨deSize dir - 1, by rw [deSize]; omega⟩
    have hread := deBody_reads hnul hsize fuel [] [] 0 rfl
    rw [← hfuel, nil_append, append_nil, hlen, length_nil, Nat.zero_add] at hread
    rw [deUnpack, deRead, bind_apply]
    rw [show (deSize dir : Int) = deSize dir + ((0 : Nat) : Int) by omega, hread]
    dsimp only
    rw [bind_apply, cur]
    dsimp only
    rw [if_neg (by simp), pure_apply]
    rfl
  · have hsafe := @deUnpack_safe bytes ⟨0, bytes.length⟩ (by simp)
    rwa [Nat.zero_add] at hsafe

/-- A file with an owner, a name and a space of qids. -/
theorem deUnpack_dePack_file :
    let dir : DirEntry := { DirEntry.zero with
      elem := [97, 98], uid := [103], qid := 0x180000000, qidSpace := true, qidMax := 0xffffffff80000000 }
    ∃ bytes, dePack dir ⟨0, u16 (deSize dir)⟩ = some bytes ∧ deUnpack bytes ⟨0, deSize dir⟩ = some (some (dir, ⟨deSize dir, 0⟩)) := by
  intro dir
  obtain ⟨bytes, hpack, -, hunpack⟩ := deUnpack_dePack.1 dir ⟨by decide, by decide, by decide, by decide⟩ (by decide)
  exact ⟨bytes, hpack, hunpack⟩

/-- Four strings of 20000 bytes each are more than a `MetaEntry` has room for, and the assertion fails. -/
theorem dePack_overfull :
    let s : List UInt8 := replicate 20000 97
    let dir : DirEntry := { DirEntry.zero with elem := s, uid := s, gid := s, mid := s }
    dir.NulFree ∧ s.length < 65536 ∧ deSize dir = 80058 ∧ dePack dir ⟨0, u16 (deSize dir)⟩ = none := by
  intro s dir
  have hs : 0 ∉ s := by
    intro hmem
    have := eq_of_mem_replicate hmem
    cases this
  have hlen : strlen s = 20000 := by rw [strlen_eq hs, length_replicate]
  have hsize : deSize dir = 80058 := by
    change 4 + 2 + 4 + 4 + 4 + 4 + 8 + 4 + 4 + 4 + 4 + 4 + (2 + strlen s) + (2 + strlen s) + (2 + strlen s) + (2 + strlen s) + 0 = 80058
    rw [hlen]
  refine ⟨⟨hs, hs, hs, hs⟩, by rw [length_replicate]; decide, hsize, ?_⟩
  rw [dePack, length_dePackBytes, hsize, if_neg (by decide)]

end Plan9.Fossil
