/-
What `mbUnpack` accepts, and what can be read of it.

The loop over the table comes to a bad entry, to the end of the table or to the end of the
block, whichever is first (`checkIndex_cases`). A block whose table is no longer than its
header says there is room for does not come to the last, and then every accessor stays
inside (`Well.accessors`); for any other the header promises nothing.
-/
import Plan9.Fossil.DirEntryFacts
import Plan9.Fossil.MetaUnpack

namespace Plan9.Fossil

open Option

/-! ## The table -/

variable {buf p : List UInt8} {omin size : Nat}

/-- What makes an entry of the table bad, which is at `q`. -/
def BadEntry (buf : List UInt8) (omin size q : Nat) : Prop :=
  u16At buf q < omin ∨ u16At buf q + u16At buf (q + 2) > size ∨ u16At buf (q + 2) < 8 ∨
    u32At buf (u16At buf q) ≠ dirMagicWord.toNat

instance (buf : List UInt8) (omin size q : Nat) : Decidable (BadEntry buf omin size q) :=
  inferInstanceAs (Decidable (_ ∨ _ ∨ _ ∨ _))

theorem checkIndex_round {rounds q : Nat} (hsize : size ≤ buf.length) (hq : q + 4 ≤ buf.length) :
    checkIndex buf omin size (rounds + 1) q =
      if BadEntry buf omin size q then some false else checkIndex buf omin size rounds (q + 4) := by
  rw [checkIndex, read16, if_pos (by omega), read16, if_pos (by omega)]
  simp only [bind_eq_bind, bind_some]
  by_cases hpart : u16At buf q < omin ∨ u16At buf q + u16At buf (q + 2) > size ∨ u16At buf (q + 2) < 8
  · have hbad : BadEntry buf omin size q := hpart.imp id (.imp id .inl)
    rw [if_pos hpart, if_pos hbad]
  rw [if_neg hpart, read32, if_pos (by omega), bind_some]
  by_cases hmagic : u32At buf (u16At buf q) ≠ dirMagicWord.toNat
  · rw [if_pos hmagic, if_pos (.inr (.inr (.inr hmagic)))]
  have hgood : ¬ BadEntry buf omin size q := by
    rintro (h | h | h | h)
    · exact hpart (.inl h)
    · exact hpart (.inr (.inl h))
    · exact hpart (.inr (.inr h))
    · exact hmagic h
  rw [if_neg hmagic, if_neg hgood]

/-- What the loop comes to: a bad entry of the table, or the end of the block, or the end of the table. -/
theorem checkIndex_cases (omin : Nat) (hsize : size ≤ buf.length) : ∀ rounds q : Nat,
    (checkIndex buf omin size rounds q = some true ∧
      ∀ i < rounds, q + 4 * (i + 1) ≤ buf.length ∧ ¬ BadEntry buf omin size (q + 4 * i)) ∨
    (checkIndex buf omin size rounds q = some false ∧
      ∃ i < rounds, q + 4 * (i + 1) ≤ buf.length ∧ BadEntry buf omin size (q + 4 * i)) ∨
    (checkIndex buf omin size rounds q = none ∧
      ∃ i < rounds, buf.length < q + 4 * (i + 1) ∧ ∀ j < i, ¬ BadEntry buf omin size (q + 4 * j)) := by
  intro rounds
  induction rounds with
  | zero =>
    intro q
    exact .inl ⟨rfl, fun i hi => absurd hi (Nat.not_lt_zero i)⟩
  | succ rounds ih =>
    intro q
    by_cases hq : q + 4 ≤ buf.length
    · rw [checkIndex_round hsize hq]
      by_cases hbad : BadEntry buf omin size q
      · rw [if_pos hbad]
        exact .inr (.inl ⟨rfl, 0, Nat.succ_pos _, hq, hbad⟩)
      rw [if_neg hbad]
      have hshift : ∀ i, q + 4 + 4 * i = q + 4 * (i + 1) := fun i => by omega
      rcases ih (q + 4) with ⟨hrun, hall⟩ | ⟨hrun, i, hi, hin, hb⟩ | ⟨hrun, i, hi, hout, hgood⟩
      · refine .inl ⟨hrun, fun i hi => ?_⟩
        cases i with
        | zero => exact ⟨hq, hbad⟩
        | succ i =>
          obtain ⟨hin, hg⟩ := hall i (by omega)
          rw [hshift] at hin hg
          exact ⟨hin, hg⟩
      · rw [hshift] at hin hb
        exact .inr (.inl ⟨hrun, i + 1, by omega, hin, hb⟩)
      refine .inr (.inr ⟨hrun, i + 1, by omega, by rw [← hshift]; exact hout, fun j hj => ?_⟩)
      cases j with
      | zero => exact hbad
      | succ j =>
        have hg := hgood j (by omega)
        rwa [hshift] at hg
    have hnone : checkIndex buf omin size (rounds + 1) q = none := by
      rw [checkIndex]
      by_cases h2 : q + 2 ≤ buf.length
      · rw [read16, if_pos h2, read16, if_neg (by omega)]
        rfl
      · rw [read16, if_neg h2]
        rfl
    exact .inr (.inr ⟨hnone, 0, Nat.succ_pos _, by omega, fun j hj => absurd hj (Nat.not_lt_zero j)⟩)

/-! ## A block that is well -/

/-- The table lies inside the block and below every entry, and the entries below `size`, which is inside too. -/
structure DiskMeta.Well (mb : DiskMeta) (p : List UInt8) : Prop where
  nindex_le : mb.nindex ≤ mb.maxindex
  size_le : mb.size ≤ p.length
  buf : mb.buf = p
  table : ∀ i < mb.nindex, metaHeaderSize + metaIndexSize * (i + 1) ≤ p.length
  entry : ∀ i < mb.nindex, ∃ me, mb.meUnpack i = some me ∧ (∀ j < mb.nindex, metaHeaderSize + metaIndexSize * (j + 1) ≤ me.p) ∧
    8 ≤ me.size ∧ me.p + me.size ≤ mb.size

theorem mbUnpack_header {n : Nat} (hn : p.length = n) (h12 : 12 ≤ n)
    (hmagic : ¬ (u32At p 0 ≠ metaMagic ∧ u32At p 0 ≠ metaMagic - 1)) :
    mbUnpack p =
      if u16At p 4 > n then some none
      else if n < metaHeaderSize + u16At p 8 * metaIndexSize then some none
      else (checkIndex p (metaHeaderSize + u16At p 8 * metaIndexSize) (u16At p 4) (u16At p 10) metaHeaderSize).bind fun well =>
        if well then some (some ⟨n, u16At p 4, u16At p 6, u16At p 8, u16At p 10, u32At p 0 ≠ metaMagic, p⟩) else some none := by
  rw [mbUnpack]
  rw [hn, if_neg (by omega), read32, if_pos (by omega), bind_eq_bind, bind_some, if_neg hmagic, read16, if_pos (by omega),
    bind_eq_bind, bind_some, read16, if_pos (by omega), bind_some, read16, if_pos (by omega), bind_some,
    read16, if_pos (by omega), bind_some]

theorem meCmpWith_some {shorter longer : Int} {me : MetaEntry} (hsize : 8 ≤ me.size) (hend : me.p + me.size ≤ buf.length)
    (s : List UInt8) : ∃ x, meCmpWith shorter longer buf me s = some x := by
  have hloop : ∀ (n q : Nat) (s : List UInt8), q + n ≤ buf.length → ∃ x, meCmpLoop shorter longer buf n q s = some x := by
    intro n
    induction n with
    | zero =>
      intro q s _
      exact ⟨_, by rw [meCmpLoop]⟩
    | succ n ih =>
      intro q s hq
      cases s with
      | nil => exact ⟨_, by rw [meCmpLoop]⟩
      | cons c s =>
        rw [meCmpLoop, read8, if_pos (by omega), bind_eq_bind, bind_some]
        split
        · exact ⟨_, rfl⟩
        · split
          · exact ⟨_, rfl⟩
          · exact ih (q + 1) s (by omega)
  rw [meCmpWith, read16, if_pos (by omega), bind_eq_bind, bind_some]
  apply hloop
  split
  · omega
  · omega

namespace DiskMeta

variable {mb : DiskMeta}

theorem Well.mbSearchLoop (h : mb.Well p) (elem : List UInt8) : ∀ fuel b t : Nat, b ≤ t → t ≤ mb.nindex → t < b + fuel →
    ∃ r, mb.mbSearchLoop elem fuel b t = some r := by
  intro fuel
  induction fuel with
  | zero =>
    intro b t _ _ _
    omega
  | succ fuel ih =>
    intro b t hbt htn hfuel
    rw [DiskMeta.mbSearchLoop]
    by_cases hlt : b < t
    · rw [if_pos hlt]
      obtain ⟨me, hme, -, h8, hend⟩ := h.entry ((b + t) / 2) (by omega)
      have hin : me.p + me.size ≤ mb.buf.length := by
        rw [h.buf]
        exact Nat.le_trans hend h.size_le
      obtain ⟨x, hx⟩ : ∃ x, (if mb.botch then meCmpOld mb.buf me elem else meCmp mb.buf me elem) = some x := by
        split
        · exact meCmpWith_some h8 hin elem
        · exact meCmpWith_some h8 hin elem
      dsimp only
      rw [hme, bind_eq_bind, bind_some, hx, bind_eq_bind, bind_some]
      split
      · exact ⟨_, rfl⟩
      · split
        · exact ih _ _ (by omega) htn (by omega)
        · exact ih _ _ (by omega) (by omega) (by omega)
    · rw [if_neg hlt, if_pos (by omega)]
      exact ⟨_, rfl⟩

theorem Well.accessors (h : mb.Well p) : (∀ elem, ∃ r, mb.mbSearch elem = some r) ∧
    ∀ i < mb.nindex, ∃ me, mb.meUnpack i = some me ∧ ∃ r, deUnpack p me = some r := by
  refine ⟨fun elem => h.mbSearchLoop elem _ _ _ (Nat.zero_le _) le_rfl (by omega), fun i hi => ?_⟩
  obtain ⟨me, hme, -, -, hend⟩ := h.entry i hi
  refine ⟨me, hme, ?_⟩
  rcases deUnpack_safe (Nat.le_trans hend h.size_le) with hrun | ⟨dir, hrun⟩
  · exact ⟨_, hrun⟩
  · exact ⟨_, hrun⟩

end DiskMeta

/-! ## Unpacking -/

/-- Nothing outside the bytes is read, and a block that is not refused is well and read inside by its accessors. -/
def MbSound (p : List UInt8) : Prop :=
  ∃ r, mbUnpack p = some r ∧ ∀ mb, r = some mb → mb.Well p ∧ (∀ elem, ∃ r, mb.mbSearch elem = some r) ∧
    ∀ i < mb.nindex, ∃ me, mb.meUnpack i = some me ∧ ∃ r, deUnpack p me = some r

/-- The header is inside the bytes where it is looked at, and its table is no longer than it says there is room for, unless
the block is refused before that tells. -/
def MbFit (p : List UInt8) : Prop :=
  let n := p.length
  let omin := metaHeaderSize + u16At p 8 * metaIndexSize
  n = 0 ∨ (4 ≤ n ∧ u32At p 0 ≠ metaMagic ∧ u32At p 0 ≠ metaMagic - 1) ∨
  (12 ≤ n ∧ (u16At p 4 > n ∨ n < omin ∨ u16At p 10 ≤ u16At p 8 ∨
    ∃ i < u16At p 10, metaHeaderSize + 4 * (i + 1) ≤ n ∧ BadEntry p omin (u16At p 4) (metaHeaderSize + 4 * i)))

theorem well_of_checked {n : Nat} (hn : p.length = n) (hsize : u16At p 4 ≤ n) (hle : u16At p 10 ≤ u16At p 8)
    (hall : ∀ i < u16At p 10, metaHeaderSize + 4 * (i + 1) ≤ p.length ∧
      ¬ BadEntry p (metaHeaderSize + u16At p 8 * metaIndexSize) (u16At p 4) (metaHeaderSize + 4 * i)) :
    DiskMeta.Well ⟨n, u16At p 4, u16At p 6, u16At p 8, u16At p 10, u32At p 0 ≠ metaMagic, p⟩ p := by
  refine ⟨hle, hn ▸ hsize, rfl, fun i hi => (hall i hi).1, fun i hi => ?_⟩
  obtain ⟨hin, hgood⟩ := hall i hi
  have hat : metaHeaderSize + i * metaIndexSize = metaHeaderSize + 4 * i := by
    rw [Nat.mul_comm]
    rfl
  rw [BadEntry, not_or, not_or, not_or] at hgood
  obtain ⟨hge, hend, h8, -⟩ := hgood
  refine ⟨⟨u16At p (metaHeaderSize + 4 * i), u16At p (metaHeaderSize + 4 * i + 2)⟩, ?_, fun j hj => ?_, Nat.not_lt.1 h8,
    Nat.not_lt.1 hend⟩
  · rw [DiskMeta.meUnpack, if_pos hi]
    dsimp only
    rw [hat, read16, if_pos (by omega), bind_eq_bind, bind_some, read16, if_pos (by omega), bind_some,
      if_pos (Nat.not_lt.1 h8)]
  have hj' : j + 1 ≤ u16At p 8 := Nat.le_trans hj hle
  have hmul := Nat.mul_le_mul_left metaIndexSize hj'
  rw [Nat.mul_comm metaIndexSize (u16At p 8)] at hmul
  exact Nat.le_trans (Nat.add_le_add_left hmul _) (Nat.not_lt.1 hge)

theorem mbUnpack_short {n : Nat} (hn : p.length = n) (h0 : n ≠ 0) (h12 : n < 12)
    (hmagic : 4 ≤ n → ¬ (u32At p 0 ≠ metaMagic ∧ u32At p 0 ≠ metaMagic - 1)) : mbUnpack p = none := by
  have hread : ∀ q, n < q + 2 → read16 p q = none := by
    intro q hq
    rw [read16, if_neg (by omega)]
  rw [mbUnpack]
  rw [hn, if_neg h0, read32]
  by_cases h4 : 4 ≤ n
  · rw [if_pos (by omega), bind_eq_bind, bind_some, if_neg (hmagic h4), hread 10 (by omega)]
    -- whichever of the others is there, the last is not
    cases read16 p 4 with
    | none => rfl
    | some size =>
      cases read16 p 6 with
      | none => rfl
      | some free =>
        cases read16 p 8 with
        | none => rfl
        | some maxindex => rfl
  · rw [if_neg (by omega)]
    rfl

theorem mbUnpack_table {n : Nat} (hn : p.length = n) (hsize : u16At p 4 ≤ n)
    (hroom : metaHeaderSize + u16At p 8 * metaIndexSize ≤ n)
    (hrun : mbUnpack p =
      (checkIndex p (metaHeaderSize + u16At p 8 * metaIndexSize) (u16At p 4) (u16At p 10) metaHeaderSize).bind fun well =>
        if well then some (some ⟨n, u16At p 4, u16At p 6, u16At p 8, u16At p 10, u32At p 0 ≠ metaMagic, p⟩) else some none) :
    MbSound p ↔ u16At p 10 ≤ u16At p 8 ∨ ∃ i < u16At p 10, metaHeaderSize + 4 * (i + 1) ≤ n ∧
      BadEntry p (metaHeaderSize + u16At p 8 * metaIndexSize) (u16At p 4) (metaHeaderSize + 4 * i) := by
  obtain ⟨omin, homin⟩ : ∃ omin, metaHeaderSize + u16At p 8 * metaIndexSize = omin := ⟨_, rfl⟩
  rw [homin] at hrun hroom ⊢
  rcases checkIndex_cases omin (hn ▸ hsize : u16At p 4 ≤ p.length) (u16At p 10) metaHeaderSize with
    ⟨hcheck, hall⟩ | ⟨hcheck, i, hi, hin, hbad⟩ | ⟨hcheck, i, hi, hout, hgood⟩
  · -- all of the table is well
    rw [hcheck, bind_some, if_pos rfl] at hrun
    constructor
    · rintro ⟨r, hr, hmb⟩
      rw [hrun] at hr
      cases hr
      exact .inl (hmb _ rfl).1.nindex_le
    rintro (hle | ⟨i, hi, -, hbad⟩)
    · refine ⟨_, hrun, fun mb hmb => ?_⟩
      cases hmb
      have hwell := well_of_checked hn hsize hle (by rw [homin]; exact hall)
      exact ⟨hwell, hwell.accessors⟩
    · exact absurd hbad (hall i hi).2
  · rw [hcheck, bind_some, if_neg (by decide)] at hrun
    exact ⟨fun _ => .inr ⟨i, hi, hn ▸ hin, hbad⟩, fun _ => ⟨none, hrun, fun mb hmb => by cases hmb⟩⟩
  -- the table goes on behind the block
  rw [hcheck, Option.bind_none] at hrun
  constructor
  · rintro ⟨r, hr, -⟩
    rw [hrun] at hr
    cases hr
  rintro (hle | ⟨j, hj, hin, hbad⟩)
  · have hmul : (i + 1) * metaIndexSize ≤ u16At p 8 * metaIndexSize := Nat.mul_le_mul_right _ (Nat.le_trans hi hle)
    have h4 : (i + 1) * metaIndexSize = 4 * (i + 1) := Nat.mul_comm _ _
    omega
  have hji : j < i := by
    by_contra hge
    omega
  exact absurd hbad (hgood j hji)

/-- **Metadata blocks.** `mbUnpack` reads inside the bytes, and what it accepts is well and read inside by its accessors,
exactly for the bytes that are fit. -/
theorem mbUnpack_sound (p : List UInt8) : MbSound p ↔ MbFit p := by
  obtain ⟨n, hn⟩ : ∃ n, p.length = n := ⟨_, rfl⟩
  unfold MbFit
  rw [hn]
  by_cases h0 : n = 0
  · refine ⟨fun _ => .inl h0, fun _ => ⟨_, by rw [mbUnpack]; dsimp only; rw [if_pos (by omega)], fun mb hmb => ?_⟩⟩
    cases hmb
    have hp : p = [] := List.length_eq_zero_iff.1 (by omega)
    have hno : ∀ i, ¬ i < 0 := Nat.not_lt_zero
    have hwell : DiskMeta.Well ⟨0, 0, 0, 0, 0, false, []⟩ p :=
      ⟨Nat.le_refl 0, Nat.zero_le _, hp.symm, fun i hi => absurd hi (hno i), fun i hi => absurd hi (hno i)⟩
    exact ⟨hwell, hwell.accessors⟩
  by_cases hmagic : 4 ≤ n ∧ u32At p 0 ≠ metaMagic ∧ u32At p 0 ≠ metaMagic - 1
  · refine ⟨fun _ => .inr (.inl hmagic), fun _ => ⟨none, ?_, fun mb hmb => by cases hmb⟩⟩
    rw [mbUnpack]
    rw [hn, if_neg h0, read32, if_pos (by omega), Option.bind_eq_bind, Option.bind_some, if_pos hmagic.2]
  by_cases h12 : 12 ≤ n
  · have hrun := mbUnpack_header hn h12 (fun h => hmagic ⟨by omega, h⟩)
    by_cases hsize : u16At p 4 > n
    · rw [if_pos hsize] at hrun
      exact ⟨fun _ => .inr (.inr ⟨h12, .inl hsize⟩), fun _ => ⟨none, hrun, fun mb hmb => by cases hmb⟩⟩
    rw [if_neg hsize] at hrun
    by_cases hroom : n < metaHeaderSize + u16At p 8 * metaIndexSize
    · rw [if_pos hroom] at hrun
      exact ⟨fun _ => .inr (.inr ⟨h12, .inr (.inl hroom)⟩), fun _ => ⟨none, hrun, fun mb hmb => by cases hmb⟩⟩
    rw [if_neg hroom] at hrun
    rw [mbUnpack_table hn (Nat.not_lt.1 hsize) (Nat.not_lt.1 hroom) hrun]
    constructor
    · exact fun h => .inr (.inr ⟨h12, .inr (.inr h)⟩)
    rintro (h | h | ⟨-, h | h | h⟩)
    · exact absurd h h0
    · exact absurd h hmagic
    · exact absurd h hsize
    · exact absurd h hroom
    · exact h
  -- the header is looked at past its end
  have hrun := mbUnpack_short hn h0 (by omega) (fun h4 h => hmagic ⟨h4, h⟩)
  constructor
  · rintro ⟨r, hr, -⟩
    rw [hrun] at hr
    cases hr
  rintro (h | h | h)
  · exact absurd h h0
  · exact absurd h hmagic
  · exact absurd h.1 h12

/-- A block whose header counts one entry in a table that has room for none is accepted; and of a block of four bytes the
header is read past them. -/
theorem mbUnpack_overrun :
    let p : List UInt8 := [0x56, 0x56, 0xfc, 0x7a, 0, 28, 0, 0, 0, 0, 0, 1, 0, 20, 0, 8, 0, 0, 0, 0, 0x1c, 0x4d, 0x90, 0x72, 0, 9, 0, 0]
    (∃ mb, mbUnpack p = some (some mb) ∧ mb.maxindex < mb.nindex) ∧ mbUnpack [0x56, 0x56, 0xfc, 0x7a] = none ∧ ¬ MbSound p := by
  intro p
  have hrun : ∃ mb, mbUnpack p = some (some mb) ∧ mb.maxindex < mb.nindex :=
    ⟨⟨28, 28, 0, 0, 1, false, p⟩, by decide +kernel, by decide⟩
  refine ⟨hrun, by decide +kernel, ?_⟩
  rintro ⟨r, hr, hsound⟩
  obtain ⟨mb, hmb, hlt⟩ := hrun
  rw [hmb] at hr
  cases hr
  exact absurd (hsound mb rfl).1.nindex_le (Nat.not_le.2 hlt)

end Plan9.Fossil
