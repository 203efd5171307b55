/-
What `gname` makes of any name.

Each label is measured twice: by the bytes of the name before it, up to the first pointer,
and by the room that is left. One that does not fit by the first measure is passed over
without an error. A pointer straight to the end of a name leaves the dot before it, and a
NUL ends the text early.
-/
import Plan9.Ndb.ScanFacts

namespace Plan9.Ndb

open List Option

/-- The labels at `p`, through pointers, each with the bytes of the name before it. The bytes of the name at `p` end
at `e`, and it dangles if a pointer leads straight to its end. -/
inductive Wire (msg : List UInt8) : Nat → Nat → Bool → List (Nat × Str) → Nat → Bool → Prop
  | root {p len : Nat} {direct : Bool} : p < msg.length → count msg p = 0 → Wire msg p len direct [] (p + 1) false
  | label {p len e : Nat} {direct dangling : Bool} {xs : List (Nat × Str)} : p < msg.length → count msg p ≠ 0 →
      count msg p < 64 → Whole msg p →
      Wire msg (p + 1 + count msg p) (if direct then len + count msg p + 1 else len) direct xs e dangling →
      Wire msg p len direct ((len, counted msg p) :: xs) e dangling
  | pointer {p len e : Nat} {direct dangling : Bool} {xs : List (Nat × Str)} : p + 2 ≤ msg.length → 192 ≤ count msg p →
      Wire msg (beNat ((msg.drop p).take 2) % 2 ^ 14) len false xs e dangling →
      Wire msg p len direct xs (p + 2) (dangling || xs.isEmpty)

def Placed (x : Nat × Str) : Prop := x.1 + x.2.length < domlen - 1

instance (x : Nat × Str) : Decidable (Placed x) := inferInstanceAs (Decidable (_ < _))

/-- What is copied of a label. -/
def kept (x : Nat × Str) : Str := if Placed x then x.2 else []

variable {msg : List UInt8} {sp sp' : Scan} {p len e turns pointer : Nat} {direct dangling : Bool} {xs : List (Nat × Str)}
  {dst s : Str}

theorem Wire.more (h : Wire msg p len direct xs e dangling) :
    p < msg.length ∧ p < e ∧ (count msg p ≠ 0 ↔ xs ≠ [] ∨ dangling = true) := by
  induction h with
  | root hp h0 => exact ⟨hp, Nat.lt_succ_self _, by simp [h0]⟩
  | label hp hne _ _ _ ih => exact ⟨hp, by omega, by simp [hne]⟩
  | @pointer _ _ _ _ _ xs hp hbig _ _ =>
    refine ⟨by omega, by omega, iff_of_true (by omega) ?_⟩
    cases xs <;> simp

theorem moreName_eq (msg : List UInt8) (p : Nat) : moreName msg p = some (decide (p < msg.length ∧ count msg p ≠ 0)) := by
  unfold moreName
  by_cases hp : p < msg.length
  · rw [if_pos hp, bytesAt_some (show p + 1 ≤ msg.length from hp), map_some]
    simp [hp, count]
  · simp [hp]

theorem putName_eq {bs dst' : Str} (h : putName dst bs = some dst') : dst' = dst ++ bs := by
  unfold putName at h
  split at h
  · exact (some.inj h).symm
  · cases h

/-- What is read, where it is. -/
structure NameRead (msg : List UInt8) (sp : Scan) (p len pointer : Nat) (dst s : Str) (sp' : Scan) (xs : List (Nat × Str)) (e : Nat)
    (dangling : Bool) : Prop where
  wire : Wire msg p len (decide (pointer = 0)) xs e dangling
  next : sp'.p = sp.p + if pointer = 0 then len + (e - p) else len + 2
  text : s = Bytes.cstr (dst ++ text (xs.map kept) ++ if dangling ∧ xs ≠ [] then [dot] else [])

theorem gnameLoop_named (h : gnameLoop msg sp turns p len pointer dst = some (s, sp')) :
    sp'.err.isSome ∨ sp'.stop = true ∨ ∃ xs e dangling, NameRead msg sp p len pointer dst s sp' xs e dangling := by
  induction turns generalizing p len pointer dst with
  | zero => cases h
  | succ turns ih =>
    have hfault : ∀ {sp1 : Scan}, some (([] : Str), sp1) = some (s, sp') → sp1.err.isSome → sp'.err.isSome ∨ sp'.stop = true ∨
        ∃ xs e dangling, NameRead msg sp p len pointer dst s sp' xs e dangling := fun heq herr =>
      .inl ((Prod.mk.inj (some.inj heq)).2 ▸ herr)
    rw [gnameLoop, moreName_eq, bind_some] at h
    split at h
    · rename_i hmore
      obtain ⟨hp, hne⟩ := of_decide_eq_true hmore
      rw [bytesAt_some (show p + 1 ≤ msg.length from hp), bind_some] at h
      dsimp only at h
      rw [show beNat ((msg.drop p).take 1) = count msg p from rfl] at h
      split at h
      · -- a label
        have hsmall : count msg p < 64 := by omega
        rw [Nat.mod_eq_of_lt hsmall] at h
        split at h
        · exact hfault h rfl
        rename_i hremain
        have hwhole : Whole msg p := by
          unfold remain at hremain
          unfold Whole
          omega
        split at h
        · exact hfault h rfl
        obtain ⟨dst1, hdst1, h⟩ := bind_eq_some_iff.1 h
        have hkept : dst1 = dst ++ kept (len, counted msg p) := by
          have hlen : (counted msg p).length = count msg p := by
            unfold Whole at hwhole
            rw [counted, length_take, length_drop]
            omega
          have hfits : Placed (len, counted msg p) ↔ len + count msg p < domlen - 1 := by rw [Placed, hlen]
          unfold kept
          simp only [hfits]
          split at hdst1
          · rename_i hshort
            rw [bytesAt_some hwhole, bind_some] at hdst1
            rw [if_pos hshort]
            exact putName_eq hdst1
          · rename_i hlong
            rw [if_neg hlong, append_nil]
            exact (some.inj hdst1).symm
        rw [moreName_eq, bind_some] at h
        -- With a dot or without, the loop goes on behind the label.
        have hgo : ∀ {dst2 : Str}, gnameLoop msg sp turns (p + 1 + count msg p) (if pointer = 0 then len + count msg p + 1 else len)
            pointer dst2 = some (s, sp') → dst2 = dst1 ++ (if p + 1 + count msg p < msg.length ∧ count msg (p + 1 + count msg p) ≠ 0
              then [dot] else []) →
            sp'.err.isSome ∨ sp'.stop = true ∨ ∃ xs e dangling, NameRead msg sp p len pointer dst s sp' xs e dangling := by
          intro dst2 hrest hdst2
          refine (ih hrest).imp_right (.imp_right ?_)
          rintro ⟨xs, e, dangling, hwire, hnext, htext⟩
          obtain ⟨hin, hlt, hiff⟩ := hwire.more
          refine ⟨_, e, dangling, .label hp hne hsmall hwhole (by simpa using hwire), ?_, ?_⟩
          · rw [hnext]
            split <;> omega
          · rw [htext, hdst2, hkept]
            simp only [hin, true_and, hiff]
            cases xs <;> cases dangling <;> simp [Ndb.text]
        split at h
        · rename_i hmore'
          split at h
          · exact hfault h rfl
          obtain ⟨dst2, hdst2, h⟩ := bind_eq_some_iff.1 h
          refine hgo h ?_
          rw [if_pos (of_decide_eq_true hmore')]
          exact putName_eq hdst2
        · rename_i hend
          refine hgo h ?_
          rw [if_neg (by simpa using hend), append_nil]
      · cases h
        exact .inr (.inl rfl)
      · exact hfault h rfl
      -- a pointer
      rename_i h0 h1 h2
      have hbig : 192 ≤ count msg p := by
        have h0 : count msg p / 64 ≠ 0 := h0
        have h1 : count msg p / 64 ≠ 1 := h1
        have h2 : count msg p / 64 ≠ 2 := h2
        omega
      split at h
      · exact hfault h rfl
      split at h
      · exact hfault h rfl
      rename_i hremain
      have htwo : p + 2 ≤ msg.length := by
        unfold remain at hremain
        omega
      rw [bytesAt_some htwo, bind_some] at h
      split at h
      · exact hfault h rfl
      refine (ih h).imp_right (.imp_right ?_)
      rintro ⟨xs, e, dangling, hwire, hnext, htext⟩
      refine ⟨xs, p + 2, _, .pointer htwo hbig (by simpa using hwire), ?_, ?_⟩
      · rw [hnext, if_neg (Nat.succ_ne_zero _)]
        split <;> omega
      · rw [htext]
        cases xs <;> simp
    rename_i hmore
    split at h
    · exact hfault h rfl
    obtain ⟨-, -, hpair⟩ := map_eq_some_iff.1 h
    cases hpair
    have h0 : count msg p = 0 := by simpa [show p < msg.length by omega] using hmore
    refine .inr (.inr ⟨[], p + 1, false, .root (by omega) h0, ?_, by simp [Ndb.text]⟩)
    dsimp only
    split <;> omega

/-! ## When the labels are all there -/

theorem Wire.ne_nil (h : Wire msg p len direct xs e dangling) : ∀ x ∈ xs, x.2 ≠ [] := by
  induction h with
  | root => exact fun x hx => nomatch hx
  | label _ hne _ hwhole _ ih =>
    refine forall_mem_cons.2 ⟨fun hnil => ?_, ih⟩
    have hlen := congrArg length hnil
    unfold Whole at hwhole
    rw [counted, length_take, length_drop, length_nil] at hlen
    omega
  | pointer _ _ _ ih => exact ih

theorem text_kept (hxs : ∀ x ∈ xs, x.2 ≠ []) : text (xs.map kept) = text (xs.map Prod.snd) ↔ ∀ x ∈ xs, Placed x := by
  refine ⟨fun heq => ?_, fun h => congrArg text (map_congr_left fun x hx => if_pos (h x hx))⟩
  suffices hle : (text (xs.map kept)).length ≤ (text (xs.map Prod.snd)).length ∧
      ((text (xs.map kept)).length = (text (xs.map Prod.snd)).length → ∀ x ∈ xs, Placed x) from hle.2 (congrArg length heq)
  clear heq
  induction xs with
  | nil => exact ⟨le_rfl, fun _ x hx => nomatch hx⟩
  | cons x xs ih =>
    obtain ⟨hx, hxs⟩ := forall_mem_cons.1 hxs
    obtain ⟨hle, hfit⟩ := ih hxs
    have hpos := length_pos_iff.2 hx
    rw [map_cons, map_cons, length_text_cons, length_text_cons, forall_mem_cons]
    simp only [map_eq_nil_iff]
    by_cases hfits : Placed x
    · rw [kept, if_pos hfits]
      refine ⟨by split <;> omega, fun hsame => ⟨hfits, hfit ?_⟩⟩
      split at hsame
      · rename_i hnil
        rw [hnil, map_nil, map_nil]
      · omega
    · rw [kept, if_neg hfits, length_nil]
      refine ⟨by split <;> omega, fun hsame => ?_⟩
      split at hsame <;> omega

theorem gname_some (msg : List UInt8) (sp : Scan) : ∃ s sp', gname msg sp = some (s, sp') := by
  by_cases hp : sp.p ≤ msg.length
  · obtain ⟨s, sp', h, -⟩ := gname_safe hp
    exact ⟨s, sp', h⟩
  unfold gname
  split
  · exact ⟨_, _, rfl⟩
  · rw [show 12 * (msg.length + 2) = 12 * msg.length + 23 + 1 by omega, gnameLoop, moreName_eq, bind_some, if_neg (by simp; omega),
      if_pos (by omega)]
    exact ⟨_, _, rfl⟩

/-- A name is read to its end, or there is an error. It is the labels with dots between them if and only if no label has a
NUL and each fits, where the name does not dangle; else what is kept, with its dot, must come to the same. -/
theorem gname_exact_iff (msg : List UInt8) (sp : Scan) :
    ∃ s sp', gname msg sp = some (s, sp') ∧ (sp'.err.isSome ∨ sp'.stop = true ∨
      ∃ xs e dangling, Wire msg sp.p 0 true xs e dangling ∧ sp'.p = e ∧ (s = text (xs.map Prod.snd) ↔ (∀ x ∈ xs, 0 ∉ x.2) ∧
        if dangling ∧ xs ≠ [] then text (xs.map kept) ++ [dot] = text (xs.map Prod.snd) else ∀ x ∈ xs, Placed x)) := by
  obtain ⟨s, sp', h⟩ := gname_some msg sp
  refine ⟨s, sp', h, ?_⟩
  unfold gname at h
  split at h
  · rename_i hfailed
    cases h
    exact hfailed.imp_right .inl
  refine (gnameLoop_named h).imp_right (.imp_right ?_)
  rintro ⟨xs, e, dangling, hwire, hnext, htext⟩
  refine ⟨xs, e, dangling, by simpa using hwire, ?_, ?_⟩
  · have := hwire.more.2.1
    rw [hnext, if_pos rfl]
    omega
  have hcond : (if dangling = true ∧ xs ≠ [] then text (xs.map kept) ++ [dot] = text (xs.map Prod.snd) else ∀ x ∈ xs, Placed x) ↔
      text (xs.map kept) ++ (if dangling = true ∧ xs ≠ [] then [dot] else []) = text (xs.map Prod.snd) := by
    split
    · rfl
    · rw [append_nil, text_kept hwire.ne_nil]
  have hnul : (∀ x ∈ xs, 0 ∉ x.2) ↔ 0 ∉ text (xs.map Prod.snd) := by
    rw [nul_mem_text]
    simp only [List.mem_map, not_exists, not_and, forall_exists_index, and_imp, forall_apply_eq_imp_iff₂]
  rw [hcond, hnul, htext, nil_append]
  refine ⟨fun heq => ?_, fun ⟨hnot, heq⟩ => by rw [heq, Bytes.cstr_eq_self hnot]⟩
  have hnot : 0 ∉ text (xs.map Prod.snd) := heq ▸ Bytes.nul_notMem_cstr _
  -- A NUL that is kept is in a label.
  have hkept : 0 ∉ text (xs.map kept) ++ (if dangling = true ∧ xs ≠ [] then [dot] else []) := by
    have hdot : (0 : UInt8) ≠ dot := by decide
    rw [mem_append, not_or]
    refine ⟨fun hmem => ?_, by split <;> simp [hdot]⟩
    obtain ⟨l, hl, h0⟩ := nul_mem_text.1 hmem
    obtain ⟨x, hx, rfl⟩ := mem_map.1 hl
    unfold kept at h0
    split at h0
    · exact hnul.2 hnot x hx h0
    · cases h0
  rw [Bytes.cstr_eq_self hkept] at heq
  exact ⟨hnot, heq⟩

/-- Without an error: the labels with dots between them, and the scan behind the name. -/
def Exact (msg : List UInt8) (sp : Scan) : Prop :=
  ∀ s sp', gname msg sp = some (s, sp') → sp'.err = none → sp'.stop = false →
    ∀ xs e dangling, Wire msg sp.p 0 true xs e dangling → s = text (xs.map Prod.snd) ∧ sp'.p = e

/-- Four labels of 63 bytes. -/
def fourLabels : List UInt8 := (replicate 4 (63 :: replicate 63 97)).flatten ++ [0]

theorem Wire.of_byte {ls : List (Nat × Str)} (hbyte : (msg.drop p).take 1 = [63]) (hlen : p + 64 ≤ msg.length)
    (h : Wire msg (p + 64) (len + 64) true ls e dangling) : Wire msg p len true ((len, (msg.drop (p + 1)).take 63) :: ls) e dangling := by
  have hcount : count msg p = 63 := by
    rw [count, hbyte]
    rfl
  have hlabel := @Wire.label msg p len e true dangling ls (by omega) (by omega) (by omega) (by unfold Whole; omega)
    (by rw [hcount, if_pos rfl]; exact h)
  rwa [counted, hcount] at hlabel

set_option maxRecDepth 4096 in
/-- The last of the labels is not there. -/
theorem gname_fourLabels : ¬ Exact fourLabels ⟨0, none, rok, false, false⟩ := by
  intro h
  have hname : gname fourLabels ⟨0, none, rok, false, false⟩ =
      some (text (replicate 3 (replicate 63 97)) ++ [dot], ⟨257, none, rok, false, false⟩) := by decide +kernel
  have hwire : Wire fourLabels 0 0 true _ 257 false := .of_byte (by decide) (by decide) <| .of_byte (by decide) (by decide) <|
    .of_byte (by decide) (by decide) <| .of_byte (by decide) (by decide) <| .root (by decide) (by decide)
  have htext := congrArg length (h _ _ hname rfl rfl _ _ _ hwire).1
  revert htext
  decide +kernel

end Plan9.Ndb
