/-
The address space of a venti index (`venti/srv/index.c`, `venti/srv/arenas.c`):
a map of ranges, one for each arena. `amapitoa` finds the arena an address of
the index is in, and the address in that arena.

The search is for the last arena that starts at or below the address, and what
it finds is only compared with the end of that arena. An address below the first
start is in no arena, but is taken for one of the first; and the end of an arena
that nothing follows at once is taken for one of its addresses.
-/
import Mathlib.Data.List.Basic
import Plan9.Lib.Bisect
import Plan9.Venti.Index

namespace Plan9.Venti

open List

/-- Stored in a `u64int`. -/
def u64int (x : Int) : Nat := (x % 2 ^ 64).toNat

/-- What `amapitoa` reads of an `Index`; an arena that is not mapped is nil. -/
structure ArenaMap (α : Type) where
  amap : List AMap
  arenas : List (Option α)
  narenas : arenas.length = amap.length

variable {α : Type}

/-- The loop of `okamap`. -/
def okamapLoop (what : String) : Nat → Nat → List AMap → Except String Nat
  | _, last, [] => .ok last
  | i, last, am :: rest =>
    if am.start < last then
      .error (if i = 0 then "invalid start address in " ++ what else "overlapping ranges in " ++ what)
    else if am.stop < am.start then .error ("invalid range in " ++ what)
    else okamapLoop what (i + 1) am.stop rest

def okamap (am : List AMap) (start stop : Nat) (what : String) : Except String Unit :=
  match okamapLoop what 0 start am with
  | .error e => .error e
  | .ok last => if last > stop then .error ("invalid ending address in " ++ what) else .ok ()

/-- `ix->amap[m].start <= a` -/
def ArenaMap.startsBy (ix : ArenaMap α) (a : Nat) (m : Int) : Bool :=
  decide ((ix.amap[m.toNat]?.map AMap.start).getD 0 ≤ a)

/-- The arena and `*aa`, or the error; `none` where `amap[l]` is not an entry of the map. -/
def amapitoa (ix : ArenaMap α) (a : Nat) : Option (Except String (α × Nat)) :=
  let l := (Bisect.last (ix.startsBy a) 1 (ix.amap.length - 1)).toNat
  match ix.amap[l]?, ix.arenas[l]? with
  | some am, some arena =>
    if a > am.stop then some (.error "unmapped address passed to amapitoa")
    else
      match arena with
      | none => some (.error "unmapped arena selected in amapitoa")
      | some arena => some (.ok (arena, u64int ((a : Int) - am.start)))
  | _, _ => none

/-! ## Maps in order -/

/-- The ranges come one after the other and do not meet. -/
structure Increasing (am : List AMap) : Prop where
  range : ∀ x ∈ am, x.start ≤ x.stop
  apart : am.Pairwise fun x y => x.stop ≤ y.start

theorem okamapLoop_increasing {what : String} : ∀ {am : List AMap} {i low last : Nat},
    okamapLoop what i low am = .ok last → Increasing am ∧ ∀ x ∈ am, low ≤ x.start := by
  intro am
  induction am with
  | nil =>
    intro i low last _
    exact ⟨⟨by simp, .nil⟩, by simp⟩
  | cons x am ih =>
    intro i low last h
    simp only [okamapLoop] at h
    split at h
    · cases h
    split at h
    · cases h
    obtain ⟨⟨hranges, hapart⟩, hall⟩ := ih h
    refine ⟨⟨?_, .cons hall hapart⟩, ?_⟩
    · intro y hy
      rcases mem_cons.1 hy with rfl | hy
      · omega
      · exact hranges y hy
    intro y hy
    rcases mem_cons.1 hy with rfl | hy
    · omega
    · have := hall y hy
      omega

theorem okamap_increasing {am : List AMap} {start stop : Nat} {what : String} (h : okamap am start stop what = .ok ()) :
    Increasing am := by
  unfold okamap at h
  split at h
  · cases h
  · rename_i hloop
    exact (okamapLoop_increasing hloop).1

namespace Increasing

variable {am : List AMap}

theorem stop_le (h : Increasing am) {i j : Nat} (hi : i < am.length) (hj : j < am.length) (hij : i < j) :
    am[i].stop ≤ am[j].start :=
  pairwise_iff_getElem.1 h.apart i j hi hj hij

theorem start_mono (h : Increasing am) {i j : Nat} (hi : i < am.length) (hj : j < am.length) (hij : i ≤ j) :
    am[i].start ≤ am[j].start := by
  by_cases heq : i = j
  · subst heq
    exact le_rfl
  · have hstop := h.stop_le hi hj (by omega)
    have hrange := h.range am[i] (getElem_mem hi)
    omega

end Increasing

/-! ## What the search finds -/

/-- The last arena that starts by `a`, or the first where none does. -/
structure Candidate (am : List AMap) (a i : Nat) : Prop where
  bound : i < am.length
  low : ∀ j (hj : j < am.length), 0 < j → j ≤ i → am[j].start ≤ a
  high : ∀ j (hj : j < am.length), i < j → a < am[j].start

theorem startsBy_iff {ix : ArenaMap α} {a j : Nat} (hj : j < ix.amap.length) :
    ix.startsBy a j = true ↔ ix.amap[j].start ≤ a := by
  unfold ArenaMap.startsBy
  rw [Int.toNat_natCast, getElem?_eq_getElem hj]
  exact decide_eq_true_iff

theorem last_candidate {ix : ArenaMap α} (h : Increasing ix.amap) (hne : ix.amap ≠ []) (a : Nat) :
    ∃ i : Nat, Bisect.last (ix.startsBy a) 1 (ix.amap.length - 1) = i ∧ Candidate ix.amap a i := by
  have hpos : 0 < ix.amap.length := length_pos_iff.2 hne
  have hrange := Bisect.last_range (p := ix.startsBy a) (l := 1) (r := ix.amap.length - 1) (by omega)
  obtain ⟨hlow, hhigh⟩ := Bisect.last_spec (p := ix.startsBy a) (l := 1) (r := ix.amap.length - 1) (by
    intro i j hi hij hj hp
    obtain ⟨i, rfl⟩ := Int.eq_ofNat_of_zero_le (show 0 ≤ i by omega)
    obtain ⟨j, rfl⟩ := Int.eq_ofNat_of_zero_le (show 0 ≤ j by omega)
    have hlt : j < ix.amap.length := by omega
    rw [startsBy_iff (show i < ix.amap.length by omega)]
    rw [startsBy_iff hlt] at hp
    have := h.start_mono (i := i) (by omega) hlt (by omega)
    omega)
  obtain ⟨i, hi⟩ := Int.eq_ofNat_of_zero_le (show 0 ≤ Bisect.last (ix.startsBy a) 1 (ix.amap.length - 1) by omega)
  refine ⟨i, hi, by omega, fun j hj h0 hji => ?_, fun j hj hij => ?_⟩
  · exact (startsBy_iff hj).1 (hlow j (by omega) (by omega))
  have hf := hhigh j (by omega) (by omega)
  by_contra hle
  rw [(startsBy_iff hj).2 (by omega)] at hf
  cases hf

theorem amapitoa_candidate {ix : ArenaMap α} (h : Increasing ix.amap) (hne : ix.amap ≠ []) (a : Nat) :
    ∃ i, Candidate ix.amap a i ∧ ∃ am arena, ix.amap[i]? = some am ∧ ix.arenas[i]? = some arena ∧ amapitoa ix a =
      if a > am.stop then some (.error "unmapped address passed to amapitoa")
      else
        match arena with
        | none => some (.error "unmapped arena selected in amapitoa")
        | some arena => some (.ok (arena, u64int ((a : Int) - am.start))) := by
  obtain ⟨i, hi, hc⟩ := last_candidate h hne a
  have hb := hc.bound
  have hb' : i < ix.arenas.length := by
    rw [ix.narenas]
    exact hb
  have ham := getElem?_eq_getElem hb
  have harena := getElem?_eq_getElem hb'
  refine ⟨i, hc, _, _, ham, harena, ?_⟩
  unfold amapitoa
  simp only [hi, Int.toNat_natCast, ham, harena]

/-! ## The arena of an address -/

/-- What `r` is to be: the arena whose range `a` is in and the place of `a` in it, else nil. -/
structure Maps (ix : ArenaMap α) (a : Nat) (r : Except String (α × Nat)) : Prop where
  inside : ∀ (i : Nat) (am : AMap) (arena : α), ix.amap[i]? = some am → ix.arenas[i]? = some (some arena) → am.start ≤ a → a < am.stop →
    r = .ok (arena, a - am.start)
  unmapped : ∀ (i : Nat) (am : AMap), ix.amap[i]? = some am → ix.arenas[i]? = some none → am.start ≤ a → a < am.stop →
    ∃ e, r = .error e
  outside : (∀ am ∈ ix.amap, ¬ (am.start ≤ a ∧ a < am.stop)) → ∃ e, r = .error e

/-- Below the first arena, or right at the end of one that the next does not start at. -/
def Stray (ix : ArenaMap α) (a : Nat) : Prop :=
  ∃ (i : Nat) (am : AMap) (arena : α), ix.amap[i]? = some am ∧ ix.arenas[i]? = some (some arena) ∧
    (i = 0 ∧ a < am.start ∨ a = am.stop ∧ ∀ next : AMap, ix.amap[i + 1]? = some next → a < next.start)

section

variable {ix : ArenaMap α} {a i j : Nat} {am : AMap}

theorem Candidate.unique (hc : Candidate ix.amap a i) (h : Increasing ix.amap) (ham : ix.amap[j]? = some am)
    (hlow : am.start ≤ a) (hhigh : a < am.stop) : j = i := by
  obtain ⟨hj, rfl⟩ := List.getElem?_eq_some_iff.1 ham
  rcases Nat.lt_trichotomy j i with hlt | heq | hgt
  · have hstop := h.stop_le hj hc.bound hlt
    have hstart := hc.low i hc.bound (by omega) (by omega)
    omega
  · exact heq
  · have := hc.high j hj hgt
    omega

theorem Candidate.stray (hc : Candidate ix.amap a i) (h : Increasing ix.amap) (ham : ix.amap[j]? = some am)
    (hs : j = 0 ∧ a < am.start ∨ a = am.stop ∧ ∀ next : AMap, ix.amap[j + 1]? = some next → a < next.start) : j = i := by
  obtain ⟨hj, rfl⟩ := List.getElem?_eq_some_iff.1 ham
  rcases Nat.lt_trichotomy j i with hlt | heq | hgt
  · have hi := hc.bound
    have hstart := hc.low i hi (by omega) (by omega)
    have hmono := h.start_mono hj hi (by omega)
    rcases hs with ⟨_, hs⟩ | ⟨_, hs⟩
    · omega
    · have hnext := hs _ (List.getElem?_eq_getElem (show j + 1 < ix.amap.length by omega))
      have := h.start_mono (i := j + 1) (by omega) hi (by omega)
      omega
  · exact heq
  · have hstart := hc.high j hj hgt
    have hrange := h.range ix.amap[j] (List.getElem_mem hj)
    omega

end

/-- `amapitoa` finds the arena of every address but those. -/
theorem amapitoa_maps (ix : ArenaMap α) (h : Increasing ix.amap) (a : Nat) (ha : a < 2 ^ 64) :
    (∃ r, amapitoa ix a = some r ∧ Maps ix a r) ↔ ix.amap ≠ [] ∧ ¬ Stray ix a := by
  by_cases hne : ix.amap = []
  · have hnone : amapitoa ix a = none := by
      unfold amapitoa
      rw [hne]
      rfl
    simp [hne, hnone]
  obtain ⟨i, hc, am, arena, ham, harena, hrun⟩ := amapitoa_candidate h hne a
  have hi := hc.bound
  obtain ⟨_, heq⟩ := List.getElem?_eq_some_iff.1 ham
  constructor
  · rintro ⟨r, hr, hm⟩
    refine ⟨hne, ?_⟩
    rintro ⟨j, am', arena', ham', harena', hs⟩
    obtain rfl := hc.stray h ham' hs
    obtain rfl : am = am' := Option.some.inj (ham.symm.trans ham')
    obtain rfl : arena = some arena' := Option.some.inj (harena.symm.trans harena')
    -- the arena found does not hold the address, so no arena does
    have hout : ∀ am ∈ ix.amap, ¬ (am.start ≤ a ∧ a < am.stop) := by
      rintro x hx ⟨hlow, hhigh⟩
      obtain ⟨k, hk⟩ := List.mem_iff_getElem?.1 hx
      obtain rfl := hc.unique h hk hlow hhigh
      obtain rfl : am = x := Option.some.inj (ham.symm.trans hk)
      omega
    obtain ⟨e, he⟩ := hm.outside hout
    have hrange := h.range am (List.mem_of_getElem? ham)
    rw [hrun, if_neg (by omega)] at hr
    cases hr
    cases he
  rintro ⟨_, hs⟩
  by_cases hstop : a > am.stop
  · rw [if_pos hstop] at hrun
    refine ⟨_, hrun, fun j am' arena' hj _ hlow hhigh => ?_, fun _ _ _ _ _ _ => ⟨_, rfl⟩, fun _ => ⟨_, rfl⟩⟩
    obtain rfl := hc.unique h hj hlow hhigh
    obtain rfl : am = am' := Option.some.inj (ham.symm.trans hj)
    omega
  rw [if_neg hstop] at hrun
  cases arena with
  | none =>
    refine ⟨_, hrun, fun j am' arena' hj hja hlow hhigh => ?_, fun _ _ _ _ _ _ => ⟨_, rfl⟩, fun _ => ⟨_, rfl⟩⟩
    obtain rfl := hc.unique h hj hlow hhigh
    cases harena.symm.trans hja
  | some arena =>
    -- it is in the range of the arena, or it strays
    have hlow : am.start ≤ a := by
      by_contra hlt
      by_cases h0 : i = 0
      · subst h0
        exact hs ⟨0, am, arena, ham, harena, .inl ⟨rfl, by omega⟩⟩
      · have := hc.low i hi (by omega) (by omega)
        rw [heq] at this
        omega
    have hhigh : a < am.stop := by
      by_contra hge
      refine hs ⟨i, am, arena, ham, harena, .inr ⟨by omega, fun next hnext => ?_⟩⟩
      obtain ⟨hb, rfl⟩ := List.getElem?_eq_some_iff.1 hnext
      exact hc.high (i + 1) hb (by omega)
    refine ⟨_, hrun, fun j am' arena' hj hja hlow' hhigh' => ?_, fun j am' hj hja hlow' hhigh' => ?_, fun hout => ?_⟩
    · obtain rfl := hc.unique h hj hlow' hhigh'
      obtain rfl : am = am' := Option.some.inj (ham.symm.trans hj)
      obtain rfl : arena = arena' := Option.some.inj (Option.some.inj (harena.symm.trans hja))
      rw [show u64int ((a : Int) - am.start) = a - am.start by unfold u64int; omega]
    · obtain rfl := hc.unique h hj hlow' hhigh'
      cases harena.symm.trans hja
    · exact absurd ⟨hlow, hhigh⟩ (hout am (List.mem_of_getElem? ham))

/-- Two arenas, with room between them. -/
def arenas0 : ArenaMap Nat where
  amap := [⟨"arenas0".toList, 100, 200⟩, ⟨"arenas1".toList, 300, 400⟩]
  arenas := [some 0, some 1]
  narenas := rfl

theorem arenas0_increasing : Increasing arenas0.amap :=
  okamap_increasing (show okamap _ 100 400 "index" = .ok () from rfl)

/-- The end of an arena is in none, but is taken for an address of the arena. -/
theorem amapitoa_stop : ¬ ∃ r, amapitoa arenas0 200 = some r ∧ Maps arenas0 200 r := by
  rintro ⟨r, hr, hm⟩
  have hrun : amapitoa arenas0 200 = some (.ok (0, 100)) := by
    simp [amapitoa, Bisect.last, ArenaMap.startsBy, arenas0, u64int]
  obtain ⟨e, he⟩ := hm.outside (by simp [arenas0])
  rw [hrun] at hr
  cases hr
  cases he

theorem amapitoa_maps_gap : ∃ r, amapitoa arenas0 250 = some r ∧ Maps arenas0 250 r := by
  refine (amapitoa_maps arenas0 arenas0_increasing 250 (by decide)).2 ⟨by simp [arenas0], ?_⟩
  rintro ⟨i, am, arena, ham, _, hs⟩
  match i with
  | 0 =>
    cases ham
    simp at hs
  | 1 =>
    cases ham
    simp at hs
  | i + 2 => cases ham

end Plan9.Venti
