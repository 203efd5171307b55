/-
The groups of an arena begin where the sizes in its directory say.

`Dir` is what there is to know of the directory: the infos, packed at their places. From it a load
gives the offsets of `groupOffsets` or fails, whichever blocks can be had, for a group that
is read short is the last or ends the load. A clump more adds an offset just when
it begins a group, so the offsets kept by `writeaclump` are those a load gives.
-/
import Plan9.Venti.ArenaFacts
import Plan9.Venti.Cig

namespace Plan9.Venti.Cig

open Memory List

/-! ## Where clumps begin -/

def starts (infos : List ClumpInfo) (i : Nat) : Nat := ((infos.take i).map fun ci => clumpSize + ci.size).sum

def groupCount (clumps : Nat) : Nat := (clumps + arenaCIGSize - 1) / arenaCIGSize

/-- What the groups begin with. -/
def groupOffsets (infos : List ClumpInfo) : List Nat :=
  (List.range (groupCount infos.length)).map fun g => starts infos (g * arenaCIGSize)

variable {g gs : Groups} {i addr : Nat}

section

variable {infos : List ClumpInfo}

theorem starts_add (infos : List ClumpInfo) (i k : Nat) :
    starts infos (i + k) = starts infos i + (((infos.drop i).take k).map fun ci => clumpSize + ci.size).sum := by
  unfold starts
  rw [take_add, map_append, sum_append]

theorem starts_succ {ci : ClumpInfo} (h : infos[i]? = some ci) :
    starts infos (i + 1) = starts infos i + (clumpSize + ci.size) := by
  rw [starts_add, take_one, head?_drop, h]
  rfl

theorem starts_mono {j : Nat} (h : i ≤ j) : starts infos i ≤ starts infos j := by
  obtain ⟨k, rfl⟩ := Nat.exists_eq_add_of_le h
  rw [starts_add]
  omega

theorem starts_append_left {more : List ClumpInfo} (h : i ≤ infos.length) :
    starts (infos ++ more) i = starts infos i := by
  unfold starts
  rw [take_append_of_le_length h]

theorem groupCount_lt {g n : Nat} : g < groupCount n ↔ g * arenaCIGSize < n := by
  unfold groupCount arenaCIGSize
  omega

theorem groupCount_succ (n : Nat) :
    groupCount (n + 1) = if n % arenaCIGSize = 0 then groupCount n + 1 else groupCount n := by
  unfold groupCount arenaCIGSize
  split <;> omega

theorem groupCount_of_mod {n : Nat} (h : n % arenaCIGSize = 0) : n / arenaCIGSize = groupCount n := by
  unfold groupCount arenaCIGSize at *
  omega

theorem getD_groupOffsets {g : Nat} (h : g < groupCount infos.length) :
    (groupOffsets infos).getD g 0 = starts infos (g * arenaCIGSize) := by
  rw [getD_eq_getElem?_getD, groupOffsets, getElem?_map, getElem?_range h]
  rfl

theorem groupOffsets_concat (ci : ClumpInfo) : groupOffsets (infos ++ [ci]) =
    if infos.length % arenaCIGSize = 0 then groupOffsets infos ++ [starts infos infos.length] else groupOffsets infos := by
  have hsame : ∀ n, n ≤ groupCount infos.length →
      ((range n).map fun g => starts (infos ++ [ci]) (g * arenaCIGSize)) =
        (range n).map fun g => starts infos (g * arenaCIGSize) := fun n hn => by
    apply map_congr_left
    intro g hg
    have := groupCount_lt.1 (Nat.lt_of_lt_of_le (mem_range.1 hg) hn)
    exact starts_append_left (Nat.le_of_lt this)
  unfold groupOffsets
  rw [length_append, length_singleton, groupCount_succ]
  by_cases h : infos.length % arenaCIGSize = 0
  · have hmul : groupCount infos.length * arenaCIGSize = infos.length := by
      rw [← groupCount_of_mod h]
      exact Nat.div_mul_cancel (Nat.dvd_of_mod_eq_zero h)
    rw [if_pos h, if_pos h, range_succ, map_append, hsame _ le_rfl, map_singleton, hmul,
      starts_append_left le_rfl]
  · rw [if_neg h, if_neg h, hsame _ le_rfl]

end

/-! ## The directory -/

/-- The infos are in the directory. -/
structure Dir (ar : Arena) (s : ArenaState) (infos : List ClumpInfo) : Prop where
  clumps : s.memstats.clumps = infos.length
  small : ar.dirBytes s.memstats.clumps < 2 ^ 32
  infos : ∀ i ci, infos[i]? = some ci → load s.part (ar.infoAddr i) clumpInfoSize = packclumpinfo ci

/-- The block of clump `i`'s info can be had. -/
def readable (ar : Arena) (io : Io) (i : Nat) : Bool := io.ok (ar.base + ar.size - (i / ar.clumpmax + 1) * ar.blocksize)

section

variable {ar : Arena} {io : Io} {s : ArenaState} {infos : List ClumpInfo}

theorem readclumpinfo_dir (hok : ar.Ok) (h : Dir ar s infos) (i : Nat) :
    ar.readclumpinfo io s i = if readable ar io i then infos[i]?.map ClumpInfo.disk else none := by
  unfold Arena.readclumpinfo
  by_cases hi : i < s.memstats.clumps
  · have hsmall : ar.dirBytes i < 2 ^ 32 := Nat.lt_of_le_of_lt (ar.dirBytes_mono (Nat.le_of_lt hi)) h.small
    have hi' : i < infos.length := by rw [← h.clumps]; exact hi
    have hget : infos[i]? = some infos[i] := getElem?_eq_getElem hi'
    have hunpack : unpackclumpinfo s.part (ar.base + ar.size - (i / ar.clumpmax + 1) * ar.blocksize +
        i % ar.clumpmax * clumpInfoSize) = infos[i].disk := unpackclumpinfo_eq (h.infos i _ hget)
    rw [Arena.getcib_eq hok hi hsmall, hget]
    dsimp only
    rw [hunpack]
    rfl
  · have hnone : infos[i]? = none := getElem?_eq_none (by rw [← h.clumps]; omega)
    rw [hnone, Arena.getcib, if_pos (by omega), Option.map_none, ite_self]

theorem readLoop_spec (clump : Nat) : ∀ (i : Nat) (cis : List ClumpInfo),
    ∃ m ≤ i, ∃ l : List ClumpInfo, l.map some = (List.range m).map (fun j => ar.readclumpinfo io s (clump + j)) ∧
      ((m < i ∧ ar.readclumpinfo io s (clump + m) = none ∧ readLoop ar io s clump i cis = l) ∨
        m = i ∧ readLoop ar io s clump i cis = l ++ cis)
  | 0, cis => ⟨0, Nat.le_refl 0, [], rfl, .inr ⟨rfl, rfl⟩⟩
  | i + 1, cis => by
    rw [readLoop]
    cases hread : ar.readclumpinfo io s (clump + i) with
    | none =>
      obtain ⟨m, hm, l, hl, ⟨hlt, hnone, heq⟩ | ⟨rfl, heq⟩⟩ := readLoop_spec clump i []
      · exact ⟨m, by omega, l, hl, .inl ⟨by omega, hnone, heq⟩⟩
      · exact ⟨m, by omega, l, hl, .inl ⟨by omega, hread, by rw [append_nil] at heq; exact heq⟩⟩
    | some ci =>
      obtain ⟨m, hm, l, hl, ⟨hlt, hnone, heq⟩ | ⟨rfl, heq⟩⟩ := readLoop_spec clump i (ci :: cis)
      · exact ⟨m, by omega, l, hl, .inl ⟨by omega, hnone, heq⟩⟩
      refine ⟨m + 1, le_rfl, l ++ [ci], ?_, .inr ⟨rfl, ?_⟩⟩
      · rw [map_append, hl, range_succ, map_append, map_singleton, map_singleton, hread]
      · dsimp only
        rw [heq, append_assoc]
        rfl

/-- The infos that are read are those of the directory, up to one that cannot be had or its end. -/
theorem readclumpinfos_spec (hok : ar.Ok) (h : Dir ar s infos) (clump n : Nat) :
    ∃ m ≤ n, readclumpinfos ar io s clump n = ((infos.drop clump).take m).map ClumpInfo.disk ∧
      (readclumpinfos ar io s clump n).length = m ∧
      (m < n → readable ar io (clump + m) = false ∨ infos.length ≤ clump + m) := by
  obtain ⟨m, hm, l, hl, hcase⟩ := @readLoop_spec ar io s clump n []
  have hlen : l.length = m := by
    have := congrArg length hl
    rwa [length_map, length_map, length_range] at this
  have hread : readclumpinfos ar io s clump n = l := by
    rcases hcase with ⟨_, _, heq⟩ | ⟨_, heq⟩
    · exact heq
    · rw [append_nil] at heq
      exact heq
  refine ⟨m, hm, ?_, by rw [hread, hlen], fun hlt => ?_⟩
  · rw [hread]
    apply ext_getElem?
    intro j
    rcases Nat.lt_or_ge j m with hj | hj
    · have hget : (l.map some)[j]? = ((range m).map fun j => ar.readclumpinfo io s (clump + j))[j]? :=
        congrArg (·[j]?) hl
      rw [getElem?_map, getElem?_map, getElem?_range hj, Option.map_some,
        readclumpinfo_dir hok h] at hget
      have hj' : l[j]? = some l[j] := getElem?_eq_getElem (by omega)
      rw [hj', Option.map_some] at hget
      rw [hj', getElem?_map, getElem?_take_of_lt hj, getElem?_drop]
      cases hr : readable ar io (clump + j) with
      | false =>
        rw [hr] at hget
        cases hget
      | true =>
        rw [hr, if_pos rfl] at hget
        exact Option.some.inj hget
    · rw [getElem?_eq_none (by omega), getElem?_eq_none (by rw [length_map, length_take]; omega)]
  rcases hcase with ⟨_, hnone, _⟩ | ⟨rfl, _⟩
  · rw [readclumpinfo_dir hok h] at hnone
    cases hr : readable ar io (clump + m) with
    | false => exact .inl rfl
    | true =>
      rw [hr, if_pos rfl, Option.map_eq_none_iff] at hnone
      exact .inr (getElem?_eq_none_iff.1 hnone)
  · exact absurd hlt (Nat.lt_irrefl _)

/-! ## Loading -/

/-- Whatever can be had: the groups begin where they do, or nothing is loaded. -/
theorem cigLoop_spec (hok : ar.Ok) (h : Dir ar s infos) : ∀ k i,
    cigLoop ar io s k i (starts infos (i * arenaCIGSize)) = none ∨
      cigLoop ar io s k i (starts infos (i * arenaCIGSize)) =
        some ((List.range' i k).map fun g => starts infos (g * arenaCIGSize))
  | 0, i => .inr rfl
  | k + 1, i => by
    obtain ⟨m, _, hread, hlen, -⟩ := @readclumpinfos_spec ar io s infos hok h (i * arenaCIGSize) arenaCIGSize
    rw [cigLoop, hlen]
    by_cases hk : k = 0
    · subst hk
      rw [if_neg fun h => h.2 rfl]
      exact .inr rfl
    by_cases hshort : m < arenaCIGSize
    · rw [if_pos ⟨hshort, hk⟩]
      exact .inl rfl
    -- the whole group was read, so its sizes lead to the next
    obtain rfl : m = arenaCIGSize := by omega
    have hnext : starts infos (i * arenaCIGSize) +
        ((readclumpinfos ar io s (i * arenaCIGSize) arenaCIGSize).map fun c => clumpSize + c.size).sum =
          starts infos ((i + 1) * arenaCIGSize) := by
      rw [Nat.add_mul, Nat.one_mul, starts_add, hread, map_map]
      rfl
    rw [if_neg fun h => hshort h.1, hnext]
    rcases cigLoop_spec hok h k (i + 1) with hnone | hsome
    · rw [hnone]
      exact .inl rfl
    · rw [hsome]
      exact .inr rfl

/-- What the groups are: loaded, or not yet, or not to be. -/
def Loaded (infos : List ClumpInfo) (g : Groups) : Prop :=
  g.cig = none ∧ (g.ncig = 0 ∨ g.ncig = -1) ∨ g.cig = some (groupOffsets infos) ∧ g.ncig = groupCount infos.length

/-- After a load. -/
def Ready (infos : List ClumpInfo) (g : Groups) : Prop :=
  g.cig = none ∧ g.ncig = -1 ∨ g.cig = some (groupOffsets infos) ∧ g.ncig = groupCount infos.length

theorem Ready.loaded (h : Ready infos g) : Loaded infos g := h.imp (fun ⟨hcig, hncig⟩ => ⟨hcig, .inr hncig⟩) id

theorem loadcig_ready (hok : ar.Ok) (h : Dir ar s infos) (hg : Loaded infos g) :
    Ready infos (loadcig ar io s g) := by
  unfold loadcig
  by_cases hskip : g.cig.isSome ∨ g.ncig < 0
  · rw [if_pos hskip]
    rcases hg with ⟨hcig, _⟩ | hsome
    · rw [hcig] at hskip
      exact .inl ⟨hcig, by have := hskip.resolve_left (by decide); omega⟩
    · exact .inr hsome
  rw [if_neg hskip]
  rw [show (s.memstats.clumps + arenaCIGSize - 1) / arenaCIGSize = groupCount infos.length by rw [h.clumps]; rfl]
  by_cases hzero : groupCount infos.length = 0
  · refine .inr ⟨?_, by rw [hzero]; rfl⟩
    rw [groupOffsets, hzero]
    rfl
  have hspec := @cigLoop_spec ar io s infos hok h (groupCount infos.length) 0
  rw [Nat.zero_mul, show starts infos 0 = 0 from rfl] at hspec
  rw [if_neg hzero]
  rcases hspec with hnone | hsome
  · have hcig : g.cig = none := by
      cases hc : g.cig with
      | none => rfl
      | some cig => exact absurd (.inl (by rw [hc]; rfl)) hskip
    rw [hnone]
    exact .inl ⟨hcig, rfl⟩
  · rw [hsome]
    refine .inr ⟨?_, rfl⟩
    rw [groupOffsets, range_eq_range']

theorem ready_of_loaded (hok : ar.Ok) (h : Dir ar s infos) (hg : Loaded infos g) :
    Ready infos (if g.cig.isNone then loadcig ar io s g else g) := by
  split
  · exact loadcig_ready hok h hg
  rename_i hcig
  rcases hg with ⟨hnone, _⟩ | hsome
  · rw [hnone] at hcig
    exact absurd rfl hcig
  · exact .inr hsome

theorem cigLoop_ok (hok : ar.Ok) (h : Dir ar s infos) (hio : ∀ a, io.ok a = true) : ∀ k i offset,
    i + k = groupCount infos.length → cigLoop ar io s k i offset ≠ none
  | 0, i, offset, _ => nofun
  | k + 1, i, offset, hik => by
    obtain ⟨m, _, _, hlen, hend⟩ := @readclumpinfos_spec ar io s infos hok h (i * arenaCIGSize) arenaCIGSize
    have hfull : ¬(m < arenaCIGSize ∧ k ≠ 0) := by
      rintro ⟨hlt, _⟩
      have hnext := groupCount_lt.1 (show i + 1 < groupCount infos.length by omega)
      rw [Nat.add_mul, Nat.one_mul] at hnext
      rcases hend hlt with hno | hpast
      · rw [readable, hio] at hno
        cases hno
      · omega
    rw [cigLoop, hlen, if_neg hfull]
    intro hnone
    exact cigLoop_ok hok h hio k (i + 1) _ (by omega) (Option.map_eq_none_iff.1 hnone)

theorem loadcig_ok (hok : ar.Ok) (h : Dir ar s infos) (hio : ∀ a, io.ok a = true) (hg : Loaded infos g)
    (hn : g.ncig ≠ -1) : loadcig ar io s g = ⟨some (groupOffsets infos), groupCount infos.length⟩ := by
  rcases hg with ⟨hcig, hncig⟩ | ⟨hcig, hncig⟩
  · have hspec := @cigLoop_spec ar io s infos hok h (groupCount infos.length) 0
    rw [Nat.zero_mul, show starts infos 0 = 0 from rfl] at hspec
    have hsome := hspec.resolve_left (cigLoop_ok hok h hio _ 0 0 (Nat.zero_add _))
    have hzero := hncig.resolve_right hn
    unfold loadcig
    rw [hcig, hzero, if_neg (by decide)]
    dsimp only
    rw [show (s.memstats.clumps + arenaCIGSize - 1) / arenaCIGSize = groupCount infos.length by rw [h.clumps]; rfl, hsome,
      groupOffsets, range_eq_range']
    split
    · rename_i hnone
      rw [hnone]
      rfl
    · rfl
  cases g
  cases hcig
  cases hncig
  rfl

theorem ensured_ncig (hok : ar.Ok) (h : Dir ar s infos) (hio : ∀ a, io.ok a = true) (hg : Loaded infos g)
    (hn : g.ncig ≠ -1) : (if g.cig.isNone then loadcig ar io s g else g).ncig ≠ -1 := by
  split
  · rw [loadcig_ok hok h hio hg hn]
    dsimp only
    omega
  · exact hn

/-- A clump that begins a group begins the next one, if the groups are loaded or can be. -/
theorem addcig_loaded (hok : ar.Ok) (h : Dir ar s infos) (hg : Loaded infos g) (ci : ClumpInfo) :
    Loaded (infos ++ [ci]) (addcig ar io s g infos.length (starts infos infos.length)) := by
  unfold addcig
  by_cases hmod : infos.length % arenaCIGSize = 0
  · rw [if_pos hmod]
    dsimp only
    have hg' := @ready_of_loaded g ar io s infos hok h hg
    generalize (if g.cig.isNone then loadcig ar io s g else g) = g' at hg' ⊢
    rcases hg' with ⟨hcig, hncig⟩ | ⟨hcig, hncig⟩
    · rw [hcig]
      exact .inl ⟨hcig, .inr hncig⟩
    rw [hcig]
    dsimp only
    rw [groupCount_of_mod hmod, hncig, if_neg (by simp)]
    refine .inr ⟨?_, ?_⟩
    · rw [groupOffsets_concat, if_pos hmod]
    · rw [length_append, length_singleton, groupCount_succ, if_pos hmod]
      rfl
  rw [if_neg hmod]
  rcases hg with ⟨hcig, hncig⟩ | ⟨hcig, hncig⟩
  · exact .inl ⟨hcig, hncig⟩
  refine .inr ⟨?_, ?_⟩
  · rw [groupOffsets_concat, if_neg hmod]
    exact hcig
  · rw [length_append, length_singleton, groupCount_succ, if_neg hmod]
    exact hncig

theorem addcig_ncig (hok : ar.Ok) (h : Dir ar s infos) (hio : ∀ a, io.ok a = true) (hg : Loaded infos g)
    (hn : g.ncig ≠ -1) (aa : Nat) : (addcig ar io s g infos.length aa).ncig ≠ -1 := by
  unfold addcig
  by_cases hmod : infos.length % arenaCIGSize = 0
  · have hready := @ready_of_loaded g ar io s infos hok h hg
    have hne := ensured_ncig hok h hio hg hn
    rw [if_pos hmod]
    dsimp only
    generalize (if g.cig.isNone then loadcig ar io s g else g) = g' at hready hne ⊢
    rcases hready with ⟨_, hncig⟩ | ⟨hcig, hncig⟩
    · exact absurd hncig hne
    rw [hcig]
    dsimp only
    rw [groupCount_of_mod hmod, hncig, if_neg (by simp)]
    dsimp only
    omega
  · rw [if_neg hmod]
    exact hn

/-! ## Groups by address -/

/-- Where group `g` ends, `used` being where the last does. -/
def groupLimit (infos : List ClumpInfo) (used g : Nat) : Nat :=
  if g + 1 < groupCount infos.length then starts infos ((g + 1) * arenaCIGSize) else used

/-- `addr` is in group `g` and in no other. -/
structure InGroup (infos : List ClumpInfo) (used addr g gstart glimit : Nat) : Prop where
  lt : g < groupCount infos.length
  start : gstart = starts infos (g * arenaCIGSize)
  limit : glimit = groupLimit infos used g
  mem : gstart ≤ addr ∧ addr < glimit
  unique : ∀ g' < groupCount infos.length, starts infos (g' * arenaCIGSize) ≤ addr → addr < groupLimit infos used g' → g' = g

theorem mul_groups_mono {j : Nat} (h : i ≤ j) : starts infos (i * arenaCIGSize) ≤ starts infos (j * arenaCIGSize) :=
  starts_mono (Nat.mul_le_mul_right _ h)

theorem inGroup_of_bounds {used g : Nat} (hg : g < groupCount infos.length)
    (hlow : starts infos (g * arenaCIGSize) ≤ addr) (hhigh : addr < groupLimit infos used g) :
    InGroup infos used addr g (starts infos (g * arenaCIGSize)) (groupLimit infos used g) := by
  refine ⟨hg, rfl, rfl, ⟨hlow, hhigh⟩, fun g' hg' hlow' hhigh' => ?_⟩
  unfold groupLimit at hhigh hhigh'
  rcases Nat.lt_trichotomy g' g with h | h | h
  · -- the group before ends where this one begins, or earlier
    rw [if_pos (by omega)] at hhigh'
    have := @mul_groups_mono (g' + 1) infos g h
    omega
  · exact h
  · rw [if_pos (by omega)] at hhigh
    have := @mul_groups_mono (g + 1) infos g' h
    omega

theorem arenatog_groups (ar : Arena) (io : Io) (s : ArenaState) (gs : Groups) (addr : Nat) :
    (arenatog ar io s gs addr).1 = if gs.cig.isNone then loadcig ar io s gs else gs := by
  unfold arenatog
  dsimp only
  generalize (if gs.cig.isNone then loadcig ar io s gs else gs) = gs'
  cases gs'.cig with
  | none => rfl
  | some cig =>
    dsimp only
    split <;> rfl

theorem arenatog_some {res : Nat × Nat × Nat} (h : (arenatog ar io s gs addr).2 = some res) :
    (arenatog ar io s gs addr).1.cig.isNone = false := by
  unfold arenatog at h ⊢
  dsimp only at h ⊢
  generalize (if gs.cig.isNone then loadcig ar io s gs else gs) = gs' at h ⊢
  cases hcig : gs'.cig with
  | none =>
    rw [hcig] at h
    cases h
  | some cig =>
    dsimp only
    split <;> rw [hcig] <;> rfl

theorem arenatog_spec (hok : ar.Ok) (h : Dir ar s infos) (hg : Loaded infos gs)
    (hused : s.memstats.used = starts infos infos.length) :
    Ready infos (arenatog ar io s gs addr).1 ∧ (addr < s.memstats.used →
      match (arenatog ar io s gs addr).2 with
      | none => (arenatog ar io s gs addr).1.ncig = -1
      | some (g, gstart, glimit) => InGroup infos s.memstats.used addr g gstart glimit) := by
  have hready := @ready_of_loaded gs ar io s infos hok h hg
  unfold arenatog
  generalize (if gs.cig.isNone then loadcig ar io s gs else gs) = gs' at hready ⊢
  dsimp only
  rcases hready with ⟨hcig, hncig⟩ | ⟨hcig, hncig⟩
  · rw [hcig]
    exact ⟨.inl ⟨hcig, hncig⟩, fun _ => hncig⟩
  rw [hcig]
  dsimp only
  by_cases hzero : gs'.ncig = 0
  · rw [if_pos hzero]
    refine ⟨.inr ⟨hcig, hncig⟩, fun haddr => ?_⟩
    -- no groups, so no clumps, so no address is below `used`
    have hlen : ¬0 < infos.length := fun hpos => by
      have : 0 < groupCount infos.length := groupCount_lt.2 (by omega)
      omega
    rw [hused, Nat.eq_zero_of_not_pos hlen] at haddr
    exact absurd haddr (Nat.not_lt_zero _)
  rw [if_neg hzero]
  refine ⟨.inr ⟨hcig, hncig⟩, fun haddr => ?_⟩
  have hrange := Bisect.last_range (p := fun m => decide ((groupOffsets infos).getD m.toNat 0 ≤ addr)) (l := 1)
    (r := gs'.ncig - 1) (by omega)
  have hspec := Bisect.last_spec (p := fun m => decide ((groupOffsets infos).getD m.toNat 0 ≤ addr)) (l := 1)
    (r := gs'.ncig - 1) fun i j hi hij hj hp => by
      rw [getD_groupOffsets (by omega), decide_eq_true_iff] at hp ⊢
      exact Nat.le_trans (mul_groups_mono (by omega)) hp
  generalize Bisect.last (fun m => decide ((groupOffsets infos).getD m.toNat 0 ≤ addr)) 1 (gs'.ncig - 1) = l at hrange hspec ⊢
  obtain ⟨hbelow, habove⟩ := hspec
  have hlt : l.toNat < groupCount infos.length := by omega
  have hlimit : (if (l.toNat : Int) + 1 < gs'.ncig then (groupOffsets infos).getD (l.toNat + 1) 0 else s.memstats.used) =
      groupLimit infos s.memstats.used l.toNat := by
    unfold groupLimit
    by_cases hnext : l.toNat + 1 < groupCount infos.length
    · rw [if_pos (by omega), if_pos hnext, getD_groupOffsets hnext]
    · rw [if_neg (by omega), if_neg hnext]
  rw [hlimit, getD_groupOffsets hlt]
  apply inGroup_of_bounds hlt
  · by_cases hl : 1 ≤ l
    · have := hbelow l hl (Int.le_refl l)
      rwa [getD_groupOffsets hlt, decide_eq_true_iff] at this
    · rw [show l.toNat = 0 by omega, Nat.zero_mul]
      exact Nat.zero_le addr
  unfold groupLimit
  by_cases hnext : l.toNat + 1 < groupCount infos.length
  · have := habove (l + 1) (by omega) (by omega)
    rw [show (l + 1).toNat = l.toNat + 1 by omega, getD_groupOffsets hnext, decide_eq_false_iff_not] at this
    rw [if_pos hnext]
    omega
  · rw [if_neg hnext]
    exact haddr

/-! ## Summaries -/

/-- The clumps of a stretch of the log that are not corrupt, at their addresses. -/
def summary (log : List Stored) : List (List UInt8 × IAddr) :=
  (log.filter fun e => e.info.disk.type ≠ vtCorruptType).map fun e =>
    (e.info.score, ⟨e.addr, e.info.uncsize, e.info.disk.type, (e.info.size + clumpSize + (1 <<< aBlockLog) - 1) >>> aBlockLog⟩)

variable {log : List Stored}

theorem summary_cons (e : Stored) (log : List Stored) : summary (e :: log) =
    if e.info.disk.type ≠ vtCorruptType then
      (e.info.score, ⟨e.addr, e.info.uncsize, e.info.disk.type,
        (e.info.size + clumpSize + (1 <<< aBlockLog) - 1) >>> aBlockLog⟩) :: summary log
    else summary log := by
  unfold summary
  rw [filter_cons]
  by_cases h : e.info.disk.type ≠ vtCorruptType
  · rw [if_pos (decide_eq_true h), if_pos h, map_cons]
  · rw [if_neg (by rw [decide_eq_true_iff]; exact h), if_neg h]

theorem asumLoop_spec (hok : ar.Ok) (h : Dir ar s (log.map Stored.info))
    (haddr : ∀ i e, log[i]? = some e → e.addr = starts (log.map Stored.info) i) (gstart : Nat) : ∀ k i addr : Nat,
    addr + gstart = starts (log.map Stored.info) i →
    ∃ m ≤ k, scacheload gstart (asumLoop ar io s k i addr) = summary ((log.drop i).take m) ∧
      (m < k → readable ar io (i + m) = false ∨ log.length ≤ i + m)
  | 0, _, _, _ => ⟨0, Nat.le_refl 0, rfl, fun h => absurd h (Nat.lt_irrefl 0)⟩
  | k + 1, i, addr, hstart => by
    have hread := @readclumpinfo_dir ar io s _ hok h i
    rw [asumLoop]
    by_cases hi : i < log.length
    · cases hr : readable ar io i with
      | false =>
        rw [hr] at hread
        rw [hread]
        exact ⟨0, Nat.zero_le _, rfl, fun _ => .inl hr⟩
      | true =>
        have hget : log[i]? = some log[i] := getElem?_eq_getElem hi
        rw [hr, getElem?_map, hget] at hread
        obtain ⟨m, _, hrest, hend⟩ := asumLoop_spec hok h haddr gstart k (i + 1) (addr + (clumpSize + log[i].info.size)) (by
          have hsucc := @starts_succ i (log.map Stored.info) _ (by rw [getElem?_map, hget]; rfl)
          omega)
        refine ⟨m + 1, by omega, ?_, fun hlt => ?_⟩
        · have hdrop : (log.drop i).take (m + 1) = log[i] :: (log.drop (i + 1)).take m := by
            rw [drop_eq_getElem_cons hi, take_succ_cons]
          have hat : addr + gstart = log[i].addr := by rw [hstart, haddr i _ hget]
          rw [hread, hdrop]
          rw [summary_cons, ← hrest, ← hat, if_pos rfl]
          dsimp only [Option.map_some]
          by_cases htype : log[i].info.disk.type ≠ vtCorruptType
          · rw [if_pos htype, if_pos htype]
            rfl
          · rw [if_neg htype, if_neg htype]
            rfl
        · have := hend (by omega)
          rwa [show i + 1 + m = i + (m + 1) by omega] at this
    · rw [getElem?_map, getElem?_eq_none (by omega), Option.map_none, Option.map_none, ite_self] at hread
      rw [hread]
      exact ⟨0, Nat.zero_le _, rfl, fun _ => .inr (by omega)⟩

theorem asumload_groups (ar : Arena) (io : Io) (s : ArenaState) (gs : Groups) (g nentries : Nat) :
    (asumload ar io s gs g nentries).1 = gs ∨
      (asumload ar io s gs g nentries).1 = if gs.cig.isNone then loadcig ar io s gs else gs := by
  unfold asumload
  split
  · exact .inl rfl
  · dsimp only
    generalize (if gs.cig.isNone then loadcig ar io s gs else gs) = gs'
    split <;> exact .inr rfl

/-- The entries of a group, up to one that cannot be had. -/
theorem asumload_spec (hok : ar.Ok) (h : Dir ar s (log.map Stored.info))
    (haddr : ∀ i e, log[i]? = some e → e.addr = starts (log.map Stored.info) i)
    (hg : Loaded (log.map Stored.info) gs) {g nentries : Nat} (hn : arenaCIGSize ≤ nentries) :
    Ready (log.map Stored.info) (asumload ar io s gs g nentries).1 ∧
      match (asumload ar io s gs g nentries).2 with
      | none => (asumload ar io s gs g nentries).1.ncig = -1 ∨ groupCount log.length ≤ g
      | some entries => ∃ m ≤ arenaCIGSize,
          scacheload (starts (log.map Stored.info) (g * arenaCIGSize)) entries = summary ((log.drop (g * arenaCIGSize)).take m) ∧
          (m < arenaCIGSize → readable ar io (g * arenaCIGSize + m) = false ∨ log.length ≤ g * arenaCIGSize + m) := by
  have hready := @ready_of_loaded gs ar io s _ hok h hg
  unfold asumload
  rw [if_neg (by omega)]
  dsimp only
  generalize (if gs.cig.isNone then loadcig ar io s gs else gs) = gs' at hready ⊢
  by_cases hfail : gs'.cig.isNone ∨ gs'.ncig = 0 ∨ g ≥ gs'.ncig
  · rw [if_pos hfail]
    refine ⟨hready, ?_⟩
    rcases hready with ⟨_, hncig⟩ | ⟨hcig, hncig⟩
    · exact .inl hncig
    · rw [hcig, hncig, length_map] at hfail
      have := hfail.resolve_left (by simp)
      exact .inr (by omega)
  rw [if_neg hfail]
  refine ⟨hready, ?_⟩
  rcases hready with ⟨hcig, _⟩ | ⟨_, hncig⟩
  · exact absurd (.inl (by rw [hcig]; rfl)) hfail
  have hlt : g < groupCount log.length := by
    rw [length_map] at hncig
    omega
  have hin := groupCount_lt.1 hlt
  have hclumps : s.memstats.clumps = log.length := h.clumps.trans (length_map _)
  rw [if_neg (by omega), Nat.add_sub_cancel_left]
  exact asumLoop_spec hok h haddr _ arenaCIGSize (g * arenaCIGSize) 0 (Nat.zero_add _)

end

end Plan9.Venti.Cig
