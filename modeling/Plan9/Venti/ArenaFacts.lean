/-
What one `writeaclump` does to an arena whose directory stays below 2³² bytes.

The bytes of the clump go above those used and below the directory blocks the
new count needs, the info goes to its own place in the directory, and all other
bytes of either stay. What is not kept is the rest of the clump's last block,
and the rest of a directory block when its first info is written.
-/
import Mathlib.Algebra.Order.Group.Nat
import Plan9.Lib.Bytes
import Plan9.Lib.Memory
import Plan9.Venti.Arena

namespace Plan9.Venti

open Memory List

variable {clumps i a off x n : Nat} {head data : List UInt8} {part : Nat → UInt8} {e : Stored} {keep : Bool}

namespace Arena

variable {ar : Arena} {io : Io}

/-! ## Blocks -/

theorem putBlock_outside
    (h : x < a ∨ a + ar.blocksize ≤ x) : ar.putBlock io part a off keep data x = part x := by
  unfold putBlock
  rw [if_neg (by omega)]

theorem putBlock_keep
    (h : x < a + off ∨ a + off + data.length ≤ x) : ar.putBlock io part a off true data x = part x := by
  unfold putBlock
  split
  · have hnone : (if a + off ≤ x then data[x - (a + off)]? else none) = none := by
      split
      · exact getElem?_eq_none (by omega)
      · rfl
    rw [hnone]
    rfl
  · rfl

theorem putBlock_data
    (hroom : off + data.length ≤ ar.blocksize) (hi : i < data.length) :
    ar.putBlock io part a off keep data (a + off + i) = data[i] := by
  unfold putBlock
  rw [if_pos (by omega), if_pos (by omega), show a + off + i - (a + off) = i by omega,
    getElem?_eq_getElem hi]

/-- The loop leaves what is before `a + off`, and what is after the last block it may touch. -/
theorem writeBlocks_spec {fuel : Nat} {k : Nat}
    (hoff : off < ar.blocksize) (hfuel : data.length ≤ fuel) (hpos : 0 < data.length)
    (hk : off + data.length ≤ k * ar.blocksize) :
    (∀ x, x < a + off ∨ a + k * ar.blocksize ≤ x →
      (ar.writeBlocks io fuel part a off data).1 x = part x) ∧
    ((ar.writeBlocks io fuel part a off data).2 = true → ∀ i (h : i < data.length),
      (ar.writeBlocks io fuel part a off data).1 (a + off + i) = data[i]) := by
  induction fuel generalizing part a off k data with
  | zero => omega
  | succ fuel ih =>
    have hk1 : ar.blocksize ≤ k * ar.blocksize := by
      cases k with
      | zero => omega
      | succ k => exact Nat.le_mul_of_pos_left _ (Nat.succ_pos k)
    unfold writeBlocks
    split
    · dsimp only
      have hfirst : ∀ x, x < a + off ∨ a + ar.blocksize ≤ x →
          ar.putBlock io part a off (decide (off ≠ 0)) (data.take (min (ar.blocksize - off) data.length)) x = part x := by
        intro x hx
        by_cases h0 : off = 0
        · exact putBlock_outside (by omega)
        by_cases hxa : x < a ∨ a + ar.blocksize ≤ x
        · exact putBlock_outside hxa
        · rw [decide_eq_true h0]
          exact putBlock_keep (by omega)
      split
      · refine ⟨fun x hx => hfirst x (by omega), fun _ i hi => ?_⟩
        dsimp only
        rw [putBlock_data (by rw [length_take]; omega) (by rw [length_take]; omega), getElem_take]
      have hm' : min (ar.blocksize - off) data.length = ar.blocksize - off := by omega
      rw [hm'] at hfirst ⊢
      obtain ⟨k', rfl⟩ : ∃ k', k = k' + 1 := ⟨k - 1, by cases k with | zero => omega | succ k => rfl⟩
      have hlen : (data.drop (ar.blocksize - off)).length = data.length - (ar.blocksize - off) := length_drop
      rw [Nat.succ_mul] at hk
      obtain ⟨hframe, hdata⟩ := @ih (a + ar.blocksize) 0 (data.drop (ar.blocksize - off))
        (ar.putBlock io part a off (decide (off ≠ 0)) (data.take (ar.blocksize - off))) k' (by omega) (by omega) (by omega) (by omega)
      constructor
      · intro x hx
        rw [Nat.succ_mul] at hx
        rw [hframe x (by omega), hfirst x (by omega)]
      intro hdone i hi
      by_cases hin : i < ar.blocksize - off
      · rw [hframe _ (by omega), putBlock_data (by rw [length_take]; omega)
          (by rw [length_take]; omega), getElem_take]
      have := hdata hdone (i - (ar.blocksize - off)) (by omega)
      rw [getElem_drop] at this
      rw [show a + off + i = a + ar.blocksize + 0 + (i - (ar.blocksize - off)) by omega, this]
      congr 1
      omega
    · exact ⟨fun _ _ => rfl, fun h => by cases h⟩

theorem readBlocks_eq (hok : ∀ a, io.ok a = true) {fuel : Nat}
    (hoff : off < ar.blocksize) (hfuel : n ≤ fuel) (hpos : 0 < n) :
    ar.readBlocks io part fuel a off n = some ((List.range n).map fun i => part (a + off + i)) := by
  induction fuel generalizing a off n with
  | zero => omega
  | succ fuel ih =>
    unfold readBlocks
    rw [if_pos (hok a)]
    dsimp only
    split
    · rename_i hm
      rw [hm]
    have hm' : min (ar.blocksize - off) n = ar.blocksize - off := by omega
    rw [hm', ih (by omega) (by omega) (by omega)]
    dsimp only
    have hn : n = (ar.blocksize - off) + (n - (ar.blocksize - off)) := by omega
    rw [hn, range_add, map_append, map_map, ← hn]
    congr 2
    apply map_congr_left
    intro i _
    rw [Function.comp_apply]
    congr 1
    omega

/-! ## Places -/

/-- The directory blocks for `clumps` clumps, and one more when they are full. -/
def dirBytes (ar : Arena) (clumps : Nat) : Nat := (clumps / ar.clumpmax + 1) * ar.blocksize

/-- Where the info of clump `i` belongs. -/
def infoAddr (ar : Arena) (i : Nat) : Nat :=
  ar.base + ar.size - (i / ar.clumpmax + 1) * ar.blocksize + i % ar.clumpmax * clumpInfoSize

structure Aligned (ar : Arena) : Prop where
  base : ar.blocksize ∣ ar.base
  size : ar.blocksize ∣ ar.size

theorem clumpmax_pos (hok : ar.Ok) : 0 < ar.clumpmax := Nat.div_pos hok.info (by decide)

theorem blocksize_pos (hok : ar.Ok) : 0 < ar.blocksize := Nat.lt_of_lt_of_le (by decide) hok.info

theorem info_in_block (hok : ar.Ok) (i : Nat) : i % ar.clumpmax * clumpInfoSize + clumpInfoSize ≤ ar.blocksize := by
  have hmod := Nat.mod_lt i (clumpmax_pos hok)
  have hmul : ar.clumpmax * clumpInfoSize ≤ ar.blocksize := Nat.div_mul_le_self _ _
  have hle : (i % ar.clumpmax + 1) * clumpInfoSize ≤ ar.clumpmax * clumpInfoSize := Nat.mul_le_mul_right _ hmod
  rw [Nat.succ_mul] at hle
  omega

theorem dirBytes_mono {m : Nat} (h : m ≤ n) : ar.dirBytes m ≤ ar.dirBytes n :=
  Nat.mul_le_mul_right _ (Nat.succ_le_succ (Nat.div_le_div_right h))

theorem arenadirsize_eq (h : ar.dirBytes clumps < 2 ^ 32) :
    ar.arenadirsize clumps = ar.dirBytes clumps := u32_nat h

theorem clumps_lt (hok : ar.Ok) (h : ar.dirBytes clumps < 2 ^ 32) : clumps < 2 ^ 31 := by
  have hdiv : clumps < ar.clumpmax * (clumps / ar.clumpmax + 1) := Nat.lt_mul_div_succ _ (clumpmax_pos hok)
  have hmul : ar.clumpmax * clumpInfoSize ≤ ar.blocksize := Nat.div_mul_le_self _ _
  have hle : ar.clumpmax * clumpInfoSize * (clumps / ar.clumpmax + 1) ≤ ar.dirBytes clumps := by
    unfold dirBytes
    rw [Nat.mul_comm (clumps / ar.clumpmax + 1)]
    exact Nat.mul_le_mul_right _ hmul
  rw [Nat.mul_right_comm] at hle
  unfold clumpInfoSize at hle
  omega

theorem getcib_eq (hok : ar.Ok) {s : ArenaState} (hi : i < s.memstats.clumps)
    (h : ar.dirBytes i < 2 ^ 32) :
    ar.getcib s i = some (ar.base + ar.size - (i / ar.clumpmax + 1) * ar.blocksize,
      i % ar.clumpmax * clumpInfoSize) := by
  have hlt := clumps_lt hok h
  have hdiv : i / ar.clumpmax ≤ i := Nat.div_le_self _ _
  have hblock : u32 ((CInt.int32 i).tdiv ar.clumpmax) = i / ar.clumpmax := by
    rw [CInt.int32_eq (by omega) (by omega), ← Int.ofNat_tdiv, u32_nat (by omega)]
  have hoff : u32 (((i : Int) - (i / ar.clumpmax : Nat) * ar.clumpmax) * clumpInfoSize) =
      i % ar.clumpmax * clumpInfoSize := by
    have hmod := Nat.mod_add_div' i ar.clumpmax
    have heq : (i : Int) - (i / ar.clumpmax : Nat) * ar.clumpmax = (i % ar.clumpmax : Nat) := by
      omega
    rw [heq, ← Int.natCast_mul]
    have := info_in_block hok i
    have := hok.lt
    exact u32_nat (by omega)
  unfold getcib
  rw [if_neg (by omega)]
  simp only [hblock, hoff]
  rw [u32_nat (show (i / ar.clumpmax + 1) * ar.blocksize < 2 ^ 32 from h)]

theorem locate_eq (hok : ar.Ok) (aa : Nat) :
    ar.locate aa = (ar.base + aa - (ar.base + aa) % ar.blocksize, (ar.base + aa) % ar.blocksize) := by
  obtain ⟨_, hlg⟩ := hok.pow2
  unfold locate
  dsimp only
  rw [hlg, Nat.and_two_pow_sub_one_eq_mod]

end Arena

/-! ## Bytes on the partition -/

theorem load_putBlock {ar : Arena} {io : Io}
    (hn : data.length = n) (hroom : off + n ≤ ar.blocksize) :
    load (ar.putBlock io part a off keep data) (a + off) n = data := by
  subst hn
  exact load_eq fun i hi => Arena.putBlock_data hroom hi

/-- What an info is after it was on disk. -/
def ClumpInfo.disk (ci : ClumpInfo) : ClumpInfo :=
  { ci with type := vtfromdisktype (vttodisktype ci.type), type_lt := vtfromdisktype_lt _ }

theorem length_packclumpinfo (ci : ClumpInfo) : (packclumpinfo ci).length = clumpInfoSize := by
  have := ci.score_length
  simp only [packclumpinfo, u16put, length_append, length_cons, length_nil, this]
  rfl

theorem length_packclump {c : Clump} {magic : Nat} (h : packclump c magic = some head) :
    head.length = clumpSize := by
  unfold packclump at h
  split at h
  · cases h
    simp only [u32put, length_append, length_cons, length_nil, length_packclumpinfo]
    rfl
  · cases h

theorem u16get_u16put {v : Nat} (h : v < 2 ^ 16) : u16get (UInt8.ofNat (v / 2 ^ 8)) (UInt8.ofNat v) = v := by
  unfold u16get
  rw [Bytes.or_shiftLeft (UInt8.toNat_lt _), UInt8.toNat_ofNat', UInt8.toNat_ofNat']
  omega

/-- What was packed is unpacked, but for the types the disk does not tell apart. -/
theorem unpackclumpinfo_eq {p : Nat} {ci : ClumpInfo}
    (h : load part p clumpInfoSize = packclumpinfo ci) : unpackclumpinfo part p = ci.disk := by
  have hget : ∀ i, i < clumpInfoSize → (packclumpinfo ci)[i]? = some (part (p + i)) := by
    intro i hi
    rw [← h, getElem?_load hi]
  have hscore : ∀ i, i < vtScoreSize → ci.score[i]? = some (part (p + 5 + i)) := by
    intro i hi
    have := hget (5 + i) (by unfold vtScoreSize at hi; unfold clumpInfoSize; omega)
    rw [show p + (5 + i) = p + 5 + i by omega] at this
    rw [← this]
    rw [show 5 + i = i + 5 by omega]
    rfl
  have h0 := hget 0 (by decide)
  have h1 := hget 1 (by decide)
  have h2 := hget 2 (by decide)
  have h3 := hget 3 (by decide)
  have h4 := hget 4 (by decide)
  simp only [packclumpinfo, u16put, cons_append, nil_append, getElem?_cons_zero,
    getElem?_cons_succ, Option.some.injEq] at h0 h1 h2 h3 h4
  unfold unpackclumpinfo ClumpInfo.disk
  congr 1
  · rw [← Nat.add_zero p, ← h0, UInt8.toNat_ofNat', Nat.mod_eq_of_lt (vttodisktype_lt _)]
  · rw [← h1, ← h2, u16get_u16put ci.size_lt]
  · rw [← h3, ← h4, u16get_u16put ci.uncsize_lt]
  apply ext_getElem
  · rw [length_map, length_range, ci.score_length]
  intro i hi1 hi2
  have := hscore i (by rw [ci.score_length] at hi2; exact hi2)
  rw [getElem?_eq_getElem hi2, Option.some.injEq] at this
  rw [getElem_map, getElem_range, this]

/-! ## The log -/

/-- A clump that was accepted: its address, what was written for it, its info. -/
structure Stored where
  addr : Nat
  bytes : List UInt8
  info : ClumpInfo

/-- The bytes of all of them. -/
def total (log : List Stored) : Nat := (log.map fun e => e.bytes.length).sum

/-- The arena holds the log. -/
structure Logged (ar : Arena) (s : ArenaState) (log : List Stored) : Prop where
  clumps : s.memstats.clumps = log.length
  used : s.memstats.used = total log
  addr : ∀ i e, log[i]? = some e → e.addr = total (log.take i)
  room : s.memstats.used + ar.dirBytes s.memstats.clumps ≤ ar.size
  small : ar.dirBytes s.memstats.clumps < 2 ^ 32
  data : ∀ e ∈ log, load s.part (ar.base + e.addr) e.bytes.length = e.bytes
  infos : ∀ i e, log[i]? = some e → load s.part (ar.infoAddr i) clumpInfoSize = packclumpinfo e.info

theorem total_append (log log' : List Stored) : total (log ++ log') = total log + total log' := by
  simp [total]

theorem total_cons (e : Stored) (log : List Stored) : total (e :: log) = e.bytes.length + total log := by
  simp [total]

theorem addr_add_le {log : List Stored} (h : log[i]? = some e) :
    total (log.take i) + e.bytes.length ≤ total log := by
  obtain ⟨hi, rfl⟩ := List.getElem?_eq_some_iff.mp h
  have hsplit : total log = total (log.take i) + total (log.drop i) := by
    rw [← total_append, take_append_drop]
  rw [hsplit, drop_eq_getElem_cons hi, total_cons]
  omega

namespace Logged

variable {ar : Arena} {s s' : ArenaState} {log : List Stored}

theorem bytes_below (h : Logged ar s log) (he : e ∈ log) : e.addr + e.bytes.length ≤ s.memstats.used := by
  obtain ⟨i, hi⟩ := getElem?_of_mem he
  rw [h.addr i e hi, h.used]
  exact addr_add_le hi

theorem info_above (hok : ar.Ok) (h : Logged ar s log) (hi : i < log.length) :
    ar.base + ar.size - ar.dirBytes s.memstats.clumps ≤ ar.infoAddr i ∧
    ar.infoAddr i + clumpInfoSize ≤ ar.base + ar.size := by
  have hin := Arena.info_in_block hok i
  have hmono : (i / ar.clumpmax + 1) * ar.blocksize ≤ ar.dirBytes s.memstats.clumps :=
    ar.dirBytes_mono (by rw [h.clumps]; omega)
  have hone : ar.blocksize ≤ (i / ar.clumpmax + 1) * ar.blocksize := Nat.le_mul_of_pos_left _ (Nat.succ_pos _)
  have := h.room
  unfold Arena.infoAddr
  omega

theorem frame (hok : ar.Ok) (h : Logged ar s log) (hc : s'.memstats.clumps = s.memstats.clumps)
    (hu : s'.memstats.used = s.memstats.used)
    (hlow : ∀ x, x < ar.base + s.memstats.used → s'.part x = s.part x)
    (hhigh : ∀ x, ar.base + ar.size - ar.dirBytes s.memstats.clumps ≤ x → x < ar.base + ar.size →
      s'.part x = s.part x) : Logged ar s' log := by
  refine ⟨hc.trans h.clumps, hu.trans h.used, h.addr, by rw [hc, hu]; exact h.room, by rw [hc]; exact h.small,
    fun e he => ?_, fun i e he => ?_⟩
  · have := h.bytes_below he
    rw [load_congr fun x _ hx => hlow x (by omega), h.data e he]
  · obtain ⟨hi, -⟩ := List.getElem?_eq_some_iff.mp he
    have := h.info_above hok hi
    rw [load_congr fun x hx hx' => hhigh x (by omega) (by omega), h.infos i e he]

theorem append (h : Logged ar s log) (haddr : e.addr = s.memstats.used)
    (hc : s'.memstats.clumps = s.memstats.clumps + 1) (hu : s'.memstats.used = s.memstats.used + e.bytes.length)
    (hroom : s'.memstats.used + ar.dirBytes s'.memstats.clumps ≤ ar.size)
    (hsmall : ar.dirBytes s'.memstats.clumps < 2 ^ 32)
    (hlow : ∀ x, x < ar.base + s.memstats.used → s'.part x = s.part x)
    (hdata : load s'.part (ar.base + s.memstats.used) e.bytes.length = e.bytes)
    (hinfos : ∀ j < s.memstats.clumps, ∀ x, ar.infoAddr j ≤ x → x < ar.infoAddr j + clumpInfoSize →
      s'.part x = s.part x)
    (hinfo : load s'.part (ar.infoAddr s.memstats.clumps) clumpInfoSize = packclumpinfo e.info) :
    Logged ar s' (log ++ [e]) := by
  have hclumps := h.clumps
  refine ⟨by rw [hc, hclumps, length_append]; rfl, ?_, fun i x hx => ?_, hroom, hsmall, fun x hx => ?_,
    fun i x hx => ?_⟩
  · rw [hu, h.used, total_append, total_cons]
    rfl
  · rcases Nat.lt_or_ge i log.length with hi | hi
    · rw [getElem?_append_left hi] at hx
      rw [take_append_of_le_length (Nat.le_of_lt hi)]
      exact h.addr i x hx
    obtain ⟨hilt, hx'⟩ := List.getElem?_eq_some_iff.mp hx
    obtain rfl : i = log.length := by
      rw [length_append, length_singleton] at hilt
      omega
    rw [getElem_concat_length rfl] at hx'
    rw [← hx', haddr, take_left, h.used]
  · rw [mem_append, mem_singleton] at hx
    rcases hx with hx | rfl
    · have := h.bytes_below hx
      rw [load_congr fun y _ hy => hlow y (by omega), h.data x hx]
    · rw [haddr]
      exact hdata
  rcases Nat.lt_or_ge i log.length with hi | hi
  · rw [getElem?_append_left hi] at hx
    rw [load_congr fun y hy hy' => hinfos i (by omega) y hy hy', h.infos i x hx]
  obtain ⟨hilt, hx'⟩ := List.getElem?_eq_some_iff.mp hx
  obtain rfl : i = log.length := by
    rw [length_append, length_singleton] at hilt
    omega
  rw [getElem_concat_length rfl] at hx'
  rw [← hx', ← hclumps]
  exact hinfo

end Logged

/-! ## One call -/

/-- The directory for one clump more stays below 2³² bytes, and its block for the new info can be had. -/
structure Good (ar : Arena) (io : Io) (s : ArenaState) : Prop where
  dir : ar.dirBytes (s.memstats.clumps + 1) < 2 ^ 32
  info : io.ok (ar.base + ar.size - (s.memstats.clumps / ar.clumpmax + 1) * ar.blocksize) = true

section

variable {ar : Arena} {io : Io} {s s' : ArenaState} {log : List Stored} {c : Clump} {clbuf : List UInt8}

theorem wbarena_memstats : (ar.wbarena io s).memstats = s.memstats := by
  unfold Arena.wbarena
  split <;> rfl

theorem wbarena_part (h : x < ar.base + ar.size) : (ar.wbarena io s).part x = s.part x := by
  unfold Arena.wbarena
  split
  · exact Arena.putBlock_outside (Or.inl h)
  · rfl

theorem writeBlocks_between (hok : ar.Ok) (hal : ar.Aligned) {aa : Nat}
    (hpos : 0 < data.length) (hroom : aa + data.length + ar.dirBytes clumps ≤ ar.size)
    {done : Bool}
    (h : ar.writeBlocks io data.length s.part (ar.locate aa).1 (ar.locate aa).2 data = (part, done)) :
    (∀ x, x < ar.base + aa ∨ ar.base + ar.size - ar.dirBytes clumps ≤ x → part x = s.part x) ∧
    (done = true → load part (ar.base + aa) data.length = data) := by
  rw [Arena.locate_eq hok] at h
  have hmod := Nat.mod_lt (ar.base + aa) (Arena.blocksize_pos hok)
  have hle := Nat.mod_le (ar.base + aa) ar.blocksize
  -- whole blocks lie between the block of the first byte and the directory
  have hdvd : ar.blocksize ∣ ar.base + ar.size - ar.dirBytes clumps - (ar.base + aa - (ar.base + aa) % ar.blocksize) :=
    Nat.dvd_sub (Nat.dvd_sub (Nat.dvd_add hal.base hal.size) (Nat.dvd_mul_left _ _)) (Nat.dvd_sub_mod _)
  obtain ⟨k, hk⟩ := hdvd
  rw [Nat.mul_comm] at hk
  have hspec := @Arena.writeBlocks_spec (ar.base + aa - (ar.base + aa) % ar.blocksize) ((ar.base + aa) % ar.blocksize)
    data s.part ar io data.length k hmod le_rfl hpos (by omega)
  rw [h] at hspec
  obtain ⟨hframe, hdata⟩ := hspec
  constructor
  · intro x hx
    exact hframe x (by omega)
  intro hdone
  apply load_eq
  intro i hi
  have := hdata hdone i hi
  rw [show ar.base + aa - (ar.base + aa) % ar.blocksize + (ar.base + aa) % ar.blocksize + i =
    ar.base + aa + i by omega] at this
  exact this

theorem writeclumpinfo_spec (hok : ar.Ok) (hi : s.memstats.clumps = i + 1)
    (hsmall : ar.dirBytes i < 2 ^ 32) (hroom : ar.dirBytes i ≤ ar.size)
    (hio : io.ok (ar.base + ar.size - (i / ar.clumpmax + 1) * ar.blocksize) = true) (ci : ClumpInfo) :
    ∃ part, ar.writeclumpinfo io s i ci = some { s with part := part } ∧
      load part (ar.infoAddr i) clumpInfoSize = packclumpinfo ci ∧
      (∀ x, x < ar.base + ar.size - ar.dirBytes i → part x = s.part x) ∧
      ∀ j < i, ∀ x, ar.infoAddr j ≤ x → x < ar.infoAddr j + clumpInfoSize → part x = s.part x := by
  unfold Arena.writeclumpinfo
  rw [Arena.getcib_eq hok (by omega) hsmall]
  dsimp only
  rw [if_pos hio]
  refine ⟨_, rfl, ?_, fun x hx => Arena.putBlock_outside (Or.inl hx), fun j hj x hx hx' => ?_⟩
  · have hlen := length_packclumpinfo ci
    have hin := Arena.info_in_block hok i
    exact load_putBlock hlen (by omega)
  have hle : j / ar.clumpmax ≤ i / ar.clumpmax := Nat.div_le_div_right (Nat.le_of_lt hj)
  unfold Arena.infoAddr at hx hx'
  by_cases hblock : j / ar.clumpmax = i / ar.clumpmax
  · -- an earlier info of the block: then this one is not the first
    have hji : j % ar.clumpmax < i % ar.clumpmax := by
      have h1 := Nat.mod_add_div j ar.clumpmax
      have h2 := Nat.mod_add_div i ar.clumpmax
      rw [hblock] at h1
      omega
    have hoff : j % ar.clumpmax * clumpInfoSize + clumpInfoSize ≤ i % ar.clumpmax * clumpInfoSize := by
      rw [← Nat.succ_mul]
      exact Nat.mul_le_mul_right _ hji
    rw [decide_eq_true (by omega)]
    apply Arena.putBlock_keep
    rw [hblock] at hx'
    omega
  have hsucc : (j / ar.clumpmax + 1) * ar.blocksize + ar.blocksize ≤ (i / ar.clumpmax + 1) * ar.blocksize := by
    rw [← Nat.succ_mul]
    exact Nat.mul_le_mul_right _ (by omega)
  unfold Arena.dirBytes at hroom
  exact Arena.putBlock_outside (by omega)

/-- What an accepted clump leaves on the partition. -/
def storedBytes (c : Clump) (head clbuf : List UInt8) : List UInt8 := head ++ (clbuf.drop clumpSize).take c.info.size

theorem length_clumpBytes (hhead : head.length = clumpSize)
    (hbuf : c.info.size + clumpSize + u32Size ≤ clbuf.length) :
    (Arena.clumpBytes c head clbuf).length = c.info.size + clumpSize + u32Size := by
  unfold Arena.clumpBytes
  rw [length_append, length_take, length_drop]
  omega

theorem take_clumpBytes (hhead : head.length = clumpSize) :
    (Arena.clumpBytes c head clbuf).take (c.info.size + clumpSize) = storedBytes c head clbuf := by
  unfold Arena.clumpBytes storedBytes
  rw [take_append, take_of_length_le (by omega), take_take]
  congr 2
  omega

theorem store_logged (hok : ar.Ok) (hl : Logged ar s log) (hg : Good ar io s) {st : ATailStats} (haddr : e.addr = s.memstats.used)
    (hc : st.clumps = s.memstats.clumps + 1) (hu : st.used = s.memstats.used + e.bytes.length)
    (hroom : st.used + ar.dirBytes (s.memstats.clumps + 1) ≤ ar.size)
    (hframe : ∀ x, x < ar.base + s.memstats.used ∨ ar.base + ar.size - ar.dirBytes (s.memstats.clumps + 1) ≤ x →
      part x = s.part x)
    (hdata : load part (ar.base + s.memstats.used) e.bytes.length = e.bytes) :
    Logged ar (ar.wbarena io ((ar.writeclumpinfo io ⟨st, part⟩ s.memstats.clumps e.info).getD ⟨st, part⟩))
      (log ++ [e]) := by
  have hmono : ar.dirBytes s.memstats.clumps ≤ ar.dirBytes (s.memstats.clumps + 1) := ar.dirBytes_mono (by omega)
  have hone : ar.blocksize ≤ ar.dirBytes s.memstats.clumps := Nat.le_mul_of_pos_left _ (Nat.succ_pos _)
  have hin := Arena.info_in_block hok s.memstats.clumps
  obtain ⟨_, hwci, hinfo, hlow, hinfos⟩ :=
    writeclumpinfo_spec (s := ⟨st, part⟩) hok hc (by have := hg.dir; omega) (by omega) hg.info e.info
  rw [hwci, Option.getD_some]
  have htop : ar.infoAddr s.memstats.clumps + clumpInfoSize ≤ ar.base + ar.size := by
    have hd : (s.memstats.clumps / ar.clumpmax + 1) * ar.blocksize = ar.dirBytes s.memstats.clumps := rfl
    unfold Arena.infoAddr
    omega
  apply hl.append haddr
  · rw [wbarena_memstats]
    exact hc
  · rw [wbarena_memstats]
    exact hu
  · rw [wbarena_memstats, hc]
    exact hroom
  · rw [wbarena_memstats, hc]
    exact hg.dir
  · intro x hx
    exact (wbarena_part (by omega)).trans ((hlow x (by omega)).trans (hframe x (Or.inl hx)))
  · rw [load_congr fun x _ hx => wbarena_part (by omega), load_congr fun x _ hx => hlow x (by omega), hdata]
  · intro j hj x hx hx'
    have hjlog : j < log.length := by
      rw [← hl.clumps]
      exact hj
    obtain ⟨_, _⟩ := hl.info_above hok hjlog
    exact (wbarena_part (by omega)).trans ((hinfos j hj x hx hx').trans (hframe x (by omega)))
  · rw [load_congr fun x _ hx => wbarena_part (by omega), hinfo]

/-- **One call**: a clump is refused and the log stays, or it is the next of the log. -/
theorem writeaclump_logged (hok : ar.Ok) (hal : ar.Aligned) (hl : Logged ar s log) (hg : Good ar io s)
    (hbuf : c.info.size + clumpSize + u32Size ≤ clbuf.length) :
    ∃ s' r, ar.writeaclump io s c clbuf = some (s', r) ∧
      ((r = none ∧ Logged ar s' log) ∨
        ∃ head, packclump c ar.clumpmagic = some head ∧ r = some s.memstats.used ∧
          Logged ar s' (log ++ [⟨s.memstats.used, storedBytes c head clbuf, c.info⟩])) := by
  have hlt := Arena.clumps_lt hok hg.dir
  have hnext : u32 ((s.memstats.clumps : Int) + 1) = s.memstats.clumps + 1 := u32_nat (x := s.memstats.clumps + 1) (by omega)
  have hroom := hl.room
  have hsize : 0 < clumpSize := by decide
  have hmono : ar.dirBytes s.memstats.clumps ≤ ar.dirBytes (s.memstats.clumps + 1) := ar.dirBytes_mono (by omega)
  unfold Arena.writeaclump
  dsimp only
  rw [hnext, Arena.arenadirsize_eq hg.dir]
  split
  · split
    · exact ⟨s, none, rfl, Or.inl ⟨rfl, hl⟩⟩
    refine ⟨_, none, rfl, Or.inl ⟨rfl, hl.frame hok ?_ ?_ (fun x hx => ?_) fun x _ hx => ?_⟩⟩
    · rw [wbarena_memstats]
    · rw [wbarena_memstats]
    · exact wbarena_part (by omega)
    · exact wbarena_part hx
  split
  · exact ⟨s, none, rfl, Or.inl ⟨rfl, hl⟩⟩
  rename_i head hhead
  have hlen := length_clumpBytes (length_packclump hhead) hbuf
  have hroom' : s.memstats.used + (Arena.clumpBytes c head clbuf).length + ar.dirBytes (s.memstats.clumps + 1) ≤
      ar.size := by omega
  rw [← hlen]
  split
  · rename_i part hw
    obtain ⟨hframe, -⟩ := writeBlocks_between hok hal (by omega) hroom' hw
    refine ⟨_, none, rfl, Or.inl ⟨rfl, hl.frame hok rfl rfl (fun x hx => hframe x (Or.inl hx)) fun x hx _ => ?_⟩⟩
    exact hframe x (by omega)
  rename_i part hw
  obtain ⟨hframe, hdata⟩ := writeBlocks_between hok hal (by omega) hroom' hw
  have hstored : (storedBytes c head clbuf).length = c.info.size + clumpSize := by
    rw [← take_clumpBytes (length_packclump hhead), length_take]
    omega
  refine ⟨_, _, rfl, Or.inr ⟨head, hhead, rfl, ?_⟩⟩
  have hpre := load_take (hdata rfl) (n := c.info.size + clumpSize) (by omega)
  rw [take_clumpBytes (length_packclump hhead), ← hstored] at hpre
  apply store_logged (e := ⟨s.memstats.used, storedBytes c head clbuf, c.info⟩) hok hl hg rfl
  · rfl
  · exact congrArg (s.memstats.used + ·) hstored.symm
  · dsimp only
    omega
  · exact hframe
  · exact hpre

end

end Plan9.Venti
