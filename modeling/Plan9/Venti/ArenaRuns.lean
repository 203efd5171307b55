/-
Runs of `writeaclump` on an arena that was empty.

The log is kept by a run all of whose calls find the directory below 2³² bytes
and get its block. Two things are not as they look. A type on disk does not say
whether a pointer block is of data or of a directory, so an info may come back
with the other. And `arenadirsize` is computed in a `u32int`: in an arena with
room for that many infos it starts again from nothing, and clumps are accepted
into the directory.
-/
import Plan9.Venti.ArenaFacts

namespace Plan9.Venti

open List

structure Call where
  c : Clump
  clbuf : List UInt8
  io : Io
  room : c.info.size + clumpSize + u32Size ≤ clbuf.length

/-- The arena, and the clumps it accepted with what it returned for each. -/
structure ArenaSys where
  st : ArenaState
  log : List Stored

namespace ArenaSys

def step (ar : Arena) (x : ArenaSys) (k : Call) : Option ArenaSys :=
  match ar.writeaclump k.io x.st k.c k.clbuf with
  | none => none
  | some (st, none) => some ⟨st, x.log⟩
  | some (st, some aa) =>
    some ⟨st, x.log ++ [⟨aa, storedBytes k.c ((packclump k.c ar.clumpmagic).getD []) k.clbuf, k.c.info⟩]⟩

def exec (ar : Arena) : List Call → ArenaSys → Option ArenaSys
  | [], x => some x
  | k :: ks, x =>
    match x.step ar k with
    | none => none
    | some x => exec ar ks x

/-- An empty arena, on whatever was on the partition. -/
def empty (part : Nat → UInt8) : ArenaSys := ⟨⟨⟨0, 0, 0, 0, false⟩, part⟩, []⟩

/-- Each call finds the directory small enough and gets its block. -/
def GoodRun (ar : Arena) : List Call → ArenaSys → Prop
  | [], _ => True
  | k :: ks, x => Good ar k.io x.st ∧ ∀ y, x.step ar k = some y → GoodRun ar ks y

/-- What an arena is for. -/
structure Kept (ar : Arena) (x : ArenaSys) : Prop where
  size : ∀ e ∈ x.log, e.bytes.length = e.info.size + clumpSize
  addr : ∀ i e, x.log[i]? = some e → e.addr = total (x.log.take i)
  clumps : ∀ (i j : Nat) (e f : Stored), i < j → x.log[i]? = some e → x.log[j]? = some f → e.addr + e.bytes.length ≤ f.addr
  directory : ∀ e ∈ x.log, ∀ b ≤ x.st.memstats.clumps / ar.clumpmax,
    e.addr + e.bytes.length + (b + 1) * ar.blocksize ≤ ar.size
  room : x.st.memstats.used + ar.arenadirsize x.st.memstats.clumps ≤ ar.size
  isSealed : x.st.memstats.isSealed = true → ∀ k : Call, ar.writeaclump k.io x.st k.c k.clbuf = some (x.st, none)
  readarena : ∀ e ∈ x.log, ∀ io : Io, (∀ a, io.ok a = true) →
    ar.readarena io x.st e.addr e.bytes.length = some e.bytes
  readclumpinfo : ∀ i e, x.log[i]? = some e → ∀ io : Io, (∀ a, io.ok a = true) →
    ar.readclumpinfo io x.st i = some e.info.disk

/-! ## Runs -/

section

variable {ar : Arena} {x : ArenaSys}

structure Inv (ar : Arena) (x : ArenaSys) : Prop where
  logged : Logged ar x.st x.log
  size : ∀ e ∈ x.log, e.bytes.length = e.info.size + clumpSize

theorem inv_empty (hok : ar.Ok) (part : Nat → UInt8) : Inv ar (empty part) := by
  have hdir : ar.dirBytes 0 = ar.blocksize := by
    unfold Arena.dirBytes
    rw [Nat.zero_div, Nat.zero_add, Nat.one_mul]
  have hlt := hok.lt
  refine ⟨⟨rfl, rfl, fun i e he => ?_, ?_, ?_, fun e he => ?_, fun i e he => ?_⟩, fun e he => ?_⟩
  · cases he
  · change 0 + ar.dirBytes 0 ≤ ar.size
    rw [hdir, Nat.zero_add]
    exact hok.room
  · change ar.dirBytes 0 < 2 ^ 32
    omega
  · cases he
  · cases he
  · cases he

theorem length_storedBytes {k : Call} {head : List UInt8} (hhead : head.length = clumpSize) :
    (storedBytes k.c head k.clbuf).length = k.c.info.size + clumpSize := by
  have := k.room
  unfold storedBytes
  rw [length_append, length_take, length_drop]
  omega

theorem inv_step (hok : ar.Ok) (hal : ar.Aligned) (h : Inv ar x) {k : Call} (hg : Good ar k.io x.st) :
    ∃ y, x.step ar k = some y ∧ Inv ar y := by
  obtain ⟨s, r, hw, hcase⟩ := writeaclump_logged hok hal h.logged hg k.room
  unfold step
  rw [hw]
  rcases hcase with ⟨rfl, hl⟩ | ⟨_, hhead, rfl, hl⟩
  · exact ⟨_, rfl, hl, h.size⟩
  rw [hhead]
  refine ⟨_, rfl, hl, fun e he => ?_⟩
  rw [mem_append, mem_singleton] at he
  rcases he with he | rfl
  · exact h.size e he
  · exact length_storedBytes (length_packclump hhead)

theorem inv_exec (hok : ar.Ok) (hal : ar.Aligned) {ks : List Call} (h : Inv ar x) (hg : GoodRun ar ks x) :
    ∃ y, exec ar ks x = some y ∧ Inv ar y := by
  induction ks generalizing x with
  | nil => exact ⟨x, rfl, h⟩
  | cons k ks ih =>
    obtain ⟨y, hstep, hy⟩ := inv_step hok hal h hg.1
    unfold exec
    rw [hstep]
    exact ih hy (hg.2 y hstep)

theorem readarena_eq (hok : ar.Ok) (h : Inv ar x) {e : Stored} (he : e ∈ x.log) {io : Io}
    (hio : ∀ a, io.ok a = true) : ar.readarena io x.st e.addr e.bytes.length = some e.bytes := by
  have hsize := h.size e he
  have hbelow := h.logged.bytes_below he
  have hroom := h.logged.room
  have hdata := h.logged.data e he
  have hcs : 0 < clumpSize := by decide
  have hmod := Nat.mod_lt (ar.base + e.addr) (Arena.blocksize_pos hok)
  have hle := Nat.mod_le (ar.base + e.addr) ar.blocksize
  have htop : (((ar.size : Int) - ar.dirBytes x.st.memstats.clumps) % 2 ^ 64).toNat =
      ar.size - ar.dirBytes x.st.memstats.clumps := by
    have := hok.size_lt
    omega
  unfold Arena.readarena
  rw [if_neg (by omega), Arena.arenadirsize_eq h.logged.small, htop]
  dsimp only
  rw [if_neg (by omega), if_neg (by omega), Arena.locate_eq hok]
  rw [Arena.readBlocks_eq hio hmod le_rfl (by omega), Nat.sub_add_cancel hle]
  exact congrArg some hdata

theorem readclumpinfo_eq (hok : ar.Ok) (h : Inv ar x) {i : Nat} {e : Stored} (he : x.log[i]? = some e) {io : Io}
    (hio : ∀ a, io.ok a = true) : ar.readclumpinfo io x.st i = some e.info.disk := by
  obtain ⟨_, -⟩ := List.getElem?_eq_some_iff.mp he
  have hclumps := h.logged.clumps
  have hsmall : ar.dirBytes i < 2 ^ 32 :=
    Nat.lt_of_le_of_lt (ar.dirBytes_mono (by omega)) h.logged.small
  unfold Arena.readclumpinfo
  rw [Arena.getcib_eq hok (by omega) hsmall]
  dsimp only
  rw [if_pos (hio _)]
  exact congrArg some (unpackclumpinfo_eq (h.logged.infos i e he))

theorem writeaclump_sealed (h : x.st.memstats.isSealed = true) (k : Call) :
    ar.writeaclump k.io x.st k.c k.clbuf = some (x.st, none) := by
  unfold Arena.writeaclump
  rw [if_pos (Or.inl h), if_pos h]

theorem kept_of_inv (hok : ar.Ok) (h : Inv ar x) : Kept ar x := by
  have hroom := h.logged.room
  refine ⟨h.size, h.logged.addr, fun i j e f hij he hf => ?_, fun e he b hb => ?_, ?_,
    fun hs k => writeaclump_sealed hs k, fun e he io hio => readarena_eq hok h he hio,
    fun i e he io hio => readclumpinfo_eq hok h he hio⟩
  · rw [h.logged.addr i e he, h.logged.addr j f hf]
    have htake : (x.log.take j)[i]? = some e := by
      rw [getElem?_take_of_lt hij]
      exact he
    have := addr_add_le htake
    rw [take_take, Nat.min_eq_left (Nat.le_of_lt hij)] at this
    exact this
  · have hbelow := h.logged.bytes_below he
    have hdir : (b + 1) * ar.blocksize ≤ ar.dirBytes x.st.memstats.clumps := Nat.mul_le_mul_right _ (by omega)
    omega
  · rw [Arena.arenadirsize_eq h.logged.small]
    exact hroom

/-- **The log of an arena**: a run that keeps the directory small and gets its blocks keeps the log. -/
theorem arena_log_kept (hok : ar.Ok) (hal : ar.Aligned) {part : Nat → UInt8} {ks : List Call}
    (hg : GoodRun ar ks (empty part)) : ∃ y, exec ar ks (empty part) = some y ∧ Kept ar y := by
  obtain ⟨y, hy, hinv⟩ := inv_exec hok hal (inv_empty hok part) hg
  exact ⟨y, hy, kept_of_inv hok hinv⟩

/-! ## Runs that accept -/

/-- A disk that never fails. -/
def allOk : Io := ⟨fun _ => true, fun _ => 0⟩

theorem writeBlocks_done {io : Io} (hio : ∀ a, io.ok a = true) {fuel : Nat} {part : Nat → UInt8} {a off : Nat}
    {data : List UInt8} (hoff : off < ar.blocksize) (hfuel : data.length ≤ fuel) (hpos : 0 < data.length) :
    (ar.writeBlocks io fuel part a off data).2 = true := by
  induction fuel generalizing part a off data with
  | zero => omega
  | succ fuel ih =>
    unfold Arena.writeBlocks
    rw [if_pos (hio a)]
    dsimp only
    split
    · rfl
    · exact ih (by omega) (by rw [length_drop]; omega) (by rw [length_drop]; omega)

theorem writeclumpinfo_memstats (io : Io) (s : ArenaState) (clump : Nat) (ci : ClumpInfo) :
    ((ar.writeclumpinfo io s clump ci).getD s).memstats = s.memstats := by
  unfold Arena.writeclumpinfo
  split
  · rfl
  · split <;> rfl

theorem step_accepts (hok : ar.Ok) {k : Call} (hio : ∀ a, k.io.ok a = true) (hs : x.st.memstats.isSealed = false)
    (hfits : x.st.memstats.used + (k.c.info.size + clumpSize + u32Size) + u32Size +
      ar.arenadirsize (u32 (x.st.memstats.clumps + 1)) ≤ ar.size)
    (hlt : x.st.memstats.clumps + 1 < 2 ^ 32) (hcheck : checkclump k.c = true) :
    ∃ y bytes, x.step ar k = some y ∧ y.st.memstats.clumps = x.st.memstats.clumps + 1 ∧
      y.st.memstats.used = x.st.memstats.used + (k.c.info.size + clumpSize) ∧
      y.st.memstats.isSealed = false ∧ y.log = x.log ++ [⟨x.st.memstats.used, bytes, k.c.info⟩] ∧
      bytes.length = k.c.info.size + clumpSize := by
  obtain ⟨head, hhead⟩ : ∃ head, packclump k.c ar.clumpmagic = some head := by
    unfold packclump
    rw [if_pos hcheck]
    exact ⟨_, rfl⟩
  have hlen := length_clumpBytes (length_packclump hhead) k.room
  have hnext : u32 ((x.st.memstats.clumps : Int) + 1) = x.st.memstats.clumps + 1 :=
    u32_nat (x := x.st.memstats.clumps + 1) hlt
  have hmod := Nat.mod_lt (ar.base + x.st.memstats.used) (Arena.blocksize_pos hok)
  have hcs : 0 < clumpSize := by decide
  have hdone := @writeBlocks_done ar k.io hio (Arena.clumpBytes k.c head k.clbuf).length x.st.part
    (ar.locate x.st.memstats.used).1 (ar.locate x.st.memstats.used).2 (Arena.clumpBytes k.c head k.clbuf)
    (by rw [Arena.locate_eq hok]; exact hmod) le_rfl (by omega)
  unfold step Arena.writeaclump
  dsimp only
  rw [hnext, hhead, if_neg (by rw [hs, ← hnext]; simpa using hfits)]
  dsimp only
  rw [← hlen]
  cases hw : ar.writeBlocks k.io (Arena.clumpBytes k.c head k.clbuf).length x.st.part
    (ar.locate x.st.memstats.used).1 (ar.locate x.st.memstats.used).2 (Arena.clumpBytes k.c head k.clbuf) with
  | mk part done =>
    rw [hw] at hdone
    obtain rfl : done = true := hdone
    refine ⟨_, _, rfl, ?_, ?_, ?_, rfl, length_storedBytes (length_packclump hhead)⟩
    · rw [wbarena_memstats, writeclumpinfo_memstats]
    · rw [wbarena_memstats, writeclumpinfo_memstats]
    · rw [wbarena_memstats, writeclumpinfo_memstats]
      exact hs

theorem exec_replicate (hok : ar.Ok) {k : Call} (hio : ∀ a, k.io.ok a = true) (hcheck : checkclump k.c = true)
    (rest : List Call) (m : Nat) (hs : x.st.memstats.isSealed = false)
    (hroom : x.st.memstats.used + m * (k.c.info.size + clumpSize) + 2 * u32Size + 2 ^ 32 ≤ ar.size)
    (hlt : x.st.memstats.clumps + m < 2 ^ 32) :
    ∃ y, exec ar (List.replicate m k ++ rest) x = exec ar rest y ∧
      y.st.memstats.clumps = x.st.memstats.clumps + m ∧
      y.st.memstats.used = x.st.memstats.used + m * (k.c.info.size + clumpSize) ∧
      y.st.memstats.isSealed = false := by
  induction m generalizing x with
  | zero => exact ⟨x, rfl, rfl, by omega, hs⟩
  | succ m ih =>
    have hdir : ar.arenadirsize (u32 (x.st.memstats.clumps + 1)) < 2 ^ 32 := by
      unfold Arena.arenadirsize u32
      omega
    rw [Nat.succ_mul] at hroom
    obtain ⟨y, _, hstep, _, _, hs', -, -⟩ := step_accepts hok hio hs (by omega) (by omega) hcheck
    obtain ⟨z, hexec, _, _, hs''⟩ := ih hs' (by omega) (by omega)
    refine ⟨z, ?_, by omega, by rw [Nat.succ_mul]; omega, hs''⟩
    rw [replicate_succ, cons_append, exec, hstep]
    exact hexec

end

/-! ## Examples -/

/-- A plain clump of zeros. -/
def zeros (type size : Nat) (ht : type < 256) (hsz : size < 2 ^ 16) : Call where
  c := ⟨⟨type, size, size, List.replicate vtScoreSize 0, ht, hsz, hsz, List.length_replicate⟩, 1, 0, 0⟩
  clbuf := List.replicate (size + clumpSize + u32Size) 0
  io := allOk
  room := Nat.le_of_eq List.length_replicate.symm

/-- A pointer block of data, `VtDataType+1`. -/
def pointerClump : Call := zeros 1 0 (by decide) (by decide)

def emptyClump : Call := zeros 0 0 (by decide) (by decide)

/-- A lump of the largest size. -/
def fullClump : Call := zeros 0 57344 (by decide) (by decide)

/-- An arena of a megabyte. -/
def smallArena : Arena := ⟨8192, 1048576, 1048576, 0xf1b2c3d4⟩

theorem smallArena_ok : smallArena.Ok := ⟨⟨13, rfl⟩, by decide, by decide, by decide, by decide⟩

/-- The second clump ends in the block after the one it starts in. -/
def twoClumps : List Call := [zeros 0 100 (by decide) (by decide), zeros 0 8192 (by decide) (by decide)]

theorem arena_log_kept_two : ∃ y, exec smallArena twoClumps (empty fun _ => 0) = some y ∧ y.log.length = 2 ∧
    Kept smallArena y := by
  obtain ⟨x, _, hstep, hclumps, hused, hsealed, hlog, -⟩ := @step_accepts smallArena (empty fun _ => 0) smallArena_ok
    (zeros 0 100 (by decide) (by decide)) (fun _ => rfl) rfl (by decide) (by decide) (by decide)
  have hone : x.st.memstats.clumps = 1 := hclumps
  have hbytes : x.st.memstats.used = 138 := hused
  obtain ⟨y, _, hstep', -, -, -, hlog', -⟩ := @step_accepts smallArena x smallArena_ok (zeros 0 8192 (by decide) (by decide))
    (fun _ => rfl) hsealed (by rw [hone, hbytes]; decide) (by rw [hone]; decide) (by decide)
  have hexec : exec smallArena twoClumps (empty fun _ => 0) = some y := by
    rw [twoClumps, exec, hstep]
    dsimp only
    rw [exec, hstep']
    rfl
  have hgood : GoodRun smallArena twoClumps (empty fun _ => 0) := by
    refine ⟨⟨by decide, rfl⟩, fun x' hx' => ?_⟩
    obtain rfl : x = x' := Option.some.inj (hstep.symm.trans hx')
    exact ⟨⟨by rw [hone]; decide, rfl⟩, fun _ _ => trivial⟩
  obtain ⟨z, hz, hkept⟩ := arena_log_kept smallArena_ok ⟨by decide, by decide⟩ hgood
  obtain rfl : y = z := Option.some.inj (hexec.symm.trans hz)
  exact ⟨y, hexec, by rw [hlog', hlog]; rfl, hkept⟩

/-- An arena of ten gigabytes. -/
def bigArena : Arena := ⟨8192, 1048576, 10809761792, 0xf1b2c3d4⟩

theorem bigArena_ok : bigArena.Ok := ⟨⟨13, rfl⟩, by decide, by decide, by decide, by decide⟩

theorem type_changes : ∃ y ci, exec smallArena [pointerClump] (empty fun _ => 0) = some y ∧
    y.log.length = 1 ∧ smallArena.readclumpinfo allOk y.st 0 = some ci ∧ ci.type = 9 := by
  obtain ⟨y, bytes, hstep, -, -, -, hlog, -⟩ := @step_accepts smallArena (empty fun _ => 0) smallArena_ok
    pointerClump (fun _ => rfl) rfl (by decide) (by decide) (by decide)
  obtain ⟨z, hstep', hinv⟩ := @inv_step smallArena (empty fun _ => 0) smallArena_ok ⟨by decide, by decide⟩
    (inv_empty smallArena_ok _) pointerClump ⟨by decide, rfl⟩
  rw [hstep] at hstep'
  cases hstep'
  have hget : y.log[0]? = some ⟨0, bytes, pointerClump.c.info⟩ := by
    rw [hlog]
    rfl
  refine ⟨y, _, ?_, by rw [hlog]; rfl, readclumpinfo_eq smallArena_ok hinv hget fun _ => rfl, rfl⟩
  unfold exec
  rw [hstep]
  rfl

/-- With so many infos that one more block makes a directory of 2³² bytes, a clump is accepted that
reaches into the blocks the directory has. -/
theorem clump_in_directory : ∃ y e, exec bigArena
      (List.replicate 171441848 emptyClump ++ [fullClump])
      (empty fun _ => 0) = some y ∧
    e ∈ y.log ∧ ∃ i < y.st.memstats.clumps, e.addr < bigArena.size - i / bigArena.clumpmax * bigArena.blocksize ∧
      bigArena.size - (i / bigArena.clumpmax + 1) * bigArena.blocksize < e.addr + e.bytes.length := by
  obtain ⟨x, hexec, hc, hu, hs⟩ := @exec_replicate bigArena (empty fun _ => 0) bigArena_ok
    emptyClump (fun _ => rfl) (by decide) [fullClump] 171441848
    rfl (by decide) (by decide)
  have hclumps : x.st.memstats.clumps = 171441848 := hc
  have hused : x.st.memstats.used = 6514790224 := hu
  obtain ⟨y, bytes, hstep, hc', -, -, hlog, hlen⟩ := @step_accepts bigArena x bigArena_ok
    fullClump (fun _ => rfl) hs (by rw [hclumps, hused]; decide)
    (by rw [hclumps]; decide) (by decide)
  refine ⟨y, ⟨x.st.memstats.used, bytes, fullClump.c.info⟩, ?_, ?_, 171441847, ?_, ?_, ?_⟩
  · rw [hexec, exec, hstep]
    rfl
  · rw [hlog]
    simp
  · rw [hc', hclumps]
    decide
  · dsimp only
    rw [hused]
    decide
  · dsimp only
    rw [hused, hlen]
    decide

/-- So neither all that was written is read back, nor are clumps and directory always apart. -/
theorem arena_log_fails :
    (∃ y ci, exec smallArena [pointerClump] (empty fun _ => 0) = some y ∧ y.log.length = 1 ∧
      smallArena.readclumpinfo allOk y.st 0 = some ci ∧ ci ≠ pointerClump.c.info) ∧
    ∃ y e, exec bigArena (List.replicate 171441848 emptyClump ++ [fullClump]) (empty fun _ => 0) = some y ∧
      e ∈ y.log ∧ ∃ i < y.st.memstats.clumps, e.addr < bigArena.size - i / bigArena.clumpmax * bigArena.blocksize ∧
        bigArena.size - (i / bigArena.clumpmax + 1) * bigArena.blocksize < e.addr + e.bytes.length := by
  obtain ⟨y, ci, hexec, hlen, hread, htype⟩ := type_changes
  refine ⟨⟨y, ci, hexec, hlen, hread, fun heq => ?_⟩, clump_in_directory⟩
  rw [heq] at htype
  cases htype

end ArenaSys

end Plan9.Venti
