/-
What the functions on blocks do to a text.

Between operations a buffer holds its text in one of two ways: it has no blocks and no
text (`Empty`), or its blocks are those before the one in the cache, that one, those
after it, and perhaps some that a `bufreset` or a shrunk text has left behind (`Rep`).
After a flush all of the text is on the disk (`Flushed`).
-/
import Plan9.Acme.Buff

namespace Plan9.Acme

open List

/-! ## Blocks and their text -/

def total (ks : List Block) : Nat := (ks.map Block.n).sum

def contents (d : Disk) (ks : List Block) : List Rune := ks.flatMap (content d)

theorem total_nil : total [] = 0 := rfl

theorem total_cons (k : Block) (ks : List Block) : total (k :: ks) = k.n + total ks := sum_cons

theorem total_append (ks ks' : List Block) : total (ks ++ ks') = total ks + total ks' := by
  rw [total, total, total, map_append, sum_append_nat]

theorem length_content (d : Disk) (k : Block) : (content d k).length = k.n := by
  rw [content, length_map, length_range]

theorem contents_nil (d : Disk) : contents d [] = [] := rfl

theorem contents_cons (d : Disk) (k : Block) (ks : List Block) : contents d (k :: ks) = content d k ++ contents d ks :=
  flatMap_cons

theorem contents_append (d : Disk) (ks ks' : List Block) : contents d (ks ++ ks') = contents d ks ++ contents d ks' :=
  flatMap_append

theorem length_contents (d : Disk) (ks : List Block) : (contents d ks).length = total ks := by
  induction ks with
  | nil => rfl
  | cons k ks ih => rw [contents_cons, total_cons, length_append, length_content, ih]

theorem contents_congr {d d' : Disk} {ks : List Block} (h : ∀ k ∈ ks, content d' k = content d k) :
    contents d' ks = contents d ks := by
  induction ks with
  | nil => rfl
  | cons k ks ih =>
    rw [contents_cons, contents_cons, h k mem_cons_self, ih fun k' hk' => h k' (mem_cons_of_mem _ hk')]

theorem contents_file {d d' : Disk} (h : d'.file = d.file) (ks : List Block) : contents d' ks = contents d ks :=
  contents_congr fun k _ => by rw [content, content, h]

theorem total_eq_zero {ks : List Block} (hs : ∀ k ∈ ks, Sound k) (h : total ks = 0) : ks = [] := by
  cases ks with
  | nil => rfl
  | cons k ks =>
    rw [total_cons] at h
    have := (hs k mem_cons_self).1
    omega

/-! ## The array of blocks -/

section

variable {d0 d : Disk} {O : Block → Prop} {b : Buffer} {xs ys : List Block} {k : Block}

theorem block_at (hbl : b.bl = xs ++ k :: ys) : b.block xs.length = .ok k := by
  rw [Buffer.block, hbl, getElem?_append_right le_rfl, Nat.sub_self, getElem?_cons_zero]

theorem insertIdx_middle (xs ys : List Block) (k : Block) : (xs ++ ys).insertIdx xs.length k = xs ++ k :: ys := by
  induction xs with
  | nil => rfl
  | cons x xs ih => rw [cons_append, length_cons, insertIdx_succ_cons, ih, cons_append]

theorem addblock_spec {i n : Nat} (h : Since d0 O d b.bl) (hbl : b.bl = xs ++ ys) (hi : i = xs.length) (hn : 0 < n)
    (hmax : n ≤ Maxblock) :
    Gives (fun x => ∃ k : Block, x.2 = { b with bl := xs ++ k :: ys } ∧ k.n = n ∧ Since d0 O x.1 (xs ++ k :: ys) ∧
      x.1.file = d.file ∧ x.1.eof = d.eof ∧ d.addr ≤ x.1.addr) (addblock d b i n) := by
  have hle : ¬ i > b.bl.length := by
    rw [hbl, length_append, hi]
    omega
  have hinsert : ∀ k : Block, b.bl.insertIdx i k = xs ++ k :: ys := by
    intro k
    rw [hbl, hi, insertIdx_middle]
  rw [addblock, if_neg hle]
  refine Outcome.bind (disknewblock_spec h hn hmax) ?_
  rintro ⟨k, d'⟩ ⟨hkn, hsince, hfile, heof, haddr⟩
  refine Outcome.ok ⟨k, ?_, hkn, ?_, hfile, heof, haddr⟩
  · rw [hinsert]
  · refine hsince.perm ?_
    rw [hbl]
    exact perm_middle.symm

theorem delblock_spec {i : Nat} (h : Since d0 O d b.bl) (hbl : b.bl = xs ++ k :: ys) (hi : i = xs.length) :
    Gives (fun x => x.2 = { b with bl := xs ++ ys } ∧ Since d0 O x.1 (xs ++ ys) ∧ x.1.file = d.file ∧ x.1.eof = d.eof ∧
      x.1.addr = d.addr) (delblock d b i) := by
  have hlt : ¬ i ≥ b.bl.length := by
    rw [hbl, length_append, length_cons, hi]
    omega
  have herase : b.bl.eraseIdx i = xs ++ ys := by
    rw [hbl, hi, eraseIdx_append_of_length_le le_rfl, Nat.sub_self, eraseIdx_zero, tail_cons]
  rw [delblock, if_neg hlt, hi, block_at hbl]
  rw [hbl] at h
  change Gives _ (diskrelease d k >>= _)
  refine Outcome.bind (diskrelease_spec (h.perm perm_middle)) ?_
  rintro d' ⟨hsince, hfile, heof, haddr⟩
  refine Outcome.ok ⟨?_, hsince, hfile, heof, haddr⟩
  rw [← hi, herase]

theorem writeblock_spec {i : Nat} {r : List Rune} (h : Since d0 O d b.bl) (hbl : b.bl = xs ++ k :: ys)
    (hi : i = xs.length) (hpos : 0 < r.length) (hmax : r.length ≤ Maxblock) :
    Gives (fun x => ∃ k' : Block, x.2 = { b with bl := xs ++ k' :: ys } ∧ k'.n = r.length ∧
      Since d0 O x.1 (xs ++ k' :: ys) ∧ Written x.1 k' ∧ d.addr ≤ x.1.addr ∧ d.eof ≤ x.1.eof ∧
      (x.1.addr ≤ ADDRS → content x.1 k' = r ∧ ∀ j ∈ xs ++ ys, content x.1 j = content d j)) (writeblock d b i r) := by
  rw [writeblock, hi, block_at hbl]
  rw [hbl] at h
  change Gives _ (diskwrite d k r >>= _)
  refine Outcome.bind (diskwrite_spec (h.perm perm_middle) hpos hmax) ?_
  rintro ⟨k', d'⟩ ⟨hkn, hsince, hw, haddr, heof, hcontent⟩
  refine Outcome.ok ⟨k', ?_, hkn, hsince.perm perm_middle.symm, hw, haddr, heof, hcontent⟩
  rw [hbl, set_append_right _ _ le_rfl, Nat.sub_self, set_cons_zero]

end

/-! ## What a buffer holds -/

structure Empty (b : Buffer) (text : List Rune) : Prop where
  bl : b.bl = []
  nc : b.nc = 0
  c : b.c = []
  cq : b.cq = 0
  cdirty : b.cdirty = false
  cbi : b.cbi = 0
  text : text = []

/-- A block that is not in the cache has been written, and so has the one that is if the cache has not been changed;
but after a `bufreset` the one that is left is in the cache whatever it has in it. -/
structure Rep (d : Disk) (b : Buffer) (text : List Rune) (pre : List Block) (k : Block) (post stale : List Block) :
    Prop where
  bl : b.bl = pre ++ k :: (post ++ stale)
  cbi : b.cbi = pre.length
  cq : b.cq = total pre
  cnc : b.cnc ≤ Maxblock
  nc : b.nc = text.length
  len : text.length = total pre + b.cnc + total post
  written : ∀ j ∈ pre ++ post, Written d j
  clean : b.cdirty = false → b.nc = 0 ∨ k.n = b.cnc ∧ Written d k ∧ (d.addr ≤ ADDRS → content d k = b.c)
  text : d.addr ≤ ADDRS → text = contents d pre ++ b.c ++ contents d post

def Holds (d : Disk) (b : Buffer) (text : List Rune) : Prop := Empty b text ∨ ∃ pre k post stale, Rep d b text pre k post stale

/-- All of the text is in blocks that have been written. -/
structure Flushed (d : Disk) (b : Buffer) (text : List Rune) (real stale : List Block) : Prop where
  bl : b.bl = real ++ stale
  cbi : b.cbi ≤ real.length
  cq : b.cq = total (real.take b.cbi)
  nc : b.nc = text.length
  len : text.length = total real
  written : ∀ j ∈ real, Written d j
  text : d.addr ≤ ADDRS → text = contents d real

/-- How many runes are in each of the blocks, and in the cache in place of the one that is there. -/
def Buffer.cached (b : Buffer) : List Nat := (b.bl.map Block.n).set b.cbi b.cnc

/-- No block but the one in the cache is past the end of the text. -/
def Snug (b : Buffer) : Prop := b.cached.sum ≤ b.nc

section

variable {d0 d : Disk} {O : Block → Prop} {b : Buffer} {text : List Rune} {pre post stale : List Block} {k : Block}

theorem Rep.snug (hr : Rep d b text pre k post stale) : Snug b ↔ total stale = 0 := by
  have hlen : (pre.map Block.n).length = b.cbi := by rw [length_map, hr.cbi]
  have hcached : b.cached = pre.map Block.n ++ b.cnc :: (post ++ stale).map Block.n := by
    rw [Buffer.cached, hr.bl, map_append, map_cons, set_append_right _ _ (Nat.le_of_eq hlen), hlen, Nat.sub_self,
      set_cons_zero]
  have hsum : b.cached.sum = b.nc + total stale := by
    rw [hcached, hr.nc, hr.len, sum_append, sum_cons, map_append, sum_append, total, total, total]
    omega
  rw [Snug, hsum]
  omega

theorem snug_nil (h : b.bl = []) : Snug b := by
  rw [Snug, Buffer.cached, h]
  exact Nat.zero_le _

theorem Written.mono {d' : Disk} {j : Block} (h : Written d j) (he : d.eof ≤ d'.eof) : Written d' j := Nat.le_trans h he

theorem Rep.take (hr : Rep d b text pre k post stale) (mid : List Block) : (pre ++ mid ++ post).take b.cbi = pre := by
  rw [hr.cbi, append_assoc, take_left']
  rfl

theorem Rep.cbi_le (hr : Rep d b text pre k post stale) (mid : List Block) : b.cbi ≤ (pre ++ mid ++ post).length := by
  rw [hr.cbi, length_append, length_append]
  omega

theorem Rep.next (hr : Rep d b text pre k post stale) {k' : Block} (hk' : k'.n = b.cnc) :
    b.cbi + 1 ≤ (pre ++ [k'] ++ post).length ∧ total ((pre ++ [k'] ++ post).take (b.cbi + 1)) = b.cq + b.cnc := by
  have hlen : (pre ++ [k']).length = b.cbi + 1 := by rw [length_append, length_singleton, hr.cbi]
  refine ⟨?_, ?_⟩
  · rw [length_append, hlen]
    omega
  · rw [take_left' hlen, total_append, total_cons, total_nil, hk', hr.cq]
    rfl

theorem Rep.flushed (hr : Rep d b text pre k post stale) (hclean : b.cdirty = false) (hnz : b.nc ≠ 0) :
    Flushed d b text (pre ++ [k] ++ post) stale ∧ k.n = b.cnc := by
  obtain ⟨hkn, hw, hcontent⟩ := (hr.clean hclean).resolve_left hnz
  refine ⟨⟨?_, hr.cbi_le [k], ?_, hr.nc, ?_, ?_, ?_⟩, hkn⟩
  · rw [hr.bl, append_assoc, append_assoc]
    rfl
  · rw [hr.take]
    exact hr.cq
  · rw [hr.len, total_append, total_append, total_cons, total_nil, hkn]
    rfl
  · intro j hj
    rw [append_assoc, mem_append, mem_append, mem_singleton] at hj
    rcases hj with hj | rfl | hj
    · exact hr.written j (mem_append_left _ hj)
    · exact hw
    · exact hr.written j (mem_append_right _ hj)
  · intro hle
    rw [contents_append, contents_append, contents_cons, contents_nil, append_nil, hcontent hle]
    exact hr.text hle

/-- The cache goes to its block, or, when it is empty, the block goes. -/
theorem flush_spec (h : Since d0 O d b.bl) (hr : Rep d b text pre k post stale) (hd : b.cdirty = true ∨ b.nc ≠ 0) :
    Gives (fun x => Since d0 O x.1 x.2.bl ∧ x.2.c = b.c ∧ x.2.cq = b.cq ∧ x.2.cbi = b.cbi ∧ x.2.nc = b.nc ∧
      d.addr ≤ x.1.addr ∧ ∃ real, Flushed x.1 x.2 text real stale ∧
        (b.cnc ≠ 0 → b.cbi + 1 ≤ real.length ∧ total (real.take (b.cbi + 1)) = b.cq + b.cnc)) (flush d b) := by
  rw [flush]
  split
  · by_cases hzero : b.cnc = 0
    · rw [if_pos hzero]
      refine Outcome.bind (delblock_spec h hr.bl hr.cbi) ?_
      rintro ⟨d', b'⟩ ⟨rfl, hsince, hfile, heof, haddr⟩
      refine Outcome.ok ⟨hsince, rfl, rfl, rfl, rfl, Nat.le_of_eq haddr.symm, pre ++ [] ++ post, ?_, fun hne => absurd hzero hne⟩
      have hlen := hr.len
      have hc : b.c = [] := length_eq_zero_iff.1 hzero
      refine ⟨?_, hr.cbi_le [], ?_, hr.nc, ?_, ?_, ?_⟩
      · rw [append_nil, append_assoc]
      · rw [hr.take]
        exact hr.cq
      · rw [append_nil, total_append]
        omega
      · rw [append_nil]
        exact fun j hj => (hr.written j hj).mono (Nat.le_of_eq heof.symm)
      intro hle
      rw [append_nil, contents_append, contents_file hfile, contents_file hfile]
      have := hr.text (haddr ▸ hle)
      rw [hc, append_nil] at this
      exact this
    rw [if_neg hzero]
    refine Outcome.bind (writeblock_spec h hr.bl hr.cbi (Nat.pos_of_ne_zero hzero) hr.cnc) ?_
    rintro ⟨d', b'⟩ ⟨k', rfl, hkn, hsince, hw, haddr, heof, hcontent⟩
    refine Outcome.ok ⟨hsince, rfl, rfl, rfl, rfl, haddr, pre ++ [k'] ++ post, ?_, fun _ => hr.next hkn⟩
    refine ⟨?_, hr.cbi_le [k'], ?_, hr.nc, ?_, ?_, ?_⟩
    · rw [append_assoc, append_assoc]
      rfl
    · rw [hr.take]
      exact hr.cq
    · rw [hr.len, total_append, total_append, total_cons, total_nil, hkn]
      rfl
    · intro j hj
      rw [append_assoc, mem_append, mem_append, mem_singleton] at hj
      rcases hj with hj | rfl | hj
      · exact (hr.written j (mem_append_left _ hj)).mono heof
      · exact hw
      · exact (hr.written j (mem_append_right _ hj)).mono heof
    intro hle
    obtain ⟨hk', hrest⟩ := hcontent hle
    rw [contents_append, contents_append, contents_cons, contents_nil, append_nil, hk',
      contents_congr fun j hj => hrest j (mem_append_left _ hj),
      contents_congr fun j hj => hrest j (mem_append_right _ (mem_append_left _ hj))]
    exact hr.text (Nat.le_trans haddr hle)
  rename_i hclean
  rw [not_or, Bool.not_eq_true] at hclean
  obtain ⟨hclean, hzero⟩ := hclean
  have hnz : b.nc ≠ 0 := by
    rcases hd with hd | hd
    · rw [hclean] at hd
      cases hd
    · exact hd
  obtain ⟨hf, hkn⟩ := hr.flushed hclean hnz
  exact Outcome.ok ⟨h, rfl, rfl, rfl, rfl, le_rfl, pre ++ [k] ++ post, hf, fun _ => hr.next hkn⟩

theorem Holds.stay {d' : Disk} (h : Holds d b text) (hle : d.addr ≤ ADDRS) (heof : d.eof ≤ d'.eof)
    (hb : ∀ k ∈ b.bl, content d' k = content d k) : Holds d' b text := by
  rcases h with he | ⟨pre, k, post, stale, hr⟩
  · exact .inl he
  have hpre : ∀ j ∈ pre, j ∈ b.bl := by
    intro j hj
    rw [hr.bl]
    exact mem_append_left _ hj
  have hk : k ∈ b.bl := by
    rw [hr.bl]
    exact mem_append_right _ mem_cons_self
  have hpost : ∀ j ∈ post, j ∈ b.bl := by
    intro j hj
    rw [hr.bl]
    exact mem_append_right _ (mem_cons_of_mem _ (mem_append_left _ hj))
  refine .inr ⟨pre, k, post, stale, hr.bl, hr.cbi, hr.cq, hr.cnc, hr.nc, hr.len, fun j hj => (hr.written j hj).mono heof,
    ?_, ?_⟩
  · intro hclean
    rcases hr.clean hclean with hz | ⟨hkn, hw, hc⟩
    · exact .inl hz
    · exact .inr ⟨hkn, hw.mono heof, fun _ => (hb k hk).trans (hc hle)⟩
  · intro _
    rw [contents_congr fun j hj => hb j (hpre j hj), contents_congr fun j hj => hb j (hpost j hj)]
    exact hr.text hle

/-! ## setcache -/

theorem findblock_spec (q0 : Nat) (stale : List Block) : ∀ (rest pre : List Block), rest ≠ [] → (∀ k ∈ rest, Sound k) →
    total pre ≤ q0 → q0 ≤ total (pre ++ rest) → ∃ pre' k post, pre ++ rest = pre' ++ k :: post ∧
      findblock q0 (total (pre ++ rest)) (rest ++ stale) pre.length (total pre) = .ok (k, pre'.length, total pre') ∧
      total pre' ≤ q0 ∧ q0 ≤ total pre' + k.n ∧ (q0 < total (pre ++ rest) → q0 < total pre' + k.n) := by
  intro rest
  induction rest with
  | nil => exact fun _ h => absurd rfl h
  | cons k ks ih =>
    intro pre _ hs hle hge
    have hnc : total (pre ++ k :: ks) = total pre + (k.n + total ks) := by rw [total_append, total_cons]
    rw [cons_append, findblock]
    split
    · rename_i hgo
      have hks : ks ≠ [] := by
        rintro rfl
        rw [total_nil] at hnc
        omega
      have happ : pre ++ [k] ++ ks = pre ++ k :: ks := by rw [append_assoc]; rfl
      have hlen : (pre ++ [k]).length = pre.length + 1 := by rw [length_append, length_singleton]
      have htotal : total (pre ++ [k]) = total pre + k.n := by rw [total_append, total_cons, total_nil]; rfl
      have hnext := ih (pre ++ [k]) hks (fun j hj => hs j (mem_cons_of_mem _ hj)) (by rw [htotal]; exact hgo.1)
        (by rw [happ]; exact hge)
      rw [happ, hlen, htotal] at hnext
      exact hnext
    · exact ⟨pre, k, ks, rfl, rfl, hle, by omega, by omega⟩

/-- **The cache moves to where `q0` is**, and the text stays. -/
theorem setcache_spec {q0 : Nat} (h : Since d0 O d b.bl) (hh : Holds d b text) (hq : q0 ≤ b.nc) :
    Gives (fun x => Since d0 O x.1 x.2.bl ∧ Holds x.1 x.2 text ∧ d.addr ≤ x.1.addr ∧ x.2.nc = b.nc ∧ x.2.cq ≤ q0 ∧
      q0 ≤ x.2.cq + x.2.cnc ∧ (q0 < x.2.nc → q0 < x.2.cq + x.2.cnc) ∧ (Snug b → Snug x.2) ∧ (b.nc = 0 → x.2 = b))
      (setcache d b q0) := by
  rw [setcache, if_neg (Nat.not_lt.2 hq)]
  split
  · have hlo : b.cq ≤ q0 ∧ q0 ≤ b.cq + b.cnc ∧ (q0 < b.nc → q0 < b.cq + b.cnc) := ?_
    exact Outcome.ok ⟨h, hh, le_rfl, rfl, hlo.1, hlo.2.1, hlo.2.2, id, fun _ => rfl⟩
    by_cases hzero : b.nc = 0
    · have hcq : b.cq = 0 := by
        rcases hh with he | ⟨pre, k, post, stale, hr⟩
        · exact he.cq
        have := hr.len
        rw [← hr.nc, hzero] at this
        rw [hr.cq]
        omega
      omega
    · omega
  rename_i hmove
  rw [not_or] at hmove
  split
  · have hlo : b.cq ≤ q0 ∧ q0 ≤ b.cq + b.cnc ∧ (q0 < b.nc → q0 < b.cq + b.cnc) := by omega
    exact Outcome.ok ⟨h, hh, le_rfl, rfl, hlo.1, hlo.2.1, hlo.2.2, id, fun hzero => absurd hzero hmove.1⟩
  rename_i hgrow
  rcases hh with he | ⟨pre, k, post, stale, hr⟩
  · exact absurd he.nc hmove.1
  refine Outcome.bind (flush_spec h hr (.inr hmove.1)) ?_
  rintro ⟨d', b'⟩ ⟨hsince, hc, hcq, hcbi, hnc, haddr, real, hf, hnext⟩
  dsimp only at hsince hc hcq hcbi hnc haddr hf
  have hreal : total real = b.nc := by rw [← hf.len, ← hf.nc, hnc]
  have hsound : ∀ k ∈ real, Sound k := fun k hk => hsince.sound k (by rw [hf.bl]; exact mem_append_left _ hk)
  -- where the search starts
  obtain ⟨i, hi⟩ : ∃ i, (if q0 < b'.cq then 0 else b'.cbi) = i := ⟨_, rfl⟩
  have hstart : i < real.length ∧ (if q0 < b'.cq then 0 else b'.cq) = total (real.take i) ∧ total (real.take i) ≤ q0 := by
    by_cases hlt : q0 < b'.cq
    · rw [if_pos hlt] at hi ⊢
      rw [← hi, take_zero, total_nil]
      refine ⟨?_, rfl, Nat.zero_le _⟩
      refine length_pos_iff.2 ?_
      rintro rfl
      exact hmove.1 hreal.symm
    rw [if_neg hlt] at hi ⊢
    rw [← hi, ← hf.cq]
    refine ⟨?_, rfl, Nat.not_lt.1 hlt⟩
    by_cases hzero : b.cnc = 0
    · refine Nat.lt_of_le_of_ne hf.cbi ?_
      intro he
      have hall := hf.cq
      rw [he, take_length, hreal] at hall
      refine hgrow ⟨by omega, by omega, ?_⟩
      rw [hzero]
      decide
    · omega
  obtain ⟨hilt, hiq, hile⟩ := hstart
  have hrest : real.drop i ≠ [] := by
    intro he
    have := drop_eq_nil_iff.1 he
    omega
  have hlen : (real.take i).length = i := length_take_of_le (Nat.le_of_lt hilt)
  have hfind := findblock_spec q0 stale (real.drop i) (real.take i) hrest
    (fun k hk => hsound k (mem_of_mem_drop hk)) hile (by rw [take_append_drop, hreal]; exact hq)
  rw [take_append_drop, hreal, hlen, ← hnc] at hfind
  obtain ⟨pre', k', post', hsplit, hfind, hlo, hhi, hin⟩ := hfind
  have hdrop : b'.bl.drop i = real.drop i ++ stale := by
    rw [hf.bl, drop_append_of_le_length (Nat.le_of_lt hilt)]
  have hmem : k' ∈ real := by
    rw [hsplit]
    exact mem_append_right _ mem_cons_self
  have hread := diskread_spec (hsound k' hmem) (hf.written k' hmem)
  dsimp only
  rw [hi, hiq, hdrop, hfind]
  change Gives _ (diskread d' k' k'.n >>= _)
  rw [hread]
  have hcontent : (content d' k').length = k'.n := length_content d' k'
  have hrep : Rep d' { b' with cbi := pre'.length, cq := total pre', c := content d' k' } text pre' k' post' stale := by
    refine ⟨?_, rfl, rfl, ?_, hf.nc, ?_, ?_, ?_, ?_⟩
    · rw [hf.bl, hsplit, append_assoc]
      rfl
    · change (content d' k').length ≤ _
      rw [hcontent]
      exact (hsound k' hmem).2
    · change text.length = total pre' + (content d' k').length + total post'
      rw [hf.len, hsplit, total_append, total_cons, hcontent, Nat.add_assoc]
    · intro j hj
      refine hf.written j ?_
      rw [hsplit]
      rcases mem_append.1 hj with hj | hj
      · exact mem_append_left _ hj
      · exact mem_append_right _ (mem_cons_of_mem _ hj)
    · exact fun _ => .inr ⟨hcontent.symm, hf.written k' hmem, fun _ => rfl⟩
    · intro hle
      rw [hf.text hle, hsplit, contents_append, contents_cons, append_assoc]
  refine Outcome.ok ⟨hsince, .inr ⟨pre', k', post', stale, hrep⟩, haddr, hnc, hlo, ?_, ?_, ?_, fun hzero => absurd hzero hmove.1⟩
  · change q0 ≤ total pre' + (content d' k').length
    rw [hcontent]
    exact hhi
  · change q0 < b'.nc → q0 < total pre' + (content d' k').length
    rw [hcontent]
    exact hin
  · exact fun hsnug => hrep.snug.2 (hr.snug.1 hsnug)

end

end Plan9.Acme
