/-
What a file's tree holds, and what `sourceShrinkSize` leaves in it.

`fileRead` is `look` from the root. `sourceShrinkSize` writes only blocks on
the way to the new end, one at each level, and a label tells its level: so
writing a block changes nothing for the blocks below it (`Below`). A byte past
the new end reads zero afterwards if the blocks down to where its way parts from
the way to the end could be written, and reads as before if not.
-/
import Plan9.Fossil.Read

namespace Plan9.Fossil

open Function Memory

/-! ## Depth and span -/

theorem depthLoop_le {np : Nat} (hnp : 2 ≤ np) (s : Nat) : ∀ d, depthLoop np s ≤ d ↔ s ≤ np ^ d := by
  fun_induction depthLoop np s with
  | case1 s h ih =>
    intro d
    have hpos : 0 < np := by omega
    cases d with
    | zero =>
      simp only [Nat.pow_zero]
      omega
    | succ d =>
      rw [Nat.add_le_add_iff_right, ih d, Nat.pow_succ, ← Nat.lt_add_one_iff, Nat.div_lt_iff_lt_mul hpos, Nat.add_mul,
        Nat.one_mul]
      omega
  | case2 s h =>
    intro d
    have := Nat.one_le_pow d np (by omega)
    omega

theorem sizeToDepth_le {psize dsize : Nat} (hp : 256 ≤ psize) (hd : 256 ≤ dsize) (s d : Nat) :
    sizeToDepth s psize dsize ≤ d ↔ s ≤ dsize * (psize / vtScoreSize) ^ d := by
  unfold sizeToDepth
  have hnp : 2 ≤ psize / vtScoreSize := by
    unfold vtScoreSize
    omega
  rw [depthLoop_le hnp, ← Nat.lt_add_one_iff, Nat.div_lt_iff_lt_mul (by omega), Nat.add_mul, Nat.one_mul,
    Nat.mul_comm]
  omega

/-- An entry's shape: at least twelve scores in a pointer block. -/
structure Shape.Wide (g : Shape) : Prop where
  np : 2 ≤ g.np
  dsize : 0 < g.dsize
  base : g.base = 0 ∨ g.base = 8

variable {e : Entry} {g : Shape} {fs fs' : Fs} {i type x tag : Nat} {score : Score} {b : Block}

theorem Shape.Wide.span_pos (hg : g.Wide) (d : Nat) : 0 < g.span d :=
  Nat.mul_pos hg.dsize (Nat.pow_pos (by have := hg.np; omega))

theorem Shape.span_succ (g : Shape) (d : Nat) : g.span (d + 1) = g.span d * g.np := by
  unfold span
  rw [Nat.pow_succ, Nat.mul_assoc]

theorem Entry.Ok.wide (h : e.Ok) : e.shape.Wide where
  np := by
    have := h.psize
    change 2 ≤ e.psize / vtScoreSize
    unfold vtScoreSize
    omega
  dsize := by
    have := h.dsize
    change 0 < e.dsize
    omega
  base := by
    change (if e.dir then 8 else 0) = 0 ∨ (if e.dir then 8 else 0) = 8
    cases e.dir
    · exact Or.inl rfl
    · exact Or.inr rfl

/-! ## Reading -/

theorem indexLoop_spec {np : Nat} (hnp : 2 ≤ np) : ∀ k d bn, bn < np ^ d → d ≤ k →
    ∃ index, indexLoop np k bn = some index ∧ index.length ≤ d ∧ ∀ i, index.getD i 0 = bn / np ^ i % np := by
  intro k
  induction k with
  | zero =>
    intro d bn hlt hd
    have : d = 0 := by omega
    subst this
    have : bn = 0 := by
      rw [Nat.pow_zero] at hlt
      omega
    subst this
    exact ⟨[], rfl, Nat.le_refl 0, fun i => by simp⟩
  | succ k ih =>
    intro d bn hlt hd
    cases bn with
    | zero => exact ⟨[], rfl, Nat.zero_le d, fun i => by simp⟩
    | succ bn =>
      cases d with
      | zero =>
        rw [Nat.pow_zero] at hlt
        omega
      | succ d =>
        obtain ⟨index, hi, hlen, hget⟩ := ih d ((bn + 1) / np)
          ((Nat.div_lt_iff_lt_mul (by omega)).2 (by rwa [← Nat.pow_succ])) (by omega)
        refine ⟨(bn + 1) % np :: index, ?_, ?_, ?_⟩
        · simp only [indexLoop, hi]
        · rw [List.length_cons]
          omega
        intro i
        cases i with
        | zero => simp
        | succ i =>
          rw [List.getD_cons_succ, hget, Nat.div_div_eq_div_mul, Nat.pow_succ, Nat.mul_comm np]

theorem cacheGlobal_type_eq
    (h : fs.cacheGlobal score type tag = some b) : b.l.type = type := by
  unfold Fs.cacheGlobal at h
  cases hg : globalToLocal score with
  | some addr =>
    rw [hg] at h
    dsimp only at h
    unfold Fs.cacheLocalData at h
    cases hb : fs.block addr with
    | none =>
      rw [hb] at h
      cases h
    | some lb =>
      rw [hb] at h
      dsimp only at h
      split at h
      · cases h
      rename_i hne
      cases h
      by_contra hn
      exact hne (Or.inl hn)
  | none =>
    rw [hg] at h
    dsimp only at h
    split at h
    · cases h
      rfl
    split at h
    · cases h
    · cases h
      rfl

/-- A walk by the digits of a block number ends at the byte of the tree. -/
theorem walkDown_look {index : List Nat}
    (hindex : ∀ i, index.getD i 0 = x / g.dsize / g.np ^ i % g.np) : ∀ i b, b.l.type = g.base + i →
    (walkDown fs tag index i b).map (fun b => b.data (x % g.dsize)) =
      match i with
      | 0 => some (b.data (x % g.span 0))
      | i + 1 => look fs g tag i (pointer b.data (x % g.span (i + 1) / g.span i)) (x % g.span i) := by
  intro i
  induction i with
  | zero =>
    intro b _
    simp [walkDown, Shape.span]
  | succ i ih =>
    intro b hb
    have hdigit : x % g.span (i + 1) / g.span i = index.getD i 0 := by
      rw [Shape.span_succ, Nat.mod_mul_right_div_self, hindex, Nat.div_div_eq_div_mul]
      rfl
    unfold walkDown
    rw [show b.l.type - 1 = g.base + i by omega, ← hdigit]
    dsimp only
    cases i with
    | zero =>
      unfold look
      cases hc : fs.cacheGlobal (pointer b.data (x % g.span (0 + 1) / g.span 0)) (g.base + 0) tag with
      | none => rfl
      | some nb => exact ih nb (cacheGlobal_type_eq hc)
    | succ i =>
      unfold look
      cases hc : fs.cacheGlobal (pointer b.data (x % g.span (i + 1 + 1) / g.span (i + 1))) (g.base + (i + 1)) tag with
      | none => rfl
      | some nb =>
        rw [ih nb (cacheGlobal_type_eq hc)]
        rw [Nat.mod_mod_of_dvd x (Dvd.intro _ (g.span_succ i).symm)]

/-- **Reading a byte** is looking it up from the root. -/
theorem File.fileRead_look {f : File} (hg : f.ent.shape.Wide) (hgen : f.ent.gen = f.gen)
    (hx : x < f.ent.size) (hspan : x < f.ent.shape.span f.ent.depth) (hd : f.ent.depth ≤ 7) :
    f.fileRead x = look f.fs f.ent.shape f.ent.tag f.ent.depth f.ent.score x := by
  have hbn : x / f.ent.dsize < f.ent.np ^ f.ent.depth :=
    (Nat.div_lt_iff_lt_mul hg.dsize).2 (by rw [Nat.mul_comm]; exact hspan)
  obtain ⟨index, hi, hlen, hget⟩ := indexLoop_spec hg.np 7 f.ent.depth _ hbn hd
  have hwalk := fun b hb => @walkDown_look f.ent.shape f.fs x f.ent.tag index hget f.ent.depth b hb
  unfold File.fileRead
  rw [if_pos hx]
  unfold File.sourceBlock
  rw [if_neg (not_not_intro hgen), show indexLoop f.ent.np 7 (x / f.ent.dsize) = some index from hi]
  dsimp only
  rw [if_neg (by omega)]
  have htype : f.ent.entryType = f.ent.shape.base + f.ent.depth := rfl
  rw [htype]
  cases hd : f.ent.depth with
  | zero =>
    rw [hd] at hwalk
    unfold look
    cases hc : f.fs.cacheGlobal f.ent.score f.ent.shape.base f.ent.tag with
    | none => rfl
    | some b =>
      refine (hwalk b (cacheGlobal_type_eq hc)).trans ?_
      rw [Nat.mod_eq_of_lt (by rw [← hd]; exact hspan)]
      rfl
  | succ d =>
    rw [hd] at hwalk
    unfold look
    cases hc : f.fs.cacheGlobal f.ent.score (f.ent.shape.base + (d + 1)) f.ent.tag with
    | none => rfl
    | some b =>
      refine (hwalk b (cacheGlobal_type_eq hc)).trans ?_
      dsimp only
      rw [Nat.mod_eq_of_lt (by rw [← hd]; exact hspan)]

/-! ## Nothing -/

theorem globalToLocal_zero : globalToLocal vtzeroscore = none := by decide

theorem pointer_zeroData (h : level type ≠ 0) (i : Nat) : pointer (zeroData type) i = vtzeroscore := by
  unfold pointer zeroData
  rw [if_neg h]
  refine load_eq (l := vtzeroscore) fun j hj => ?_
  have hj' : j < vtScoreSize := hj
  rw [Nat.mul_add_mod', Nat.mod_eq_of_lt hj', List.getD_eq_getElem?_getD, List.getElem?_eq_getElem hj,
    Option.getD_some]

theorem look_zero (fs : Fs) (hg : g.Wide) (tag : Nat) : ∀ d, d ≤ 7 → ∀ x, look fs g tag d vtzeroscore x = some 0 := by
  have hzero : ∀ type, fs.cacheGlobal vtzeroscore type tag =
      some { addr := none, score := vtzeroscore, l := ⟨type, 0, 0⟩, data := zeroData type } := by
    intro type
    unfold Fs.cacheGlobal
    rw [globalToLocal_zero]
    rw [if_pos rfl]
  intro d
  induction d with
  | zero =>
    intro _ x
    unfold look
    rw [hzero]
    have : level g.base = 0 := by
      rcases hg.base with h | h <;> rw [h] <;> rfl
    simp [zeroData, this]
  | succ d ih =>
    intro hd x
    have : level (g.base + (d + 1)) ≠ 0 := by
      unfold level
      rcases hg.base with h | h <;> omega
    unfold look
    rw [hzero]
    dsimp only
    rw [pointer_zeroData this]
    exact ih (by omega) _

/-! ## Writing a block -/

/-- The two agree on the blocks whose label is at most `type`, and on what else a lookup depends on. -/
structure Below (type : Nat) (fs fs' : Fs) : Prop where
  ehi : fs'.ehi = fs.ehi
  venti : fs'.venti = fs.venti
  block : ∀ addr, fs'.block addr = fs.block addr ∨
    ∃ b b', fs.block addr = some b ∧ fs'.block addr = some b' ∧ type < b.l.type ∧ type < b'.l.type

theorem Below.cacheGlobal (h : Below type fs fs') {t : Nat} (ht : t ≤ type) (score : Score) (tag : Nat) :
    fs'.cacheGlobal score t tag = fs.cacheGlobal score t tag := by
  unfold Fs.cacheGlobal
  cases globalToLocal score with
  | none => rw [h.venti]
  | some addr =>
    dsimp only
    unfold Fs.cacheLocalData
    rcases h.block addr with heq | ⟨b, b', hb, hb', hlt, hlt'⟩
    · rw [heq]
    · rw [hb, hb']
      dsimp only
      rw [if_pos (Or.inl (by omega)), if_pos (Or.inl (by omega))]

theorem Below.look {d : Nat} (h : Below (g.base + d) fs fs') :
    ∀ d' ≤ d, ∀ score x, Fossil.look fs' g tag d' score x = Fossil.look fs g tag d' score x := by
  intro d'
  induction d' with
  | zero =>
    intro _ score x
    unfold Fossil.look
    rw [h.cacheGlobal (by omega)]
  | succ d' ih =>
    intro hd score x
    unfold Fossil.look
    rw [h.cacheGlobal (by omega)]
    cases fs.cacheGlobal score (g.base + (d' + 1)) tag with
    | none => rfl
    | some b => exact ih (by omega) _ _

theorem Below.writable {d : Nat} (h : Below (g.base + d) fs fs') :
    ∀ d' ≤ d, ∀ score r x, Writable fs' g tag d' score r x ↔ Writable fs g tag d' score r x := by
  intro d'
  induction d' with
  | zero =>
    intro _ score r x
    unfold Writable Current
    rw [h.cacheGlobal (by omega), h.ehi]
  | succ d' ih =>
    intro hd score r x
    unfold Writable Current
    simp only [h.cacheGlobal (show g.base + (d' + 1) ≤ g.base + d by omega), h.ehi, ih (by omega)]

theorem cacheGlobal_addr {addr : Nat}
    (h : fs.cacheGlobal score type tag = some b) (ha : b.addr = some addr) :
    globalToLocal score = some addr ∧ fs.block addr = some ⟨b.l, b.data⟩ ∧ b.l.tag = tag ∧ b.score = localToGlobal addr := by
  unfold Fs.cacheGlobal at h
  cases hg : globalToLocal score with
  | some a =>
    rw [hg] at h
    dsimp only at h
    unfold Fs.cacheLocalData at h
    cases hb : fs.block a with
    | none =>
      rw [hb] at h
      cases h
    | some lb =>
      rw [hb] at h
      dsimp only at h
      split at h
      · cases h
      rename_i hne
      cases h
      cases ha
      refine ⟨rfl, hb, ?_, rfl⟩
      by_contra hn
      exact hne (Or.inr hn)
  | none =>
    rw [hg] at h
    dsimp only at h
    split at h
    · cases h
      cases ha
    split at h
    · cases h
    · cases h
      cases ha

theorem write_block (fs : Fs) {addr : Nat} (ha : b.addr = some addr) (data : Nat → UInt8) :
    fs.write b data = { fs with block := update fs.block addr (some ⟨b.l, data⟩) } := by
  unfold Fs.write
  rw [ha]

theorem write_below {t : Nat} (h : fs.cacheGlobal score type tag = some b)
    (ht : t < type) (data : Nat → UInt8) : Below t fs (fs.write b data) := by
  cases ha : b.addr with
  | none =>
    have : fs.write b data = fs := by
      unfold Fs.write
      rw [ha]
    rw [this]
    exact ⟨rfl, rfl, fun _ => Or.inl rfl⟩
  | some addr =>
    obtain ⟨-, hb, -, -⟩ := cacheGlobal_addr h ha
    have htype := cacheGlobal_type_eq h
    rw [write_block fs ha]
    refine ⟨rfl, rfl, fun a => ?_⟩
    by_cases hne : a = addr
    · subst hne
      refine Or.inr ⟨_, ⟨b.l, data⟩, hb, update_self _ _ _, ?_, ?_⟩
      · rw [htype]
        exact ht
      · rw [htype]
        exact ht
    · exact Or.inl (update_of_ne hne _ _)

theorem write_self (h : fs.cacheGlobal score type tag = some b)
    (hc : b.addr ≠ none) (data : Nat → UInt8) :
    (fs.write b data).cacheGlobal score type tag = some { b with data := data } := by
  obtain ⟨addr, ha⟩ := Option.ne_none_iff_exists'.1 hc
  obtain ⟨hg, -, htag, hscore⟩ := cacheGlobal_addr h ha
  have hl : Local (fs.write b data) tag score type addr ⟨b.l, data⟩ := by
    refine ⟨hg, ?_, cacheGlobal_type_eq h, htag⟩
    rw [write_block fs ha]
    exact update_self _ _ _
  rw [cacheGlobal_local hl, ← hscore, ← ha]

/-! ## Erasing -/

theorem pointer_congr {data data' : Nat → UInt8}
    (h : ∀ x, x / vtScoreSize = i → data' x = data x) : pointer data' i = pointer data i := by
  apply load_congr
  intro x h1 h2
  apply h
  unfold vtScoreSize at *
  omega

theorem pointer_zeroPointers_of_lt (data : Nat → UInt8) {n k : Nat} (h : k < i) :
    pointer (zeroPointers data i n) k = pointer data k := by
  apply pointer_congr
  intro x hx
  unfold zeroPointers
  rw [if_neg (by omega)]

theorem pointer_zeroPointers (data : Nat → UInt8) {n k : Nat} (h : i ≤ k) (hk : k < n) :
    pointer (zeroPointers data i n) k = vtzeroscore := by
  have hz : pointer (zeroData 1) k = vtzeroscore := pointer_zeroData (by decide) k
  rw [← hz]
  apply pointer_congr
  intro x hx
  unfold zeroPointers
  rw [if_pos ⟨by omega, by omega⟩]
  rfl

/-- The loop writes no block of a level above the one it starts at. -/
theorem shrinkSizeLoop_above (e : Entry) : ∀ l (fs : Fs) score tag (b : Block) type size ptrsz,
    fs.cacheGlobal score type tag = some b → l ≤ type →
    let fs' := shrinkSizeLoop e l fs b type size ptrsz
    fs'.ehi = fs.ehi ∧ fs'.venti = fs.venti ∧
      ∀ addr lb, fs.block addr = some lb → type < lb.l.type → fs'.block addr = some lb := by
  have hwrite : ∀ (fs : Fs) score type tag b data, fs.cacheGlobal score type tag = some b →
      ∀ addr lb, fs.block addr = some lb → type < lb.l.type → (fs.write b data).block addr = some lb := by
    intro fs score type tag b data hb addr lb hlb hlt
    cases ha : b.addr with
    | none =>
      unfold Fs.write
      rw [ha]
      exact hlb
    | some a =>
      obtain ⟨-, hblk, -, -⟩ := cacheGlobal_addr hb ha
      rw [write_block fs ha]
      refine (update_of_ne ?_ _ _).trans hlb
      rintro rfl
      rw [hblk] at hlb
      cases hlb
      exact absurd (cacheGlobal_type_eq hb) (Nat.ne_of_gt hlt)
  have hkeeps : ∀ (fs : Fs) b data, (fs.write b data).ehi = fs.ehi ∧ (fs.write b data).venti = fs.venti := by
    intro fs b data
    unfold Fs.write
    cases b.addr with
    | none => exact ⟨rfl, rfl⟩
    | some a => exact ⟨rfl, rfl⟩
  intro l
  induction l with
  | zero =>
    intro fs score tag b type size ptrsz hb _
    unfold shrinkSizeLoop
    split
    · exact ⟨rfl, rfl, fun _ _ h _ => h⟩
    · split
      · exact ⟨(hkeeps _ _ _).1, (hkeeps _ _ _).2, hwrite _ _ _ _ _ _ hb⟩
      · exact ⟨rfl, rfl, fun _ _ h _ => h⟩
  | succ l ih =>
    intro fs score tag b type size ptrsz hb hle
    unfold shrinkSizeLoop
    dsimp only
    split
    · exact ⟨rfl, rfl, fun _ _ h _ => h⟩
    have hw := hwrite fs score type tag b (zeroPointers b.data ((size + ptrsz - 1) / ptrsz) e.np) hb
    obtain ⟨h1, h2⟩ := hkeeps fs b (zeroPointers b.data ((size + ptrsz - 1) / ptrsz) e.np)
    split
    · exact ⟨h1, h2, hw⟩
    split
    · exact ⟨h1, h2, hw⟩
    rename_i nb hnb
    obtain ⟨h3, h4, h5⟩ := ih _ _ _ nb (type - 1) (size % ptrsz) (ptrsz / e.np) hnb (by omega)
    refine ⟨h3.trans h1, h4.trans h2, fun addr lb hlb hlt => ?_⟩
    exact h5 addr lb (hw addr lb hlb hlt) (by omega)

theorem shrinkSizeLoop_root {l : Nat} {score' : Score} {tag' size ptrsz : Nat} {nb : Block}
    (hb : fs.cacheGlobal score (type + 1) tag = some b) (hc : b.addr ≠ none)
    (hnb : fs.cacheGlobal score' type tag' = some nb) (hl : l ≤ type) :
    (shrinkSizeLoop e l fs nb type size ptrsz).cacheGlobal score (type + 1) tag = some b := by
  obtain ⟨addr, ha⟩ := Option.ne_none_iff_exists'.1 hc
  obtain ⟨hg, hblk, htag, hscore⟩ := cacheGlobal_addr hb ha
  have htype := cacheGlobal_type_eq hb
  obtain ⟨-, -, hkeep⟩ := shrinkSizeLoop_above e l fs score' tag' nb type size ptrsz hnb hl
  have hblk' := hkeep addr _ hblk (by
    dsimp only
    omega)
  rw [cacheGlobal_local ⟨hg, hblk', htype, htag⟩, ← hscore, ← ha]

/-- Rounding up: the pointers from there on are cleared. -/
theorem ceil_le_iff {p r : Nat} (hp : 0 < p) (hrx : r ≤ x) :
    (r + p - 1) / p ≤ x / p ↔ r / p < x / p ∨ r % p = 0 := by
  have hle : r / p ≤ x / p := Nat.div_le_div_right hrx
  have hr := Nat.div_add_mod r p
  rw [← Nat.lt_add_one_iff, Nat.div_lt_iff_lt_mul hp, Nat.add_mul, Nat.one_mul]
  rcases Nat.lt_or_eq_of_le hle with hlt | heq
  · have hmul := Nat.mul_le_mul_left p hlt
    have hmod := Nat.mod_lt r hp
    rw [Nat.mul_succ] at hmul
    rw [Nat.mul_comm (x / p)]
    omega
  · rw [← heq, Nat.mul_comm (r / p)]
    omega

/-- **Erasing a tree** from byte `r` on: a byte past `r` is zero afterwards if the blocks to it could be
written, and what it was if not. -/
theorem shrinkSizeLoop_look (hg : g.Wide) (hnp : g.np = e.np) (hds : g.dsize = e.dsize)
    (htag : e.tag = tag) : ∀ d, d ≤ 7 → ∀ (fs : Fs) score b r x ptrsz, fs.cacheGlobal score (g.base + d) tag = some b →
      (∀ l, d = l + 1 → ptrsz = g.span l) → r ≤ x → x < g.span d →
      (Writable fs g tag d score r x →
        look (shrinkSizeLoop e d fs b (g.base + d) r ptrsz) g tag d score x = some 0) ∧
      (¬ Writable fs g tag d score r x →
        look (shrinkSizeLoop e d fs b (g.base + d) r ptrsz) g tag d score x = look fs g tag d score x) := by
  intro d
  induction d with
  | zero =>
    intro _ fs score b r x ptrsz hb _ hrx hx
    have hlt : x < e.dsize := by
      unfold Shape.span at hx
      rw [Nat.pow_zero, Nat.mul_one, hds] at hx
      exact hx
    unfold shrinkSizeLoop Writable
    rw [Nat.add_zero] at hb ⊢
    constructor
    · rintro ⟨b', hb', ⟨hloc, hepoch⟩, hbase⟩
      rw [hb] at hb'
      cases hb'
      rw [if_neg (by rintro (h | h) <;> contradiction), if_pos ⟨hbase, by omega⟩]
      unfold look
      rw [write_self hb hloc]
      have : r ≤ x ∧ x < r + (e.dsize - r) := by omega
      simp [memset, this]
    intro hw
    split
    · rfl
    rename_i hcur
    rw [if_neg]
    rintro ⟨hbase, -⟩
    push Not at hcur
    exact hw ⟨b, hb, hcur, hbase⟩
  | succ d ih =>
    intro hd fs score b r x ptrsz hb hptr hrx hx
    have hptr : ptrsz = g.span d := hptr d rfl
    subst hptr
    have hpos := hg.span_pos d
    have hi : x / g.span d < g.np := (Nat.div_lt_iff_lt_mul hpos).2 (by
      rw [Nat.mul_comm, ← Shape.span_succ]
      exact hx)
    have hle : r / g.span d ≤ x / g.span d := Nat.div_le_div_right hrx
    unfold shrinkSizeLoop
    dsimp only
    by_cases hcur : b.addr = none ∨ b.l.epoch ≠ fs.ehi
    · -- the block is not worth copying
      rw [if_pos hcur]
      refine ⟨?_, fun _ => rfl⟩
      rintro ⟨b', hb', hcur', -⟩
      rw [hb] at hb'
      cases hb'
      rcases hcur with h | h
      · exact absurd h hcur'.1
      · exact absurd hcur'.2 h
    rw [if_neg hcur]
    push Not at hcur
    obtain ⟨hloc, hepoch⟩ := hcur
    have hdata := write_self hb hloc (zeroPointers b.data ((r + g.span d - 1) / g.span d) e.np)
    have hbelow := write_below hb (show g.base + d < g.base + (d + 1) by omega)
      (zeroPointers b.data ((r + g.span d - 1) / g.span d) e.np)
    -- the pointer to `x` is cleared unless `x` is under the pointer to the rest of `r`
    generalize hfs1 : fs.write b (zeroPointers b.data ((r + g.span d - 1) / g.span d) e.np) = fs1 at *
    generalize hdata' : zeroPointers b.data ((r + g.span d - 1) / g.span d) e.np = data at *
    rw [show g.base + (d + 1) - 1 = g.base + d by omega]
    by_cases hclear : r / g.span d < x / g.span d ∨ r % g.span d = 0
    · have hzero : pointer data (x / g.span d) = vtzeroscore := by
        rw [← hdata']
        exact pointer_zeroPointers _ ((ceil_le_iff hpos hrx).2 hclear) (hnp ▸ hi)
      have hlook : ∀ fs' : Fs, fs'.cacheGlobal score (g.base + (d + 1)) tag = some { b with data := data } →
          look fs' g tag (d + 1) score x = some 0 := by
        intro fs' hfs'
        unfold look
        rw [hfs']
        dsimp only
        rw [hzero]
        exact look_zero fs' hg tag d (by omega) _
      have hwritable : Writable fs g tag (d + 1) score r x :=
        ⟨b, hb, ⟨hloc, hepoch⟩, hclear.imp_right Or.inl⟩
      refine ⟨fun _ => ?_, fun hn => absurd hwritable hn⟩
      split
      · exact hlook fs1 hdata
      split
      · exact hlook fs1 hdata
      · rename_i nb hnb
        exact hlook _ (shrinkSizeLoop_root hdata hloc hnb (by omega))
    have hkeep : pointer data (r / g.span d) = pointer b.data (r / g.span d) := by
      rw [← hdata']
      apply pointer_zeroPointers_of_lt
      by_contra hn
      have hsame := (ceil_le_iff hpos hrx).not.2 hclear
      omega
    push Not at hclear
    have hsame : x / g.span d = r / g.span d := by omega
    have hrx' : r % g.span d ≤ x % g.span d := by
      have h1 := Nat.div_add_mod r (g.span d)
      have h2 := Nat.div_add_mod x (g.span d)
      rw [hsame] at h2
      omega
    have hwritable : Writable fs g tag (d + 1) score r x ↔
        Writable fs1 g tag d (pointer b.data (r / g.span d)) (r % g.span d) (x % g.span d) := by
      rw [hbelow.writable d (Nat.le_refl d)]
      constructor
      · rintro ⟨b', hb', -, h | h | h⟩
        · omega
        · exact absurd h hclear.2
        · rw [hb] at hb'
          cases hb'
          exact h
      · intro h
        exact ⟨b, hb, ⟨hloc, hepoch⟩, Or.inr (Or.inr h)⟩
    have hlook : ∀ fs' : Fs, fs'.cacheGlobal score (g.base + (d + 1)) tag = some { b with data := data } →
        look fs' g tag (d + 1) score x = look fs' g tag d (pointer b.data (r / g.span d)) (x % g.span d) := by
      intro fs' hfs'
      conv => lhs; unfold look
      rw [hfs']
      dsimp only
      rw [hsame, hkeep]
    have hbefore : look fs g tag (d + 1) score x = look fs1 g tag d (pointer b.data (r / g.span d)) (x % g.span d) := by
      rw [hbelow.look d (Nat.le_refl d)]
      conv => lhs; unfold look
      rw [hb]
      rw [hsame]
    rw [if_neg hclear.2, hkeep, hwritable, hbefore, htag]
    cases hnb : fs1.cacheGlobal (pointer b.data (r / g.span d)) (g.base + d) tag with
    | none =>
      rw [hlook fs1 hdata]
      refine ⟨fun hw => ?_, fun _ => rfl⟩
      cases d with
      | zero =>
        obtain ⟨b', hb', -⟩ := hw
        rw [← Nat.add_zero g.base, hnb] at hb'
        cases hb'
      | succ d =>
        obtain ⟨b', hb', -⟩ := hw
        rw [hnb] at hb'
        cases hb'
    | some nb =>
      have hroot := @shrinkSizeLoop_root e fs1 (g.base + d) tag score _ d _ tag (r % g.span d) (g.span d / e.np)
        nb hdata hloc hnb (by omega)
      rw [hlook _ hroot]
      refine ih (by omega) fs1 _ nb _ _ _ hnb ?_ hrx' (Nat.mod_lt _ hpos)
      intro l hl
      rw [hl, Shape.span_succ, hnp, Nat.mul_div_cancel _ (by have := hg.np; omega)]

end Plan9.Fossil
