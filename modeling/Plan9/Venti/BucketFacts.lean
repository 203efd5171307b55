/-
The buckets of the index are maps, and the loop of `icachewritesect` updates them.

An entry's place in the order is a number, the bytes of its score followed by its type;
that of what is looked for is another, and the search is bisection on them. A bucket
strictly in order has each key once, so it is a map from scores and types to addresses:
an entry that is put over one with its key, or in front of the first greater one, is an update of it.
-/
import Mathlib.Data.Nat.Bitwise
import Plan9.Venti.Bucket

namespace Plan9.Venti.Bucket

open List

/-! ## Bytes as numbers -/

theorem leNat_append : ∀ as bs : List UInt8, Bytes.leNat (as ++ bs) = Bytes.leNat as + 256 ^ as.length * Bytes.leNat bs
  | [], bs => by simp [Bytes.leNat]
  | a :: as, bs => by
    rw [cons_append, Bytes.leNat, Bytes.leNat, leNat_append as bs, length_cons, Nat.pow_succ]
    rw [Nat.mul_add, Nat.mul_comm (256 ^ as.length) 256, Nat.mul_assoc]
    omega

theorem getBE_cons (b : UInt8) (bs : List UInt8) : getBE (b :: bs) = b.toNat * 256 ^ bs.length + getBE bs := by
  unfold getBE
  rw [reverse_cons, leNat_append, length_reverse, Nat.add_comm, Nat.mul_comm]
  simp [Bytes.leNat]

theorem getBE_lt (bs : List UInt8) : getBE bs < 256 ^ bs.length := by
  have := Bytes.leNat_lt bs.reverse
  rwa [length_reverse] at this

theorem getBE_cons_lt {a b : UInt8} {as bs : List UInt8} (hlen : as.length = bs.length) (h : a < b) :
    getBE (a :: as) < getBE (b :: bs) := by
  have hlt := getBE_lt as
  have hab : a.toNat + 1 ≤ b.toNat := UInt8.lt_iff_toNat_lt.1 h
  rw [getBE_cons, getBE_cons, ← hlen]
  have hmul := Nat.mul_le_mul_right (256 ^ as.length) hab
  rw [Nat.add_mul, Nat.one_mul] at hmul
  omega

theorem getBE_inj {as bs : List UInt8} (hlen : as.length = bs.length) (h : getBE as = getBE bs) : as = bs := by
  have hlen' : as.reverse.length = bs.reverse.length := by rw [length_reverse, length_reverse, hlen]
  have heq : as.reverse = bs.reverse := by
    rw [← Bytes.leBytes_leNat as.reverse, ← Bytes.leBytes_leNat bs.reverse, hlen']
    exact congrArg _ h
  exact reverse_injective heq

theorem getBE_u16put {v : Nat} (h : v < 2 ^ 16) : getBE (u16put v) = v := by
  simp only [u16put, getBE_cons, length_cons, length_nil, UInt8.toNat_ofNat']
  rw [show getBE [] = 0 from rfl]
  omega

theorem getBE_u32put {v : Nat} (h : v < 2 ^ 32) : getBE (u32put v) = v := by
  simp only [u32put, getBE_cons, length_cons, length_nil, UInt8.toNat_ofNat']
  rw [show getBE [] = 0 from rfl]
  omega

theorem getBE_u64put {v : Nat} (h : v < 2 ^ 64) : getBE (u64put v) = v := by
  simp only [u64put, u32put, cons_append, nil_append, getBE_cons, length_cons, length_nil,
    UInt8.toNat_ofNat']
  rw [show getBE [] = 0 from rfl]
  omega

/-! ## Entries in order -/

/-- The place in the order: the score, then the type. -/
def rank (r : List UInt8) : Nat := getBE (r.take vtScoreSize) * 256 + (r.getD iEntryTypeOff 0).toNat

def keyOf (r : List UInt8) : List UInt8 × Nat := (r.take vtScoreSize, (r.getD iEntryTypeOff 0).toNat)

theorem keyOf_eq_iff {r r' : List UInt8} (hr : r.length = iEntrySize) (hr' : r'.length = iEntrySize) :
    keyOf r = keyOf r' ↔ rank r = rank r' := by
  have h1 := (r.getD iEntryTypeOff 0).toNat_lt
  have h2 := (r'.getD iEntryTypeOff 0).toNat_lt
  unfold keyOf rank
  rw [Prod.mk.injEq]
  constructor
  · rintro ⟨hs, ht⟩
    rw [hs, ht]
  intro heq
  have hlen : (r.take vtScoreSize).length = (r'.take vtScoreSize).length := by
    rw [length_take, length_take, hr, hr']
  exact ⟨getBE_inj hlen (by omega), by omega⟩

theorem bytecmp_lt_iff : ∀ as bs : List UInt8, as.length = bs.length →
    (bytecmp as bs < 0 ↔ getBE as < getBE bs) ∧ (bytecmp as bs = 0 ↔ getBE as = getBE bs)
  | [], [], _ => by simp [bytecmp]
  | [], _ :: _, h => nomatch h
  | _ :: _, [], h => nomatch h
  | a :: as, b :: bs, h => by
    have hlen : as.length = bs.length := Nat.succ.inj h
    have ih := bytecmp_lt_iff as bs hlen
    rw [bytecmp]
    by_cases hab : a = b
    · subst hab
      rw [if_neg (by simp), getBE_cons, getBE_cons, hlen, Nat.add_lt_add_iff_left, Nat.add_left_cancel_iff]
      exact ih
    rw [if_pos hab]
    by_cases hlt : a < b
    · have := getBE_cons_lt hlen hlt
      rw [if_pos hlt]
      omega
    have hgt : b < a := UInt8.lt_of_le_of_ne (UInt8.not_lt.1 hlt) (Ne.symm hab)
    have := getBE_cons_lt hlen.symm hgt
    rw [if_neg hlt]
    omega

theorem ientrycmp_lt_iff {r r' : List UInt8} (hr : r.length = iEntrySize) (hr' : r'.length = iEntrySize) :
    ientrycmp r r' < 0 ↔ rank r < rank r' := by
  have hlen : (r.take vtScoreSize).length = (r'.take vtScoreSize).length := by
    rw [length_take, length_take, hr, hr']
  obtain ⟨_, heq⟩ := bytecmp_lt_iff _ _ hlen
  have h1 := (r.getD iEntryTypeOff 0).toNat_lt
  have h2 := (r'.getD iEntryTypeOff 0).toNat_lt
  unfold ientrycmp rank
  dsimp only
  generalize r.getD iEntryTypeOff 0 = v1 at h1 ⊢
  generalize r'.getD iEntryTypeOff 0 = v2 at h2 ⊢
  by_cases hc : bytecmp (r.take vtScoreSize) (r'.take vtScoreSize) ≠ 0
  · omega
  have hs := heq.1 (Decidable.not_not.1 hc)
  rw [if_neg hc, hs]
  by_cases hv : v1 = v2
  · rw [if_neg (by simpa using hv), hv]
    omega
  rw [if_pos hv]
  by_cases hvlt : v1 < v2
  · have := UInt8.lt_iff_toNat_lt.1 hvlt
    rw [if_pos hvlt]
    omega
  · have := UInt8.le_iff_toNat_le.1 (UInt8.not_lt.1 hvlt)
    rw [if_neg hvlt]
    omega

/-! ## Looking -/

/-- Entry `i`. -/
def record (buf : Buf) (data i : Nat) : List UInt8 := Memory.load buf (data + i * iEntrySize) iEntrySize

def records (buf : Buf) (data n : Nat) : List (List UInt8) := (List.range n).map (record buf data)

/-- Strictly in the order of `ientrycmp`. -/
def Strict (rs : List (List UInt8)) : Prop := rs.Pairwise fun r r' => ientrycmp r r' < 0

section

variable {buf : Buf} {data n : Nat} {score : List UInt8}

theorem length_record (buf : Buf) (data i : Nat) : (record buf data i).length = iEntrySize := Memory.length_load

theorem length_records (buf : Buf) (data n : Nat) : (records buf data n).length = n := by simp [records]

theorem getElem_records {i : Nat} (h : i < (records buf data n).length) : (records buf data n)[i] = record buf data i := by
  simp [records]

theorem mem_records {r : List UInt8} : r ∈ records buf data n ↔ ∃ i < n, record buf data i = r := by
  simp [records]

theorem Strict.rank_lt (h : Strict (records buf data n)) {i j : Nat} (hij : i < j) (hj : j < n) :
    rank (record buf data i) < rank (record buf data j) := by
  have hi' : i < (records buf data n).length := by rw [length_records]; omega
  have hj' : j < (records buf data n).length := by rw [length_records]; exact hj
  have hlt := pairwise_iff_getElem.1 h i j hi' hj' hij
  rw [getElem_records, getElem_records] at hlt
  exact (ientrycmp_lt_iff (length_record ..) (length_record ..)).1 hlt

theorem take_record (buf : Buf) (data i : Nat) :
    (record buf data i).take vtScoreSize = Memory.load buf (data + i * iEntrySize) vtScoreSize := by
  rfl

theorem type_record (buf : Buf) (data i : Nat) :
    (record buf data i).getD iEntryTypeOff 0 = buf (data + i * iEntrySize + iEntryTypeOff) := by
  rw [getD_eq_getElem?_getD, record, Memory.getElem?_load (by decide), Option.getD_some]

theorem compare_add (k a b : Nat) : compare (k + a) (k + b) = compare a b := by
  rcases Nat.lt_trichotomy a b with h | h | h
  · rw [Nat.compare_eq_lt.2 h, Nat.compare_eq_lt.2 (by omega)]
  · rw [Nat.compare_eq_eq.2 h, Nat.compare_eq_eq.2 (by omega)]
  · rw [Nat.compare_eq_gt.2 h, Nat.compare_eq_gt.2 (by omega)]

theorem scoreLoop_eq (buf : Buf) : ∀ (score : List UInt8) (p : Nat),
    scoreLoop buf score p = compare (getBE score) (getBE (Memory.load buf p score.length))
  | [], p => by rw [scoreLoop]; rfl
  | c :: score, p => by
    have hload : Memory.load buf p (c :: score).length = buf p :: Memory.load buf (p + 1) score.length := by
      rw [length_cons, Nat.add_comm, Memory.load_add]
      rfl
    have hlen : score.length = (Memory.load buf (p + 1) score.length).length := Memory.length_load.symm
    rw [scoreLoop, hload]
    by_cases hc : c = buf p
    · rw [if_neg (by simpa using hc), scoreLoop_eq buf score (p + 1), getBE_cons, getBE_cons, ← hc, ← hlen]
      exact (compare_add _ _ _).symm
    rw [if_pos hc]
    by_cases hgt : c > buf p
    · rw [if_pos hgt, eq_comm, Nat.compare_eq_gt]
      exact getBE_cons_lt hlen.symm hgt
    · have hlt : c < buf p := UInt8.lt_of_le_of_ne (UInt8.not_lt.1 hgt) hc
      rw [if_neg hgt, eq_comm, Nat.compare_eq_lt]
      exact getBE_cons_lt hlen hlt

theorem probe_rank (hs : score.length = vtScoreSize) {type : Nat} (ht : type < 256) (m : Nat) :
    probe score type buf data m = compare (getBE score * 256 + type) (rank (record buf data m)) := by
  have hcc := (buf (data + m * iEntrySize + iEntryTypeOff)).toNat_lt
  unfold probe rank
  dsimp only
  rw [Int.toNat_natCast, scoreLoop_eq, hs, take_record, type_record]
  generalize (buf (data + m * iEntrySize + iEntryTypeOff)).toNat = cc at hcc
  generalize getBE (Memory.load buf (data + m * iEntrySize) vtScoreSize) = sc
  rcases Nat.lt_trichotomy (getBE score) sc with h | h | h
  · rw [Nat.compare_eq_lt.2 h, Nat.compare_eq_lt.2 (by omega)]
  · rw [Nat.compare_eq_eq.2 h, h, compare_add]
    rcases Nat.lt_trichotomy type cc with hc | hc | hc
    · rw [if_pos (by omega), if_neg (by omega), Nat.compare_eq_lt.2 hc]
    · rw [if_neg (by omega), Nat.compare_eq_eq.2 hc]
    · rw [if_pos (by omega), if_pos (by omega), Nat.compare_eq_gt.2 hc]
  · rw [Nat.compare_eq_gt.2 h, Nat.compare_eq_gt.2 (by omega)]

theorem probe_any (hs : score.length = vtScoreSize) (m : Nat) :
    probe score (-1) buf data m = compare (getBE score) (getBE ((record buf data m).take vtScoreSize)) := by
  unfold probe
  dsimp only
  rw [Int.toNat_natCast, scoreLoop_eq, hs, take_record]
  generalize getBE (Memory.load buf (data + m * iEntrySize) vtScoreSize) = sc
  rcases Nat.lt_trichotomy (getBE score) sc with h | h | h
  · rw [Nat.compare_eq_lt.2 h]
  · rw [Nat.compare_eq_eq.2 h]
    rw [if_neg (by omega)]
  · rw [Nat.compare_eq_gt.2 h]

/-- An entry that is looked for: any of the score for the type -1. -/
def Matches (score : List UInt8) (otype : Int) (r : List UInt8) : Prop :=
  r.take vtScoreSize = score ∧ (otype = -1 ∨ ((r.getD iEntryTypeOff 0).toNat : Int) = looktype otype)

theorem looktype_of_ne {otype : Int} (h : otype ≠ -1) : ∃ type : Nat, type < 256 ∧ looktype otype = type := by
  refine ⟨vttodisktype (otype % 2 ^ 32).toNat, vttodisktype_lt _, ?_⟩
  rw [looktype, if_neg h]

/-- How entry `m` compares with what is looked for, in order: before it, it, or after it. -/
theorem probe_order (h : Strict (records buf data n)) (hs : score.length = vtScoreSize) (otype : Int) :
    (∀ i j : Nat, i ≤ j → j < n → probe score (looktype otype) buf data j = .gt → probe score (looktype otype) buf data i = .gt) ∧
      (∀ i j : Nat, i ≤ j → j < n → probe score (looktype otype) buf data i = .lt → probe score (looktype otype) buf data j = .lt) ∧
      ∀ m : Nat, probe score (looktype otype) buf data m = .eq ↔ Matches score otype (record buf data m) := by
  have hle : ∀ i j : Nat, i ≤ j → j < n → rank (record buf data i) ≤ rank (record buf data j) := fun i j hij hj => by
    rcases Nat.lt_or_eq_of_le hij with hlt | heq
    · exact Nat.le_of_lt (h.rank_lt hlt hj)
    · rw [heq]
  have hlen : ∀ m, score.length = ((record buf data m).take vtScoreSize).length := fun m => by
    rw [hs, length_take, length_record]
    rfl
  by_cases hany : otype = -1
  · rw [show looktype otype = -1 from if_pos hany]
    have hscore : ∀ i j : Nat, i ≤ j → j < n →
        getBE ((record buf data i).take vtScoreSize) ≤ getBE ((record buf data j).take vtScoreSize) := fun i j hij hj => by
      have := hle i j hij hj
      have h2 := ((record buf data j).getD iEntryTypeOff 0).toNat_lt
      unfold rank at this
      omega
    refine ⟨fun i j hij hj hgt => ?_, fun i j hij hj hlt => ?_, fun m => ?_⟩
    · rw [probe_any hs, Nat.compare_eq_gt] at hgt ⊢
      have := hscore i j hij hj
      omega
    · rw [probe_any hs, Nat.compare_eq_lt] at hlt ⊢
      have := hscore i j hij hj
      omega
    · rw [probe_any hs, Nat.compare_eq_eq, Matches]
      exact ⟨fun heq => ⟨(getBE_inj (hlen m) heq).symm, .inl hany⟩, fun ⟨heq, _⟩ => by rw [heq]⟩
  obtain ⟨_, ht, hl⟩ := looktype_of_ne hany
  rw [hl]
  refine ⟨fun i j hij hj hgt => ?_, fun i j hij hj hlt => ?_, fun m => ?_⟩
  · rw [probe_rank hs ht, Nat.compare_eq_gt] at hgt ⊢
    have := hle i j hij hj
    omega
  · rw [probe_rank hs ht, Nat.compare_eq_lt] at hlt ⊢
    have := hle i j hij hj
    omega
  rw [probe_rank hs ht, Nat.compare_eq_eq, Matches, hl]
  have hcc := ((record buf data m).getD iEntryTypeOff 0).toNat_lt
  unfold rank
  constructor
  · intro heq
    exact ⟨(getBE_inj (hlen m) (by omega)).symm, .inr (by omega)⟩
  · rintro ⟨heq, _⟩
    rw [heq]
    omega

end

/-! ## The offset and its low bit -/

theorem lor_one_of_even (m : Nat) : m * iEntrySize ||| 1 = m * iEntrySize + 1 := by
  have := Nat.two_pow_add_eq_or_of_lt (i := 1) (b := 1) (by decide) (m * 19)
  rw [show m * iEntrySize = 2 ^ 1 * (m * 19) by rw [show iEntrySize = 38 from rfl]; omega]
  exact this.symm

theorem land_one_offset (m : Nat) : m * iEntrySize &&& 1 = 0 := by
  rw [Nat.and_one_is_mod, show iEntrySize = 38 from rfl]
  omega

theorem land_one_found (m : Nat) : (m * iEntrySize + 1) &&& 1 = 1 := by
  rw [Nat.and_one_is_mod, show iEntrySize = 38 from rfl]
  omega

theorem xor_one_found (m : Nat) : (m * iEntrySize + 1) ^^^ 1 = m * iEntrySize := by
  have heven : Even (m * iEntrySize) := ⟨m * 19, by rw [show iEntrySize = 38 from rfl]; omega⟩
  rw [Nat.xor_one_of_odd heven.add_one, Nat.add_sub_cancel]

theorem bucklook_range (score : List UInt8) (otype : Int) (buf : Buf) (data n : Nat) :
    (∃ m < n, bucklook score otype buf data n = m * iEntrySize + 1) ∨ ∃ p ≤ n, bucklook score otype buf data n = p * iEntrySize := by
  have hrange := Bisect.search_range (probe score (looktype otype) buf data) (l := 0) (r := (n : Int) - 1) (by omega)
  unfold bucklook
  rcases hsearch : Bisect.search (probe score (looktype otype) buf data) 0 (n - 1) with ⟨m, _ | _⟩
  · rw [hsearch] at hrange
    exact .inr ⟨m.toNat, by dsimp only at hrange; omega, rfl⟩
  · rw [hsearch] at hrange
    exact .inl ⟨m.toNat, by have := hrange.2.2 rfl; dsimp only at hrange this; omega, lor_one_of_even _⟩

section

variable {buf : Buf} {data n : Nat} {score : List UInt8}

theorem bucklook_cases (h : Strict (records buf data n)) (hs : score.length = vtScoreSize) (otype : Int) :
    (∃ m < n, bucklook score otype buf data n = m * iEntrySize + 1 ∧ Matches score otype (record buf data m)) ∨
      ∃ p ≤ n, bucklook score otype buf data n = p * iEntrySize ∧
        (∀ i : Nat, i < p → probe score (looktype otype) buf data i = .gt) ∧
          ∀ i : Nat, p ≤ i → i < n → probe score (looktype otype) buf data i = .lt := by
  obtain ⟨hgt, hlt, heq⟩ := probe_order h hs otype
  have hfound : Bisect.Found (probe score (looktype otype) buf data) 0 (n - 1) _ := Bisect.search_found (by omega)
    (fun i j hi hij hj h => by
      obtain ⟨i, rfl⟩ := Int.eq_ofNat_of_zero_le hi
      obtain ⟨j, rfl⟩ := Int.eq_ofNat_of_zero_le (show 0 ≤ j by omega)
      exact hgt i j (by omega) (by omega) h)
    fun i j hi hij hj h => by
      obtain ⟨i, rfl⟩ := Int.eq_ofNat_of_zero_le hi
      obtain ⟨j, rfl⟩ := Int.eq_ofNat_of_zero_le (show 0 ≤ j by omega)
      exact hlt i j (by omega) (by omega) h
  unfold bucklook
  rcases hsearch : Bisect.search (probe score (looktype otype) buf data) 0 (n - 1) with ⟨m, _ | _⟩
  · rw [hsearch] at hfound
    obtain ⟨hm, hmn, hbefore, hafter⟩ := hfound
    exact .inr ⟨m.toNat, by omega, rfl, fun i hi => hbefore i (by omega) (by omega), fun i hi hin => hafter i (by omega) (by omega)⟩
  rw [hsearch] at hfound
  obtain ⟨hm, hmn, hcmp⟩ := hfound
  obtain ⟨m, rfl⟩ := Int.eq_ofNat_of_zero_le hm
  exact .inl ⟨m, by omega, lor_one_of_even m, (heq m).1 hcmp⟩

theorem bucklook_finds (h : Strict (records buf data n)) (hs : score.length = vtScoreSize) (otype : Int) :
    (bucklook score otype buf data n &&& 1 ≠ 0 ↔ ∃ r ∈ records buf data n, Matches score otype r) ∧
      (bucklook score otype buf data n &&& 1 ≠ 0 → ∃ m < n,
        bucklook score otype buf data n ^^^ 1 = m * iEntrySize ∧ Matches score otype (record buf data m)) := by
  rcases bucklook_cases h hs otype with ⟨m, hm, hlook, hmatch⟩ | ⟨p, -, hlook, hbefore, hafter⟩
  · rw [hlook, land_one_found, xor_one_found]
    exact ⟨iff_of_true (by decide) ⟨_, mem_records.2 ⟨m, hm, rfl⟩, hmatch⟩, fun _ => ⟨m, hm, rfl, hmatch⟩⟩
  have hnone : ¬∃ r ∈ records buf data n, Matches score otype r := by
    rintro ⟨r, hr, hmatch⟩
    obtain ⟨i, hi, rfl⟩ := mem_records.1 hr
    have heq := ((probe_order h hs otype).2.2 i).2 hmatch
    by_cases hip : i < p
    · exact nomatch (hbefore i hip).symm.trans heq
    · exact nomatch (hafter i (by omega) hi).symm.trans heq
  rw [hlook, land_one_offset]
  exact ⟨iff_of_false (by decide) hnone, fun hne => absurd rfl hne⟩

end

end Plan9.Venti.Bucket
