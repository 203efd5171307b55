/-
The loop of `icachewritesect` updates the buckets as maps (`Plan9.Venti.Bucket`).

`addEntry` writes one record: `packientry` over the one that was found, or in the gap that
the records from the place on leave by moving up. On the records of the bucket it is
`List.set` or an insertion, on the map that they are `Function.update`. `updatebuf_updates` is the
loop: what happens to the bucket at `p`, whichever buckets the entries of the chunk are for.
-/
import Plan9.Venti.BucketFacts

namespace Plan9.Venti.Bucket

open Function List

/-! ## Buckets as maps -/

abbrev Key := List UInt8 × Nat

/-- What the records are for: from scores and types on disk to addresses. -/
def mapOf (rs : List (List UInt8)) : Key → Option IAddr := fun k => (rs.find? fun r => keyOf r = k).map unpackientry

def IEntry.key (ie : IEntry) : Key := (ie.score, vttodisktype ie.ia.type)

/-- The address as it comes back from the disk. -/
def IEntry.onDisk (ie : IEntry) : IAddr := { ie.ia with type := vtfromdisktype (vttodisktype ie.ia.type) }

/-- An update of the map, where there is room: `b.2` is how many keys the map `b.1` has. -/
def putEntry (max : Nat) (b : (Key → Option IAddr) × Nat) (ie : IEntry) : (Key → Option IAddr) × Nat :=
  if (b.1 ie.key).isSome then (Function.update b.1 ie.key (some ie.onDisk), b.2)
  else if b.2 < max then (Function.update b.1 ie.key (some ie.onDisk), b.2 + 1)
  else b

/-- Room for the entry, or its key is there. -/
def HasRoom (max : Nat) (b : (Key → Option IAddr) × Nat) (ie : IEntry) : Prop := (b.1 ie.key).isSome ∨ b.2 < max

instance (max : Nat) (b : (Key → Option IAddr) × Nat) (ie : IEntry) : Decidable (HasRoom max b ie) :=
  inferInstanceAs (Decidable (_ ∨ _))

/-- The entries of the list that get in. -/
def kept (max : Nat) : List IEntry → (Key → Option IAddr) × Nat → List IEntry
  | [], _ => []
  | ie :: l, b => if HasRoom max b ie then ie :: kept max l (putEntry max b ie) else kept max l b

theorem putEntry_of_not_hasRoom {max : Nat} {b : (Key → Option IAddr) × Nat} {ie : IEntry} (h : ¬HasRoom max b ie) :
    putEntry max b ie = b := by
  rw [putEntry, if_neg fun hs => h (.inl hs), if_neg fun hlt => h (.inr hlt)]

section

variable {rs l1 l2 : List (List UInt8)} {r x : List UInt8}

theorem mapOf_isSome {k : Key} : (mapOf rs k).isSome ↔ ∃ r ∈ rs, keyOf r = k := by
  simp [mapOf]

theorem mapOf_cons_ne {k : Key} (h : keyOf x ≠ k) : mapOf (l1 ++ x :: l2) k = mapOf (l1 ++ l2) k := by
  unfold mapOf
  rw [find?_append, find?_append, find?_cons_of_neg (by simpa using h)]

theorem mapOf_cons_self (h : ∀ r ∈ l1, keyOf r ≠ keyOf x) : mapOf (l1 ++ x :: l2) (keyOf x) = some (unpackientry x) := by
  have hnone : l1.find? (fun r => keyOf r = keyOf x) = none := find?_eq_none.2 fun r hr => by simpa using h r hr
  unfold mapOf
  rw [find?_append, hnone, find?_cons_of_pos (by simp)]
  rfl

theorem mapOf_insert (h : ∀ r ∈ l1, keyOf r ≠ keyOf x) :
    mapOf (l1 ++ x :: l2) = update (mapOf (l1 ++ l2)) (keyOf x) (some (unpackientry x)) := by
  funext k
  by_cases hk : k = keyOf x
  · rw [hk, update_self, mapOf_cons_self h]
  · rw [update_of_ne hk, mapOf_cons_ne (Ne.symm hk)]

theorem mapOf_replace (h : ∀ r ∈ l1, keyOf r ≠ keyOf x) (hr : keyOf r = keyOf x) :
    mapOf (l1 ++ x :: l2) = update (mapOf (l1 ++ r :: l2)) (keyOf x) (some (unpackientry x)) := by
  funext k
  by_cases hk : k = keyOf x
  · rw [hk, update_self, mapOf_cons_self h]
  · rw [update_of_ne hk, mapOf_cons_ne (Ne.symm hk), mapOf_cons_ne (hr ▸ Ne.symm hk)]

theorem Strict.insert (h : Strict (l1 ++ l2)) (hbefore : ∀ r ∈ l1, ientrycmp r x < 0) (hafter : ∀ r ∈ l2, ientrycmp x r < 0) :
    Strict (l1 ++ x :: l2) := by
  obtain ⟨h1, h2, hcross⟩ := pairwise_append.1 h
  refine pairwise_append.2 ⟨h1, pairwise_cons.2 ⟨hafter, h2⟩, fun a ha b hb => ?_⟩
  rcases mem_cons.1 hb with rfl | hb
  · exact hbefore a ha
  · exact hcross a ha b hb

theorem Strict.replace (h : Strict (l1 ++ r :: l2)) (hlen : ∀ r' ∈ l1 ++ r :: l2, r'.length = iEntrySize)
    (hx : x.length = iEntrySize) (hrank : rank x = rank r) : Strict (l1 ++ x :: l2) := by
  have hr := hlen r (by simp)
  obtain ⟨h1, h2, hcross⟩ := pairwise_append.1 h
  obtain ⟨hafter, h2⟩ := pairwise_cons.1 h2
  refine Strict.insert (pairwise_append.2 ⟨h1, h2, fun a ha b hb => hcross a ha b (.tail _ hb)⟩) (fun a ha => ?_) fun b hb => ?_
  · have ha' := hlen a (by simp [ha])
    rw [ientrycmp_lt_iff ha' hx, hrank, ← ientrycmp_lt_iff ha' hr]
    exact hcross a ha r (.head _)
  · have hb' := hlen b (by simp [hb])
    rw [ientrycmp_lt_iff hx hb', hrank, ← ientrycmp_lt_iff hr hb']
    exact hafter b hb

end

/-! ## Packed entries -/

section

variable (ie : IEntry)

theorem length_packientry : (packientry ie).length = iEntrySize := by
  simp [packientry, u64put, u32put, u16put, ie.score_length, iEntrySize, vtScoreSize]

theorem take_packientry : (packientry ie).take vtScoreSize = ie.score := by
  unfold packientry
  rw [append_assoc, append_assoc, append_assoc, append_assoc, ← ie.score_length, take_left]

theorem keyOf_packientry : keyOf (packientry ie) = ie.key := by
  have hget : (packientry ie).getD iEntryTypeOff 0 = UInt8.ofNat (vttodisktype ie.ia.type) := by
    rw [getD_eq_getElem?_getD, packientry, getElem?_append_right (by simp [u64put, u32put, u16put, ie.score_length, iEntryTypeOff])]
    simp [u64put, u32put, u16put, ie.score_length, iEntryTypeOff]
  rw [keyOf, take_packientry, hget, UInt8.toNat_ofNat', Nat.mod_eq_of_lt (vttodisktype_lt _)]
  rfl

theorem drop_take_mid {pre f post r : List UInt8} {p k : Nat} (h : r = pre ++ (f ++ post)) (hp : p = pre.length) (hk : k = f.length) :
    (r.drop p).take k = f := by
  rw [h, hp, hk]
  exact Bytes.load_mid pre f post

theorem unpackientry_packientry : unpackientry (packientry ie) = ie.onDisk := by
  have hhead : (ie.score ++ u32put 0 ++ u16put 0).length = iEntryAddrOff := by
    simp [u32put, u16put, ie.score_length, iEntryAddrOff]
  have haddr : ((packientry ie).drop iEntryAddrOff).take 8 = u64put ie.ia.addr :=
    drop_take_mid (by rw [packientry, append_assoc, append_assoc]) hhead.symm rfl
  have hsize : ((packientry ie).drop (iEntryAddrOff + 8)).take 2 = u16put ie.ia.size :=
    drop_take_mid (by rw [packientry, append_assoc]) (by rw [length_append, hhead]; rfl) rfl
  have htype : (packientry ie).drop iEntryTypeOff = [UInt8.ofNat (vttodisktype ie.ia.type), UInt8.ofNat ie.ia.blocks] := by
    have hlen : (ie.score ++ u32put 0 ++ u16put 0 ++ u64put ie.ia.addr ++ u16put ie.ia.size).length = iEntryTypeOff := by
      rw [length_append, length_append, hhead]
      rfl
    rw [packientry, ← hlen, drop_left]
  have hget : ∀ i, (packientry ie).getD (iEntryTypeOff + i) 0 =
      [UInt8.ofNat (vttodisktype ie.ia.type), UInt8.ofNat ie.ia.blocks].getD i 0 := fun i => by
    rw [getD_eq_getElem?_getD, getD_eq_getElem?_getD, ← getElem?_drop, htype]
  have h0 : (packientry ie).getD iEntryTypeOff 0 = UInt8.ofNat (vttodisktype ie.ia.type) := hget 0
  have h1 : (packientry ie).getD (iEntryTypeOff + 1) 0 = UInt8.ofNat ie.ia.blocks := hget 1
  unfold unpackientry IEntry.onDisk
  rw [haddr, hsize, getBE_u64put ie.addr_lt, getBE_u16put ie.size_lt, h0, h1, UInt8.toNat_ofNat', UInt8.toNat_ofNat',
    Nat.mod_eq_of_lt (vttodisktype_lt _), Nat.mod_eq_of_lt ie.blocks_lt]

end

/-! ## Records after a write -/

section

variable {buf buf' : Buf} {data p k : Nat} {r : List UInt8}

theorem records_congr (h : ∀ x, data ≤ x → x < data + k * iEntrySize → buf' x = buf x) : records buf' data k = records buf data k := by
  apply map_congr_left
  intro i hi
  have hik : i + 1 ≤ k := mem_range.1 hi
  have hmul := Nat.mul_le_mul_right iEntrySize hik
  rw [Nat.add_mul, Nat.one_mul] at hmul
  exact Memory.load_congr fun x hx hx' => h x (by omega) (by omega)

theorem records_cut (buf : Buf) (data p k : Nat) :
    records buf data (p + k) = records buf data p ++ records buf (data + p * iEntrySize) k := by
  unfold records
  rw [range_add, map_append, map_map]
  refine congrArg _ (map_congr_left fun i _ => ?_)
  rw [Function.comp, record, record, Nat.add_mul, Nat.add_assoc]

theorem records_succ (buf : Buf) (data k : Nat) :
    records buf data (k + 1) = record buf data 0 :: records buf (data + iEntrySize) k := by
  rw [Nat.add_comm, records_cut, Nat.one_mul]
  rfl

theorem records_memmove {dst src : Nat} :
    records (Memory.memmove buf dst src (k * iEntrySize)) dst k = records buf src k := by
  apply map_congr_left
  intro i hi
  have hik : i + 1 ≤ k := mem_range.1 hi
  have hmul := Nat.mul_le_mul_right iEntrySize hik
  rw [Nat.add_mul, Nat.one_mul] at hmul
  unfold record Memory.load
  apply map_congr_left
  intro j hj
  rw [mem_range] at hj
  unfold Memory.memmove
  rw [if_pos (by omega)]
  exact congrArg buf (by omega)

theorem records_replace (hr : r.length = iEntrySize) :
    records (Memory.store buf (data + p * iEntrySize) r) data (p + (k + 1)) =
      records buf data p ++ r :: records buf (data + p * iEntrySize + iEntrySize) k := by
  rw [records_cut, records_succ, records_congr fun x _ hx => Memory.store_outside (.inl hx),
    records_congr fun x hx _ => Memory.store_outside (.inr (by omega))]
  refine congrArg _ (congrArg (· :: _) ?_)
  rw [record, Nat.zero_mul, Nat.add_zero, ← hr]
  exact Memory.load_store

theorem records_at (buf : Buf) (data p k : Nat) : records buf data (p + (k + 1)) =
    records buf data p ++ record buf data p :: records buf (data + p * iEntrySize + iEntrySize) k := by
  rw [records_cut, records_succ]
  refine congrArg _ (congrArg (· :: _) ?_)
  rw [record, record, Nat.zero_mul, Nat.add_zero]

theorem records_insert (hr : r.length = iEntrySize) :
    records (Memory.store (Memory.memmove buf (data + p * iEntrySize + iEntrySize) (data + p * iEntrySize) (k * iEntrySize))
        (data + p * iEntrySize) r) data (p + (k + 1)) =
      records buf data p ++ r :: records buf (data + p * iEntrySize) k := by
  rw [records_replace hr, records_memmove, records_congr fun x _ hx => Memory.memmove_outside (.inl (by omega))]

/-! ## The head of a bucket -/

theorem packibucket_outside (buf : Buf) {p n magic x : Nat} (h : x < p ∨ p + iBucketSize ≤ x) :
    packibucket buf p n magic x = buf x := by
  unfold packibucket
  have hlen : iBucketSize = 6 := rfl
  rw [Memory.store_outside (by simp only [u32put, length_cons, length_nil]; omega),
    Memory.store_outside (by simp only [u16put, length_cons, length_nil]; omega)]

theorem unpackibucket_packibucket (buf : Buf) (p : Nat) {n magic : Nat} (hn : n < 2 ^ 16) (hmagic : magic < 2 ^ 32) :
    unpackibucket (packibucket buf p n magic) p magic = n := by
  have hcount : Memory.load (packibucket buf p n magic) p 2 = u16put n := by
    unfold packibucket
    rw [Memory.load_congr fun x _ hx => Memory.store_outside (.inl hx)]
    exact Memory.load_store
  have hmag : Memory.load (packibucket buf p n magic) (p + 2) 4 = u32put magic := Memory.load_store
  unfold unpackibucket
  rw [hcount, hmag, getBE_u32put hmagic, getBE_u16put hn, if_neg fun h => h.2 rfl]

theorem unpackibucket_congr {magic : Nat} (h : ∀ x, p ≤ x → x < p + iBucketSize → buf' x = buf x) :
    unpackibucket buf' p magic = unpackibucket buf p magic := by
  have hlen : iBucketSize = 6 := rfl
  unfold unpackibucket
  rw [Memory.load_congr fun x hx hx' => h x (by omega) (by omega), Memory.load_congr fun x hx hx' => h x (by omega) (by omega)]

end

/-! ## An entry put in -/

section

variable {is : Sect} {ie : IEntry} {buf buf' : Buf} {p : Nat}

/-- A bucket at `p` that is not corrupt and has its entries in order. -/
def Ordered (is : Sect) (buf : Buf) (p : Nat) : Prop :=
  unpackibucket buf p is.bucketmagic ≤ is.buckmax ∧ Strict (records buf (p + iBucketSize) (unpackibucket buf p is.bucketmagic))

/-- The bucket as a map, and how many keys it has. -/
def bucketMap (is : Sect) (buf : Buf) (p : Nat) : (Key → Option IAddr) × Nat :=
  (mapOf (records buf (p + iBucketSize) (unpackibucket buf p is.bucketmagic)), unpackibucket buf p is.bucketmagic)

theorem Sect.buckmax_le (is : Sect) : is.buckmax * iEntrySize + iBucketSize ≤ is.blocksize := by
  have := Nat.div_mul_le_self (is.blocksize - iBucketSize) iEntrySize
  have := is.head
  unfold Sect.buckmax
  omega

theorem Sect.buckmax_lt (is : Sect) : is.buckmax + 1 < 2 ^ 16 := by
  have hmax := is.max
  have := is.buckmax_le
  have h : maxDiskBlock = 65536 := rfl
  rw [show iEntrySize = 38 from rfl] at this
  omega

theorem looktype_type (ie : IEntry) : looktype ie.ia.type = (vttodisktype ie.ia.type : Nat) := by
  have hlt := ie.type_lt
  have hmod : ((ie.ia.type : Int) % 2 ^ 32).toNat = ie.ia.type := by omega
  rw [looktype, if_neg (by omega), hmod]

/-- What is written stays in the block, whatever the bucket has. -/
theorem addEntry_outside (h : addEntry is ie p buf = some buf') {x : Nat} (hx : x < p ∨ p + is.blocksize ≤ x) : buf' x = buf x := by
  have hmax := is.buckmax_le
  have hlen := length_packientry ie
  unfold addEntry at h
  dsimp only at h
  by_cases hn : unpackibucket buf p is.bucketmagic > is.buckmax
  · rw [if_pos hn] at h
    cases h
  have hmul := Nat.mul_le_mul_right iEntrySize (Nat.le_of_not_gt hn)
  rw [if_neg hn] at h
  rcases bucklook_range ie.score ie.ia.type buf (p + iBucketSize) (unpackibucket buf p is.bucketmagic) with ⟨m, hm, hlook⟩ | ⟨m, hm, hlook⟩
  · have hmn := Nat.mul_le_mul_right iEntrySize hm
    rw [Nat.succ_mul] at hmn
    rw [hlook, land_one_found, xor_one_found, if_pos (by decide)] at h
    cases h
    rw [packibucket_outside _ (by omega), Memory.store_outside (by omega)]
  have hmn := Nat.mul_le_mul_right iEntrySize hm
  rw [hlook, land_one_offset, if_neg (by decide)] at h
  by_cases hroom : unpackibucket buf p is.bucketmagic < is.buckmax
  · have hroom' := Nat.mul_le_mul_right iEntrySize hroom
    rw [Nat.succ_mul] at hroom'
    rw [if_pos hroom] at h
    cases h
    rw [packibucket_outside _ (by omega), Memory.store_outside (by omega), Memory.memmove_outside (by omega)]
  · rw [if_neg hroom] at h
    cases h

theorem ordered_packibucket {n : Nat} (hn : n ≤ is.buckmax) (hs : Strict (records buf (p + iBucketSize) n)) :
    Ordered is (packibucket buf p n is.bucketmagic) p ∧
      bucketMap is (packibucket buf p n is.bucketmagic) p = (mapOf (records buf (p + iBucketSize) n), n) := by
  have hmax := is.buckmax_lt
  have hrec : records (packibucket buf p n is.bucketmagic) (p + iBucketSize) n = records buf (p + iBucketSize) n :=
    records_congr fun x hx _ => packibucket_outside buf (.inr hx)
  unfold Ordered bucketMap
  rw [unpackibucket_packibucket buf p (by omega) is.magic_lt, hrec]
  exact ⟨⟨hn, hs⟩, rfl⟩

theorem rank_packientry (ie : IEntry) : rank (packientry ie) = getBE ie.score * 256 + vttodisktype ie.ia.type := by
  have hkey : _ = ie.key := keyOf_packientry ie
  rw [keyOf, IEntry.key, Prod.mk.injEq] at hkey
  rw [rank, hkey.1, hkey.2]

theorem rank_ne_of_lt {r r' : List UInt8} (hr : r.length = iEntrySize) (hr' : r'.length = iEntrySize)
    (h : ientrycmp r r' < 0) : keyOf r ≠ keyOf r' := fun heq => by
  have := (ientrycmp_lt_iff hr hr').1 h
  have := (keyOf_eq_iff hr hr').1 heq
  omega

theorem length_of_mem {data n : Nat} {r : List UInt8} (h : r ∈ records buf data n) : r.length = iEntrySize := by
  obtain ⟨i, _, rfl⟩ := mem_records.1 h
  exact length_record buf data i

theorem replace_spec {data m k : Nat} (hs : Strict (records buf data (m + (k + 1))))
    (hrank : rank (packientry ie) = rank (record buf data m)) :
    Strict (records (Memory.store buf (data + m * iEntrySize) (packientry ie)) data (m + (k + 1))) ∧
      (mapOf (records buf data (m + (k + 1))) ie.key).isSome ∧
      mapOf (records (Memory.store buf (data + m * iEntrySize) (packientry ie)) data (m + (k + 1))) =
        update (mapOf (records buf data (m + (k + 1)))) ie.key (some ie.onDisk) := by
  have hx := length_packientry ie
  have hm := length_record buf data m
  have hkey : keyOf (record buf data m) = keyOf (packientry ie) := (keyOf_eq_iff hm hx).2 hrank.symm
  have hlen : ∀ r ∈ records buf data (m + (k + 1)), r.length = iEntrySize := fun r => length_of_mem
  rw [records_replace hx, ← keyOf_packientry ie, ← unpackientry_packientry ie]
  rw [records_at] at hs hlen ⊢
  have hbefore : ∀ r ∈ records buf data m, keyOf r ≠ keyOf (packientry ie) := fun r hr => by
    rw [← hkey]
    exact rank_ne_of_lt (length_of_mem hr) hm ((pairwise_append.1 hs).2.2 r hr _ (.head _))
  exact ⟨hs.replace hlen hx hrank, mapOf_isSome.2 ⟨_, by simp, hkey⟩, mapOf_replace hbefore hkey⟩

theorem insert_spec {data m k : Nat} (hs : Strict (records buf data (m + k)))
    (hbefore : ∀ i < m, rank (record buf data i) < rank (packientry ie))
    (hafter : ∀ i, m ≤ i → i < m + k → rank (packientry ie) < rank (record buf data i)) :
    Strict (records (Memory.store (Memory.memmove buf (data + m * iEntrySize + iEntrySize) (data + m * iEntrySize) (k * iEntrySize))
        (data + m * iEntrySize) (packientry ie)) data (m + (k + 1))) ∧
      ¬(mapOf (records buf data (m + k)) ie.key).isSome ∧
      mapOf (records (Memory.store (Memory.memmove buf (data + m * iEntrySize + iEntrySize) (data + m * iEntrySize) (k * iEntrySize))
          (data + m * iEntrySize) (packientry ie)) data (m + (k + 1))) =
        update (mapOf (records buf data (m + k))) ie.key (some ie.onDisk) := by
  have hx := length_packientry ie
  rw [records_insert hx, ← keyOf_packientry ie, ← unpackientry_packientry ie]
  have hlow : ∀ r ∈ records buf data m, ientrycmp r (packientry ie) < 0 := fun r hr => by
    obtain ⟨i, hi, rfl⟩ := mem_records.1 hr
    exact (ientrycmp_lt_iff (length_record ..) hx).2 (hbefore i hi)
  have hhigh : ∀ r ∈ records buf (data + m * iEntrySize) k, ientrycmp (packientry ie) r < 0 := fun r hr => by
    obtain ⟨i, hi, rfl⟩ := mem_records.1 hr
    have hrec : record buf (data + m * iEntrySize) i = record buf data (m + i) := by
      rw [record, record, Nat.add_mul, Nat.add_assoc]
    rw [hrec]
    exact (ientrycmp_lt_iff hx (length_record ..)).2 (hafter (m + i) (by omega) (by omega))
  rw [records_cut] at hs ⊢
  have hne : ∀ r ∈ records buf data m, keyOf r ≠ keyOf (packientry ie) := fun r hr =>
    rank_ne_of_lt (length_of_mem hr) hx (hlow r hr)
  refine ⟨hs.insert hlow hhigh, fun hsome => ?_, mapOf_insert hne⟩
  obtain ⟨r, hr, hkey⟩ := mapOf_isSome.1 hsome
  rcases mem_append.1 hr with hr | hr
  · exact hne r hr hkey
  · exact rank_ne_of_lt hx (length_of_mem hr) (hhigh r hr) hkey.symm

theorem addEntry_spec (h : Ordered is buf p) :
    match addEntry is ie p buf with
    | some buf' => HasRoom is.buckmax (bucketMap is buf p) ie ∧ Ordered is buf' p ∧
        bucketMap is buf' p = putEntry is.buckmax (bucketMap is buf p) ie
    | none => ¬HasRoom is.buckmax (bucketMap is buf p) ie := by
  obtain ⟨hn, hs⟩ := h
  have hmax := is.buckmax_lt
  unfold addEntry
  rw [show bucketMap is buf p = (mapOf (records buf (p + iBucketSize) (unpackibucket buf p is.bucketmagic)),
    unpackibucket buf p is.bucketmagic) from rfl]
  generalize unpackibucket buf p is.bucketmagic = n at hn hs ⊢
  have hprobe : ∀ m : Nat, probe ie.score (looktype ie.ia.type) buf (p + iBucketSize) m =
      compare (rank (packientry ie)) (rank (record buf (p + iBucketSize) m)) := fun m => by
    rw [looktype_type, probe_rank ie.score_length (vttodisktype_lt _), rank_packientry]
  dsimp only
  rw [if_neg (Nat.not_lt.2 hn)]
  rcases bucklook_cases hs ie.score_length ie.ia.type with ⟨m, hm, hlook, hmatch⟩ | ⟨m, hm, hlook, hbefore, hafter⟩
  · obtain ⟨k, rfl⟩ : ∃ k, n = m + (k + 1) := ⟨n - m - 1, by omega⟩
    have hrank : rank (packientry ie) = rank (record buf (p + iBucketSize) m) := by
      rw [← Nat.compare_eq_eq, ← hprobe]
      exact ((probe_order hs ie.score_length ie.ia.type).2.2 m).2 hmatch
    obtain ⟨hstrict, hsome, hmap⟩ := replace_spec hs hrank
    rw [hlook, land_one_found, xor_one_found, if_pos (by decide), putEntry, if_pos hsome, ← hmap]
    exact ⟨.inl hsome, ordered_packibucket hn hstrict⟩
  obtain ⟨k, rfl⟩ : ∃ k, n = m + k := ⟨n - m, by omega⟩
  obtain ⟨hstrict, hnone, hmap⟩ := @insert_spec ie buf _ m k hs
    (fun i hi => by rw [← Nat.compare_eq_gt, ← hprobe]; exact hbefore i hi)
    fun i hi hik => by rw [← Nat.compare_eq_lt, ← hprobe]; exact hafter i hi hik
  have hmove : (m + k) * iEntrySize - m * iEntrySize = k * iEntrySize := by rw [Nat.add_mul, Nat.add_sub_cancel_left]
  rw [hlook, land_one_offset, if_neg (by decide), hmove]
  by_cases hroom : m + k < is.buckmax
  · rw [if_pos hroom, putEntry, if_neg hnone, if_pos hroom, ← hmap, Nat.mod_eq_of_lt (by omega), Nat.add_assoc]
    exact ⟨.inr hroom, ordered_packibucket (by omega) hstrict⟩
  · rw [if_neg hroom]
    exact fun h => h.elim hnone hroom

theorem ordered_congr (h : Ordered is buf p) (hsame : ∀ x, p ≤ x → x < p + is.blocksize → buf' x = buf x) :
    Ordered is buf' p ∧ bucketMap is buf' p = bucketMap is buf p := by
  have hmax := is.buckmax_le
  have hmul := Nat.mul_le_mul_right iEntrySize h.1
  have hn : unpackibucket buf' p is.bucketmagic = unpackibucket buf p is.bucketmagic :=
    unpackibucket_congr fun x hx hx' => hsame x hx (by omega)
  have hrec : records buf' (p + iBucketSize) (unpackibucket buf p is.bucketmagic) =
      records buf (p + iBucketSize) (unpackibucket buf p is.bucketmagic) :=
    records_congr fun x hx hx' => hsame x (by omega) (by omega)
  unfold Ordered bucketMap
  rw [hn, hrec]
  exact ⟨h, rfl⟩

/-! ## The loop -/

/-- Looking in the bucket finds what the map has: with the type -1, any entry of the score. -/
def Finds (is : Sect) (buf : Buf) (p : Nat) : Prop :=
  ∀ (score : List UInt8) (otype : Int), score.length = vtScoreSize →
    let data := p + iBucketSize
    let h := bucklook score otype buf data (unpackibucket buf p is.bucketmagic)
    (h &&& 1 ≠ 0 ↔ ∃ type : Nat, (otype = -1 ∨ type = looktype otype) ∧ ((bucketMap is buf p).1 (score, type)).isSome) ∧
      (h &&& 1 ≠ 0 → ∃ type : Nat, (otype = -1 ∨ type = looktype otype) ∧
        (bucketMap is buf p).1 (score, type) = some (unpackientry (Memory.load buf (data + (h ^^^ 1)) iEntrySize)))

theorem mapOf_of_mem {rs : List (List UInt8)} {r : List UInt8} (h : Strict rs) (hlen : ∀ r ∈ rs, r.length = iEntrySize)
    (hr : r ∈ rs) : mapOf rs (keyOf r) = some (unpackientry r) := by
  obtain ⟨_, _, rfl⟩ := append_of_mem hr
  refine mapOf_cons_self fun r' hr' => ?_
  exact rank_ne_of_lt (hlen r' (by simp [hr'])) (hlen r (by simp)) ((pairwise_append.1 h).2.2 r' hr' r (.head _))

theorem Ordered.finds (h : Ordered is buf p) : Finds is buf p := by
  intro score otype hs
  obtain ⟨hiff, hfound⟩ := bucklook_finds h.2 hs otype
  refine ⟨hiff.trans ⟨?_, ?_⟩, fun hne => ?_⟩
  · rintro ⟨r, hr, hscore, htype⟩
    exact ⟨(r.getD iEntryTypeOff 0).toNat, htype, mapOf_isSome.2 ⟨r, hr, by rw [keyOf, hscore]⟩⟩
  · rintro ⟨_, htype, hsome⟩
    obtain ⟨r, hr, hkey⟩ := mapOf_isSome.1 hsome
    rw [keyOf, Prod.mk.injEq] at hkey
    exact ⟨r, hr, hkey.1, by rw [hkey.2]; exact htype⟩
  obtain ⟨m, hm, hoffset, hscore, htype⟩ := hfound hne
  refine ⟨_, htype, ?_⟩
  have hmap := mapOf_of_mem h.2 (fun r => length_of_mem) (mem_records.2 ⟨m, hm, rfl⟩)
  rw [keyOf, hscore] at hmap
  rw [hoffset]
  exact hmap

theorem addEntry_at (h : Ordered is buf p) {q : Nat} (hq : q = p ∨ q + is.blocksize ≤ p ∨ p + is.blocksize ≤ q) :
    match addEntry is ie q buf with
    | some buf' => Ordered is buf' p ∧
        (q = p → HasRoom is.buckmax (bucketMap is buf p) ie ∧ bucketMap is buf' p = putEntry is.buckmax (bucketMap is buf p) ie) ∧
        (q ≠ p → bucketMap is buf' p = bucketMap is buf p)
    | none => q = p → ¬HasRoom is.buckmax (bucketMap is buf p) ie := by
  by_cases hqp : q = p
  · subst hqp
    have hspec := @addEntry_spec is ie buf q h
    cases hadd : addEntry is ie q buf with
    | none =>
      rw [hadd] at hspec
      exact fun _ => hspec
    | some buf' =>
      rw [hadd] at hspec
      exact ⟨hspec.2.1, fun _ => ⟨hspec.1, hspec.2.2⟩, fun hne => absurd rfl hne⟩
  cases hadd : addEntry is ie q buf with
  | none => exact fun heq => absurd heq hqp
  | some buf' =>
    obtain ⟨hord, hmap⟩ := ordered_congr h fun x hx hx' => addEntry_outside hadd (x := x) (by omega)
    exact ⟨hord, fun heq => absurd heq hqp, fun _ => hmap⟩

theorem updatebuf_updates {off : IEntry → Nat} {nbuf : Nat} (l : List IEntry) (h : Ordered is buf p)
    (hoff : ∀ ie ∈ l, off ie + is.blocksize ≤ nbuf ∧ (off ie = p ∨ off ie + is.blocksize ≤ p ∨ p + is.blocksize ≤ off ie)) :
    ∃ buf' chunk err, updatebuf is off nbuf l buf = some (buf', chunk, err) ∧ Ordered is buf' p ∧
      bucketMap is buf' p = (l.filter fun ie => off ie = p).foldl (putEntry is.buckmax) (bucketMap is buf p) ∧
      (chunk.filter fun ie => off ie = p) = kept is.buckmax (l.filter fun ie => off ie = p) (bucketMap is buf p) ∧
      (∀ x, (∀ ie ∈ l, x < off ie ∨ off ie + is.blocksize ≤ x) → buf' x = buf x) ∧ Finds is buf' p := by
  induction l generalizing buf with
  | nil => exact ⟨buf, [], 0, rfl, h, rfl, rfl, fun _ _ => rfl, h.finds⟩
  | cons ie rest ih =>
    obtain ⟨_, hplace⟩ := hoff ie (.head _)
    have hrest := fun ie' hie' => hoff ie' (.tail _ hie')
    have hstep := @addEntry_at is ie buf p h (off ie) hplace
    rw [updatebuf, if_neg (by omega)]
    cases hadd : addEntry is ie (off ie) buf with
    | none =>
      -- The entry is taken out of the chunk.
      rw [hadd] at hstep
      obtain ⟨buf', chunk, err, hupdate, hord, hmap, hkept, hsame, hfinds⟩ := ih h hrest
      refine ⟨buf', chunk, -1, by rw [hupdate]; rfl, hord, ?_, ?_, fun x hx => hsame x fun ie' hie' => hx ie' (.tail _ hie'), hfinds⟩
      · by_cases hp : off ie = p
        · rw [filter_cons_of_pos (by simpa using hp), foldl_cons, putEntry_of_not_hasRoom (hstep hp)]
          exact hmap
        · rw [filter_cons_of_neg (by simpa using hp)]
          exact hmap
      by_cases hp : off ie = p
      · rw [filter_cons_of_pos (by simpa using hp), kept, if_neg (hstep hp)]
        exact hkept
      · rw [filter_cons_of_neg (by simpa using hp)]
        exact hkept
    | some buf1 =>
      rw [hadd] at hstep
      obtain ⟨hord1, hself, hother⟩ := hstep
      obtain ⟨buf', chunk, err, hupdate, hord, hmap, hkept, hsame, hfinds⟩ := ih hord1 hrest
      refine ⟨buf', ie :: chunk, err, by dsimp only; rw [hupdate]; rfl, hord, ?_, ?_, fun x hx => ?_, hfinds⟩
      · by_cases hp : off ie = p
        · rw [filter_cons_of_pos (by simpa using hp), foldl_cons, ← (hself hp).2]
          exact hmap
        · rw [filter_cons_of_neg (by simpa using hp), ← hother hp]
          exact hmap
      · by_cases hp : off ie = p
        · rw [filter_cons_of_pos (by simpa using hp), filter_cons_of_pos (by simpa using hp), kept,
            if_pos (hself hp).1, ← (hself hp).2, hkept]
        · rw [filter_cons_of_neg (by simpa using hp), filter_cons_of_neg (by simpa using hp), ← hother hp]
          exact hkept
      · rw [hsame x fun ie' hie' => hx ie' (.tail _ hie')]
        exact addEntry_outside hadd (hx ie (.head _))

end

/-- Two entries of one key, into an empty bucket. -/
def entryOne : IEntry where
  score := List.replicate vtScoreSize 1
  ia := ⟨100, 8192, 13, 1⟩
  score_length := rfl
  addr_lt := by decide
  size_lt := by decide
  type_lt := by decide
  blocks_lt := by decide

def sectOne : Sect where
  blocksize := 8192
  bucketmagic := 0
  head := by decide
  max := by decide
  magic_lt := by decide

theorem ordered_zero : Ordered sectOne (fun _ => 0) 0 := by
  refine ⟨by decide, ?_⟩
  exact List.Pairwise.nil

theorem updatebuf_updates_empty :
    ∃ buf' chunk err, updatebuf sectOne (fun _ => 0) 8192 [entryOne, entryOne] (fun _ => 0) = some (buf', chunk, err) ∧
      Ordered sectOne buf' 0 ∧
      bucketMap sectOne buf' 0 = ([entryOne, entryOne].filter fun _ => (0 : Nat) = 0).foldl (putEntry sectOne.buckmax)
        (bucketMap sectOne (fun _ => 0) 0) ∧
      (chunk.filter fun _ => (0 : Nat) = 0) = kept sectOne.buckmax ([entryOne, entryOne].filter fun _ => (0 : Nat) = 0)
        (bucketMap sectOne (fun _ => 0) 0) ∧
      (∀ x, (∀ ie ∈ [entryOne, entryOne], x < 0 ∨ 0 + sectOne.blocksize ≤ x) → buf' x = 0) ∧ Finds sectOne buf' 0 :=
  updatebuf_updates [entryOne, entryOne] ordered_zero fun _ _ => ⟨Nat.le_refl _, .inl rfl⟩

end Plan9.Venti.Bucket
