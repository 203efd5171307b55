/-
A Bloom filter whose marks stay off the header loses none of them.

`gethashes` keeps the hash values themselves off the bits of the header, but it
is their remainder by the size of the filter that is the index of a bit, and
that may lie in the header unless the filter has the largest size. A bit marked
there changes the header, and the next `writebloom` clears it.
-/
import Plan9.Venti.Bloom

namespace Plan9.Venti

open Function

/-! ## Bits -/

theorem or_and_ne_zero {a w z : U32} (h : a &&& z ≠ 0) : (a ||| w) &&& z ≠ 0 := by
  intro h0
  apply h
  apply BitVec.eq_of_getLsbD_eq
  intro i _
  have hbit := congrArg (fun v => v.getLsbD i) h0
  simp only [BitVec.getLsbD_and, BitVec.getLsbD_or] at hbit
  rw [BitVec.getLsbD_and]
  cases ha : a.getLsbD i with
  | false =>
    exact BitVec.getLsbD_zero.symm
  | true =>
    rw [ha, Bool.true_or] at hbit
    exact hbit

theorem bloomBit_ne_zero (x : U32) : bloomBit x ≠ 0 := by
  have hlt : x.toNat &&& 31 < 32 := Nat.lt_of_le_of_lt Nat.and_le_right (by decide)
  intro h0
  have hbit := congrArg (fun v => v.getLsbD (x &&& 31).toNat) h0
  simp only [bloomBit, BitVec.getLsbD_shiftLeft] at hbit
  simp at hbit
  omega

theorem or_bloomBit_ne_zero (a x : U32) : (a ||| bloomBit x) &&& bloomBit x ≠ 0 := by
  have hself : bloomBit x &&& bloomBit x ≠ 0 := by
    rw [BitVec.and_self]
    exact bloomBit_ne_zero x
  rw [BitVec.or_comm]
  exact or_and_ne_zero hself

/-! ## Marking -/

/-- The bit of `x` is set. -/
def Bloom.Has (b : Bloom) (x : U32) : Prop := b.data (b.word x) &&& bloomBit x ≠ 0

variable {h : Host} {b : Bloom} {score sc : Score} {x : U32} {data : Nat → U32} {k : Nat}

theorem inbloomfilter_iff :
    inbloomfilter b score = true ↔ ∀ x ∈ b.hashes score, b.Has x := by
  unfold inbloomfilter Bloom.Has
  simp

theorem mark1_same (b : Bloom) (y : U32) :
    (b.mark1 y).nhash = b.nhash ∧ (b.mark1 y).size = b.size ∧ (b.mark1 y).bitmask = b.bitmask := by
  unfold Bloom.mark1
  split <;> exact ⟨rfl, rfl, rfl⟩

theorem mark1_word (b : Bloom) (y x : U32) : (b.mark1 y).word x = b.word x := by
  unfold Bloom.word
  rw [(mark1_same b y).2.2]

theorem mark1_has (b : Bloom) (x : U32) : (b.mark1 x).Has x := by
  unfold Bloom.Has
  rw [mark1_word]
  unfold Bloom.mark1
  split
  · simp only [update_self]
    exact or_bloomBit_ne_zero _ x
  · assumption

theorem mark1_keeps (y : U32) (hx : b.Has x) : (b.mark1 y).Has x := by
  unfold Bloom.Has at hx ⊢
  rw [mark1_word]
  unfold Bloom.mark1
  split
  · by_cases hw : b.word x = b.word y
    · simp only [hw, update_self]
      rw [hw] at hx
      exact or_and_ne_zero hx
    · simp only [update_of_ne hw]
      exact hx
  · exact hx

/-- A mark of which no bit is in the header. -/
def Bloom.Clear (b : Bloom) (score : Score) : Prop := ∀ x ∈ b.hashes score, bloomHeadBits ≤ x &&& b.bitmask

theorem word_of_clear (hx : bloomHeadBits ≤ x &&& b.bitmask) : 4 ≤ b.word x := by
  unfold Bloom.word
  rw [BitVec.toNat_ushiftRight, Nat.shiftRight_eq_div_pow]
  have hle : 128 ≤ (x &&& b.bitmask).toNat := hx
  omega

theorem mark1_head (hx : 4 ≤ b.word x) (hk : k < 4) :
    (b.mark1 x).data k = b.data k := by
  unfold Bloom.mark1
  split
  · have hne : k ≠ b.word x := by omega
    simp only [update_of_ne hne]
  · rfl

theorem foldl_mark1 {P : Bloom → Prop} (hP : ∀ b x, P b → P (b.mark1 x)) : ∀ (xs : List U32) {b : Bloom}, P b →
    P (xs.foldl Bloom.mark1 b)
  | [], _, hb => hb
  | x :: xs, _, hb => foldl_mark1 hP xs (hP _ x hb)

theorem mark_same (b : Bloom) (score : Score) : (markbloomfilter b score).nhash = b.nhash ∧
    (markbloomfilter b score).size = b.size ∧ (markbloomfilter b score).bitmask = b.bitmask := by
  refine foldl_mark1 (P := fun c => c.nhash = b.nhash ∧ c.size = b.size ∧ c.bitmask = b.bitmask) ?_ _ ⟨rfl, rfl, rfl⟩
  intro c x ⟨h1, h2, h3⟩
  obtain ⟨g1, g2, g3⟩ := mark1_same c x
  exact ⟨g1.trans h1, g2.trans h2, g3.trans h3⟩

theorem mark_keeps (score : Score) (hx : b.Has x) : (markbloomfilter b score).Has x :=
  foldl_mark1 (P := fun c => c.Has x) (fun _ y hc => mark1_keeps y hc) _ hx

theorem foldl_mark1_has : ∀ (xs : List U32) (b : Bloom) {x : U32}, x ∈ xs → (xs.foldl Bloom.mark1 b).Has x
  | y :: xs, b, x, hx => by
    rcases List.mem_cons.mp hx with rfl | hx
    · exact foldl_mark1 (P := fun c => c.Has x) (fun _ y hc => mark1_keeps y hc) xs (mark1_has b x)
    · exact foldl_mark1_has xs (b.mark1 y) hx

theorem mark_head (hc : b.Clear score) (hk : k < 4) :
    (markbloomfilter b score).data k = b.data k := by
  have hall : ∀ (xs : List U32) (c : Bloom), c.bitmask = b.bitmask →
      (∀ x ∈ xs, bloomHeadBits ≤ x &&& b.bitmask) → (xs.foldl Bloom.mark1 c).data k = c.data k := by
    intro xs
    induction xs with
    | nil => intro c _ _; rfl
    | cons x xs ih =>
      intro c hm hx
      have hw : 4 ≤ c.word x := word_of_clear (by rw [hm]; exact hx x (by simp))
      rw [List.foldl_cons, ih (c.mark1 x) ((mark1_same c x).2.2.trans hm) fun y hy => hx y (by simp [hy])]
      exact mark1_head hw hk
  exact hall _ b rfl hc

theorem mark_hashes (b : Bloom) (score : Score) : (markbloomfilter b score).hashes = b.hashes := by
  unfold Bloom.hashes
  rw [(mark_same b score).1]

theorem mark_clear : (markbloomfilter b score).Clear sc ↔ b.Clear sc := by
  unfold Bloom.Clear
  rw [mark_hashes, (mark_same b score).2.2]

theorem mark_inbloomfilter (b : Bloom) (score : Score) : inbloomfilter (markbloomfilter b score) score = true := by
  rw [inbloomfilter_iff, mark_hashes]
  intro x hx
  exact foldl_mark1_has _ b hx

/-! ## The header -/

theorem pack_data (hk : 4 ≤ k) :
    packbloomhead h b data k = data k := by
  unfold packbloomhead
  rw [update_of_ne (by omega), update_of_ne (by omega), update_of_ne (by omega),
    update_of_ne (by omega)]

theorem unpack_pack
    (hsize : ¬ (b.size < 16 ∨ b.size > maxBloomSize ∨ b.size &&& (b.size - 1) ≠ 0)) :
    unpackbloomhead h (packbloomhead h b data) = some (b.nhash, b.size) := by
  have h₀ : packbloomhead h b data 0 = h.put bloomMagic := by simp [packbloomhead]
  have h1 : packbloomhead h b data 1 = h.put bloomVersion := by simp [packbloomhead]
  have h2 : packbloomhead h b data 2 = h.put b.nhash := by simp [packbloomhead]
  have h3 : packbloomhead h b data 3 = h.put b.size := by simp [packbloomhead]
  unfold unpackbloomhead
  simp only [h₀, h1, h2, h3, h.get_put]
  rw [if_neg (by simp), if_neg (by simp), if_neg hsize]

theorem size_of_unpack {nhash size : U32}
    (hu : unpackbloomhead h data = some (nhash, size)) :
    ¬ (size < 16 ∨ size > maxBloomSize ∨ size &&& (size - 1) ≠ 0) := by
  unfold unpackbloomhead at hu
  split at hu
  · cases hu
  split at hu
  · cases hu
  simp only at hu
  split at hu
  · cases hu
  · cases hu
    assumption

/-! ## Runs -/

namespace BloomSys

/-- What is marked is set in memory, and on the partition if that is `clean`; all of it is off the header. -/
structure Good (h : Host) (s : BloomSys) (clean : Bool) (marked : List Score) : Prop where
  head : unpackbloomhead h s.part = some (s.b.nhash, s.b.size)
  bitmask : s.b.bitmask = (s.b.size <<< 3) - 1
  clear : ∀ sc ∈ marked, s.b.Clear sc
  present : ∀ sc ∈ marked, inbloomfilter s.b sc = true
  saved : clean = true → ∀ sc ∈ marked, inbloomfilter { s.b with data := s.part } sc = true

theorem wb_inbloomfilter (hc : b.Clear sc) (hin : inbloomfilter b sc = true) :
    inbloomfilter (wbbloomhead h b) sc = true := by
  rw [inbloomfilter_iff] at hin ⊢
  intro x hx
  have hw : 4 ≤ b.word x := word_of_clear (hc x hx)
  have hhas := hin x hx
  change packbloomhead h b b.data (b.word x) &&& _ ≠ 0
  rw [pack_data hw]
  exact hhas

theorem clear_congr {b' : Bloom} (hn : b'.nhash = b.nhash) (hm : b'.bitmask = b.bitmask) :
    b'.Clear sc ↔ b.Clear sc := by
  unfold Bloom.Clear Bloom.hashes
  rw [hn, hm]

variable {s : BloomSys} {clean : Bool} {marked : List Score}

theorem Good.mark (hs : Good h s clean marked) (hsc : s.b.Clear sc) :
    Good h { s with b := markbloomfilter s.b sc } false (sc :: marked) := by
  obtain ⟨hnhash, hsize, hbitmask⟩ := mark_same s.b sc
  refine ⟨?_, ?_, ?_, ?_, fun hclean => by cases hclean⟩
  · rw [hnhash, hsize]
    exact hs.head
  · rw [hbitmask, hsize]
    exact hs.bitmask
  · intro sc' hsc'
    rw [mark_clear]
    rcases List.mem_cons.mp hsc' with rfl | hsc'
    · exact hsc
    · exact hs.clear sc' hsc'
  intro sc' hsc'
  rcases List.mem_cons.mp hsc' with rfl | hsc'
  · exact mark_inbloomfilter s.b sc'
  have hin := hs.present sc' hsc'
  rw [inbloomfilter_iff] at hin ⊢
  intro x hx
  rw [mark_hashes] at hx
  exact mark_keeps sc (hin x hx)

theorem Good.write (hs : Good h s clean marked) :
    Good h ⟨wbbloomhead h s.b, (wbbloomhead h s.b).data⟩ true marked := by
  have hmarked : ∀ sc ∈ marked, inbloomfilter (wbbloomhead h s.b) sc = true :=
    fun sc hsc => wb_inbloomfilter (hs.clear sc hsc) (hs.present sc hsc)
  have hclear : ∀ sc ∈ marked, (wbbloomhead h s.b).Clear sc :=
    fun sc hsc => (clear_congr rfl rfl).mpr (hs.clear sc hsc)
  have hhead := @unpack_pack h s.b s.b.data (size_of_unpack hs.head)
  exact ⟨hhead, hs.bitmask, hclear, hmarked, fun _ => hmarked⟩

theorem Good.load (hs : Good h s true marked) :
    loadbloom h s.part = some { s.b with data := s.part } ∧ Good h { s with b := { s.b with data := s.part } } true marked := by
  have hload : loadbloom h s.part = some { s.b with data := s.part } := by
    unfold loadbloom
    rw [hs.head]
    dsimp only
    rw [hs.bitmask]
  have hclear : ∀ sc ∈ marked, Bloom.Clear { s.b with data := s.part } sc :=
    fun sc hsc => (clear_congr rfl rfl).mpr (hs.clear sc hsc)
  exact ⟨hload, hs.head, hs.bitmask, hclear, hs.saved rfl, fun _ => hs.saved rfl⟩

theorem Good.exec {h : Host} : ∀ (ops : List BloomOp) {s : BloomSys} {clean : Bool} {marked : List Score},
    Good h s clean marked → (∀ sc, .mark sc ∈ ops → s.b.Clear sc) → written clean ops = true →
    ∃ s' clean' marked', exec h ops s = some s' ∧ Good h s' clean' marked' ∧
      (∀ sc, sc ∈ marked ∨ .mark sc ∈ ops → sc ∈ marked') ∧ s'.b.nhash = s.b.nhash ∧ s'.b.bitmask = s.b.bitmask
  | [], s, clean, marked, hs, _, _ => ⟨s, clean, marked, rfl, hs, by simp, rfl, rfl⟩
  | .mark sc :: ops, s, clean, marked, hs, hops, hw => by
    obtain ⟨hn, -, hm⟩ := mark_same s.b sc
    obtain ⟨s', clean', marked', hexec, hs', hin, hn', hm'⟩ := Good.exec ops (hs.mark (hops sc (by simp)))
      (fun sc' hsc' => (clear_congr hn hm).mpr (hops sc' (by simp [hsc']))) hw
    refine ⟨s', clean', marked', hexec, hs', fun sc' hsc' => hin sc' ?_, hn'.trans hn, hm'.trans hm⟩
    simp only [List.mem_cons, BloomOp.mark.injEq] at hsc' ⊢
    tauto
  | .write :: ops, s, clean, marked, hs, hops, hw => by
    obtain ⟨s', clean', marked', hexec, hs', hin, hn', hm'⟩ := Good.exec ops hs.write
      (fun sc' hsc' => (clear_congr rfl rfl).mpr (hops sc' (by simp [hsc']))) hw
    refine ⟨s', clean', marked', hexec, hs', fun sc' hsc' => hin sc' ?_, hn', hm'⟩
    simpa using hsc'
  | .load :: ops, s, clean, marked, hs, hops, hw => by
    obtain ⟨rfl, hw⟩ := Bool.and_eq_true_iff.mp hw
    obtain ⟨hload, hgood⟩ := hs.load
    obtain ⟨s', clean', marked', hexec, hs', hin, hn', hm'⟩ := Good.exec ops hgood
      (fun sc' hsc' => (clear_congr rfl rfl).mpr (hops sc' (by simp [hsc']))) hw
    refine ⟨s', clean', marked', ?_, hs', fun sc' hsc' => hin sc' (by simpa using hsc'), hn', hm'⟩
    rw [BloomSys.exec, BloomSys.step, hload]
    exact hexec

/-- **Marks off the header, written before each load, are never lost** by marking, writing and loading, and do not
change it. -/
theorem bloom_sound (h : Host) (s : BloomSys) (hinit : s.Init h) (ops : List BloomOp)
    (hclear : ∀ sc, .mark sc ∈ ops → s.b.Clear sc) (hwritten : written true ops = true) :
    ∃ s', exec h ops s = some s' ∧ (∀ sc, .mark sc ∈ ops → inbloomfilter s'.b sc = true) ∧
      ∀ sc, s.b.Clear sc → ∀ k, k < 4 → (markbloomfilter s'.b sc).data k = s'.b.data k := by
  have hgood : Good h s true [] := ⟨hinit.head, hinit.bitmask, by simp, by simp, by simp⟩
  obtain ⟨s', clean, marked, hexec, hs', hin, hn, hm⟩ := Good.exec ops hgood hclear hwritten
  refine ⟨s', hexec, fun sc hsc => hs'.present sc (hin sc (.inr hsc)), ?_⟩
  intro sc hsc k hk
  exact mark_head ((clear_congr hn hm).mpr hsc) hk

/-! ### A filter of a megabyte with one hash -/

/-- The four bytes of a word the other way round. -/
def bswap (v : U32) : U32 := v.extractLsb' 0 8 ++ v.extractLsb' 8 8 ++ v.extractLsb' 16 8 ++ v.extractLsb' 24 8

theorem bswap_bswap (v : U32) : bswap (bswap v) = v := by
  apply BitVec.eq_of_getLsbD_eq
  intro i hi
  simp only [bswap, BitVec.getLsbD_append, BitVec.getLsbD_extractLsb']
  grind

def little : Host := ⟨bswap, bswap, bswap_bswap⟩

/-- As `fmtbloom -N 1` leaves it. -/
def mega : BloomSys :=
  let b : Bloom := ⟨1, 0x100000, 0x7fffff, fun _ => 0⟩
  ⟨wbbloomhead little b, (wbbloomhead little b).data⟩

def scoreOf (a : U32) : Score := fun i => if i = 1 then a else 0

theorem mega_init : mega.Init little := by
  refine ⟨?_, ?_, ?_⟩ <;> decide

theorem bloom_sound_mega : ∃ s', exec little [.mark (scoreOf 0x1000), .write, .load] mega = some s' ∧
    (∀ sc, BloomOp.mark sc ∈ [.mark (scoreOf 0x1000), .write, .load] → inbloomfilter s'.b sc = true) ∧
    ∀ sc, mega.b.Clear sc → ∀ k, k < 4 → (markbloomfilter s'.b sc).data k = s'.b.data k := by
  refine bloom_sound little mega mega_init [.mark (scoreOf 0x1000), .write, .load] ?_ rfl
  intro sc hsc
  simp only [List.mem_cons, BloomOp.mark.injEq, reduceCtorEq, List.not_mem_nil, or_false, or_self] at hsc
  subst hsc
  intro x hx
  have hx' : x ∈ [0x1000#32] := hx
  simp only [List.mem_singleton] at hx'
  subst hx'
  decide

/-- A hash of 2^23 + 1 is bit 1 of the filter: the mark changes the header and is gone once the filter is written. -/
theorem mark_in_head : mega.Init little ∧
    (markbloomfilter mega.b (scoreOf 0x800001)).data 0 ≠ mega.b.data 0 ∧
    ∃ s', exec little [.mark (scoreOf 0x800001), .write, .load] mega = some s' ∧
      inbloomfilter s'.b (scoreOf 0x800001) = false := by
  refine ⟨mega_init, by decide, _, rfl, ?_⟩
  decide

end BloomSys

end Plan9.Venti
