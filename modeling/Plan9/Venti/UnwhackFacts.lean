/-
The decoder follows the code: from the bits of a token it takes exactly those, and does what
the token says.

`Reads u xs` is that `xs` is still to be read: part in the word, part in the bytes
to come, and after them the zeros that stand in when these run out. A round starts
with more than 24 bits in the word, as many as a length takes.
-/
import Plan9.Venti.WhackCode

namespace Plan9.Venti

open Bits Bytes List

structure Reads (u : Decoder) (xs : List Bool) : Prop where
  held : ∃ ps, Held u.uwbits u.uwnbits ps ∧ ps ++ ofBytes u.src = xs ++ List.replicate u.overbits false
  overbits : u.src ≠ [] → u.overbits = 0
  room : u.uwnbits ≤ 32

/-! ## Bits in and out -/

theorem shift_or_mod (w b : Nat) (hb : b < 2 ^ 8) : (w <<< 8) % 2 ^ 32 ||| b = (w <<< 8 ||| b) % 2 ^ 32 := by
  rw [Nat.or_mod_two_pow, Nat.mod_eq_of_lt (show b < 2 ^ 32 by omega)]

variable {ndst off hist a len k b v : Nat} {u : Decoder} {cs xs : List Bool}

theorem fillLoop_reads : ∀ (k : Nat) (u : Decoder), Reads u xs → u.uwnbits + 8 * k ≤ 32 →
    Reads (fillLoop k u) xs ∧ (fillLoop k u).uwnbits = u.uwnbits + 8 * k := by
  intro k
  induction k with
  | zero => intro u h _; exact ⟨h, rfl⟩
  | succ k ih =>
    rintro ⟨src, w, n, nover⟩ ⟨⟨ps, hps, heq⟩, hover, -⟩ hk
    dsimp only at hps heq hover hk
    cases src with
    | nil =>
      have hpush := hps.push (show 0 < 2 ^ 8 by decide) (show n + 8 ≤ 32 by omega)
      rw [Nat.or_zero] at hpush
      have hbits : (ps ++ toBits 8 0) ++ ofBytes [] = xs ++ replicate (nover + 8) false := by
        rw [ofBytes_nil, append_nil] at heq ⊢
        rw [heq, append_assoc, show toBits 8 0 = replicate 8 false from rfl, replicate_append_replicate]
      obtain ⟨hr, hn⟩ := ih ⟨[], w <<< 8 % 2 ^ 32, n + 8, nover + 8⟩
        ⟨⟨_, hpush, hbits⟩, fun h => absurd rfl h, show n + 8 ≤ 32 by omega⟩ (show n + 8 + 8 * k ≤ 32 by omega)
      exact ⟨hr, hn.trans (show n + 8 + 8 * k = n + 8 * (k + 1) by omega)⟩
    | cons b src =>
      have hb : b.toNat < 2 ^ 8 := b.toNat_lt
      have hpush := hps.push hb (show n + 8 ≤ 32 by omega)
      rw [← shift_or_mod w b.toNat hb] at hpush
      have h0 := hover (by simp)
      subst h0
      have hbits : (ps ++ toBits 8 b.toNat) ++ ofBytes src = xs ++ replicate 0 false := by
        rw [← heq, ofBytes_cons, append_assoc]
      obtain ⟨hr, hn⟩ := ih ⟨src, w <<< 8 % 2 ^ 32 ||| b.toNat, n + 8, 0⟩
        ⟨⟨_, hpush, hbits⟩, fun _ => rfl, show n + 8 ≤ 32 by omega⟩ (show n + 8 + 8 * k ≤ 32 by omega)
      exact ⟨hr, hn.trans (show n + 8 + 8 * k = n + 8 * (k + 1) by omega)⟩

theorem fill_reads (h : Reads u xs) : Reads (fill u) xs ∧ 25 ≤ (fill u).uwnbits := by
  have hroom := h.room
  obtain ⟨hr, hn⟩ := fillLoop_reads ((32 - u.uwnbits) / 8) u h (by omega)
  refine ⟨hr, ?_⟩
  rw [fill, hn]
  omega

theorem Reads.split (h : Reads u (cs ++ xs)) (hk : cs.length ≤ u.uwnbits) :
    ∃ ps, Held u.uwbits u.uwnbits (cs ++ ps) ∧ ps ++ ofBytes u.src = xs ++ List.replicate u.overbits false := by
  obtain ⟨ps, hps, heq⟩ := h.held
  rw [append_assoc] at heq
  rcases append_eq_append_iff.1 heq with ⟨as, has, hrest⟩ | ⟨as, has, hrest⟩
  · have hlen := congrArg length has
    rw [length_append, hps.length] at hlen
    have hnil : as = [] := length_eq_zero_iff.1 (by omega)
    subst hnil
    rw [append_nil] at has
    exact ⟨[], by rw [has, append_nil]; exact hps, hrest⟩
  · exact ⟨as, has ▸ hps, hrest.symm⟩

theorem Reads.take (h : Reads u (cs ++ xs)) (hk : cs.length ≤ u.uwnbits) :
    u.take cs.length = (ofBits cs, { u with uwnbits := u.uwnbits - cs.length }) ∧
      Reads { u with uwnbits := u.uwnbits - cs.length } xs := by
  obtain ⟨ps, hps, heq⟩ := h.split hk
  obtain ⟨hval, hrest⟩ := hps.pop
  have hlen := hps.length
  rw [length_append] at hlen
  have hn : u.uwnbits - cs.length = ps.length := by omega
  refine ⟨?_, ⟨ps, ?_, heq⟩, h.overbits, ?_⟩
  · rw [Decoder.take, hn]
    rw [Nat.one_shiftLeft, Nat.and_two_pow_sub_one_eq_mod, hval]
  · rw [hn]
    exact hrest
  · have := h.room
    dsimp only
    omega

theorem Reads.peek (h : Reads u (cs ++ xs)) (hc : cs.length = 5) (hk : 5 ≤ u.uwnbits) :
    (u.uwbits >>> (u.uwnbits - 5)) &&& 0x1f = ofBits cs := by
  have ht := (h.take (by omega)).1
  rw [hc, Decoder.take] at ht
  exact congrArg Prod.fst ht

theorem Reads.takeBits (h : Reads u (toBits k v ++ xs)) (hk : k ≤ u.uwnbits) :
    u.take k = (v % 2 ^ k, { u with uwnbits := u.uwnbits - k }) ∧ Reads { u with uwnbits := u.uwnbits - k } xs := by
  have ht := h.take (by rwa [length_toBits])
  rwa [length_toBits, ofBits_toBits] at ht

theorem Reads.peekBits (h : Reads u (toBits (5 + k) v ++ xs)) (hk : 5 ≤ u.uwnbits) :
    (u.uwbits >>> (u.uwnbits - 5)) &&& 0x1f = v / 2 ^ k % 32 := by
  rw [toBits_add, append_assoc] at h
  exact (h.peek (length_toBits _ _) hk).trans (ofBits_toBits 5 _)

/-! ## Literals -/

theorem lenval_lit : ∀ v < 16, lenval.getD v 0 = 0 := by decide

/-- The code of a literal starts with a zero. -/
theorem litBits_peek (h : Reads u (litBits hist b ++ xs)) (hb : b < 256)
    (hk : 5 ≤ u.uwnbits) : lenval.getD ((u.uwbits >>> (u.uwnbits - 5)) &&& 0x1f) 0 = 0 := by
  rw [litBits] at h
  refine lenval_lit _ ?_
  split at h
  · rw [@Reads.peekBits 4 b u xs h hk]
    omega
  split at h
  · split at h
    · rw [@Reads.peekBits 5 _ u xs h hk]
      omega
    · rw [@Reads.peekBits 6 _ u xs h hk]
      omega
  · rw [@Reads.peekBits 3 b u xs h hk]
    omega

theorem and_127 (x : Nat) : x &&& 0x7f = x % 128 := Nat.and_two_pow_sub_one_eq_mod x 7

/-- **A literal** is decoded to its byte. -/
theorem literal_eq (h : Reads u (litBits hist b ++ xs)) (hb : b < 256)
    (hk : 25 ≤ u.uwnbits) : ∃ u', u.literal hist = (b, u') ∧ Reads u' xs := by
  rw [litBits] at h
  rw [Decoder.literal, and_15]
  by_cases hhist : hist % 16 ≠ 0
  · rw [if_pos hhist] at h ⊢
    obtain ⟨ht, hr⟩ := h.takeBits (by omega)
    refine ⟨_, ?_, hr⟩
    rw [ht]
    simp only [and_255, Prod.mk.injEq, and_true]
    omega
  rw [if_neg hhist] at h ⊢
  by_cases htext : b < 32 ∨ b > 127
  · rw [if_pos htext] at h
    by_cases ht96 : (b + 64) % 256 < 96
    · rw [if_pos ht96, show (10 : Nat) = 8 + 2 from rfl, toBits_add, append_assoc] at h
      obtain ⟨ht, hr⟩ := h.takeBits (by omega)
      obtain ⟨ht', hr'⟩ := hr.takeBits (show 2 ≤ u.uwnbits - 8 by omega)
      refine ⟨_, ?_, hr'⟩
      have h24 : (b + 64) % 256 / 2 ^ 2 % 2 ^ 8 % 128 < 24 := by omega
      simp only [ht, and_127]
      rw [if_pos (show _ < 32 by omega), if_pos h24]
      simp only [ht', and_255, Prod.mk.injEq, and_true]
      rw [← Nat.shiftLeft_add_eq_or_of_lt (Nat.mod_lt _ (by decide)), Nat.shiftLeft_eq]
      omega
    rw [if_neg ht96, show (11 : Nat) = 8 + 3 from rfl, toBits_add, append_assoc] at h
    obtain ⟨ht, hr⟩ := h.takeBits (by omega)
    obtain ⟨ht', hr'⟩ := hr.takeBits (show 3 ≤ u.uwnbits - 8 by omega)
    refine ⟨_, ?_, hr'⟩
    have h24 : ¬ (b + 64) % 256 / 2 ^ 3 % 2 ^ 8 % 128 < 24 := by omega
    simp only [ht, and_127]
    rw [if_pos (show _ < 32 by omega), if_neg h24]
    simp only [ht', and_255, Prod.mk.injEq, and_true]
    rw [← Nat.shiftLeft_add_eq_or_of_lt (Nat.mod_lt _ (by decide)), Nat.shiftLeft_eq]
    omega
  rw [if_neg htext] at h
  obtain ⟨ht, hr⟩ := h.takeBits (by omega)
  refine ⟨_, ?_, hr⟩
  simp only [ht, and_127]
  rw [if_neg (show ¬ _ < 32 by omega)]
  simp only [Prod.mk.injEq, and_true]
  omega

/-! ## Lengths -/

theorem stage_bits (j : Nat) : ((6 + (j + 1)) &&& 1) ^^^ 1 = (((6 + j) &&& 1) ^^^ 1) ^^^ 1 := by
  rw [and_1, and_1]
  rcases Nat.mod_two_eq_zero_or_one (6 + j) with h | h
  · rw [h, show (6 + (j + 1)) % 2 = 1 by omega]
    rfl
  · rw [h, show (6 + (j + 1)) % 2 = 0 by omega]
    rfl

theorem unbigLoop_eq {i : Nat} (hi : AtStage len i) : ∀ (m k j : Nat) (u : Decoder), j + m = i → m < k →
    m ≤ u.uwnbits → Reads u (toBits m (stageP i + (len - stageL i)) ++ xs) →
    ∃ u', unbigLoop k (stageL j) ((stageP i + (len - stageL i)) / 2 ^ m - stageP j) (stageU j) (((6 + j) &&& 1) ^^^ 1) u =
      some (len, u') ∧ Reads u' xs := by
  have hlo := hi.lo
  have hhi := hi.hi
  generalize hv : stageP i + (len - stageL i) = v
  intro m
  induction m with
  | zero =>
    intro k j u hj hk hm h
    obtain ⟨k, rfl⟩ : ∃ l, k = l + 1 := ⟨k - 1, by omega⟩
    obtain rfl : j = i := by omega
    refine ⟨u, ?_, h⟩
    rw [unbigLoop, Nat.pow_zero, Nat.div_one, if_neg (by omega), show stageL j + (v - stageP j) = len by omega]
  | succ m ih =>
    intro k j u hj hk hm h
    obtain ⟨k, rfl⟩ : ∃ l, k = l + 1 := ⟨k - 1, by omega⟩
    have hP := @stageP_le j m
    rw [show j + m + 1 = i by omega] at hP
    have hge : stageP j + stageU j ≤ v / 2 ^ (m + 1) := by
      rw [Nat.le_div_iff_mul_le (Nat.two_pow_pos _), Nat.mul_comm]
      omega
    have hsplit : v / 2 ^ m = 2 * (v / 2 ^ (m + 1)) + v / 2 ^ m % 2 := by
      rw [Nat.pow_succ, ← Nat.div_div_eq_div_mul]
      omega
    rw [Nat.add_comm m 1, toBits_add, append_assoc] at h
    obtain ⟨ht, hr⟩ := h.takeBits (by omega)
    rw [unbigLoop, if_pos (by omega), if_neg (by omega)]
    simp only [ht]
    have hcode : ((v / 2 ^ (m + 1) - stageP j - stageU j) <<< 1 ||| v / 2 ^ m % 2 ^ 1) = v / 2 ^ m - stageP (j + 1) := by
      rw [← Nat.shiftLeft_add_eq_or_of_lt (Nat.mod_lt _ (by decide)), stageP, Nat.shiftLeft_eq, Nat.shiftLeft_eq]
      omega
    rw [hcode]
    have hnext := ih k (j + 1) _ (by omega) (by omega) (show m ≤ u.uwnbits - 1 by omega) hr
    rwa [stage_bits] at hnext

theorem lenval_big : ∀ v < 32, 30 ≤ v → lenval.getD v 0 = 255 := by decide

/-- A large length begins with four ones. -/
theorem AtStage.top {j : Nat} (h : AtStage len j) (hlen : len ≤ maxLen) :
    60 ≤ (stageP j + (len - stageL j)) / 2 ^ j ∧ (stageP j + (len - stageL j)) / 2 ^ j < 64 := by
  have hlt := h.code_lt hlen
  have hP : 2 ^ j * 60 ≤ stageP j := by
    cases j with
    | zero => decide
    | succ m =>
      have := @stageP_le 0 m
      rw [Nat.zero_add] at this
      exact Nat.le_trans (Nat.mul_le_mul_left _ (by decide)) this
  constructor
  · rw [Nat.le_div_iff_mul_le (Nat.two_pow_pos _), Nat.mul_comm]
    omega
  · rw [Nat.div_lt_iff_lt_mul (Nat.two_pow_pos _)]
    rw [Nat.pow_add] at hlt
    exact hlt

theorem Reads.peekShort (h : Reads u (toBits a v ++ xs)) (ha : a + b = 5)
    (hb : b ≤ xs.length) (hk : 5 ≤ u.uwnbits) :
    ∃ z < 2 ^ b, (u.uwbits >>> (u.uwnbits - 5)) &&& 0x1f = v % 2 ^ a * 2 ^ b + z := by
  rw [← take_append_drop b xs, ← append_assoc] at h
  have hlen : (xs.take b).length = b := by rw [length_take]; omega
  refine ⟨ofBits (xs.take b), ?_, ?_⟩
  · have := ofBits_lt (xs.take b)
    rwa [hlen] at this
  · rw [h.peek (by rw [length_append, length_toBits, hlen, ha]) hk, ofBits_append, ofBits_toBits, hlen]

theorem length_fast (h : Reads u (toBits a v ++ xs)) (ha : a + b = 5)
    (hb : b ≤ xs.length) (hk : 25 ≤ u.uwnbits) (hval : ∀ z < 2 ^ b, lenval.getD (v % 2 ^ a * 2 ^ b + z) 0 = len)
    (hbits : lenbits.getD len 0 = a) (h0 : len ≠ 0) (h255 : len < 255) :
    let l := lenval.getD ((u.uwbits >>> (u.uwnbits - 5)) &&& 0x1f) 0
    l ≠ 0 ∧ ∃ u', u.length l = some (len, u') ∧ Reads u' xs ∧ 17 ≤ u'.uwnbits := by
  obtain ⟨z, hz, hpeek⟩ := h.peekShort ha hb (by omega)
  have hl := hval z hz
  rw [hpeek, hl]
  refine ⟨h0, _, ?_, (h.takeBits (by omega)).2, ?_⟩
  · rw [Decoder.length, if_pos h255, hbits]
  · dsimp only
    omega

/-- **A length** is decoded, and enough is then in the word for an offset. -/
theorem length_eq (h : Reads u (lenBits len ++ xs)) (hlo : minMatch ≤ len)
    (hhi : len ≤ maxLen) (hxs : 3 ≤ xs.length) (hk : 25 ≤ u.uwnbits) :
    let l := lenval.getD ((u.uwbits >>> (u.uwnbits - 5)) &&& 0x1f) 0
    l ≠ 0 ∧ ∃ u', u.length l = some (len, u') ∧ Reads u' xs ∧ 17 ≤ u'.uwnbits := by
  by_cases h7 : 7 ≤ len
  · obtain ⟨j, hj, hbits⟩ := lenBits_eq h7
    obtain ⟨_, htop'⟩ := hj.top hhi
    have h18 := hj.le hhi
    rw [hbits] at h
    have hpeek := @Reads.peekBits (1 + j) _ u xs (by rwa [← Nat.add_assoc]) (by omega)
    have h30 : 30 ≤ (stageP j + (len - stageL j)) / 2 ^ (1 + j) % 32 := by
      rw [Nat.pow_add, Nat.mul_comm, ← Nat.div_div_eq_div_mul]
      omega
    have hval := lenval_big _ (Nat.mod_lt _ (by decide)) h30
    rw [hpeek, hval]
    refine ⟨by decide, ?_⟩
    rw [toBits_add, append_assoc] at h
    obtain ⟨ht, hr⟩ := h.takeBits (by omega)
    obtain ⟨u', hloop, hr'⟩ := unbigLoop_eq hj j 32 0 _ (Nat.zero_add j) (by omega) (show j ≤ u.uwnbits - 6 by omega) hr
    obtain ⟨hfill, _⟩ := fill_reads hr'
    refine ⟨fill u', ?_, hfill, by omega⟩
    have hloop' : unbigLoop 32 dMaxFastLen ((stageP j + (len - stageL j)) / 2 ^ j % 2 ^ 6 - dBigLenCode) dBigLenBase
        ((dBigLenBits &&& 1) ^^^ 1) { u with uwnbits := u.uwnbits - 6 } = some (len, u') := by
      rw [Nat.mod_eq_of_lt (show _ < 2 ^ 6 from htop')]
      exact hloop
    rw [Decoder.length, if_neg (by decide), show dBigLenBits = 6 from rfl, ht]
    dsimp only
    rw [show (6 &&& 1) ^^^ 1 = (dBigLenBits &&& 1) ^^^ 1 from rfl, hloop']
  unfold minMatch at hlo
  have hlen : len = 3 ∨ len = 4 ∨ len = 5 ∨ len = 6 := by omega
  rcases hlen with rfl | rfl | rfl | rfl
  · exact @length_fast 2 3 3 2 u xs h rfl hxs hk (by decide) rfl (by decide) (by decide)
  · exact @length_fast 3 4 2 6 u xs h rfl (by omega) hk (by decide) rfl (by decide) (by decide)
  · exact @length_fast 5 5 0 0x1c u xs h rfl (by omega) hk (by decide) rfl (by decide) (by decide)
  · exact @length_fast 5 6 0 0x1d u xs h rfl (by omega) hk (by decide) rfl (by decide) (by decide)

/-! ## Offsets -/

theorem offset_base {base o : Nat} (h : Reads u (toBits 4 v ++ (toBits k o ++ xs)))
    (hbits : offbits.getD (v % 16) 0 = k) (hbase : offbase.getD (v % 16) 0 = base) (hdiv : ∃ c, base = c * 2 ^ k)
    (hk : 4 + k ≤ u.uwnbits) : ∃ u', u.offset = (base + o % 2 ^ k + 1, u') ∧ Reads u' xs := by
  obtain ⟨ht, hr⟩ := h.takeBits (by omega)
  obtain ⟨ht', hr'⟩ := hr.takeBits (show k ≤ u.uwnbits - 4 by omega)
  obtain ⟨c, rfl⟩ := hdiv
  refine ⟨_, ?_, hr'⟩
  rw [Decoder.offset, ht]
  dsimp only
  rw [show (2 : Nat) ^ 4 = 16 from rfl, hbits, hbase, ht', ← Nat.shiftLeft_eq, Nat.shiftLeft_add_eq_or_of_lt]
  exact Nat.mod_lt _ (Nat.two_pow_pos k)

/-- What `offCode_bits` says of an offset: a base and what is above it. -/
def OffBits (off : Nat) (code : List Bool) : Prop :=
  ∃ v k base, code = toBits 4 v ++ toBits k (off - 1) ∧ offbits.getD (v % 16) 0 = k ∧ offbase.getD (v % 16) 0 = base ∧
    (∃ c, base = c * 2 ^ k) ∧ k ≤ 13 ∧ base + (off - 1) % 2 ^ k + 1 = off

/-- The codes that have three bits for the size: the first of the others is the fourth. -/
theorem offBits_small {c : Nat} (hoff : 1 ≤ off)
    (htab : ∀ t < 2, offbits.getD ((a * 2 + t) % 16) 0 = k ∧ offbase.getD ((a * 2 + t) % 16) 0 = (c + t) * 2 ^ k) (hk : k ≤ 13)
    (ho : (off - 1) / 2 ^ k = c + (off - 1) / 2 ^ k % 2) : OffBits off (toBits 3 a ++ toBits (1 + k) (off - 1)) := by
  obtain ⟨hbits, hbase⟩ := htab _ (Nat.mod_lt ((off - 1) / 2 ^ k) (by decide))
  refine ⟨_, k, _, ?_, hbits, hbase, ⟨_, rfl⟩, hk, ?_⟩
  · rw [toBits_add, ← append_assoc, toBits_append]
    rfl
  · rw [← ho, Nat.div_add_mod']
    omega

theorem offCode_bits (h : 1 ≤ off) (hoff : off ≤ whackMaxOff) : OffBits off (offCode off) := by
  obtain ⟨_, _, _⟩ := offSize_spec (off - 1)
  rw [offCode]
  generalize offSize (off - 1) = bits at *
  unfold whackMaxOff at hoff
  unfold minOffBits at *
  have hbits : bits ≤ 14 := by
    by_contra hb
    have := Nat.pow_le_pow_right (show 0 < 2 by decide) (show 14 ≤ bits - 1 by omega)
    omega
  have hcases : bits = 6 ∨ bits = 7 ∨ bits = 8 ∨ bits = 9 ∨ bits = 10 ∨ bits = 11 ∨ bits = 12 ∨ bits = 13 ∨ bits = 14 := by omega
  rcases hcases with rfl | rfl | rfl | rfl | rfl | rfl | rfl | rfl | rfl
  · exact @offBits_small off 0 5 0 h (by decide) (by decide) (by omega)
  · exact @offBits_small off 1 5 2 h (by decide) (by decide) (by omega)
  · exact @offBits_small off 2 6 2 h (by decide) (by decide) (by omega)
  · exact @offBits_small off 3 7 2 h (by decide) (by decide) (by omega)
  · exact @offBits_small off 4 8 2 h (by decide) (by decide) (by omega)
  · exact @offBits_small off 5 9 2 h (by decide) (by decide) (by omega)
  · exact @offBits_small off 6 10 2 h (by decide) (by decide) (by omega)
  · exact ⟨0xe, 12, 0x1000, rfl, rfl, rfl, ⟨1, rfl⟩, by decide, by omega⟩
  · exact ⟨0xf, 13, 0x2000, rfl, rfl, rfl, ⟨1, rfl⟩, by decide, by omega⟩

/-- **An offset** is decoded. -/
theorem offset_eq (h : Reads u (offCode off ++ xs)) (hlo : 1 ≤ off)
    (hoff : off ≤ whackMaxOff) (hk : 17 ≤ u.uwnbits) : ∃ u', u.offset = (off, u') ∧ Reads u' xs := by
  obtain ⟨v, k, _, hcode, hbits, hbase, hdiv, _, hsum⟩ := offCode_bits hlo hoff
  rw [hcode, append_assoc] at h
  obtain ⟨u', hu, hr⟩ := offset_base h hbits hbase hdiv (by omega)
  rw [hsum] at hu
  exact ⟨u', hu, hr⟩

theorem offCode_length (h : 1 ≤ off) (hoff : off ≤ whackMaxOff) : 9 ≤ (offCode off).length := by
  obtain ⟨v, k, _, hcode, _, -⟩ := offCode_bits h hoff
  have hall : ∀ v < 16, 5 ≤ offbits.getD v 0 := by decide
  have := hall (v % 16) (Nat.mod_lt _ (by decide))
  rw [hcode, length_append, length_toBits, length_toBits]
  omega

/-! ## Rounds -/

theorem tokenBits_length {d : List UInt8} {t : Token} (ht : t.OK d) : 8 ≤ (tokenBits hist t).length := by
  cases t with
  | lit b =>
    rw [tokenBits, litBits]
    split
    · simp
    · split
      · split <;> simp
      · simp
  | copy len off =>
    have := offCode_length ht.2.2.1 ht.2.2.2.1
    rw [tokenBits, length_append]
    omega

/-- **A round** takes the bits of a token and does what it says. -/
theorem unwhackRound_eq {d : List UInt8} {t : Token}
    (h : Reads u (tokenBits hist t ++ xs)) (ht : t.OK d) (hroom : (t.expand d).length ≤ ndst) :
    ∃ u', unwhackRound ndst d hist u = .ok (t.expand d, t.nextHist hist, u') ∧ Reads u' xs := by
  obtain ⟨hf, h25⟩ := fill_reads h
  rw [unwhackRound]
  generalize fill u = u at hf h25
  cases t with
  | lit b =>
    have hb : b.toNat < 256 := b.toNat_lt
    obtain ⟨u', hlit, hr⟩ := literal_eq hf hb h25
    have hd : ¬ d.length ≥ ndst := by
      rw [Token.expand, length_append, length_singleton] at hroom
      omega
    refine ⟨u', ?_, hr⟩
    simp only [litBits_peek hf hb (by omega), if_true, hlit, if_neg hd, histNext_eq, UInt8.ofNat_toNat]
    rfl
  | copy len off =>
    obtain ⟨hlo, hhi, hoff, hoff', _⟩ := ht
    rw [tokenBits, append_assoc] at hf
    have hxs : 3 ≤ (offCode off ++ xs).length := by
      have := offCode_length hoff hoff'
      rw [length_append]
      omega
    obtain ⟨hl, _, hlen, hr1, h17⟩ := length_eq hf hlo hhi hxs h25
    obtain ⟨u2, hu2, hr2⟩ := offset_eq hr1 hoff hoff' h17
    have hdn : ¬ d.length + len > ndst := by
      rw [Token.expand, length_copy] at hroom
      omega
    refine ⟨u2, ?_, hr2⟩
    simp only [if_neg hl, hlen, hu2, if_neg (show ¬ off > d.length by omega), if_neg hdn]
    rfl

theorem Reads.count (h : Reads u xs) : u.uwnbits + 8 * u.src.length = xs.length + u.overbits := by
  obtain ⟨_, hps, heq⟩ := h.held
  have := congrArg length heq
  rwa [length_append, length_append, hps.length, length_ofBytes, length_replicate] at this

theorem unwhackLoop_eq {pad : Nat} (hpad : pad < 8) : ∀ (ts : List Token) (k hist : Nat) (d : List UInt8) (u : Decoder),
    Reads u (codeBits hist ts ++ List.replicate pad false) → AllOK d ts → (expandAll d ts).length ≤ ndst → ts.length < k →
    unwhackLoop ndst k d hist u = some (.ok (expandAll d ts)) := by
  intro ts
  induction ts with
  | nil =>
    intro k hist d u h _ _ hk
    obtain ⟨k, rfl⟩ : ∃ l, k = l + 1 := ⟨k - 1, by omega⟩
    have hcount := h.count
    rw [codeBits, nil_append, length_replicate] at hcount
    -- with bytes to come there would be eight bits or more
    have hsrc : u.src = [] := by
      by_contra hne
      have h0 := h.overbits hne
      have := length_pos_iff.2 hne
      omega
    rw [hsrc, length_nil] at hcount
    rw [unwhackLoop, if_neg, if_neg]
    · rfl
    · omega
    rintro (hne | hge)
    · exact hne hsrc
    · unfold minDecode at hge
      omega
  | cons t ts ih =>
    intro k hist d u h hok hroom hk
    obtain ⟨k, rfl⟩ : ∃ l, k = l + 1 := ⟨k - 1, by omega⟩
    have hcount := h.count
    have h8 := @tokenBits_length hist d t hok.1
    rw [codeBits, append_assoc, length_append] at hcount
    rw [codeBits, append_assoc] at h
    have hgo : u.src ≠ [] ∨ (u.uwnbits : Int) - u.overbits ≥ minDecode := by
      by_cases hsrc : u.src = []
      · rw [hsrc, length_nil] at hcount
        right
        unfold minDecode
        omega
      · exact Or.inl hsrc
    rw [length_cons] at hk
    obtain ⟨u', hround, hr⟩ := unwhackRound_eq h hok.1 (Nat.le_trans (length_le_expandAll ts _) hroom)
    rw [unwhackLoop, if_pos hgo, hround]
    exact ih k _ _ u' hr hok.2 hroom (by omega)

theorem codeBits_length : ∀ (ts : List Token) (d : List UInt8) (hist : Nat), AllOK d ts → 8 * ts.length ≤ (codeBits hist ts).length := by
  intro ts
  induction ts with
  | nil => intro d hist _; exact Nat.zero_le _
  | cons t ts ih =>
    intro d hist hok
    have h8 := @tokenBits_length hist d t hok.1
    have := ih (t.expand d) (t.nextHist hist) hok.2
    rw [codeBits, length_append, length_cons]
    omega

/-- **Decoding**: bytes that are the code of tokens, filled up with zeros, become what the tokens say. -/
theorem unwhack_eq {pad : Nat} {src : List UInt8} {ts : List Token} (hpad : pad < 8)
    (hsrc : ofBytes src = codeBits (2 ^ 32 - 1) ts ++ List.replicate pad false) (hok : AllOK [] ts)
    (hroom : (expandAll [] ts).length ≤ ndst) : unwhack ndst src = some (.ok (expandAll [] ts)) := by
  have hreads : Reads ⟨src, 0, 0, 0⟩ (codeBits (2 ^ 32 - 1) ts ++ replicate pad false) :=
    ⟨⟨[], Held.zero, by simpa using hsrc⟩, fun _ => rfl, Nat.zero_le _⟩
  refine unwhackLoop_eq hpad ts _ _ _ _ hreads hok hroom ?_
  have hlen := congrArg length hsrc
  have := codeBits_length ts [] (2 ^ 32 - 1) hok
  rw [length_ofBytes, length_append] at hlen
  omega

end Plan9.Venti
