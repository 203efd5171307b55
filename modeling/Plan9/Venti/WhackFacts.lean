/-
What `whack` writes is the code of tokens that spell the block, and `unwhack` reads
it back.

A time in the tables is that of a string further back in the block, or the zero of
`whackinit`; taken for a time, zero is out of reach until the clock has gone round
to it, and then it is a string of the block as well (`Stamp.off_le`). So a match is found
in what the decoder has written by then, and its bytes are compared.
-/
import Plan9.Venti.UnwhackFacts

namespace Plan9.Venti

open Bits Bytes List

/-! ## Matches -/

/-- What may be in the tables when the first `s` strings are. -/
def Stamp (s v : Nat) : Prop := v = 0 ∨ ∃ i < s, v = (2 ^ 15 + i) % 2 ^ 16

variable {n wbits s v off : Nat} {src : List UInt8} {c c' : Coder} {ts : List Token} {xs : List Bool}

theorem Stamp.mono {s' : Nat} (h : Stamp s v) (hs : s ≤ s') : Stamp s' v := by
  rcases h with h | ⟨i, hi, hv⟩
  · exact Or.inl h
  · exact Or.inr ⟨i, by omega, hv⟩

theorem Stamp.off_le (h : Stamp s v) (hs : s < 2 ^ 16)
    (hoff : ((2 ^ 15 + s) % 2 ^ 16 + 2 ^ 16 - v) % 2 ^ 16 ≤ whackMaxOff) : ((2 ^ 15 + s) % 2 ^ 16 + 2 ^ 16 - v) % 2 ^ 16 ≤ s := by
  unfold whackMaxOff at hoff
  rcases h with rfl | ⟨i, hi, rfl⟩ <;> omega

structure Tables (w : Whack) (s : Nat) : Prop where
  hash : ∀ h, Stamp s (w.hash h)
  next : ∀ i, Stamp s (w.next i)

/-- A match at `s`, or none. -/
def IsMatch (src : List UInt8) (s esrc off len : Nat) : Prop :=
  len = 0 ∨ minMatch ≤ len ∧ 1 ≤ off ∧ off ≤ whackMaxOff ∧ off ≤ s ∧ s + len ≤ esrc ∧
    ∀ k < len, byteAt src (s + k) = byteAt src (s + k - off)

theorem extend_spec (src : List UInt8) : ∀ (k s t : Nat), s ≤ extend src k s t ∧ extend src k s t ≤ s + k ∧
    ∀ i < extend src k s t - s, byteAt src (s + i) = byteAt src (t + i) := by
  intro k
  induction k with
  | zero => intro s t; simp [extend]
  | succ k ih =>
    intro s t
    rw [extend]
    split
    · rename_i heq
      obtain ⟨_, _, hall⟩ := ih (s + 1) (t + 1)
      refine ⟨by omega, by omega, fun i hi => ?_⟩
      cases i with
      | zero => exact heq
      | succ i =>
        have := hall i (by omega)
        rwa [Nat.add_right_comm, Nat.add_right_comm t] at this
    · exact ⟨le_rfl, by omega, fun i hi => by omega⟩

theorem matchLoop_spec {w : Whack} {check0 : Int} {esrc now : Nat} (hw : Tables w s)
    (hnow : now = (2 ^ 15 + s) % 2 ^ 16) (hs : s + minMatch ≤ esrc) (hlt : s < 2 ^ 16) :
    ∀ (check thn last bestoff bestlen : Nat), Stamp s thn → IsMatch src s esrc bestoff bestlen →
      ∃ off len, matchLoop w check0 src s esrc now check thn last bestoff bestlen = some (off, len) ∧ IsMatch src s esrc off len := by
  intro check
  induction check with
  | zero => intro thn last bestoff bestlen _ hbest; exact ⟨bestoff, bestlen, rfl, hbest⟩
  | succ check ih =>
    intro thn last bestoff bestlen hthn hbest
    have hnext := hw.next (thn &&& (whackMaxOff - 1))
    have hoff := hthn.off_le hlt
    rw [← hnow] at hoff
    rw [matchLoop]
    dsimp only
    generalize (now + 2 ^ 16 - thn) % 2 ^ 16 = off at *
    by_cases hstop : off ≤ last ∨ off > whackMaxOff
    · rw [if_pos hstop]
      exact ⟨bestoff, bestlen, rfl, hbest⟩
    have hoffs := hoff (by omega)
    rw [if_neg hstop, if_neg (by omega)]
    by_cases hthree : byteAt src s = byteAt src (s - off) ∧ byteAt src (s + 1) = byteAt src (s - off + 1) ∧
        byteAt src (s + 2) = byteAt src (s - off + 2)
    · rw [if_pos hthree]
      split
      · obtain ⟨_, _, hall⟩ := extend_spec src (esrc - (s + 3)) (s + 3) (s - off + 3)
        have hmatch : IsMatch src s esrc off (extend src (esrc - (s + 3)) (s + 3) (s - off + 3) - s) := by
          unfold minMatch at hs
          refine Or.inr ⟨by unfold minMatch; omega, by omega, by omega, hoffs, by omega, fun k hk => ?_⟩
          rw [show s + k - off = s - off + k by omega]
          rcases Nat.lt_or_ge k 3 with hk3 | hk3
          · have hk' : k = 0 ∨ k = 1 ∨ k = 2 := by omega
            rcases hk' with rfl | rfl | rfl
            · exact hthree.1
            · exact hthree.2.1
            · exact hthree.2.2
          · have := hall (k - 3) (by omega)
            rwa [show s + 3 + (k - 3) = s + k by omega, show s - off + 3 + (k - 3) = s - off + k by omega] at this
        split
        · split
          · exact ⟨_, _, rfl, hmatch⟩
          · exact ih _ _ _ _ hnext hmatch
        · exact ih _ _ _ _ hnext hbest
      · exact ih _ _ _ _ hnext hbest
    · rw [if_neg hthree]
      exact ih _ _ _ _ hnext hbest

/-- **A match** is a string of the block before, of bytes that are the same. -/
theorem whackmatch_spec {w : Whack} {check : Int} {now : Nat} (h : Nat) (hw : Tables w s)
    (hnow : now = (2 ^ 15 + s) % 2 ^ 16) (hlt : s < 2 ^ 16) :
    ∃ toff len, whackmatch w check src s src.length h now = some (toff, s + len) ∧
      (len < minMatch ∨ len ≤ maxLen ∧ ∃ off : Nat, toff = off ∧ IsMatch src s src.length off len) := by
  rw [whackmatch]
  by_cases hend : src.length < s + minMatch
  · rw [if_pos hend]
    exact ⟨-1, 0, rfl, Or.inl (by decide)⟩
  rw [if_neg hend]
  dsimp only
  have hesrc : s + minMatch ≤ (if s + maxLen < src.length then s + maxLen else src.length) := by
    unfold minMatch maxLen at *
    split <;> omega
  obtain ⟨off, len, heq, hmatch⟩ := @matchLoop_spec s src w check _ now hw hnow hesrc hlt check.toNat (w.hash h) 0 0
    0 (hw.hash h) (Or.inl rfl)
  rw [heq]
  refine ⟨off, len, rfl, ?_⟩
  rcases hmatch with rfl | ⟨hlo, h1, h₂, h3, h4, hall⟩
  · exact Or.inl (by decide)
  · refine Or.inr ⟨?_, off, rfl, Or.inr ⟨hlo, h1, h₂, h3, ?_, hall⟩⟩
    · split at h4 <;> omega
    · split at h4 <;> omega

theorem take_succ_byte (hs : s < src.length) : src.take s ++ [byteAt src s] = src.take (s + 1) := by
  rw [take_add_one, byteAt, getD_eq_getElem?_getD, getElem?_eq_getElem hs]
  rfl

/-- A match copied from what is there is more of the block. -/
theorem copy_take (hoff : 1 ≤ off) (hs : off ≤ s) : ∀ (len : Nat), s + len ≤ src.length →
    (∀ k < len, byteAt src (s + k) = byteAt src (s + k - off)) → copy off len (src.take s) = src.take (s + len) := by
  intro len
  induction len generalizing s with
  | zero => intro _ _; rfl
  | succ len ih =>
    intro hlen hall
    have hlt : s < src.length := by omega
    have hd : (src.take s).length = s := by rw [length_take]; omega
    have hbyte : byteAt (src.take s) (s - off) = byteAt src s := by
      have h0 := hall 0 (by omega)
      rw [Nat.add_zero] at h0
      rw [h0, byteAt, byteAt, getD_eq_getElem?_getD, getD_eq_getElem?_getD, getElem?_take_of_lt (by omega)]
    rw [copy, hd, hbyte, take_succ_byte hlt, ih (by omega) (by omega) (fun k hk => ?_), Nat.add_right_comm, Nat.add_assoc]
    have := hall (k + 1) (by omega)
    rwa [← Nat.add_assoc, Nat.add_right_comm] at this

/-! ## Bits out -/

/-- Bytes and what is in the word. -/
structure Wrote (wdst : List UInt8) (wbits wnbits : Nat) (xs : List Bool) : Prop where
  held : ∃ ps, Held wbits wnbits ps ∧ ofBytes wdst ++ ps = xs
  room : wnbits ≤ 32

theorem Wrote.put {wdst : List UInt8} {wnbits k : Nat} (h : Wrote wdst wbits wnbits xs) (hv : v < 2 ^ k)
    (hroom : wnbits + k ≤ 32) : Wrote wdst ((wbits <<< k ||| v) % 2 ^ 32) (wnbits + k) (xs ++ toBits k v) := by
  obtain ⟨_, hps, rfl⟩ := h.held
  exact ⟨⟨_, hps.push hv hroom, (append_assoc _ _ _).symm⟩, hroom⟩

theorem Wrote.byte {wdst : List UInt8} {wnbits : Nat} (h : Wrote wdst wbits wnbits xs) (h8 : 8 ≤ wnbits) :
    Wrote (wdst ++ [UInt8.ofNat (wbits >>> (wnbits - 8))]) wbits (wnbits - 8) xs := by
  obtain ⟨ps, hps, rfl⟩ := h.held
  have hlen := hps.length
  have htop : (ps.take 8).length = 8 := by rw [length_take]; omega
  have hrest : (ps.drop 8).length = wnbits - 8 := by rw [length_drop]; omega
  rw [← take_append_drop 8 ps] at hps
  obtain ⟨hval, hheld⟩ := hps.pop
  rw [hrest, htop] at hval
  rw [hrest] at hheld
  have hbyte : toBits 8 (UInt8.ofNat (wbits >>> (wnbits - 8))).toNat = ps.take 8 := by
    rw [UInt8.toNat_ofNat', hval]
    have := toBits_ofBits (ps.take 8)
    rwa [htop] at this
  refine ⟨⟨ps.drop 8, hheld, ?_⟩, by have := h.room; omega⟩
  rw [ofBytes_append, ofBytes_cons, hbyte, ofBytes_nil, append_nil, append_assoc, take_append_drop]

theorem flushLoop_wrote : ∀ (k wnbits wnbits' : Nat) (wdst wdst' : List UInt8),
    Wrote wdst wbits wnbits xs → 8 * k ≤ wnbits → wdst.length ≤ n → flushLoop n wbits k wnbits wdst = some (wnbits', wdst') →
    Wrote wdst' wbits wnbits' xs ∧ wnbits' = wnbits - 8 * k ∧ wdst'.length ≤ n := by
  intro k
  induction k with
  | zero =>
    intro wnbits wnbits' wdst wdst' h _ hn heq
    cases heq
    exact ⟨h, rfl, hn⟩
  | succ k ih =>
    intro wnbits wnbits' wdst wdst' h hk hn heq
    rw [flushLoop] at heq
    split at heq
    · cases heq
    · obtain ⟨hw, _, hlen⟩ := ih _ _ _ _ (h.byte (by omega)) (by omega) (by rw [length_append, length_singleton]; omega) heq
      exact ⟨hw, by omega, hlen⟩

/-- What is true of the coder when it has coded `ts`. -/
structure Coded (n : Nat) (c : Coder) (xs : List Bool) : Prop where
  wrote : Wrote c.wdst c.wbits c.wnbits xs
  dst : c.wdst.length ≤ n

/-- Two coders that differ at most in the bits. -/
structure SameBut (c c' : Coder) : Prop where
  w : c'.w = c.w
  now : c'.now = c.now
  s : c'.s = c.s
  cont : c'.cont = c.cont
  lithist : c'.lithist = c.lithist

theorem SameBut.trans {c'' : Coder} (h : SameBut c c') (h' : SameBut c' c'') : SameBut c c'' :=
  ⟨h'.w.trans h.w, h'.now.trans h.now, h'.s.trans h.s, h'.cont.trans h.cont, h'.lithist.trans h.lithist⟩

theorem flush_coded (h : Coded n c xs) (heq : flush n c = some c') :
    Coded n c' xs ∧ c'.wnbits = c.wnbits % 8 ∧ SameBut c c' := by
  rw [flush] at heq
  cases hf : flushLoop n c.wbits (c.wnbits / 8) c.wnbits c.wdst with
  | none => rw [hf] at heq; cases heq
  | some r =>
    obtain ⟨wnbits', _⟩ := r
    rw [hf] at heq
    cases heq
    obtain ⟨hw, _, hlen⟩ := flushLoop_wrote _ _ _ _ _ h.wrote (by omega) h.dst hf
    exact ⟨⟨hw, hlen⟩, show wnbits' = c.wnbits % 8 by omega, ⟨rfl, rfl, rfl, rfl, rfl⟩⟩

theorem put_coded {k : Nat} (h : Coded n c xs) (hv : v < 2 ^ k) (hroom : c.wnbits + k ≤ 32) :
    Coded n (c.put k v) (xs ++ toBits k v) :=
  ⟨h.wrote.put hv hroom, h.dst⟩

theorem literal_coded {b : Nat} (h : Coded n c xs) (hb : b < 256) (hroom : c.wnbits ≤ 7) :
    Coded n (c.literal b) (xs ++ litBits c.lithist b) ∧ (c.literal b).lithist = histNext c.lithist b ∧
      (c.literal b).w = c.w ∧ (c.literal b).now = c.now ∧ (c.literal b).s = c.s ∧ (c.literal b).cont = c.cont := by
  have hbit : histBit b = if b < 32 ∨ b > 127 then 1 else 0 := rfl
  have h16 : histNext c.lithist b / 2 % 16 = c.lithist % 16 := by
    unfold histNext
    have : histBit b ≤ 1 := by rw [hbit]; split <;> decide
    omega
  have h2 : histNext c.lithist b % 2 = histBit b := by
    unfold histNext
    have : histBit b ≤ 1 := by rw [hbit]; split <;> decide
    omega
  have hcond : (histNext c.lithist b &&& 0x1e ≠ 0) = (c.lithist % 16 ≠ 0) := by
    rw [eq_iff_iff, and_30, h16]
  have hcond' : (histNext c.lithist b &&& 1 ≠ 0) = (b < 32 ∨ b > 127) := by
    rw [eq_iff_iff, and_1, h2, hbit]
    split <;> simp_all
  rw [Coder.literal, histNext_eq, litBits]
  simp only [hcond, hcond', and_255]
  split
  · exact ⟨@put_coded n b { c with lithist := _ } xs 9 ⟨h.wrote, h.dst⟩ (by omega) (by dsimp only; omega), rfl, rfl, rfl, rfl, rfl⟩
  split
  · split
    · exact ⟨@put_coded n _ { c with lithist := _ } xs 10 ⟨h.wrote, h.dst⟩ (by omega) (by dsimp only; omega), rfl, rfl, rfl, rfl, rfl⟩
    · exact ⟨@put_coded n _ { c with lithist := _ } xs 11 ⟨h.wrote, h.dst⟩ (by omega) (by dsimp only; omega), rfl, rfl, rfl, rfl, rfl⟩
  · exact ⟨@put_coded n b { c with lithist := _ } xs 8 ⟨h.wrote, h.dst⟩ (by omega) (by dsimp only; omega), rfl, rfl, rfl, rfl, rfl⟩

theorem length_coded {len : Nat} (h : Coded n c xs) (hhi : len ≤ maxLen)
    (hroom : c.wnbits ≤ 7) (heq : c.length n (len - minMatch) = some c') :
    Coded n c' (xs ++ lenBits len) ∧ c'.wnbits ≤ 15 ∧ SameBut c c' := by
  rw [Coder.length] at heq
  rw [lenBits]
  by_cases hfast : len - minMatch < maxFastLen
  · rw [if_pos hfast] at heq ⊢
    cases heq
    have htab : ∀ l < 9, (lentab.getD l (0, 0)).2 < 2 ^ (lentab.getD l (0, 0)).1 ∧ (lentab.getD l (0, 0)).1 ≤ 8 := by decide
    obtain ⟨hv, _⟩ := htab _ hfast
    exact ⟨put_coded h hv (by omega), show c.wnbits + _ ≤ 15 by omega, ⟨rfl, rfl, rfl, rfl, rfl⟩⟩
  rw [if_neg hfast] at heq ⊢
  obtain ⟨j, hj, hloop⟩ := bigLoop_long hfast
  rw [hloop] at heq ⊢
  have h18 := hj.le hhi
  obtain ⟨hc, _, hsame⟩ := flush_coded (put_coded h (hj.code_lt hhi) (show c.wnbits + (6 + j) ≤ 32 by omega)) heq
  exact ⟨hc, by omega, ⟨hsame.w, hsame.now, hsame.s, hsame.cont, hsame.lithist⟩⟩

theorem offset_coded (h : Coded n c xs) (hlo : 1 ≤ off) (hoff : off ≤ whackMaxOff)
    (hroom : c.wnbits ≤ 15) : Coded n (c.offset off) (xs ++ offCode off) ∧ SameBut c (c.offset off) := by
  obtain ⟨-, hge, -⟩ := offSize_spec (off - 1)
  have hbits : offSize (off - 1) ≤ 14 := by
    by_contra hb
    unfold whackMaxOff at hoff
    unfold minOffBits at hge
    have := Nat.pow_le_pow_right (show 0 < 2 by decide) (show 14 ≤ offSize (off - 1) - 1 by omega)
    omega
  rw [Coder.offset, offCode]
  dsimp only
  rw [← offSize]
  generalize offSize (off - 1) = bits at *
  unfold minOffBits maxOffBits at *
  unfold minOffBits at *
  by_cases hsmall : bits < 6 + 8 - 1
  · rw [if_pos hsmall, if_pos hsmall]
    have hfirst := put_coded h (show bits - 6 < 2 ^ 3 by omega) (by omega)
    have hk : (if bits ≠ 6 then bits - 1 else bits) ≤ 12 := by split <;> omega
    generalize (if bits ≠ 6 then bits - 1 else bits) = k at *
    have hsecond := put_coded hfirst (Nat.mod_lt (off - 1) (Nat.two_pow_pos k)) (show c.wnbits + 3 + k ≤ 32 by omega)
    rw [toBits_mod] at hsecond
    refine ⟨⟨?_, h.dst⟩, ⟨rfl, rfl, rfl, rfl, rfl⟩⟩
    rw [Nat.one_shiftLeft, Nat.and_two_pow_sub_one_eq_mod, ← append_assoc, Nat.add_comm k 3, ← Nat.add_assoc]
    exact hsecond.wrote
  rw [if_neg hsmall, if_neg hsmall]
  have hv : (0xe ||| (bits - (6 + 8 - 1))) < 2 ^ 4 := Nat.or_lt_two_pow (by decide) (by omega)
  have hfirst := put_coded h hv (by omega)
  have hsecond := put_coded hfirst (Nat.mod_lt (off - 1) (Nat.two_pow_pos (bits - 1))) (show c.wnbits + 4 + (bits - 1) ≤ 32 by omega)
  rw [toBits_mod] at hsecond
  refine ⟨⟨?_, h.dst⟩, ⟨rfl, rfl, rfl, rfl, rfl⟩⟩
  rw [Nat.one_shiftLeft, Nat.and_two_pow_sub_one_eq_mod, ← append_assoc, Nat.add_comm (bits - 1) 4, ← Nat.add_assoc,
    Nat.or_assoc]
  exact hsecond.wrote

/-! ## Rounds -/

/-- **The coder** between rounds: the bits are the code of `ts`, and `ts` spells the block up to `s`. -/
structure Coding (src : List UInt8) (c : Coder) (ts : List Token) : Prop where
  coded : Coded src.length c (codeBits (2 ^ 32 - 1) ts)
  hist : c.lithist = histAll (2 ^ 32 - 1) ts
  ok : AllOK [] ts
  expand : expandAll [] ts = src.take c.s
  s : c.s ≤ src.length
  now : c.now = (2 ^ 15 + c.s) % 2 ^ 16
  tables : Tables c.w c.s

theorem advance_spec (src : List UInt8) (h : Nat) (hnow : c.now = (2 ^ 15 + c.s) % 2 ^ 16) (ht : Tables c.w c.s) :
    let c' := c.advance src h
    c'.s = c.s + 1 ∧ c'.now = (2 ^ 15 + c'.s) % 2 ^ 16 ∧ Tables c'.w c'.s ∧ c'.wdst = c.wdst ∧ c'.wbits = c.wbits ∧
      c'.wnbits = c.wnbits ∧ c'.lithist = c.lithist := by
  rw [Coder.advance]
  dsimp only
  split
  · refine ⟨rfl, ?_, ⟨fun i => ?_, fun i => ?_⟩, rfl, rfl, rfl, rfl⟩
    · dsimp only
      omega
    · dsimp only
      rw [Function.update_apply]
      split
      · exact Or.inr ⟨c.s, Nat.lt_succ_self _, hnow⟩
      · exact (ht.hash i).mono (Nat.le_succ _)
    dsimp only
    rw [Function.update_apply]
    split
    · exact (ht.hash h).mono (Nat.le_succ _)
    · exact (ht.next i).mono (Nat.le_succ _)
  · refine ⟨rfl, ?_, ⟨fun i => (ht.hash i).mono (Nat.le_succ _), fun i => (ht.next i).mono (Nat.le_succ _)⟩, rfl, rfl, rfl, rfl⟩
    omega

theorem advanceMatch_spec (src : List UInt8) : ∀ (k : Nat) {c : Coder}, c.now = (2 ^ 15 + c.s) % 2 ^ 16 → Tables c.w c.s →
    let c' := c.advanceMatch src k
    c'.s = c.s + k ∧ c'.now = (2 ^ 15 + c'.s) % 2 ^ 16 ∧ Tables c'.w c'.s ∧ c'.wdst = c.wdst ∧ c'.wbits = c.wbits ∧
      c'.wnbits = c.wnbits ∧ c'.lithist = c.lithist := by
  intro k
  induction k with
  | zero => intro c hnow ht; exact ⟨rfl, hnow, ht, rfl, rfl, rfl, rfl⟩
  | succ k ih =>
    intro c hnow ht
    obtain ⟨hs, hnow', ht', h1, h₂, h3, h4⟩ := advance_spec src (hashit c.cont) hnow ht
    obtain ⟨gs, gnow, gt, g1, g2, g3, g4⟩ := ih hnow' ht'
    refine ⟨?_, gnow, gt, g1.trans h1, g2.trans h₂, g3.trans h3, g4.trans h4⟩
    rw [Coder.advanceMatch, gs, hs]
    omega

theorem Coding.advanced {t : Token} (h : Coding src c ts)
    (hcoded : Coded src.length c' (codeBits (2 ^ 32 - 1) (ts ++ [t]))) (hhist : c'.lithist = t.nextHist c.lithist)
    (hok : t.OK (src.take c.s)) (hexp : t.expand (src.take c.s) = src.take c'.s) (hs : c'.s ≤ src.length)
    (hnow : c'.now = (2 ^ 15 + c'.s) % 2 ^ 16) (htables : Tables c'.w c'.s) : Coding src c' (ts ++ [t]) := by
  refine ⟨hcoded, ?_, ?_, ?_, hs, hnow, htables⟩
  · rw [hhist, h.hist, histAll_snoc]
  · rw [allOK_snoc, h.expand]
    exact ⟨h.ok, hok⟩
  · rw [expandAll_snoc, h.expand, hexp]

theorem literal_coding (hash : Nat) (h : Coding src c ts) (hs : c.s < src.length)
    (hcoded : Coded src.length c' (codeBits (2 ^ 32 - 1) ts ++ litBits c.lithist (byteAt src c.s).toNat))
    (hhist : c'.lithist = histNext c.lithist (byteAt src c.s).toNat) (hw : c'.w = c.w) (hnow : c'.now = c.now) (hs' : c'.s = c.s) :
    Coding src (c'.advance src hash) (ts ++ [.lit (byteAt src c.s)]) ∧ c.s < (c'.advance src hash).s := by
  obtain ⟨as, anow, atab, a1, a2, a3, a4⟩ := @advance_spec c' src hash (by rw [hnow, hs']; exact h.now) (by rw [hw, hs']; exact h.tables)
  rw [hs'] at as
  refine ⟨h.advanced ?_ ?_ trivial ?_ ?_ anow atab, by omega⟩
  · rw [codeBits_snoc, ← h.hist]
    exact ⟨by rw [a1, a2, a3]; exact hcoded.wrote, by rw [a1]; exact hcoded.dst⟩
  · rw [a4, hhist]
    rfl
  · rw [as]
    exact take_succ_byte hs
  · omega

theorem match_coding {len : Nat} (h : Coding src c ts)
    (hm : IsMatch src c.s src.length off len) (hlo : minMatch ≤ len) (hhi : len ≤ maxLen)
    (hcoded : Coded src.length c' (codeBits (2 ^ 32 - 1) ts ++ (lenBits len ++ offCode off))) (hsame : SameBut c c') :
    Coding src (c'.advanceMatch src len) (ts ++ [.copy len off]) ∧ c.s < (c'.advanceMatch src len).s := by
  obtain ⟨as, anow, atab, a1, a2, a3, a4⟩ := @advanceMatch_spec src len c' (by rw [hsame.now, hsame.s]; exact h.now)
    (by rw [hsame.w, hsame.s]; exact h.tables)
  rw [hsame.s] at as
  unfold minMatch at hlo
  rcases hm with h0 | ⟨-, hoff, hoff', hoffs, hend, hall⟩
  · omega
  have hlen : (src.take c.s).length = c.s := by rw [length_take]; have := h.s; omega
  refine ⟨h.advanced ?_ ?_ ⟨hlo, hhi, hoff, hoff', by rwa [hlen]⟩ ?_ ?_ anow atab, by omega⟩
  · rw [codeBits_snoc]
    exact ⟨by rw [a1, a2, a3]; exact hcoded.wrote, by rw [a1]; exact hcoded.dst⟩
  · rw [a4, hsame.lithist]
    rfl
  · rw [as]
    exact copy_take hoff hoffs len hend hall
  · omega

/-- **A round** codes one token, or gives up. -/
theorem round_spec (check : Int) (h : Coding src c ts)
    (hs : c.s < src.length) (hn : src.length < 2 ^ 16) :
    c.round check src ≠ .outside ∧ ∀ c', c.round check src = .next c' → ∃ t, Coding src c' (ts ++ [t]) ∧ c.s < c'.s := by
  obtain ⟨_, len, hmatch, hlen⟩ := @whackmatch_spec c.s src c.w check c.now (hashit c.cont) h.tables h.now (by omega)
  rw [Coder.round]
  rw [hmatch]
  cases hflush : flush src.length c with
  | none => exact ⟨nofun, nofun⟩
  | some c1 =>
    obtain ⟨hc1, _, hsame⟩ := flush_coded h.coded hflush
    dsimp only
    rw [hsame.s, Nat.add_sub_cancel_left]
    by_cases hlit : len < minMatch
    · rw [if_pos hlit]
      have hb : (byteAt src c.s).toNat < 256 := (byteAt src c.s).toNat_lt
      obtain ⟨hcode, hhist, hw, hnow, hs', _⟩ := literal_coded hc1 hb (by omega)
      split
      · exact ⟨nofun, nofun⟩
      refine ⟨nofun, fun c' heq => ⟨.lit (byteAt src c.s), ?_⟩⟩
      have hcode' : Coded src.length (c1.literal (byteAt src c.s).toNat)
          (codeBits (2 ^ 32 - 1) ts ++ litBits c.lithist (byteAt src c.s).toNat) := by
        rw [← hsame.lithist]
        exact hcode
      rw [hsame.lithist] at hhist
      injection heq with heq
      subst heq
      split
      · exact literal_coding _ h hs ⟨hcode'.wrote, hcode'.dst⟩ hhist (hw.trans hsame.w) (hnow.trans hsame.now) (hs'.trans hsame.s)
      · exact literal_coding _ h hs ⟨hcode'.wrote, hcode'.dst⟩ hhist (hw.trans hsame.w) (hnow.trans hsame.now) (hs'.trans hsame.s)
    rw [if_neg hlit]
    rcases hlen with hlen | ⟨hhi, off, rfl, hm⟩
    · exact absurd hlen hlit
    rw [if_neg (Nat.not_lt.2 hhi)]
    cases hl : c1.length src.length (len - minMatch) with
    | none => exact ⟨nofun, nofun⟩
    | some c2 =>
      refine ⟨nofun, fun c' heq => ⟨.copy len off, ?_⟩⟩
      injection heq with heq
      subst heq
      obtain ⟨hc2, h15, hsame2⟩ := length_coded hc1 hhi (by omega) hl
      have hoff : 1 ≤ off ∧ off ≤ whackMaxOff := by
        rcases hm with h0 | ⟨-, h1, h₂, -⟩
        · exact absurd (by rw [h0]; decide) hlit
        · exact ⟨h1, h₂⟩
      obtain ⟨hc3, hsame3⟩ := offset_coded hc2 hoff.1 hoff.2 h15
      rw [append_assoc] at hc3
      exact match_coding h hm (Nat.not_lt.1 hlit) hhi hc3 (hsame.trans (hsame2.trans hsame3))

/-! ## Runs -/

theorem whackLoop_spec (check : Int) (hn : src.length < 2 ^ 16) : ∀ (k : Nat) (c : Coder) (ts : List Token),
    Coding src c ts → src.length ≤ c.s + k → whackLoop check src k c ≠ .outside ∧
      ∀ c', whackLoop check src k c = .next c' → ∃ ts', Coding src c' ts' ∧ c'.s = src.length := by
  intro k
  induction k with
  | zero =>
    intro c ts h hk
    refine ⟨nofun, fun c' heq => ?_⟩
    injection heq with heq
    subst heq
    exact ⟨ts, h, Nat.le_antisymm h.s hk⟩
  | succ k ih =>
    intro c ts h hk
    rw [whackLoop]
    by_cases hs : c.s < src.length
    · rw [if_pos hs]
      obtain ⟨hout, hnext⟩ := round_spec check h hs hn
      cases hr : c.round check src with
      | outside => exact absurd hr hout
      | fail c1 => exact ⟨nofun, nofun⟩
      | next c1 =>
        obtain ⟨t, ht, _⟩ := hnext c1 hr
        exact ih c1 _ ht (by omega)
    rw [if_neg hs]
    refine ⟨nofun, fun c' heq => ?_⟩
    injection heq with heq
    subst heq
    exact ⟨ts, h, Nat.le_antisymm h.s (Nat.not_lt.1 hs)⟩

/-- The bits are filled up to whole bytes. -/
theorem pad_coded (h : Coded n c xs) :
    let c' := if c.wnbits &&& 7 ≠ 0 then
        { c with wbits := (c.wbits <<< (8 - (c.wnbits &&& 7))) % 2 ^ 32, wnbits := c.wnbits + (8 - (c.wnbits &&& 7)) }
      else c
    c'.wnbits % 8 = 0 ∧ ∃ pad < 8, Coded n c' (xs ++ replicate pad false) := by
  have h7 : c.wnbits &&& 7 = c.wnbits % 8 := Nat.and_two_pow_sub_one_eq_mod c.wnbits 3
  have hroom := h.wrote.room
  have hzero : ∀ k, toBits k 0 = replicate k false := by
    intro k
    induction k with
    | zero => rfl
    | succ k ih => rw [toBits, ih, replicate_succ, Nat.zero_div]; rfl
  rw [h7]
  split
  · have hput := put_coded h (Nat.two_pow_pos (8 - c.wnbits % 8)) (by omega)
    rw [hzero] at hput
    refine ⟨by dsimp only; omega, 8 - c.wnbits % 8, by omega, ?_⟩
    rw [Coder.put, Nat.or_zero] at hput
    exact hput
  · exact ⟨by omega, 0, by decide, by rwa [replicate_zero, append_nil]⟩

/-- **The round trip**: what `whack` returns is no longer than the block, and `unwhack` makes the block of it. -/
theorem whack_unwhack (compressblocks : Bool) (level : Nat) {src : List UInt8} (hn : src.length ≤ 65535) :
    ∃ w r, whack compressblocks (whackinit level).2 (whackinit level).1 src = some (w, r) ∧
      ∀ dst, r = some dst → dst.length ≤ src.length ∧ ∀ ndst ≥ src.length, unwhack ndst dst = some (.ok src) := by
  rw [whack]
  dsimp only
  by_cases hsmall : compressblocks = false ∨ src.length < minMatch
  · rw [if_pos hsmall]
    exact ⟨_, none, rfl, nofun⟩
  rw [if_neg hsmall]
  have hstart : Coding src ⟨(whackinit level).1, (whackinit level).1.begin, 0, src.length >>> 1,
      (byteAt src 0).toNat <<< 16 ||| (byteAt src 1).toNat <<< 8 ||| (byteAt src 2).toNat, 2 ^ 32 - 1, 0, 0, 0, []⟩ [] :=
    ⟨⟨⟨⟨[], Held.zero, rfl⟩, Nat.zero_le _⟩, Nat.zero_le _⟩, rfl, trivial, rfl, Nat.zero_le _, rfl,
      ⟨fun _ => Or.inl rfl, fun _ => Or.inl rfl⟩⟩
  obtain ⟨hout, hnext⟩ := whackLoop_spec (whackinit level).2 (by omega) src.length _ [] hstart (Nat.le_add_left _ _)
  revert hout hnext
  generalize whackLoop _ src src.length _ = r
  intro hout hnext
  cases r with
  | outside => exact absurd rfl hout
  | fail c => exact ⟨_, none, rfl, nofun⟩
  | next c =>
    obtain ⟨ts, hts, hs⟩ := hnext c rfl
    obtain ⟨h8, _, hpad, hcoded⟩ := pad_coded hts.coded
    dsimp only at h8 hcoded ⊢
    cases hf : flush src.length _ with
    | none => exact ⟨_, none, rfl, nofun⟩
    | some c' =>
      obtain ⟨hc', hbits, -⟩ := flush_coded hcoded hf
      rw [h8] at hbits
      refine ⟨_, some c'.wdst, rfl, fun dst hdst => ?_⟩
      cases hdst
      refine ⟨hc'.dst, fun ndst hndst => ?_⟩
      obtain ⟨ps, hps, heq⟩ := hc'.wrote.held
      have hnil : ps = [] := length_eq_zero_iff.1 (hps.length.trans hbits)
      have hexp : expandAll [] ts = src := by rw [hts.expand, hs, take_length]
      rw [hnil, append_nil] at heq
      rw [unwhack_eq hpad heq hts.ok (by rwa [hexp]), hexp]

/-- Sixty-four equal bytes become four. -/
theorem whack_unwhack_run :
    ∃ w dst, whack true (whackinit 6).2 (whackinit 6).1 (List.replicate 64 97) = some (w, some dst) ∧ dst.length = 4 ∧
      unwhack 64 dst = some (.ok (List.replicate 64 97)) := by
  obtain ⟨w, r, heq, h⟩ := @whack_unwhack true 6 (replicate 64 97) (by decide)
  have hrun : (whack true (whackinit 6).2 (whackinit 6).1 (replicate 64 97)).map Prod.snd = some (some [48, 255, 150, 0]) := by
    decide +kernel
  rw [heq, Option.map_some, Option.some_inj] at hrun
  subst hrun
  exact ⟨w, _, heq, rfl, (h _ rfl).2 64 (by decide)⟩

end Plan9.Venti
