/-
`strtomp` of the text that `mptoa` makes (`strtomp_mptoa_iff`).

To bases 10 and 16 the number comes back. `to32` pads the bytes of the number on the
right, so that `strtomp` reads a multiple of it where there are not five, ten, ... of them;
to base 64 the value is right, but `strtomp` stops at the padding `=`.

`val` is the number that a text stands for. The encoders' loops keep what `val` of the
text so far is, and the decoders' loops what is left of it.
-/
import Plan9.Libc.U64Facts
import Plan9.Libmp.Text
import Plan9.Libmp.MpintFacts

namespace Plan9.Libmp

open Bytes CInt Libc List

/-! ## Sizes -/

theorem mpsignif_lt (b : Int) : b.natAbs < 2 ^ mpsignif b := by
  rw [mpsignif]
  split
  · rename_i h
    rw [h]
    decide
  · exact Nat.lt_log2_self

theorem mpsignif_eq_zero {b : Int} : mpsignif b = 0 ↔ b = 0 := by
  rw [mpsignif]
  split <;> simp_all

theorem natAbs_lt_top (b : Int) : b.natAbs < (2 ^ 32) ^ top b := by
  rw [← Nat.pow_mul]
  refine Nat.lt_of_lt_of_le (mpsignif_lt b) (Nat.pow_le_pow_right (by decide) ?_)
  rw [top]
  omega

theorem top_eq_zero {b : Int} : top b = 0 ↔ b = 0 := by
  rw [← mpsignif_eq_zero, top]
  omega

theorem byteCount_pos (b : Int) : 0 < byteCount b := by
  unfold byteCount
  dsimp only
  split <;> omega

theorem byteCount_le (b : Int) : byteCount b ≤ 4 * top b + 1 ∧ (top b ≠ 0 → byteCount b ≤ 4 * top b) := by
  unfold byteCount top
  dsimp only
  split <;> omega

theorem natAbs_lt_byteCount (b : Int) : b.natAbs < 256 ^ byteCount b := by
  rw [show (256 : Nat) = 2 ^ 8 from rfl, ← Nat.pow_mul]
  refine Nat.lt_of_lt_of_le (mpsignif_lt b) (Nat.pow_le_pow_right (by decide) ?_)
  unfold byteCount
  dsimp only
  split <;> omega

theorem length_mptober (b : Int) (n : Nat) : (mptober b n).length = n := by simp [mptober]

theorem betomp_mptober (b : Int) (k : Nat) (tail : List UInt8) :
    betomp (mptober b (byteCount b) ++ (List.replicate k 0 ++ tail)) (byteCount b + k) =
      (b.natAbs * 256 ^ k : Nat) := by
  have hlen := length_mptober b (byteCount b)
  have htake : (mptober b (byteCount b) ++ (replicate k 0 ++ tail)).take (byteCount b + k) =
      mptober b (byteCount b) ++ replicate k 0 := by
    rw [← append_assoc, take_append_of_le_length (by simp [hlen]), take_of_length_le (by simp [hlen])]
  have hzeros : ∀ k (l : List UInt8), leNat (replicate k 0 ++ l) = 256 ^ k * leNat l := by
    intro k l
    induction k with
    | zero => simp
    | succ k ih =>
      rw [replicate_succ, cons_append, leNat, ih, Nat.pow_succ]
      simp only [UInt8.toNat_zero, Nat.zero_add]
      ring
  rw [betomp, htake, reverse_append, reverse_replicate, hzeros, mptober, reverse_reverse,
    leNat_leBytes, Nat.mod_eq_of_lt (natAbs_lt_byteCount b), Nat.mul_comm]

/-! ## The number of a text -/

/-- The number that a text of digits stands for. -/
def val (b : Nat) (tab : UInt8 → Nat) (l : List UInt8) : Nat := Nat.ofDigits b (l.reverse.map tab)

section

variable {b : Nat} {tab : UInt8 → Nat}

@[simp] theorem val_nil : val b tab [] = 0 := rfl

theorem val_snoc (l : List UInt8) (c : UInt8) : val b tab (l ++ [c]) = val b tab l * b + tab c := by
  rw [val, reverse_append, reverse_singleton, singleton_append, map_cons, Nat.ofDigits_cons, val]
  ring

theorem val_append (l l' : List UInt8) : val b tab (l ++ l') = val b tab l * b ^ l'.length + val b tab l' := by
  rw [val, reverse_append, map_append, Nat.ofDigits_append, length_map, length_reverse, val, val]
  ring

theorem val_cons (c : UInt8) (l : List UInt8) : val b tab (c :: l) = tab c * b ^ l.length + val b tab l := by
  have hone : val b tab [c] = tab c := by simp [val]
  rw [← singleton_append, val_append, hone]

end

/-- Characters with a digit below `n` in the table. -/
def Text (tab : UInt8 → Nat) (n : Nat) (l : List UInt8) : Prop := ∀ c ∈ l, tab c < n

variable {a l mem : List UInt8} {len : Int}

theorem takeWhile_text {p : UInt8 → Bool} {z : UInt8} (h : ∀ c ∈ l, p c = true) (hz : p z = false) :
    (l ++ z :: mem).takeWhile p = l := by
  rw [takeWhile_append_of_pos h, takeWhile_cons_of_neg (by simp [hz]), append_nil]

/-! ## Base 16 -/

theorem t16_set16 : ∀ j < 16, t16 (byteAt set16 j) = j := by decide

theorem nibbleLoop_spec (x : Nat) : ∀ (k : Nat) (out : List UInt8), out.length + k ≤ len → Text t16 16 out →
    ∃ out', nibbleLoop len x k out = some out' ∧ Text t16 16 out' ∧ out'.length ≤ out.length + k ∧
      val 16 t16 out' = val 16 t16 out * 16 ^ k + x % 16 ^ k := by
  intro k
  induction k with
  | zero => intro out _ ht; exact ⟨out, rfl, ht, by omega, by simp [Nat.mod_one]⟩
  | succ k ih =>
    intro out hroom ht
    have hj : 0xf &&& x >>> (4 * k) = x / 16 ^ k % 16 := by
      rw [show (0xf : Nat) = 2 ^ 4 - 1 from rfl, low_bits, Nat.shiftRight_eq_div_pow, Nat.pow_mul, show 2 ^ 4 = 16 from rfl]
    have hlt : x / 16 ^ k % 16 < 16 := Nat.mod_lt _ (by decide)
    rw [nibbleLoop, hj]
    split
    · rw [if_neg (by omega)]
      have ht' : Text t16 16 (out ++ [byteAt set16 (x / 16 ^ k % 16)]) := by
        intro c hc
        rcases mem_append.1 hc with hc | hc
        · exact ht c hc
        · rw [mem_singleton.1 hc, t16_set16 _ hlt]
          exact hlt
      obtain ⟨out', hrun, htext, hle, hval⟩ := ih _ (by simp; omega) ht'
      refine ⟨out', hrun, htext, by simp at hle; omega, ?_⟩
      rw [hval, val_snoc, t16_set16 _ hlt, Nat.mod_pow_succ, Nat.pow_succ]
      ring
    rename_i hskip
    obtain ⟨hj0, rfl⟩ : x / 16 ^ k % 16 = 0 ∧ out = [] := by simpa [not_or] using hskip
    obtain ⟨out', hrun, htext, hle, hval⟩ := ih [] (by simp at hroom ⊢; omega) ht
    refine ⟨out', hrun, htext, by simp at hle ⊢; omega, ?_⟩
    rw [hval, Nat.mod_pow_succ, hj0]
    simp

theorem digitLoop_spec {b : Int} : ∀ (i : Nat) (out : List UInt8), out.length + 8 * i ≤ len → Text t16 16 out →
    ∃ out', digitLoop b len i out = some out' ∧ Text t16 16 out' ∧ out'.length ≤ out.length + 8 * i ∧
      val 16 t16 out' = val 16 t16 out * (2 ^ 32) ^ i + b.natAbs % (2 ^ 32) ^ i := by
  intro i
  induction i with
  | zero => intro out _ ht; exact ⟨out, rfl, ht, by omega, by simp [Nat.mod_one]⟩
  | succ i ih =>
    intro out hroom ht
    obtain ⟨out1, hrun1, ht1, _, hval1⟩ := @nibbleLoop_spec len (dig b i) 8 out (by omega) ht
    obtain ⟨out2, hrun2, ht2, _, hval2⟩ := ih out1 (by omega) ht1
    refine ⟨out2, by rw [digitLoop, hrun1]; exact hrun2, ht2, by omega, ?_⟩
    have hdig : dig b i % 16 ^ 8 = b.natAbs / (2 ^ 32) ^ i % 2 ^ 32 := by
      rw [dig, Nat.shiftRight_eq_div_pow, Nat.pow_mul, show (16 : Nat) ^ 8 = 2 ^ 32 from rfl, Nat.mod_mod]
    rw [hval2, hval1, hdig, @Nat.mod_pow_succ b.natAbs (2 ^ 32) i, show (16 : Nat) ^ 8 = 2 ^ 32 from rfl,
      @Nat.pow_succ (2 ^ 32) i]
    ring

theorem to16_spec {b : Int} (hroom : 8 * top b + 1 < len) :
    ∃ body, to16 b len = some (body ++ [0]) ∧ Text t16 16 body ∧ body ≠ [] ∧ val 16 t16 body = b.natAbs := by
  obtain ⟨out, hrun, ht, hle, hval⟩ := @digitLoop_spec len b (top b) [] (by simp; omega) nofun
  have hnum : val 16 t16 out = b.natAbs := by
    rw [hval, Nat.mod_eq_of_lt (natAbs_lt_top b)]
    simp
  rw [length_nil] at hle
  rw [to16, if_neg (by omega), hrun]
  dsimp only
  by_cases hout : out = []
  · refine ⟨[48], ?_, ?_, by simp, ?_⟩
    · rw [if_pos hout, if_neg (by simp; omega)]
    · intro c hc
      rw [mem_singleton.1 hc]
      decide
    · rw [← hnum, hout]
      decide
  · rw [if_neg hout, if_neg (by omega)]
    exact ⟨out, rfl, ht, hout, hnum⟩

theorem wordLoop_spec {s : Nat} (hs : 0 < s) : ∀ (r k i : Nat) (p : List UInt8) (x : Nat), r ≤ k → i + s * r = 32 →
    x < 2 ^ i → Text t16 (2 ^ s) p →
    wordLoop s k i p x = (x + 2 ^ i * Nat.ofDigits (2 ^ s) ((p.take r).map t16), p.drop r) := by
  intro r
  induction r with
  | zero =>
    intro k i p x _ hi _ _
    cases k with
    | zero => simp [wordLoop]
    | succ k =>
      unfold wordLoop
      rw [if_neg (by omega)]
      simp
  | succ r ih =>
    intro k i p x hk hi hx ht
    obtain ⟨k, rfl⟩ : ∃ k', k = k' + 1 := ⟨k - 1, by omega⟩
    rw [Nat.mul_succ] at hi
    unfold wordLoop
    rw [if_pos (by omega)]
    cases p with
    | nil => simp
    | cons c p =>
      have hc : t16 c < 2 ^ s := ht c (mem_cons_self ..)
      have hor : x ||| t16 c <<< i = x + t16 c * 2 ^ i := or_shiftLeft hx _
      have hlt : x + t16 c * 2 ^ i < 2 ^ (i + s) := by
        have hmul : (t16 c + 1) * 2 ^ i ≤ 2 ^ s * 2 ^ i := Nat.mul_le_mul_right _ hc
        rw [Nat.pow_add, Nat.mul_comm (2 ^ i)]
        rw [Nat.add_mul, Nat.one_mul] at hmul
        omega
      dsimp only
      rw [hor, ih k (i + s) p _ (by omega) (by omega) hlt (fun d hd => ht d (mem_cons_of_mem _ hd)),
        take_succ_cons, map_cons, Nat.ofDigits_cons, drop_succ_cons, Nat.pow_add]
      congr 1
      ring

theorem frompow2Loop_spec {s r : Nat} (hs : 0 < s) (hr : s * r = 32) : ∀ (k : Nat) (p : List UInt8), p.length ≤ k →
    Text t16 (2 ^ s) p → Nat.ofDigits (2 ^ 32) (frompow2Loop s k p) = Nat.ofDigits (2 ^ s) (p.map t16) := by
  intro k
  induction k with
  | zero =>
    intro p hp _
    rw [length_eq_zero_iff.1 (Nat.le_zero.1 hp)]
    rfl
  | succ k ih =>
    intro p hp ht
    rw [frompow2Loop]
    split
    · rename_i h
      rw [h]
      rfl
    have hr0 : 0 < r := by
      rcases Nat.eq_zero_or_pos r with rfl | h0
      · rw [Nat.mul_zero] at hr; omega
      · exact h0
    have hr32 : r ≤ 32 := by
      rw [← hr]
      exact Nat.le_mul_of_pos_left r hs
    rw [wordLoop_spec hs r 32 0 p 0 hr32 (by omega) (by decide) ht]
    rw [Nat.ofDigits_cons, ih (p.drop r) (by rw [length_drop]; omega) (fun c hc => ht c (mem_of_mem_drop hc))]
    conv_rhs => rw [← take_append_drop r p, map_append, Nat.ofDigits_append]
    rw [length_map, length_take]
    by_cases hlong : r ≤ p.length
    · rw [Nat.min_eq_left hlong, ← Nat.pow_mul, hr]
      simp
    · rw [drop_of_length_le (by omega)]
      simp

/-- `frompow2` of hexadecimal digits, whatever follows the zero that ends them. -/
theorem frompow2_eq (ht : Text t16 16 l) (mem : List UInt8) :
    frompow2 (l ++ 0 :: mem) 4 = (((val 16 t16 l : Nat) : Int), 0 :: mem) := by
  have hzero : ∀ c ∈ l, c ≠ 0 := by
    rintro c hc rfl
    exact absurd (ht 0 hc) (by decide)
  have hscan : (l ++ 0 :: mem).takeWhile (fun c => c ≠ 0 ∧ t16 c < 1 <<< 4) = l :=
    takeWhile_text (fun c hc => by simp [hzero c hc, ht c hc]) (by decide)
  unfold frompow2
  dsimp only
  rw [hscan, frompow2Loop_spec (r := 8) (by decide) rfl _ _ (by simp) (fun c hc => ht c (mem_reverse.1 hc)),
    drop_left]
  rfl

/-! ## Base 10 -/

theorem t10_digit : ∀ j < 10, t10 (UInt8.ofNat (48 + j)) = j := by decide

theorem modbillion_full {rem : Nat} (hrem : rem ≠ 0) : ∀ (i r : Nat) (out : List UInt8), r < 10 ^ i →
    out.length + i ≤ len →
    ∃ ds, modbillion len rem i r out = some (ds ++ out) ∧ Text t10 10 ds ∧ ds.length = i ∧ val 10 t10 ds = r := by
  intro i
  induction i with
  | zero => intro r out hr _; exact ⟨[], rfl, nofun, rfl, by simp at hr; simp [hr]⟩
  | succ i ih =>
    intro r out hr hroom
    have hlt : r % 10 < 10 := Nat.mod_lt _ (by decide)
    obtain ⟨ds, hrun, ht, hlen, hval⟩ := ih (r / 10) (UInt8.ofNat (48 + r % 10) :: out) (by omega) (by simp; omega)
    refine ⟨ds ++ [UInt8.ofNat (48 + r % 10)], ?_, ?_, by simp [hlen], ?_⟩
    · rw [modbillion]
      rw [if_neg (by omega), if_neg (fun h => hrem h.1), hrun, append_assoc, singleton_append]
    · intro c hc
      rcases mem_append.1 hc with hc | hc
      · exact ht c hc
      · rw [mem_singleton.1 hc, t10_digit _ hlt]
        exact hlt
    · rw [val_snoc, hval, t10_digit _ hlt]
      omega

theorem modbillion_last : ∀ (i r : Nat) (out : List UInt8), i ≠ 0 → r < 10 ^ i →
    (∀ n : Nat, 10 ^ n ≤ r ∨ n = 0 → out.length + n < len) →
    ∃ ds, modbillion len 0 i r out = some (ds ++ out) ∧ Text t10 10 ds ∧ ds ≠ [] ∧ val 10 t10 ds = r := by
  intro i
  induction i with
  | zero => intro r out h; exact absurd rfl h
  | succ i ih =>
    intro r out _ hr hroom
    have hlt : r % 10 < 10 := Nat.mod_lt _ (by decide)
    have hfirst := hroom 0 (.inr rfl)
    rw [modbillion]
    rw [if_neg (by omega)]
    by_cases hlast : r / 10 = 0
    · refine ⟨[UInt8.ofNat (48 + r % 10)], ?_, ?_, by simp, ?_⟩
      · rw [if_pos ⟨rfl, hlast⟩]
        rfl
      · intro c hc
        rw [mem_singleton.1 hc, t10_digit _ hlt]
        exact hlt
      · rw [val_cons, t10_digit _ hlt]
        simp
        omega
    have hi : i ≠ 0 := by
      rintro rfl
      omega
    obtain ⟨ds, hrun, ht, -, hval⟩ := ih (r / 10) (UInt8.ofNat (48 + r % 10) :: out) hi (by omega) (fun n hn => by
      have := hroom (n + 1) (.inl (by
        rcases hn with hn | rfl
        · omega
        · simp; omega))
      simp
      omega)
    refine ⟨ds ++ [UInt8.ofNat (48 + r % 10)], ?_, ?_, by simp, ?_⟩
    · rw [if_neg (fun h => hlast h.2), hrun, append_assoc, singleton_append]
    · intro c hc
      rcases mem_append.1 hc with hc | hc
      · exact ht c hc
      · rw [mem_singleton.1 hc, t10_digit _ hlt]
        exact hlt
    · rw [val_snoc, hval, t10_digit _ hlt]
      omega

theorem dig_zero {r : Int} (h : r.natAbs < 2 ^ 32) : dig r 0 = r.natAbs := by
  rw [dig, Nat.mul_zero, Nat.shiftRight_zero, Nat.mod_eq_of_lt h]

/-- The digits of what is left of the number, in front of what is stored. -/
theorem to10Loop_spec : ∀ (k : Nat) (d : Int) (out : List UInt8), d.natAbs < k →
    (∀ n : Nat, 10 ^ n ≤ d.natAbs ∨ n = 0 → out.length + n < len) →
    ∃ ds, to10Loop len k d out = some (ds ++ out) ∧ Text t10 10 ds ∧ ds ≠ [] ∧ val 10 t10 ds = d.natAbs := by
  intro k
  induction k with
  | zero => intro d out hd; omega
  | succ k ih =>
    intro d out hd hroom
    have hq : (d.tdiv 1000000000).natAbs = d.natAbs / 10 ^ 9 := Int.natAbs_tdiv _ _
    have hr : (d.tmod 1000000000).natAbs = d.natAbs % 10 ^ 9 := Int.natAbs_tmod _ _
    have hlt : d.natAbs % 10 ^ 9 < 10 ^ 9 := Nat.mod_lt _ (by decide)
    rw [to10Loop, mpdiv_eq d (by decide)]
    dsimp only
    rw [dig_zero (by rw [hr]; omega), hr]
    by_cases hlast : top (d.tdiv 1000000000) = 0
    · have hzero : d.natAbs / 10 ^ 9 = 0 := by rw [← hq, top_eq_zero.1 hlast]; rfl
      obtain ⟨ds, hrun, ht, hne, hval⟩ := @modbillion_last len 9 (d.natAbs % 10 ^ 9) out (by decide) hlt
        (fun n hn => hroom n (by omega))
      rw [hlast, hrun]
      exact ⟨ds, rfl, ht, hne, by rw [hval]; omega⟩
    have hpos : d.natAbs / 10 ^ 9 ≠ 0 := fun h => hlast (top_eq_zero.2 (Int.natAbs_eq_zero.1 (by rw [hq, h])))
    have hnine := hroom 9 (.inl (by omega))
    obtain ⟨lo, hrun, htlo, hlo, hvlo⟩ := @modbillion_full len _ hlast 9 (d.natAbs % 10 ^ 9) out hlt (by omega)
    obtain ⟨hi, hrest, hthi, hne, hvhi⟩ := ih (d.tdiv 1000000000) (lo ++ out) (by rw [hq]; omega) (fun n hn => by
      have := hroom (n + 9) (.inl (by
        rw [Nat.pow_add]
        rcases hn with hn | rfl
        · omega
        · omega))
      rw [length_append, hlo]
      omega)
    rw [hrun]
    dsimp only
    rw [if_pos hlast, hrest]
    refine ⟨hi ++ lo, by rw [append_assoc], ?_, by simp [hne], ?_⟩
    · intro c hc
      rcases mem_append.1 hc with hc | hc
      · exact hthi c hc
      · exact htlo c hc
    · rw [val_append, hvhi, hvlo, hq, hlo]
      omega

theorem to10_spec {b : Int} (hroom : 32 * top b + 5 < 3 * len) :
    ∃ body, to10 b len = some (body ++ [0]) ∧ Text t10 10 body ∧ body ≠ [] ∧ val 10 t10 body = b.natAbs := by
  rw [to10, if_neg (by omega)]
  refine to10Loop_spec _ _ _ (Nat.lt_succ_self _) (fun n hn => ?_)
  rw [length_singleton]
  rcases hn with hn | rfl
  · have height : 2 ^ (3 * n) < 2 ^ (32 * top b) := calc
      2 ^ (3 * n) = 8 ^ n := by rw [Nat.pow_mul]
      _ ≤ 10 ^ n := Nat.pow_le_pow_left (by decide) n
      _ ≤ b.natAbs := hn
      _ < 2 ^ (32 * top b) := by rw [Nat.pow_mul]; exact natAbs_lt_top b
    have := (Nat.pow_lt_pow_iff_right (by decide)).1 height
    omega
  · omega

theorem groupLoop_spec : ∀ (k : Nat) (l : List UInt8) (i x : Nat), Text t10 10 l →
    groupLoop k i x (l ++ 0 :: mem) = (i + (l.take k).length, x * 10 ^ (l.take k).length + val 10 t10 (l.take k),
      l.drop k ++ 0 :: mem) := by
  intro k
  induction k with
  | zero => intro l i x _; simp [groupLoop]
  | succ k ih =>
    intro l i x ht
    cases l with
    | nil =>
      rw [groupLoop, if_pos (show t10 (byteAt ([] ++ 0 :: mem) 0) = INVAL from rfl)]
      simp
    | cons c l =>
      have hc : t10 c < 10 := ht c (mem_cons_self ..)
      have hat : t10 (byteAt (c :: l ++ 0 :: mem) 0) = t10 c := rfl
      rw [groupLoop, hat, if_neg (by rw [INVAL]; omega), cons_append, drop_one, tail_cons,
        ih l (i + 1) _ (fun d hd => ht d (mem_cons_of_mem _ hd)), take_succ_cons, val_cons, length_cons,
        drop_succ_cons, Nat.pow_succ]
      refine Prod.ext (by simp; omega) (Prod.ext ?_ rfl)
      ring

theorem mppow10_eq : ∀ i ≤ 9, mppow10.getD i 0 = 10 ^ i := by decide

theorem from10Loop_spec : ∀ (k : Nat) (b : Nat) (l : List UInt8), l.length < k → Text t10 10 l →
    from10Loop k b (l ++ 0 :: mem) = (((b * 10 ^ l.length + val 10 t10 l : Nat) : Int), 0 :: mem) := by
  intro k
  induction k with
  | zero => intro b l h; omega
  | succ k ih =>
    intro b l hk ht
    have hle : (l.take 9).length ≤ 9 := by rw [length_take]; omega
    rw [from10Loop, groupLoop_spec 9 l 0 0 ht]
    dsimp only
    rw [Nat.zero_add, Nat.zero_mul, Nat.zero_add, mppow10_eq _ hle]
    by_cases h0 : l.length = 0
    · rw [length_eq_zero_iff.1 h0]
      simp
    rw [if_neg (by rw [length_take]; omega)]
    by_cases h9 : l.length < 9
    · rw [if_pos (by rw [length_take]; omega), take_of_length_le (by omega), drop_of_length_le (by omega)]
      rfl
    have hlen : (l.take 9).length = 9 := by rw [length_take]; omega
    have hrest : (l.drop 9).length = l.length - 9 := length_drop
    have hsplit := @val_append 10 t10 (l.take 9) (l.drop 9)
    rw [take_append_drop] at hsplit
    have hrec := ih (b * 10 ^ 9 + val 10 t10 (l.take 9)) (l.drop 9) (by omega) (fun c hc => ht c (mem_of_mem_drop hc))
    rw [if_neg (fun h => h hlen), hlen]
    push_cast at hrec ⊢
    rw [hrec, hsplit, hrest, show l.length = 9 + (l.length - 9) by omega, pow_add, Nat.add_sub_cancel_left]
    push_cast
    congr 1
    ring

theorem from10_eq (ht : Text t10 10 l) (mem : List UInt8) :
    from10 (l ++ 0 :: mem) = (((val 10 t10 l : Nat) : Int), 0 :: mem) := by
  have hrun := @from10Loop_spec mem ((l ++ 0 :: mem).length + 1) 0 l (by rw [length_append]; omega) ht
  rw [Nat.zero_mul, Nat.zero_add] at hrun
  exact hrun

/-! ## Bases 32 and 64 -/

theorem t32_char32 : ∀ j < 32, t32 (char32 j) = j := by decide

theorem t64_char64 : ∀ j < 64, t64 (char64 j) = j := by decide

theorem fromdecx_eq {tab : UInt8 → Nat} {dec : Int → List UInt8 → Int → Int × List UInt8} {p : List UInt8} {z : UInt8}
    {m : Nat} (ht : ∀ c ∈ l, tab c ≠ INVAL) (hz : tab z = INVAL) (hne : l ≠ []) (hm : 0 < m)
    (hdec : dec l.length (l ++ z :: mem) l.length = ((m : Int), p)) :
    fromdecx (l ++ z :: mem) tab dec = (betomp p m, z :: mem) := by
  have hscan : (l ++ z :: mem).takeWhile (fun c => tab c ≠ INVAL) = l :=
    takeWhile_text (fun c hc => by simp [ht c hc]) (by simp [hz])
  have hpos : 0 < l.length := length_pos_iff.2 hne
  unfold fromdecx
  dsimp only
  rw [hscan, if_pos hpos, hdec, drop_left]
  rw [if_pos (by omega), Int.toNat_natCast]

/-- The zeros that `to32` puts behind `n` bytes. -/
def pad5 (n : Nat) : Nat := if n % 5 ≠ 0 then 5 - n % 5 else 0

theorem to32_spec {b : Int} (hroom : 32 * top b + 34 < 3 * len + 3) (hmax : len < 2 ^ 31) :
    ∃ body, to32 b len = some (body ++ [0]) ∧ (∀ c ∈ body, ∃ j < 32, c = char32 j) ∧ body ≠ [] ∧
      ∀ mem, fromdecx (body ++ 0 :: mem) t32 dec32 =
        (((b.natAbs * 256 ^ pad5 (byteCount b) : Nat) : Int), 0 :: mem) := by
  have hpos := byteCount_pos b
  have hle := byteCount_le b
  have hmax' : byteCount b + pad5 (byteCount b) ≤ top b * 4 + 5 := by
    rw [pad5]
    split <;> omega
  have h5 : (byteCount b + pad5 (byteCount b)) % 5 = 0 := by
    rw [pad5]
    split <;> omega
  have hround : (if byteCount b % 5 ≠ 0 then byteCount b + (5 - byteCount b % 5) else byteCount b) =
      byteCount b + pad5 (byteCount b) := by
    rw [pad5]
    split <;> rfl
  have hbe : mptobe b (some (top b * 4 + 5)) =
      some (byteCount b, mptober b (byteCount b) ++ replicate (top b * 4 + 5 - byteCount b) 0) := by
    unfold mptobe
    dsimp only
    rw [if_neg (by omega)]
  have hzeros : replicate (top b * 4 + 5 - byteCount b) (0 : UInt8) = replicate (pad5 (byteCount b)) 0 ++
      replicate (top b * 4 + 5 - byteCount b - pad5 (byteCount b)) 0 := by
    rw [replicate_append_replicate]
    congr 1
    omega
  have hx : (mptober b (byteCount b) ++ replicate (pad5 (byteCount b)) 0).length =
      byteCount b + pad5 (byteCount b) := by simp [length_mptober]
  have hsmall : (8 * ((byteCount b + pad5 (byteCount b) : Nat) : Int) + 4) / 5 < len := by
    by_cases h0 : top b = 0
    · omega
    · omega
  obtain ⟨blk, henc, hblk, hchars, hdec⟩ := enc32_rounds
    (replicate (top b * 4 + 5 - byteCount b - pad5 (byteCount b)) 0) (by rw [hx]; exact h5)
    (by rw [hx]; exact hsmall) hmax
  rw [hx] at henc hblk hdec
  have hne : blk ≠ [] := by
    rintro rfl
    rw [length_nil] at hblk
    omega
  refine ⟨blk, ?_, hchars, hne, fun mem => ?_⟩
  · rw [to32, hbe]
    dsimp only
    rw [hround, hzeros, ← append_assoc, henc, converted, if_neg (by dsimp only; omega)]
  have hinval : ∀ c ∈ blk, t32 c ≠ INVAL := by
    intro c hc
    obtain ⟨j, hj, rfl⟩ := hchars c hc
    rw [t32_char32 j hj, INVAL]
    omega
  have hbytes := betomp_mptober b (pad5 (byteCount b)) []
  rw [append_nil] at hbytes
  rw [fromdecx_eq hinval (show t32 0 = INVAL from rfl) hne (by omega) (hdec _), hbytes]

theorem to64_spec {b : Int} (hroom : 32 * top b + 34 < 3 * len + 3) (hmax : len < 2 ^ 31) :
    ∃ body, to64 b len = some (body ++
        (List.replicate (if byteCount b % 3 = 0 then 0 else 3 - byteCount b % 3) 61 ++ [0])) ∧
      (∀ c ∈ body, ∃ j < 64, c = char64 j) ∧ body ≠ [] ∧
      ∀ z mem, t64 z = INVAL → fromdecx (body ++ z :: mem) t64 dec64 = (((b.natAbs : Nat) : Int), z :: mem) := by
  have hpos := byteCount_pos b
  have hle := byteCount_le b
  have hx : (mptober b (byteCount b)).length = byteCount b := length_mptober _ _
  have hsmall : (4 * ((byteCount b + 2) / 3) : Int) < len := by
    by_cases h0 : top b = 0
    · omega
    · omega
  obtain ⟨body, henc, hlen, hchars, hdec⟩ := @enc64_eq len (mptober b (byteCount b)) [] (by rw [hx]; exact hsmall)
  rw [hx, append_nil] at henc
  rw [hx] at hlen hdec
  have hne : body ≠ [] := by
    rintro rfl
    rw [length_nil] at hlen
    omega
  refine ⟨body, ?_, hchars, hne, fun z mem hz => ?_⟩
  · have hcount : (enc64 len (mptober b (byteCount b)) (byteCount b)).1 ≥ 0 := by
      have hout := congrArg length henc
      have hfst : (enc64 len (mptober b (byteCount b)) (byteCount b)).1 =
          int32 ((enc64 len (mptober b (byteCount b)) (byteCount b)).2.length - 1) := by
        rw [enc64]
        simp
      rw [hfst, hout]
      simp only [length_append, length_replicate, length_singleton]
      rw [int32_eq] <;> split <;> omega
    rw [to64, mptobe]
    dsimp only
    rw [converted, if_neg (by omega), henc, append_assoc]
  have hinval : ∀ c ∈ body, t64 c ≠ INVAL := by
    intro c hc
    obtain ⟨j, hj, rfl⟩ := hchars c hc
    rw [t64_char64 j hj, INVAL]
    omega
  have hrun := hdec body.length (z :: mem) (by omega)
  rw [int32_eq (by omega) (by omega)] at hrun
  have hbytes := betomp_mptober b 0 []
  simp only [replicate_zero, append_nil, Nat.add_zero, Nat.pow_zero, Nat.mul_one] at hbytes
  rw [fromdecx_eq hinval hz hne hpos hrun, hbytes]

/-! ## The round trip -/

/-- `strtomp(mptoa(x, base), base)` is `x`, and stops at the end of the text, whatever is stored behind it. -/
def RoundTrip (x base : Int) : Prop :=
  ∃ text : List UInt8, mptoa x base = some (text ++ [0]) ∧ 0 ∉ text ∧
    ∀ mem, strtomp (text ++ 0 :: mem) base = some (some x, 0 :: mem)

/-- The length of the buffer is an `int`. -/
def Fits (x : Int) : Prop := (top x + 1) * 32 + 2 < 2 ^ 31

def sgn (x : Int) : List UInt8 := if x < 0 then [45] else []

/-- `len`, after the sign. -/
def room (x : Int) : Int :=
  if x < 0 then ((top x + 1) * 32 + 2 : Nat) / 3 + 1 - 1 else ((top x + 1) * 32 + 2 : Nat) / 3 + 1

theorem room_bounds {x : Int} (h : Fits x) : 32 * top x + 34 < 3 * room x + 3 ∧ room x < 2 ^ 31 := by
  rw [Fits] at h
  unfold room
  split <;> omega

theorem mptoa_eq {x : Int} (h : Fits x) (base : Int) : mptoa x base =
    (if base = 64 then to64 x (room x) else if base = 32 then to32 x (room x) else if base = 10 then to10 x (room x)
      else to16 x (room x)).map (sgn x ++ ·) := by
  rw [Fits] at h
  unfold mptoa
  rw [if_neg (by omega)]
  dsimp only
  rw [if_neg (by omega)]
  unfold room sgn
  generalize (if base = 64 then _ else _ : Option (List UInt8)) = out
  cases out <;> rfl

/-- No blank and no sign at the start. -/
def Plain (a : List UInt8) : Prop := ∀ c l, a = c :: l → c ≠ 32 ∧ c ≠ 9 ∧ c ≠ 45

theorem plain_append (mem : List UInt8) (hne : l ≠ []) (h : ∀ c ∈ l, c ≠ 32 ∧ c ≠ 9 ∧ c ≠ 45) :
    Plain (l ++ mem) := by
  intro c t heq
  cases l with
  | nil => exact absurd rfl hne
  | cons d l =>
    obtain ⟨rfl, -⟩ := cons.inj heq
    exact h d (mem_cons_self ..)

theorem signLoop_plain (h : Plain a) (s : Int) : signLoop a s = (s, a) := by
  cases a with
  | nil => rfl
  | cons c l => rw [signLoop, if_neg (h c l rfl).2.2]

theorem dropWhile_plain (h : Plain a) : a.dropWhile (fun c => c = 32 ∨ c = 9) = a := by
  cases a with
  | nil => rfl
  | cons c l => rw [dropWhile_cons_of_neg]; simpa using ⟨(h c l rfl).1, (h c l rfl).2.1⟩

/-- What is read after the sign. -/
def digitsOf (base : Int) (a : List UInt8) : Int × List UInt8 :=
  if base = 10 then from10 a
  else if base = 16 then frompow2 a 4
  else if base = 32 then fromdecx a t32 dec32
  else fromdecx a t64 dec64

section

variable {x base : Int}

theorem strtomp_sgn (hbase : base = 10 ∨ base = 16 ∨ base = 32 ∨ base = 64) {e : List UInt8} {n : Int} (h : Plain a)
    (hrun : digitsOf base a = (n, e)) (hne : e.length ≠ a.length) :
    strtomp (sgn x ++ a) base = some (some ((if x < 0 then -1 else 1) * n), e) := by
  have hdrop : (sgn x ++ a).dropWhile (fun c => c = 32 ∨ c = 9) = sgn x ++ a := by
    rw [sgn]
    split
    · rfl
    · exact dropWhile_plain h
  have hsign : signLoop (sgn x ++ a) 1 = (if x < 0 then -1 else 1, a) := by
    rw [sgn]
    split
    · rw [singleton_append, signLoop, if_pos rfl, signLoop_plain h]
      rfl
    · exact signLoop_plain h 1
  unfold strtomp
  rw [hdrop]
  dsimp only
  rw [hsign]
  rcases hbase with rfl | rfl | rfl | rfl
  all_goals
    dsimp only [digitsOf] at hrun ⊢
    simp only [reduceIte, Int.reduceEq] at hrun ⊢
    rw [hrun]
    rw [if_neg hne]

theorem sign_natAbs (x : Int) : (if x < 0 then -1 else 1) * (x.natAbs : Int) = x := by
  split <;> omega

theorem roundTrip_iff_digits (hbase : base = 10 ∨ base = 16 ∨ base = 32 ∨ base = 64) {e : List UInt8} {n : Int}
    (hto : mptoa x base = some (sgn x ++ (l ++ e ++ [0]))) (hnul : 0 ∉ l ++ e) (hne : l ≠ [])
    (hplain : ∀ c ∈ l, c ≠ 32 ∧ c ≠ 9 ∧ c ≠ 45) (hrun : ∀ mem, digitsOf base (l ++ (e ++ 0 :: mem)) = (n, e ++ 0 :: mem)) :
    RoundTrip x base ↔ n = x.natAbs ∧ e = [] := by
  have hread : ∀ mem, strtomp (sgn x ++ (l ++ e) ++ 0 :: mem) base =
      some (some ((if x < 0 then -1 else 1) * n), e ++ 0 :: mem) := by
    intro mem
    rw [append_assoc, append_assoc]
    exact strtomp_sgn hbase (plain_append _ hne hplain) (hrun mem) (by simp; omega)
  constructor
  · rintro ⟨text, htext, -, hback⟩
    obtain rfl : sgn x ++ (l ++ e) = text := by
      have heq := Option.some.inj (hto.symm.trans htext)
      rw [← append_assoc] at heq
      exact append_cancel_right heq
    have hboth := (hread []).symm.trans (hback [])
    simp only [Option.some.injEq, Prod.mk.injEq] at hboth
    obtain ⟨hx, he⟩ := hboth
    refine ⟨?_, ?_⟩
    · split at hx <;> omega
    · exact append_left_eq_self.1 he
  rintro ⟨rfl, rfl⟩
  refine ⟨sgn x ++ (l ++ []), by rw [hto, append_assoc (sgn x)], ?_, fun mem => ?_⟩
  · rw [mem_append, sgn]
    rintro (h | h)
    · split at h <;> simp at h
    · exact hnul h
  · rw [hread mem, sign_natAbs]
    rfl

end

theorem digits_plain : (∀ c : UInt8, t16 c < 16 → c ≠ 0 ∧ c ≠ 32 ∧ c ≠ 9 ∧ c ≠ 45) ∧
    (∀ c : UInt8, t10 c < 10 → c ≠ 0 ∧ c ≠ 32 ∧ c ≠ 9 ∧ c ≠ 45) ∧
    (∀ j < 32, char32 j ≠ 0 ∧ char32 j ≠ 32 ∧ char32 j ≠ 9 ∧ char32 j ≠ 45) ∧
    ∀ j < 64, char64 j ≠ 0 ∧ char64 j ≠ 32 ∧ char64 j ≠ 9 ∧ char64 j ≠ 45 := by
  refine ⟨?_, ?_, by decide +kernel, by decide +kernel⟩
  · intro c hc
    refine ⟨?_, ?_, ?_, ?_⟩ <;> rintro rfl <;> exact absurd hc (by decide)
  · intro c hc
    refine ⟨?_, ?_, ?_, ?_⟩ <;> rintro rfl <;> exact absurd hc (by decide)

theorem roundTrip_ten {x : Int} (h : Fits x) : RoundTrip x 10 := by
  obtain ⟨_, -⟩ := room_bounds h
  obtain ⟨l, hto, ht, hne, hval⟩ := @to10_spec (room x) x (by omega)
  have hchars := fun c hc => digits_plain.2.1 c (ht c hc)
  have hnul : 0 ∉ l ++ [] := by simpa using fun h => (hchars 0 h).1 rfl
  have hmp : mptoa x 10 = some (sgn x ++ (l ++ [] ++ [0])) := by simp [mptoa_eq h, hto]
  have hrun : ∀ mem, digitsOf 10 (l ++ ([] ++ 0 :: mem)) = ((x.natAbs : Int), [] ++ 0 :: mem) := fun mem => by
    rw [digitsOf, if_pos rfl, nil_append, from10_eq ht, hval]
  exact (roundTrip_iff_digits (.inl rfl) hmp hnul hne (fun c hc => (hchars c hc).2) hrun).2 ⟨rfl, rfl⟩

theorem roundTrip_sixteen {x : Int} (h : Fits x) : RoundTrip x 16 := by
  obtain ⟨_, -⟩ := room_bounds h
  obtain ⟨l, hto, ht, hne, hval⟩ := @to16_spec (room x) x (by omega)
  have hchars := fun c hc => digits_plain.1 c (ht c hc)
  have hnul : 0 ∉ l ++ [] := by simpa using fun h => (hchars 0 h).1 rfl
  have hmp : mptoa x 16 = some (sgn x ++ (l ++ [] ++ [0])) := by simp [mptoa_eq h, hto]
  have hrun : ∀ mem, digitsOf 16 (l ++ ([] ++ 0 :: mem)) = ((x.natAbs : Int), [] ++ 0 :: mem) := fun mem => by
    rw [digitsOf, if_neg (by decide), if_pos rfl, nil_append, frompow2_eq ht, hval]
  exact (roundTrip_iff_digits (.inr (.inl rfl)) hmp hnul hne (fun c hc => (hchars c hc).2) hrun).2 ⟨rfl, rfl⟩

theorem roundTrip_thirtytwo {x : Int} (h : Fits x) : RoundTrip x 32 ↔ x = 0 ∨ byteCount x % 5 = 0 := by
  obtain ⟨hroom, hmax⟩ := room_bounds h
  obtain ⟨l, hto, hchars, hne, hread⟩ := to32_spec hroom hmax
  have hplain : ∀ c ∈ l, c ≠ 0 ∧ c ≠ 32 ∧ c ≠ 9 ∧ c ≠ 45 := by
    intro c hc
    obtain ⟨j, hj, rfl⟩ := hchars c hc
    exact digits_plain.2.2.1 j hj
  have hnul : 0 ∉ l ++ [] := by simpa using fun h => (hplain 0 h).1 rfl
  have hmp : mptoa x 32 = some (sgn x ++ (l ++ [] ++ [0])) := by simp [mptoa_eq h, hto]
  have hrun : ∀ mem, digitsOf 32 (l ++ ([] ++ 0 :: mem)) =
      (((x.natAbs * 256 ^ pad5 (byteCount x) : Nat) : Int), [] ++ 0 :: mem) := fun mem => by
    rw [digitsOf, if_neg (by decide), if_neg (by decide), if_pos rfl, nil_append, hread]
  rw [roundTrip_iff_digits (.inr (.inr (.inl rfl))) hmp hnul hne (fun c hc => (hplain c hc).2) hrun, Int.natCast_inj]
  have hpad : pad5 (byteCount x) = 0 ↔ byteCount x % 5 = 0 := by
    rw [pad5]
    split <;> omega
  rw [← hpad]
  constructor
  · rintro ⟨_, -⟩
    by_contra hne
    rw [not_or] at hne
    have hbig : 2 ≤ 256 ^ pad5 (byteCount x) := Nat.le_trans (by decide) (Nat.pow_le_pow_right (by decide) (Nat.pos_of_ne_zero hne.2))
    have := Nat.mul_le_mul_left x.natAbs hbig
    omega
  rintro (rfl | h0)
  · exact ⟨Nat.zero_mul _, rfl⟩
  · rw [h0]
    exact ⟨Nat.mul_one _, rfl⟩

theorem roundTrip_sixtyfour {x : Int} (h : Fits x) : RoundTrip x 64 ↔ byteCount x % 3 = 0 := by
  obtain ⟨hroom, hmax⟩ := room_bounds h
  obtain ⟨l, hto, hchars, hne, hread⟩ := to64_spec hroom hmax
  have hplain : ∀ c ∈ l, c ≠ 0 ∧ c ≠ 32 ∧ c ≠ 9 ∧ c ≠ 45 := by
    intro c hc
    obtain ⟨j, hj, rfl⟩ := hchars c hc
    exact digits_plain.2.2.2 j hj
  generalize hk : (if byteCount x % 3 = 0 then 0 else 3 - byteCount x % 3) = k at hto
  have hnul : 0 ∉ l ++ replicate k 61 := by
    rw [mem_append]
    rintro (h | h)
    · exact (hplain 0 h).1 rfl
    · simp at h
  have hmp : mptoa x 64 = some (sgn x ++ (l ++ replicate k 61 ++ [0])) := by simp [mptoa_eq h, hto]
  have hrun : ∀ mem, digitsOf 64 (l ++ (replicate k 61 ++ 0 :: mem)) =
      ((x.natAbs : Int), replicate k 61 ++ 0 :: mem) := fun mem => by
    cases k with
    | zero => exact hread 0 mem rfl
    | succ k => exact hread 61 (replicate k 61 ++ 0 :: mem) rfl
  rw [roundTrip_iff_digits (.inr (.inr (.inr rfl))) hmp hnul hne (fun c hc => (hplain c hc).2) hrun,
    replicate_eq_nil_iff, ← hk]
  split <;> omega

/-- **The text gives the number back** where the length of the buffer is an `int`: to bases 10 and 16 always,
to base 32 where the bytes of the number make up whole groups of five, or it is zero, and to base
64 where they make up groups of three. -/
theorem strtomp_mptoa_iff (x : Int) {base : Int} (hbase : base = 10 ∨ base = 16 ∨ base = 32 ∨ base = 64) :
    RoundTrip x base ↔ Fits x ∧ (base = 32 → x = 0 ∨ byteCount x % 5 = 0) ∧ (base = 64 → byteCount x % 3 = 0) := by
  by_cases h : Fits x
  · rw [and_iff_right h]
    obtain rfl | rfl | rfl | rfl := hbase
    · exact iff_of_true (roundTrip_ten h) (by simp)
    · exact iff_of_true (roundTrip_sixteen h) (by simp)
    · rw [roundTrip_thirtytwo h]
      simp
    · rw [roundTrip_sixtyfour h]
      simp
  · refine ⟨fun ⟨_, htext, _⟩ => ?_, fun hall => absurd hall.1 h⟩
    rw [mptoa, if_pos (by rw [Fits] at h; omega)] at htext
    exact nomatch htext

/-- Three bytes come back from base 64, and one does not. -/
theorem strtomp_mptoa_bytes : RoundTrip 70000 64 ∧ ¬ RoundTrip 1 64 := by
  have htop : byteCount 70000 = 3 ∧ top 70000 = 1 := by decide
  refine ⟨(strtomp_mptoa_iff 70000 (.inr (.inr (.inr rfl)))).2 ⟨?_, by decide, fun _ => by rw [htop.1]⟩, fun h => ?_⟩
  · rw [Fits, htop.2]
    decide
  · exact absurd (((strtomp_mptoa_iff 1 (.inr (.inr (.inr rfl)))).1 h).2.2 rfl) (by decide)

/-- To base 64 `strtomp` stops before the `==` of the text of one; to base 32 one does not come back either. -/
theorem strtomp_mptoa_one :
    mptoa 1 64 = some [65, 81, 61, 61, 0] ∧ strtomp [65, 81, 61, 61, 0] 64 = some (some 1, [61, 61, 0]) ∧
    ¬ RoundTrip 1 32 ∧
    ¬ ∀ x base : Int, base = 10 ∨ base = 16 ∨ base = 32 ∨ base = 64 → RoundTrip x base := by
  have hmp : mptoa 1 64 = some ([65, 81, 61, 61] ++ [0]) := by decide +kernel
  have hback : strtomp ([65, 81, 61, 61] ++ [0]) 64 = some (some 1, [61, 61, 0]) := by decide +kernel
  have hfits : Fits 1 := by
    rw [Fits, show top 1 = 1 from rfl]
    decide
  refine ⟨hmp, hback, fun h => ?_, fun hall => ?_⟩
  · exact absurd ((roundTrip_thirtytwo hfits).1 h) (by decide)
  obtain ⟨_, htext, -, hall⟩ := hall 1 64 (.inr (.inr (.inr rfl)))
  have heq := append_cancel_right (Option.some.inj (hmp.symm.trans htext))
  have hrun := hall []
  rw [← heq] at hrun
  exact absurd (hback.symm.trans hrun) (by decide)

end Plan9.Libmp
