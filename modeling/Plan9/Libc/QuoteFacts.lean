/-
What `quotestrdup` allocates and writes, and that `tokenize` undoes it.

The two count differently: `_quotesetup` adds up the widths of runes, and a quote
more for each rune that is one; the copy goes byte by byte. They agree because a
byte below 0x80 is a rune of its own (`Front`), malformed UTF included.

The counts are `int`s. `_quotesetup` tests them against 0x7FFFFFFF, which no
`int` exceeds, so they wrap, and `malloc` gets them with their sign: there is a block
and the copy stays inside exactly when the quoted string and its terminator are shorter
than 2^31.
-/
import Plan9.Libc.Quote
import Plan9.Libc.RuneFacts

namespace Plan9.Libc

open Bytes CInt List

/-! ## Counting -/

section

variable {doquote : Option (Rune → Bool)} {xs s : List UInt8} {c : Rune}

theorem ofNat_inj32 {m n : Nat} (hm : m < 2 ^ 32) (hn : n < 2 ^ 32) (h : UInt32.ofNat m = UInt32.ofNat n) : m = n := by
  have := congrArg UInt32.toNat h
  rwa [UInt32.toNat_ofNat_of_lt' hm, UInt32.toNat_ofNat_of_lt' hn] at this

/-- A quote is a rune of one byte, and no other rune has one. -/
theorem Front.count (h : Front xs c) : xs.count 0x27 = if c = 0x27 then 1 else 0 := by
  cases h with
  | low b hb =>
    by_cases hq : b = 0x27
    · subst hq; rfl
    have hc : UInt32.ofNat b.toNat ≠ 0x27 := by
      intro h
      have := ofNat_inj32 (by omega) (by decide) (show UInt32.ofNat b.toNat = UInt32.ofNat 0x27 from h)
      exact hq (UInt8.toNat_inj.mp this)
    rw [if_neg hc, count_singleton, if_neg (by simpa using hq)]
  | high xs c hne hc h =>
    have hq : c ≠ 0x27 := by rintro rfl; exact absurd hc (by decide)
    rw [if_neg hq, count_eq_zero]
    intro hmem
    exact absurd (h _ hmem) (by decide)

theorem Front.ne_zero (h : Front xs c) (h0 : 0 ∉ xs) : c ≠ 0 := by
  cases h with
  | low b hb =>
    intro hc
    have := ofNat_inj32 (by omega) (by decide) (show UInt32.ofNat b.toNat = UInt32.ofNat 0 from hc)
    exact h0 (by simp [UInt8.toNat_inj.mp (show b.toNat = (0 : UInt8).toNat from this)])
  | high xs c hne hc h => rintro rfl; exact absurd hc (by decide)

/-- The bytes of a rune that is not to be quoted are neither separators nor quotes. -/
theorem Front.plain (h : Front xs c) (hq : quotable doquote c = false) : ∀ b ∈ xs, 0x20 < b.toNat ∧ b ≠ 0x27 := by
  simp only [quotable, Bool.or_eq_false_iff, decide_eq_false_iff_not] at hq
  cases h with
  | low b hb =>
    intro x hx
    obtain rfl := mem_singleton.mp hx
    refine ⟨?_, ?_⟩
    · have := hq.1.1
      rw [UInt32.le_iff_toNat_le, UInt32.toNat_ofNat_of_lt' (by simp only [UInt32.size]; omega)] at this
      exact Nat.lt_of_not_le this
    · rintro rfl
      exact hq.1.2 rfl
  | high xs c hne hc h =>
    intro x hx
    have := h x hx
    refine ⟨by omega, ?_⟩
    rintro rfl
    exact absurd this (by decide)

end

/-- The runes of a string. -/
def decoded (s : List UInt8) : List Rune := (runes (s ++ [0])).1

theorem decoded_front {xs t : List UInt8} {c : Rune} (hs : 0 ∉ xs ++ t) (hf : Front xs c) {post : List UInt8}
    (hc : chartorune (xs ++ t ++ 0 :: post) = (c, xs.length)) : decoded (xs ++ t) = c :: decoded t := by
  have hne : xs ++ t ≠ [] := by
    have := hf.pos
    intro h
    have := congrArg length h
    simp only [length_append, length_nil] at this
    omega
  rw [chartorune_nul hne] at hc
  rw [decoded, runes_step hne hs hc (by rw [append_assoc, drop_left])]
  rfl

/-- What `_needsquotes` looks for: nothing at all, or a rune to be quoted. -/
def needs (doquote : Option (Rune → Bool)) (s : List UInt8) : Bool :=
  s.isEmpty || (decoded s).any (quotable doquote)

section

variable {doquote : Option (Rune → Bool)} {c : Rune} {w : Nat} {q : Quoteinfo}

theorem quoteRound_eq : ∃ q', quoteRound doquote 0x7FFFFFFF false c w q = (true, q') ∧
    q'.quoted = (q.quoted || quotable doquote c) ∧
    q'.nbytesout = int32 (q.nbytesout + w + (if c = 0x27 then 1 else 0) +
      (if !q.quoted && quotable doquote c then 2 else 0)) := by
  have hroom : ∀ x, ¬ (0x7FFFFFFF < int32 x) := fun x => Int.not_lt.mpr (int32_le_max x)
  have hquote : c = 0x27 → quotable doquote c = true := by rintro rfl; simp [quotable]
  unfold quoteRound quoteSpecial
  by_cases h27 : c = 0x27
  · have hs := hquote h27
    subst h27
    by_cases hq : q.quoted = true
    · simp [hs, hq, hroom]
      congr 1; omega
    · simp [hs, hq, hroom]
      congr 1; omega
  by_cases hs : quotable doquote c = true
  · by_cases hq : q.quoted = true
    · simp [hs, hq, h27, hroom]
    · simp [hs, hq, h27, hroom]
      congr 1; omega
  · simp [hs, h27, hroom]

end

theorem quoteLoop_eq (doquote : Option (Rune → Bool)) (post : List UInt8) : ∀ (s : List UInt8) (k : Nat) (q : Quoteinfo),
    0 ∉ s → k + s.length < 2 ^ 32 - 1 → int32 q.nbytesout = q.nbytesout →
    let q' := quoteLoop doquote 0x7FFFFFFF false (.s (s ++ 0 :: post)) (int32 (-1 - k)) q
    q'.quoted = (q.quoted || (decoded s).any (quotable doquote)) ∧
    q'.nbytesout = int32 (q.nbytesout + s.length + s.count 0x27 +
      (if !q.quoted && (decoded s).any (quotable doquote) then 2 else 0)) := by
  intro s
  induction hn : s.length using Nat.strong_induction_on generalizing s with
  | _ n ih =>
    intro k q hs hk hq
    subst hn
    dsimp only
    -- `nin` starts at -1 and would reach 0 after 2^32 - 1 rounds
    have hnin : int32 (-1 - k) ≠ 0 := by
      intro h
      have := int32_emod (-1 - k)
      omega
    rw [quoteLoop, if_neg hnin]
    by_cases hne : s = []
    · subst hne
      have hend : (QuoteSrc.s ([] ++ 0 :: post)).next.1 = 0 := rfl
      rw [if_pos hend]
      simp [decoded, runes_nul, hq]
    obtain ⟨xs, t, c, rfl, hf, hc⟩ := chartorune_front hne post
    have hpos := hf.pos
    have hnext : QuoteSrc.next (.s (xs ++ t ++ 0 :: post)) = (c, xs.length) := hc
    have hc0 : c ≠ 0 := hf.ne_zero fun h => hs (mem_append_left _ h)
    have hdrop : QuoteSrc.advance (.s (xs ++ t ++ 0 :: post)) xs.length = .s (t ++ 0 :: post) := by
      simp [QuoteSrc.advance]
    obtain ⟨q', hround, hquoted, hout⟩ := @quoteRound_eq doquote c xs.length q
    rw [length_append] at hk
    obtain ⟨ihq, iho⟩ := ih t.length (by rw [length_append]; omega) t rfl (k + 1) q'
      (fun h => hs (mem_append_right _ h)) (by omega) (by rw [hout, int32_int32])
    have hstep : int32 (int32 (-1 - k) - 1) = int32 (-1 - (k + 1 : Nat)) := by
      rw [int32_sub]; congr 1; omega
    rw [hnext, if_neg hc0, hround]
    rw [hdrop, hstep, ihq, iho, hquoted, hout, decoded_front hs hf hc, count_append, hf.count]
    refine ⟨by rw [any_cons, Bool.or_assoc], ?_⟩
    rw [Int.add_assoc, Int.add_assoc, int32_add, any_cons, length_append]
    congr 1
    cases q.quoted <;> cases quotable doquote c <;> cases (decoded t).any (quotable doquote) <;>
      simp <;> split <;> omega

/-! ## What quotestrdup leaves -/

/-- The string with its quotes doubled. -/
def double (s : List UInt8) : List UInt8 := s.flatMap fun b => if b = 0x27 then [b, b] else [b]

/-- The string quoted, if it has to be. -/
def quoted (doquote : Option (Rune → Bool)) (s : List UInt8) : List UInt8 :=
  if needs doquote s then 0x27 :: double s ++ [0x27] else s

theorem length_double (s : List UInt8) : (double s).length = s.length + s.count 0x27 := by
  induction s with
  | nil => rfl
  | cons b s ih =>
    simp only [double, flatMap_cons, length_append, length_cons, count_cons] at ih ⊢
    rw [ih]
    by_cases hb : b = 0x27
    · simp [hb]; omega
    · simp [hb]; omega

theorem quoteBytes_eq {s : List UInt8} (hs : 0 ∉ s) (post : List UInt8) : quoteBytes (s ++ 0 :: post) = double s := by
  induction s with
  | nil => rfl
  | cons b s ih =>
    have hb : b ≠ 0 := fun h => hs (by simp [h])
    have ih := ih fun h => hs (mem_cons_of_mem _ h)
    rw [cons_append, quoteBytes, if_neg hb, ih]
    by_cases hq : b = 0x27
    · simp [double, hq]
    · simp [double, hq]

section

variable {doquote : Option (Rune → Bool)} {s : List UInt8}

theorem needsquotes_eq (hs : 0 ∉ s) (hlen : s.length < 2 ^ 32 - 1) (post : List UInt8) :
    (needsquotes doquote (s ++ 0 :: post)).1 = needs doquote s ∧
    (needs doquote s = true → (needsquotes doquote (s ++ 0 :: post)).2 = int32 (quoted doquote s).length) := by
  have hstart : int32 (-1 - (0 : Nat)) = -1 := int32_eq (by decide) (by decide)
  have hloop := fun q => quoteLoop_eq doquote post s 0 q hs (by omega)
  rw [hstart] at hloop
  by_cases hne : s = []
  · subst hne
    obtain ⟨hq, ho⟩ := hloop ⟨true, 0, 0, 2, 2⟩ (int32_eq (by decide) (by decide))
    refine ⟨hq, fun _ => ho.trans ?_⟩
    rfl
  have hend : (QuoteSrc.s (s ++ 0 :: post)).atEnd = false := by
    simpa [QuoteSrc.atEnd] using byteAt_head hne hs
  have hsetup : quotesetup doquote (.s (s ++ 0 :: post)) (-1) 0x7FFFFFFF false false =
      quoteLoop doquote 0x7FFFFFFF false (.s (s ++ 0 :: post)) (-1) ⟨false, 0, 0, 0, 0⟩ := by
    simp [quotesetup, hend]
  obtain ⟨hq, ho⟩ := hloop ⟨false, 0, 0, 0, 0⟩ (int32_eq (by decide) (by decide))
  have hneeds : needs doquote s = (decoded s).any (quotable doquote) := by simp [needs, hne]
  rw [needsquotes, hsetup, hneeds]
  refine ⟨by simpa using hq, fun h => ho.trans ?_⟩
  rw [quoted, hneeds, if_pos h, length_append, length_cons, length_double]
  simp only [h, Bool.not_false, Bool.and_true, if_true, length_cons, length_nil]
  congr 1
  omega

theorem malloc_int {x : Int} {room : Nat} (h : malloc (uintptr (int32 x)) = some room) : room < 2 ^ 31 ∧ (room : Int) ≤ x % 2 ^ 32 := by
  have hle := int32_le_max x
  have hge := le_int32 x
  have hmod := int32_emod x
  unfold malloc at h
  dsimp only at h
  obtain ⟨hsize, hroom⟩ := Option.ite_none_left_eq_some.1 h
  rw [Option.some.injEq] at hroom
  unfold uintptr at hsize hroom
  omega

theorem malloc_small {n : Nat} (hn : n < 2 ^ 31) : malloc (uintptr (int32 n)) = some n := by
  unfold malloc uintptr
  rw [int32_eq (by omega) (by omega)]
  have hsize : (((n : Int) % 2 ^ 64).toNat + 16) % 2 ^ 64 = n + 16 := by omega
  dsimp only
  rw [hsize, if_neg (by omega), Nat.add_sub_cancel]

/-- What is asked of `malloc`, and what is stored. -/
theorem quotestrdup_eq (hs : 0 ∉ s) (hlen : s.length < 2 ^ 32 - 1) (post : List UInt8) :
    quotestrdup doquote (s ++ 0 :: post) =
      (malloc (uintptr (int32 ((quoted doquote s).length + 1 : Nat))), quoted doquote s ++ [0]) := by
  obtain ⟨hq, ho⟩ := @needsquotes_eq doquote s hs hlen post
  rcases hn : needsquotes doquote (s ++ 0 :: post) with ⟨b, _⟩
  rw [hn] at hq ho
  dsimp only at hq ho
  rw [quotestrdup, hn]
  cases hb : needs doquote s with
  | false =>
    subst hq
    rw [strdup, cstr_of_nul hs, int32_add, quoted, hb]
    rfl
  | true =>
    rw [hb] at hq
    subst hq
    dsimp only
    rw [ho hb, int32_add, quoteBytes_eq hs]
    simp [quoted, hb]

/-- There is a block, and the copy stays inside it. -/
def Inside (copy : Option Nat × List UInt8) : Prop := ∃ room, copy.1 = some room ∧ copy.2.length ≤ room

/-- **The copy has a block and stays inside it exactly when the quoted string and its zero are shorter than 2^31.** -/
theorem quotestrdup_inside_iff (hs : 0 ∉ s) (post : List UInt8) :
    Inside (quotestrdup doquote (s ++ 0 :: post)) ↔ (quoted doquote s).length + 1 < 2 ^ 31 := by
  by_cases hlen : s.length < 2 ^ 32 - 1
  · rw [quotestrdup_eq hs hlen, Inside, length_append, length_singleton]
    dsimp only
    constructor
    · rintro ⟨room, hroom, hle⟩
      have := malloc_int hroom
      omega
    · exact fun h => ⟨_, malloc_small h, le_rfl⟩
  -- too long for the loop to see all of it; even a plain copy is too long
  have hquoted : s.length ≤ (quoted doquote s).length := by
    rw [quoted]
    split
    · rw [length_append, length_cons, length_double]; omega
    · exact le_rfl
  have hwritten : s.length + 1 ≤ (quotestrdup doquote (s ++ 0 :: post)).2.length := by
    rw [quotestrdup]
    split
    · rw [strdup, cstr_of_nul hs]; simp
    · rw [quoteBytes_eq hs, length_append, length_cons, length_double]
      omega
  have halloc : ∀ room, (quotestrdup doquote (s ++ 0 :: post)).1 = some room → room < 2 ^ 31 := by
    intro room h
    rw [quotestrdup] at h
    split at h
    · dsimp only [strdup] at h
      exact (malloc_int h).1
    · dsimp only at h
      exact (malloc_int h).1
  constructor
  · rintro ⟨room, hroom, hle⟩
    have := halloc room hroom
    omega
  · intro h
    omega

end

/-! ## Taking a token -/

/-- The loop of `qtoken` when it has written up to the end of `base` and reads at `inp`, `gap` being
what is stale between. -/
def qrun (base gap inp : List UInt8) (quoting : Bool) : List UInt8 × Nat × Nat :=
  qtokenLoop qsep (base ++ (gap ++ inp)) base.length (base.length + gap.length) quoting

section

variable {base gap inp : List UInt8} {b : UInt8} {quoting : Bool}

theorem byteAt_inp (base gap inp : List UInt8) (i : Nat) :
    byteAt (base ++ (gap ++ inp)) (base.length + gap.length + i) = byteAt inp i := by
  rw [← append_assoc, ← length_append, byteAt_append]

theorem byteAt_read (base gap inp : List UInt8) :
    byteAt (base ++ (gap ++ inp)) (base.length + gap.length) = byteAt inp 0 := byteAt_inp base gap inp 0

theorem set_base (base gap inp : List UInt8) (b x : UInt8) :
    (base ++ (gap ++ b :: inp)).set base.length x = base ++ [x] ++ ((gap ++ [b]).tail ++ inp) := by
  cases gap with
  | nil => simp
  | cons g gap => simp

theorem length_tail_gap (gap ys : List UInt8) (y : UInt8) : (gap ++ (y :: ys)).tail.length = gap.length + ys.length := by
  simp

theorem qrun_copy (h0 : b ≠ 0) (h27 : b ≠ 0x27) (hsep : quoting = true ∨ isSep qsep b = false) :
    qrun base gap (b :: inp) quoting = qrun (base ++ [b]) (gap ++ [b]).tail inp quoting := by
  have hb : byteAt (base ++ (gap ++ b :: inp)) (base.length + gap.length) = b := byteAt_read base gap (b :: inp)
  rw [qrun, qtokenLoop, hb, dif_pos ⟨h0, hsep⟩, if_pos h27, set_base, qrun, length_tail_gap]
  congr 1
  · simp
  · simp; omega

theorem qrun_open : qrun base gap (0x27 :: inp) false = qrun base (gap ++ [0x27]) inp true := by
  have hb : byteAt (base ++ (gap ++ 0x27 :: inp)) (base.length + gap.length) = 0x27 := byteAt_read base gap _
  rw [qrun, qtokenLoop, hb, dif_pos ⟨by decide, .inr (by decide)⟩, if_neg (by decide), if_pos (by decide), qrun]
  congr 1
  · simp
  · simp; omega

theorem qrun_close (hnext : byteAt inp 0 ≠ 0x27) :
    qrun base gap (0x27 :: inp) true = qrun base (gap ++ [0x27]) inp false := by
  have hb : byteAt (base ++ (gap ++ 0x27 :: inp)) (base.length + gap.length) = 0x27 := byteAt_read base gap _
  have hb' : byteAt (base ++ (gap ++ 0x27 :: inp)) (base.length + gap.length + 1) = byteAt inp 0 :=
    byteAt_inp base gap (0x27 :: inp) 1
  rw [qrun, qtokenLoop, hb, dif_pos ⟨by decide, .inl rfl⟩, if_neg (by decide), if_neg (by decide), hb',
    if_pos hnext, qrun]
  congr 1
  · simp
  · simp; omega

theorem qrun_fold : qrun base gap (0x27 :: 0x27 :: inp) true = qrun (base ++ [0x27]) (gap ++ [0x27, 0x27]).tail inp true := by
  have hb : byteAt (base ++ (gap ++ 0x27 :: 0x27 :: inp)) (base.length + gap.length) = 0x27 := byteAt_read base gap _
  have hb' : byteAt (base ++ (gap ++ 0x27 :: 0x27 :: inp)) (base.length + gap.length + 1) = 0x27 :=
    byteAt_inp base gap (0x27 :: 0x27 :: inp) 1
  rw [qrun, qtokenLoop, hb, dif_pos ⟨by decide, .inl rfl⟩, if_neg (by decide), if_neg (by decide), hb',
    if_neg (by decide), set_base, qrun, length_tail_gap]
  congr 1
  · cases gap <;> simp
  · simp
  · simp; omega

theorem qrun_stop (h : byteAt inp 0 = 0 ∨ quoting = false ∧ isSep qsep (byteAt inp 0) = true) :
    qrun base gap inp quoting = (base ++ (gap ++ inp), base.length, base.length + gap.length) := by
  rw [qrun, qtokenLoop, byteAt_read, dif_neg]
  rintro ⟨h0, hq | hsep⟩
  · rcases h with h | h
    · exact h0 h
    · rw [h.1] at hq; exact absurd hq (by decide)
  · rcases h with h | h
    · exact h0 h
    · rw [h.2] at hsep; exact absurd hsep (by decide)

end

theorem qrun_quoted : ∀ (a base gap inp : List UInt8), 0 ∉ a → 0 ∉ gap → gap ≠ [] →
    ∃ gap', 0 ∉ gap' ∧ gap' ≠ [] ∧
      qrun base gap (double a ++ inp) true = qrun (base ++ a) gap' inp true
  | [], base, gap, inp, _, hgap, hne => ⟨gap, hgap, hne, by simp [double]⟩
  | b :: a, base, gap, inp, ha, hgap, hne => by
    have hb : b ≠ 0 := fun h => ha (by simp [h])
    have ha' : 0 ∉ a := fun h => ha (mem_cons_of_mem _ h)
    have htail : ∀ ys : List UInt8, ys ≠ [] → 0 ∉ ys → 0 ∉ (gap ++ ys).tail ∧ (gap ++ ys).tail ≠ [] := by
      intro ys hys h0
      cases gap with
      | nil => exact absurd rfl hne
      | cons g gap =>
        refine ⟨fun h => ?_, by simp [hys]⟩
        rcases mem_append.mp h with h | h
        · exact hgap (mem_cons_of_mem _ h)
        · exact h0 h
    by_cases hq : b = 0x27
    · subst hq
      obtain ⟨h0, hne'⟩ := htail [0x27, 0x27] (by simp) (by decide)
      obtain ⟨gap', hgap', hne'', hrun⟩ := qrun_quoted a (base ++ [0x27]) _ inp ha' h0 hne'
      refine ⟨gap', hgap', hne'', ?_⟩
      have hdouble : double (0x27 :: a) ++ inp = 0x27 :: 0x27 :: (double a ++ inp) := by simp [double]
      rw [hdouble, qrun_fold, hrun, append_assoc]
      rfl
    obtain ⟨h0, hne'⟩ := htail [b] (by simp) (by simpa using fun h => hb h.symm)
    obtain ⟨gap', hgap', hne'', hrun⟩ := qrun_quoted a (base ++ [b]) _ inp ha' h0 hne'
    refine ⟨gap', hgap', hne'', ?_⟩
    have hdouble : double (b :: a) ++ inp = b :: (double a ++ inp) := by simp [double, hq]
    rw [hdouble, qrun_copy hb hq (.inl rfl), hrun, append_assoc]
    rfl

/-- A byte of a token that has no quotes. -/
def Plain (b : UInt8) : Prop := 0x20 < b.toNat ∧ b ≠ 0x27

theorem Plain.ne_zero {b : UInt8} (h : Plain b) : b ≠ 0 := by
  rintro rfl
  exact absurd h.1 (by decide)

theorem Plain.not_sep {b : UInt8} (h : Plain b) : isSep qsep b = false := by
  have hmem : b ∉ qsep := by
    intro hb
    have hle : ∀ x ∈ qsep, x.toNat ≤ 0x20 := by decide +kernel
    exact absurd (hle b hb) (Nat.not_le.mpr h.1)
  simp only [isSep, strchr, if_neg h.ne_zero, Option.isSome_eq_false_iff, Option.isNone_iff_eq_none]
  exact idxOf?_eq_none_iff.mpr hmem

/-- Outside quotes: every byte is copied onto itself. -/
theorem qrun_plain : ∀ (a base inp : List UInt8), (∀ b ∈ a, Plain b) →
    qrun base [] (a ++ inp) false = qrun (base ++ a) [] inp false
  | [], base, inp, _ => by simp
  | b :: a, base, inp, h => by
    have hb := h b (by simp)
    rw [cons_append, qrun_copy hb.ne_zero hb.2 (.inr hb.not_sep)]
    have ih := qrun_plain a (base ++ [b]) inp fun x hx => h x (mem_cons_of_mem _ hx)
    rw [append_assoc] at ih
    exact ih

section

variable {doquote : Option (Rune → Bool)} {a : List UInt8}

/-- A string that is not quoted is made of plain bytes. -/
theorem plain_of_decoded : ∀ {s : List UInt8}, 0 ∉ s → (decoded s).any (quotable doquote) = false →
    ∀ b ∈ s, Plain b := by
  intro s
  induction hn : s.length using Nat.strong_induction_on generalizing s with
  | _ n ih =>
    intro hs hany b hb
    subst hn
    have hne : s ≠ [] := by rintro rfl; simp at hb
    obtain ⟨_, t, c, rfl, hf, hc⟩ := chartorune_front hne []
    have hpos := hf.pos
    rw [decoded_front hs hf hc, any_cons, Bool.or_eq_false_iff] at hany
    rcases mem_append.mp hb with hb | hb
    · exact hf.plain hany.1 b hb
    · exact ih t.length (by rw [length_append]; omega) rfl (fun h => hs (mem_append_right _ h)) hany.2 b hb

theorem plain_of_not_needs (ha : 0 ∉ a) (h : needs doquote a = false) : a ≠ [] ∧ ∀ b ∈ a, Plain b := by
  simp only [needs, Bool.or_eq_false_iff] at h
  exact ⟨by simpa using h.1, plain_of_decoded ha h.2⟩

/-- What ends a token in the joined string: a blank or the terminator. -/
def Ends (rest : List UInt8) : Prop := byteAt rest 0 = 0x20 ∨ byteAt rest 0 = 0

theorem Ends.stop {rest : List UInt8} (h : Ends rest) :
    byteAt rest 0 = 0 ∨ false = false ∧ isSep qsep (byteAt rest 0) = true := by
  rcases h with h | h
  · rw [h]; exact .inr ⟨rfl, by decide⟩
  · exact .inl h

theorem qtoken_quoted (ha : 0 ∉ a) {rest : List UInt8} (hend : Ends rest) (pre : List UInt8) :
    ∃ junk, qtoken qsep (pre ++ (0x27 :: double a ++ [0x27] ++ rest)) pre.length =
      (pre ++ (a ++ 0 :: junk) ++ rest, (pre ++ (a ++ 0 :: junk)).length) := by
  have hne : byteAt rest 0 ≠ 0x27 := by rcases hend with h | h <;> rw [h] <;> decide
  obtain ⟨gap, hgap, hgne, hrun⟩ := qrun_quoted a pre [0x27] (0x27 :: rest) ha (by decide) (by simp)
  have hloop : qtokenLoop qsep (pre ++ (0x27 :: double a ++ [0x27] ++ rest)) pre.length pre.length false =
      (pre ++ a ++ (gap ++ [0x27] ++ rest), (pre ++ a).length, (pre ++ a).length + (gap ++ [0x27]).length) := by
    have hopen : qrun pre [] (0x27 :: (double a ++ 0x27 :: rest)) false =
        qrun pre [0x27] (double a ++ 0x27 :: rest) true := qrun_open
    rw [hrun, qrun_close hne, qrun_stop hend.stop] at hopen
    rw [← hopen]
    simp [qrun]
  cases gap with
  | nil => exact absurd rfl hgne
  | cons g gap =>
    have hg : g ≠ 0 := fun h => hgap (by simp [h])
    refine ⟨gap ++ [0x27], ?_⟩
    rw [qtoken, hloop]
    dsimp only
    have hbyte : byteAt (pre ++ a ++ (g :: gap ++ [0x27] ++ rest)) (pre ++ a).length = g := byteAt_mid _ _ _
    rw [hbyte, if_pos hg, if_neg (by simp), set_append_right _ _ le_rfl, Nat.sub_self]
    simp
    omega

theorem qtoken_plain (ha : ∀ b ∈ a, Plain b) (pre post : List UInt8) :
    qtoken qsep (pre ++ (a ++ 0x20 :: post)) pre.length = (pre ++ (a ++ [0]) ++ post, (pre ++ (a ++ [0])).length) := by
  have hloop : qtokenLoop qsep (pre ++ (a ++ 0x20 :: post)) pre.length pre.length false =
      (pre ++ a ++ 0x20 :: post, (pre ++ a).length, (pre ++ a).length) := by
    have hstop := @qrun_stop (pre ++ a) [] (0x20 :: post) false (.inr ⟨rfl, rfl⟩)
    simpa [qrun] using (qrun_plain a pre (0x20 :: post) ha).trans hstop
  have hbyte : byteAt (pre ++ a ++ 0x20 :: post) (pre ++ a).length = 0x20 := byteAt_mid _ _ _
  rw [qtoken, hloop]
  dsimp only
  rw [hbyte, if_pos (by decide), if_pos rfl, set_append_right _ _ le_rfl, Nat.sub_self]
  simp
  omega

theorem qtoken_plain_last (ha : ∀ b ∈ a, Plain b) (pre post : List UInt8) :
    qtoken qsep (pre ++ (a ++ 0 :: post)) pre.length = (pre ++ (a ++ 0 :: post), (pre ++ a).length) := by
  have hloop : qtokenLoop qsep (pre ++ (a ++ 0 :: post)) pre.length pre.length false =
      (pre ++ a ++ 0 :: post, (pre ++ a).length, (pre ++ a).length) := by
    have hstop := @qrun_stop (pre ++ a) [] (0 :: post) false (.inl rfl)
    simpa [qrun] using (qrun_plain a pre (0 :: post) ha).trans hstop
  have hbyte : byteAt (pre ++ a ++ 0 :: post) (pre ++ a).length = 0 := byteAt_mid _ _ _
  rw [qtoken, hloop]
  dsimp only
  rw [hbyte, if_neg (by decide), append_assoc]

/-- **Taking a quoted string off the front**: it is left in place, ended by a zero, and what follows is
as it was, less the blank when that is where the zero went. -/
theorem qtoken_front (ha : 0 ∉ a) (pre post : List UInt8) :
    ∃ junk bl, (bl = [] ∨ bl = [0x20]) ∧
      qtoken qsep (pre ++ (quoted doquote a ++ 0x20 :: post)) pre.length =
        (pre ++ (a ++ 0 :: junk) ++ (bl ++ post), (pre ++ (a ++ 0 :: junk)).length) := by
  rw [quoted]
  cases hn : needs doquote a with
  | true =>
    obtain ⟨junk, h⟩ := @qtoken_quoted a ha (0x20 :: post) (.inl rfl) pre
    exact ⟨junk, [0x20], .inr rfl, h⟩
  | false => exact ⟨[], [], .inl rfl, qtoken_plain (plain_of_not_needs ha hn).2 pre post⟩

theorem qtoken_last (ha : 0 ∉ a) (pre post : List UInt8) :
    ∃ m t, qtoken qsep (pre ++ (quoted doquote a ++ 0 :: post)) pre.length = (m, t) ∧ byteAt m t = 0 ∧
      ∃ junk, m = pre ++ (a ++ 0 :: junk) := by
  rw [quoted]
  cases hn : needs doquote a with
  | true =>
    obtain ⟨junk, h⟩ := @qtoken_quoted a ha (0 :: post) (.inr rfl) pre
    exact ⟨_, _, h, byteAt_mid _ _ _, junk ++ 0 :: post, by simp⟩
  | false =>
    refine ⟨_, _, qtoken_plain_last (plain_of_not_needs ha hn).2 pre post, ?_, post, rfl⟩
    rw [← append_assoc]
    exact byteAt_mid _ _ _

end

/-! ## All the tokens -/

/-- The strings with a blank between each two. -/
def joinBlank : List (List UInt8) → List UInt8
  | [] => []
  | [s] => s
  | s :: t :: ss => s ++ 0x20 :: joinBlank (t :: ss)

theorem skipSeps_stop {m : List UInt8} {p : Nat} (h : byteAt m p = 0 ∨ isSep qsep (byteAt m p) = false) :
    skipSeps qsep m p = p := by
  rw [skipSeps, dif_neg]
  rintro ⟨h0, hsep⟩
  rcases h with h | h
  · exact h0 h
  · rw [h] at hsep; exact absurd hsep (by decide)

theorem skipSeps_blank {pre bl post : List UInt8} (hbl : bl = [] ∨ bl = [0x20])
    (h : byteAt post 0 = 0 ∨ isSep qsep (byteAt post 0) = false) :
    skipSeps qsep (pre ++ (bl ++ post)) pre.length = (pre ++ bl).length := by
  have hstop : ∀ pre : List UInt8, skipSeps qsep (pre ++ post) pre.length = pre.length := by
    intro pre
    have hb : byteAt (pre ++ post) pre.length = byteAt post 0 := byteAt_append pre post 0
    exact skipSeps_stop (by rw [hb]; exact h)
  rcases hbl with rfl | rfl
  · simpa using hstop pre
  have hb : byteAt (pre ++ ([0x20] ++ post)) pre.length = 0x20 := byteAt_mid _ _ _
  rw [skipSeps, dif_pos (by rw [hb]; decide)]
  have h := hstop (pre ++ [0x20])
  simpa using h

section

variable {doquote : Option (Rune → Bool)}

theorem quoted_head {a : List UInt8} (ha : 0 ∉ a) (rest : List UInt8) :
    byteAt (quoted doquote a ++ rest) 0 ≠ 0 ∧ isSep qsep (byteAt (quoted doquote a ++ rest) 0) = false := by
  rw [quoted]
  cases hn : needs doquote a with
  | true =>
    have hb : byteAt (0x27 :: double a ++ [0x27] ++ rest) 0 = 0x27 := rfl
    rw [if_pos rfl, hb]
    exact ⟨by decide, by decide⟩
  | false =>
    obtain ⟨hne, hplain⟩ := plain_of_not_needs ha hn
    cases a with
    | nil => exact absurd rfl hne
    | cons b a =>
      have hb := hplain b (by simp)
      exact ⟨hb.ne_zero, hb.not_sep⟩

theorem tokenizeLoop_join (post : List UInt8) : ∀ (args : List (List UInt8)) (n : Nat) (pre bl : List UInt8),
    (∀ a ∈ args, 0 ∉ a) → args.length ≤ n → (bl = [] ∨ bl = [0x20]) →
    ∃ m offs, tokenizeLoop (pre ++ (bl ++ (joinBlank (args.map (quoted doquote)) ++ 0 :: post))) n pre.length =
        (m, offs) ∧
      pre <+: m ∧ offs.map (fun p => cstr (m.drop p)) = args
  | [], n, pre, bl, _, _, hbl => by
    refine ⟨pre ++ (bl ++ 0 :: post), [], ?_, prefix_append _ _, rfl⟩
    have hjoin : joinBlank (([] : List (List UInt8)).map (quoted doquote)) ++ 0 :: post = 0 :: post := rfl
    rw [hjoin]
    cases n with
    | zero => rfl
    | succ n =>
      have hskip := @skipSeps_blank pre bl (0 :: post) hbl (.inl rfl)
      have hzero : byteAt (pre ++ (bl ++ 0 :: post)) (pre ++ bl).length = 0 := by
        rw [← append_assoc]; exact byteAt_mid _ _ _
      rw [tokenizeLoop, hskip, if_pos hzero]
  | a :: args, 0, pre, bl, _, hn, _ => by simp at hn
  | a :: args, n + 1, pre, bl, hargs, hn, hbl => by
    have ha := hargs a (by simp)
    -- the token starts after the blank, if one was left
    have hstart : ∀ rest, skipSeps qsep (pre ++ (bl ++ (quoted doquote a ++ rest))) pre.length = (pre ++ bl).length ∧
        byteAt (pre ++ (bl ++ (quoted doquote a ++ rest))) (pre ++ bl).length ≠ 0 := by
      intro rest
      obtain ⟨h0, hsep⟩ := @quoted_head doquote a ha rest
      refine ⟨skipSeps_blank hbl (.inr hsep), ?_⟩
      have hb := byteAt_append (pre ++ bl) (quoted doquote a ++ rest) 0
      rw [append_assoc, Nat.add_zero] at hb
      rw [hb]; exact h0
    -- the token is read where it was left, since nothing before what follows is written again
    have hread : ∀ m junk : List UInt8, pre ++ bl ++ (a ++ 0 :: junk) <+: m →
        pre <+: m ∧ cstr (m.drop (pre ++ bl).length) = a := by
      rintro m junk ⟨rest, rfl⟩
      refine ⟨⟨bl ++ (a ++ 0 :: junk) ++ rest, by simp⟩, ?_⟩
      rw [append_assoc (pre ++ bl), drop_left, append_assoc, cons_append]
      exact cstr_of_nul ha _
    cases args with
    | nil =>
      obtain ⟨hskip, hne⟩ := hstart (0 :: post)
      obtain ⟨m, t, htok, hend, junk, hm⟩ := @qtoken_last doquote a ha (pre ++ bl) post
      have hrest : tokenizeLoop m n t = (m, []) := by
        cases n with
        | zero => rfl
        | succ n => rw [tokenizeLoop, skipSeps_stop (.inl hend), if_pos hend]
      have hjoin : joinBlank ([a].map (quoted doquote)) = quoted doquote a := rfl
      obtain ⟨hpre, hcstr⟩ := hread m junk ⟨[], by rw [hm, append_nil]⟩
      refine ⟨m, [(pre ++ bl).length], ?_, hpre, by rw [map_cons, hcstr, map_nil]⟩
      rw [append_assoc] at htok
      rw [tokenizeLoop, hjoin, hskip, if_neg hne, htok]
      dsimp only
      rw [hrest]
    | cons b args =>
      obtain ⟨hskip, hne⟩ := hstart (0x20 :: (joinBlank ((b :: args).map (quoted doquote)) ++ 0 :: post))
      obtain ⟨junk, bl', hbl', htok⟩ := @qtoken_front doquote a ha (pre ++ bl)
        (joinBlank ((b :: args).map (quoted doquote)) ++ 0 :: post)
      obtain ⟨m, offs, hrest, htake, hoffs⟩ := tokenizeLoop_join post (b :: args) n (pre ++ bl ++ (a ++ 0 :: junk)) bl'
        (fun x hx => hargs x (mem_cons_of_mem _ hx)) (by simpa using hn) hbl'
      have hjoin : joinBlank ((a :: b :: args).map (quoted doquote)) ++ 0 :: post =
          quoted doquote a ++ 0x20 :: (joinBlank ((b :: args).map (quoted doquote)) ++ 0 :: post) := by
        simp [joinBlank]
      obtain ⟨hpre, hcstr⟩ := hread m junk htake
      refine ⟨m, (pre ++ bl).length :: offs, ?_, hpre, by rw [map_cons, hcstr, hoffs]⟩
      rw [append_assoc pre bl (quoted doquote a ++ _)] at htok
      rw [tokenizeLoop, hjoin, hskip, if_neg hne, htok]
      dsimp only
      rw [hrest]

/-- **`tokenize` gives back what was quoted and joined.** -/
theorem tokens_join {args : List (List UInt8)} (hargs : ∀ a ∈ args, 0 ∉ a) {maxargs : Nat}
    (hmax : args.length ≤ maxargs) (post : List UInt8) :
    tokens (joinBlank (args.map (quoted doquote)) ++ 0 :: post) maxargs = args := by
  obtain ⟨m, _, hrun, -, hoffs⟩ := @tokenizeLoop_join doquote post args maxargs [] [] hargs hmax (.inl rfl)
  rw [tokens, tokenize]
  simp only [nil_append, length_nil] at hrun
  rw [hrun]
  exact hoffs

end

/-! ## The round trip -/

/-- The string that `quotestrdup` leaves in its block. -/
def quotestr (doquote : Option (Rune → Bool)) (a : List UInt8) : List UInt8 :=
  cstr (quotestrdup doquote (a ++ [0])).2

/-- Each copy has a block and does not leave it, and the joined copies are taken apart again. -/
def QuotesBack (doquote : Option (Rune → Bool)) (args : List (List UInt8)) (maxargs : Nat) : Prop :=
  (∀ a ∈ args, Inside (quotestrdup doquote (a ++ [0]))) ∧
  tokens (joinBlank (args.map (quotestr doquote)) ++ [0]) maxargs = args

theorem nul_notMem_double {s : List UInt8} (hs : 0 ∉ s) : 0 ∉ double s := by
  intro h
  obtain ⟨b, hb, h0⟩ := mem_flatMap.mp h
  have : (0 : UInt8) = b := by
    split at h0
    · simpa using h0
    · simpa using h0
  exact hs (this ▸ hb)

theorem quotestr_eq {doquote : Option (Rune → Bool)} {a : List UInt8} (ha : 0 ∉ a)
    (hlen : (quoted doquote a).length + 1 < 2 ^ 31) : quotestr doquote a = quoted doquote a := by
  have hle : a.length ≤ (quoted doquote a).length := by
    rw [quoted]
    split
    · rw [length_append, length_cons, length_double]; omega
    · exact le_rfl
  have h0 : 0 ∉ quoted doquote a := by
    rw [quoted]
    split
    · have := nul_notMem_double ha
      simp [this]
    · exact ha
  rw [quotestr, quotestrdup_eq ha (by omega)]
  exact cstr_of_nul h0 []

/-- **Quoting and tokenizing give the arguments back, and no copy leaves its block, exactly when every
argument is shorter than 2^31 bytes quoted**, its terminator counted. -/
theorem quotesBack_iff (doquote : Option (Rune → Bool)) {args : List (List UInt8)} (hargs : ∀ a ∈ args, 0 ∉ a)
    {maxargs : Nat} (hmax : args.length ≤ maxargs) :
    QuotesBack doquote args maxargs ↔ ∀ a ∈ args, (quoted doquote a).length + 1 < 2 ^ 31 := by
  constructor
  · rintro ⟨hinside, -⟩ a ha
    exact (quotestrdup_inside_iff (hargs a ha) []).mp (hinside a ha)
  intro h
  have hmap : args.map (quotestr doquote) = args.map (quoted doquote) :=
    map_congr_left fun a ha => quotestr_eq (hargs a ha) (h a ha)
  refine ⟨fun a ha => (quotestrdup_inside_iff (hargs a ha) []).mpr (h a ha), ?_⟩
  rw [hmap]
  exact tokens_join hargs hmax []

theorem length_quoted_le (doquote : Option (Rune → Bool)) (a : List UInt8) :
    (quoted doquote a).length ≤ 2 * a.length + 2 := by
  have hcount : a.count 0x27 ≤ a.length := count_le_length
  rw [quoted]
  split
  · simp only [length_append, length_cons, length_nil, length_double]; omega
  · omega

/-- An argument with a quote and a blank, an empty one, and one that is not UTF. -/
theorem quotesBack_three : QuotesBack none [[0x69, 0x27, 0x20], [], [0xFF]] 3 := by
  refine (quotesBack_iff none (by decide) (by decide)).mpr fun a ha => ?_
  have hshort : ∀ a ∈ [[0x69, 0x27, 0x20], [], [(0xFF : UInt8)]], a.length ≤ 3 := by decide
  have hle := length_quoted_le none a
  have := hshort a ha
  omega

theorem length_quoted_quotes {n : Nat} (hn : 0 < n) :
    (quoted none (List.replicate n 0x27)).length = 2 * n + 2 := by
  have h0 : (0 : UInt8) ∉ replicate n 0x27 := by
    intro h
    exact absurd (eq_of_mem_replicate h) (by decide)
  have hneeds : needs none (replicate n 0x27) = true := by
    cases h : needs none (replicate n 0x27) with
    | true => rfl
    | false =>
      have hmem : 0x27 ∈ replicate n (0x27 : UInt8) := mem_replicate.mpr ⟨by omega, rfl⟩
      exact absurd rfl ((plain_of_not_needs h0 h).2 _ hmem).2
  rw [quoted, if_pos hneeds]
  simp only [length_append, length_cons, length_nil, length_double, length_replicate,
    count_replicate_self]
  omega

theorem quotesBack_quotes {n : Nat} (hn : n = 2 ^ 31) :
    (quotestrdup none (List.replicate n 0x27 ++ [0])).1 = some 3 ∧
    (quotestrdup none (List.replicate n 0x27 ++ [0])).2.length = 2 ^ 32 + 3 ∧
    ¬ QuotesBack none [List.replicate n 0x27] 1 := by
  have h0 : (0 : UInt8) ∉ replicate n 0x27 := by
    intro h
    exact absurd (eq_of_mem_replicate h) (by decide)
  have hquoted := length_quoted_quotes (n := n) (by omega)
  have hlen : (replicate n (0x27 : UInt8)).length < 2 ^ 32 - 1 := by
    rw [length_replicate]
    omega
  refine ⟨?_, ?_, fun h => ?_⟩
  · rw [quotestrdup_eq h0 hlen, hquoted, hn]
    rfl
  · rw [quotestrdup_eq h0 hlen, length_append, hquoted, hn]
    rfl
  · have := (quotestrdup_inside_iff h0 []).mp (h.1 (replicate n 0x27) (mem_singleton.mpr rfl))
    omega

/-- For a string of 2^31 quotes three bytes are allocated, and 2^32 + 3 stored. -/
theorem quotesBack_many_quotes :
    (quotestrdup none (List.replicate (2 ^ 31) 0x27 ++ [0])).1 = some 3 ∧
    (quotestrdup none (List.replicate (2 ^ 31) 0x27 ++ [0])).2.length = 2 ^ 32 + 3 ∧
    ¬ QuotesBack none [List.replicate (2 ^ 31) 0x27] 1 :=
  quotesBack_quotes rfl

end Plan9.Libc
