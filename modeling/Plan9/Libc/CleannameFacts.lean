/-
What `cleanname` does to the memory.

While it is at work the memory is in three parts (`Parts`): what has been put down, up to
`d`, what is still to be read, from `s` on, and between them what does not matter. What has
been put down is elements with a `/` after each (`slashed`), and an element that is read
makes of them what it makes of the canonical path so far (`push`).
-/
import Mathlib.Data.List.Induction
import Plan9.Libc.Cleanname

namespace Plan9.Libc.Cleanname

open Bytes List

/-! ## Memory in parts -/

theorem get_at (pre rest : List UInt8) (c : UInt8) : get (pre ++ c :: rest) pre.length = .ok c := by
  rw [get, getElem?_append_right le_rfl, Nat.sub_self]
  rfl

theorem put_at (pre rest : List UInt8) (x c : UInt8) :
    put (pre ++ x :: rest) pre.length c = .ok (pre ++ c :: rest) := by
  rw [put, if_pos (by simp only [length_append, length_cons]; omega), set_append_right _ _ le_rfl,
    Nat.sub_self]
  rfl

/-- What has been put down ends at `d`; what is still to be read starts at `s`. -/
def Parts (m : List UInt8) (d s : Nat) (out src : List UInt8) : Prop :=
  ∃ gap, m = out ++ gap ++ src ∧ d = out.length ∧ s = d + gap.length

section

variable {m : List UInt8} {d s : Nat} {out src : List UInt8} {c : UInt8}

theorem Parts.get {xs : List UInt8} (h : Parts m d s out (xs ++ c :: src)) : get m (s + xs.length) = .ok c := by
  obtain ⟨gap, rfl, rfl, rfl⟩ := h
  have := get_at (out ++ gap ++ xs) src c
  rw [length_append, length_append, append_assoc _ xs] at this
  exact this

theorem Parts.get_zero (h : Parts m d s out (c :: src)) : Cleanname.get m s = .ok c := @Parts.get m d s out src c [] h

theorem Parts.get_one {a : UInt8} (h : Parts m d s out (a :: c :: src)) : Cleanname.get m (s + 1) = .ok c :=
  @Parts.get m d s out src c [a] h

theorem Parts.get_two {a b : UInt8} (h : Parts m d s out (a :: b :: c :: src)) : Cleanname.get m (s + 2) = .ok c :=
  @Parts.get m d s out src c [a, b] h

theorem Parts.skip {xs : List UInt8} (h : Parts m d s out (xs ++ src)) : Parts m d (s + xs.length) out src := by
  obtain ⟨gap, rfl, rfl, rfl⟩ := h
  exact ⟨gap ++ xs, by simp only [append_assoc], rfl, by rw [length_append, Nat.add_assoc]⟩

theorem Parts.back {xs : List UInt8} (h : Parts m d s (out ++ xs) src) : Parts m out.length s out src := by
  obtain ⟨gap, rfl, rfl, rfl⟩ := h
  refine ⟨xs ++ gap, by simp only [append_assoc], rfl, ?_⟩
  simp only [length_append]
  omega

theorem Parts.copy (h : Parts m d s out (c :: src)) :
    ∃ m', put m d c = .ok m' ∧ Parts m' (d + 1) (s + 1) (out ++ [c]) src ∧ Cleanname.get m' s = .ok c ∧
      m'.length = m.length := by
  obtain ⟨gap, rfl, rfl, rfl⟩ := h
  cases gap with
  | nil =>
    refine ⟨out ++ c :: src, ?_, ⟨[], ?_, ?_, rfl⟩, ?_, ?_⟩
    · rw [append_nil]
      exact put_at out src c c
    · rw [append_nil, append_assoc]
      rfl
    · rw [length_append]
      rfl
    · exact get_at out src c
    · rw [append_nil]
  | cons x gap =>
    refine ⟨out ++ c :: (gap ++ c :: src), ?_, ⟨gap ++ [c], ?_, ?_, ?_⟩, ?_, ?_⟩
    · rw [append_assoc]
      exact put_at out (gap ++ c :: src) x c
    · simp only [append_assoc, cons_append, nil_append]
    · rw [length_append]
      rfl
    · simp only [length_append, length_cons, length_nil]
      omega
    · have := get_at (out ++ c :: gap) src c
      rw [length_append, append_assoc] at this
      exact this
    · simp only [length_append, length_cons]
      omega

theorem Parts.put_end (h : Parts m d s out (0 :: src)) :
    ∃ junk, put m d 0 = .ok (out ++ 0 :: junk) ∧ (out ++ 0 :: junk).length = m.length ∧ 0 :: src <:+ 0 :: junk := by
  obtain ⟨gap, rfl, rfl, -⟩ := h
  cases gap with
  | nil =>
    refine ⟨src, ?_, ?_, suffix_refl _⟩
    · rw [append_nil]
      exact put_at out src 0 0
    · simp only [length_append, length_cons, length_nil, Nat.add_zero]
  | cons y gap =>
    refine ⟨gap ++ 0 :: src, ?_, ?_, suffix_append (0 :: gap) _⟩
    · rw [append_assoc]
      exact put_at out (gap ++ 0 :: src) y 0
    · simp only [length_append, length_cons]
      omega

end

theorem drop_parts {m : List UInt8} {d s : Nat} {out src : List UInt8} (h : Parts m d s out src) : m.drop s = src := by
  obtain ⟨_, rfl, rfl, rfl⟩ := h
  rw [← length_append, drop_left]

/-! ## remove dup slashes -/

def squeezed : List UInt8 → List UInt8
  | [] => []
  | c :: t => c :: squeezed (if c = 0x2F then t.dropWhile (· = 0x2F) else t)
termination_by t => t.length
decreasing_by
  have := (List.dropWhile_suffix (l := t) (· = 0x2F)).length_le
  rw [List.length_cons]
  split <;> omega

theorem takeWhile_slash (post : List UInt8) (t : List UInt8) :
    (t ++ 0 :: post).takeWhile (· = 0x2F) = t.takeWhile (· = 0x2F) := by
  induction t with
  | nil => rfl
  | cons c t ih =>
    rw [cons_append, takeWhile_cons, takeWhile_cons, ih]

theorem Parts.skipSlash {m : List UInt8} {d s : Nat} {out t post : List UInt8} (h : Parts m d s out (t ++ 0 :: post)) :
    Parts m d (skipSlash m s) out (t.dropWhile (· = 0x2F) ++ 0 :: post) := by
  rw [Cleanname.skipSlash, drop_parts h, takeWhile_slash]
  refine Parts.skip ?_
  rw [← append_assoc, takeWhile_append_dropWhile]
  exact h

theorem squeeze_spec {post : List UInt8} : ∀ {n : Nat} {m : List UInt8} {d s : Nat} {out t : List UInt8},
    Parts m d s out (t ++ 0 :: post) → 0 ∉ t → t.length < n →
      ∃ junk, squeeze n m d s = .ok (out ++ squeezed t ++ 0 :: junk) ∧
        (out ++ squeezed t ++ 0 :: junk).length = m.length ∧ 0 :: post <:+ 0 :: junk
  | 0, _, _, _, _, _, _, _, hn => absurd hn (Nat.not_lt_zero _)
  | n + 1, m, d, s, out, [], h, _, _ => by
    have hc := h.get_zero
    obtain ⟨junk, hput, hlen, hsuffix⟩ := h.put_end
    refine ⟨junk, ?_, ?_, hsuffix⟩
    · rw [squeeze, hc, squeezed, append_nil]
      exact hput
    · rw [squeezed, append_nil, hlen]
  | n + 1, m, d, s, out, c :: t, h, hnul, hn => by
    have hc0 : c ≠ 0 := fun h0 => hnul (h0 ▸ mem_cons_self)
    have hnul : 0 ∉ t := fun h0 => hnul (mem_cons_of_mem c h0)
    obtain ⟨m', hput, hparts, hget, hlen⟩ := h.copy
    have hle := (dropWhile_suffix (l := t) (· = 0x2F)).length_le
    rw [length_cons] at hn
    have hnext : ∃ s' t', (if c = 0x2F then skipSlash m' (s + 1) else s + 1) = s' ∧
        (if c = 0x2F then t.dropWhile (· = 0x2F) else t) = t' ∧ Parts m' (d + 1) s' (out ++ [c]) (t' ++ 0 :: post) ∧
        0 ∉ t' ∧ t'.length < n := by
      by_cases hslash : c = 0x2F
      · refine ⟨_, _, if_pos hslash, if_pos hslash, hparts.skipSlash, ?_, by omega⟩
        exact fun h0 => hnul ((dropWhile_suffix _).mem h0)
      · exact ⟨_, _, if_neg hslash, if_neg hslash, hparts, hnul, by omega⟩
    obtain ⟨s', t', hs', ht', hparts', hnul', hn'⟩ := hnext
    obtain ⟨junk, hrun, hjunk, hsuffix⟩ := squeeze_spec hparts' hnul' hn'
    have hout : out ++ squeezed (c :: t) = out ++ [c] ++ squeezed t' := by
      rw [squeezed, ht', append_assoc]
      rfl
    refine ⟨junk, ?_, ?_, hsuffix⟩
    · rw [squeeze, h.get_zero]
      change (if c = 0 then _ else put m d c >>= _) = _
      rw [if_neg hc0, hput]
      change (Cleanname.get m' s >>= _) = _
      rw [hget]
      change squeeze n m' (d + 1) (if c = 0x2F then skipSlash m' (s + 1) else s + 1) = _
      rw [hs', hrun, hout]
    · rw [hout, hjunk, hlen]

/-! ## An element -/

/-- What may stand between slashes. -/
structure Element (e : List UInt8) : Prop where
  ne : e ≠ []
  noSlash : 0x2F ∉ e
  noNul : 0 ∉ e

theorem SEP_iff {c : UInt8} : SEP c = true ↔ c = 0x2F ∨ c = 0 := by
  rw [SEP, Bool.or_eq_true, decide_eq_true_eq, decide_eq_true_eq]

theorem Element.noSEP {e : List UInt8} (h : Element e) : ∀ c ∈ e, SEP c = false := by
  intro c hc
  rw [← Bool.not_eq_true, SEP_iff]
  rintro (rfl | rfl)
  · exact h.noSlash hc
  · exact h.noNul hc

section

variable {m : List UInt8} {d s : Nat} {out e src : List UInt8} {z : UInt8}

theorem isDot_spec (h : Parts m d s out (e ++ z :: src)) (he : Element e) (hz : SEP z = true) :
    isDot m s = .ok (decide (e = [0x2E])) := by
  rw [isDot]
  cases e with
  | nil => exact absurd rfl he.ne
  | cons c e =>
    rw [h.get_zero]
    change (if c ≠ 0x2E then _ else _) = _
    by_cases hc : c = 0x2E
    · rw [if_neg (not_not.2 hc)]
      subst hc
      cases e with
      | nil =>
        rw [h.get_one]
        exact congrArg _ hz
      | cons c' e =>
        rw [h.get_one]
        refine congrArg _ ((he.noSEP c' (by simp)).trans ?_)
        rfl
    rw [if_pos hc]
    refine congrArg _ (decide_eq_false ?_).symm
    intro heq
    exact hc (cons.inj heq).1

theorem isDotdot_spec (h : Parts m d s out (e ++ z :: src)) (he : Element e) (hz : SEP z = true) :
    isDotdot m s = .ok (decide (e = [0x2E, 0x2E])) := by
  have hzdot : z ≠ 0x2E := by
    rintro rfl
    cases hz
  rw [isDotdot]
  match e, he, h with
  | [], he, _ => exact absurd rfl he.ne
  | c :: e, he, h =>
    rw [h.get_zero]
    change (if c ≠ 0x2E then _ else _) = _
    by_cases hc : c = 0x2E
    · subst hc
      match e, he, h with
      | [], _, h =>
        rw [h.get_one]
        change (if z ≠ 0x2E then _ else _) = _
        rw [if_pos hzdot]
        rfl
      | c' :: e, he, h =>
        rw [h.get_one]
        change (if c' ≠ 0x2E then _ else _) = _
        by_cases hc' : c' = 0x2E
        · rw [if_neg (not_not.2 hc')]
          subst hc'
          match e, he, h with
          | [], _, h =>
            rw [h.get_two]
            exact congrArg _ hz
          | c'' :: e, he, h =>
            rw [h.get_two]
            refine congrArg _ ((he.noSEP c'' (by simp)).trans ?_)
            rfl
        rw [if_pos hc']
        refine congrArg _ (decide_eq_false ?_).symm
        intro heq
        exact hc' (cons.inj (cons.inj heq).2).1
    rw [if_pos hc]
    refine congrArg _ (decide_eq_false ?_).symm
    intro heq
    exact hc (cons.inj heq).1

theorem copyElem_spec (hz : SEP z = true) : ∀ {n : Nat} {m : List UInt8} {d s : Nat} {out e : List UInt8},
    Parts m d s out (e ++ z :: src) → (∀ c ∈ e, SEP c = false) → e.length < n →
      ∃ m', copyElem n m d s = .ok (m', d + e.length, s + e.length) ∧
        Parts m' (d + e.length) (s + e.length) (out ++ e) (z :: src) ∧ m'.length = m.length
  | 0, _, _, _, _, _, _, _, hn => absurd hn (Nat.not_lt_zero _)
  | n + 1, m, d, s, out, [], h, _, _ => by
    refine ⟨m, ?_, ?_, rfl⟩
    · rw [copyElem, h.get_zero]
      change (if SEP z = true then _ else _) = _
      rw [if_pos hz]
      rfl
    · rw [append_nil]
      exact h
  | n + 1, m, d, s, out, c :: e, h, he, hn => by
    obtain ⟨_, hput, hparts, -, hlen⟩ := h.copy
    rw [length_cons] at hn
    have hn' : e.length < n := by omega
    obtain ⟨m', hrun, hparts', hlen'⟩ := copyElem_spec hz hparts (fun x hx => he x (mem_cons_of_mem c hx)) hn'
    have hc : ¬ SEP c = true := by
      rw [he c mem_cons_self]
      exact Bool.false_ne_true
    have hd : d + 1 + e.length = d + (c :: e).length := by
      rw [length_cons]
      omega
    have hs : s + 1 + e.length = s + (c :: e).length := by
      omega
    rw [hd, hs] at hrun hparts'
    rw [append_assoc] at hparts'
    refine ⟨m', ?_, hparts', hlen'.trans hlen⟩
    rw [copyElem, h.get_zero]
    change (if SEP c = true then _ else (put m d c >>= _)) = _
    rw [if_neg hc, hput]
    exact hrun

theorem copyStep_last (h : Parts m d s out (e ++ 0 :: src)) (he : Element e) (d0 : Nat) :
    ∃ m', copyStep m d s d0 = .ok (m', d + e.length, none) ∧
      Parts m' (d + e.length) (s + e.length) (out ++ e) (0 :: src) ∧ m'.length = m.length := by
  have hlt : e.length < m.length := by
    obtain ⟨_, rfl, -, -⟩ := h
    simp only [length_append, length_cons]
    omega
  obtain ⟨m', hrun, hparts, hlen⟩ := copyElem_spec (by rfl) h he.noSEP hlt
  refine ⟨m', ?_, hparts, hlen⟩
  rw [copyStep, hrun]
  change (Cleanname.get m' (s + e.length) >>= _) = _
  rw [hparts.get_zero]
  rfl

theorem copyStep_slash (h : Parts m d s out (e ++ 0x2F :: src)) (he : Element e) (d0 : Nat) :
    ∃ m', copyStep m d s d0 = .ok (m', d + e.length + 1, some (s + e.length + 1, d0)) ∧
      Parts m' (d + e.length + 1) (s + e.length + 1) (out ++ (e ++ [0x2F])) src ∧ m'.length = m.length := by
  have hlt : e.length < m.length := by
    obtain ⟨_, rfl, -, -⟩ := h
    simp only [length_append, length_cons]
    omega
  obtain ⟨m₁, hrun, hparts, hlen⟩ := copyElem_spec (by rfl) h he.noSEP hlt
  obtain ⟨m', hput, hparts', -, hlen'⟩ := hparts.copy
  rw [append_assoc] at hparts'
  refine ⟨m', ?_, hparts', hlen'.trans hlen⟩
  rw [copyStep, hrun]
  change (Cleanname.get m₁ (s + e.length) >>= _) = _
  rw [hparts.get_zero]
  change (if (0x2F : UInt8) = 0 then .ok (m₁, d + e.length, none) else
    (put m₁ (d + e.length) 0x2F >>= fun m => .ok (m, d + e.length + 1, some (s + e.length + 1, d0)))) = _
  rw [if_neg (by decide), hput]
  rfl

theorem backUp_spec {rest : List UInt8} {d0 : Nat} (he : Element e) (hd0 : d0 ≤ out.length)
    (hstop : out.length = d0 ∨ out.getLast? = some 0x2F) :
    ∀ k < e.length, backUp (out ++ (e ++ rest)) d0 (out.length + k) = out.length := by
  intro k
  induction k with
  | zero =>
    intro _
    rcases hlen : out.length with _ | n
    · rfl
    rw [backUp, if_neg]
    rintro ⟨_, hne⟩
    rcases hstop with hstop | hlast
    · omega
    have hbyte : byteAt (out ++ (e ++ rest)) n = 0x2F := by
      rw [getLast?_eq_getElem?, hlen, Nat.add_sub_cancel] at hlast
      rw [byteAt, getD_eq_getElem?_getD, getElem?_append_left (by omega), hlast]
      rfl
    exact hne hbyte
  | succ k ih =>
    intro hk
    have hbyte : byteAt (out ++ (e ++ rest)) (out.length + k) ≠ 0x2F := by
      rw [byteAt_append, byteAt, getD_eq_getElem?_getD, getElem?_append_left (by omega),
        getElem?_eq_getElem (by omega), Option.getD_some]
      intro hslash
      exact he.noSlash (hslash ▸ getElem_mem _)
    rw [← Nat.add_assoc, backUp, if_pos ⟨by omega, hbyte⟩]
    exact ih (by omega)

end

/-! ## An element on those before it -/

abbrev dots : List UInt8 := [0x2E, 0x2E]

theorem push_dot (rooted : Bool) (es : List (List UInt8)) : push rooted es [0x2E] = es := if_pos (.inr rfl)

theorem push_nil (rooted : Bool) (es : List (List UInt8)) : push rooted es [] = es := if_pos (.inl rfl)

theorem push_other {rooted : Bool} {es : List (List UInt8)} {e : List UInt8} (he : e ≠ []) (hdot : e ≠ [0x2E])
    (hdots : e ≠ dots) : push rooted es e = es ++ [e] := by
  rw [push, if_neg (fun h => h.elim he hdot), if_neg hdots]

theorem push_up (rooted : Bool) (k : Nat) (hroot : rooted = true → k = 0) :
    push rooted (List.replicate k dots) dots = if rooted then [] else List.replicate (k + 1) dots := by
  rw [push, if_neg (by decide), if_pos (by rfl)]
  cases k with
  | zero => rfl
  | succ k =>
    have hlast : (replicate (k + 1) dots).getLast? = some dots := by
      rw [replicate_succ', getLast?_concat]
    have hr : ¬ rooted = true := fun h => absurd (hroot h) (Nat.succ_ne_zero k)
    rw [hlast]
    dsimp only
    rw [if_pos rfl, if_neg hr, replicate_succ' (n := k + 1)]

theorem push_pop (rooted : Bool) (es : List (List UInt8)) {l : List UInt8} (hl : l ≠ dots) :
    push rooted (es ++ [l]) dots = es := by
  rw [push, if_neg (by decide), if_pos (by rfl), getLast?_concat]
  dsimp only
  rw [if_neg hl, dropLast_concat]

def slashed (es : List (List UInt8)) : List UInt8 := es.flatMap (· ++ [0x2F])

theorem slashed_snoc (es : List (List UInt8)) (e : List UInt8) : slashed (es ++ [e]) = slashed es ++ (e ++ [0x2F]) := by
  rw [slashed, flatMap_append, flatMap_singleton]
  rfl

/-- The loop is at the start of an element, with the elements `es` put down after the root name. -/
structure At (rooted : Bool) (pre m : List UInt8) (d s d0 : Nat) (es : List (List UInt8)) (src : List UInt8) : Prop where
  parts : Parts m d s (pre ++ slashed es) src
  split : ∃ k kept, es = List.replicate k dots ++ kept ∧ (∀ e ∈ kept, e ≠ dots) ∧ (rooted = true → k = 0) ∧
    d0 = pre.length + 3 * k
  elements : ∀ e ∈ es, Element e

/-- The loop has ended with the elements `es`; the last one may have no slash after it. The source is still there
from `src` on. -/
def Ended (pre m : List UInt8) (d : Nat) (es : List (List UInt8)) (src : List UInt8) : Prop :=
  (∀ e ∈ es, Element e) ∧ ∃ out x junk, m = out ++ x :: junk ∧ d = out.length ∧ src <:+ x :: junk ∧
    (out = pre ++ slashed es ∨ ∃ es' e, es = es' ++ [e] ∧ out = pre ++ slashed es' ++ e)

section

variable {rooted : Bool} {pre m : List UInt8} {d s d0 : Nat} {es : List (List UInt8)} {e src : List UInt8} {z : UInt8}

theorem Parts.ends {out : List UInt8} (h : Parts m d s out (z :: src)) :
    ∃ x junk, m = out ++ x :: junk ∧ d = out.length ∧ z :: src <:+ x :: junk := by
  obtain ⟨gap, rfl, rfl, -⟩ := h
  cases gap with
  | nil => exact ⟨z, src, by rw [append_nil], rfl, suffix_refl _⟩
  | cons x gap => exact ⟨x, gap ++ z :: src, by rw [append_assoc]; rfl, rfl, suffix_append (x :: gap) _⟩

theorem At.next {d' n : Nat} {es' : List (List UInt8)} (hlen : e.length + 1 = n)
    (hparts : Parts m d' s (pre ++ slashed es') (e ++ z :: src)) (helements : ∀ e ∈ es', Element e)
    (hsplit : ∃ k kept, es' = List.replicate k dots ++ kept ∧ (∀ e ∈ kept, e ≠ dots) ∧ (rooted = true → k = 0) ∧
      d0 = pre.length + 3 * k) :
    Ended pre m d' es' (z :: src) ∧ At rooted pre m d' (s + n) d0 es' src := by
  have hskip := hparts.skip
  obtain ⟨x, junk, hm, hd, hsuffix⟩ := hskip.ends
  have hafter : Parts m d' (s + e.length + 1) (pre ++ slashed es') src := @Parts.skip m d' _ _ src [z] hskip
  rw [Nat.add_assoc, hlen] at hafter
  exact ⟨⟨helements, _, x, junk, hm, hd, hsuffix, .inl rfl⟩, hafter, hsplit, helements⟩

/-- What an element comes to. -/
def Stepped (rooted : Bool) (pre m : List UInt8) (z : UInt8) (es : List (List UInt8)) (src : List UInt8)
    (r : Except String (List UInt8 × Nat × Option (Nat × Nat))) : Prop :=
  ∃ m' d', m'.length = m.length ∧
    (z = 0 → r = .ok (m', d', none) ∧ Ended pre m' d' es (z :: src)) ∧
    (z ≠ 0 → ∃ s' d0', r = .ok (m', d', some (s', d0')) ∧ At rooted pre m' d' s' d0' es src)

theorem step_dot (h : At rooted pre m d s d0 es ([0x2E] ++ z :: src)) (hz : SEP z = true) :
    Stepped rooted pre m z (push rooted es [0x2E]) src (elemStep m d s d0 rooted) := by
  have hdot := isDot_spec h.parts ⟨by decide, by decide, by decide⟩ hz
  have hstep : elemStep m d s d0 rooted = .ok (m, d, if z = 0 then none else some (s + 2, d0)) := by
    rw [elemStep, hdot]
    change (Cleanname.get m (s + 1) >>= _) = _
    rw [h.parts.get_one]
    change (if z = 0 then Except.ok (m, d, none) else .ok (m, d, some (s + 2, d0))) = _
    split <;> rfl
  obtain ⟨hend, hat⟩ := At.next rfl h.parts h.elements h.split
  rw [hstep, push_dot]
  refine ⟨m, d, rfl, ?_, ?_⟩
  · intro h0
    exact ⟨by rw [if_pos h0], hend⟩
  · intro h0
    exact ⟨s + 2, d0, by rw [if_neg h0], hat⟩

theorem length_slashed_dots (k : Nat) : (slashed (List.replicate k dots)).length = 3 * k := by
  induction k with
  | zero => rfl
  | succ k ih =>
    rw [replicate_succ', slashed_snoc, length_append, ih]
    rfl

theorem step_copy {d0' : Nat} (h : At rooted pre m d s d0 es (e ++ z :: src)) (he : Element e) (hz : SEP z = true)
    (hsplit : ∃ k kept, es ++ [e] = List.replicate k dots ++ kept ∧ (∀ e ∈ kept, e ≠ dots) ∧ (rooted = true → k = 0) ∧
      d0' = pre.length + 3 * k) :
    Stepped rooted pre m z (es ++ [e]) src (copyStep m d s d0') := by
  have helements : ∀ x ∈ es ++ [e], Element x := by
    intro x hx
    rcases mem_append.1 hx with hx | hx
    · exact h.elements x hx
    · rw [mem_singleton.1 hx]
      exact he
  rcases SEP_iff.1 hz with rfl | rfl
  · obtain ⟨m', hrun, hparts, hlen⟩ := copyStep_slash h.parts he d0'
    rw [append_assoc, ← slashed_snoc] at hparts
    exact ⟨m', _, hlen, fun h0 => absurd h0 (by decide), fun _ => ⟨_, _, hrun, hparts, hsplit, helements⟩⟩
  obtain ⟨m', hrun, hparts, hlen⟩ := copyStep_last h.parts he d0'
  obtain ⟨x, junk, hm, hd, hsuffix⟩ := hparts.ends
  exact ⟨m', _, hlen, fun _ => ⟨hrun, helements, _, x, junk, hm, hd, hsuffix, .inr ⟨es, e, rfl, rfl⟩⟩,
    fun h0 => absurd rfl h0⟩

theorem step_other (h : At rooted pre m d s d0 es (e ++ z :: src)) (he : Element e) (hz : SEP z = true)
    (hdot : e ≠ [0x2E]) (hdots : e ≠ dots) :
    Stepped rooted pre m z (push rooted es e) src (elemStep m d s d0 rooted) := by
  have hisDot := isDot_spec h.parts he hz
  have hisDotdot := isDotdot_spec h.parts he hz
  rw [decide_eq_false hdot] at hisDot
  rw [decide_eq_false hdots] at hisDotdot
  have hstep : elemStep m d s d0 rooted = copyStep m d s d0 := by
    rw [elemStep, hisDot]
    change (isDotdot m s >>= _) = _
    rw [hisDotdot]
    rfl
  rw [hstep, push_other he.ne hdot hdots]
  refine step_copy h he hz ?_
  obtain ⟨k, kept, hes, hkept, hroot, hd0⟩ := h.split
  refine ⟨k, kept ++ [e], by rw [hes, append_assoc], ?_, hroot, hd0⟩
  intro x hx
  rcases mem_append.1 hx with hx | hx
  · exact hkept x hx
  · rw [mem_singleton.1 hx]
    exact hdots

theorem element_dots : Element dots := ⟨by decide, by decide, by decide⟩

theorem elemStep_root (h : Parts m d s out (dots ++ z :: src)) (hz : SEP z = true) :
    elemStep m d s d true = .ok (m, d, if z = 0 then none else some (s + 3, d)) := by
  have hz2 : Cleanname.get m (s + 2) = .ok z := h.get_two
  rw [elemStep, isDot_spec h element_dots hz]
  change (isDotdot m s >>= _) = _
  rw [isDotdot_spec h element_dots hz]
  dsimp only [bind, Except.bind, pure, Except.pure]
  rw [if_pos (decide_eq_true rfl), if_pos ⟨rfl, rfl⟩, hz2]
  dsimp only
  split <;> rfl

theorem elemStep_up (h : Parts m d s out (dots ++ z :: src)) (hz : SEP z = true) :
    elemStep m d s d false = copyStep m d s (d + 3) := by
  rw [elemStep, isDot_spec h element_dots hz]
  change (isDotdot m s >>= _) = _
  rw [isDotdot_spec h element_dots hz]
  dsimp only [bind, Except.bind, pure, Except.pure]
  rw [if_pos (decide_eq_true rfl), if_neg (fun h => absurd h.2 Bool.false_ne_true), if_pos rfl, if_neg (by omega)]

theorem elemStep_pop (h : Parts m d s out (dots ++ z :: src)) (hz : SEP z = true) (hd : d0 + 2 ≤ d)
    (hslash : Cleanname.get m (d - 1) = .ok 0x2F) :
    elemStep m d s d0 rooted = .ok (m, backUp m d0 (d - 2), if z = 0 then none else some (s + 3, d0)) := by
  have hz2 : Cleanname.get m (s + 2) = .ok z := h.get_two
  rw [elemStep, isDot_spec h element_dots hz]
  change (isDotdot m s >>= _) = _
  rw [isDotdot_spec h element_dots hz]
  dsimp only [bind, Except.bind, pure, Except.pure]
  rw [if_pos (decide_eq_true rfl), if_neg (by omega), if_neg (show ¬ d = d0 by omega), if_pos (by omega), if_neg (by omega),
    hslash, hz2]
  dsimp only
  rw [if_neg (fun h => h rfl)]
  split <;> rfl

theorem step_dots (h : At rooted pre m d s d0 es (dots ++ z :: src)) (hz : SEP z = true) :
    Stepped rooted pre m z (push rooted es dots) src (elemStep m d s d0 rooted) := by
  obtain ⟨k, kept, hes, hkept, hroot, hd0⟩ := h.split
  have hd : d = (pre ++ slashed es).length := by
    obtain ⟨gap, -, hd, -⟩ := h.parts
    exact hd
  rcases eq_nil_or_concat kept with rfl | ⟨kept, l, rfl⟩
  · rw [append_nil] at hes
    rw [hes, length_append, length_slashed_dots, ← hd0] at hd
    subst hd
    cases rooted with
    | true =>
      rw [hroot rfl] at hes
      obtain ⟨hend, hat⟩ := At.next rfl h.parts h.elements h.split
      rw [elemStep_root h.parts hz, hes, push_up true 0 (fun _ => rfl), if_pos rfl]
      rw [hes] at hend hat
      refine ⟨m, d, rfl, ?_, ?_⟩
      · intro h0
        exact ⟨by rw [if_pos h0], hend⟩
      · intro h0
        exact ⟨s + 3, d, by rw [if_neg h0], hat⟩
    | false =>
      have hup := push_up false k nofun
      rw [if_neg Bool.false_ne_true, replicate_succ', ← hes] at hup
      rw [elemStep_up h.parts hz, hup]
      refine step_copy h element_dots hz ⟨k + 1, [], ?_, nofun, nofun, by omega⟩
      rw [hes, append_nil, replicate_succ']
  have hl : l ≠ dots := hkept l (by simp)
  have hesl : es = replicate k dots ++ kept ++ [l] := by rw [hes, concat_eq_append, append_assoc]
  obtain ⟨gap, hm, -, -⟩ := h.parts
  have helem : Element l := h.elements l (by rw [hesl]; simp)
  have hpos := length_pos_iff.2 helem.ne
  obtain ⟨out, hout⟩ : ∃ out, out = pre ++ slashed (replicate k dots ++ kept) := ⟨_, rfl⟩
  have hslashed : pre ++ slashed es = out ++ (l ++ [0x2F]) := by
    rw [hesl, slashed_snoc, hout, append_assoc]
  have hd0out : d0 ≤ out.length := by
    rw [hd0, hout, length_append, slashed, flatMap_append, length_append]
    have := length_slashed_dots k
    rw [slashed] at this
    omega
  have hdout : d = out.length + (l.length + 1) := by
    rw [hd, hslashed, length_append, length_append]
    rfl
  have hstop : out.length = d0 ∨ out.getLast? = some 0x2F := by
    rcases eq_nil_or_concat kept with rfl | ⟨kept, l', rfl⟩
    · left
      rw [hout, hd0, append_nil, length_append, length_slashed_dots]
    · right
      rw [hout, concat_eq_append, ← append_assoc, slashed_snoc, ← append_assoc, ← append_assoc,
        getLast?_concat]
  have hget : Cleanname.get m (d - 1) = .ok 0x2F := by
    have := get_at (out ++ l) (gap ++ (dots ++ z :: src)) 0x2F
    rw [length_append] at this
    have hmem : m = out ++ l ++ 0x2F :: (gap ++ (dots ++ z :: src)) := by
      rw [hm, hslashed]
      simp only [append_assoc, cons_append, nil_append]
    rw [hmem, hdout, ← Nat.add_assoc, Nat.add_sub_cancel, this]
  have hback : backUp m d0 (d - 2) = out.length := by
    have hmem : m = out ++ (l ++ 0x2F :: (gap ++ (dots ++ z :: src))) := by
      rw [hm, hslashed]
      simp only [append_assoc, cons_append, nil_append]
    rw [hmem, hdout, show out.length + (l.length + 1) - 2 = out.length + (l.length - 1) by omega]
    exact backUp_spec helem hd0out hstop (l.length - 1) (by omega)
  have hparts : Parts m out.length s (pre ++ slashed (replicate k dots ++ kept)) (dots ++ z :: src) := by
    have hp := h.parts
    rw [hslashed] at hp
    rw [← hout]
    exact hp.back
  have hsplit : ∃ k' kept', replicate k dots ++ kept = replicate k' dots ++ kept' ∧ (∀ e ∈ kept', e ≠ dots) ∧
      (rooted = true → k' = 0) ∧ d0 = pre.length + 3 * k' :=
    ⟨k, kept, rfl, fun e he => hkept e (by simp [he]), hroot, hd0⟩
  have helements : ∀ e ∈ replicate k dots ++ kept, Element e :=
    fun e he => h.elements e (hesl ▸ mem_append_left _ he)
  obtain ⟨hend, hat⟩ := At.next rfl hparts helements hsplit
  rw [elemStep_pop h.parts hz (by omega) hget, hback, hesl, push_pop rooted _ hl]
  refine ⟨m, out.length, rfl, ?_, ?_⟩
  · intro h0
    exact ⟨by rw [if_pos h0], hend⟩
  · intro h0
    exact ⟨s + 3, d0, by rw [if_neg h0], hat⟩

theorem elemStep_spec (h : At rooted pre m d s d0 es (e ++ z :: src)) (he : Element e) (hz : SEP z = true) :
    Stepped rooted pre m z (push rooted es e) src (elemStep m d s d0 rooted) := by
  by_cases hdot : e = [0x2E]
  · subst hdot
    exact step_dot h hz
  by_cases hdots : e = dots
  · subst hdots
    exact step_dots h hz
  · exact step_other h he hz hdot hdots

/-! ## The loop -/

/-- Elements joined by slashes. -/
abbrev joined (es : List (List UInt8)) : List UInt8 := [0x2F].intercalate es

/-- Only the last of them may be empty. -/
def Tight : List (List UInt8) → Prop
  | [] => True
  | [e] => e = [] ∨ Element e
  | e :: e' :: es => Element e ∧ Tight (e' :: es)

theorem elemLoop_end (h : At rooted pre m d s d0 es (0 :: src)) {n : Nat} (hn : 0 < n) :
    elemLoop rooted n m d s d0 = .ok (m, d) ∧ Ended pre m d es (0 :: src) := by
  obtain ⟨x, junk, hm, hd, hsuffix⟩ := h.parts.ends
  refine ⟨?_, h.elements, _, x, junk, hm, hd, hsuffix, .inl rfl⟩
  obtain ⟨n, rfl⟩ : ∃ n', n = n' + 1 := ⟨n - 1, by omega⟩
  rw [elemLoop, h.parts.get_zero]
  rfl

theorem elemLoop_step (h : At rooted pre m d s d0 es (e ++ z :: src)) (he : Element e) (n : Nat) :
    elemLoop rooted (n + 1) m d s d0 =
      (elemStep m d s d0 rooted >>= fun r =>
        match r with
        | (m, d, none) => .ok (m, d)
        | (m, d, some (s, d0)) => elemLoop rooted n m d s d0) := by
  cases e with
  | nil => exact absurd rfl he.ne
  | cons c e =>
    have hc : c ≠ 0 := fun h0 => he.noNul (h0 ▸ mem_cons_self)
    rw [elemLoop, h.parts.get_zero]
    change (if c = 0 then _ else _) = _
    rw [if_neg hc]
    rfl

theorem elemLoop_spec : ∀ (cs : List (List UInt8)) {n : Nat} {m : List UInt8} {d s d0 : Nat} {es : List (List UInt8)},
    At rooted pre m d s d0 es (joined cs ++ 0 :: src) → Tight cs → cs.length ≤ n → 0 < n →
      ∃ m' d', elemLoop rooted n m d s d0 = .ok (m', d') ∧ m'.length = m.length ∧
        Ended pre m' d' (cs.foldl (push rooted) es) (0 :: src)
  | [], n, m, d, s, d0, es, h, _, _, hn => ⟨m, d, (elemLoop_end h hn).1, rfl, (elemLoop_end h hn).2⟩
  | [e], n, m, d, s, d0, es, h, ht, _, hn => by
    rcases ht with rfl | he
    · obtain ⟨hrun, hend⟩ := elemLoop_end h hn
      rw [foldl_cons, foldl_nil, push_nil]
      exact ⟨m, d, hrun, rfl, hend⟩
    rw [joined, intercalate_singleton] at h
    obtain ⟨m', d', hlen, hlast, -⟩ := elemStep_spec h he (by rfl)
    obtain ⟨hrun, hend⟩ := hlast rfl
    obtain ⟨n, rfl⟩ : ∃ n', n = n' + 1 := ⟨n - 1, by omega⟩
    refine ⟨m', d', ?_, hlen, hend⟩
    rw [elemLoop_step h he, hrun]
    rfl
  | e :: e' :: cs, n, m, d, s, d0, es, h, ht, hle, hn => by
    obtain ⟨he, ht⟩ := ht
    rw [joined, intercalate_cons_cons, append_assoc, append_assoc, singleton_append] at h
    obtain ⟨_, _, hlen1, -, hmore⟩ := elemStep_spec h he (by rfl)
    obtain ⟨_, _, hrun1, hat⟩ := hmore (by decide)
    obtain ⟨n, rfl⟩ : ∃ n', n = n' + 1 := ⟨n - 1, by omega⟩
    rw [length_cons] at hle
    have hpos : 0 < n := by
      rw [length_cons] at hle
      omega
    obtain ⟨m', d', hrun, hlen, hend⟩ := elemLoop_spec (e' :: cs) hat ht (by omega) hpos
    refine ⟨m', d', ?_, hlen.trans hlen1, hend⟩
    rw [elemLoop_step h he, hrun1]
    exact hrun

end

/-! ## The elements of a name -/

theorem splitOn_slash (t : List UInt8) : (0x2F :: t).splitOn 0x2F = [] :: t.splitOn 0x2F := by
  rw [splitOn_cons_eq_if_modifyHead, if_pos (by rfl)]

theorem splitOn_other {c : UInt8} (hc : c ≠ 0x2F) (t : List UInt8) :
    (c :: t).splitOn 0x2F = (t.splitOn 0x2F).modifyHead (c :: ·) := by
  rw [splitOn_cons_eq_if_modifyHead, if_neg (by rw [beq_iff_eq]; exact hc)]

theorem foldl_dropWhile (rooted : Bool) (es : List (List UInt8)) (t : List UInt8) :
    ((t.dropWhile (· = 0x2F)).splitOn 0x2F).foldl (push rooted) es = (t.splitOn 0x2F).foldl (push rooted) es := by
  induction t with
  | nil => rfl
  | cons c t ih =>
    by_cases hc : c = 0x2F
    · rw [dropWhile_cons, if_pos (decide_eq_true hc), ih, hc, splitOn_slash, foldl_cons, push_nil]
    · rw [dropWhile_cons, if_neg (by rw [decide_eq_true_eq]; exact hc)]

theorem dropWhile_length (t : List UInt8) : (t.dropWhile (· = 0x2F)).length ≤ t.length :=
  (dropWhile_suffix (l := t) (· = 0x2F)).length_le

theorem splitOn_squeezed (rooted : Bool) (t : List UInt8) :
    ∃ x xs ys, (squeezed t).splitOn 0x2F = x :: xs ∧ t.splitOn 0x2F = x :: ys ∧
      ∀ es, xs.foldl (push rooted) es = ys.foldl (push rooted) es := by
  match t with
  | [] => exact ⟨[], [], [], by rw [squeezed]; rfl, rfl, fun _ => rfl⟩
  | c :: t =>
    have hle := dropWhile_length t
    by_cases hc : c = 0x2F
    · obtain ⟨x, xs, ys, hx, hy, hfold⟩ := splitOn_squeezed rooted (t.dropWhile (· = 0x2F))
      refine ⟨[], (squeezed (t.dropWhile (· = 0x2F))).splitOn 0x2F, t.splitOn 0x2F, ?_, ?_, ?_⟩
      · rw [squeezed, if_pos hc, hc, splitOn_slash]
      · rw [hc, splitOn_slash]
      · intro es
        rw [← foldl_dropWhile rooted es t, hx, hy, foldl_cons, foldl_cons, hfold]
    obtain ⟨x, xs, ys, hx, hy, hfold⟩ := splitOn_squeezed rooted t
    refine ⟨c :: x, xs, ys, ?_, ?_, hfold⟩
    · rw [squeezed, if_neg hc, splitOn_other hc, hx]
      rfl
    · rw [splitOn_other hc, hy]
      rfl
termination_by t.length
decreasing_by
  · rw [List.length_cons]
    omega
  · exact Nat.lt_succ_self _

theorem foldl_squeezed (rooted : Bool) (es : List (List UInt8)) (t : List UInt8) :
    ((squeezed t).splitOn 0x2F).foldl (push rooted) es = (t.splitOn 0x2F).foldl (push rooted) es := by
  obtain ⟨x, _, _, hx, hy, hfold⟩ := splitOn_squeezed rooted t
  rw [hx, hy, foldl_cons, foldl_cons, hfold]

theorem head_dropWhile (t : List UInt8) : (t.dropWhile (· = 0x2F)).head? ≠ some 0x2F := by
  intro h
  have := head?_dropWhile_not (· = (0x2F : UInt8)) t
  rw [h] at this
  exact absurd this (by decide)

theorem Element.cons {c : UInt8} {x : List UInt8} (hc : c ≠ 0x2F) (hc0 : c ≠ 0) (hx : x = [] ∨ Element x) :
    Element (c :: x) := by
  refine ⟨cons_ne_nil c x, ?_, ?_⟩
  · rintro (_ | ⟨_, h⟩)
    · exact hc rfl
    · rcases hx with rfl | hx
      · cases h
      · exact hx.noSlash h
  rintro (_ | ⟨_, h⟩)
  · exact hc0 rfl
  · rcases hx with rfl | hx
    · cases h
    · exact hx.noNul h

/-- With one slash only between elements, none but the last is empty. -/
theorem tight_squeezed (t : List UInt8) (hnul : 0 ∉ t) (hhead : t.head? ≠ some 0x2F) :
    Tight ((squeezed t).splitOn 0x2F) := by
  match t with
  | [] =>
    rw [squeezed]
    exact .inl rfl
  | [c] =>
    have hc : c ≠ 0x2F := fun h => hhead (congrArg some h)
    have hc0 : c ≠ 0 := fun h0 => hnul (h0 ▸ mem_cons_self)
    rw [squeezed, if_neg hc, splitOn_other hc, squeezed]
    exact .inr (.cons hc hc0 (.inl rfl))
  | c :: c' :: t =>
    have hle := dropWhile_length t
    have hc : c ≠ 0x2F := fun h => hhead (congrArg some h)
    have hc0 : c ≠ 0 := fun h0 => hnul (h0 ▸ mem_cons_self)
    have hnul : 0 ∉ c' :: t := fun h0 => hnul (mem_cons_of_mem c h0)
    rw [squeezed, if_neg hc, splitOn_other hc]
    by_cases hc' : c' = 0x2F
    · have ih := tight_squeezed (t.dropWhile (· = 0x2F))
        (fun h0 => hnul (mem_cons_of_mem _ ((dropWhile_suffix _).mem h0))) (head_dropWhile t)
      have hne := splitOn_ne_nil 0x2F (squeezed (t.dropWhile (· = 0x2F)))
      rw [squeezed, if_pos hc', hc', splitOn_slash]
      cases hsplit : (squeezed (t.dropWhile (· = 0x2F))).splitOn 0x2F with
      | nil => exact absurd hsplit hne
      | cons x xs =>
        rw [hsplit] at ih
        exact ⟨.cons hc hc0 (.inl rfl), ih⟩
    have ih := tight_squeezed (c' :: t) hnul (fun h => hc' (Option.some.inj h))
    have hne := splitOn_ne_nil 0x2F (squeezed (c' :: t))
    cases hsplit : (squeezed (c' :: t)).splitOn 0x2F with
    | nil => exact absurd hsplit hne
    | cons x xs =>
      rw [hsplit] at ih
      cases xs with
      | nil => exact .inr (.cons hc hc0 ih)
      | cons y ys => exact ⟨.cons hc hc0 (.inr ih.1), ih.2⟩
termination_by t.length
decreasing_by
  · simp only [List.length_cons]
    omega
  · exact Nat.lt_succ_self _

end Plan9.Libc.Cleanname
