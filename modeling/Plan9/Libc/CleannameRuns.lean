/-
`cleanname` makes the canonical path, in the memory of the name (`cleanname_canonical`).

A name that starts with `#` is rooted after its first element, which the source takes to
have a slash after it (`root_hash`). A canonical name may start so, of one that does not.
-/
import Mathlib.Data.List.Flatten
import Plan9.Libc.CleannameFacts
import Plan9.Libc.RuneFacts

namespace Plan9.Libc.Cleanname

open Bytes List Option

/-! ## The end -/

/-- What is left of the elements after the root name. -/
def settle (pre : List UInt8) (es : List (List UInt8)) : List UInt8 :=
  if es = [] then
    if pre = [] then [0x2E] else if 1 < pre.length ∧ pre.getLast? = some 0x2F then pre.dropLast else pre
  else pre ++ joined es

variable {name pre out t junk src : List UInt8} {rooted : Bool} {es : List (List UInt8)}

theorem slashed_eq (h : es ≠ []) : slashed es = joined es ++ [0x2F] := by
  induction es with
  | nil => exact absurd rfl h
  | cons e es ih =>
    cases es with
    | nil => rw [joined, intercalate_singleton, slashed, flatMap_singleton]
    | cons e' es =>
      have ih := ih (cons_ne_nil e' es)
      rw [slashed] at ih ⊢
      rw [flatMap_cons, ih]
      simp only [joined, intercalate_cons_cons, append_assoc]

theorem joined_snoc (es : List (List UInt8)) (e : List UInt8) : joined (es ++ [e]) = slashed es ++ e := by
  induction es with
  | nil => rw [nil_append, joined, intercalate_singleton]; rfl
  | cons e' es ih =>
    have hne : es ++ [e] ≠ [] := append_ne_nil_of_right_ne_nil _ (cons_ne_nil e [])
    rw [cons_append, joined, intercalate_cons_of_ne_nil hne, slashed, flatMap_cons, ← slashed]
    rw [joined] at ih
    rw [ih]
    simp only [append_assoc]

theorem suffix_put {x : UInt8} (h : 0 :: src <:+ x :: junk) : 0 :: src <:+ 0 :: junk := by
  rcases suffix_cons_iff.1 h with heq | hsuffix
  · exact (cons.inj heq).2 ▸ suffix_refl _
  · exact hsuffix.trans (suffix_cons 0 junk)

theorem putDot_spec {m : List UInt8} (h : src.length + 1 < m.length) (hsuffix : 0 :: src <:+ m) :
    ∃ junk, putDot m = .ok ([0x2E] ++ 0 :: junk) ∧ ([0x2E] ++ 0 :: junk : List UInt8).length = m.length ∧
      0 :: src <:+ 0 :: junk := by
  match m, h with
  | [_], h => exact absurd h (by rw [length_singleton]; omega)
  | a :: b :: m, h =>
    have hsuffix : 0 :: src <:+ b :: m := by
      rcases suffix_cons_iff.1 hsuffix with heq | hsuffix
      · rw [← heq] at h
        exact absurd h (Nat.lt_irrefl _)
      · exact hsuffix
    refine ⟨m, ?_, rfl, suffix_put hsuffix⟩
    have hput : put (a :: b :: m) 0 0x2E = .ok (0x2E :: b :: m) := put_at [] (b :: m) a 0x2E
    exact put_at [0x2E] m b 0

theorem head_joined (hes : es ≠ []) (h : ∀ e ∈ es, Element e) :
    ∃ c t, joined es = c :: t ∧ c ≠ 0 ∧ c ≠ 0x2F := by
  cases es with
  | nil => exact absurd rfl hes
  | cons e es =>
    have he := h e mem_cons_self
    cases e with
    | nil => exact absurd rfl he.ne
    | cons c e =>
      refine ⟨c, joined (e :: es), ?_, ?_, ?_⟩
      · rw [joined, intercalate_cons_cons_left]
      · exact fun h0 => he.noNul (h0 ▸ mem_cons_self)
      · exact fun h0 => he.noSlash (h0 ▸ mem_cons_self)

theorem stripSlash_cut (a junk : List UInt8) (ha : a ≠ []) :
    stripSlash (a ++ [0x2F] ++ 0 :: junk) (a ++ [0x2F]).length = .ok (a ++ 0 :: 0 :: junk) := by
  have hpos := length_pos_iff.2 ha
  have hget := get_at a (0 :: junk) 0x2F
  have hput := put_at a (0 :: junk) 0x2F 0
  rw [stripSlash, if_pos (by rw [length_append, length_singleton]; omega), length_append,
    length_singleton, Nat.add_sub_cancel, append_assoc, singleton_append, hget]
  exact hput

theorem stripSlash_keep (junk : List UInt8) (h : ¬ (1 < out.length ∧ out.getLast? = some 0x2F)) :
    stripSlash (out ++ 0 :: junk) out.length = .ok (out ++ 0 :: junk) := by
  rw [stripSlash]
  by_cases hgt : out.length > 1
  · rcases eq_nil_or_concat out with rfl | ⟨a, c, rfl⟩
    · exact absurd hgt (by decide)
    rw [concat_eq_append] at hgt h ⊢
    have hc : c ≠ 0x2F := by
      rintro rfl
      exact h ⟨hgt, getLast?_concat⟩
    have hget := get_at a (0 :: junk) c
    rw [if_pos hgt, length_append, length_singleton, Nat.add_sub_cancel, append_assoc,
      singleton_append, hget]
    change (if c = 0x2F then put (a ++ c :: 0 :: junk) a.length 0 else .ok (a ++ c :: 0 :: junk)) = _
    rw [if_neg hc]
  · rw [if_neg hgt]
    rfl

theorem strip_spec (helem : ∀ e ∈ es, Element e)
    (hpre : pre.head? ≠ some 0) (hsuffix : 0 :: src <:+ 0 :: junk)
    (hout : out = pre ++ slashed es ∨ ∃ es' e, es = es' ++ [e] ∧ out = pre ++ slashed es' ++ e) :
    ∃ fin rest, stripSlash (out ++ 0 :: junk) out.length = .ok (fin ++ 0 :: rest) ∧
      (fin ++ 0 :: rest).length = (out ++ 0 :: junk).length ∧ (if fin = [] then [0x2E] else fin) = settle pre es ∧
      fin.head? ≠ some 0 ∧ 0 :: src <:+ 0 :: rest := by
  have hsuffix' : 0 :: src <:+ 0 :: 0 :: junk := hsuffix.trans (suffix_cons 0 _)
  have hcut : ∀ a : List UInt8, a ≠ [] → out = a ++ [0x2F] →
      stripSlash (out ++ 0 :: junk) out.length = .ok (a ++ 0 :: 0 :: junk) ∧
        (a ++ 0 :: 0 :: junk).length = (out ++ 0 :: junk).length := by
    rintro a ha rfl
    refine ⟨stripSlash_cut a junk ha, ?_⟩
    simp only [length_append, length_cons, length_nil]
    omega
  rcases eq_nil_or_concat es with rfl | ⟨es', e, rfl⟩
  · have hout : out = pre := by
      rcases hout with hout | ⟨es', e, h, -⟩
      · rw [hout]
        exact append_nil pre
      · exact absurd h.symm (by simp)
    subst hout
    by_cases hlast : 1 < out.length ∧ out.getLast? = some 0x2F
    · rcases eq_nil_or_concat out with rfl | ⟨a, c, rfl⟩
      · exact absurd hlast.1 (by decide)
      rw [concat_eq_append] at *
      have hc : c = 0x2F := by
        have := hlast.2
        rw [getLast?_concat] at this
        exact some.inj this
      subst hc
      have ha : a ≠ [] := by
        rintro rfl
        exact absurd hlast.1 (by decide)
      obtain ⟨hrun, hl⟩ := hcut a ha rfl
      refine ⟨a, _, hrun, hl, ?_, ?_, hsuffix'⟩
      · rw [settle, if_neg ha, if_pos rfl, if_neg (by simp), if_pos hlast, dropLast_concat]
      · rw [head?_append_of_ne_nil _ ha] at hpre
        exact hpre
    · refine ⟨out, junk, stripSlash_keep junk hlast, rfl, ?_, hpre, hsuffix⟩
      rw [settle, if_pos rfl, if_neg hlast]
  rw [concat_eq_append] at *
  have hne : es' ++ [e] ≠ [] := append_ne_nil_of_right_ne_nil _ (cons_ne_nil e [])
  obtain ⟨c, t, hjoin, hc0, -⟩ := head_joined hne helem
  have hfin : pre ++ joined (es' ++ [e]) ≠ [] := by
    rw [hjoin]
    simp
  have hhead : (pre ++ joined (es' ++ [e])).head? ≠ some 0 := by
    cases pre with
    | nil =>
      rw [hjoin]
      exact fun h => hc0 (some.inj h)
    | cons p pre => exact hpre
  have hsettle : (if pre ++ joined (es' ++ [e]) = [] then [0x2E] else pre ++ joined (es' ++ [e])) =
      settle pre (es' ++ [e]) := by
    rw [if_neg hfin, settle, if_neg hne]
  rcases hout with hout | ⟨es'', e'', heq, hout⟩
  · rw [slashed_eq hne, ← append_assoc] at hout
    obtain ⟨hrun, hl⟩ := hcut _ hfin hout
    exact ⟨_, _, hrun, hl, hsettle, hhead, hsuffix'⟩
  obtain ⟨rfl, he''⟩ := append_inj' heq rfl
  obtain rfl := singleton_inj.1 he''
  have he := helem e (by simp)
  have houtj : out = pre ++ joined (es' ++ [e]) := by rw [hout, joined_snoc, append_assoc]
  have hlast : ¬ (1 < out.length ∧ out.getLast? = some 0x2F) := by
    rintro ⟨-, hl⟩
    rw [hout, getLast?_append_of_ne_nil _ he.ne] at hl
    exact he.noSlash (mem_of_getLast? hl)
  exact ⟨out, junk, stripSlash_keep junk hlast, rfl, houtj ▸ hsettle, houtj ▸ hhead, hsuffix⟩

theorem dot_spec (hlen : src.length + 1 < (out ++ 0 :: junk).length)
    (hhead : out.head? ≠ some 0) (hsuffix : 0 :: src <:+ 0 :: junk) :
    ∃ junk', (Cleanname.get (out ++ 0 :: junk) 0 >>= fun c =>
        if c = 0 then putDot (out ++ 0 :: junk) else pure (out ++ 0 :: junk)) =
      .ok ((if out = [] then [0x2E] else out) ++ 0 :: junk') ∧
      ((if out = [] then [0x2E] else out) ++ 0 :: junk').length = (out ++ 0 :: junk).length ∧
      0 :: src <:+ 0 :: junk' := by
  cases out with
  | nil =>
    obtain ⟨junk', hrun, hlen', hsuffix'⟩ := putDot_spec hlen hsuffix
    exact ⟨junk', hrun, hlen', hsuffix'⟩
  | cons c out =>
    have hc : c ≠ 0 := fun h0 => hhead (congrArg some h0)
    refine ⟨junk, ?_, rfl, hsuffix⟩
    change (if c = 0 then putDot (c :: out ++ 0 :: junk) else pure (c :: out ++ 0 :: junk)) = _
    rw [if_neg hc]
    rfl

theorem finish_spec {m : List UInt8} {d : Nat} (h : Ended pre m d es (0 :: src))
    (hpre : pre.head? ≠ some 0) (hlen : src.length + 1 < m.length) :
    ∃ junk, finish m d = .ok (settle pre es ++ 0 :: junk) ∧ (settle pre es ++ 0 :: junk).length = m.length ∧
      0 :: src <:+ 0 :: junk := by
  obtain ⟨helem, out, x, junk, rfl, rfl, hsuffix, hout⟩ := h
  obtain ⟨fin, rest, hrun, hl, hsettle, hhead, hsuffix'⟩ := strip_spec helem hpre (suffix_put hsuffix) hout
  have hl : (fin ++ 0 :: rest).length = (out ++ x :: junk).length := by
    rw [hl, length_append, length_append]
    rfl
  obtain ⟨junk', hdot, hl', hsuffix''⟩ := dot_spec (hl ▸ hlen) hhead hsuffix'
  rw [hsettle] at hdot hl'
  refine ⟨junk', ?_, hl'.trans hl, hsuffix''⟩
  rw [finish, put_at out junk x 0]
  change (stripSlash (out ++ 0 :: junk) out.length >>= _) = _
  rw [hrun]
  exact hdot

theorem length_splitOn (t : List UInt8) : (t.splitOn 0x2F).length ≤ t.length + 1 := by
  induction t with
  | nil => exact le_rfl
  | cons c t ih =>
    by_cases hc : c = 0x2F
    · rw [hc, splitOn_slash, length_cons, length_cons]
      omega
    · rw [splitOn_other hc, length_modifyHead, length_cons]
      omega

/-! ## The path -/

/-- **What becomes of a path** after the root name `pre`. -/
theorem cleanPath_spec {post : List UInt8} (hnul : 0 ∉ src)
    (hroot : rooted = true ∨ src.head? ≠ some 0x2F) (hpre : pre.head? ≠ some 0) (hne : pre ++ src ≠ []) :
    ∃ junk, cleanPath (pre ++ src ++ 0 :: post) pre.length rooted = .ok (settle pre (resolve rooted src) ++ 0 :: junk) ∧
      (settle pre (resolve rooted src) ++ 0 :: junk).length = (pre ++ src ++ 0 :: post).length ∧
      0 :: post <:+ 0 :: junk := by
  obtain ⟨m, hm⟩ : ∃ m, m = pre ++ src ++ 0 :: post := ⟨_, rfl⟩
  have hstart : Parts m pre.length pre.length pre (src ++ 0 :: post) := by
    refine ⟨[], ?_, rfl, rfl⟩
    rw [hm, append_nil, append_assoc]
  have hlen : post.length + 1 < m.length := by
    have := length_pos_iff.2 hne
    rw [hm, length_append, length_cons]
    omega
  -- the path without the slashes at its start
  have hskip : ∃ s t, (if rooted then skipSlash m pre.length else pre.length) = s ∧ Parts m pre.length s pre (t ++ 0 :: post) ∧
      0 ∉ t ∧ t.head? ≠ some 0x2F ∧ t.length ≤ src.length ∧
      (t.splitOn 0x2F).foldl (push rooted) [] = (src.splitOn 0x2F).foldl (push rooted) [] := by
    by_cases hr : rooted = true
    · exact ⟨_, _, if_pos hr, hstart.skipSlash, fun h0 => hnul ((dropWhile_suffix _).mem h0), head_dropWhile src,
        dropWhile_length src, foldl_dropWhile rooted [] src⟩
    · exact ⟨_, _, if_neg hr, hstart, hnul, hroot.resolve_left hr, le_rfl, rfl⟩
  obtain ⟨s, t, hs, hparts, hnult, hhead, hle, hfold⟩ := hskip
  have hfuel : t.length < m.length := by
    rw [hm, length_append, length_append, length_cons]
    omega
  obtain ⟨junk, hsqueeze, hlen1, hsuffix⟩ := squeeze_spec hparts hnult hfuel
  obtain ⟨m₁, hm1⟩ : ∃ m₁, m₁ = pre ++ squeezed t ++ 0 :: junk := ⟨_, rfl⟩
  rw [← hm1] at hsqueeze hlen1
  have hat : At rooted pre m₁ pre.length pre.length pre.length [] (joined ((squeezed t).splitOn 0x2F) ++ 0 :: junk) := by
    refine ⟨?_, ⟨0, [], rfl, nofun, fun _ => rfl, rfl⟩, nofun⟩
    rw [joined, intercalate_splitOn]
    refine ⟨[], ?_, ?_, rfl⟩
    · rw [hm1]
      simp only [slashed, flatMap_nil, append_nil, append_assoc]
    · simp only [slashed, flatMap_nil, append_nil]
  have hcount : ((squeezed t).splitOn 0x2F).length ≤ m₁.length := by
    have := length_splitOn (squeezed t)
    rw [hm1, length_append, length_append, length_cons]
    omega
  obtain ⟨m₂, d, hloop, hlen2, hended⟩ := elemLoop_spec _ hat (tight_squeezed t hnult hhead) hcount (by omega)
  rw [foldl_squeezed, hfold] at hended
  have hended : Ended pre m₂ d (resolve rooted src) (0 :: post) := by
    obtain ⟨helem, out, x, rest, hmem, hd, hs, hout⟩ := hended
    exact ⟨helem, out, x, rest, hmem, hd, hsuffix.trans hs, hout⟩
  obtain ⟨junk', hfinish, hlen3, hsuffix'⟩ := finish_spec hended hpre (by omega)
  refine ⟨junk', ?_, ?_, hsuffix'⟩
  · rw [← hm, cleanPath, hs, hsqueeze]
    change (elemLoop rooted m₁.length m₁ pre.length pre.length pre.length >>= _) = _
    rw [hloop]
    exact hfinish
  · rw [← hm]
    exact hlen3.trans (hlen2.trans hlen1)

/-! ## The root name -/

theorem noSlash_front {xs : List UInt8} {c : Rune} (h : Front xs c) (hhead : xs.head? ≠ some 0x2F) : 0x2F ∉ xs := by
  cases h with
  | low b hb =>
    intro hm
    exact hhead (congrArg some (mem_singleton.1 hm).symm)
  | high xs c hne hc hall =>
    intro hm
    exact absurd (hall _ hm) (by decide)

theorem skipElem_spec {post : List UInt8} : ∀ {n : Nat} {pre t : List UInt8}, 0 ∉ t → t.length < n →
    skipElem (pre ++ (t ++ 0 :: post)) n pre.length = .ok (pre.length + (t.takeWhile (· ≠ 0x2F)).length)
  | 0, _, _, _, hn => absurd hn (Nat.not_lt_zero _)
  | n + 1, pre, [], _, _ => by
    rw [skipElem, nil_append, get_at]
    rfl
  | n + 1, pre, b :: t, hnul, hn => by
    have hb0 : b ≠ 0 := fun h0 => hnul (h0 ▸ mem_cons_self)
    rw [skipElem, cons_append, get_at]
    change (if SEP b = true then Except.ok pre.length else _) = _
    by_cases hb : b = 0x2F
    · rw [if_pos (SEP_iff.2 (.inl hb)), takeWhile_cons, if_neg (by rw [decide_eq_true_eq]; exact not_not.2 hb)]
      rfl
    have hsep : ¬ SEP b = true := fun h => (SEP_iff.1 h).elim hb hb0
    obtain ⟨xs, t', c, hsplit, hfront, hrune⟩ := chartorune_front (cons_ne_nil b t) post
    have hcount : runeCount (pre ++ b :: (t ++ 0 :: post)) pre.length = .ok xs.length := by
      rw [runeCount, drop_left, if_pos (by simp)]
      exact congrArg (fun r => Except.ok r.2) hrune
    have hhead : xs.head? ≠ some 0x2F := by
      cases xs with
      | nil => exact nofun
      | cons x xs =>
        intro h
        exact hb ((cons.inj hsplit).1.trans (some.inj h))
    have hpos := hfront.pos
    have hlen : t'.length < n := by
      have := congrArg length hsplit
      rw [length_append, length_cons] at this
      rw [length_cons] at hn
      omega
    have hnul' : 0 ∉ t' := fun h0 => hnul (hsplit ▸ mem_append_right xs h0)
    have ih := @skipElem_spec post n (pre ++ xs) t' hnul' hlen
    have htake : (b :: t).takeWhile (· ≠ 0x2F) = xs ++ t'.takeWhile (· ≠ 0x2F) := by
      rw [hsplit]
      refine takeWhile_append_of_pos fun x hx => decide_eq_true ?_
      exact fun h => noSlash_front hfront hhead (h ▸ hx)
    have hmem : pre ++ b :: (t ++ 0 :: post) = pre ++ xs ++ (t' ++ 0 :: post) := by
      rw [← cons_append, hsplit]
      simp only [append_assoc]
    rw [if_neg hsep, hcount, htake]
    change skipElem _ n (pre.length + xs.length) = _
    rw [hmem, ← length_append, ih, length_append, length_append, Nat.add_assoc]

/-- The root name when it starts with `#`: up to a slash after its first rune, or all of the name and the NUL. -/
theorem root_hash {r : List UInt8} (post : List UInt8) (hne : r ≠ []) (hnul : 0 ∉ r) :
    (∃ a b, 0x23 :: r = a ++ 0x2F :: b ∧ root (0x23 :: r ++ 0 :: post) = .ok (some (a.length + 1, true)) ∧
        0x2F ∈ r.drop 1) ∨
      root (0x23 :: r ++ 0 :: post) = .ok (some (r.length + 2, true)) ∧ 0x2F ∉ r.drop 1 := by
  obtain ⟨xs, t, c, hsplit, hfront, hrune⟩ := chartorune_front hne post
  have hcount : runeCount (0x23 :: r ++ 0 :: post) 1 = .ok xs.length := by
    change (if 0 ∈ r ++ 0 :: post then Except.ok (chartorune (r ++ 0 :: post)).2 else .error "address") = _
    rw [if_pos (by simp), hrune]
  have hskip : skipElem (0x23 :: r ++ 0 :: post) (0x23 :: r ++ 0 :: post).length (1 + xs.length) =
      .ok (1 + xs.length + (t.takeWhile (· ≠ 0x2F)).length) := by
    have hnul' : 0 ∉ t := fun h0 => hnul (hsplit ▸ mem_append_right xs h0)
    have h := @skipElem_spec post (0x23 :: r ++ 0 :: post).length (0x23 :: xs) t hnul' (by
      have := congrArg length hsplit
      rw [length_append] at this
      simp only [length_append, length_cons]
      omega)
    have hmem : (0x23 :: xs : List UInt8) ++ (t ++ 0 :: post) = 0x23 :: r ++ 0 :: post := by
      rw [hsplit]
      simp only [append_assoc, cons_append]
    rw [hmem, length_cons, Nat.add_comm xs.length] at h
    exact h
  have hroot : root (0x23 :: r ++ 0 :: post) = .ok (some (1 + xs.length + (t.takeWhile (· ≠ 0x2F)).length + 1, true)) := by
    cases r with
    | nil => exact absurd rfl hne
    | cons b r =>
      have hb : b ≠ 0 := fun h0 => hnul (h0 ▸ mem_cons_self)
      change (if b = 0 then Except.ok none else (runeCount (0x23 :: b :: r ++ 0 :: post) 1 >>= _)) = _
      rw [if_neg hb, hcount]
      change (skipElem _ _ _ >>= _) = _
      rw [hskip]
      rfl
  -- the bytes of the first rune after its first one are no slashes
  have hdrop : 0x2F ∈ r.drop 1 ↔ 0x2F ∈ t := by
    rw [hsplit]
    cases hfront with
    | low b hb => exact Iff.rfl
    | high xs c hxs hc hall =>
      cases xs with
      | nil => exact absurd rfl hxs
      | cons x xs =>
        rw [cons_append, drop_succ_cons, drop_zero, mem_append]
        refine or_iff_right ?_
        intro hm
        exact absurd (hall _ (mem_cons_of_mem x hm)) (by decide)
  by_cases hslash : 0x2F ∈ t
  · obtain ⟨u, v, rfl, hu⟩ := eq_append_cons_of_mem hslash
    refine .inl ⟨0x23 :: xs ++ u, v, ?_, ?_, hdrop.2 hslash⟩
    · rw [hsplit]
      simp only [append_assoc, cons_append]
    have htake : (u ++ 0x2F :: v).takeWhile (· ≠ 0x2F) = u := by
      have hall : ∀ x ∈ u, decide (x ≠ 0x2F) = true := fun x hx => decide_eq_true fun (h : x = 0x2F) => hu (h ▸ hx)
      rw [takeWhile_append_of_pos hall, takeWhile_cons]
      exact append_nil u
    rw [hroot, htake]
    simp only [length_append, length_cons]
    rw [Nat.add_comm 1 xs.length]
  refine .inr ⟨?_, mt hdrop.1 hslash⟩
  have htake : t.takeWhile (· ≠ 0x2F) = t := by
    refine takeWhile_eq_self_iff.2 ?_
    exact fun x hx => decide_eq_true fun (h : x = 0x2F) => hslash (h ▸ hx)
  rw [hroot, htake, hsplit, length_append]
  rw [show 1 + xs.length + t.length + 1 = xs.length + t.length + 2 by omega]

/-! ## The canonical path -/

/-- Elements that `..` and `.` are gone from, but for `..` at the start of a relative path. -/
structure Resolved (rooted : Bool) (es : List (List UInt8)) : Prop where
  split : ∃ k kept, es = List.replicate k dots ++ kept ∧ (∀ e ∈ kept, e ≠ dots) ∧ (rooted = true → k = 0)
  noDot : ∀ e ∈ es, e ≠ [0x2E]
  elements : ∀ e ∈ es, Element e

theorem Resolved.push {e : List UInt8} (h : Resolved rooted es)
    (he : e = [] ∨ Element e) : Resolved rooted (push rooted es e) := by
  rcases he with rfl | he
  · exact h
  by_cases hdot : e = [0x2E]
  · rw [hdot, push_dot]
    exact h
  have hsnoc : ∀ x ∈ es ++ [e], x ≠ [0x2E] ∧ Element x := by
    intro x hx
    rcases mem_append.1 hx with hx | hx
    · exact ⟨h.noDot x hx, h.elements x hx⟩
    · rw [mem_singleton.1 hx]
      exact ⟨hdot, he⟩
  obtain ⟨k, kept, hes, hkept, hroot⟩ := h.split
  by_cases hdots : e = dots
  · subst hdots
    rcases eq_nil_or_concat kept with rfl | ⟨kept, l, rfl⟩
    · rw [append_nil] at hes
      rw [hes, push_up rooted k hroot]
      cases rooted with
      | true => exact ⟨⟨0, [], rfl, nofun, fun _ => rfl⟩, nofun, nofun⟩
      | false =>
        rw [hes, ← replicate_succ'] at hsnoc
        exact ⟨⟨k + 1, [], (append_nil _).symm, nofun, nofun⟩, fun x hx => (hsnoc x hx).1, fun x hx => (hsnoc x hx).2⟩
    have hesl : es = replicate k dots ++ kept ++ [l] := by rw [hes, concat_eq_append, append_assoc]
    rw [hesl, push_pop rooted _ (hkept l (by simp))]
    have hmem : ∀ x ∈ replicate k dots ++ kept, x ∈ es := fun x hx => hesl ▸ mem_append_left _ hx
    exact ⟨⟨k, kept, rfl, fun x hx => hkept x (by simp [hx]), hroot⟩, fun x hx => h.noDot x (hmem x hx),
      fun x hx => h.elements x (hmem x hx)⟩
  rw [push_other he.ne hdot hdots]
  refine ⟨⟨k, kept ++ [e], by rw [hes, append_assoc], ?_, hroot⟩, fun x hx => (hsnoc x hx).1,
    fun x hx => (hsnoc x hx).2⟩
  intro x hx
  rcases mem_append.1 hx with hx | hx
  · exact hkept x hx
  · rw [mem_singleton.1 hx]
    exact hdots

theorem splitOn_elements (hnul : 0 ∉ t) : ∀ e ∈ t.splitOn 0x2F, e = [] ∨ Element e := by
  induction t with
  | nil =>
    intro e he
    exact .inl (mem_singleton.1 he)
  | cons c t ih =>
    have hc0 : c ≠ 0 := fun h0 => hnul (h0 ▸ mem_cons_self)
    have ih := ih fun h0 => hnul (mem_cons_of_mem c h0)
    intro e he
    by_cases hc : c = 0x2F
    · rw [hc, splitOn_slash] at he
      rcases mem_cons.1 he with rfl | he
      · exact .inl rfl
      · exact ih e he
    rw [splitOn_other hc] at he
    cases hsplit : t.splitOn 0x2F with
    | nil => exact absurd hsplit (splitOn_ne_nil _ _)
    | cons x xs =>
      rw [hsplit] at he ih
      rcases mem_cons.1 he with rfl | he
      · exact .inr (.cons hc hc0 (ih x mem_cons_self))
      · exact ih e (mem_cons_of_mem x he)

theorem foldl_resolved {rooted : Bool} : ∀ {cs es : List (List UInt8)}, Resolved rooted es →
    (∀ e ∈ cs, e = [] ∨ Element e) → Resolved rooted (cs.foldl (push rooted) es)
  | [], _, h, _ => h
  | c :: cs, es, h, hcs => by
    rw [foldl_cons]
    exact foldl_resolved (h.push (hcs c mem_cons_self)) fun e he => hcs e (mem_cons_of_mem c he)

theorem resolve_resolved (rooted : Bool) (hnul : 0 ∉ t) : Resolved rooted (resolve rooted t) :=
  foldl_resolved ⟨⟨0, [], rfl, nofun, fun _ => rfl⟩, nofun, nofun⟩ (splitOn_elements hnul)

theorem Resolved.foldl (h : Resolved rooted es) :
    es.foldl (Cleanname.push rooted) [] = es := by
  induction es using reverseRecOn with
  | nil => rfl
  | append_singleton es e ih =>
    have hmem : ∀ x ∈ es, x ∈ es ++ [e] := fun x hx => mem_append_left _ hx
    have he := h.elements e (by simp)
    obtain ⟨k, kept, hes, hkept, hroot⟩ := h.split
    rw [foldl_append, foldl_cons, foldl_nil]
    rcases eq_nil_or_concat kept with rfl | ⟨kept, l, rfl⟩
    · -- `..` only
      rw [append_nil] at hes
      cases k with
      | zero => exact absurd hes (by simp)
      | succ k =>
        rw [replicate_succ'] at hes
        obtain ⟨rfl, he'⟩ := append_inj' hes rfl
        obtain rfl := singleton_inj.1 he'
        have hr : rooted = false := by
          rw [← Bool.not_eq_true]
          exact fun hr => absurd (hroot hr) (Nat.succ_ne_zero k)
        subst hr
        have hes' : Resolved false (replicate k dots) :=
          ⟨⟨k, [], (append_nil _).symm, nofun, nofun⟩, fun x hx => h.noDot x (hmem x hx),
            fun x hx => h.elements x (hmem x hx)⟩
        rw [ih hes', push_up false k nofun, if_neg Bool.false_ne_true, replicate_succ']
    rw [concat_eq_append, ← append_assoc] at hes
    obtain ⟨rfl, he'⟩ := append_inj' hes rfl
    obtain rfl := singleton_inj.1 he'
    have hes' : Resolved rooted (replicate k dots ++ kept) :=
      ⟨⟨k, kept, rfl, fun x hx => hkept x (by simp [hx]), hroot⟩, fun x hx => h.noDot x (hmem x hx),
        fun x hx => h.elements x (hmem x hx)⟩
    rw [ih hes', push_other he.ne (h.noDot e (by simp)) (hkept e (by simp))]

theorem splitOn_joined (hne : es ≠ []) (h : ∀ e ∈ es, Element e) :
    (joined es).splitOn 0x2F = es :=
  splitOn_intercalate 0x2F (fun e he => (h e he).noSlash) hne

theorem Resolved.resolve (h : Resolved rooted es) :
    Cleanname.resolve rooted (joined es) = es := by
  cases es with
  | nil => rfl
  | cons e es =>
    rw [Cleanname.resolve, splitOn_joined (cons_ne_nil e es) h.elements]
    exact h.foldl

theorem canonical_slash (t : List UInt8) : canonical (0x2F :: t) = 0x2F :: joined (resolve true t) := by
  rfl

theorem joined_noNul (h : ∀ e ∈ es, Element e) : 0 ∉ joined es := by
  induction es with
  | nil => exact nofun
  | cons e es ih =>
    have he := (h e mem_cons_self).noNul
    have ih := ih fun x hx => h x (mem_cons_of_mem e hx)
    cases es with
    | nil =>
      rw [joined, intercalate_singleton]
      exact he
    | cons e' es =>
      rw [joined, intercalate_cons_cons, mem_append, mem_append]
      rintro ((h0 | h0) | h0)
      · exact he h0
      · exact absurd (mem_singleton.1 h0) (by decide)
      · exact ih h0

theorem canonical_relative (hnul : 0 ∉ name) (h : name.head? ≠ some 0x2F) :
    canonical name = if resolve false name = [] then [0x2E] else joined (resolve false name) := by
  have hroot : decide (name.head? = some 0x2F) = false := decide_eq_false h
  rw [canonical, hroot, if_neg Bool.false_ne_true]
  by_cases hes : resolve false name = []
  · rw [if_pos hes, hes]
    rfl
  obtain ⟨c, t, hjoin, -⟩ := head_joined hes (resolve_resolved false hnul).elements
  rw [if_neg hes, if_neg]
  intro hnil
  exact absurd (hjoin.symm.trans hnil) (cons_ne_nil c t)

theorem settle_root (hnul : 0 ∉ name)
    (h : (pre = [0x2F] ∧ name = 0x2F :: src ∧ rooted = true) ∨
      (pre = [] ∧ name = src ∧ name.head? ≠ some 0x2F ∧ rooted = false)) :
    settle pre (resolve rooted src) = canonical name := by
  rcases h with ⟨rfl, rfl, rfl⟩ | ⟨rfl, rfl, hhead, rfl⟩
  · rw [canonical_slash, settle]
    split
    · rename_i hes
      rw [hes]
      rfl
    · rfl
  · rw [canonical_relative hnul hhead, settle]
    rfl

theorem canonical_noNul (hnul : 0 ∉ name) : 0 ∉ canonical name := by
  by_cases hslash : name.head? = some 0x2F
  · cases name with
    | nil => cases hslash
    | cons c t =>
      cases hslash
      rintro (_ | ⟨_, h0⟩)
      exact joined_noNul (resolve_resolved true fun h0 => hnul (mem_cons_of_mem _ h0)).elements h0
  rw [canonical_relative hnul hslash]
  split
  · exact fun h0 => absurd (mem_singleton.1 h0) (by decide)
  · exact joined_noNul (resolve_resolved false hnul).elements

/-- **A name that is canonical stays.** -/
theorem canonical_canonical (hnul : 0 ∉ name) : canonical (canonical name) = canonical name := by
  by_cases hslash : name.head? = some 0x2F
  · cases name with
    | nil => cases hslash
    | cons c t =>
      cases hslash
      have hnul : 0 ∉ t := fun h0 => hnul (mem_cons_of_mem _ h0)
      rw [canonical_slash, canonical_slash, (resolve_resolved true hnul).resolve]
  have hres := resolve_resolved false hnul
  rw [canonical_relative hnul hslash]
  by_cases hes : resolve false name = []
  · rw [if_pos hes]
    rfl
  obtain ⟨c, t, hjoin, -, hc⟩ := head_joined hes hres.elements
  have hhead : (joined (resolve false name)).head? ≠ some 0x2F := by
    rw [hjoin]
    exact fun h => hc (some.inj h)
  rw [if_neg hes, canonical_relative (joined_noNul hres.elements) hhead, hres.resolve, if_neg hes]

theorem push_sublist (rooted : Bool) (es : List (List UInt8)) (e : List UInt8) :
    List.Sublist (push rooted es e) (es ++ [e]) := by
  have hes : List.Sublist es (es ++ [e]) := sublist_append_left es [e]
  rw [push]
  split
  · exact hes
  split
  · cases es.getLast? with
    | none =>
      cases rooted with
      | true => exact nil_sublist _
      | false => exact sublist_append_right es [e]
    | some l =>
      change List.Sublist (if l = dots then es ++ [e] else es.dropLast) _
      split
      · exact List.Sublist.refl _
      · exact (dropLast_sublist es).trans hes
  · exact List.Sublist.refl _

theorem foldl_sublist (rooted : Bool) : ∀ (cs es : List (List UInt8)),
    List.Sublist (cs.foldl (push rooted) es) (es ++ cs)
  | [], es => by rw [append_nil]; exact List.Sublist.refl es
  | c :: cs, es => by
    have h := (foldl_sublist rooted cs (push rooted es c)).trans ((push_sublist rooted es c).append_right cs)
    rw [append_assoc] at h
    exact h

theorem resolve_sublist (rooted : Bool) (t : List UInt8) : List.Sublist (resolve rooted t) (t.splitOn 0x2F) :=
  foldl_sublist rooted (t.splitOn 0x2F) []

theorem joined_resolve (hes : resolve rooted t ≠ [])
    (hlen : t.length ≤ (joined (resolve rooted t)).length) : joined (resolve rooted t) = t := by
  have ht : slashed (t.splitOn 0x2F) = t ++ [0x2F] := by
    rw [slashed_eq (splitOn_ne_nil _ t), joined, intercalate_splitOn]
  have hsub : List.Sublist (slashed (resolve rooted t)) (slashed (t.splitOn 0x2F)) := (resolve_sublist rooted t).flatMap _
  rw [slashed_eq hes, ht] at hsub
  have heq := hsub.eq_of_length_le (by
    rw [length_append, length_append]
    exact Nat.add_le_add_right hlen _)
  exact (append_inj' heq rfl).1

theorem canonical_ne_nil (name : List UInt8) : canonical name ≠ [] := by
  rw [canonical]
  split
  · exact cons_ne_nil _ _
  · split
    · exact cons_ne_nil _ _
    · assumption

theorem canonical_shorter (hnul : 0 ∉ name) (hhash : name.head? ≠ some 0x23)
    (h : (canonical name).head? = some 0x23) : (canonical name).length < name.length := by
  have hslash : name.head? ≠ some 0x2F := by
    intro hslash
    cases name with
    | nil => cases hslash
    | cons c t =>
      cases hslash
      exact absurd (some.inj h) (by decide)
  rw [canonical_relative hnul hslash] at h ⊢
  by_cases hes : resolve false name = []
  · rw [if_pos hes] at h
    exact absurd (some.inj h) (by decide)
  rw [if_neg hes] at h ⊢
  by_contra hge
  rw [joined_resolve hes (Nat.le_of_not_lt hge)] at h
  exact hhash h

theorem Resolved.behind {c : UInt8} {a b : List UInt8} (h : Resolved rooted es)
    (hes : es ≠ []) (hc : c ≠ 0x2E) (hsplit : joined es = c :: a ++ 0x2F :: b) : Cleanname.resolve true b = b.splitOn 0x2F := by
  have hsplit' : es = (c :: a).splitOn 0x2F ++ b.splitOn 0x2F := by
    rw [← splitOn_append_cons_self, ← hsplit, splitOn_joined hes h.elements]
  obtain ⟨k, kept, heq, hkept, -⟩ := h.split
  have hk : k = 0 := by
    cases k with
    | zero => rfl
    | succ k =>
      rw [heq, replicate_succ, cons_append] at hsplit
      cases hrest : replicate k dots ++ kept with
      | nil =>
        rw [hrest, joined, intercalate_singleton] at hsplit
        exact absurd (cons.inj hsplit).1.symm hc
      | cons e' es' =>
        rw [hrest, joined, intercalate_cons_cons] at hsplit
        exact absurd (cons.inj hsplit).1.symm hc
  rw [hk, replicate_zero, nil_append] at heq
  have hmem : ∀ x ∈ b.splitOn 0x2F, x ∈ es := fun x hx => hsplit' ▸ mem_append_right _ hx
  have hb : Resolved true (b.splitOn 0x2F) :=
    ⟨⟨0, _, rfl, fun x hx => hkept x (heq ▸ hmem x hx), fun _ => rfl⟩, fun x hx => h.noDot x (hmem x hx),
      fun x hx => h.elements x (hmem x hx)⟩
  exact hb.foldl

/-! ## cleanname -/

theorem cleanname_root (post : List UInt8) (hnul : 0 ∉ name) (hne : name ≠ [])
    (hhash : name.head? ≠ some 0x23) :
    ∃ junk, cleanname (name ++ 0 :: post) = .ok (canonical name ++ 0 :: junk) ∧
      (canonical name ++ 0 :: junk).length = (name ++ 0 :: post).length ∧ 0 :: post <:+ 0 :: junk := by
  have hcall : ∀ {pre src : List UInt8} {rooted : Bool},
      (pre = [0x2F] ∧ name = 0x2F :: src ∧ rooted = true) ∨
        (pre = [] ∧ name = src ∧ name.head? ≠ some 0x2F ∧ rooted = false) →
      cleanname (name ++ 0 :: post) = cleanPath (pre ++ src ++ 0 :: post) pre.length rooted := by
    intro pre src rooted h
    cases name with
    | nil => exact absurd rfl hne
    | cons c t =>
      have hc0 : c ≠ 0 := fun h0 => hnul (h0 ▸ mem_cons_self)
      have hc : c ≠ 0x23 := fun h => hhash (congrArg some h)
      have hroot : root (c :: t ++ 0 :: post) = .ok (if c = 0x2F then some (1, true) else some (0, false)) := by
        change (if c = 0x23 then _ else (if c = 0x2F then Except.ok (some (1, true)) else .ok (some (0, false)))) = _
        rw [if_neg hc]
        split <;> rfl
      change (if c = 0 then _ else (root (c :: t ++ 0 :: post) >>= _)) = _
      rw [if_neg hc0, hroot]
      rcases h with ⟨rfl, h, rfl⟩ | ⟨rfl, h, hhead, rfl⟩
      · cases h
        rfl
      · rw [if_neg (fun h => hhead (congrArg some h)), ← h]
        rfl
  have hcases : ∃ (pre src : List UInt8) (rooted : Bool), ((pre = [0x2F] ∧ name = 0x2F :: src ∧ rooted = true) ∨
      (pre = [] ∧ name = src ∧ name.head? ≠ some 0x2F ∧ rooted = false)) := by
    by_cases hslash : name.head? = some 0x2F
    · cases name with
      | nil => cases hslash
      | cons c t =>
        cases hslash
        exact ⟨_, t, _, .inl ⟨rfl, rfl, rfl⟩⟩
    · exact ⟨_, _, _, .inr ⟨rfl, rfl, hslash, rfl⟩⟩
  obtain ⟨pre, src, rooted, h⟩ := hcases
  have hname : pre ++ src = name := by
    rcases h with ⟨rfl, rfl, -⟩ | ⟨rfl, rfl, -⟩
    · rfl
    · rfl
  have hnulsrc : 0 ∉ src := fun h0 => hnul (hname ▸ mem_append_right pre h0)
  have hstart : rooted = true ∨ src.head? ≠ some 0x2F := by
    rcases h with ⟨-, -, h⟩ | ⟨-, rfl, h, -⟩
    · exact .inl h
    · exact .inr h
  have hpre : pre.head? ≠ some 0 := by
    rcases h with ⟨rfl, -⟩ | ⟨rfl, -⟩
    · exact fun h => absurd (some.inj h) (by decide)
    · exact nofun
  obtain ⟨junk, hrun, hlen, hsuffix⟩ := @cleanPath_spec pre src rooted post hnulsrc hstart hpre (hname ▸ hne)
  rw [settle_root hnul h] at hrun hlen
  rw [hname] at hlen
  exact ⟨junk, (hcall h).trans hrun, hlen, hsuffix⟩

/-- A canonical name that starts with `#` stays, where a NUL is to be found behind it. -/
theorem cleanname_hash (hres : Resolved false (resolve false name))
    (hes : resolve false name ≠ []) (hhead : (joined (resolve false name)).head? = some 0x23) (hjunk : 0 ∈ junk) :
    ∃ m', cleanname (joined (resolve false name) ++ 0 :: junk) = .ok m' ∧ cstr m' = joined (resolve false name) := by
  obtain ⟨es, he⟩ : ∃ es, es = resolve false name := ⟨_, rfl⟩
  rw [← he] at hres hes hhead ⊢
  have hnul := joined_noNul hres.elements
  obtain ⟨r, hname⟩ : ∃ r, joined es = 0x23 :: r := by
    cases hj : joined es with
    | nil =>
      rw [hj] at hhead
      cases hhead
    | cons c r =>
      rw [hj] at hhead
      rw [some.inj hhead]
      exact ⟨r, rfl⟩
  have hcall : cleanname (joined es ++ 0 :: junk) = (root (joined es ++ 0 :: junk) >>= fun r =>
      r.elim (.ok (joined es ++ 0 :: junk)) fun x => cleanPath (joined es ++ 0 :: junk) x.1 x.2) := by
    rw [hname]
    change (root _ >>= _) = _
    congr 1
    funext r
    cases r <;> rfl
  rw [hcall]
  cases r with
  | nil =>
    refine ⟨_, ?_, cstr_of_nul hnul junk⟩
    rw [hname]
    rfl
  | cons b r =>
    have hnulr : 0 ∉ b :: r := fun h0 => hnul (hname ▸ mem_cons_of_mem 0x23 h0)
    rcases root_hash junk (cons_ne_nil b r) hnulr with ⟨a, b', hsplit, hroot, -⟩ | ⟨hroot, -⟩
    · -- the path after the slash has nothing to lose
      cases a with
      | nil => exact absurd (cons.inj hsplit).1 (by decide)
      | cons c a =>
        have hc : c = 0x23 := (cons.inj hsplit).1.symm
        have hbehind := hres.behind hes (hc ▸ by decide : c ≠ 0x2E) (hname.trans hsplit)
        have hnulb : 0 ∉ b' := fun h0 => hnul (by
          rw [hname, hsplit]
          exact mem_append_right _ (mem_cons_of_mem _ h0))
        obtain ⟨junk', hrun, -, -⟩ := @cleanPath_spec (c :: a ++ [0x2F]) b' true junk hnulb (.inl rfl)
          (by
            rw [hc, cons_append]
            exact fun h => absurd (some.inj h) (by decide))
          (cons_ne_nil _ _)
        have hmem : c :: a ++ [0x2F] ++ b' = joined es := by
          rw [hname, hsplit, append_assoc]
          rfl
        have hsettle : settle (c :: a ++ [0x2F]) (resolve true b') = joined es := by
          rw [settle, hbehind, if_neg (splitOn_ne_nil _ b'), joined, intercalate_splitOn, hmem]
        rw [hsettle, hmem, length_append] at hrun
        refine ⟨_, ?_, cstr_of_nul hnul junk'⟩
        rw [hname, hroot]
        rw [hname] at hrun
        exact hrun
    -- it is the bytes after the NUL that are made canonical
    obtain ⟨src, post, rfl, hsrc⟩ := eq_append_cons_of_mem hjunk
    obtain ⟨junk', hrun, -, -⟩ := @cleanPath_spec (joined es ++ [0]) src true post hsrc (.inl rfl)
      (fun h => hnul (mem_of_head? ((head?_append_of_ne_nil _ (hname ▸ cons_ne_nil _ _)).symm.trans h)))
      (append_ne_nil_of_left_ne_nil (append_ne_nil_of_right_ne_nil _ (cons_ne_nil _ _)) _)
    have hkeep : ∃ rest, settle (joined es ++ [0]) (resolve true src) = joined es ++ 0 :: rest := by
      rw [settle]
      split
      · refine ⟨[], ?_⟩
        rw [if_neg (append_ne_nil_of_right_ne_nil _ (cons_ne_nil _ _)), if_neg]
        rintro ⟨-, h⟩
        rw [getLast?_concat] at h
        exact absurd (some.inj h) (by decide)
      · exact ⟨_, by rw [append_assoc]; rfl⟩
    obtain ⟨rest, hkeep⟩ := hkeep
    rw [hkeep] at hrun
    have hmem : joined es ++ [0] ++ src ++ 0 :: post = joined es ++ 0 :: (src ++ 0 :: post) := by
      simp only [append_assoc, cons_append, nil_append]
    rw [hmem, append_assoc, cons_append, hname, length_append] at hrun
    refine ⟨_, ?_, cstr_of_nul hnul (rest ++ 0 :: junk')⟩
    rw [hname, hroot]
    exact hrun

/-- **`cleanname` makes the canonical path**, it is no longer than the name, and it stays. -/
theorem cleanname_canonical (name post : List UInt8) (hnul : 0 ∉ name) (hhash : name.head? ≠ some 0x23)
    (hpost : name = [] → post ≠ []) :
    ∃ m', cleanname (name ++ 0 :: post) = .ok m' ∧ cstr m' = canonical name ∧
      (name ≠ [] → (cstr m').length ≤ name.length) ∧ ∃ m'', cleanname m' = .ok m'' ∧ cstr m'' = cstr m' := by
  by_cases hne : name = []
  · subst hne
    cases post with
    | nil => exact absurd rfl (hpost rfl)
    | cons x post =>
      refine ⟨0x2E :: 0 :: post, rfl, rfl, fun h => absurd rfl h, ?_⟩
      obtain ⟨junk, hrun, -, -⟩ := @cleanname_root [0x2E] post (by decide) (by decide) (by decide)
      exact ⟨_, hrun, rfl⟩
  obtain ⟨junk, hrun, hlen, hsuffix⟩ := cleanname_root post hnul hne hhash
  have hnul' := canonical_noNul hnul
  refine ⟨_, hrun, cstr_of_nul hnul' junk, fun _ => ?_, ?_⟩
  · rw [cstr_of_nul hnul' junk]
    have := hsuffix.length_le
    simp only [length_append, length_cons] at hlen this
    omega
  rw [cstr_of_nul hnul' junk]
  by_cases hhash' : (canonical name).head? = some 0x23
  · have hshort := canonical_shorter hnul hhash hhash'
    have hjunk : 0 ∈ junk := by
      rcases suffix_cons_iff.1 hsuffix with heq | hsuffix
      · rw [(cons.inj heq).2] at hlen
        simp only [length_append, length_cons] at hlen
        omega
      · exact hsuffix.mem mem_cons_self
    have hslash : name.head? ≠ some 0x2F := by
      intro hslash
      rw [canonical, if_pos (decide_eq_true hslash)] at hhash'
      exact absurd (Option.some.inj hhash') (by decide)
    rw [canonical_relative hnul hslash] at hhash' ⊢
    by_cases hes : resolve false name = []
    · rw [if_pos hes] at hhash'
      exact absurd (Option.some.inj hhash') (by decide)
    · rw [if_neg hes] at hhash' ⊢
      exact cleanname_hash (resolve_resolved false hnul) hes hhash' hjunk
  · obtain ⟨junk', hrun', -, -⟩ := cleanname_root junk hnul' (canonical_ne_nil name) hhash'
    rw [canonical_canonical hnul] at hrun'
    exact ⟨_, hrun', cstr_of_nul hnul' junk'⟩

/-- `a/../../b/` is `../b`. -/
theorem cleanname_canonical_dots :
    ∃ m', cleanname [0x61, 0x2F, 0x2E, 0x2E, 0x2F, 0x2E, 0x2E, 0x2F, 0x62, 0x2F, 0] = .ok m' ∧
      cstr m' = [0x2E, 0x2E, 0x2F, 0x62] := by
  obtain ⟨m', hrun, hcanon, -, -⟩ :=
    cleanname_canonical [0x61, 0x2F, 0x2E, 0x2E, 0x2F, 0x2E, 0x2E, 0x2F, 0x62, 0x2F] [] (by decide) (by decide) nofun
  exact ⟨m', hrun, hcanon.trans (by decide)⟩

end Plan9.Libc.Cleanname
