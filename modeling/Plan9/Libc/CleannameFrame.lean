/-
`cleanname` and the memory after its name: a run that stays in its memory is the same run
in a longer one (`cleanname_follows`), and nothing that was added is read or written.

So it is a run in the memory of the name alone that says whether the call stays within the
name (`Local`). With `#` at its start and no slash after the first element the path is
looked for past the NUL (`cleanname_local`).
-/
import Plan9.Libc.CleannameRuns

namespace Plan9.Libc.Cleanname

open Bytes List

section

variable {m : List UInt8} (post : List UInt8)

theorem get_lt {p : Nat} {c : UInt8} (h : get m p = .ok c) : p < m.length := by
  rw [get] at h
  by_contra hge
  rw [getElem?_eq_none (Nat.le_of_not_lt hge)] at h
  cases h

theorem get_follows (p : Nat) : Follows id (get m p) (get (m ++ post) p) := by
  intro c h
  rw [get, getElem?_append_left (get_lt h)]
  exact h

theorem put_follows (p : Nat) (c : UInt8) : Follows (· ++ post) (put m p c) (put (m ++ post) p c) := by
  rw [put]
  split
  · rename_i hp
    rw [put, if_pos (by rw [length_append]; omega), set_append_left _ _ hp]
    exact .ok
  · exact .error

theorem runeCount_follows (p : Nat) : Follows id (runeCount m p) (runeCount (m ++ post) p) := by
  rw [runeCount]
  split
  · rename_i hmem
    have hp : p ≤ m.length := by
      by_contra hlt
      rw [drop_of_length_le (by omega)] at hmem
      cases hmem
    obtain ⟨t, rest, hdrop, ht⟩ := eq_append_cons_of_mem hmem
    have hrune : ∀ tail, chartorune (t ++ 0 :: tail) = chartorune (t ++ [0]) := by
      intro tail
      cases t with
      | nil => rfl
      | cons b t => exact chartorune_nul (cons_ne_nil b t) tail
    have hsame : chartorune (m.drop p ++ post) = chartorune (m.drop p) := by
      rw [hdrop, append_assoc, cons_append, hrune, hrune rest]
    rw [runeCount, drop_append_of_le_length hp, if_pos (mem_append_left _ hmem), hsame]
    exact .ok
  · exact .error

theorem skipSlash_append {s : Nat} (h : skipSlash m s < m.length) : skipSlash (m ++ post) s = skipSlash m s := by
  have hs : s ≤ m.length := by
    rw [skipSlash] at h
    omega
  have hlt : ((m.drop s).takeWhile (· = 0x2F)).length < (m.drop s).length := by
    rw [skipSlash] at h
    rw [length_drop]
    omega
  rw [skipSlash, drop_append_of_le_length hs, takeWhile_append, if_neg (Nat.ne_of_lt hlt), skipSlash]

theorem skipElem_follows : ∀ {n n' : Nat} (d0 : Nat), n ≤ n' →
    Follows id (skipElem m n d0) (skipElem (m ++ post) n' d0)
  | 0, _, _, _ => .error
  | n + 1, 0, _, hn => absurd hn (Nat.not_succ_le_zero n)
  | n + 1, n' + 1, d0, hn => by
    refine (get_follows post d0).bind fun c _ => .ite (fun _ => .ok) fun _ => ?_
    exact (runeCount_follows post d0).bind fun k _ => skipElem_follows (d0 + k) (Nat.le_of_succ_le_succ hn)

theorem root_follows : Follows id (root m) (root (m ++ post)) := by
  refine (get_follows post 0).bind fun c _ => .ite (fun _ => ?_) fun _ => .ite (fun _ => .ok) fun _ => .ok
  refine (get_follows post 1).bind fun b _ => .ite (fun _ => .ok) fun _ => ?_
  refine (runeCount_follows post 1).bind fun k _ => ?_
  have hlen : m.length ≤ (m ++ post).length := by
    rw [length_append]
    omega
  exact (skipElem_follows post (1 + k) hlen).bind fun d0 _ => .ok

/-! ## The two passes -/

theorem squeeze_lt {n d s : Nat} {m' : List UInt8} (h : squeeze n m d s = .ok m') : s < m.length := by
  cases n with
  | zero => cases h
  | succ n =>
    cases hc : get m s with
    | ok c => exact get_lt hc
    | error e =>
      rw [squeeze, hc] at h
      cases h

theorem squeeze_follows : ∀ {n n' : Nat} (m : List UInt8) (d s : Nat), n ≤ n' →
    Follows (· ++ post) (squeeze n m d s) (squeeze n' (m ++ post) d s)
  | 0, _, _, _, _, _ => .error
  | n + 1, 0, _, _, _, hn => absurd hn (Nat.not_succ_le_zero n)
  | n + 1, n' + 1, m, d, s, hn => by
    refine (get_follows post s).bind fun c _ => .ite (fun _ => put_follows post d 0) fun _ => ?_
    refine (put_follows post d c).bind fun m' _ => (get_follows post s).bind fun c' _ => ?_
    have ih := fun s => squeeze_follows m' (d + 1) s (Nat.le_of_succ_le_succ hn)
    change Follows _ (squeeze n m' (d + 1) (if c' = 0x2F then skipSlash m' (s + 1) else s + 1))
      (squeeze n' (m' ++ post) (d + 1) (if c' = 0x2F then skipSlash (m' ++ post) (s + 1) else s + 1))
    split
    · intro m'' h
      rw [skipSlash_append post (squeeze_lt h)]
      exact ih _ m'' h
    · exact ih _

theorem isDot_follows (s : Nat) : Follows id (isDot m s) (isDot (m ++ post) s) := by
  refine (get_follows post s).bind fun c _ => .ite (fun _ => .ok) fun _ => ?_
  exact (get_follows post (s + 1)).bind fun c' _ => .ok

theorem isDotdot_follows (s : Nat) : Follows id (isDotdot m s) (isDotdot (m ++ post) s) := by
  refine (get_follows post s).bind fun c _ => .ite (fun _ => .ok) fun _ => ?_
  refine (get_follows post (s + 1)).bind fun c' _ => .ite (fun _ => .ok) fun _ => ?_
  exact (get_follows post (s + 2)).bind fun c'' _ => .ok

theorem backUp_append (d0 : Nat) {d : Nat} (hd : d ≤ m.length) : backUp (m ++ post) d0 d = backUp m d0 d := by
  induction d with
  | zero => rfl
  | succ d ih =>
    have hbyte : byteAt (m ++ post) d = byteAt m d := by
      rw [byteAt, byteAt, getD_eq_getElem?_getD, getD_eq_getElem?_getD, getElem?_append_left hd]
    rw [backUp, backUp, hbyte, ih (Nat.le_of_succ_le hd)]

theorem copyElem_follows : ∀ {n n' : Nat} (m : List UInt8) (d s : Nat), n ≤ n' →
    Follows (fun r => (r.1 ++ post, r.2)) (copyElem n m d s) (copyElem n' (m ++ post) d s)
  | 0, _, _, _, _, _ => .error
  | n + 1, 0, _, _, _, hn => absurd hn (Nat.not_succ_le_zero n)
  | n + 1, n' + 1, m, d, s, hn => by
    refine (get_follows post s).bind fun c _ => .ite (fun _ => .ok) fun _ => ?_
    exact (put_follows post d c).bind fun m' _ => copyElem_follows m' (d + 1) (s + 1) (Nat.le_of_succ_le_succ hn)

theorem copyStep_follows (d s d0 : Nat) :
    Follows (fun r => (r.1 ++ post, r.2)) (copyStep m d s d0) (copyStep (m ++ post) d s d0) := by
  have hlen : m.length ≤ (m ++ post).length := by
    rw [length_append]
    omega
  refine (copyElem_follows post m d s hlen).bind fun r _ => ?_
  refine (get_follows post r.2.2).bind fun c _ => .ite (fun _ => .ok) fun _ => ?_
  exact (put_follows post r.2.1 c).bind fun m' _ => .ok

theorem elemStep_follows (d s d0 : Nat) (rooted : Bool) :
    Follows (fun r => (r.1 ++ post, r.2)) (elemStep m d s d0 rooted) (elemStep (m ++ post) d s d0 rooted) := by
  refine (isDot_follows post s).bind fun dot _ => .ite (fun _ => ?_) fun _ => ?_
  · exact (get_follows post (s + 1)).bind fun c _ => .ite (fun _ => .ok) fun _ => .ok
  refine (isDotdot_follows post s).bind fun dotdot _ => .ite (fun _ => ?_) fun _ => copyStep_follows post d s d0
  refine .ite (fun _ => ?_) fun _ => .ite (fun _ => ?_) fun _ => copyStep_follows post d s _
  · exact (get_follows post (s + 2)).bind fun c _ => .ite (fun _ => .ok) fun _ => .ok
  refine .ite (fun _ => .error) fun _ => (get_follows post (d - 1)).bind fun c hc => .ite (fun _ => .error) fun _ => ?_
  have hd := get_lt hc
  refine (get_follows post (s + 2)).bind fun c' _ => ?_
  rw [backUp_append post _ (by omega)]
  exact .ite (fun _ => .ok) fun _ => .ok

theorem elemLoop_follows (rooted : Bool) : ∀ {n n' : Nat} (m : List UInt8) (d s d0 : Nat), n ≤ n' →
    Follows (fun r => (r.1 ++ post, r.2)) (elemLoop rooted n m d s d0) (elemLoop rooted n' (m ++ post) d s d0)
  | 0, _, _, _, _, _, _ => .error
  | n + 1, 0, _, _, _, _, hn => absurd hn (Nat.not_succ_le_zero n)
  | n + 1, n' + 1, m, d, s, d0, hn => by
    refine (get_follows post s).bind fun c _ => .ite (fun _ => .ok) fun _ => ?_
    refine (elemStep_follows post d s d0 rooted).bind fun r _ => ?_
    rcases r with ⟨m', d', _ | ⟨s', d0'⟩⟩
    · exact .ok
    · exact elemLoop_follows rooted m' d' s' d0' (Nat.le_of_succ_le_succ hn)

theorem putDot_follows : Follows (· ++ post) (putDot m) (putDot (m ++ post)) :=
  (put_follows post 0 0x2E).bind fun _ _ => put_follows post 1 0

theorem stripSlash_follows (d : Nat) : Follows (· ++ post) (stripSlash m d) (stripSlash (m ++ post) d) := by
  refine .ite (fun _ => ?_) fun _ => .ok
  exact (get_follows post (d - 1)).bind fun c _ => .ite (fun _ => put_follows post (d - 1) 0) fun _ => .ok

theorem finish_follows (d : Nat) : Follows (· ++ post) (finish m d) (finish (m ++ post) d) := by
  refine (put_follows post d 0).bind fun m' _ => (stripSlash_follows post d).bind fun m'' _ => ?_
  exact (get_follows post 0).bind fun c _ => .ite (fun _ => putDot_follows post) fun _ => .ok

theorem cleanPath_follows (d0 : Nat) (rooted : Bool) :
    Follows (· ++ post) (cleanPath m d0 rooted) (cleanPath (m ++ post) d0 rooted) := by
  have hlen : ∀ m : List UInt8, m.length ≤ (m ++ post).length := fun m => by
    rw [length_append]
    omega
  have hsqueeze : Follows (· ++ post) (squeeze m.length m d0 (if rooted then skipSlash m d0 else d0))
      (squeeze (m ++ post).length (m ++ post) d0 (if rooted then skipSlash (m ++ post) d0 else d0)) := by
    split
    · intro m' h
      rw [skipSlash_append post (squeeze_lt h)]
      exact squeeze_follows post m d0 _ (hlen m) m' h
    · exact squeeze_follows post m d0 d0 (hlen m)
  refine hsqueeze.bind fun m' _ => (elemLoop_follows post rooted m' d0 d0 d0 (hlen m')).bind fun r _ => ?_
  exact finish_follows post r.2

/-- **A call that stays in its memory** does the same in a longer one. -/
theorem cleanname_follows : Follows (· ++ post) (cleanname m) (cleanname (m ++ post)) := by
  refine (get_follows post 0).bind fun c _ => .ite (fun _ => putDot_follows post) fun _ => ?_
  refine (root_follows post).bind fun r _ => ?_
  rcases r with _ | ⟨d0, rooted⟩
  · exact .ok
  · exact cleanPath_follows post d0 rooted

end

/-! ## Within the name -/

/-- The call does the same whatever is after the NUL, and leaves it as it is; over the empty name it puts `.` and a NUL. -/
def Local (name : List UInt8) : Prop :=
  (name = [] → ∀ x post, cleanname (0 :: x :: post) = .ok (0x2E :: 0 :: post)) ∧
  (name ≠ [] → ∃ out, cleanname (name ++ [0]) = .ok out ∧ ∀ post, cleanname (name ++ 0 :: post) = .ok (out ++ post))

theorem local_of_ok {name out : List UInt8} (hne : name ≠ []) (h : cleanname (name ++ [0]) = .ok out) : Local name := by
  refine ⟨fun hnil => absurd hnil hne, fun _ => ⟨out, h, fun post => ?_⟩⟩
  have hrun := cleanname_follows post out h
  rw [append_assoc] at hrun
  exact hrun

theorem cleanname_root_eq {b : UInt8} {r : List UInt8} :
    cleanname (0x23 :: b :: r) = (root (0x23 :: b :: r) >>= fun p =>
      match p with
      | none => .ok (0x23 :: b :: r)
      | some (d0, rooted) => cleanPath (0x23 :: b :: r) d0 rooted) := rfl

/-- **It stays within the name** but for a name with `#` that has no slash after the first rune. -/
theorem cleanname_local (name : List UInt8) (hnul : 0 ∉ name) :
    Local name ↔ name.head? ≠ some 0x23 ∨ name = [0x23] ∨ 0x2F ∈ name.drop 2 := by
  by_cases hne : name = []
  · subst hne
    exact ⟨fun _ => .inl nofun, fun _ => ⟨fun _ _ _ => rfl, fun h => absurd rfl h⟩⟩
  by_cases hhash : name.head? = some 0x23
  · obtain ⟨r, rfl⟩ : ∃ r, name = 0x23 :: r := by
      cases name with
      | nil => exact absurd rfl hne
      | cons c r => exact ⟨r, congrArg (· :: r) (Option.some.inj hhash)⟩
    cases r with
    | nil => exact ⟨fun _ => .inr (.inl rfl), fun _ => local_of_ok hne rfl⟩
    | cons b r =>
      have hnulr : 0 ∉ b :: r := fun h0 => hnul (mem_cons_of_mem 0x23 h0)
      rcases root_hash [] (cons_ne_nil b r) hnulr with ⟨a, b', hsplit, hroot, hslash⟩ | ⟨hroot, hslash⟩
      · refine ⟨fun _ => .inr (.inr hslash), fun _ => ?_⟩
        have hnul' : 0 ∉ b' := fun h0 => hnul (by
          rw [hsplit]
          exact mem_append_right a (mem_cons_of_mem 0x2F h0))
        have hpre : (a ++ [0x2F]).head? ≠ some 0 := by
          intro h0
          refine hnul (hsplit ▸ ?_)
          rcases mem_append.1 (mem_of_head? h0) with h0 | h0
          · exact mem_append_left _ h0
          · exact absurd (mem_singleton.1 h0) (by decide)
        obtain ⟨junk, hrun, -, -⟩ := @cleanPath_spec (a ++ [0x2F]) b' true [] hnul' (.inl rfl) hpre
          (append_ne_nil_of_left_ne_nil (append_ne_nil_of_right_ne_nil a (cons_ne_nil _ _)) b')
        have hmem : a ++ [0x2F] ++ b' = 0x23 :: b :: r := by
          rw [hsplit, append_assoc]
          rfl
        rw [hmem, length_append] at hrun
        refine local_of_ok hne ((?_ : cleanname (0x23 :: b :: r ++ [0]) = _).trans hrun)
        rw [cons_append, cons_append, cleanname_root_eq, ← cons_append, ← cons_append, hroot]
        rfl
      -- the path is looked for where the memory has ended
      refine ⟨fun h => ?_, fun h => ?_⟩
      · obtain ⟨out, hrun, -⟩ := h.2 hne
        rw [cons_append, cons_append, cleanname_root_eq, ← cons_append, ← cons_append, hroot] at hrun
        have hend : (0x23 :: b :: r ++ [0]).length ≤ skipSlash (0x23 :: b :: r ++ [0]) ((b :: r).length + 2) := by
          rw [skipSlash, length_append, length_cons, length_singleton]
          omega
        cases hsqueeze : squeeze (0x23 :: b :: r ++ [0]).length (0x23 :: b :: r ++ [0]) ((b :: r).length + 2)
            (skipSlash (0x23 :: b :: r ++ [0]) ((b :: r).length + 2)) with
        | ok m => exact absurd (squeeze_lt hsqueeze) (Nat.not_lt.2 hend)
        | error e =>
          change (squeeze _ _ _ (skipSlash _ _) >>= _) = _ at hrun
          rw [hsqueeze] at hrun
          cases hrun
      · rcases h with h | h | h
        · exact absurd rfl h
        · exact absurd (cons.inj h).2 (cons_ne_nil b r)
        · exact absurd h hslash
  · refine ⟨fun _ => .inl hhash, fun _ => ?_⟩
    obtain ⟨junk, hrun, -, -⟩ := cleanname_root [] hnul hne hhash
    exact local_of_ok hne hrun

/-- `#d/a` -/
theorem cleanname_local_device : Local [0x23, 0x64, 0x2F, 0x61] :=
  (cleanname_local [0x23, 0x64, 0x2F, 0x61] (by decide)).2 (.inr (.inr (by decide)))

/-- After `#a` it is what comes behind the NUL that is made canonical: `b/` is `b`. -/
theorem cleanname_beyond : ¬ ∀ name, 0 ∉ name → Local name := by
  intro h
  obtain ⟨out, hrun, -⟩ := (h [0x23, 0x61] (by decide)).2 (cons_ne_nil _ _)
  have hfault : cleanname ([0x23, 0x61] ++ [0]) = .error "address" := rfl
  cases hrun

example : cleanname [0x23, 0x61, 0, 0x62, 0x2F, 0] = .ok [0x23, 0x61, 0, 0x62, 0, 0] := by decide

end Plan9.Libc.Cleanname
