/-
Names in messages.

A name is its labels (`Domain`), and its text has a dot between them. A message spells
a name at a position (`Spells`) if its labels follow there, up to the end of the name or
to a pointer to where the rest is spelled, through so many pointers in all. That does
not change when more is packed behind. `gname` reads what is spelled, as long as there are
no more than 11 pointers on the way.
-/
import Plan9.Ndb.ConvDNS2M
import Plan9.Ndb.ConvM2DNS

namespace Plan9.Ndb

open List Option

/-! ## Labels -/

structure IsLabel (l : Str) : Prop where
  pos : 0 < l.length
  short : l.length ≤ 63
  noDot : dot ∉ l
  noNul : 0 ∉ l

def text : List Str → Str
  | [] => []
  | l :: ls => if ls = [] then l else l ++ dot :: text ls

/-- A well-formed name. -/
structure Domain where
  labels : List Str
  good : ∀ l ∈ labels, IsLabel l
  short : (text labels).length ≤ 253

variable {l : Str} {ls ls' : List Str} {msg : List UInt8} {p k e : Nat}

theorem text_cons_ne_nil (hl : IsLabel l) : text (l :: ls) ≠ [] := by
  have hpos := hl.pos
  intro hnil
  have hlen : (text (l :: ls)).length = 0 := by rw [hnil, length_nil]
  unfold text at hlen
  split at hlen
  · omega
  · rw [length_append] at hlen
    omega

theorem length_text_cons : (text (l :: ls)).length = l.length + if ls = [] then 0 else 1 + (text ls).length := by
  by_cases hls : ls = []
  · subst hls
    simp [text]
  · rw [text, if_neg hls, if_neg hls, length_append, length_cons, Nat.add_comm 1]

theorem length_parent_lt (hl : IsLabel l) : (text ls).length < (text (l :: ls)).length := by
  have hpos := hl.pos
  rw [length_text_cons]
  by_cases hls : ls = []
  · subst hls
    simpa [text] using hpos
  · rw [if_neg hls]
    omega

theorem label_text (hl : IsLabel l) : label (text (l :: ls)) = l := by
  have hall : ∀ b ∈ l, decide (b ≠ dot) = true := fun b hb => decide_eq_true fun heq => hl.noDot (heq ▸ hb)
  unfold label
  by_cases hls : ls = []
  · subst hls
    exact takeWhile_eq_self_iff.2 hall
  · rw [text, if_neg hls, takeWhile_append_of_pos hall]
    simp

theorem parent_text (hl : IsLabel l) : parent (text (l :: ls)) = text ls := by
  have hall : ∀ b ∈ l, decide (b ≠ dot) = true := fun b hb => decide_eq_true fun heq => hl.noDot (heq ▸ hb)
  unfold parent
  by_cases hls : ls = []
  · subst hls
    have hone : text [l] = l := if_pos rfl
    rw [hone, dropWhile_eq_nil_iff.2 hall]
    rfl
  · rw [text, if_neg hls, dropWhile_append_of_pos hall]
    simp

theorem text_inj (hls : ∀ l ∈ ls, IsLabel l) (hls' : ∀ l ∈ ls', IsLabel l) (heq : text ls = text ls') : ls = ls' := by
  induction ls generalizing ls' with
  | nil =>
    cases ls' with
    | nil => rfl
    | cons l' ls' => exact absurd heq.symm (text_cons_ne_nil (hls' l' mem_cons_self))
  | cons l ls ih =>
    have hl := hls l mem_cons_self
    cases ls' with
    | nil => exact absurd heq (text_cons_ne_nil hl)
    | cons l' ls' =>
      have hl' := hls' l' mem_cons_self
      have hfirst : l = l' := by rw [← @label_text l ls hl, heq, label_text hl']
      have hrest : text ls = text ls' := by rw [← @parent_text l ls hl, heq, parent_text hl']
      rw [hfirst, ih (fun l hl => hls l (mem_cons_of_mem _ hl)) (fun l hl => hls' l (mem_cons_of_mem _ hl)) hrest]

theorem nul_mem_text : 0 ∈ text ls ↔ ∃ l ∈ ls, 0 ∈ l := by
  induction ls with
  | nil => simp [text]
  | cons l ls ih =>
    have hdot : (0 : UInt8) ≠ dot := by decide
    unfold text
    split
    · rename_i hls
      simp [hls]
    · simp [hdot, ih]

theorem nul_notMem_text (hls : ∀ l ∈ ls, IsLabel l) : (0 : UInt8) ∉ text ls := fun hmem => by
  obtain ⟨l, hl, h0⟩ := nul_mem_text.1 hmem
  exact (hls l hl).noNul h0

/-! ## Spelling -/

def pointerTo (off : Nat) : List UInt8 := [UInt8.ofNat (off >>> 8) ||| 0xc0, UInt8.ofNat off]

/-- At `p` the labels are spelled, through `k` pointers; the bytes there end at `e`. -/
inductive Spells (msg : List UInt8) : Nat → List Str → Nat → Nat → Prop
  | root {p : Nat} : (msg.drop p).take 1 = [0] → Spells msg p [] 0 (p + 1)
  | label {p : Nat} {l : Str} {ls : List Str} {k e : Nat} : (msg.drop p).take (l.length + 1) = UInt8.ofNat l.length :: l →
      IsLabel l → Spells msg (p + 1 + l.length) ls k e → Spells msg p (l :: ls) k e
  | pointer {p off : Nat} {ls : List Str} {k e : Nat} : (msg.drop p).take 2 = pointerTo off → off < 2 ^ 14 → ls ≠ [] →
      Spells msg off ls k e → Spells msg p ls (k + 1) (p + 2)

theorem take_append_some {xs ys : List UInt8} {n : Nat} (h : (xs.drop p).take n = ys) (hn : ys.length = n) (zs : List UInt8) :
    ((xs ++ zs).drop p).take n = ys := by
  rcases Nat.eq_zero_or_pos n with rfl | hpos
  · exact (length_eq_zero_iff.1 hn).symm
  have hlen : n ≤ (xs.drop p).length := by
    rw [← h, length_take] at hn
    omega
  have hp : p ≤ xs.length := by
    rw [length_drop] at hlen
    omega
  rw [drop_append_of_le_length hp, take_append_of_le_length hlen, h]

theorem Spells.append (h : Spells msg p ls k e) (rest : List UInt8) : Spells (msg ++ rest) p ls k e := by
  induction h with
  | root hroot => exact .root (take_append_some hroot rfl rest)
  | label hbytes hl _ ih => exact .label (take_append_some hbytes (by rw [length_cons]) rest) hl ih
  | pointer hbytes hoff hne _ ih => exact .pointer (take_append_some hbytes rfl rest) hoff hne ih

theorem Spells.good (h : Spells msg p ls k e) : ∀ l ∈ ls, IsLabel l := by
  induction h with
  | root => exact fun l hl => nomatch hl
  | label _ hl _ ih =>
    intro l' hl'
    rcases mem_cons.1 hl' with rfl | hl'
    · exact hl
    · exact ih l' hl'
  | pointer _ _ _ _ ih => exact ih

/-! ## Reading -/

theorem bytesAt_of {n : Nat} {bs : List UInt8} (h : (msg.drop p).take n = bs) (hn : bs.length = n) (hpos : 0 < n) :
    bytesAt msg p n = some bs ∧ p + n ≤ msg.length := by
  have hle : p + n ≤ msg.length := by
    rw [← h, length_take, length_drop] at hn
    omega
  unfold bytesAt
  rw [if_pos hle, h]
  exact ⟨rfl, hle⟩

theorem beNat_singleton (b : UInt8) : beNat [b] = b.toNat := by
  unfold beNat
  rw [reverse_singleton, Bytes.leNat, Bytes.leNat, Nat.mul_zero, Nat.add_zero]

theorem moreName_of {b : UInt8} (h : (msg.drop p).take 1 = [b]) : moreName msg p = some (decide (b.toNat ≠ 0)) := by
  obtain ⟨hbytes, _⟩ := bytesAt_of h rfl Nat.one_pos
  unfold moreName
  rw [if_pos (by omega), hbytes, map_some, beNat_singleton]

theorem toNat_pointerTo {off : Nat} (hoff : off < 2 ^ 14) : (UInt8.ofNat (off >>> 8) ||| 0xc0).toNat = 192 + off / 256 := by
  have hsmall : off / 256 < 2 ^ 6 := by omega
  rw [UInt8.toNat_or, UInt8.toNat_ofNat', Nat.shiftRight_eq_div_pow, Nat.mod_eq_of_lt (by omega)]
  have hor := Nat.two_pow_add_eq_or_of_lt hsmall 3
  have hlit : (0xc0 : UInt8).toNat = 2 ^ 6 * 3 := rfl
  rw [hlit, Nat.or_comm, ← hor]

theorem beNat_pointerTo {off : Nat} (hoff : off < 2 ^ 14) : beNat (pointerTo off) % 2 ^ 14 = off := by
  unfold pointerTo beNat
  rw [reverse_cons, reverse_singleton, singleton_append, Bytes.leNat, Bytes.leNat, Bytes.leNat, toNat_pointerTo hoff,
    UInt8.toNat_ofNat']
  omega

theorem Spells.first (h : Spells msg p ls k e) : ∃ b : UInt8, (msg.drop p).take 1 = [b] ∧ (b = 0 ↔ ls = []) := by
  have htake : ∀ {n : Nat} {b : UInt8} {bs : List UInt8}, (msg.drop p).take (n + 1) = b :: bs → (msg.drop p).take 1 = [b] := by
    intro n b bs heq
    have hone := congrArg (take 1) heq
    rw [take_take, Nat.min_eq_left (by omega)] at hone
    exact hone
  cases h with
  | root hroot => exact ⟨0, hroot, by simp⟩
  | @label _ l _ _ _ hbytes hl _ =>
    refine ⟨_, htake hbytes, ?_⟩
    have hpos := hl.pos
    have hshort := hl.short
    have hne : UInt8.ofNat l.length ≠ 0 := fun heq => by
      have hnat := congrArg UInt8.toNat heq
      rw [UInt8.toNat_ofNat', Nat.mod_eq_of_lt (by omega)] at hnat
      exact absurd hnat (by
        change l.length ≠ 0
        omega)
    simp [hne]
  | @pointer _ off _ _ _ hbytes hoff hne _ =>
    refine ⟨_, htake hbytes, ?_⟩
    have hnz : UInt8.ofNat (off >>> 8) ||| 0xc0 ≠ 0 := fun heq => by
      have hnat := congrArg UInt8.toNat heq
      rw [toNat_pointerTo hoff] at hnat
      exact absurd hnat (by
        change 192 + off / 256 ≠ 0
        omega)
    simp [hnz, hne]

theorem Spells.more (h : Spells msg p ls k e) : moreName msg p = some (decide (ls ≠ [])) ∧ p < msg.length := by
  obtain ⟨b, hb, hiff⟩ := h.first
  have hle := (bytesAt_of hb rfl Nat.one_pos).2
  rw [moreName_of hb]
  refine ⟨?_, by omega⟩
  congr 1
  rw [decide_eq_decide, not_iff_not, ← hiff]
  exact ⟨fun h0 => UInt8.toNat_inj.1 h0, fun h0 => by rw [h0]; rfl⟩

theorem Spells.lt (h : Spells msg p ls k e) : p < e ∧ e ≤ msg.length := by
  induction h with
  | root hroot =>
    have := (bytesAt_of hroot rfl Nat.one_pos).2
    omega
  | label _ _ _ ih => omega
  | pointer hbytes _ _ _ _ =>
    have := (bytesAt_of hbytes rfl Nat.two_pos).2
    omega

/-! ## `gname` -/

variable {sp : Scan} {turns len pointer : Nat} {dst : Str}

theorem putName_of {bs : Str} (h : dst.length + bs.length ≤ domlen + 1) : putName dst bs = some (dst ++ bs) := if_pos h

theorem gnameLoop_root (h : (msg.drop p).take 1 = [0]) (hshort : dst.length ≤ domlen) :
    gnameLoop msg sp (turns + 1) p len pointer dst =
      some (Bytes.cstr dst, { sp with p := sp.p + if pointer = 0 then len + 1 else len + 2 }) := by
  have hle := (bytesAt_of h rfl Nat.one_pos).2
  unfold gnameLoop
  rw [moreName_of h]
  have hput : putName dst [0] = some (dst ++ [0]) := putName_of (Nat.add_le_add_right hshort 1)
  simp [hput, show ¬ msg.length ≤ p by omega]

theorem gnameLoop_label (hbytes : (msg.drop p).take (l.length + 1) = UInt8.ofNat l.length :: l) (hl : IsLabel l)
    (hrest : Spells msg (p + 1 + l.length) ls k e) (hlen : len ≤ dst.length) (hshort : dst.length + (text (l :: ls)).length ≤ 253) :
    gnameLoop msg sp (turns + 1) p len pointer dst =
      gnameLoop msg sp turns (p + 1 + l.length) (if pointer = 0 then len + l.length + 1 else len) pointer
        (if ls = [] then dst ++ l else dst ++ l ++ [dot]) := by
  have hpos := hl.pos
  have hl63 := hl.short
  have hspells : Spells msg p (l :: ls) k e := .label hbytes hl hrest
  obtain ⟨_, _⟩ := bytesAt_of hbytes rfl (Nat.succ_pos _)
  have hone : (msg.drop p).take 1 = [UInt8.ofNat l.length] := by
    have htake := congrArg (take 1) hbytes
    rw [take_take, Nat.min_eq_left (by omega)] at htake
    exact htake
  have hbyte : bytesAt msg p 1 = some [UInt8.ofNat l.length] := (bytesAt_of hone rfl Nat.one_pos).1
  have hnat : beNat [UInt8.ofNat l.length] = l.length := by
    rw [beNat_singleton, UInt8.toNat_ofNat', Nat.mod_eq_of_lt (by omega)]
  have hlabel : bytesAt msg (p + 1) l.length = some l := by
    refine (bytesAt_of ?_ rfl hpos).1
    have hdrop := congrArg (drop 1) hbytes
    rw [drop_take, drop_drop, Nat.add_sub_cancel] at hdrop
    exact hdrop
  have htext : dst.length + l.length ≤ 253 := by
    rw [length_text_cons] at hshort
    omega
  rw [gnameLoop, hspells.more.1, bind_some, if_pos (by simp), hbyte, bind_some]
  have hdiv : beNat [UInt8.ofNat l.length] / 64 = 0 := by omega
  have hmod : beNat [UInt8.ofNat l.length] % 64 = l.length := by omega
  simp only [hdiv, hmod]
  have hremain : ¬ remain msg (p + 1) < (l.length : Nat) := by
    unfold remain
    omega
  have hfits : ¬ (len + l.length < domlen - 1 ∧ (l.length : Int) > domlen - dst.length) := by
    unfold domlen
    omega
  have hcopied : len + l.length < domlen - 1 := by
    unfold domlen
    omega
  have hput : putName dst l = some (dst ++ l) := putName_of (by unfold domlen; omega)
  rw [if_neg hremain, if_neg hfits, if_pos hcopied, hlabel, bind_some, hput, bind_some, hrest.more.1, bind_some,
    Nat.add_assoc len]
  by_cases hls : ls = []
  · rw [if_pos hls, if_neg (by simpa using hls)]
  have hroom : ¬ (dst ++ l).length ≥ domlen := by
    rw [length_append]
    unfold domlen
    omega
  have hdot : putName (dst ++ l) [46] = some (dst ++ l ++ [dot]) := putName_of (by
    change _ + 1 ≤ _
    omega)
  rw [if_neg hls, if_pos (by simpa using hls), if_neg hroom, hdot, bind_some]

theorem gnameLoop_pointer {off : Nat} (hbytes : (msg.drop p).take 2 = pointerTo off) (hoff : off < 2 ^ 14)
    (hrest : Spells msg off ls k e) (hls : ls ≠ []) : gnameLoop msg sp (turns + 1) p len pointer dst =
      if pointer > 10 then some ([], { sp with err := some (.text "pointer loop") })
      else gnameLoop msg sp turns off len (pointer + 1) dst := by
  have hspells : Spells msg p ls (k + 1) (p + 2) := .pointer hbytes hoff hls hrest
  obtain ⟨htwo, _⟩ := bytesAt_of hbytes rfl Nat.two_pos
  have hone : (msg.drop p).take 1 = [UInt8.ofNat (off >>> 8) ||| 0xc0] := by
    have htake := congrArg (take 1) hbytes
    rw [take_take] at htake
    exact htake
  have hbyte := (bytesAt_of hone rfl Nat.one_pos).1
  have hdiv : beNat [UInt8.ofNat (off >>> 8) ||| 0xc0] / 64 = 3 := by
    rw [beNat_singleton, toNat_pointerTo hoff]
    omega
  have hremain : ¬ remain msg p < 2 := by
    unfold remain
    omega
  have hback : ¬ off ≥ msg.length := Nat.not_le.2 (Nat.lt_of_lt_of_le hrest.lt.1 hrest.lt.2)
  rw [gnameLoop, hspells.more.1, bind_some, if_pos (by simpa using hls), hbyte, bind_some]
  simp only [hdiv]
  rw [if_neg hremain, htwo, bind_some, beNat_pointerTo hoff, if_neg hback]

/-- Turns that are enough: more segments, or the rest of this one. -/
def enough (msg : List UInt8) (p pointer : Nat) : Nat := (11 - pointer) * (msg.length + 2) + (msg.length + 1 - p)

theorem enough_label {n : Nat} (hp : p < msg.length) : enough msg (p + 1 + n) pointer < enough msg p pointer := by
  unfold enough
  omega

theorem enough_pointer {off : Nat} (hpointer : pointer ≤ 10) : enough msg off (pointer + 1) < enough msg p pointer := by
  unfold enough
  have hsub : 11 - pointer = 11 - (pointer + 1) + 1 := by omega
  rw [hsub, Nat.add_mul, Nat.one_mul]
  omega

/-- What is spelled is read, but more than 11 pointers are taken for a loop. -/
theorem gnameLoop_spells (h : Spells msg p ls k e) (hturns : enough msg p pointer < turns) (hlen : ls ≠ [] → len ≤ dst.length)
    (hshort : dst.length + (text ls).length ≤ 253) (hpointer : pointer ≤ 11) :
    gnameLoop msg sp turns p len pointer dst =
      if pointer + k ≤ 11 then
        some (Bytes.cstr (dst ++ text ls), { sp with p := sp.p + if pointer = 0 then len + (e - p) else len + 2 })
      else some ([], { sp with err := some (.text "pointer loop") }) := by
  induction h generalizing turns len pointer dst with
  | @root p hroot =>
    obtain ⟨turns, rfl⟩ := Nat.exists_eq_succ_of_ne_zero (Nat.ne_of_gt (Nat.lt_of_le_of_lt (Nat.zero_le _) hturns))
    rw [gnameLoop_root hroot (by unfold domlen; omega), if_pos (show pointer + 0 ≤ 11 from hpointer), text, append_nil, Nat.add_sub_cancel_left]
  | @label p l ls k e hbytes hl hrest ih =>
    obtain ⟨turns, rfl⟩ := Nat.exists_eq_succ_of_ne_zero (Nat.ne_of_gt (Nat.lt_of_le_of_lt (Nat.zero_le _) hturns))
    have hspells : Spells msg p (l :: ls) k e := .label hbytes hl hrest
    have hlen' := hlen (cons_ne_nil _ _)
    have hdec : enough msg (p + 1 + l.length) pointer < enough msg p pointer := enough_label hspells.more.2
    have hlt := hrest.lt
    have htext := @length_text_cons l ls
    rw [gnameLoop_label hbytes hl hrest hlen' hshort]
    have hstep := @ih turns (if pointer = 0 then len + l.length + 1 else len) pointer
      (if ls = [] then dst ++ l else dst ++ l ++ [dot]) (by omega) (fun hls => ?_) ?_ hpointer
    · rw [hstep]
      have hname : (if ls = [] then dst ++ l else dst ++ l ++ [dot]) ++ text ls = dst ++ text (l :: ls) := by
        by_cases hls : ls = []
        · subst hls
          simp [text]
        · rw [if_neg hls, text, if_neg hls]
          simp
      have hnext : (if pointer = 0 then (if pointer = 0 then len + l.length + 1 else len) + (e - (p + 1 + l.length))
          else (if pointer = 0 then len + l.length + 1 else len) + 2) = if pointer = 0 then len + (e - p) else len + 2 := by
        split <;> omega
      rw [hname, hnext]
    · rw [if_neg hls, length_append, length_append, length_singleton]
      split <;> omega
    by_cases hls : ls = []
    · subst hls
      rw [if_pos rfl, length_append]
      have hnil : (text []).length = 0 := rfl
      omega
    · rw [if_neg hls, length_append, length_append, length_singleton]
      rw [if_neg hls] at htext
      omega
  | @pointer p off ls k e hbytes hoff hls hrest ih =>
    obtain ⟨turns, rfl⟩ := Nat.exists_eq_succ_of_ne_zero (Nat.ne_of_gt (Nat.lt_of_le_of_lt (Nat.zero_le _) hturns))
    rw [gnameLoop_pointer hbytes hoff hrest hls]
    by_cases hmax : pointer > 10
    · rw [if_pos hmax, if_neg (by omega)]
    have hdec : enough msg off (pointer + 1) < enough msg p pointer := enough_pointer (by omega)
    rw [if_neg hmax, @ih turns len (pointer + 1) dst (by omega) hlen hshort (by omega), if_neg (Nat.succ_ne_zero _),
      Nat.add_sub_cancel_left, Nat.add_right_comm, ite_self]
    rfl

end Plan9.Ndb
