/-
The directory-entry codec. `statcheck` and `convM2D` walk the same layout
(`statcheck_iff`), `convD2M` writes it (`convD2M_wire`), and `dirpackage`
returns the entries of a buffer made of encodings (`dirpackage_wire`) and
refuses a buffer that is not made of valid entries (`dirpackage_reject`).

The strings of all the entries share one area, an entry's beginning as far into
it as the entry is into the buffer; what `convStats_wire` carries through the
loop is that the area below the next entry is not written again.
-/
import Plan9.Libc.Dir
import Plan9.Libc.FcallFacts

namespace Plan9.Libc

open Bytes Cursor List

/-! ## The two walkers -/

theorem skipStrs_past {buf : List UInt8} {e p q : Nat} (hp : e < p) :
    ∀ {n : Nat}, skipStrs buf e n p = some q → e < q
  | 0, h => by
    simp only [skipStrs, Option.some.injEq] at h
    omega
  | n + 1, h => by
    simp only [skipStrs, BIT16SZ, show p + 2 > e by omega, if_true, reduceCtorEq] at h

/-- `convM2D` stops at `q` exactly when `statcheck` does, if that is not past the end. -/
theorem getStrs_iff_skipStrs {buf : List UInt8} {e q : Nat} : ∀ (n p : Nat) (sv : List StrPtr) (strs : Option Cur),
    p ≤ e → ((getStrs buf e n p sv strs).1 = some q ↔ skipStrs buf e n p = some q ∧ q ≤ e) := by
  intro n
  induction n with
  | zero =>
    intro p sv strs hp
    simp only [getStrs, skipStrs, Option.some.injEq, iff_self_and]
    omega
  | succ n ih =>
    intro p sv strs hp
    unfold getStrs skipStrs
    by_cases hcount : p + BIT16SZ > e
    · simp [hcount]
    simp only [hcount, if_false]
    by_cases hstr : p + BIT16SZ + GBIT16 buf p > e
    · simp only [hstr, if_true, reduceCtorEq, false_iff, not_and]
      intro hskip
      have := skipStrs_past (by omega) hskip
      omega
    simp only [hstr, if_false]
    rw [← Nat.add_assoc]
    cases strs with
    | none => exact ih _ _ _ (by omega)
    | some c => exact ih _ _ _ (by omega)

theorem convM2D_count {buf : List UInt8} {n : Nat} (hn : STATFIXLEN ≤ n) (d : Dir StrPtr) (strs : Option Cur) :
    (convM2D buf n d strs).1 = (getStrs buf n 4 (STATFIXLEN - 4 * BIT16SZ) [] strs).1.getD 0 := by
  simp only [convM2D, show ¬ n < STATFIXLEN by omega, if_false]
  rcases getStrs buf n 4 (STATFIXLEN - 4 * BIT16SZ) [] strs with ⟨_ | p, sv, _ | c⟩ <;> rfl

/-- **A buffer passes `statcheck` exactly when** it has room for the fixed part, its count is of the
rest, and `convM2D` uses it up. -/
theorem statcheck_iff (buf : List UInt8) (n : Nat) (d : Dir StrPtr) (strs : Option Cur) :
    statcheck buf n = 0 ↔
      STATFIXLEN ≤ n ∧ GBIT16 buf 0 = n - BIT16SZ ∧ (convM2D buf n d strs).1 = n := by
  by_cases hfix : n < STATFIXLEN
  · simp only [statcheck, hfix, true_or, if_true, show ¬ STATFIXLEN ≤ n by omega, false_and, iff_false]
    decide
  have hpos : STATFIXLEN = 49 := rfl
  have htwo : BIT16SZ = 2 := rfl
  by_cases hsize : n = BIT16SZ + GBIT16 buf 0
  · have hwalk := @getStrs_iff_skipStrs buf n n 4 (STATFIXLEN - 4 * BIT16SZ) [] strs (by omega)
    have hget : (convM2D buf n d strs).1 = n ↔
        (getStrs buf n 4 (STATFIXLEN - 4 * BIT16SZ) [] strs).1 = some n := by
      rw [convM2D_count (by omega)]
      cases (getStrs buf n 4 (STATFIXLEN - 4 * BIT16SZ) [] strs).1 with
      | none => simp only [Option.getD_none, reduceCtorEq, iff_false]; omega
      | some p => simp
    have hhead : ¬ (n < STATFIXLEN ∨ n ≠ BIT16SZ + GBIT16 buf 0) := by omega
    rw [hget, hwalk, statcheck, if_neg hhead]
    simp only [show STATFIXLEN ≤ n by omega, show GBIT16 buf 0 = n - BIT16SZ by omega, true_and, le_refl,
      and_true]
    cases skipStrs buf n 4 (STATFIXLEN - 4 * BIT16SZ) with
    | none => simp
    | some p => by_cases hp : p = n <;> simp [hp]
  · simp only [statcheck, hsize, ne_eq, not_false_eq_true, or_true, if_true,
      show ¬ GBIT16 buf 0 = n - BIT16SZ by omega, false_and, and_false, iff_false]
    decide

theorem statcheck_fails {buf : List UInt8} {n : Nat} (h : statcheck buf n ≠ 0) : statcheck buf n < 0 := by
  unfold statcheck at h ⊢
  split
  · decide
  split
  · decide
  · split
    · decide
    · simp_all

/-! ## What is past the end is not looked at -/

theorem GBIT16_left {xs : List UInt8} {p : Nat} (h : p + 2 ≤ xs.length) (post : List UInt8) :
    GBIT16 (xs ++ post) p = GBIT16 xs p := by
  simp only [GBIT16, byteAt, getD_eq_getElem?_getD]
  rw [getElem?_append_left (by omega), getElem?_append_left (by omega)]

theorem skipStrs_left {xs : List UInt8} (post : List UInt8) : ∀ (n p : Nat),
    skipStrs (xs ++ post) xs.length n p = skipStrs xs xs.length n p
  | 0, _ => rfl
  | n + 1, p => by
    unfold skipStrs
    by_cases hp : p + BIT16SZ > xs.length
    · simp [hp]
    · simp only [hp, if_false]
      rw [GBIT16_left (by simp only [BIT16SZ] at hp; omega), skipStrs_left post n]

theorem statcheck_left (xs post : List UInt8) :
    statcheck (xs ++ post) xs.length = statcheck xs xs.length := by
  by_cases hfix : xs.length < STATFIXLEN
  · simp [statcheck, hfix]
  · have : STATFIXLEN = 49 := rfl
    simp only [statcheck]
    rw [GBIT16_left (by omega), skipStrs_left]

/-! ## The wire -/

/-- The fields before the strings. -/
def Dir.fixed {P : Type} (d : Dir P) : List UInt8 :=
  wire16 d.type ++ (wire32 d.dev ++ (wire8 d.qid.type ++ (wire32 d.qid.vers ++ (wire64 d.qid.path ++
    (wire32 d.mode ++ (wire32 d.atime ++ (wire32 d.mtime ++ wire64 d.length)))))))

@[simp] theorem length_fixed {P : Type} (d : Dir P) : d.fixed.length = 39 := by simp [Dir.fixed]

/-- The count, which excludes itself. -/
def Dir.size (d : Dir (List UInt8)) : Nat := 39 + (d.sv.flatMap wireStr).length

def Dir.wire (d : Dir (List UInt8)) : List UInt8 :=
  leBytes 2 d.size ++ (d.fixed ++ d.sv.flatMap wireStr)

theorem length_dirWire (d : Dir (List UInt8)) : d.wire.length = 2 + d.size := by
  simp [Dir.wire, Dir.size]

theorem fixlen_le_wire (d : Dir (List UInt8)) : STATFIXLEN ≤ d.wire.length := by
  have : STATFIXLEN = 49 := rfl
  rw [length_dirWire]
  simp [Dir.size, Dir.sv]
  omega

theorem size_take (d : Dir (List UInt8)) (h : d.size < 2 ^ 16) (post : List UInt8) :
    GBIT16 (d.wire ++ post) 0 = d.size := by
  have hsz := GBIT16_at [] (d.fixed ++ d.sv.flatMap wireStr ++ post) (length_leBytes 2 d.size)
  rw [leNat_leBytes, Nat.mod_eq_of_lt (by simpa using h)] at hsz
  simpa [Dir.wire] using hsz

/-! ## convD2M -/

theorem nsv_eq (s : Ptr) : nsv s = (str s).length := by
  cases s with
  | none => rfl
  | some s => rfl

theorem take_nsv (s : Ptr) : (s.getD []).take (nsv s) = str s := by
  cases s with
  | none => rfl
  | some s => exact (prefix_iff_eq_take.mp ( takeWhile_prefix _)).symm

theorem sum_nsv (sv : List Ptr) : ((sv.map str).flatMap wireStr).length = 2 * sv.length + (sv.map nsv).sum := by
  induction sv with
  | nil => rfl
  | cons s sv ih =>
    simp only [map_cons, flatMap_cons, length_append, ih, length_wireStr, sum_cons, nsv_eq,
      length_cons]
    omega

theorem sv_map {P Q : Type} (f : P → Q) (d : Dir P) : (d.map f).sv = d.sv.map f := rfl

theorem sizeD2M_eq (d : Dir Ptr) : sizeD2M d = 2 + (d.map str).size := by
  have : STATFIXLEN = 49 := rfl
  simp only [sizeD2M, Dir.size, sv_map, sum_nsv]
  simp only [Dir.sv, length_cons, length_nil]
  omega

theorem putStr_eq (c : Cur) (s : Ptr) : putStr c s = c.put (wireStr (str s)) := by
  have hlen := nsv_eq s
  unfold putStr
  by_cases hs : nsv s = 0
  · have hnil : str s = [] := length_eq_zero_iff.mp (by rw [← hlen, hs])
    simp [hs, hnil, wireStr, PBIT16_eq]
  · simp only [if_pos hs, take_nsv]
    simp [hlen, PBIT16_eq, Cur.put, wireStr, store_append, Nat.add_assoc]

theorem putStrs_eq {ebuf : Nat} : ∀ (sv : List Ptr) (c : Cur),
    c.p + ((sv.map str).flatMap wireStr).length ≤ ebuf →
    putStrs ebuf sv c = (true, c.put ((sv.map str).flatMap wireStr))
  | [], c, _ => by simp [putStrs]
  | s :: sv, c, h => by
    simp only [map_cons, flatMap_cons, length_append, length_wireStr] at h
    have hroom : ¬ c.p + nsv s + BIT16SZ > ebuf := by rw [nsv_eq]; simp only [BIT16SZ]; omega
    unfold putStrs
    rw [if_neg hroom, putStr_eq, putStrs_eq sv]
    · simp
    · simp only [Cur.put_p, length_wireStr]; omega

/-- **`convD2M` writes the entry's encoding**, and nothing after it. -/
theorem convD2M_wire {d : Dir Ptr} {buf : List UInt8} {nbuf : Nat} (hn : sizeD2M d ≤ nbuf)
    (hbuf : nbuf ≤ buf.length) :
    convD2M d buf nbuf = (sizeD2M d, (d.map str).wire ++ buf.drop (sizeD2M d)) := by
  have hlen := length_dirWire (d.map str)
  rw [← sizeD2M_eq] at hlen
  have hsize : sizeD2M d - 2 = (d.map str).size := by rw [sizeD2M_eq]; omega
  have hle : 39 + ((d.sv.map str).flatMap wireStr).length = (d.map str).size := by simp [Dir.size, sv_map]
  have hwire : leBytes 2 (d.map str).size ++ (d.fixed ++ (d.sv.map str).flatMap wireStr) = (d.map str).wire := rfl
  have hcur : ((⟨buf, 0⟩ : Cur).put (leBytes 2 (d.map str).size ++ d.fixed)).put ((d.sv.map str).flatMap wireStr) =
      (⟨buf, 0⟩ : Cur).put (d.map str).wire := by
    rw [Cur.put_put, append_assoc, hwire]
  have hstrs := @putStrs_eq nbuf d.sv ((⟨buf, 0⟩ : Cur).put (leBytes 2 (d.map str).size ++ d.fixed))
    (by simp only [Cur.put_p, length_append, length_leBytes, length_fixed]; omega)
  rw [hcur] at hstrs
  have hss : STATFIXLEN + (d.sv.map nsv).sum = sizeD2M d := rfl
  have htwo : BIT16SZ = 2 := rfl
  simp only [convD2M, hss, htwo, show ¬ nbuf < 2 by have := sizeD2M_eq d; omega, if_false,
    show ¬ sizeD2M d > nbuf by omega, hsize, PBIT8_eq, PBIT16_eq, PBIT32_eq, PBIT64_eq, Cur.put_put,
    append_assoc]
  have hfixed : (leBytes 2 (d.map str).size ++ (leBytes 2 d.type.toNat ++ (leBytes 4 d.dev.toNat ++
      (leBytes 1 d.qid.type.toNat ++ (leBytes 4 d.qid.vers.toNat ++ (leBytes 8 d.qid.path.toNat ++
      (leBytes 4 d.mode.toNat ++ (leBytes 4 d.atime.toNat ++ (leBytes 4 d.mtime.toNat ++
      leBytes 8 d.length.toNat))))))))) = leBytes 2 (d.map str).size ++ d.fixed := rfl
  rw [hfixed, hstrs]
  simp only [hlen, Nat.zero_add, ne_eq, not_true_eq_false, if_false, Cur.put, Prod.mk.injEq, true_and]
  rw [store_eq (by omega), hlen]
  simp

theorem stat_eq (d : Dir Ptr) : d.stat = (d.map str).wire := by
  rw [Dir.stat, convD2M_wire (le_refl _) (by simp)]
  simp

/-! ## convM2D -/

/-- `getFixed` as a reader. -/
def readFixed {P : Type} (d : Dir P) : Get (Dir P) := do
  let type ← g16
  let dev ← g32
  let qtype ← g8
  let vers ← g32
  let path ← g64
  let mode ← g32
  let atime ← g32
  let mtime ← g32
  let length ← g64
  return { d with type, dev, qid := { type := qtype, vers, path }, mode, atime, mtime, length }

theorem readFixed_eq {P : Type} (buf : List UInt8) (d : Dir P) :
    readFixed d ⟨buf, 2⟩ = some (getFixed buf d, ⟨buf, 41⟩) := rfl

/-- The fields of `d` before the strings, over those of `d₀`. -/
def Dir.over {P Q : Type} (d : Dir P) (d₀ : Dir Q) : Dir Q :=
  { d₀ with type := d.type, dev := d.dev, qid := d.qid, mode := d.mode, atime := d.atime, mtime := d.mtime,
            length := d.length }

theorem runs_readFixed {P Q : Type} (k ep : Nat) (d : Dir P) (d₀ : Dir Q) :
    Runs k ep (readFixed d₀) d.fixed (d.over d₀) d.fixed :=
  (runs_g16 d.type).bind ((runs_g32 d.dev).bind ((runs_g8 d.qid.type).bind ((runs_g32 d.qid.vers).bind
    ((runs_g64 d.qid.path).bind ((runs_g32 d.mode).bind ((runs_g32 d.atime).bind ((runs_g32 d.mtime).bind
    (runs_g64 d.length).map)))))))

theorem getFixed_wire {P Q : Type} (d : Dir P) (d₀ : Dir Q) {sz : List UInt8} (hsz : sz.length = 2)
    (post : List UInt8) : getFixed (sz ++ (d.fixed ++ post)) d₀ = d.over d₀ := by
  have h := (runs_readFixed 2 41 d d₀).run sz post hsz (by simp)
  rw [readFixed_eq] at h
  simp only [Option.some.injEq, Prod.mk.injEq] at h
  exact h.1

/-- The strings as `convM2D` leaves them in the area: one after another, each ended by a zero. -/
def packed (ss : List (List UInt8)) : List UInt8 := ss.flatMap (· ++ [0])

/-- Where they are when the first is at `k`. -/
def offsets : Nat → List (List UInt8) → List StrPtr
  | _, [] => []
  | k, s :: ss => .strs k :: offsets (k + s.length + 1) ss

theorem getStrs_wire {ebuf : Nat} (post : List UInt8) : ∀ (ss : List (List UInt8)) (pre : List UInt8)
    (sv : List StrPtr) (c : Cur), (∀ s ∈ ss, s.length < 2 ^ 16) → pre.length + (ss.flatMap wireStr).length ≤ ebuf →
    getStrs (pre ++ (ss.flatMap wireStr ++ post)) ebuf ss.length pre.length sv (some c) =
      (some (pre.length + (ss.flatMap wireStr).length), sv ++ offsets c.p ss, some (c.put (packed ss)))
  | [], pre, sv, c, _, _ => by simp [getStrs, offsets, packed]
  | s :: ss, pre, sv, c, hss, he => by
    have hs := hss s (by simp)
    have hcount : GBIT16 (pre ++ ((s :: ss).flatMap wireStr ++ post)) pre.length = s.length := by
      have h := GBIT16_at pre (s ++ (ss.flatMap wireStr ++ post)) (length_leBytes 2 s.length)
      rw [leNat_leBytes, Nat.mod_eq_of_lt (by simpa using hs)] at h
      simpa [wireStr] using h
    have hload : load (pre ++ ((s :: ss).flatMap wireStr ++ post)) (pre.length + 2) s.length = s := by
      have h := load_mid (pre ++ leBytes 2 s.length) s (ss.flatMap wireStr ++ post)
      simpa [wireStr] using h
    have hmove : (⟨store (store c.buf c.p s) (c.p + s.length) [0], c.p + s.length + 1⟩ : Cur) =
        c.put (s ++ [0]) := by
      simp [Cur.put, store_append, Nat.add_assoc]
    have ih := @getStrs_wire ebuf post ss (pre ++ wireStr s) (sv ++ [.strs c.p]) (c.put (s ++ [0]))
      (fun t ht => hss t (by simp [ht])) (by simp at he ⊢; omega)
    simp only [flatMap_cons, length_append, length_wireStr] at he
    simp only [length_cons, getStrs, hcount, hload, BIT16SZ,
      show ¬ pre.length + 2 > ebuf by omega, show ¬ pre.length + 2 + s.length > ebuf by omega, if_false, hmove]
    rw [flatMap_cons, append_assoc, ← append_assoc pre,
      show pre.length + 2 + s.length = (pre ++ wireStr s).length by simp; omega, ih]
    simp [offsets, packed, Cur.put_p, Nat.add_assoc]

/-- The entry `d` with its strings placed from `k` on. -/
def Dir.placed (d : Dir (List UInt8)) (k : Nat) : Dir StrPtr :=
  let uid := k + d.name.length + 1
  let gid := uid + d.uid.length + 1
  let muid := gid + d.gid.length + 1
  d.over ⟨0, 0, default, 0, 0, 0, 0, .strs k, .strs uid, .strs gid, .strs muid⟩

/-- **`convM2D` reads back an entry's encoding**, its strings packed into the area at `strs`. -/
theorem convM2D_wire {d : Dir (List UInt8)} (hd : d.size < 2 ^ 16) (post : List UInt8) (d₀ : Dir StrPtr) (c : Cur) :
    convM2D (d.wire ++ post) d.wire.length d₀ (some c) =
      (d.wire.length, d.placed c.p, some (c.put (packed d.sv))) := by
  have hfix := fixlen_le_wire d
  have hlen := length_dirWire d
  have hshort : ∀ s ∈ d.sv, s.length < 2 ^ 16 := by
    intro s hs
    simp only [Dir.sv, mem_cons, not_mem_nil, or_false] at hs
    simp only [Dir.size, Dir.sv, flatMap_cons, length_append, length_wireStr] at hd
    rcases hs with rfl | rfl | rfl | rfl <;> omega
  have hstrs := @getStrs_wire d.wire.length post d.sv (leBytes 2 d.size ++ d.fixed) [] c hshort
    (by simp [Dir.size] at hlen ⊢; omega)
  have hpos : (leBytes 2 d.size ++ d.fixed).length = STATFIXLEN - 4 * BIT16SZ := by simp; rfl
  have hend : STATFIXLEN - 4 * BIT16SZ + (d.sv.flatMap wireStr).length = d.wire.length := by
    rw [hlen, ← hpos]; simp [Dir.size]; omega
  rw [hpos, hend] at hstrs
  have hbuf : d.wire ++ post = leBytes 2 d.size ++ d.fixed ++ (d.sv.flatMap wireStr ++ post) := by
    simp [Dir.wire]
  have hfixed : getFixed (d.wire ++ post) d₀ = d.over d₀ := by
    have h := getFixed_wire d d₀ (length_leBytes 2 d.size) (d.sv.flatMap wireStr ++ post)
    rw [hbuf, append_assoc]; exact h
  rw [← hbuf] at hstrs
  simp only [convM2D, show ¬ d.wire.length < STATFIXLEN by omega, if_false, hfixed]
  rw [show d.sv.length = 4 from rfl] at hstrs
  rw [hstrs]
  rfl

theorem get_str {s : List UInt8} (hs : 0 ∉ s) (k : Nat) :
    Holds k (s ++ [0]) fun area => StrPtr.get area (.strs k) = s := fun pre post hk => by
  subst hk
  simp only [StrPtr.get, drop_left]
  rw [append_assoc]
  exact cstr_of_nul hs post

theorem placed_map {d : Dir (List UInt8)} (hd : ∀ s ∈ d.sv, 0 ∉ s) (k : Nat) :
    Holds k (packed d.sv) fun area => (d.placed k).map (StrPtr.get area) = d := by
  have hname := get_str (hd d.name (by simp [Dir.sv])) k
  have huid := get_str (hd d.uid (by simp [Dir.sv])) (k + (d.name ++ [0]).length)
  have hgid := get_str (hd d.gid (by simp [Dir.sv])) (k + (d.name ++ [0]).length + (d.uid ++ [0]).length)
  have hmuid := get_str (hd d.muid (by simp [Dir.sv]))
    (k + (d.name ++ [0]).length + (d.uid ++ [0]).length + (d.gid ++ [0]).length)
  have hpack : packed d.sv = (d.name ++ [0]) ++ ((d.uid ++ [0]) ++ ((d.gid ++ [0]) ++ (d.muid ++ [0]))) := by
    simp [packed, Dir.sv]
  rw [hpack]
  intro pre post hk
  have h1 := hname.left ((d.uid ++ [0]) ++ ((d.gid ++ [0]) ++ (d.muid ++ [0]))) pre post hk
  have h2 := (huid.left ((d.gid ++ [0]) ++ (d.muid ++ [0]))).right pre post hk
  have h3 := (hgid.left (d.muid ++ [0])).right.right pre post hk
  have h4 := hmuid.right.right.right pre post hk
  simp only [length_append, length_cons, length_nil, Nat.zero_add, ← Nat.add_assoc] at h2 h3 h4
  simp only [Dir.placed, Dir.over, Dir.map, h1, h2, h3, h4]

/-! ## dirpackage on encodings -/

section

variable {d : Dir (List UInt8)} {ds : List (Dir (List UInt8))} {buf post : List UInt8}

theorem count_wire (hd : d.size < 2 ^ 16) (post : List UInt8) :
    BIT16SZ + GBIT16 (d.wire ++ post) 0 = d.wire.length := by
  rw [size_take d hd, length_dirWire]; rfl

theorem statcheck_wire (hd : d.size < 2 ^ 16) (post : List UInt8) :
    statcheck (d.wire ++ post) d.wire.length = 0 := by
  refine (statcheck_iff _ _ default (some ⟨[], 0⟩)).mpr ⟨fixlen_le_wire d, ?_, ?_⟩
  · rw [size_take d hd, length_dirWire]; simp [BIT16SZ]
  · rw [convM2D_wire hd]

theorem wire_pos (d : Dir (List UInt8)) : 0 < d.wire.length := by rw [length_dirWire]; omega

theorem drop_wire {i : Nat} (h : buf.drop i = d.wire ++ post) : buf.drop (i + d.wire.length) = post := by
  rw [← drop_drop, h, drop_left]

theorem countStats_wire (ts : Nat) : ∀ (ds : List (Dir (List UInt8))) (i n ss : Nat),
    (∀ d ∈ ds, d.size < 2 ^ 16) → buf.drop i = ds.flatMap Dir.wire ++ post →
    i + (ds.flatMap Dir.wire).length = ts →
    countStats buf ts i n ss = (ts, n + ds.length, ss + (ds.flatMap Dir.wire).length)
  | [], i, n, ss, _, _, hts => by
    unfold countStats
    simp only [flatMap_nil, length_nil, Nat.add_zero] at hts ⊢
    rw [if_neg (by omega), hts]
  | d :: ds, i, n, ss, hds, hbuf, hts => by
    have hd := hds d (by simp)
    have hpos := wire_pos d
    rw [flatMap_cons, append_assoc] at hbuf
    rw [flatMap_cons, length_append] at hts
    have ih := countStats_wire ts ds (i + d.wire.length) (n + 1) (ss + d.wire.length)
      (fun e he => hds e (by simp [he])) (drop_wire hbuf) (by omega)
    unfold countStats
    rw [if_pos (by omega), hbuf]
    simp only [count_wire hd, statcheck_wire hd, Int.lt_irrefl, if_false]
    rw [ih]
    simp only [length_cons, flatMap_cons, length_append, Prod.mk.injEq, true_and]
    omega

theorem length_packed_le (d : Dir (List UInt8)) : (packed d.sv).length ≤ d.wire.length := by
  simp [packed, Dir.sv, length_dirWire, Dir.size]
  omega

theorem take_area {area : List UInt8} {s m : Nat} {xs : List UInt8} (hx : xs.length ≤ m)
    (hs : s + m ≤ area.length) :
    ∃ gap, (store area s xs).take (s + m) = area.take s ++ (xs ++ gap) := by
  refine ⟨((area.drop (s + xs.length)).take (m - xs.length)), ?_⟩
  rw [store_eq (by omega)]
  have hlen : (area.take s).length = s := length_take_of_le (by omega)
  rw [take_append, take_append, hlen, Nat.add_sub_cancel_left, take_of_length_le (by omega),
    take_of_length_le hx]

/-- The second loop, from an entry on: it fills the rest of the Dirs, and leaves the strings of the
entries before as they are. -/
theorem convStats_wire (ts n : Nat) : ∀ (ds : List (Dir (List UInt8))) (i s : Nat) (done todo : List (Dir StrPtr))
    (area : List UInt8), (∀ d ∈ ds, d.size < 2 ^ 16) → (∀ d ∈ ds, ∀ s ∈ d.sv, 0 ∉ s) →
    buf.drop i = ds.flatMap Dir.wire ++ post → i + (ds.flatMap Dir.wire).length = ts →
    todo.length = ds.length → done.length + ds.length = n → s + (ds.flatMap Dir.wire).length ≤ area.length →
    ∃ new area', convStats buf ts n i done.length s ⟨done ++ todo, area⟩ = ((n : Int), some ⟨done ++ new, area'⟩) ∧
      area'.take s = area.take s ∧ new.map (Dir.map (StrPtr.get area')) = ds
  | [], i, s, done, todo, area, _, _, _, hts, htodo, hn, _ => by
    refine ⟨todo, area, ?_, rfl, ?_⟩
    · unfold convStats
      simp only [flatMap_nil, length_nil, Nat.add_zero] at hts hn
      rw [if_neg (by omega), hn]
    · rw [length_eq_zero_iff.mp htodo]; rfl
  | d :: ds, i, s, done, [], area, _, _, _, _, htodo, _, _ => by simp at htodo
  | d :: ds, i, s, done, u :: todo, area, hds, hnul, hbuf, hts, htodo, hn, harea => by
    have hd := hds d (by simp)
    have hpos := wire_pos d
    rw [flatMap_cons, append_assoc] at hbuf
    rw [flatMap_cons, length_append] at hts harea
    simp only [length_cons] at htodo hn
    obtain ⟨new, area', hrun, hkeep, hnew⟩ := convStats_wire ts n ds (i + d.wire.length) (s + d.wire.length)
      (done ++ [d.placed s]) todo (store area s (packed d.sv)) (fun e he => hds e (by simp [he]))
      (fun e he => hnul e (by simp [he])) (drop_wire hbuf) (by omega) (by omega) (by simp; omega)
      (by rw [length_store]; omega)
    obtain ⟨gap, hgap⟩ := @take_area area s d.wire.length (packed d.sv) (length_packed_le d) (by omega)
    rw [hgap] at hkeep
    have hlen : (area.take s).length = s := length_take_of_le (by omega)
    refine ⟨d.placed s :: new, area', ?_, ?_, ?_⟩
    · unfold convStats
      rw [if_pos (by omega), hbuf]
      simp only [count_wire hd, convM2D_wire hd, ge_iff_le, show ¬ n ≤ done.length by omega, if_false,
        ne_eq, not_true_eq_false, Option.map_some, Option.getD_some, Cur.put]
      rw [set_append_right _ _ (le_refl _), Nat.sub_self, set_cons_zero]
      simpa using hrun
    · have h := congrArg (take s) hkeep
      rw [take_take, Nat.min_eq_left (by omega), take_left' hlen] at h
      exact h
    have hsplit : area' = area.take s ++ (packed d.sv ++ (gap ++ area'.drop (s + d.wire.length))) := by
      have h := (take_append_drop (s + d.wire.length) area').symm
      rw [hkeep] at h
      simpa using h
    have hread := placed_map (hnul d (by simp)) s (area.take s) (gap ++ area'.drop (s + d.wire.length)) hlen
    rw [← hsplit] at hread
    rw [map_cons, hread, hnew]

end

/-- **`dirpackage` on a buffer of encodings returns the entries**, in order. -/
theorem dirpackage_wire {malloc : Malloc} {ds : List (Dir (List UInt8))} (hds : ∀ d ∈ ds, d.size < 2 ^ 16)
    (hnul : ∀ d ∈ ds, ∀ s ∈ d.sv, 0 ∉ s)
    (hmem : (malloc ds.length (ds.flatMap Dir.wire).length).isSome) (post : List UInt8) :
    ∃ b, dirpackage malloc (ds.flatMap Dir.wire ++ post) (ds.flatMap Dir.wire).length = ((ds.length : Int), b) ∧
      Block.list b = ds := by
  cases ds with
  | nil => exact ⟨none, by simp [dirpackage], rfl⟩
  | cons d ds =>
    generalize he : d :: ds = es at hds hnul hmem ⊢
    have hpos : 0 < (es.flatMap Dir.wire).length := by
      have := wire_pos d
      rw [← he, flatMap_cons, length_append]; omega
    obtain ⟨⟨⟨todo, area⟩, htodo, harea⟩, hb⟩ := Option.isSome_iff_exists.mp hmem
    have hcount := @countStats_wire (es.flatMap Dir.wire ++ post) post _ es 0 0 0 hds rfl (Nat.zero_add _)
    simp only [Nat.zero_add] at hcount htodo harea
    obtain ⟨new, area', hrun, -, hnew⟩ := @convStats_wire (es.flatMap Dir.wire ++ post) post _ es.length es 0 0 []
      todo area hds hnul rfl (Nat.zero_add _) htodo (Nat.zero_add _) (by omega)
    refine ⟨some ⟨new, area'⟩, ?_, hnew⟩
    have hts : ¬ ((es.flatMap Dir.wire).length : Int) ≤ 0 := by omega
    simp only [dirpackage, hts, if_false, Int.toNat_natCast]
    generalize countStats _ _ 0 0 0 = r at hcount ⊢
    subst hcount
    simp only [ne_eq, not_true_eq_false, if_false, hb]
    exact hrun

/-! ## dirpackage on anything else -/

theorem le_countStats (buf : List UInt8) (ts i n ss : Nat) : i ≤ (countStats buf ts i n ss).1 := by
  fun_induction countStats buf ts i n ss with
  | case1 i n ss hi m hbad => exact le_refl i
  | case2 i n ss hi m hok ih => exact le_trans (Nat.le_add_right i m) ih
  | case3 i n ss hi => exact le_refl i

/-- What the first loop accepts to the end is made of valid entries. -/
theorem countStats_sound {buf : List UInt8} {ts i n ss : Nat} (hts : ts ≤ buf.length) (hi : i ≤ ts)
    (h : (countStats buf ts i n ss).1 = ts) :
    ∃ es : List (List UInt8), es.flatten = (buf.drop i).take (ts - i) ∧ ∀ e ∈ es, statcheck e e.length = 0 := by
  fun_induction countStats buf ts i n ss with
  | case1 i n ss hlt m hbad => exact absurd h (by simp only; omega)
  | case3 i n ss hge =>
    refine ⟨[], ?_, by simp⟩
    rw [show ts - i = 0 by omega]; simp
  | case2 i n ss hlt m hok ih =>
    have hle := le_countStats buf ts (i + m) (n + 1) (ss + m)
    rw [h] at hle
    obtain ⟨es, hes, hall⟩ := ih hle h
    have hm : ((buf.drop i).take m).length = m := by simp; omega
    refine ⟨(buf.drop i).take m :: es, ?_, ?_⟩
    · have hsum : ts - i = m + (ts - (i + m)) := by omega
      rw [flatten_cons, hes, ← drop_drop, hsum, @take_add _ _ m]
    intro e he
    rcases mem_cons.mp he with rfl | he
    · have hleft := statcheck_left ((buf.drop i).take m) ((buf.drop i).drop m)
      rw [take_append_drop, hm] at hleft
      rw [hm, ← hleft]
      by_contra hne
      exact hok (statcheck_fails hne)
    · exact hall e he

/-- **`dirpackage` refuses a buffer that is not made of valid entries.** -/
theorem dirpackage_reject (malloc : Malloc) {buf : List UInt8} {ts : Nat} (hts : ts ≤ buf.length)
    (hbad : ¬ ∃ es : List (List UInt8), es.flatten = buf.take ts ∧ ∀ e ∈ es, statcheck e e.length = 0) :
    dirpackage malloc buf ts = (-1, none) := by
  have hpos : ¬ (ts : Int) ≤ 0 := by
    intro h
    obtain rfl : ts = 0 := by omega
    exact hbad ⟨[], by simp, by simp⟩
  have hstop : (countStats buf ts 0 0 0).1 ≠ ts := by
    intro h
    exact hbad (by simpa using countStats_sound hts (Nat.zero_le ts) h)
  simp only [dirpackage, hpos, if_false, Int.toNat_natCast, hstop, ne_eq, not_false_eq_true, if_true]

/-- The three together, at the level of the C arguments: a Dir's strings are what its pointers point
to, up to the zero. -/
theorem dir_codec (malloc : Malloc) :
    (∀ (buf : List UInt8) (n : Nat) (d : Dir StrPtr) (strs : Option Cur), statcheck buf n = 0 ↔
      STATFIXLEN ≤ n ∧ GBIT16 buf 0 = n - BIT16SZ ∧ (convM2D buf n d strs).1 = n) ∧
    (∀ (ds : List (Dir Ptr)) (post : List UInt8), (∀ d ∈ ds, sizeD2M d - BIT16SZ < 2 ^ 16) →
      (malloc ds.length (ds.flatMap Dir.stat).length).isSome →
      ∃ b, dirpackage malloc (ds.flatMap Dir.stat ++ post) (ds.flatMap Dir.stat).length = ((ds.length : Int), b) ∧
        Block.list b = ds.map (Dir.map str)) ∧
    (∀ (buf : List UInt8) (ts : Nat), ts ≤ buf.length →
      (¬ ∃ es : List (List UInt8), es.flatten = buf.take ts ∧ ∀ e ∈ es, statcheck e e.length = 0) →
      dirpackage malloc buf ts = (-1, none)) := by
  refine ⟨statcheck_iff, ?_, fun buf ts => dirpackage_reject malloc⟩
  intro ds post hds hmem
  have hstat : ds.flatMap Dir.stat = (ds.map (Dir.map str)).flatMap Dir.wire := by
    rw [flatMap_map]
    exact flatMap_congr fun d _ => stat_eq d
  rw [hstat] at hmem ⊢
  rw [← length_map (f := Dir.map str)] at hmem ⊢
  refine dirpackage_wire ?_ ?_ hmem post
  · intro d hd
    obtain ⟨d₀, hd0, rfl⟩ := mem_map.mp hd
    have := hds d₀ hd0
    rw [sizeD2M_eq] at this
    simp only [BIT16SZ] at this
    omega
  intro d hd s hs
  obtain ⟨d₀, -, rfl⟩ := mem_map.mp hd
  rw [sv_map] at hs
  obtain ⟨t, -, rfl⟩ := mem_map.mp hs
  cases t with
  | none => simp [str]
  | some t => exact nul_notMem_cstr t

/-- A `malloc` that always finds a block, and clears it. -/
def zalloc : Malloc := fun n ss => some ⟨⟨List.replicate n default, List.replicate ss 0⟩, by simp⟩

/-- A directory of two files, the first with no group and no modifier; and three bytes that are no
directory. -/
theorem dir_codec_two :
    (∃ b, dirpackage zalloc (Dir.stat ⟨77, 3, ⟨9, 1, 0⟩, 0o644, 5, 6, 20, some [97, 0], some [98, 98, 0], none, none⟩ ++
        Dir.stat ⟨77, 3, ⟨10, 1, 128⟩, 0o755, 5, 6, 0, some [99, 0], some [98, 0], some [98, 0], some [0]⟩) 104 = (2, b) ∧
      Block.list b =
        [⟨77, 3, ⟨9, 1, 0⟩, 0o644, 5, 6, 20, [97], [98, 98], [], []⟩,
         ⟨77, 3, ⟨10, 1, 128⟩, 0o755, 5, 6, 0, [99], [98], [98], []⟩]) ∧
    dirpackage zalloc [1, 0, 7] 3 = (-1, none) := by
  constructor
  · have h := (dir_codec zalloc).2.1
      [⟨77, 3, ⟨9, 1, 0⟩, 0o644, 5, 6, 20, some [97, 0], some [98, 98, 0], none, none⟩,
       ⟨77, 3, ⟨10, 1, 128⟩, 0o755, 5, 6, 0, some [99, 0], some [98, 0], some [98, 0], some [0]⟩] []
      (by decide) rfl
    exact h
  refine (dir_codec zalloc).2.2 [1, 0, 7] 3 (by decide) ?_
  rintro ⟨_ | ⟨e, es⟩, hes, hall⟩
  · simp at hes
  have hlen := congrArg length hes
  have hfix := ((statcheck_iff e e.length default none).mp (hall e (by simp))).1
  have : STATFIXLEN = 49 := rfl
  simp at hlen
  omega

end Plan9.Libc
