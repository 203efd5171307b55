/-
The 9P converters against the protocol: `convS2M` writes a message's encoding
(`convS2M_wire`), and `convM2S` accepts exactly the encodings, from any buffer
that starts with one (`convM2S_wire`, `convM2S_sound`), unless the count of the
data takes the pointer past the end of memory (`Wraps`).

The three layouts in the source, those of `sizeS2M`, `convS2M` and `convM2S`,
are each compared with `Body.wire`, one case for each message type; the round
trip and exactness follow from the comparisons alone.
-/
import Mathlib.Data.List.Basic
import Plan9.Libc.Message

namespace Plan9.Libc

open Bytes Cursor Function List

/-! ## The byte macros are little-endian -/

theorem PBIT8_eq (v : Nat) : PBIT8 v = leBytes 1 v := rfl

theorem PBIT16_eq (v : Nat) : PBIT16 v = leBytes 2 v := by
  simp [PBIT16, leBytes, Nat.shiftRight_eq_div_pow]

theorem PBIT32_eq (v : Nat) : PBIT32 v = leBytes 4 v := by
  simp [PBIT32, leBytes, Nat.shiftRight_eq_div_pow, Nat.div_div_eq_div_mul]

theorem PBIT64_eq (v : Nat) : PBIT64 v = leBytes 8 v := by
  simp [PBIT64, leBytes, Nat.shiftRight_eq_div_pow, Nat.div_div_eq_div_mul]

theorem GBIT8_at (pre post : List UInt8) : ∀ {xs : List UInt8}, xs.length = 1 →
    GBIT8 (pre ++ (xs ++ post)) pre.length = leNat xs
  | [a], _ => by simp [GBIT8, byteAt_mid, leNat]

theorem GBIT16_at (pre post : List UInt8) : ∀ {xs : List UInt8}, xs.length = 2 →
    GBIT16 (pre ++ (xs ++ post)) pre.length = leNat xs
  | [a, b], _ => by
    simp only [GBIT16, byteAt_append, cons_append, byteAt_mid, leNat]
    simp only [byteAt, getD_cons_succ, getD_cons_zero]
    rw [or_shiftLeft a.toNat_lt]
    omega

theorem GBIT32_at (pre post : List UInt8) : ∀ {xs : List UInt8}, xs.length = 4 →
    GBIT32 (pre ++ (xs ++ post)) pre.length = leNat xs
  | [a, b, c, d], _ => by
    have ha := a.toNat_lt
    have hb := b.toNat_lt
    have hc := c.toNat_lt
    simp only [GBIT32, byteAt_append, cons_append, byteAt_mid, leNat]
    simp only [byteAt, getD_cons_succ, getD_cons_zero]
    rw [or_shiftLeft ha, or_shiftLeft (i := 16) (by omega), or_shiftLeft (i := 24) (by omega)]
    omega

theorem GBIT64_at (pre post : List UInt8) : ∀ {xs : List UInt8}, xs.length = 8 →
    GBIT64 (pre ++ (xs ++ post)) pre.length = leNat xs
  | [a, b, c, d, e, f, g, h], _ => by
    have hlt := leNat_lt [a, b, c, d]
    have hlo := @GBIT32_at pre ([e, f, g, h] ++ post) [a, b, c, d] rfl
    have hhi := @GBIT32_at (pre ++ [a, b, c, d]) post [e, f, g, h] rfl
    simp only [append_assoc, length_append, length_cons, length_nil, Nat.zero_add,
      Nat.reduceAdd] at hlo hhi
    rw [show [a, b, c, d, e, f, g, h] ++ post = [a, b, c, d] ++ ([e, f, g, h] ++ post) by simp, GBIT64, hlo,
      hhi, or_shiftLeft (by simpa using hlt)]
    simp only [leNat]
    omega

/-! ## Writing -/

/-- The data and stat pointers address as many bytes as are counted. -/
def Fcall.Backed (f : Fcall Ptr) : FType → Prop
  | .Rread | .Twrite => f.count.toNat ≤ (f.data.getD []).length
  | .Rstat | .Twstat => f.nstat.toNat ≤ (f.stat.getD []).length
  | _ => True

theorem stringsz_eq (s : Ptr) : stringsz s = (wireStr (str s)).length := by
  cases s with
  | none => simp [stringsz, str, BIT16SZ]
  | some s => simp [stringsz, str, BIT16SZ, strlen]

theorem pstring_eq (c : Cur) (s : Ptr) : pstring c s = c.put (wireStr (str s)) := by
  cases s with
  | none => simp [pstring, str, wireStr, PBIT16_eq]
  | some s =>
    have htake : s.take (strlen s) = cstr s :=
      (prefix_iff_eq_take.mp ( takeWhile_prefix _)).symm
    have hcomm := store_store_before (leBytes 2 (strlen s)) (cstr s) c.buf c.p
    simp only [length_leBytes] at hcomm
    simp only [pstring, htake, PBIT16_eq, BIT16SZ, hcomm, Cur.put, str, wireStr, Option.map_some,
      Option.getD_some, length_append, length_leBytes, Cur.mk.injEq]
    exact ⟨rfl, by simp [strlen, Nat.add_comm]⟩

theorem pqid_eq (c : Cur) (q : Qid) : pqid c q = c.put (wireQid q) := by
  simp [pqid, wireQid, PBIT8_eq, PBIT32_eq, PBIT64_eq, wire8, wire32, wire64]

variable {f : Fcall Ptr} {s : List UInt8} {n : Nat} {m : Msg} {f' : Fcall Off}

theorem pdata_eq (c : Cur) {data : Ptr} (h : n ≤ (data.getD []).length) :
    pdata c data n = c.put (bytes data n) := by
  simp [pdata, bytes, Cur.put, h]

theorem pnames_eq (c : Cur) (wname : Nat → Ptr) (n : Nat) :
    pnames c wname n = c.put (((List.range n).map fun i => str (wname i)).flatMap wireStr) := by
  induction n with
  | zero => simp [pnames]
  | succ n ih =>
    simp only [pnames, range_succ, foldl_append, foldl_cons, foldl_nil] at ih ⊢
    rw [ih, pstring_eq]
    simp

theorem pqids_eq (c : Cur) (wqid : Nat → Qid) (n : Nat) :
    pqids c wqid n = c.put (((List.range n).map wqid).flatMap wireQid) := by
  induction n with
  | zero => simp [pqids]
  | succ n ih =>
    simp only [pqids, range_succ, foldl_append, foldl_cons, foldl_nil] at ih ⊢
    rw [ih, pqid_eq]
    simp

theorem length_bytes {data : Ptr} (h : n ≤ (data.getD []).length) : (bytes data n).length = n := by
  simp [bytes, h]

theorem length_names (wname : Nat → Ptr) (n : Nat) :
    (((List.range n).map fun i => str (wname i)).flatMap wireStr).length =
      ((List.range n).map fun i => stringsz (wname i)).sum := by
  simp only [length_flatMap, map_map]
  congr 1
  exact map_congr_left fun i _ => by simp [stringsz_eq]

theorem length_qids (qs : List Qid) : (qs.flatMap wireQid).length = qs.length * 13 := by
  induction qs with
  | nil => rfl
  | cons q qs ih => simp [flatMap_cons, ih]; omega

theorem bodysz_eq {t : FType} (hb : f.Backed t) : bodysz f t = (f.body t).wire.length := by
  cases t
  case Twalk =>
    simp only [bodysz, Fcall.body, Body.wire, length_append, length_names, length_wire32,
      length_leBytes, BIT32SZ, BIT16SZ]
    omega
  case Rwalk =>
    simp only [bodysz, Fcall.body, Body.wire, length_append, length_qids, length_leBytes,
      length_map, length_range, BIT16SZ, QIDSZ, BIT8SZ, BIT32SZ, BIT64SZ]
  all_goals
    simp_all [bodysz, Fcall.body, Body.wire, BIT8SZ, BIT16SZ, BIT32SZ, BIT64SZ, QIDSZ, stringsz_eq,
      Fcall.Backed, length_bytes] <;>
    omega

theorem putBody_eq {t : FType} (hok : (f.body t).Ok) (hb : f.Backed t) (c : Cur) :
    putBody f c t = (true, c.put (f.body t).wire) := by
  cases t <;>
    simp_all [putBody, Fcall.body, Body.wire, PBIT8_eq, PBIT16_eq, PBIT32_eq, PBIT64_eq, wire8, wire16,
      wire32, wire64, pstring_eq, pqid_eq, pnames_eq, pqids_eq, Fcall.Backed, pdata_eq, length_bytes,
      Body.Ok]

theorem sizeS2M_eq (hm : f.msg = some m) (hb : f.Backed m.body.type) :
    sizeS2M f = m.size % 2 ^ 32 := by
  simp only [Fcall.msg, Option.map_eq_some_iff] at hm
  obtain ⟨t, ht, rfl⟩ := hm
  simp only [body_type] at hb
  simp only [sizeS2M, ht, fullsz, bodysz_eq hb, Msg.size, BIT32SZ, BIT8SZ, BIT16SZ]

/-- **`convS2M` writes the message's encoding**, and nothing after it. -/
theorem convS2M_wire (hm : f.msg = some m) (hok : m.Ok)
    (hb : f.Backed m.body.type) {ap : List UInt8} {nap : Nat} (hn : m.size ≤ nap) (hap : nap ≤ ap.length) :
    convS2M f ap nap = (m.size, m.wire ++ ap.drop m.size) := by
  have hsize : sizeS2M f = m.size := by rw [sizeS2M_eq hm hb, Nat.mod_eq_of_lt hok.size]
  have htype := msg_type hm
  simp only [Fcall.msg, Option.map_eq_some_iff] at hm
  obtain ⟨t, ht, rfl⟩ := hm
  simp only [body_type] at hb htype
  have hpos : (⟨f.tag, f.body t⟩ : Msg).size ≠ 0 := by simp [Msg.size]
  have hhead : PBIT32 (Msg.size ⟨f.tag, f.body t⟩) ++ (PBIT8 f.type.toNat ++ PBIT16 f.tag.toNat) =
      (⟨f.tag, f.body t⟩ : Msg).head := by
    simp only [Msg.head, PBIT32_eq, PBIT8_eq, PBIT16_eq, body_type, htype, wire8, wire16]
  simp only [convS2M, hsize, hpos, ite_false, show ¬ (Msg.size ⟨f.tag, f.body t⟩ > nap) by omega, ht,
    Cur.put_put, append_assoc, hhead, putBody_eq hok.body hb]
  have hlen : (Msg.head ⟨f.tag, f.body t⟩ ++ (f.body t).wire).length = Msg.size ⟨f.tag, f.body t⟩ :=
    length_wire ⟨f.tag, f.body t⟩
  simp only [Nat.zero_add, ne_eq, Cur.put]
  rw [store_eq (by omega), hlen]
  simp [Msg.wire]

/-! ## The readers -/

theorem g8_reads : ReadsNum 1 g8 UInt8.ofNat := fun pre _ post hx => by
  simp only [g8, GBIT8_at pre post hx, BIT8SZ]

theorem g16_reads : ReadsNum 2 g16 UInt16.ofNat := fun pre _ post hx => by
  simp only [g16, GBIT16_at pre post hx, BIT16SZ]

theorem g32_reads : ReadsNum 4 g32 UInt32.ofNat := fun pre _ post hx => by
  simp only [g32, GBIT32_at pre post hx, BIT32SZ]

theorem g64_reads : ReadsNum 8 g64 UInt64.ofNat := fun pre _ post hx => by
  simp only [g64, GBIT64_at pre post hx, BIT64SZ]

section

variable {k ep : Nat}

theorem runs_g8 (v : UInt8) : Runs k ep g8 (wire8 v) v (wire8 v) := by
  simpa [wire8] using g8_reads.runs v.toNat_lt k ep

theorem runs_g16 (v : UInt16) : Runs k ep g16 (wire16 v) v (wire16 v) := by
  simpa [wire16] using g16_reads.runs v.toNat_lt k ep

theorem runs_g32 (v : UInt32) : Runs k ep g32 (wire32 v) v (wire32 v) := by
  simpa [wire32] using g32_reads.runs v.toNat_lt k ep

theorem runs_g64 (v : UInt64) : Runs k ep g64 (wire64 v) v (wire64 v) := by
  simpa [wire64] using g64_reads.runs v.toNat_lt k ep

theorem runs_gqid (q : Qid) : Runs k ep (gqid ep) (wireQid q) q (wireQid q) :=
  Runs.need (by simp [QIDSZ, BIT8SZ, BIT32SZ, BIT64SZ])
    ((runs_g8 q.type).bind ((runs_g32 q.vers).bind (runs_g64 q.path).map))

/-- What `gstring` leaves of a string: the count's low byte, the bytes, and their terminator. -/
def moved (s : List UInt8) : List UInt8 := UInt8.ofNat s.length :: (s ++ [0])

theorem runs_gstring (hs : s.length < 2 ^ 16) :
    Runs k ep (gstring ep) (wireStr s) (some (k + 1)) (moved s) := by
  refine ⟨by simp [moved]; omega, fun pre post hk hep => ?_⟩
  subst hk
  rw [length_wireStr] at hep
  -- The two bytes of the count, and the byte the terminator lands on.
  obtain ⟨lo, hi, hcount⟩ : ∃ lo hi, leBytes 2 s.length = [lo, hi] := ⟨_, _, rfl⟩
  have hlo : UInt8.ofNat s.length = lo := by simpa [leBytes] using (cons.inj hcount).1
  obtain ⟨x, xs, hlast⟩ : ∃ x xs, hi :: s = xs ++ [x] :=
    ⟨_, _, (dropLast_concat_getLast (cons_ne_nil hi s)).symm⟩
  have hxs : xs.length = s.length := by simpa using (congrArg length hlast).symm
  have hn : GBIT16 (pre ++ (wireStr s ++ post)) pre.length = s.length := by
    rw [wireStr, append_assoc, GBIT16_at pre _ (length_leBytes 2 _), leNat_leBytes,
      Nat.mod_eq_of_lt (by simpa using hs)]
  have hload : load (pre ++ (wireStr s ++ post)) (pre.length + 1 + 1) s.length = s := by
    have := load_mid (pre ++ [lo, hi]) s post
    simpa [wireStr, hcount] using this
  have hbuf : pre ++ (wireStr s ++ post) = (pre ++ [lo]) ++ (xs ++ ([x] ++ post)) := by
    have : hi :: (s ++ post) = xs ++ (x :: post) := by
      rw [← cons_append, hlast]; simp
    simp [wireStr, hcount, this]
  have hmove : store (pre ++ (wireStr s ++ post)) (pre.length + 1) s = (pre ++ [lo]) ++ (s ++ ([x] ++ post)) := by
    rw [hbuf, ← store_mid s (pre ++ [lo]) xs ([x] ++ post) hxs]
    simp
  have hterm : store ((pre ++ [lo]) ++ (s ++ ([x] ++ post))) (pre.length + 1 + s.length) [0] =
      (pre ++ [lo] ++ s) ++ ([0] ++ post) := by
    rw [← store_mid [0] (pre ++ [lo] ++ s) [x] post rfl]
    simp [Nat.add_assoc, Nat.add_comm 1]
  simp only [gstring, hn, BIT16SZ, show ¬ (pre.length + 2 > ep) by omega, if_false,
    show ¬ (pre.length + (2 - 1) + s.length + 1 > ep) by omega, hload, hmove, hterm,
    length_wireStr, Option.some.injEq, Prod.mk.injEq, Cur.mk.injEq, true_and]
  refine ⟨?_, by omega⟩
  simp [moved, hlo]

theorem runs_gdata {d : List UInt8} (a : Place ep) (hn : n = d.length) : Runs k ep (gdata a.addr ep n) d (some k) d := by
  subst hn
  refine ⟨rfl, fun pre post _ hep => ?_⟩
  have hroom := a.room
  simp only [gdata, Nat.mod_eq_of_lt (show a.addr + k + d.length < 2 ^ 32 by omega),
    Nat.mod_eq_of_lt (show k + d.length < 2 ^ 32 by omega),
    if_neg (show ¬ (a.addr + k + d.length > a.addr + ep) by omega)]

theorem Runs.atMost {α : Type} {g : Unit → Get α} {xs ys : List UInt8} {v : α} (hn : n ≤ MAXWELEM)
    (hg : Runs k ep (g ()) xs v ys) : Runs k ep (atMost n >>= g) xs v ys := by
  refine ⟨hg.length, fun pre post hk hep => ?_⟩
  refine bind_some_iff.mpr ⟨(), _, ?_, hg.run pre post hk hep⟩
  simp only [Libc.atMost, if_neg (show ¬ (n > MAXWELEM) by omega)]

/-! ## Reading what they left -/

theorem str_moved (hs : 0 ∉ s) :
    Holds k (moved s) fun buf => str ((some (k + 1)).map buf.drop) = s := by
  intro pre post hk
  subst hk
  simp only [moved, str, Option.map_some, Option.getD_some, cons_append, append_assoc,
    nil_append]
  rw [← drop_drop, drop_left, drop_one, tail_cons]
  exact cstr_of_nul hs post

theorem counted_wire (hs : s.length < 2 ^ 16) :
    Holds k (wireStr s) fun buf => counted buf (some (k + 1)) = s := by
  intro pre post hk
  subst hk
  have hn : GBIT16 (pre ++ (wireStr s ++ post)) pre.length = s.length := by
    rw [wireStr, append_assoc, GBIT16_at pre _ (length_leBytes 2 _), leNat_leBytes,
      Nat.mod_eq_of_lt (by simpa using hs)]
  have hload := load_mid (pre ++ leBytes 2 s.length) s post
  simp only [length_append, length_leBytes, append_assoc] at hload
  simp only [counted, Nat.add_sub_cancel, hn]
  simpa only [wireStr, append_assoc] using hload

/-- `Q` reads each string of a sequence where `gstring` points, from the bytes `enc` leaves of it. -/
structure ReadsStr (ss : List (List UInt8)) (enc : List UInt8 → List UInt8)
    (Q : List UInt8 → Off → List UInt8) : Prop where
  length : ∀ s ∈ ss, (enc s).length = (wireStr s).length
  read : ∀ s ∈ ss, ∀ k, Holds k (enc s) fun buf => Q buf (some (k + 1)) = s

theorem readsStr_moved {ss : List (List UInt8)} (hlen : ∀ s ∈ ss, s.length < 2 ^ 16)
    (hnul : ∀ s ∈ ss, 0 ∉ s) : ReadsStr ss moved fun buf a => str (a.map buf.drop) :=
  ⟨fun s hs => (@runs_gstring s 0 0 (hlen s hs)).length, fun s hs _ => str_moved (hnul s hs)⟩

theorem readsStr_wire {ss : List (List UInt8)} (hlen : ∀ s ∈ ss, s.length < 2 ^ 16) :
    ReadsStr ss wireStr counted :=
  ⟨fun _ _ => rfl, fun s hs _ => counted_wire (hlen s hs)⟩

theorem ReadsStr.pair {s' : List UInt8} {enc Q} (h : ReadsStr [s, s'] enc Q) :
    Holds k (enc s ++ enc s') fun buf => Q buf (some (k + 1)) = s ∧
      Q buf (some (k + (wireStr s).length + 1)) = s' := by
  have hm := h.length s (by simp)
  rw [← hm]
  intro pre post hk
  exact ⟨(h.read s (by simp) k).left _ pre post hk, (h.read s' (by simp) _).right pre post hk⟩

theorem data_left (d : List UInt8) : Holds k d fun buf =>
    bytes ((some k).map buf.drop) d.length = d ∧ d.length ≤ (((some k).map buf.drop).getD []).length := by
  intro pre post hk
  subst hk
  simp [bytes]

/-- `w` points, from index `i`, at the strings laid out from `k`. -/
def Points : Nat → List (List UInt8) → Nat → (Nat → Off) → Prop
  | _, [], _, _ => True
  | k, s :: ss, i, w => w i = some (k + 1) ∧ Points (k + (wireStr s).length) ss (i + 1) w

theorem Points.read : ∀ {ss : List (List UInt8)} {k i : Nat} {w : Nat → Off} {enc Q}, Points k ss i w →
    ReadsStr ss enc Q → Holds k (ss.flatMap enc) fun buf =>
      ((List.range ss.length).map fun j => Q buf (w (i + j))) = ss
  | [], _, _, _, _, _, _, _ => fun _ _ _ => rfl
  | s :: ss, k, i, w, enc, Q, hp, hq => by
    have htail := Points.read hp.2 ⟨fun s' hs' => hq.length s' (by simp [hs']),
      fun s' hs' => hq.read s' (by simp [hs'])⟩
    rw [← hq.length s (by simp)] at htail
    intro pre post hk
    have h1 := (hq.read s (by simp) k).left (ss.flatMap enc) pre post hk
    have h₂ := htail.right pre post hk
    simp only [length_cons, range_succ_eq_map, map_cons, map_map, Nat.add_zero, hp.1]
    refine cons_eq_cons.mpr ⟨h1, ?_⟩
    refine Eq.trans (map_congr_left fun j _ => ?_) h₂
    simp [Nat.add_assoc, Nat.add_comm 1]

theorem runs_gnames : ∀ (ss : List (List UInt8)) (k i : Nat) (w : Nat → Off), (∀ s ∈ ss, s.length < 2 ^ 16) →
    ∃ w', (∀ ep, Runs k ep (gnames ep ss.length i w) (ss.flatMap wireStr) w' (ss.flatMap moved)) ∧
      (∀ j < i, w' j = w j) ∧ Points k ss i w'
  | [], k, i, w, _ => ⟨w, fun _ => Runs.pure w, fun _ _ => rfl, trivial⟩
  | s :: ss, k, i, w, hlen => by
    obtain ⟨w', hruns, hlow, hpts⟩ := runs_gnames ss (k + (wireStr s).length) (i + 1)
      (update w i (some (k + 1))) fun s' hs' => hlen s' (by simp [hs'])
    refine ⟨w', fun ep => ?_, fun j hj => ?_, ?_, hpts⟩
    · simp only [flatMap_cons, length_cons, gnames]
      exact (runs_gstring (hlen s (by simp))).bind (hruns ep)
    · rw [hlow j (by omega), update_of_ne (by omega)]
    · rw [hlow i (by omega), update_self]

theorem runs_gqids : ∀ (qs : List Qid) (k i : Nat) (w : Nat → Qid),
    ∃ w', (∀ ep, Runs k ep (gqids ep qs.length i w) (qs.flatMap wireQid) w' (qs.flatMap wireQid)) ∧
      (∀ j < i, w' j = w j) ∧ ((List.range qs.length).map fun j => w' (i + j)) = qs
  | [], k, i, w => ⟨w, fun _ => Runs.pure w, fun _ _ => rfl, rfl⟩
  | q :: qs, k, i, w => by
    obtain ⟨w', hruns, hlow, hq⟩ := runs_gqids qs (k + (wireQid q).length) (i + 1) (update w i q)
    have hi : w' i = q := by rw [hlow i (by omega), update_self]
    refine ⟨w', ?_, fun j hj => ?_, ?_⟩
    · intro ep
      simp only [flatMap_cons, length_cons, gqids]
      exact (runs_gqid q).bind (hruns ep)
    · rw [hlow j (by omega), update_of_ne (by omega)]
    simp only [length_cons, range_succ_eq_map, map_cons, map_map, Nat.add_zero, hi]
    refine cons_eq_cons.mpr ⟨rfl, ?_⟩
    refine Eq.trans (map_congr_left fun j _ => ?_) hq
    simp [Nat.add_assoc, Nat.add_comm 1]

end

/-! ## Reading: every encoding is accepted -/

theorem toNat_ofNat16 (h : n < 2 ^ 16) : (UInt16.ofNat n).toNat = n := by
  rw [UInt16.toNat_ofNat', Nat.mod_eq_of_lt h]

theorem toNat_ofNat32 (h : n < 2 ^ 32) : (UInt32.ofNat n).toNat = n := by
  rw [UInt32.toNat_ofNat', Nat.mod_eq_of_lt h]

/-- On the encoding of `b` at `k`, `getBody` fills `f'` and leaves `ys`, from which `f'` is read back
as `b` when no string of `b` has a zero byte in it. -/
structure Decodes (k : Nat) (f : Fcall Off) (b : Body) (f' : Fcall Off) (ys : List UInt8) : Prop where
  runs : ∀ ep (a : Place ep), Runs k ep (getBody a.addr ep f b.type) b.wire f' ys
  type : f'.type = f.type
  tag : f'.tag = f.tag
  body : (∀ s ∈ b.strings, 0 ∉ s) → Holds k ys fun buf => (f'.deref buf).body b.type = b
  backed : Holds k ys fun buf => (f'.deref buf).Backed b.type
  strings : Holds k b.wire fun buf => (f'.strings b.type).map (counted buf) = b.strings

theorem getBody_decodes {b : Body} (hok : b.Ok) (k : Nat) (f : Fcall Off) :
    ∃ f' ys, Decodes k f b f' ys := by
  obtain ⟨hstr, hok⟩ := hok
  cases b with
  | Tversion msize version | Rversion msize version =>
    have hv : version.length < 2 ^ 16 := hstr version (by simp [Body.strings])
    refine ⟨_, _, fun _ _ => Runs.need (by simp [Body.wire, BIT32SZ]) ((runs_g32 msize).bind
      (runs_gstring hv).map), rfl, rfl, fun hnul pre post hk => ?_, fun _ _ _ => trivial,
      fun pre post hk => ?_⟩
    · have h := (str_moved (k := k + (wire32 msize).length) (hnul version (by simp [Body.strings]))).right
      simp only [Fcall.body, Body.type, Fcall.deref, h pre post hk]
    · exact cons_eq_cons.mpr ⟨(counted_wire hv).right pre post hk, rfl⟩
  | Rerror ename =>
    have hv : ename.length < 2 ^ 16 := hstr ename (by simp [Body.strings])
    refine ⟨_, _, fun _ _ => (runs_gstring hv).map, rfl, rfl, fun hnul pre post hk => ?_,
      fun _ _ _ => trivial, fun pre post hk => ?_⟩
    · have h := str_moved (k := k) (hnul ename (by simp [Body.strings]))
      simp only [Fcall.body, Body.type, Fcall.deref, h pre post hk]
    · exact cons_eq_cons.mpr ⟨counted_wire hv pre post hk, rfl⟩
  | Tauth afid uname aname =>
    refine ⟨_, _, fun _ _ => Runs.need (by simp [Body.wire, BIT32SZ]) ((runs_g32 afid).bind
      ((runs_gstring (hstr uname (by simp [Body.strings]))).bind
        (runs_gstring (hstr aname (by simp [Body.strings]))).map)), rfl, rfl, fun hnul pre post hk => ?_,
      fun _ _ _ => trivial, fun pre post hk => ?_⟩
    · have h := ((readsStr_moved hstr hnul).pair (k := k + (wire32 afid).length)).right pre post hk
      simp only [Fcall.body, Body.type, Fcall.deref, h]
    · have h := ((readsStr_wire hstr).pair (k := k + (wire32 afid).length)).right pre post hk
      simp only [Fcall.strings, Body.strings, Body.type, Body.wire, map_cons, map_nil, h]
  | Tattach fid afid uname aname =>
    refine ⟨_, _, fun _ _ => Runs.need (by simp [Body.wire, BIT32SZ]) ((runs_g32 fid).bind
      (Runs.need (by simp [BIT32SZ]) ((runs_g32 afid).bind
        ((runs_gstring (hstr uname (by simp [Body.strings]))).bind
          (runs_gstring (hstr aname (by simp [Body.strings]))).map)))), rfl, rfl,
      fun hnul pre post hk => ?_, fun _ _ _ => trivial, fun pre post hk => ?_⟩
    · have h := ((readsStr_moved hstr hnul).pair
        (k := k + (wire32 fid).length + (wire32 afid).length)).right.right pre post hk
      simp only [Fcall.body, Body.type, Fcall.deref, h]
    · have h := ((readsStr_wire hstr).pair
        (k := k + (wire32 fid).length + (wire32 afid).length)).right.right pre post hk
      simp only [Fcall.strings, Body.strings, Body.type, Body.wire, map_cons, map_nil, h]
  | Tcreate fid name perm mode =>
    have hv : name.length < 2 ^ 16 := hstr name (by simp [Body.strings])
    refine ⟨_, _, fun _ _ => Runs.need (by simp [Body.wire, BIT32SZ]) ((runs_g32 fid).bind
      ((runs_gstring hv).bind (Runs.need (by simp [BIT32SZ, BIT8SZ]) ((runs_g32 perm).bind
        (runs_g8 mode).map)))), rfl, rfl, fun hnul pre post hk => ?_, fun _ _ _ => trivial,
      fun pre post hk => ?_⟩
    · have h := ((str_moved (k := k + (wire32 fid).length) (hnul name (by simp [Body.strings]))).left
        (wire32 perm ++ wire8 mode)).right
      simp only [Fcall.body, Body.type, Fcall.deref, h pre post hk]
    · exact cons_eq_cons.mpr ⟨((counted_wire hv).left _).right pre post hk, rfl⟩
  | Twalk fid newfid wname =>
    have hlt : wname.length < 2 ^ 16 := by simp only [MAXWELEM] at hok; omega
    have hn := toNat_ofNat16 hlt
    obtain ⟨w, hruns, -, hpts⟩ := runs_gnames wname
      (k + (wire32 fid).length + (wire32 newfid).length + (leBytes 2 wname.length).length) 0 f.wname hstr
    have hmax : (UInt16.ofNat wname.length).toNat ≤ MAXWELEM := by rw [hn]; exact hok
    have hruns := fun ep => (show gnames ep wname.length 0 f.wname =
      gnames ep (UInt16.ofNat wname.length).toNat 0 f.wname by rw [hn]) ▸ hruns ep
    refine ⟨_, _, fun _ _ => Runs.need (by simp [Body.wire, BIT32SZ, BIT16SZ]; omega) ((runs_g32 fid).bind
      ((runs_g32 newfid).bind ((g16_reads.runs hlt _ _).bind (Runs.atMost hmax (hruns _).map)))), rfl, rfl,
      fun hnul pre post hk => ?_, fun _ _ _ => trivial, fun pre post hk => ?_⟩
    · have h := (hpts.read (readsStr_moved hstr hnul)).right.right.right pre post hk
      simp only [Nat.zero_add] at h
      simp only [Fcall.body, Body.type, Fcall.deref, hn, h]
    · have h := (hpts.read (readsStr_wire hstr)).right.right.right pre post hk
      simp only [Nat.zero_add] at h
      simpa only [Fcall.strings, Body.strings, Body.type, Body.wire, hn, map_map, Function.comp_def] using h
  | Rwalk wqid =>
    have hlt : wqid.length < 2 ^ 16 := by simp only [MAXWELEM] at hok; omega
    have hn := toNat_ofNat16 hlt
    obtain ⟨w, hruns, -, hwq⟩ := runs_gqids wqid (k + (leBytes 2 wqid.length).length) 0 f.wqid
    simp only [Nat.zero_add] at hwq
    have hmax : (UInt16.ofNat wqid.length).toNat ≤ MAXWELEM := by rw [hn]; exact hok
    have hruns := fun ep => (show gqids ep wqid.length 0 f.wqid =
      gqids ep (UInt16.ofNat wqid.length).toNat 0 f.wqid by rw [hn]) ▸ hruns ep
    refine ⟨_, _, fun _ _ => Runs.need (by simp [Body.wire, BIT16SZ]) ((g16_reads.runs hlt _ _).bind
      (Runs.atMost hmax (hruns _).map)), rfl, rfl, fun _ pre post hk => ?_, fun _ _ _ => trivial, fun _ _ _ => rfl⟩
    simp only [Fcall.body, Body.type, Fcall.deref, hn, hwq]
  | Rread data =>
    have hn := toNat_ofNat32 hok
    have h := (data_left (k := k + (leBytes 4 data.length).length) data).right
    refine ⟨_, _, fun _ a => Runs.need (by simp [Body.wire, BIT32SZ]) ((g32_reads.runs hok _ _).bind (runs_gdata a hn).map),
      rfl, rfl, fun _ pre post hk => ?_, fun pre post hk => ?_, fun _ _ _ => rfl⟩
    · simp only [Fcall.body, Body.type, Fcall.deref, hn, (h pre post hk).1]
    · simpa only [Fcall.Backed, Body.type, Fcall.deref, hn] using (h pre post hk).2
  | Twrite fid offset data =>
    have hn := toNat_ofNat32 hok
    have h := (data_left (k := k + (wire32 fid).length + (wire64 offset).length +
      (leBytes 4 data.length).length) data).right.right.right
    refine ⟨_, _, fun _ a => Runs.need (by simp [Body.wire, BIT32SZ, BIT64SZ]; omega) ((runs_g32 fid).bind
      ((runs_g64 offset).bind ((g32_reads.runs hok _ _).bind (runs_gdata a hn).map))), rfl, rfl,
      fun _ pre post hk => ?_, fun pre post hk => ?_, fun _ _ _ => rfl⟩
    · simp only [Fcall.body, Body.type, Fcall.deref, hn, (h pre post hk).1]
    · simpa only [Fcall.Backed, Body.type, Fcall.deref, hn] using (h pre post hk).2
  | Rstat stat =>
    have hn := toNat_ofNat16 hok
    have h := (data_left (k := k + (leBytes 2 stat.length).length) stat).right
    refine ⟨_, _, fun _ a => Runs.need (by simp [Body.wire, BIT16SZ]) ((g16_reads.runs hok _ _).bind (runs_gdata a hn).map),
      rfl, rfl, fun _ pre post hk => ?_, fun pre post hk => ?_, fun _ _ _ => rfl⟩
    · simp only [Fcall.body, Body.type, Fcall.deref, hn, (h pre post hk).1]
    · simpa only [Fcall.Backed, Body.type, Fcall.deref, hn] using (h pre post hk).2
  | Twstat fid stat =>
    have hn := toNat_ofNat16 hok
    have h := (data_left (k := k + (wire32 fid).length + (leBytes 2 stat.length).length) stat).right.right
    refine ⟨_, _, fun _ a => Runs.need (by simp [Body.wire, BIT32SZ, BIT16SZ]; omega) ((runs_g32 fid).bind
      ((g16_reads.runs hok _ _).bind (runs_gdata a hn).map)), rfl, rfl, fun _ pre post hk => ?_,
      fun pre post hk => ?_, fun _ _ _ => rfl⟩
    · simp only [Fcall.body, Body.type, Fcall.deref, hn, (h pre post hk).1]
    · simpa only [Fcall.Backed, Body.type, Fcall.deref, hn] using (h pre post hk).2
  | Rauth q | Rattach q =>
    exact ⟨_, _, fun _ _ => (runs_gqid q).map, rfl, rfl, fun _ _ _ _ => rfl, fun _ _ _ => trivial, fun _ _ _ => rfl⟩
  | Ropen qid iounit | Rcreate qid iounit =>
    exact ⟨_, _, fun _ _ => (runs_gqid qid).bind (Runs.need (by simp [BIT32SZ]) (runs_g32 iounit).map), rfl, rfl,
      fun _ _ _ _ => rfl, fun _ _ _ => trivial, fun _ _ _ => rfl⟩
  | Tflush oldtag =>
    exact ⟨_, _, fun _ _ => Runs.need (by simp [Body.wire, BIT16SZ]) (runs_g16 oldtag).map, rfl, rfl,
      fun _ _ _ _ => rfl, fun _ _ _ => trivial, fun _ _ _ => rfl⟩
  | Topen fid mode =>
    exact ⟨_, _, fun _ _ => Runs.need (by simp [Body.wire, BIT32SZ, BIT8SZ]) ((runs_g32 fid).bind (runs_g8 mode).map), rfl, rfl,
      fun _ _ _ _ => rfl, fun _ _ _ => trivial, fun _ _ _ => rfl⟩
  | Tread fid offset count =>
    exact ⟨_, _, fun _ _ => Runs.need (by simp [Body.wire, BIT32SZ, BIT64SZ]) ((runs_g32 fid).bind ((runs_g64 offset).bind
      (runs_g32 count).map)), rfl, rfl, fun _ _ _ _ => rfl, fun _ _ _ => trivial, fun _ _ _ => rfl⟩
  | Tclunk v | Tremove v | Tstat v | Rwrite v =>
    exact ⟨_, _, fun _ _ => Runs.need (by simp [Body.wire, BIT32SZ]) (runs_g32 v).map, rfl, rfl,
      fun _ _ _ _ => rfl, fun _ _ _ => trivial, fun _ _ _ => rfl⟩
  | Rflush | Rclunk | Rremove | Rwstat =>
    exact ⟨_, _, fun _ _ => Runs.pure f, rfl, rfl, fun _ _ _ _ => rfl, fun _ _ _ => trivial, fun _ _ _ => rfl⟩

/-! ## Reading: only encodings are accepted -/

theorem g8_sound {c c' : Cur} {v : UInt8} (hc : c.p + 1 ≤ c.buf.length) (h : g8 c = some (v, c')) :
    Consumes c c' (wire8 v) := by
  obtain ⟨n, hn, rfl, hcons⟩ := g8_reads.consumes hc h
  rw [wire8, UInt8.toNat_ofNat', Nat.mod_eq_of_lt (show n < 2 ^ 8 from hn)]
  exact hcons

theorem g16_sound {c c' : Cur} {v : UInt16} (hc : c.p + 2 ≤ c.buf.length) (h : g16 c = some (v, c')) :
    Consumes c c' (wire16 v) := by
  obtain ⟨n, hn, rfl, hcons⟩ := g16_reads.consumes hc h
  rw [wire16, UInt16.toNat_ofNat', Nat.mod_eq_of_lt (show n < 2 ^ 16 from hn)]
  exact hcons

theorem g32_sound {c c' : Cur} {v : UInt32} (hc : c.p + 4 ≤ c.buf.length) (h : g32 c = some (v, c')) :
    Consumes c c' (wire32 v) := by
  obtain ⟨n, hn, rfl, hcons⟩ := g32_reads.consumes hc h
  rw [wire32, UInt32.toNat_ofNat', Nat.mod_eq_of_lt (show n < 2 ^ 32 from hn)]
  exact hcons

theorem g64_sound {c c' : Cur} {v : UInt64} (hc : c.p + 8 ≤ c.buf.length) (h : g64 c = some (v, c')) :
    Consumes c c' (wire64 v) := by
  obtain ⟨n, hn, rfl, hcons⟩ := g64_reads.consumes hc h
  rw [wire64, UInt64.toNat_ofNat', Nat.mod_eq_of_lt (show n < 2 ^ 64 from hn)]
  exact hcons

section

variable {ep : Nat} {c c' : Cur}

theorem gqid_sound {q : Qid} (hep : ep ≤ c.buf.length) (h : gqid ep c = some (q, c')) :
    Consumes c c' (wireQid q) := by
  simp only [gqid, bind_some_iff, need_some_iff, pure_some_iff, Prod.mk.injEq] at h
  obtain ⟨_, _, ⟨hn, -, rfl⟩, _, c1, h1, _, _, h₂, _, _, h3, rfl, rfl⟩ := h
  have hroom : c.p + 13 ≤ c.buf.length := Nat.le_trans hn hep
  have h1 := g8_sound (Nat.le_trans (by omega) hroom) h1
  have hroom1 : c1.p + 12 ≤ c1.buf.length := h1.room hroom (by simp)
  have h₂ := g32_sound (Nat.le_trans (by omega) hroom1) h₂
  have h3 := g64_sound (h₂.room hroom1 (by simp)) h3
  exact h1.trans (h₂.trans h3)

theorem gdata_sound {a : Place ep} {o : Off} (hep : ep ≤ c.buf.length) (hn : a.addr + c.p + n < 2 ^ 32)
    (h : gdata a.addr ep n c = some (o, c')) : ∃ d : List UInt8, d.length = n ∧ Consumes c c' d := by
  unfold gdata at h
  rw [Nat.mod_eq_of_lt hn, Nat.mod_eq_of_lt (show c.p + n < 2 ^ 32 by omega)] at h
  split at h
  · simp at h
  obtain ⟨-, rfl⟩ := h
  have hlen : ((c.buf.drop c.p).take n).length = n := by simp; omega
  refine ⟨(c.buf.drop c.p).take n, hlen, ?_, by rw [hlen], rfl⟩
  rw [← drop_drop, take_append_drop]

theorem gstring_sound {a : Off} (hep : ep ≤ c.buf.length) (h : gstring ep c = some (a, c')) :
    ∃ s : List UInt8, s.length < 2 ^ 16 ∧ Consumes c c' (wireStr s) := by
  have hfull := h
  unfold gstring at h
  split at h
  · simp at h
  rename_i h2
  dsimp only at h
  split at h
  · simp at h
  rename_i hn
  simp only [BIT16SZ] at h2 hn
  -- The count and the bytes it counts are what `gstring` accepts, and it accepts nothing else.
  obtain ⟨pre, _, rest, hbuf, hpre, hxs⟩ := @split_at c.buf c.p 2 (by omega)
  obtain ⟨lo, hi, rfl⟩ := length_eq_two.mp hxs
  have hcount : GBIT16 c.buf c.p = leNat [lo, hi] := by
    rw [hbuf, ← hpre, GBIT16_at pre rest rfl]
  have hlt : leNat [lo, hi] < 2 ^ 16 := by simpa using leNat_lt [lo, hi]
  have hlen := congrArg length hbuf
  simp only [length_append, length_cons, length_nil, hpre] at hlen
  have hs : (rest.take (leNat [lo, hi])).length = leNat [lo, hi] := length_take_of_le (by omega)
  have hx : c.buf.drop c.p = wireStr (rest.take (leNat [lo, hi])) ++ rest.drop (leNat [lo, hi]) := by
    rw [wireStr, hs, show leBytes 2 (leNat [lo, hi]) = [lo, hi] from leBytes_leNat [lo, hi], hbuf, ← hpre,
      drop_left, append_assoc, take_append_drop]
  refine ⟨_, by rw [hs]; exact hlt, ?_⟩
  have hr := @runs_gstring (rest.take (leNat [lo, hi])) c.p ep (by rw [hs]; exact hlt)
  refine (hr.consumes (by omega) hx ?_ hfull).2
  rw [length_wireStr, hs, ← hcount]; omega

theorem gnames_sound : ∀ {n i : Nat} {w w' : Nat → Off} {c c' : Cur}, ep ≤ c.buf.length →
    gnames ep n i w c = some (w', c') →
    ∃ ss : List (List UInt8), ss.length = n ∧ (∀ s ∈ ss, s.length < 2 ^ 16) ∧ Consumes c c' (ss.flatMap wireStr)
  | 0, _, _, _, c, c', _, h => by
    simp only [gnames, pure_some_iff, Prod.mk.injEq] at h
    obtain ⟨-, rfl⟩ := h
    exact ⟨[], rfl, by simp, Consumes.refl _⟩
  | n + 1, _, _, _, c, c', hep, h => by
    simp only [gnames, bind_some_iff] at h
    obtain ⟨_, _, h1, h₂⟩ := h
    obtain ⟨s, hs, h1⟩ := gstring_sound hep h1
    obtain ⟨ss, hlen, hss, h₂⟩ := gnames_sound (by rw [h1.length]; exact hep) h₂
    exact ⟨s :: ss, by simp [hlen], by simpa using ⟨hs, hss⟩, h1.trans h₂⟩

theorem gqids_sound : ∀ {n i : Nat} {w w' : Nat → Qid} {c c' : Cur}, ep ≤ c.buf.length →
    gqids ep n i w c = some (w', c') →
    ∃ qs : List Qid, qs.length = n ∧ Consumes c c' (qs.flatMap wireQid)
  | 0, _, _, _, c, c', _, h => by
    simp only [gqids, pure_some_iff, Prod.mk.injEq] at h
    obtain ⟨-, rfl⟩ := h
    exact ⟨[], rfl, Consumes.refl _⟩
  | n + 1, _, _, _, c, c', hep, h => by
    simp only [gqids, bind_some_iff] at h
    obtain ⟨q, _, h1, h₂⟩ := h
    have h1 := gqid_sound hep h1
    obtain ⟨qs, hlen, h₂⟩ := gqids_sound (by rw [h1.length]; exact hep) h₂
    exact ⟨q :: qs, by simp [hlen], h1.trans h₂⟩

theorem atMost_some_iff {r : Unit × Cur} :
    atMost n c = some r ↔ n ≤ MAXWELEM ∧ ((), c) = r := by
  unfold atMost
  split
  · simp; omega
  · simp only [Option.some.injEq, iff_and_self]; omega

theorem g32_some_iff {r : UInt32 × Cur} :
    g32 c = some r ↔ (UInt32.ofNat (GBIT32 c.buf c.p), ⟨c.buf, c.p + BIT32SZ⟩) = r := Option.some_inj

theorem g64_some_iff {r : UInt64 × Cur} :
    g64 c = some r ↔ (UInt64.ofNat (GBIT64 c.buf c.p), ⟨c.buf, c.p + BIT64SZ⟩) = r := Option.some_inj

/-- Where among its fields a message has the count of its data, if that takes four bytes. -/
def countOff : FType → Option Nat
  | .Rread => some 0
  | .Twrite => some (4 + 8)
  | _ => none

/-- What the switch accepts is the encoding of a message of that type, unless the count of its data wraps. -/
theorem getBody_sound {a : Place ep} {f : Fcall Off} {t : FType} (hep : ep ≤ c.buf.length)
    (hwrap : ∀ k, countOff t = some k → a.addr + (c.p + k + 4) + GBIT32 c.buf (c.p + k) < 2 ^ 32)
    (h : getBody a.addr ep f t c = some (f', c')) : ∃ b : Body, b.type = t ∧ b.Ok ∧ Consumes c c' b.wire := by
  have hroom := a.room
  have fit : ∀ {n}, c.p + n ≤ ep → c.p + n ≤ c.buf.length := fun h => Nat.le_trans h hep
  cases t <;> simp only [getBody, bind_some_iff, need_some_iff, atMost_some_iff, pure_some_iff, Prod.mk.injEq] at h
  case Tversion | Rversion =>
    obtain ⟨_, _, ⟨hn, -, rfl⟩, msize, c1, h1, _, c2, h₂, -, rfl⟩ := h
    have h1 := g32_sound (fit hn) h1
    obtain ⟨s, hs, h₂⟩ := gstring_sound (by rw [h1.length]; exact hep) h₂
    first
    | exact ⟨.Tversion msize s, rfl, ⟨by simpa [Body.strings] using hs, trivial⟩, h1.trans h₂⟩
    | exact ⟨.Rversion msize s, rfl, ⟨by simpa [Body.strings] using hs, trivial⟩, h1.trans h₂⟩
  case Rerror =>
    obtain ⟨_, c1, h1, -, rfl⟩ := h
    obtain ⟨s, hs, h1⟩ := gstring_sound hep h1
    exact ⟨.Rerror s, rfl, ⟨by simpa [Body.strings] using hs, trivial⟩, h1⟩
  case Tauth =>
    obtain ⟨_, _, ⟨hn, -, rfl⟩, afid, c1, h1, _, c2, h₂, _, c3, h3, -, rfl⟩ := h
    have h1 := g32_sound (fit hn) h1
    obtain ⟨u, hu, h₂⟩ := gstring_sound (by rw [h1.length]; exact hep) h₂
    obtain ⟨a, ha, h3⟩ := gstring_sound (by rw [h₂.length, h1.length]; exact hep) h3
    exact ⟨.Tauth afid u a, rfl, ⟨by simpa [Body.strings] using ⟨hu, ha⟩, trivial⟩, h1.trans (h₂.trans h3)⟩
  case Tattach =>
    obtain ⟨_, _, ⟨hn, -, rfl⟩, fid, c1, h1, _, _, ⟨hn', -, rfl⟩, afid, c2, h₂, _, c3, h3, _, c4, h4, -, rfl⟩ := h
    have h1 := g32_sound (fit hn) h1
    have h₂ := g32_sound (by rw [h1.length]; exact Nat.le_trans hn' hep) h₂
    obtain ⟨u, hu, h3⟩ := gstring_sound (by rw [h₂.length, h1.length]; exact hep) h3
    obtain ⟨a, ha, h4⟩ := gstring_sound (by rw [h3.length, h₂.length, h1.length]; exact hep) h4
    exact ⟨.Tattach fid afid u a, rfl, ⟨by simpa [Body.strings] using ⟨hu, ha⟩, trivial⟩,
      h1.trans (h₂.trans (h3.trans h4))⟩
  case Twalk =>
    obtain ⟨_, _, ⟨hn, -, rfl⟩, fid, c1, h1, newfid, c2, h₂, _, c3, h3, _, _, ⟨hmax, -, rfl⟩, _, c4, h4,
      -, rfl⟩ := h
    have h1 := g32_sound (Nat.le_trans (by simp [BIT32SZ, BIT16SZ]) (fit hn)) h1
    have hroom1 : c1.p + 6 ≤ c1.buf.length := h1.room (fit hn) (by simp [BIT32SZ, BIT16SZ])
    have h₂ := g32_sound (Nat.le_trans (by omega) hroom1) h₂
    have h3 := g16_sound (h₂.room hroom1 (by simp)) h3
    obtain ⟨ss, hlen, hss, h4⟩ := gnames_sound (by rw [h3.length, h₂.length, h1.length]; exact hep) h4
    refine ⟨.Twalk fid newfid ss, rfl, ⟨hss, by simpa [hlen] using hmax⟩, h1.trans (h₂.trans ?_)⟩
    rw [hlen]
    exact h3.trans h4
  case Rwalk =>
    obtain ⟨_, _, ⟨hn, -, rfl⟩, _, c1, h1, _, _, ⟨hmax, -, rfl⟩, _, c2, h₂, -, rfl⟩ := h
    have h1 := g16_sound (fit hn) h1
    obtain ⟨qs, hlen, h₂⟩ := gqids_sound (by rw [h1.length]; exact hep) h₂
    refine ⟨.Rwalk qs, rfl, ⟨by simp [Body.strings], by simpa [hlen] using hmax⟩, ?_⟩
    simp only [Body.wire, hlen]
    exact h1.trans h₂
  case Topen =>
    obtain ⟨_, _, ⟨hn, -, rfl⟩, fid, c1, h1, mode, c2, h₂, -, rfl⟩ := h
    have h1 := g32_sound (Nat.le_trans (by simp [BIT32SZ, BIT8SZ]) (fit hn)) h1
    have h₂ := g8_sound (h1.room (fit hn) (by simp [BIT32SZ, BIT8SZ])) h₂
    exact ⟨.Topen fid mode, rfl, ⟨by simp [Body.strings], trivial⟩, h1.trans h₂⟩
  case Tcreate =>
    obtain ⟨_, _, ⟨hn, -, rfl⟩, fid, c1, h1, _, c2, h₂, _, _, ⟨hn', -, rfl⟩, perm, c3, h3, mode, c4, h4, -, rfl⟩ := h
    have h1 := g32_sound (fit hn) h1
    obtain ⟨s, hs, h₂⟩ := gstring_sound (by rw [h1.length]; exact hep) h₂
    have hroom2 : c2.p + 5 ≤ c2.buf.length := by rw [h₂.length, h1.length]; exact Nat.le_trans hn' hep
    have h3 := g32_sound (Nat.le_trans (by omega) hroom2) h3
    have h4 := g8_sound (h3.room hroom2 (by simp)) h4
    exact ⟨.Tcreate fid s perm mode, rfl, ⟨by simpa [Body.strings] using hs, trivial⟩,
      h1.trans (h₂.trans (h3.trans h4))⟩
  case Tread =>
    obtain ⟨_, _, ⟨hn, -, rfl⟩, fid, c1, h1, offset, c2, h₂, count, c3, h3, -, rfl⟩ := h
    have h1 := g32_sound (Nat.le_trans (by simp [BIT32SZ, BIT64SZ]) (fit hn)) h1
    have hroom1 : c1.p + 12 ≤ c1.buf.length := h1.room (fit hn) (by simp [BIT32SZ, BIT64SZ])
    have h₂ := g64_sound (Nat.le_trans (by omega) hroom1) h₂
    have h3 := g32_sound (h₂.room hroom1 (by simp)) h3
    exact ⟨.Tread fid offset count, rfl, ⟨by simp [Body.strings], trivial⟩, h1.trans (h₂.trans h3)⟩
  case Twrite =>
    obtain ⟨_, _, ⟨hn, -, rfl⟩, fid, c1, h1, offset, c2, h₂, count, c3, h3, _, c4, h4, -, rfl⟩ := h
    have hcount : a.addr + c3.p + count.toNat < 2 ^ 32 := by
      have hlt := hwrap _ rfl
      rw [g32_some_iff, Prod.mk.injEq] at h1 h3
      rw [g64_some_iff, Prod.mk.injEq] at h₂
      obtain ⟨-, rfl⟩ := h1
      obtain ⟨-, rfl⟩ := h₂
      obtain ⟨rfl, rfl⟩ := h3
      rw [UInt32.toNat_ofNat']
      exact Nat.lt_of_le_of_lt (Nat.add_le_add_left (Nat.mod_le _ _) _) hlt
    have h1 := g32_sound (Nat.le_trans (by simp [BIT32SZ, BIT64SZ]) (fit hn)) h1
    have hroom1 : c1.p + 12 ≤ c1.buf.length := h1.room (fit hn) (by simp [BIT32SZ, BIT64SZ])
    have h₂ := g64_sound (Nat.le_trans (by omega) hroom1) h₂
    have h3 := g32_sound (h₂.room hroom1 (by simp)) h3
    obtain ⟨d, hlen, h4⟩ := gdata_sound (by rw [h3.length, h₂.length, h1.length]; exact hep) hcount h4
    refine ⟨.Twrite fid offset d, rfl, ⟨by simp [Body.strings], by simp [hlen, count.toNat_lt]⟩,
      h1.trans (h₂.trans ?_)⟩
    rw [hlen]
    exact h3.trans h4
  case Rread =>
    obtain ⟨_, _, ⟨hn, -, rfl⟩, count, c1, h1, _, c2, h₂, -, rfl⟩ := h
    have hcount : a.addr + c1.p + count.toNat < 2 ^ 32 := by
      have hlt := hwrap _ rfl
      rw [g32_some_iff, Prod.mk.injEq] at h1
      obtain ⟨rfl, rfl⟩ := h1
      rw [UInt32.toNat_ofNat']
      exact Nat.lt_of_le_of_lt (Nat.add_le_add_left (Nat.mod_le _ _) _) hlt
    have h1 := g32_sound (fit hn) h1
    obtain ⟨d, hlen, h₂⟩ := gdata_sound (by rw [h1.length]; exact hep) hcount h₂
    refine ⟨.Rread d, rfl, ⟨by simp [Body.strings], by simp [hlen, count.toNat_lt]⟩, ?_⟩
    simp only [Body.wire, hlen]
    exact h1.trans h₂
  case Twstat =>
    obtain ⟨_, _, ⟨hn, -, rfl⟩, fid, c1, h1, nstat, c2, h₂, _, c3, h3, -, rfl⟩ := h
    have h1 := g32_sound (Nat.le_trans (by simp [BIT32SZ, BIT16SZ]) (fit hn)) h1
    have h₂ := g16_sound (h1.room (fit hn) (by simp [BIT32SZ, BIT16SZ])) h₂
    have hcount : a.addr + c2.p + nstat.toNat < 2 ^ 32 := by
      have := nstat.toNat_lt
      have := (h1.trans h₂).p
      simp [BIT32SZ, BIT16SZ] at hn this
      omega
    obtain ⟨d, hlen, h3⟩ := gdata_sound (by rw [h₂.length, h1.length]; exact hep) hcount h3
    refine ⟨.Twstat fid d, rfl, ⟨by simp [Body.strings], by simp [hlen, nstat.toNat_lt]⟩, h1.trans ?_⟩
    rw [hlen]
    exact h₂.trans h3
  case Rstat =>
    obtain ⟨_, _, ⟨hn, -, rfl⟩, nstat, c1, h1, _, c2, h₂, -, rfl⟩ := h
    have h1 := g16_sound (fit hn) h1
    have hcount : a.addr + c1.p + nstat.toNat < 2 ^ 32 := by
      have := nstat.toNat_lt
      have := h1.p
      simp [BIT16SZ] at hn this
      omega
    obtain ⟨d, hlen, h₂⟩ := gdata_sound (by rw [h1.length]; exact hep) hcount h₂
    refine ⟨.Rstat d, rfl, ⟨by simp [Body.strings], by simp [hlen, nstat.toNat_lt]⟩, ?_⟩
    simp only [Body.wire, hlen]
    exact h1.trans h₂
  case Tflush =>
    obtain ⟨_, _, ⟨hn, -, rfl⟩, oldtag, c1, h1, -, rfl⟩ := h
    exact ⟨.Tflush oldtag, rfl, ⟨by simp [Body.strings], trivial⟩, g16_sound (fit hn) h1⟩
  case Tclunk | Tremove | Tstat | Rwrite =>
    obtain ⟨_, _, ⟨hn, -, rfl⟩, v, c1, h1, -, rfl⟩ := h
    have h1 := g32_sound (fit hn) h1
    first
    | exact ⟨.Tclunk v, rfl, ⟨by simp [Body.strings], trivial⟩, h1⟩
    | exact ⟨.Tremove v, rfl, ⟨by simp [Body.strings], trivial⟩, h1⟩
    | exact ⟨.Tstat v, rfl, ⟨by simp [Body.strings], trivial⟩, h1⟩
    | exact ⟨.Rwrite v, rfl, ⟨by simp [Body.strings], trivial⟩, h1⟩
  case Rauth | Rattach =>
    obtain ⟨q, c1, h1, -, rfl⟩ := h
    have h1 := gqid_sound hep h1
    first
    | exact ⟨.Rauth q, rfl, ⟨by simp [Body.strings], trivial⟩, h1⟩
    | exact ⟨.Rattach q, rfl, ⟨by simp [Body.strings], trivial⟩, h1⟩
  case Ropen | Rcreate =>
    obtain ⟨q, c1, h1, _, _, ⟨hn, -, rfl⟩, iounit, c2, h₂, -, rfl⟩ := h
    have h1 := gqid_sound hep h1
    have h₂ := g32_sound (by rw [h1.length]; exact Nat.le_trans hn hep) h₂
    first
    | exact ⟨.Ropen q iounit, rfl, ⟨by simp [Body.strings], trivial⟩, h1.trans h₂⟩
    | exact ⟨.Rcreate q iounit, rfl, ⟨by simp [Body.strings], trivial⟩, h1.trans h₂⟩
  case Rflush | Rclunk | Rremove | Rwstat =>
    obtain ⟨-, rfl⟩ := h
    first
    | exact ⟨.Rflush, rfl, ⟨by simp [Body.strings], trivial⟩, Consumes.refl _⟩
    | exact ⟨.Rclunk, rfl, ⟨by simp [Body.strings], trivial⟩, Consumes.refl _⟩
    | exact ⟨.Rremove, rfl, ⟨by simp [Body.strings], trivial⟩, Consumes.refl _⟩
    | exact ⟨.Rwstat, rfl, ⟨by simp [Body.strings], trivial⟩, Consumes.refl _⟩

end

/-! ## A count that wraps -/

/-- The count of the data takes the pointer around memory, to just where the size says that the message ends. -/
def Wraps (a : Nat) (ap : List UInt8) (nap : Nat) : Prop :=
  ∃ t k, FType.ofCode (UInt8.ofNat (GBIT8 ap 4)) = some t ∧ countOff t = some k ∧
    7 + k + 4 ≤ nap ∧ 7 ≤ GBIT32 ap 0 ∧ 2 ^ 32 ≤ a + (7 + k + 4) + GBIT32 ap (7 + k) ∧
    GBIT32 ap 0 = (7 + k + 4 + GBIT32 ap (7 + k)) % 2 ^ 32

theorem GBIT32_lt (buf : List UInt8) (p : Nat) : GBIT32 buf p < 2 ^ 32 := by
  have hbyte : ∀ q i, i ≤ 24 → (byteAt buf q).toNat <<< i < 2 ^ 32 := fun q i hi => by
    rw [Nat.shiftLeft_eq]
    calc (byteAt buf q).toNat * 2 ^ i < 2 ^ 8 * 2 ^ i := Nat.mul_lt_mul_of_pos_right (byteAt buf q).toNat_lt (Nat.two_pow_pos i)
      _ = 2 ^ (8 + i) := (Nat.pow_add 2 8 i).symm
      _ ≤ 2 ^ 32 := Nat.pow_le_pow_right (by decide) (by omega)
  exact Nat.or_lt_two_pow (Nat.or_lt_two_pow (Nat.or_lt_two_pow (hbyte p 0 (by decide)) (hbyte _ 8 (by decide)))
    (hbyte _ 16 (by decide))) (hbyte _ 24 (by decide))

section

variable {a nap ep k : Nat} {c : Cur} {t : FType} {ap : List UInt8}

theorem getBody_count (f : Fcall Off) (hk : countOff t = some k) :
    ∃ f', getBody a ep f t c =
      if c.p + (k + 4) > ep ∨ (a + (c.p + k + 4) + GBIT32 c.buf (c.p + k)) % 2 ^ 32 > a + ep then none
      else some (f', ⟨c.buf, (c.p + k + 4 + GBIT32 c.buf (c.p + k)) % 2 ^ 32⟩) := by
  have hlt := GBIT32_lt c.buf (c.p + k)
  cases t with
  | Rread =>
    cases hk
    refine ⟨{ f with count := UInt32.ofNat (GBIT32 c.buf c.p), data := some (c.p + BIT32SZ) }, ?_⟩
    change GBIT32 c.buf c.p < 2 ^ 32 at hlt
    by_cases hroom : c.p + BIT32SZ > ep
    · have hneed : need ep BIT32SZ c = none := if_pos hroom
      rw [if_pos (show c.p + (0 + 4) > ep ∨ _ from .inl hroom)]
      simp only [getBody, bind, StateT.bind, hneed]
      rfl
    have hneed : need ep BIT32SZ c = some ((), c) := if_neg hroom
    simp only [getBody, bind, StateT.bind, hneed, Option.bind_some, g32, gdata, toNat_ofNat32 hlt]
    by_cases hsum : (a + (c.p + BIT32SZ) + GBIT32 c.buf c.p) % 2 ^ 32 > a + ep
    · rw [if_pos hsum, if_pos (show _ ∨ (a + (c.p + 0 + 4) + GBIT32 c.buf (c.p + 0)) % 2 ^ 32 > a + ep from .inr hsum)]
      rfl
    · rw [if_neg hsum, if_neg (show ¬(c.p + (0 + 4) > ep ∨ (a + (c.p + 0 + 4) + GBIT32 c.buf (c.p + 0)) % 2 ^ 32 > a + ep)
        from not_or.mpr ⟨hroom, hsum⟩)]
      rfl
  | Twrite =>
    cases hk
    refine ⟨{ f with
      fid := UInt32.ofNat (GBIT32 c.buf c.p)
      offset := UInt64.ofNat (GBIT64 c.buf (c.p + BIT32SZ))
      count := UInt32.ofNat (GBIT32 c.buf (c.p + BIT32SZ + BIT64SZ))
      data := some (c.p + BIT32SZ + BIT64SZ + BIT32SZ) }, ?_⟩
    change GBIT32 c.buf (c.p + BIT32SZ + BIT64SZ) < 2 ^ 32 at hlt
    by_cases hroom : c.p + (BIT32SZ + BIT64SZ + BIT32SZ) > ep
    · have hneed : need ep (BIT32SZ + BIT64SZ + BIT32SZ) c = none := if_pos hroom
      rw [if_pos (show c.p + (4 + 8 + 4) > ep ∨ _ from .inl hroom)]
      simp only [getBody, bind, StateT.bind, hneed]
      rfl
    have hneed : need ep (BIT32SZ + BIT64SZ + BIT32SZ) c = some ((), c) := if_neg hroom
    simp only [getBody, bind, StateT.bind, hneed, Option.bind_some, g32, g64, gdata, toNat_ofNat32 hlt]
    by_cases hsum : (a + (c.p + BIT32SZ + BIT64SZ + BIT32SZ) + GBIT32 c.buf (c.p + BIT32SZ + BIT64SZ)) % 2 ^ 32 > a + ep
    · rw [if_pos hsum, if_pos (show _ ∨ (a + (c.p + (4 + 8) + 4) + GBIT32 c.buf (c.p + (4 + 8))) % 2 ^ 32 > a + ep from .inr hsum)]
      rfl
    · rw [if_neg hsum, if_neg (show ¬(c.p + (4 + 8 + 4) > ep ∨
        (a + (c.p + (4 + 8) + 4) + GBIT32 c.buf (c.p + (4 + 8))) % 2 ^ 32 > a + ep) from not_or.mpr ⟨hroom, hsum⟩)]
      rfl
  | _ => cases hk

theorem convM2S_count (a nap : Nat) (f : Fcall Off) (ht : FType.ofCode (UInt8.ofNat (GBIT8 ap 4)) = some t)
    (hk : countOff t = some k) :
    ∃ f', convM2S a ap nap f =
      if 7 + k + 4 ≤ nap ∧ 7 ≤ GBIT32 ap 0 ∧ (a + (7 + k + 4) + GBIT32 ap (7 + k)) % 2 ^ 32 ≤ a + nap ∧
          GBIT32 ap 0 = (7 + k + 4 + GBIT32 ap (7 + k)) % 2 ^ 32 then some (GBIT32 ap 0, f', ap)
      else none := by
  obtain ⟨f', hbody⟩ := @getBody_count a nap k ⟨ap, 7⟩ t
    { f with type := UInt8.ofNat (GBIT8 ap 4), tag := UInt16.ofNat (GBIT16 ap 5) } hk
  refine ⟨f', ?_⟩
  unfold convM2S
  simp only [BIT32SZ, BIT8SZ, BIT16SZ, Nat.reduceAdd, ht, hbody]
  have hend : (a + (7 + k + 4 + GBIT32 ap (7 + k)) % 2 ^ 32) % 2 ^ 32 =
      (a + (7 + k + 4) + GBIT32 ap (7 + k)) % 2 ^ 32 := by
    rw [Nat.add_mod_mod, ← Nat.add_assoc]
  by_cases hnap : 7 + k + 4 ≤ nap
  swap
  · rw [if_pos (Or.inl (by omega)), if_neg (show ¬(7 + k + 4 ≤ nap ∧ _) from fun h => hnap h.1)]
    dsimp only
    rw [ite_self, ite_self]
  by_cases hsize : 7 ≤ GBIT32 ap 0
  swap
  · rw [if_pos (show GBIT32 ap 0 < 7 by omega), ite_self,
      if_neg (show ¬(7 + k + 4 ≤ nap ∧ 7 ≤ GBIT32 ap 0 ∧ _) from fun h => hsize h.2.1)]
  rw [if_neg (by omega), if_neg (by omega)]
  by_cases hsum : (a + (7 + k + 4) + GBIT32 ap (7 + k)) % 2 ^ 32 ≤ a + nap
  swap
  · rw [if_pos (Or.inr (by omega)), if_neg (show ¬(_ ∧ _ ∧ _ ∧ _) from fun h => hsum h.2.2.1)]
  rw [if_neg (by omega)]
  dsimp only
  rw [hend, if_neg (by omega)]
  by_cases hsz : GBIT32 ap 0 = (7 + k + 4 + GBIT32 ap (7 + k)) % 2 ^ 32
  · rw [if_pos hsz, if_pos ⟨hnap, hsize, hsum, hsz⟩]
  · rw [if_neg hsz, if_neg (fun h => hsz h.2.2.2)]

theorem countOff_lt {a : Place ap.length} {f : Fcall Off} {r : Nat × Fcall Off × List UInt8} (hwrap : ¬ Wraps a.addr ap nap)
    (ht : FType.ofCode (UInt8.ofNat (GBIT8 ap 4)) = some t) (h : convM2S a.addr ap nap f = some r) (k : Nat)
    (hk : countOff t = some k) : a.addr + (7 + k + 4) + GBIT32 ap (7 + k) < 2 ^ 32 := by
  obtain ⟨f', hconv⟩ := convM2S_count a.addr nap f ht hk
  by_contra hge
  rw [hconv] at h
  split at h
  · rename_i hacc
    exact hwrap ⟨t, k, ht, hk, hacc.1, hacc.2.1, by omega, hacc.2.2.2⟩
  · cases h

end

/-! ## Whole messages -/

theorem head_fields (hs : m.size < 2 ^ 32) (rest : List UInt8) :
    GBIT32 (m.wire ++ rest) 0 = m.size ∧ UInt8.ofNat (GBIT8 (m.wire ++ rest) 4) = m.body.type.code ∧
      UInt16.ofNat (GBIT16 (m.wire ++ rest) 5) = m.tag := by
  have h1 := GBIT32_at [] (wire8 m.body.type.code ++ (wire16 m.tag ++ (m.body.wire ++ rest)))
    (length_leBytes 4 m.size)
  have h₂ := GBIT8_at (leBytes 4 m.size) (wire16 m.tag ++ (m.body.wire ++ rest))
    (length_wire8 m.body.type.code)
  have h3 := GBIT16_at (leBytes 4 m.size ++ wire8 m.body.type.code) (m.body.wire ++ rest)
    (length_wire16 m.tag)
  simp only [nil_append, length_nil, length_leBytes, length_append, wire8, wire16,
    leNat_leBytes, append_assoc] at h1 h₂ h3
  simp only [Msg.wire, Msg.head, wire8, wire16, append_assoc]
  refine ⟨?_, ?_, ?_⟩
  · rw [h1, Nat.mod_eq_of_lt (show m.size < 256 ^ 4 from hs)]
  · rw [h₂, Nat.mod_eq_of_lt (show m.body.type.code.toNat < 256 ^ 1 from m.body.type.code.toNat_lt), UInt8.ofNat_toNat]
  · rw [h3, Nat.mod_eq_of_lt (show m.tag.toNat < 256 ^ 2 from m.tag.toNat_lt), UInt16.ofNat_toNat]

/-- What `convM2S` makes of a message: the `Fcall` it fills and the bytes it leaves. -/
structure Accepted (f : Fcall Off) (m : Msg) (f' : Fcall Off) (ys : List UInt8) : Prop where
  length : ys.length = m.size
  type : f'.type = m.body.type.code
  run : ∀ rest nap (a : Place nap), m.size ≤ nap → convM2S a.addr (m.wire ++ rest) nap f = some (m.size, f', ys ++ rest)
  msg : (∀ s ∈ m.body.strings, 0 ∉ s) → ∀ rest, (f'.deref (ys ++ rest)).msg = some m
  backed : ∀ rest, (f'.deref (ys ++ rest)).Backed m.body.type
  strings : ∀ rest, (f'.strings m.body.type).map (counted (m.wire ++ rest)) = m.body.strings

/-- **Every encoding is accepted**, whatever follows it in the buffer. -/
theorem convM2S_wire (hok : m.Ok) (f : Fcall Off) : ∃ f' ys, Accepted f m f' ys := by
  obtain ⟨f', ys, hd⟩ := getBody_decodes hok.body 7 { f with type := m.body.type.code, tag := m.tag }
  refine ⟨f', m.head ++ ys, ?_, hd.type, fun rest nap a hn => ?_, fun hnul rest => ?_, fun rest => ?_,
    fun rest => ?_⟩
  · simp only [length_append, length_head, (hd.runs 0 ⟨0, by decide⟩).length, Msg.size]
  · obtain ⟨hsize, htype, htag⟩ := head_fields hok.size rest
    have hroom := a.room
    have hrun := (hd.runs nap a).run m.head rest (length_head m) (by simp only [Msg.size] at hn; omega)
    rw [← append_assoc, ← Msg.wire] at hrun
    simp only [convM2S, BIT32SZ, BIT8SZ, BIT16SZ, Nat.reduceAdd, hsize, htype, htag, ofCode_code, hrun,
      if_neg (show ¬ 7 > nap by simp only [Msg.size] at hn; omega),
      if_neg (show ¬ m.size < 7 by simp only [Msg.size]; omega),
      Nat.mod_eq_of_lt (show a.addr + (7 + m.body.wire.length) < 2 ^ 32 by simp only [Msg.size] at hn; omega),
      if_neg (show ¬ a.addr + (7 + m.body.wire.length) > a.addr + nap by simp only [Msg.size] at hn; omega),
      if_pos (show m.size = 7 + m.body.wire.length by simp only [Msg.size])]
    simp
  · have hbody := hd.body hnul m.head rest (length_head m)
    rw [← append_assoc] at hbody
    simp only [Fcall.msg, deref_type, deref_tag, hd.type, hd.tag, ofCode_code, Option.map_some, hbody]
  · exact hd.backed m.head rest (length_head m)
  · exact hd.strings m.head rest (length_head m)

/-- **Only encodings are accepted**, where no count wraps. -/
theorem convM2S_sound {ap ap' : List UInt8} {nap : Nat} {a : Place ap.length} {f : Fcall Off} (hap : nap ≤ ap.length)
    (hwrap : ¬ Wraps a.addr ap nap) (h : convM2S a.addr ap nap f = some (n, f', ap')) :
    ∃ (m : Msg) (rest : List UInt8), m.Ok ∧ ap = m.wire ++ rest ∧ n = m.size ∧ m.size ≤ nap := by
  have h' := h
  unfold convM2S at h
  dsimp only at h
  split at h
  · simp at h
  rename_i h7
  split at h
  · simp at h
  split at h
  · simp at h
  rename_i t ht
  split at h
  · simp at h
  rename_i f'' c hbody
  split at h
  · simp at h
  split at h
  · rename_i hsize
    simp only [Option.some.injEq, Prod.mk.injEq] at h
    obtain ⟨rfl, rfl, rfl⟩ := h
    simp only [BIT32SZ, BIT8SZ, BIT16SZ, Nat.reduceAdd] at h7 ht hbody
    obtain ⟨b, rfl, hok, hcons⟩ := getBody_sound (a := a.shrink hap) hap (countOff_lt hwrap ht h') hbody
    have hcode := ofCode_eq_some ht
    have h1 := g32_sound (c := ⟨ap, 0⟩) (by simp only; omega) rfl
    have h₂ := g8_sound (c := ⟨ap, 4⟩) (by simp only; omega) rfl
    have h3 := g16_sound (c := ⟨ap, 5⟩) (by simp only; omega) rfl
    have hall := (h1.trans (h₂.trans h3)).trans hcons
    have hlt : GBIT32 ap 0 < 2 ^ 32 := by
      have hlen : (ap.take 4).length = 4 := by simp; omega
      have hat := GBIT32_at [] (ap.drop 4) hlen
      rw [nil_append, take_append_drop] at hat
      rw [show (0 : Nat) = ([] : List UInt8).length from rfl, hat]
      simpa [hlen] using leNat_lt (ap.take 4)
    have hcp : c.p = 7 + b.wire.length := hcons.p
    have hin : c.p ≤ ap.length := by
      have hleft := congrArg length hcons.next
      simp only [length_append, length_drop, hcons.length] at hleft
      omega
    have hroom := a.room
    refine ⟨⟨UInt16.ofNat (GBIT16 ap 5), b⟩, c.buf.drop c.p, ⟨hok, ?_⟩, ?_, ?_, ?_⟩
    · simp only [Msg.size]; omega
    · have := hall.next
      simp only [drop_zero, wire32, toNat_ofNat32 hlt] at this
      refine this.trans ?_
      simp only [Msg.wire, Msg.head, Msg.size, hcode, hsize, hcp]
    · simp only [Msg.size]; omega
    · simp only [Msg.size]; omega
  · simp at h

/-! ## The converters together -/

/-- No string that `convM2S` decoded from `ap` has a zero byte in it. -/
def NulFree (ap : List UInt8) (f : Fcall Off) : Prop :=
  ∀ t, FType.ofCode f.type = some t → ∀ a ∈ f.strings t, 0 ∉ counted ap a

/-- A message that takes the whole buffer does not wrap. -/
theorem not_wraps_of_whole {ap ap' : List UInt8} {a : Place ap.length} {f f' : Fcall Off}
    (h : convM2S a.addr ap ap.length f = some (ap.length, f', ap')) : ¬ Wraps a.addr ap ap.length := by
  rintro ⟨t, k, ht, hk, hnap, -, hwrap, -⟩
  have hroom := a.room
  have hlt := GBIT32_lt ap (7 + k)
  obtain ⟨_, hconv⟩ := convM2S_count a.addr ap.length f ht hk
  rw [hconv] at h
  split at h
  · rename_i hacc
    have hsize : GBIT32 ap 0 = ap.length := (Prod.mk.inj (Option.some.inj h)).1
    obtain ⟨-, -, -, hend⟩ := hacc
    omega
  · cases h

/-- What `convM2S` makes of a message, if it reads it as it is. -/
structure Exact (a : Nat) (ap : List UInt8) (nap : Nat) (f : Fcall Off) (n : Nat) (f' : Fcall Off) (ap' : List UInt8) :
    Prop where
  size : n = GBIT32 ap 0
  le : n ≤ nap
  after : ap'.drop n = ap.drop n
  /-- The bytes after it do not matter. -/
  front : ∀ ap₂ nap₂ (b : Place nap₂), ap₂.take n = ap.take n → n ≤ nap₂ → nap₂ ≤ ap₂.length →
    convM2S b.addr ap₂ nap₂ f = some (n, f', ap'.take n ++ ap₂.drop n)
  again : NulFree ap f' → ∀ buf nbuf, n ≤ nbuf → nbuf ≤ buf.length →
    convS2M (f'.deref ap') buf nbuf = (n, ap.take n ++ buf.drop n)
  inj : NulFree ap f' → ∀ ap₂ ap₂' nap₂ (b : Place ap₂.length) n₂ g g', nap₂ ≤ ap₂.length → ¬ Wraps b.addr ap₂ nap₂ →
    convM2S b.addr ap₂ nap₂ g = some (n₂, g', ap₂') → NulFree ap₂ g' →
    (g'.deref ap₂').msg = (f'.deref ap').msg → ap₂.take n₂ = ap.take n

end Plan9.Libc
