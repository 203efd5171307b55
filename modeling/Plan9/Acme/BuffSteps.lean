/-
What each operation on a buffer does to its text, and to no other's.

A run of `insertStep`, `deleteStep` or of the loop of `bufread` is one round of a loop; it
takes a rune at least, and what is left to do is the same operation further on.
-/
import Mathlib.Data.List.TakeDrop
import Plan9.Acme.BuffFacts

namespace Plan9.Acme

open List

/-! ## Texts -/

/-- The runes `s` inserted at `q0`. -/
def insertAt (q0 : Nat) (s text : List Rune) : List Rune := text.take q0 ++ s ++ text.drop q0

def deleteFrom (q0 q1 : Nat) (text : List Rune) : List Rune := text.take q0 ++ text.drop q1

theorem length_insertAt (q0 : Nat) (s text : List Rune) : (insertAt q0 s text).length = text.length + s.length := by
  rw [insertAt, length_append, length_append, length_take, length_drop]
  omega

theorem length_deleteFrom {q0 q1 : Nat} {text : List Rune} (h : q0 ≤ q1) (hq : q1 ≤ text.length) :
    (deleteFrom q0 q1 text).length = text.length - (q1 - q0) := by
  rw [deleteFrom, length_append, length_take, length_drop]
  omega

section

variable {xs c ys : List Rune} {q0 : Nat}

theorem take_middle (h : xs.length ≤ q0) (h' : q0 ≤ xs.length + c.length) :
    (xs ++ c ++ ys).take q0 = xs ++ c.take (q0 - xs.length) := by
  rw [append_assoc, take_append, take_of_length_le h, take_append]
  have : q0 - xs.length - c.length = 0 := by omega
  rw [this, take_zero, append_nil]

theorem drop_middle (h : xs.length ≤ q0) (h' : q0 ≤ xs.length + c.length) :
    (xs ++ c ++ ys).drop q0 = c.drop (q0 - xs.length) ++ ys := by
  rw [append_assoc, drop_append, drop_of_length_le h, nil_append, drop_append]
  have : q0 - xs.length - c.length = 0 := by omega
  rw [this, drop_zero]

theorem insertAt_middle (s : List Rune) (h : xs.length ≤ q0) (h' : q0 ≤ xs.length + c.length) :
    insertAt q0 s (xs ++ c ++ ys) = xs ++ (c.take (q0 - xs.length) ++ s ++ c.drop (q0 - xs.length)) ++ ys := by
  rw [insertAt, take_middle h h', drop_middle h h']
  simp only [append_assoc]

theorem deleteFrom_middle {q1 : Nat} (h : xs.length ≤ q0) (hq : q0 ≤ q1) (h' : q1 ≤ xs.length + c.length) :
    deleteFrom q0 q1 (xs ++ c ++ ys) = xs ++ (c.take (q0 - xs.length) ++ c.drop (q1 - xs.length)) ++ ys := by
  rw [deleteFrom, take_middle h (Nat.le_trans hq h'), drop_middle (Nat.le_trans h hq) h']
  simp only [append_assoc]

theorem insertAt_insertAt {s text : List Rune} {m : Nat} (hq : q0 ≤ text.length) (hm : m ≤ s.length) :
    insertAt (q0 + m) (s.drop m) (insertAt q0 (s.take m) text) = insertAt q0 s text := by
  have hlen : (text.take q0).length = q0 := length_take_of_le hq
  have hmid : (s.take m).length = m := length_take_of_le hm
  have hcut : insertAt (q0 + m) (s.drop m) (text.take q0 ++ s.take m ++ text.drop q0) = _ :=
    insertAt_middle (s.drop m) (by omega) (by omega)
  rw [hlen, Nat.add_sub_cancel_left] at hcut
  rw [insertAt.eq_def q0, hcut, take_of_length_le (Nat.le_of_eq hmid), drop_of_length_le (Nat.le_of_eq hmid), append_nil,
    take_append_drop, insertAt]

theorem deleteFrom_deleteFrom {q1 n : Nat} {text : List Rune} (hq : q0 + n ≤ q1) (h : q1 ≤ text.length) :
    deleteFrom q0 (q1 - n) (deleteFrom q0 (q0 + n) text) = deleteFrom q0 q1 text := by
  have hlen : (text.take q0).length = q0 := length_take_of_le (by omega)
  rw [deleteFrom, deleteFrom, deleteFrom, take_append_of_le_length (Nat.le_of_eq hlen.symm),
    take_of_length_le (Nat.le_of_eq hlen), drop_append, hlen, drop_drop,
    drop_of_length_le (by omega : (text.take q0).length ≤ q1 - n), nil_append]
  congr 2
  omega

end

/-! ## Inserting -/

/-- A buffer at work. -/
structure Works (d₀ : Disk) (O : Block → Prop) (d : Disk) (b : Buffer) (text : List Rune) : Prop where
  since : Since d₀ O d b.bl
  holds : Holds d b text

/-- What a `bufreset` has left. -/
def Leftover (b : Buffer) : Prop := b.nc = 0 ∧ b.cdirty = false ∧ b.bl ≠ []

section

variable {d₀ d : Disk} {O : Block → Prop} {b : Buffer} {text s : List Rune} {pre post stale : List Block} {k : Block} {q0 : Nat}

variable (h : Works d₀ O d b text) (hr : Rep d b text pre k post stale)

theorem Holds.nc (h : Holds d b text) : b.nc = text.length := by
  rcases h with he | ⟨pre, k, post, stale, hr⟩
  · rw [he.nc, he.text, length_nil]
  · exact hr.nc

include hr in
theorem Rep.bl_ne_nil : b.bl ≠ [] := by
  rw [hr.bl]
  exact append_ne_nil_of_right_ne_nil _ (cons_ne_nil _ _)

include hr in
theorem Rep.length_pre (d : Disk) : (contents d pre).length = b.cq := by
  rw [length_contents, hr.cq]

include hr in
theorem Rep.grow (hlo : b.cq ≤ q0) (hhi : q0 ≤ b.cq + b.cnc)
    (hfit : b.cnc + s.length ≤ Maxblock) :
    Rep d ({ b with c := b.c.take (q0 - b.cq) ++ s ++ b.c.drop (q0 - b.cq) }.tail s.length) (insertAt q0 s text)
      pre k post stale := by
  have hlen : (b.c.take (q0 - b.cq) ++ s ++ b.c.drop (q0 - b.cq)).length = b.cnc + s.length := length_insertAt ..
  refine ⟨hr.bl, hr.cbi, hr.cq, ?_, ?_, ?_, hr.written, nofun, ?_⟩
  · change length (_ ++ _) ≤ _
    rw [hlen]
    exact hfit
  · change b.nc + s.length = _
    rw [length_insertAt, hr.nc]
  · change _ = total pre + length (_ ++ _) + total post
    rw [hlen, length_insertAt, hr.len]
    omega
  intro hle
  have hpre := hr.length_pre d
  rw [hr.text hle, insertAt_middle s (by omega) (by rw [hpre]; exact hhi), hpre]
  rfl

include h in
theorem insert_fits (hlo : b.cq ≤ q0) (hhi : q0 ≤ b.cq + b.cnc) (hpos : 0 < s.length)
    (hfit : b.cnc + s.length ≤ Maxblock) :
    Gives (fun x => Works d₀ O x.1 ({ x.2 with c := x.2.c.take (q0 - b.cq) ++ s ++ x.2.c.drop (q0 - b.cq) }.tail s.length)
        (insertAt q0 s text) ∧
          (Snug b → Snug ({ x.2 with c := x.2.c.take (q0 - b.cq) ++ s ++ x.2.c.drop (q0 - b.cq) }.tail s.length)))
      (if b.bl = [] then
        if b.cnc ≠ 0 then .error "internal error: bufinsert1 cnc!=0"
        else addblock d b 0 (b.cnc + s.length) >>= fun (d, b) => .ok (d, { b with cbi := 0 })
      else .ok (d, b)) := by
  rcases h.holds with he | ⟨pre, k, post, stale, hr⟩
  · have hcnc : b.cnc = 0 := by rw [Buffer.cnc, he.c, length_nil]
    rw [if_pos he.bl, if_neg (not_not.2 hcnc), hcnc, Nat.zero_add]
    rw [hcnc, Nat.zero_add] at hfit
    have hbl : b.bl = [] ++ [] := he.bl
    refine Outcome.bind (addblock_spec h.since hbl rfl hpos hfit) ?_
    rintro ⟨d', _⟩ ⟨k, rfl, -, hsince, -, -, -⟩
    have hc : ∀ n : Nat, b.c.take n ++ s ++ b.c.drop n = s := by
      intro n
      rw [he.c, take_nil, drop_nil, nil_append, append_nil]
    have hins : insertAt q0 s text = s := by
      rw [insertAt, he.text, take_nil, drop_nil, nil_append, append_nil]
    have hrep : Rep d' (Buffer.tail ⟨b.nc, b.c.take (q0 - b.cq) ++ s ++ b.c.drop (q0 - b.cq), b.cq, b.cdirty, 0, [] ++ [k]⟩
        s.length) (insertAt q0 s text) [] k [] [] := by
      refine ⟨rfl, rfl, he.cq, ?_, ?_, ?_, nofun, nofun, ?_⟩
      · rw [hc]
        exact hfit
      · change b.nc + s.length = _
        rw [he.nc, hins, Nat.zero_add]
      · change _ = 0 + (b.c.take _ ++ s ++ b.c.drop _).length + 0
        rw [hc, hins, Nat.zero_add, Nat.add_zero]
      · intro _
        change _ = [] ++ (b.c.take _ ++ s ++ b.c.drop _) ++ []
        rw [hc, hins, nil_append, append_nil]
    exact Outcome.ok ⟨⟨hsince, .inr ⟨[], k, [], [], hrep⟩⟩, fun _ => hrep.snug.2 rfl⟩
  · rw [if_neg hr.bl_ne_nil]
    have hgrow := hr.grow hlo hhi hfit
    exact Outcome.ok ⟨⟨h.since, .inr ⟨pre, k, post, stale, hgrow⟩⟩, fun hsnug => hgrow.snug.2 (hr.snug.1 hsnug)⟩

theorem insert_new {real stale : List Block} {i : Nat} (hs : Since d₀ O d b.bl) (hf : Flushed d b text real stale)
    (hi : i ≤ real.length) (hq : total (real.take i) = q0) (hpos : 0 < s.length) (hmax : s.length ≤ Maxblock) :
    Gives (fun x => Works d₀ O x.1 ({ x.2 with c := s, cq := q0, cbi := i }.tail s.length) (insertAt q0 s text) ∧
        (total stale = 0 → Snug ({ x.2 with c := s, cq := q0, cbi := i }.tail s.length)))
      (addblock d b i s.length) := by
  have hlen : (real.take i).length = i := length_take_of_le hi
  have hbl : b.bl = real.take i ++ (real.drop i ++ stale) := by
    rw [← append_assoc, take_append_drop, hf.bl]
  have hsplit : total real = total (real.take i) + total (real.drop i) := by
    rw [← total_append, take_append_drop]
  refine (addblock_spec hs hbl hlen.symm hpos hmax).mono (fun _ => id) ?_
  rintro ⟨d', _⟩ ⟨k, rfl, -, hsince, hfile, heof, haddr⟩
  have hrep : Rep d' (Buffer.tail ⟨b.nc, s, q0, b.cdirty, i, real.take i ++ k :: (real.drop i ++ stale)⟩ s.length)
      (insertAt q0 s text) (real.take i) k (real.drop i) stale := by
    refine ⟨rfl, hlen.symm, hq.symm, hmax, ?_, ?_, ?_, nofun, ?_⟩
    · change b.nc + s.length = _
      rw [length_insertAt, hf.nc]
    · change _ = total (real.take i) + s.length + total (real.drop i)
      rw [length_insertAt, hf.len, hsplit]
      omega
    · intro j hj
      rw [take_append_drop] at hj
      exact (hf.written j hj).mono (Nat.le_of_eq heof.symm)
    intro hle
    have hpre : (contents d (real.take i)).length = q0 := by rw [length_contents, hq]
    have htext : text = contents d (real.take i) ++ [] ++ contents d (real.drop i) := by
      rw [hf.text (Nat.le_trans haddr hle), append_nil, ← contents_append, take_append_drop]
    rw [htext, insertAt_middle s (Nat.le_of_eq hpre) (by rw [hpre]; exact le_rfl), hpre, Nat.sub_self, take_zero,
      drop_zero, nil_append, append_nil, contents_file hfile, contents_file hfile]
    rfl
  exact ⟨⟨hsince, .inr ⟨_, k, _, stale, hrep⟩⟩, hrep.snug.2⟩

/-- The block in the cache goes to the disk, and there is one of its own for what is inserted before or after it. -/
theorem insert_beside {m : Nat} (hm : s.length = m) (h : Works d₀ O d b text) (hlo : b.cq ≤ q0) (hq : q0 ≤ text.length)
    (hend : q0 = b.cq ∨ q0 = b.cq + b.cnc) (hpos : 0 < s.length) (hmax : s.length ≤ Maxblock) :
    Gives (fun x => Works d₀ O x.1 x.2.1 (insertAt q0 s text) ∧ x.2.2 = m ∧ (Snug b → ¬ Leftover b → Snug x.2.1))
      ((if b.cdirty then flush d b else .ok (d, b)) >>= fun (d, b) =>
        (if b.bl = [] then if b.cnc ≠ 0 then .error "internal error: bufinsert2 cnc!=0" else .ok 0
          else .ok (if q0 > b.cq then b.cbi + 1 else b.cbi)) >>= fun i =>
        addblock d b i m >>= fun (d, b) => .ok (d, { b with c := s, cq := q0, cbi := i }.tail m, m)) := by
  have hnew : ∀ {d' : Disk} {b' : Buffer} {real stale : List Block} {i : Nat}, Since d₀ O d' b'.bl →
      Flushed d' b' text real stale → i ≤ real.length → total (real.take i) = q0 →
      (Snug b → ¬ Leftover b → total stale = 0) →
      Gives (fun x => Works d₀ O x.1 x.2.1 (insertAt q0 s text) ∧ x.2.2 = m ∧ (Snug b → ¬ Leftover b → Snug x.2.1))
        (addblock d' b' i m >>= fun (d, b) => .ok (d, { b with c := s, cq := q0, cbi := i }.tail m, m)) := by
    intro d' b' real stale i hs hf hi hq hstale
    rw [← hm]
    refine Outcome.bind (insert_new hs hf hi hq hpos hmax) ?_
    rintro ⟨_, _⟩ ⟨hw, hsnug⟩
    exact Outcome.ok ⟨hw, rfl, fun h hleft => hsnug (hstale h hleft)⟩
  rcases h.holds with he | ⟨pre, k, post, stale, hr⟩
  · rw [he.cdirty, if_neg nofun]
    change Gives _ ((if b.bl = [] then _ else _) >>= _)
    rw [if_pos he.bl, if_neg (by rw [Buffer.cnc, he.c]; exact not_not.2 rfl)]
    rw [he.text, length_nil] at hq
    have hf : Flushed d b text [] [] := by
      refine ⟨he.bl, Nat.le_of_eq he.cbi, ?_, ?_, ?_, nofun, fun _ => he.text⟩
      · rw [take_nil, he.cq, total_nil]
      · rw [he.nc, he.text, length_nil]
      · rw [he.text, length_nil, total_nil]
    refine hnew h.since hf le_rfl ?_ fun _ _ => rfl
    rw [take_nil, total_nil]
    omega
  cases hdirty : b.cdirty with
  | true =>
    refine Outcome.bind (flush_spec h.since hr (.inl hdirty)) ?_
    rintro ⟨d', b'⟩ ⟨hsince, hc, hcq, hcbi, -, -, real, hf, hnext⟩
    dsimp only at hsince hc hcq hcbi hf
    change Gives _ ((if b'.bl = [] then _ else _) >>= _)
    by_cases hnil : b'.bl = []
    · -- it was the only block, and empty
      have hreal : real = [] := append_eq_nil_iff.1 (hf.bl.symm.trans hnil) |>.1
      have hzero : b.cnc = 0 := by
        by_contra hne
        have := (hnext hne).1
        rw [hreal, length_nil] at this
        omega
      have hlen := hf.len
      rw [hreal, total_nil] at hlen
      rw [if_pos hnil, if_neg (by rw [Buffer.cnc, hc]; exact not_not.2 hzero)]
      refine hnew hsince hf (Nat.zero_le _) ?_ fun hsnug _ => hr.snug.1 hsnug
      rw [take_zero, total_nil]
      omega
    rw [if_neg hnil]
    refine hnew hsince hf ?_ ?_ fun hsnug _ => hr.snug.1 hsnug
    · split
      · rw [hcbi]
        exact (hnext (by omega)).1
      · exact hf.cbi
    split
    · rw [hcbi, (hnext (by omega)).2]
      omega
    · rw [← hf.cq]
      omega
  | false =>
    change Gives _ ((if b.bl = [] then _ else _) >>= _)
    rw [if_neg hr.bl_ne_nil]
    by_cases hzero : b.nc = 0
    · -- what is left of a `bufreset` stays behind
      have hlen := hr.len
      rw [← hr.nc, hzero] at hlen
      have htext : text = [] := length_eq_zero_iff.1 (hr.nc.symm.trans hzero)
      have hpre : pre = [] := by
        refine total_eq_zero (fun j hj => h.since.sound j ?_) (by omega)
        rw [hr.bl]
        exact mem_append_left _ hj
      have hcbi : b.cbi = 0 := by rw [hr.cbi, hpre, length_nil]
      have hcq : b.cq = 0 := by rw [hr.cq]; omega
      have hf : Flushed d b text [] b.bl := by
        refine ⟨rfl, Nat.le_of_eq hcbi, ?_, hr.nc, ?_, nofun, fun _ => htext⟩
        · rw [take_nil, total_nil, hcq]
        · rw [htext, length_nil, total_nil]
      rw [if_neg (by omega)]
      refine hnew h.since hf (Nat.le_of_eq hcbi) ?_ fun _ hleft => absurd ⟨hzero, hdirty, hr.bl_ne_nil⟩ hleft
      rw [take_nil, total_nil]
      omega
    obtain ⟨hf, hkn⟩ := hr.flushed hdirty hzero
    obtain ⟨hle, hnext⟩ := hr.next hkn
    refine hnew h.since hf ?_ ?_ fun hsnug _ => hr.snug.1 hsnug
    · split
      · exact hle
      · exact hf.cbi
    split
    · omega
    · rw [← hf.cq]
      omega

include h in
/-- The block in the cache is cut at `q0`, and what is inserted goes to the end of the left side. -/
theorem insert_split (hlo : b.cq < q0) (hhi : q0 < b.cq + b.cnc)
    (hfit : q0 - b.cq + s.length ≤ Maxblock) :
    Gives (fun x => x.2.c = b.c.take (q0 - b.cq) ∧
        Works d₀ O x.1 ({ x.2 with c := x.2.c ++ s }.tail s.length) (insertAt q0 s text) ∧
          (Snug b → Snug ({ x.2 with c := x.2.c ++ s }.tail s.length)))
      (addblock d b (b.cbi + 1) (b.cnc - (q0 - b.cq)) >>= fun (d, b') =>
        writeblock d b' (b'.cbi + 1) (b'.c.drop (q0 - b.cq)) >>= fun (d, b') =>
        .ok (d, { b' with c := b'.c.take (q0 - b.cq) })) := by
  rcases h.holds with he | ⟨pre, k, post, stale, hr⟩
  · rw [Buffer.cnc, he.c, length_nil] at hhi
    omega
  have hcnc := hr.cnc
  have hbl : b.bl = (pre ++ [k]) ++ (post ++ stale) := by
    rw [hr.bl, append_assoc]
    rfl
  have hlen : (pre ++ [k]).length = b.cbi + 1 := by rw [length_append, length_singleton, hr.cbi]
  have hright : (b.c.drop (q0 - b.cq)).length = b.cnc - (q0 - b.cq) := length_drop
  have hleft : (b.c.take (q0 - b.cq)).length = q0 - b.cq := length_take_of_le (by rw [Buffer.cnc] at hhi; omega)
  refine Outcome.bind (addblock_spec h.since hbl hlen.symm (by omega) (by omega)) ?_
  rintro ⟨d', b'⟩ ⟨_, rfl, -, hsince, hfile, heof, haddr⟩
  refine Outcome.bind (writeblock_spec hsince rfl hlen.symm (by change 0 < (b.c.drop _).length; omega)
    (by change (b.c.drop _).length ≤ _; omega)) ?_
  rintro ⟨d'', _⟩ ⟨k3, rfl, hkn3, hsince', hw, haddr', heof', hcontent⟩
  have hcut : (b.c.take (q0 - b.cq) ++ s).length = q0 - b.cq + s.length := by rw [length_append, hleft]
  have hrep : Rep d'' (Buffer.tail ⟨b.nc, b.c.take (q0 - b.cq) ++ s, b.cq, b.cdirty, b.cbi,
      pre ++ [k] ++ k3 :: (post ++ stale)⟩ s.length) (insertAt q0 s text) pre k (k3 :: post) stale := by
    refine ⟨?_, hr.cbi, hr.cq, ?_, ?_, ?_, ?_, nofun, ?_⟩
    · rw [append_assoc]
      rfl
    · change (b.c.take _ ++ s).length ≤ _
      omega
    · change b.nc + s.length = _
      rw [length_insertAt, hr.nc]
    · change _ = total pre + (b.c.take _ ++ s).length + total (k3 :: post)
      rw [length_insertAt, hr.len, hcut, total_cons, hkn3, hright]
      omega
    · have hold : ∀ j, Written d j → Written d'' j := by
        intro j hj
        have h' : Written d' j := hj.mono (Nat.le_of_eq heof.symm)
        exact h'.mono heof'
      intro j hj
      rcases mem_append.1 hj with hj | hj
      · exact hold j (hr.written j (mem_append_left _ hj))
      · rcases mem_cons.1 hj with rfl | hj
        · exact hw
        · exact hold j (hr.written j (mem_append_right _ hj))
    intro hle
    obtain ⟨hk3, hrest⟩ := hcontent hle
    have hsame : ∀ ks : List Block, (∀ j ∈ ks, j ∈ pre ++ [k] ++ (post ++ stale)) → contents d'' ks = contents d ks := by
      intro ks hks
      rw [← contents_file hfile]
      exact contents_congr fun j hj => hrest j (hks j hj)
    have hpre := hr.length_pre d
    change _ = contents d'' pre ++ (b.c.take _ ++ s) ++ contents d'' (k3 :: post)
    rw [hr.text (Nat.le_trans haddr (Nat.le_trans haddr' hle)), insertAt_middle s (by omega)
      (by rw [hpre]; exact Nat.le_of_lt hhi), hpre, contents_cons, hk3,
      hsame pre fun j hj => mem_append_left _ (mem_append_left _ hj),
      hsame post fun j hj => mem_append_right _ (mem_append_left _ hj)]
    simp only [append_assoc]
  exact Outcome.ok ⟨rfl, ⟨hsince', .inr ⟨pre, k, k3 :: post, stale, hrep⟩⟩, fun hsnug => hrep.snug.2 (hr.snug.1 hsnug)⟩

include h in
/-- **A round of `bufinsert`** inserts the first of the runes. -/
theorem insertStep_spec (hq : q0 ≤ text.length) (hpos : 0 < s.length) :
    Gives (fun x => Works d₀ O x.1 x.2.1 (insertAt q0 (s.take x.2.2) text) ∧ 0 < x.2.2 ∧ x.2.2 ≤ s.length ∧
        (Snug b → ¬ (Leftover b ∧ Maxblock < s.length) → Snug x.2.1))
      (insertStep d b q0 s) := by
  have hnc := h.holds.nc
  refine Outcome.bind (setcache_spec h.since h.holds (by rw [hnc]; exact hq)) ?_
  rintro ⟨d, b'⟩ ⟨hsince, hholds, -, hnc', hlo, hhi, -, hsnug, hsame⟩
  dsimp only at hsince hholds hlo hhi hsnug hsame hnc' ⊢
  have hw : Works d₀ O d b' text := ⟨hsince, hholds⟩
  split
  · rename_i hfit
    refine Outcome.bind (insert_fits hw hlo hhi hpos hfit) ?_
    rintro ⟨d', b''⟩ ⟨hw', hsnug'⟩
    refine Outcome.ok ⟨?_, hpos, le_rfl, fun h _ => hsnug' (hsnug h)⟩
    rw [take_of_length_le le_rfl]
    exact hw'
  split
  · rename_i hfull hend
    have hm : (s.take (min s.length Maxblock)).length = min s.length Maxblock := length_take_of_le (Nat.min_le_left _ _)
    have hmpos : 0 < min s.length Maxblock := Nat.lt_min.2 ⟨hpos, by decide⟩
    refine (insert_beside hm hw hlo hq hend (by omega) (by rw [hm]; exact Nat.min_le_right _ _)).mono (fun _ => id) ?_
    rintro ⟨d', b'', m⟩ ⟨hw', hmm, hsnug'⟩
    rw [hmm]
    refine ⟨hw', hmpos, Nat.min_le_left _ _, fun h hleft => hsnug' (hsnug h) fun hleft' => hleft ?_⟩
    -- a buffer with nothing in it has not been changed
    have hzero : b.nc = 0 := hnc'.symm.trans hleft'.1
    rw [← hsame hzero]
    refine ⟨hleft', ?_⟩
    rcases hholds with he | ⟨pre, k, post, stale, hr⟩
    · exact absurd he.bl hleft'.2.2
    · have := hr.len
      omega
  rename_i hfull hend
  rw [not_or] at hend
  have hcnc : b'.cnc ≤ Maxblock := by
    rcases hholds with he | ⟨pre, k, post, stale, hr⟩
    · rw [Buffer.cnc, he.c]
      exact Nat.zero_le _
    · exact hr.cnc
  have hleft : (b'.c.take (q0 - b'.cq)).length = q0 - b'.cq := length_take_of_le (by rw [Buffer.cnc] at hhi; omega)
  obtain ⟨m, hm⟩ : ∃ m, min s.length (Maxblock - (q0 - b'.cq)) = m := ⟨_, rfl⟩
  have hmpos : 0 < m := by omega
  have hlen : (s.take m).length = m := length_take_of_le (by omega)
  rw [if_pos (by omega)]
  refine Outcome.bind (insert_split hw (Nat.lt_of_le_of_ne hlo (Ne.symm hend.1)) (Nat.lt_of_le_of_ne hhi hend.2)
    (by rw [hlen]; omega)) ?_
  rintro ⟨d', b''⟩ ⟨hc, hw', hsnug'⟩
  have hb' : min s.length (Maxblock - b''.cnc) = m := by rw [Buffer.cnc, hc, hleft, hm]
  rw [hb']
  rw [hlen] at hw' hsnug'
  exact Outcome.ok ⟨hw', hmpos, by dsimp only; omega, fun h _ => hsnug' (hsnug h)⟩

theorem insertLoop_spec : ∀ (fuel : Nat) (d : Disk) (b : Buffer) (text : List Rune) (q0 : Nat) (s : List Rune),
    s.length ≤ fuel → Works d₀ O d b text → q0 ≤ text.length →
    Gives (fun x => Works d₀ O x.1 x.2 (insertAt q0 s text) ∧
      (Snug b → ¬ (Leftover b ∧ Maxblock < s.length) → Snug x.2)) (insertLoop fuel d b q0 s) := by
  have hnil : ∀ (text : List Rune) (q0 : Nat), insertAt q0 [] text = text := by
    intro text q0
    rw [insertAt, append_nil, take_append_drop]
  intro fuel
  induction fuel with
  | zero =>
    intro d b text q0 s hs h _
    obtain rfl : s = [] := length_eq_zero_iff.1 (Nat.le_zero.1 hs)
    rw [hnil]
    exact Outcome.ok ⟨h, fun hsnug _ => hsnug⟩
  | succ fuel ih =>
    intro d b text q0 s hs h hq
    cases s with
    | nil =>
      rw [hnil]
      exact Outcome.ok ⟨h, fun hsnug _ => hsnug⟩
    | cons r rs =>
      rw [insertLoop]
      · refine Outcome.bind (insertStep_spec h hq (Nat.succ_pos _)) ?_
        rintro ⟨d', b', m⟩ ⟨hw, hpos, hle, hsnug⟩
        dsimp only at hw hpos hle hsnug ⊢
        have hlen : (insertAt q0 ((r :: rs).take m) text).length = text.length + m := by
          rw [length_insertAt, length_take_of_le hle]
        have hdrop : ((r :: rs).drop m).length ≤ fuel := by
          rw [length_drop]
          omega
        rw [← insertAt_insertAt hq hle]
        refine (ih d' b' _ (q0 + m) _ hdrop hw (by omega)).mono (fun _ => id) ?_
        rintro ⟨_, _⟩ ⟨hw', hsnug'⟩
        refine ⟨hw', fun h hleft => hsnug' (hsnug h hleft) ?_⟩
        rintro ⟨⟨_, -⟩, -⟩
        have := hw.holds.nc
        omega
      · nofun

include h in
/-- **`bufinsert`** -/
theorem bufinsert_spec (hq : q0 ≤ text.length) :
    Gives (fun x => Works d₀ O x.1 x.2 (insertAt q0 s text) ∧
      (Snug b → ¬ (Leftover b ∧ Maxblock < s.length) → Snug x.2)) (bufinsert d b q0 s) := by
  rw [bufinsert, if_neg (by rw [h.holds.nc]; omega)]
  exact insertLoop_spec s.length d b text q0 s le_rfl h hq

/-! ## Deleting -/

include hr in
theorem Rep.shrink {n : Nat} (hlo : b.cq ≤ q0) (hhi : q0 + n ≤ b.cq + b.cnc) :
    Rep d { b with c := b.c.take (q0 - b.cq) ++ b.c.drop (q0 - b.cq + n), cdirty := true, nc := b.nc - n }
      (deleteFrom q0 (q0 + n) text) pre k post stale := by
  have hlen : (b.c.take (q0 - b.cq) ++ b.c.drop (q0 - b.cq + n)).length = b.cnc - n := by
    rw [length_append, length_take, length_drop]
    rw [Buffer.cnc] at hhi ⊢
    omega
  have htext : (deleteFrom q0 (q0 + n) text).length = text.length - n := by
    rw [length_deleteFrom (Nat.le_add_right _ _) (by have := hr.len; have := hr.cq; omega), Nat.add_sub_cancel_left]
  have hcnc := hr.cnc
  refine ⟨hr.bl, hr.cbi, hr.cq, ?_, ?_, ?_, hr.written, nofun, ?_⟩
  · change length (_ ++ _) ≤ _
    omega
  · rw [htext, hr.nc]
  · change _ = total pre + length (_ ++ _) + total post
    rw [hlen, htext, hr.len]
    omega
  intro hle
  have hpre := hr.length_pre d
  have hoff : q0 + n - b.cq = q0 - b.cq + n := by omega
  rw [hr.text hle, deleteFrom_middle (by omega) (Nat.le_add_right _ _) (by rw [hpre]; exact hhi), hpre, hoff]

include h in
theorem deleteStep_spec {q1 : Nat} (hq : q0 < q1) (hq1 : q1 ≤ text.length) :
    Gives (fun x => Works d₀ O x.1 x.2.1 (deleteFrom q0 (q0 + x.2.2) text) ∧ 0 < x.2.2 ∧ q0 + x.2.2 ≤ q1 ∧
        (Snug b → Snug x.2.1))
      (deleteStep d b q0 q1) := by
  have hnc := h.holds.nc
  refine Outcome.bind (setcache_spec h.since h.holds (by omega)) ?_
  rintro ⟨d, b⟩ ⟨hsince, hholds, -, hnc', hlo, hhi, hin, hsnug, -⟩
  dsimp only at hsince hholds hlo hhi hin hnc' hsnug ⊢
  obtain ⟨n, hn⟩ : ∃ n, (if q1 > b.cq + b.cnc then b.cnc - (q0 - b.cq) else q1 - q0) = n := ⟨_, rfl⟩
  have hn' : 0 < n ∧ q0 + n ≤ q1 ∧ q0 + n ≤ b.cq + b.cnc := by
    split at hn <;> omega
  obtain ⟨hpos, hle, hcache⟩ := hn'
  rw [hn]
  rcases hholds with he | ⟨pre, k, post, stale, hr⟩
  · rw [he.text, length_nil] at hq1
    omega
  · have hshrink := hr.shrink hlo hcache
    refine Outcome.ok ⟨⟨hsince, .inr ⟨pre, k, post, stale, hshrink⟩⟩, hpos, hle, ?_⟩
    exact fun h => hshrink.snug.2 (hr.snug.1 (hsnug h))

theorem deleteLoop_spec : ∀ (fuel : Nat) (d : Disk) (b : Buffer) (text : List Rune) (q0 q1 : Nat),
    q1 - q0 ≤ fuel → Works d₀ O d b text → q0 ≤ q1 → q1 ≤ text.length →
    Gives (fun x => Works d₀ O x.1 x.2 (deleteFrom q0 q1 text) ∧ (Snug b → Snug x.2)) (deleteLoop fuel d b q0 q1) := by
  have hnil : ∀ (text : List Rune) (q0 : Nat), deleteFrom q0 q0 text = text := by
    intro text q0
    rw [deleteFrom, take_append_drop]
  intro fuel
  induction fuel with
  | zero =>
    intro d b text q0 q1 hf h hq _
    obtain rfl : q0 = q1 := by omega
    rw [deleteLoop, if_neg (Nat.lt_irrefl _), hnil]
    exact Outcome.ok ⟨h, id⟩
  | succ fuel ih =>
    intro d b text q0 q1 hf h hq hq1
    rw [deleteLoop]
    split
    · rename_i hlt
      refine Outcome.bind (deleteStep_spec h hlt hq1) ?_
      rintro ⟨d', b', n⟩ ⟨hw, hpos, hle, hsnug⟩
      dsimp only at hw hpos hle hsnug ⊢
      have hlen : (deleteFrom q0 (q0 + n) text).length = text.length - n := by
        rw [length_deleteFrom (Nat.le_add_right _ _) (by omega), Nat.add_sub_cancel_left]
      rw [← deleteFrom_deleteFrom hle hq1]
      refine (ih d' b' _ q0 (q1 - n) (by omega) hw (by omega) (by omega)).mono (fun _ => id) ?_
      rintro ⟨_, _⟩ ⟨hw', hsnug'⟩
      exact ⟨hw', fun h => hsnug' (hsnug h)⟩
    · obtain rfl : q0 = q1 := by omega
      rw [hnil]
      exact Outcome.ok ⟨h, id⟩

include h in
/-- **`bufdelete`** -/
theorem bufdelete_spec {q1 : Nat} (hq : q0 ≤ q1) (hq1 : q1 ≤ text.length) :
    Gives (fun x => Works d₀ O x.1 x.2 (deleteFrom q0 q1 text) ∧ (Snug b → Snug x.2)) (bufdelete d b q0 q1) := by
  have hnc := h.holds.nc
  rw [bufdelete, if_neg (by omega)]
  exact deleteLoop_spec (q1 - q0) d b text q0 q1 le_rfl h hq hq1

/-! ## Reading -/

include hr in
theorem Rep.read (hle : d.addr ≤ ADDRS) (hlo : b.cq ≤ q0) {m : Nat}
    (hhi : q0 + m ≤ b.cq + b.cnc) : (b.c.drop (q0 - b.cq)).take m = (text.drop q0).take m := by
  have hpre := hr.length_pre d
  have hlen : (b.c.drop (q0 - b.cq)).length = b.cnc - (q0 - b.cq) := length_drop
  rw [hr.text hle, drop_middle (by omega) (by rw [hpre]; exact Nat.le_trans (Nat.le_add_right _ _) hhi), hpre,
    take_append_of_le_length (by omega)]

theorem readLoop_spec : ∀ (fuel : Nat) (d : Disk) (b : Buffer) (q0 n : Nat) (s : List Rune),
    n ≤ fuel → Works d₀ O d b text → q0 + n ≤ text.length →
    Gives (fun x => Works d₀ O x.1 x.2.1 text ∧ d.addr ≤ x.1.addr ∧
        (x.1.addr ≤ ADDRS → x.2.2 = s ++ (text.drop q0).take n) ∧ (Snug b → Snug x.2.1))
      (readLoop fuel d b q0 n s) := by
  intro fuel
  induction fuel with
  | zero =>
    intro d b q0 n s hn h _
    obtain rfl : n = 0 := Nat.le_zero.1 hn
    refine Outcome.ok ⟨h, le_rfl, fun _ => ?_, id⟩
    rw [take_zero, append_nil]
  | succ fuel ih =>
    intro d b q0 n s hn h hq
    cases n with
    | zero =>
      refine Outcome.ok ⟨h, le_rfl, fun _ => ?_, id⟩
      rw [take_zero, append_nil]
    | succ n =>
      have hnc := h.holds.nc
      rw [readLoop]
      · refine Outcome.bind (setcache_spec h.since h.holds (by omega)) ?_
        rintro ⟨d', b'⟩ ⟨hsince, hholds, haddr, hnc', hlo, hhi, hin, hsnug, -⟩
        dsimp only at hsince hholds haddr hlo hhi hin hnc' hsnug ⊢
        obtain ⟨m, hm⟩ : ∃ m, min (n + 1) (b'.cnc - (q0 - b'.cq)) = m := ⟨_, rfl⟩
        have hm' : 0 < m ∧ m ≤ n + 1 ∧ q0 + m ≤ b'.cq + b'.cnc := by omega
        obtain ⟨-, -, hcache⟩ := hm'
        rw [hm]
        refine (ih d' b' (q0 + m) (n + 1 - m) _ (by omega) ⟨hsince, hholds⟩ (by omega)).mono (fun _ => id) ?_
        rintro ⟨_, _, _⟩ ⟨hw, haddr', hs', hsnug'⟩
        refine ⟨hw, Nat.le_trans haddr haddr', ?_, fun h => hsnug' (hsnug h)⟩
        intro hle'
        rw [hs' hle']
        rcases hholds with he | ⟨pre, k, post, stale, hr⟩
        · rw [he.text, length_nil] at hq
          omega
        rw [hr.read (Nat.le_trans haddr' hle') hlo hcache, append_assoc, ← drop_drop]
        congr 1
        have hsplit : n + 1 = m + (n + 1 - m) := by omega
        rw [hsplit, take_add, Nat.add_sub_cancel_left]
      · nofun

include h in
/-- **`bufread`** -/
theorem bufread_spec {n : Nat} (hq : q0 + n ≤ text.length) :
    Gives (fun x => Works d₀ O x.1 x.2.1 text ∧ (x.1.addr ≤ ADDRS → x.2.2 = (text.drop q0).take n) ∧ (Snug b → Snug x.2.1))
      (bufread d b q0 n) := by
  have hnc := h.holds.nc
  rw [bufread, if_neg (by omega)]
  refine (readLoop_spec n d b q0 n [] le_rfl h hq).mono (fun _ => id) ?_
  rintro ⟨_, _, s⟩ ⟨hw, -, hs, hsnug⟩
  exact ⟨hw, hs, hsnug⟩

/-! ## Resetting -/

theorem resetLoop_spec : ∀ (i : Nat) (d : Disk) (b : Buffer) (xs ys : List Block), xs.length = i → b.bl = xs ++ ys →
    Since d₀ O d b.bl → Gives (fun x => x.2 = { b with bl := ys } ∧ Since d₀ O x.1 ys) (resetLoop i d b) := by
  intro i
  induction i with
  | zero =>
    intro d b xs ys hi hbl hs
    obtain rfl : xs = [] := length_eq_zero_iff.1 hi
    rw [nil_append] at hbl
    refine Outcome.ok ⟨?_, hbl ▸ hs⟩
    rw [← hbl]
  | succ i ih =>
    intro d b xs ys hi hbl hs
    have hne : xs ≠ [] := fun he => by rw [he] at hi; cases hi
    have hlast : xs = xs.dropLast ++ [xs.getLast hne] := (dropLast_append_getLast hne).symm
    have hlen : xs.dropLast.length = i := by rw [length_dropLast, hi, Nat.add_sub_cancel]
    have hbl' : b.bl = xs.dropLast ++ xs.getLast hne :: ys := by
      rw [hbl]
      conv_lhs => rw [hlast]
      rw [append_assoc]
      rfl
    refine Outcome.bind (delblock_spec hs hbl' hlen.symm) ?_
    rintro ⟨d', _⟩ ⟨rfl, hsince, -⟩
    exact ih d' _ xs.dropLast ys hlen rfl hsince

include h in
/-- **`bufreset`**: the last block is kept. -/
theorem bufreset_spec : Gives (fun x => Works d₀ O x.1 x.2 [] ∧ Snug x.2) (bufreset d b) := by
  obtain ⟨b', hb'⟩ : ∃ b' : Buffer, b' = { b with nc := 0, c := [], cq := 0, cdirty := false, cbi := 0 } := ⟨_, rfl⟩
  have hbl : b'.bl = b.bl := by rw [hb']
  rw [bufreset, ← hb', hbl]
  refine (resetLoop_spec (b.bl.length - 1) d b' (b.bl.take (b.bl.length - 1)) (b.bl.drop (b.bl.length - 1))
    (length_take_of_le (Nat.sub_le _ _)) (by rw [take_append_drop, hbl]) (by rw [hbl]; exact h.since)).mono
    (fun _ => id) ?_
  rintro ⟨d', _⟩ ⟨hb'', hsince⟩
  rw [hb''] at *
  by_cases hnil : b.bl = []
  · have hdrop : b.bl.drop (b.bl.length - 1) = [] := by rw [hnil, drop_nil]
    exact ⟨⟨hsince, .inl ⟨hdrop, by rw [hb'], by rw [hb'], by rw [hb'], by rw [hb'], by rw [hb'], rfl⟩⟩, snug_nil hdrop⟩
  have hlast : b.bl.drop (b.bl.length - 1) = [b.bl.getLast hnil] := drop_length_sub_one hnil
  have hrep : Rep d' { b' with bl := b.bl.drop (b.bl.length - 1) } [] [] (b.bl.getLast hnil) [] [] := by
    refine ⟨hlast, by rw [hb']; rfl, by rw [hb']; rfl, ?_, by rw [hb']; rfl, ?_, nofun, ?_, ?_⟩
    · rw [hb']
      exact Nat.zero_le _
    · rw [hb']
      rfl
    · intro _
      exact .inl (by rw [hb'])
    · intro _
      rw [hb']
      rfl
  exact ⟨⟨hsince, .inr ⟨[], b.bl.getLast hnil, [], [], hrep⟩⟩, hrep.snug.2 rfl⟩

end

end Plan9.Acme
