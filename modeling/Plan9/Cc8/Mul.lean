/-
Multiplication by a constant, as `8c/mul.c` compiles it: `mulparam` looks for the cheapest way to
make the constant of shifts and scaled additions, `mulgen1` remembers what it found in `multab`
and emits the instructions.

A `ulong` has 32 bits. The instructions work on two registers, the one that is multiplied and
the one that `regalloc` gives, which is another. The types are those of 32 bits, for which `gopcode`
chooses 32-bit operations; a product that is assigned to a `short` or a `char` gets others, and is left
out.
-/
import Plan9.Lib.CInt
import Mathlib.Data.BitVec
import Mathlib.Tactic.Ring

namespace Plan9.Cc8

open CInt List

abbrev Ulong := BitVec 32

/-! ## Parameters -/

structure Mparam where
  value : Ulong
  alg : Int
  neg : Int
  shift : Int
  arg : Int
  off : Int
  deriving DecidableEq, Repr

/-- The `vals`, each with the 100 at its end. -/
def malgs : List (List Int) :=
  [[0, 100], [-1, 1, 100], [-9, -5, -3, 3, 5, 9, 100], [6, 10, 12, 18, 20, 24, 36, 40, 72, 100],
    [-8, -4, -2, 2, 4, 8, 100]]

/-- A round of `lowbit`, on `m`, `v` and `s`. -/
def lowbitRound (x : Ulong × Ulong × Nat) (i : Nat) : Ulong × Ulong × Nat :=
  let m := x.1 >>> i
  if x.2.1 &&& m = 0 then (m, x.2.1 >>> i, x.2.2 + i) else (m, x.2)

def lowbit (v : Ulong) : Nat := ([16, 8, 4, 2, 1].foldl lowbitRound (0xFFFFFFFF, v, 0)).2.2

/-- `bc` and the others with a `b`. -/
structure Best where
  bc : Nat
  bi : Nat
  bn : Nat
  bo : Int
  bq : Nat
  bs : Nat
  bt : Int
  deriving DecidableEq, Repr

/-- `c` and `q`, by the `switch`. -/
def cost (i : Nat) (t : Ulong) (n s : Nat) : Nat × Nat :=
  match i with
  | 0 =>
    if t = 1 then (s + 1, 0)
    else if t ∈ [3, 5, 9] then (if n ≠ 0 then s + 2 else s + 1, 0)
    else if s ≠ 0 then (10, 10)
    else if t ∈ [15, 25, 27, 45, 81] then (if n ≠ 0 then 3 else 2, 1)
    else (10, 10)
  | 1 => if t = 1 then (3, 3) else if t ∈ [3, 5, 9] then (3, 2) else (10, 10)
  | 2 => if t = 1 then (3, 2) else (10, 10)
  | 3 => if s ≠ 0 then (10, 10) else if t = 1 then (3, 1) else (10, 10)
  | 4 => if t = 1 then (3, 0) else (10, 10)
  | _ => (10, 10)

/-- The end of the body of the loops of `mulparam`, where `u` is not zero. -/
def candidate (i : Nat) (o : Int) (s : Nat) (u : Ulong) (b : Best) : Best :=
  let n := lowbit u
  let t := u >>> n
  let (c, q) := cost i t n s
  if c < b.bc ∨ c = b.bc ∧ q > b.bq then ⟨c, i, n, o, q, s, t.toInt⟩ else b

def mulRound (m : Ulong) (b : Best) (i : Nat) (o : Int) (s : Nat) : Best :=
  let u := m - BitVec.ofInt 32 o
  if u = 0 then b
  else if s = 0 then candidate i o s u b
  else if -o > 0 then b
  else candidate i (-o) s (-u) b

/-- What `i`, `o` and `s` go through, in this order. -/
def rounds : List (Nat × Int × Nat) :=
  malgs.zipIdx.flatMap fun (vals, i) => (vals.takeWhile (· < 100)).flatMap fun o => [(i, o, 0), (i, o, 1)]

def mulbest (m : Ulong) : Best := rounds.foldl (fun b x => mulRound m b x.1 x.2.1 x.2.2) ⟨10, 0, 0, 0, 10, 0, 0⟩

/-- What is assigned to a `char` keeps the low 8 bits. -/
def mulparam (m : Ulong) (mp : Mparam) : Mparam :=
  let b := mulbest m
  if b.bc ≤ 3 then ⟨m, wrap 8 b.bi, wrap 8 b.bs, wrap 8 b.bn, wrap 8 b.bt, wrap 8 b.bo⟩
  else { mp with value := m, alg := -1 }

/-- An algorithm is selected. -/
def Selects (m : Ulong) : Prop := (mulbest m).bc ≤ 3

instance (m : Ulong) : Decidable (Selects m) := inferInstanceAs (Decidable (_ ≤ _))

/-! ## Instructions -/

inductive Reg
  | n
  | nod
  deriving DecidableEq, Repr

/-- `LEAL a(s*m), d`, where `none` is the constant 0, and `op f, t`. -/
inductive Ins
  | leal (a : Option Reg) (s : Reg) (m : Nat) (d : Reg)
  | addl (f t : Reg)
  | subl (f t : Reg)
  | shll (c : Nat) (t : Reg)
  | movl (f t : Reg)
  | negl (t : Reg)
  deriving DecidableEq, Repr

abbrev Regs := Reg → Ulong

def Regs.set (r : Regs) (d : Reg) (x : Ulong) : Regs := Function.update r d x

def step (r : Regs) : Ins → Regs
  | .leal a s m d => r.set d ((a.map r).getD 0 + r s * BitVec.ofNat 32 m)
  | .addl f t => r.set t (r t + r f)
  | .subl f t => r.set t (r t - r f)
  | .shll c t => r.set t (r t <<< c)
  | .movl f t => r.set t (r f)
  | .negl t => r.set t (-r t)

def run (code : List Ins) (r : Regs) : Regs := code.foldl step r

/-! ## mulgen1 -/

/-- Where there is no case it complains and returns 0. -/
def m0 (a : Int) : Nat :=
  if a ∈ [-2, 2, -3, 3, 6, 12, 15, 24, 27] then 2
  else if a ∈ [-4, 4, -5, 5, 10, 20, 25, 40, 45] then 4
  else if a ∈ [-8, 8, -9, 9, 18, 36, 72, 81] then 8
  else 0

def m1 (a : Int) : Nat := if a ∈ [15, 25] then 4 else if a ∈ [27, 45, 81] then 8 else 0

def m2 (a : Int) : Nat :=
  if a ∈ [6, 10, 18] then 2 else if a ∈ [12, 20, 36] then 4 else if a ∈ [24, 40, 72] then 8 else 0

def genmuladd (d s : Reg) (m : Nat) (a : Option Reg) : List Ins := [.leal a s m d]

/-- The count is `vconst & 31`. -/
def shiftit (s : Int) (d : Reg) : List Ins :=
  match (s % 32).toNat with
  | 0 => []
  | 1 => [.addl d d]
  | c => [.shll c d]

/-- `gopcode(o, n->type, f, t)`, where `o` is `OSUB` for a negative `off` and else `OADD`. -/
def addop (off : Int) (f t : Reg) : List Ins := if off < 0 then [.subl f t] else [.addl f t]

/-- `comop` -/
def comop (p : Mparam) : List Ins :=
  if p.neg ≠ 0 then addop p.off .n .nod ++ [.movl .nod .n] else addop p.off .nod .n

/-- The end of algorithm 1. -/
def addnod (p : Mparam) : List Ins :=
  if p.neg ≠ 0 then addop p.off .nod .n else addop p.off .n .nod ++ [.movl .nod .n]

/-- What is emitted for an entry; `none` is a complaint. -/
def mulcode (p : Mparam) : Option (List Ins) :=
  if p.alg = 0 then
    let neg := if p.neg = 1 then [Ins.negl .n] else []
    if p.arg = 1 then some (shiftit p.shift .n ++ neg)
    else if p.arg ∈ [15, 25, 27, 45, 81] then
      some (genmuladd .n .n (m1 p.arg) (some .n) ++ genmuladd .n .n (m0 p.arg) (some .n) ++ shiftit p.shift .n ++ neg)
    else if p.arg ∈ [3, 5, 9] then some (genmuladd .n .n (m0 p.arg) (some .n) ++ shiftit p.shift .n ++ neg)
    else none
  else if p.alg = 1 then
    if p.arg = 1 then some ([.movl .n .nod] ++ shiftit p.shift .nod ++ addnod p)
    else if p.arg ∈ [3, 5, 9] then some (genmuladd .nod .n (m0 p.arg) (some .n) ++ shiftit p.shift .nod ++ addnod p)
    else none
  else if p.alg = 2 then some (genmuladd .nod .n (m0 p.off) (some .n) ++ shiftit p.shift .n ++ comop p)
  else if p.alg = 3 then
    some (genmuladd .nod .n (m0 p.off) (some .n) ++ shiftit p.shift .n ++ genmuladd .n .nod (m2 p.off) (some .n))
  else if p.alg = 4 then some (genmuladd .nod .n (m0 p.off) none ++ shiftit p.shift .n ++ comop p)
  else none

structure Multab where
  multab : List Mparam
  mulptr : Nat
  deriving DecidableEq, Repr

/-- What is emitted when 1 is returned, or `none` with 0; the inner `none` is a complaint. -/
def mulgen1 (v : Ulong) (tab : Multab) : Option (Option (List Ins)) × Multab :=
  let emit := fun p : Mparam => if p.alg < 0 then none else some (mulcode p)
  match tab.multab.find? (·.value = v) with
  | some p => (emit p, tab)
  | none =>
    let p := mulparam v (tab.multab.getD tab.mulptr ⟨0, 0, 0, 0, 0, 0⟩)
    let next := if tab.mulptr + 1 = tab.multab.length then 0 else tab.mulptr + 1
    (emit p, ⟨tab.multab.set tab.mulptr p, next⟩)

def nomul : Multab := ⟨replicate 32 ⟨0, 0, 0, 0, 0, 0⟩, 0⟩

/-- The table after the constants were multiplied by. -/
def multabAfter (vs : List Ulong) : Multab := vs.foldl (fun tab v => (mulgen1 v tab).2) nomul

/-! ## What mulparam finds -/

theorem shift_back {v : Ulong} {i : Nat} (h : v &&& BitVec.ofNat 32 (2 ^ i - 1) = 0) : (v >>> i) <<< i = v := by
  apply BitVec.eq_of_getLsbD_eq
  intro j hj
  have hbit := congrArg (BitVec.getLsbD · j) h
  simp only [BitVec.getLsbD_and, BitVec.getLsbD_ofNat, Nat.testBit_two_pow_sub_one, hj, decide_true, Bool.true_and] at hbit
  by_cases hji : j < i
  · simp [hji] at hbit ⊢
    exact hbit
  · simp [hji, hj, show i + (j - i) = j by omega]

theorem mul_two_pow (x : Ulong) (k : Nat) : x <<< k = x * BitVec.ofNat 32 (2 ^ k) := by
  apply BitVec.eq_of_toNat_eq
  simp [Nat.shiftLeft_eq]

theorem shift_again (v : Ulong) (i : Nat) : ((v <<< i) >>> i) <<< i = v <<< i := by
  apply BitVec.eq_of_getLsbD_eq
  intro j hj
  by_cases hji : j < i
  · simp [hji]
  · simp [hji, hj, show i + (j - i) = j by omega]

theorem lowbitRound_spec {x : Ulong × Ulong × Nat} {i : Nat} (hm : x.1 >>> i = BitVec.ofNat 32 (2 ^ i - 1)) :
    (lowbitRound x i).1 = BitVec.ofNat 32 (2 ^ i - 1) ∧
      (lowbitRound x i).2.1 <<< (lowbitRound x i).2.2 = x.2.1 <<< x.2.2 ∧ (lowbitRound x i).2.2 ≤ x.2.2 + i := by
  rw [lowbitRound, hm]
  split
  · rename_i hz
    refine ⟨rfl, ?_, le_rfl⟩
    rw [Nat.add_comm, BitVec.shiftLeft_add, shift_back hz]
  · exact ⟨rfl, rfl, Nat.le_add_right _ _⟩

theorem lowbit_spec (u : Ulong) : lowbit u < 32 ∧ (u >>> lowbit u) <<< lowbit u = u := by
  obtain ⟨h₁, e1, l1⟩ := @lowbitRound_spec (0xFFFFFFFF, u, 0) 16
    (show (0xFFFFFFFF : Ulong) >>> 16 = BitVec.ofNat 32 (2 ^ 16 - 1) by decide)
  obtain ⟨h2, e2, _⟩ := @lowbitRound_spec (lowbitRound (0xFFFFFFFF, u, 0) 16) 8 (by rw [h₁]; decide)
  obtain ⟨h₃, e3, _⟩ := @lowbitRound_spec (lowbitRound (lowbitRound (0xFFFFFFFF, u, 0) 16) 8) 4 (by rw [h2]; decide)
  obtain ⟨h4, e4, _⟩ := @lowbitRound_spec (lowbitRound (lowbitRound (lowbitRound (0xFFFFFFFF, u, 0) 16) 8) 4) 2
    (by rw [h₃]; decide)
  obtain ⟨-, e5, _⟩ := @lowbitRound_spec
    (lowbitRound (lowbitRound (lowbitRound (lowbitRound (0xFFFFFFFF, u, 0) 16) 8) 4) 2) 1 (by rw [h4]; decide)
  have hback : ∃ v : Ulong, v <<< lowbit u = u :=
    ⟨_, (e5.trans (e4.trans (e3.trans (e2.trans e1)))).trans (BitVec.shiftLeft_zero u)⟩
  have hlt : lowbit u < 32 := by
    change (lowbitRound _ 1).2.2 < 32
    dsimp only at l1
    omega
  obtain ⟨v, hv⟩ := hback
  refine ⟨hlt, ?_⟩
  generalize lowbit u = k at hv ⊢
  rw [← hv]
  exact shift_again v k

/-- The parameters that each algorithm works with. -/
def Shape (alg off arg neg : Int) : Prop :=
  alg = 0 ∧ off = 0 ∧ (arg ∈ [1, 3, 5, 9] ∨ arg ∈ [15, 25, 27, 45, 81] ∧ neg = 0) ∨
  alg = 1 ∧ off ∈ [-1, 1] ∧ arg ∈ [1, 3, 5, 9] ∧ (neg = 1 → off < 0) ∨
  alg = 2 ∧ off ∈ [-9, -5, -3, 3, 5, 9] ∧ arg = 1 ∧ (neg = 1 → off < 0) ∨
  alg = 3 ∧ off ∈ [6, 10, 12, 18, 20, 24, 36, 40, 72] ∧ arg = 1 ∧ neg = 0 ∨
  alg = 4 ∧ off ∈ [-8, -4, -2, 2, 4, 8] ∧ arg = 1 ∧ (neg = 1 → off < 0)

/-- The number that parameters stand for. -/
def amount (neg off arg shift : Int) : Ulong :=
  (if neg = 1 then -1 else 1) * (BitVec.ofInt 32 off + BitVec.ofInt 32 arg * BitVec.ofNat 32 (2 ^ shift.toNat))

/-- The parameters of an entry are right for a constant. -/
structure Right (m : Ulong) (alg neg shift arg off : Int) : Prop where
  shape : Shape alg off arg neg
  sign : neg = 0 ∨ neg = 1
  count : 0 ≤ shift ∧ shift < 32
  value : m = amount neg off arg shift

theorem mem_rounds : ∀ x ∈ rounds, (x.2.2 = 0 ∨ x.2.2 = 1) ∧
    (x.1 = 0 ∧ x.2.1 = 0 ∨ x.1 = 1 ∧ x.2.1 ∈ [-1, 1] ∨ x.1 = 2 ∧ x.2.1 ∈ [-9, -5, -3, 3, 5, 9] ∨
      x.1 = 3 ∧ x.2.1 ∈ [6, 10, 12, 18, 20, 24, 36, 40, 72] ∨ x.1 = 4 ∧ x.2.1 ∈ [-8, -4, -2, 2, 4, 8]) := by
  decide

section

variable {m : Ulong} {i s : Nat} {o : Int}

theorem turned {l : List Int} (hl : ∀ o ∈ l, 0 ≤ o → -o ∈ l ∧ -o < 0) (hs : s = 0 ∨ s = 1) (ho : o ∈ l)
    (hneg : s ≠ 0 → 0 ≤ o) : (if s ≠ 0 then -o else o) ∈ l ∧ ((s : Int) = 1 → (if s ≠ 0 then -o else o) < 0) := by
  rcases hs with rfl | rfl
  · exact ⟨ho, fun h => absurd h (by decide)⟩
  · exact ⟨(hl o ho (hneg (by decide))).1, fun _ => (hl o ho (hneg (by decide))).2⟩

theorem cost_shape {t : Ulong} {n : Nat} (hx : (i, o, s) ∈ rounds) (hneg : s ≠ 0 → 0 ≤ o)
    (hc : (cost i t n s).1 ≤ 3) : Shape i (if s ≠ 0 then -o else o) t.toInt s := by
  have hthree : t ∈ [3, 5, 9] → t.toInt ∈ [1, 3, 5, 9] := by
    intro ht
    simp only [mem_cons, not_mem_nil, or_false] at ht
    rcases ht with rfl | rfl | rfl <;> decide
  have hmany : t ∈ [15, 25, 27, 45, 81] → t.toInt ∈ [15, 25, 27, 45, 81] := by
    intro ht
    simp only [mem_cons, not_mem_nil, or_false] at ht
    rcases ht with rfl | rfl | rfl | rfl | rfl <;> decide
  obtain ⟨hs, hi⟩ := mem_rounds _ hx
  have hone : t = 1 → t.toInt = 1 := by
    rintro rfl
    decide
  rcases hi with ⟨rfl, rfl⟩ | ⟨rfl, ho⟩ | ⟨rfl, ho⟩ | ⟨rfl, ho⟩ | ⟨rfl, ho⟩
  · refine .inl ⟨rfl, by simp, ?_⟩
    by_cases h1 : t = 1
    · exact .inl (by simp [hone h1])
    by_cases h3 : t ∈ [3, 5, 9]
    · exact .inl (hthree h3)
    rw [cost, if_neg h1, if_neg h3] at hc
    rcases hs with rfl | rfl
    · by_cases h15 : t ∈ [15, 25, 27, 45, 81]
      · exact .inr ⟨hmany h15, rfl⟩
      · exact absurd hc (by simp only [if_neg h15]; decide)
    · exact absurd hc (by simp)
  · obtain ⟨hoff, hlt⟩ := turned (by decide) hs ho hneg
    refine .inr (.inl ⟨rfl, hoff, ?_, hlt⟩)
    by_cases h1 : t = 1
    · simp [hone h1]
    by_cases h3 : t ∈ [3, 5, 9]
    · exact hthree h3
    rw [cost, if_neg h1, if_neg h3] at hc
    exact absurd hc (by simp)
  · obtain ⟨hoff, hlt⟩ := turned (by decide) hs ho hneg
    by_cases h1 : t = 1
    · exact .inr (.inr (.inl ⟨rfl, hoff, hone h1, hlt⟩))
    · rw [cost, if_neg h1] at hc
      simp at hc
  · rcases hs with rfl | rfl
    · by_cases h1 : t = 1
      · exact .inr (.inr (.inr (.inl ⟨rfl, ho, hone h1, rfl⟩)))
      · rw [cost, if_neg (by simp), if_neg h1] at hc
        simp at hc
    · simp [cost] at hc
  obtain ⟨hoff, hlt⟩ := turned (by decide) hs ho hneg
  by_cases h1 : t = 1
  · exact .inr (.inr (.inr (.inr ⟨rfl, hoff, hone h1, hlt⟩)))
  · rw [cost, if_neg h1] at hc
    simp at hc

/-- The parameters found so far, if they are any good. -/
def Best.Found (m : Ulong) (b : Best) : Prop := b.bc ≤ 3 → Right m b.bi b.bs b.bn b.bt b.bo

theorem Best.Found.candidate {b : Best} {u : Ulong} (hb : b.Found m) (hs : s = 0 ∨ s = 1)
    (hshape : ∀ t n, (cost i t n s).1 ≤ 3 → Shape i o t.toInt s)
    (hm : m = (if (s : Int) = 1 then -1 else 1) * (BitVec.ofInt 32 o + u)) : (candidate i o s u b).Found m := by
  rw [Cc8.candidate]
  dsimp only
  split
  · intro hle
    obtain ⟨hlt, hback⟩ := lowbit_spec u
    refine ⟨hshape _ _ hle, ?_, ⟨Int.natCast_nonneg _, by exact_mod_cast hlt⟩, ?_⟩
    · rcases hs with rfl | rfl
      · exact .inl rfl
      · exact .inr rfl
    · rw [hm, amount, BitVec.ofInt_toInt, Int.toNat_natCast, ← mul_two_pow, hback]
  · exact hb

theorem Best.Found.round {b : Best} (hb : b.Found m) (hx : (i, o, s) ∈ rounds) : (mulRound m b i o s).Found m := by
  have hs := (mem_rounds _ hx).1
  rw [mulRound]
  split
  · exact hb
  rcases hs with rfl | rfl
  · refine hb.candidate (.inl rfl) (fun t n hc => by simpa using cost_shape hx (fun h => absurd rfl h) hc) ?_
    simp
  rw [if_neg (by decide)]
  split
  · exact hb
  · refine hb.candidate (.inr rfl) (fun t n hc => by simpa using cost_shape hx (fun _ => by omega) hc) ?_
    rw [if_pos (by rfl), BitVec.ofInt_neg]
    ring

theorem foldl_found {xs : List (Nat × Int × Nat)} : ∀ {b : Best}, b.Found m → (∀ x ∈ xs, x ∈ rounds) →
    (xs.foldl (fun b x => mulRound m b x.1 x.2.1 x.2.2) b).Found m := by
  induction xs with
  | nil => exact fun hb _ => hb
  | cons x xs ih => exact fun hb hxs => ih (hb.round (hxs x mem_cons_self)) fun y hy => hxs y (mem_cons_of_mem x hy)

theorem mulbest_found (m : Ulong) : (mulbest m).Found m :=
  foldl_found (fun h => absurd h (by decide)) fun _ hx => hx

theorem Right.chars {alg neg shift arg off : Int} (h : Right m alg neg shift arg off) :
    wrap 8 alg = alg ∧ wrap 8 neg = neg ∧ wrap 8 shift = shift ∧ wrap 8 arg = arg ∧ wrap 8 off = off := by
  have hsmall : ∀ x : Int, -100 ≤ x → x ≤ 100 → wrap 8 x = x := fun x hlo hhi => wrap_eq (by omega) (by omega)
  have hs := h.shape
  have hn := h.sign
  have hc := h.count
  simp only [Shape, mem_cons, not_mem_nil, or_false] at hs
  refine ⟨hsmall _ ?_ ?_, hsmall _ ?_ ?_, hsmall _ ?_ ?_, hsmall _ ?_ ?_, hsmall _ ?_ ?_⟩ <;> omega

end

/-! ## What the instructions compute -/

@[simp] theorem set_self (r : Regs) (d : Reg) (x : Ulong) : r.set d x d = x := by simp [Regs.set]

@[simp] theorem set_nod_n (r : Regs) (x : Ulong) : r.set .nod x .n = r .n := rfl

@[simp] theorem set_n_nod (r : Regs) (x : Ulong) : r.set .n x .nod = r .nod := rfl

theorem run_append (code code' : List Ins) (r : Regs) : run (code ++ code') r = run code' (run code r) := foldl_append

theorem run_shiftit {s : Int} (hs : 0 ≤ s ∧ s < 32) (d : Reg) (r : Regs) :
    run (shiftit s d) r = r.set d (r d * BitVec.ofNat 32 (2 ^ s.toNat)) := by
  rw [shiftit, Int.emod_eq_of_lt hs.1 hs.2]
  split
  · rename_i h0
    rw [h0]
    simp [run, Regs.set]
  · rename_i h1
    rw [h1]
    exact congrArg (r.set d) (mul_two (r d)).symm
  · simp [run, step, mul_two_pow]

theorem run_addop (off : Int) (f t : Reg) (r : Regs) :
    run (addop off f t) r = r.set t (r t + (if off < 0 then -1 else 1) * r f) := by
  rw [addop]
  split
  · refine congrArg (r.set t) ?_
    ring
  · simp [run, step]

theorem run_genmuladd (d s : Reg) (m : Nat) (a : Option Reg) (r : Regs) :
    run (genmuladd d s m a) r = r.set d ((a.map r).getD 0 + r s * BitVec.ofNat 32 m) := rfl

theorem m0_arg : ∀ t ∈ [3, 5, 9], BitVec.ofInt 32 t = 1 + BitVec.ofNat 32 (m0 t) := by decide

theorem m1_arg : ∀ t ∈ [15, 25, 27, 45, 81],
    BitVec.ofInt 32 t = (1 + BitVec.ofNat 32 (m1 t)) * (1 + BitVec.ofNat 32 (m0 t)) := by decide

theorem m0_off : ∀ o ∈ [-9, -5, -3, 3, 5, 9],
    BitVec.ofInt 32 o = (if o < 0 then -1 else 1) * (1 + BitVec.ofNat 32 (m0 o)) := by decide

theorem m2_off : ∀ o ∈ [6, 10, 12, 18, 20, 24, 36, 40, 72],
    BitVec.ofInt 32 o = (1 + BitVec.ofNat 32 (m0 o)) * BitVec.ofNat 32 (m2 o) := by decide

theorem m0_power : ∀ o ∈ [-8, -4, -2, 2, 4, 8],
    BitVec.ofInt 32 o = (if o < 0 then -1 else 1) * BitVec.ofNat 32 (m0 o) := by decide

section

variable {m : Ulong} {p : Mparam}

theorem ofInt_small : (BitVec.ofInt 32 0 : Ulong) = 0 ∧ (BitVec.ofInt 32 1 : Ulong) = 1 := ⟨rfl, rfl⟩

theorem mulcode_zero (h : Right m p.alg p.neg p.shift p.arg p.off) (halg : p.alg = 0) (hoff : p.off = 0)
    (harg : p.arg ∈ [1, 3, 5, 9] ∨ p.arg ∈ [15, 25, 27, 45, 81]) :
    ∃ code, mulcode p = some code ∧ ∀ r, run code r .n = r .n * m := by
  have hneg : ∀ r, run (if p.neg = 1 then [Ins.negl .n] else []) r .n = (if p.neg = 1 then -1 else 1) * r .n := by
    intro r
    split
    · change r.set .n (-r .n) .n = _
      rw [set_self, neg_one_mul]
    · exact (one_mul _).symm
  rw [mulcode, if_pos halg, h.value, amount, hoff, ofInt_small.1]
  by_cases h1 : p.arg = 1
  · rw [if_pos h1]
    refine ⟨_, rfl, fun r => ?_⟩
    rw [run_append, hneg, run_shiftit h.count, set_self, h1, ofInt_small.2]
    ring
  rw [if_neg h1]
  by_cases h15 : p.arg ∈ [15, 25, 27, 45, 81]
  · rw [if_pos h15]
    refine ⟨_, rfl, fun r => ?_⟩
    rw [run_append, hneg, run_append, run_shiftit h.count, set_self, run_append, run_genmuladd, run_genmuladd, m1_arg _ h15]
    simp only [set_self, Option.map_some, Option.getD_some]
    ring
  have h3 : p.arg ∈ [3, 5, 9] := by simpa [h1] using harg.resolve_right h15
  rw [if_neg h15, if_pos h3]
  refine ⟨_, rfl, fun r => ?_⟩
  rw [run_append, hneg, run_append, run_shiftit h.count, set_self, run_genmuladd, m0_arg _ h3]
  simp only [set_self, Option.map_some, Option.getD_some]
  ring

theorem run_comop (r : Regs) : run (comop p) r .n =
    if p.neg ≠ 0 then r .nod + (if p.off < 0 then -1 else 1) * r .n else r .n + (if p.off < 0 then -1 else 1) * r .nod := by
  rw [comop]
  split
  · rw [run_append, run_addop]
    simp [run, step]
  · rw [run_addop, set_self]

theorem run_addnod (r : Regs) : run (addnod p) r .n =
    if p.neg ≠ 0 then r .n + (if p.off < 0 then -1 else 1) * r .nod else r .nod + (if p.off < 0 then -1 else 1) * r .n := by
  rw [addnod]
  split
  · rw [run_addop, set_self]
  · rw [run_append, run_addop]
    simp [run, step]

theorem Right.sum (h : Right m p.alg p.neg p.shift p.arg p.off) (hlt : p.neg = 1 → p.off < 0) {x y c : Ulong}
    (hoff : BitVec.ofInt 32 p.off = (if p.off < 0 then -1 else 1) * c) (hy : y = x * c) {z : Ulong}
    (hz : z = x * (BitVec.ofInt 32 p.arg * BitVec.ofNat 32 (2 ^ p.shift.toNat))) :
    (if p.neg ≠ 0 then y + (if p.off < 0 then -1 else 1) * z else z + (if p.off < 0 then -1 else 1) * y) = x * m := by
  rw [h.value, amount, hoff, hy, hz]
  rcases h.sign with hn | hn
  · rw [if_neg (show ¬ p.neg ≠ 0 by omega), if_neg (show ¬ p.neg = 1 by omega)]
    ring
  · rw [if_pos (show p.neg ≠ 0 by omega), if_pos hn, if_pos (hlt hn)]
    ring

theorem mulcode_one (h : Right m p.alg p.neg p.shift p.arg p.off) (halg : p.alg = 1) (hoff : p.off ∈ [-1, 1])
    (harg : p.arg ∈ [1, 3, 5, 9]) (hlt : p.neg = 1 → p.off < 0) :
    ∃ code, mulcode p = some code ∧ ∀ r, run code r .n = r .n * m := by
  have hsign : BitVec.ofInt 32 p.off = (if p.off < 0 then -1 else 1) * 1 := by
    have : ∀ o ∈ [-1, 1], BitVec.ofInt 32 o = (if o < 0 then -1 else 1) * 1 := by decide
    exact this _ hoff
  rw [mulcode, halg, if_neg (by decide), if_pos rfl]
  by_cases h1 : p.arg = 1
  · rw [if_pos h1]
    refine ⟨_, rfl, fun r => ?_⟩
    rw [run_append, run_addnod, run_append, run_shiftit h.count]
    refine h.sum hlt hsign (mul_one _).symm ?_
    rw [h1, ofInt_small.2, one_mul]
    exact set_self _ _ _
  have h3 : p.arg ∈ [3, 5, 9] := by simpa [h1] using harg
  rw [if_neg h1, if_pos h3]
  refine ⟨_, rfl, fun r => ?_⟩
  rw [run_append, run_addnod, run_append, run_shiftit h.count, run_genmuladd]
  refine h.sum hlt hsign (mul_one _).symm ?_
  simp only [set_self, set_nod_n, Option.map_some, Option.getD_some, m0_arg _ h3]
  ring

/-- **The instructions for parameters multiply by the number these stand for.** -/
theorem mulcode_multiplies (h : Right m p.alg p.neg p.shift p.arg p.off) :
    ∃ code, mulcode p = some code ∧ ∀ r, run code r .n = r .n * m := by
  rcases h.shape with ⟨halg, hoff, harg⟩ | ⟨halg, hoff, harg, hlt⟩ | ⟨halg, hoff, harg, hlt⟩ | ⟨halg, hoff, harg, hneg⟩ |
    ⟨halg, hoff, harg, hlt⟩
  · exact mulcode_zero h halg hoff (harg.imp_right And.left)
  · exact mulcode_one h halg hoff harg hlt
  · rw [mulcode, halg, if_neg (by decide), if_neg (by decide), if_pos rfl]
    refine ⟨_, rfl, fun r => ?_⟩
    rw [run_append, run_comop, run_append, run_shiftit h.count, run_genmuladd]
    refine h.sum hlt (m0_off _ hoff) ?_ ?_
    · simp only [set_self, set_n_nod, Option.map_some, Option.getD_some]
      ring
    · rw [harg, ofInt_small.2, one_mul]
      exact set_self _ _ _
  · rw [mulcode, halg, if_neg (by decide), if_neg (by decide), if_neg (by decide), if_pos rfl]
    refine ⟨_, rfl, fun r => ?_⟩
    rw [run_append, run_genmuladd, run_append, run_shiftit h.count, run_genmuladd, h.value, amount, m2_off _ hoff, harg,
      ofInt_small.2, hneg, if_neg (by decide)]
    simp only [set_self, set_nod_n, set_n_nod, Option.map_some, Option.getD_some]
    ring
  rw [mulcode, halg, if_neg (by decide), if_neg (by decide), if_neg (by decide), if_neg (by decide), if_pos rfl]
  refine ⟨_, rfl, fun r => ?_⟩
  rw [run_append, run_comop, run_append, run_shiftit h.count, run_genmuladd]
  refine h.sum hlt (m0_power _ hoff) ?_ ?_
  · simp only [set_self, set_n_nod, Option.map_none, Option.getD_none]
    ring
  · rw [harg, ofInt_small.2, one_mul]
    exact set_self _ _ _

end

/-! ## The table -/

/-- The entries for constants other than 0 are what `mulparam` makes of these. -/
def Multab.Good (tab : Multab) : Prop := ∀ p ∈ tab.multab, p.value ≠ 0 → ∃ q, p = mulparam p.value q

theorem mulparam_value (m : Ulong) (q : Mparam) : (mulparam m q).value = m := by
  rw [mulparam]
  split <;> rfl

theorem Multab.Good.mulgen1 {tab : Multab} (h : tab.Good) (v : Ulong) : (mulgen1 v tab).2.Good := by
  rw [Cc8.mulgen1]
  split
  · exact h
  intro p hp hne
  rcases mem_or_eq_of_mem_set hp with hp | rfl
  · exact h p hp hne
  · exact ⟨_, by rw [mulparam_value]⟩

theorem multabAfter_good (vs : List Ulong) : (multabAfter vs).Good := by
  have hstart : nomul.Good := by
    intro p hp hne
    rw [eq_of_mem_replicate hp] at hne
    exact absurd rfl hne
  have hfold : ∀ (vs : List Ulong) (tab : Multab), tab.Good → (vs.foldl (fun tab v => (Cc8.mulgen1 v tab).2) tab).Good := by
    intro vs
    induction vs with
    | nil => exact fun tab h => h
    | cons v vs ih => exact fun tab h => ih _ (h.mulgen1 v)
  exact hfold vs nomul hstart

theorem mulparam_code {m : Ulong} (hm : Selects m) (q : Mparam) :
    ¬ (mulparam m q).alg < 0 ∧ ∃ code, mulcode (mulparam m q) = some code ∧ ∀ r, run code r .n = r .n * m := by
  have hright := mulbest_found m hm
  have heq : mulparam m q =
      ⟨m, (mulbest m).bi, (mulbest m).bs, (mulbest m).bn, (mulbest m).bt, (mulbest m).bo⟩ := by
    obtain ⟨h₁, h2, h₃, h4, h5⟩ := hright.chars
    rw [mulparam, if_pos (show (mulbest m).bc ≤ 3 from hm), h₁, h2, h₃, h4, h5]
  rw [heq]
  exact ⟨Int.not_lt.2 (Int.natCast_nonneg _), mulcode_multiplies hright⟩

/-- **Whatever was multiplied by before**, what `mulgen1` emits for a constant that an algorithm was found for multiplies by it. -/
theorem mulgen1_multiplies (vs : List Ulong) {m : Ulong} (hne : m ≠ 0) (hm : Selects m) :
    ∃ code, (mulgen1 m (multabAfter vs)).1 = some (some code) ∧ ∀ r, run code r .n = r .n * m := by
  have hgood := multabAfter_good vs
  rw [mulgen1]
  dsimp only
  split
  · rename_i p hp
    have hvalue : p.value = m := by simpa using find?_some hp
    obtain ⟨q, hq⟩ := hgood p (mem_of_find?_eq_some hp) (hvalue ▸ hne)
    rw [hvalue] at hq
    obtain ⟨halg, code, hcode, hrun⟩ := mulparam_code hm q
    rw [← hq] at halg hcode
    exact ⟨code, by rw [if_neg halg, hcode], hrun⟩
  · obtain ⟨halg, code, hcode, hrun⟩ := mulparam_code hm ((multabAfter vs).multab.getD (multabAfter vs).mulptr ⟨0, 0, 0, 0, 0, 0⟩)
    exact ⟨code, by rw [if_neg halg, hcode], hrun⟩

/-- By 54, and then by 100 and 54 again. -/
theorem mulgen1_multiplies_again : ∃ code, (mulgen1 54 (multabAfter [54, 100])).1 = some (some code) ∧
    ∀ r, run code r .n = r .n * 54 :=
  mulgen1_multiplies [54, 100] (by decide) (by decide +kernel)

end Plan9.Cc8
