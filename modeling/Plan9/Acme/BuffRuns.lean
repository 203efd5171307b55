/-
Any number of buffers with one disk, over whole runs: they are strings, as long as the
temporary file has not wrapped.

An operation is at work on one buffer, and the blocks of the others are as they were
(`Since`); so what a buffer holds is what the operations on it alone have made of it.
-/
import Plan9.Acme.BuffRoom
import Plan9.Lib.Ranges
import Plan9.Lib.Run

namespace Plan9.Acme

open Function

/-- The operations on the buffer `i`. -/
inductive Op
  | insert (i q0 : Nat) (s : List Rune)
  | delete (i q0 q1 : Nat)
  | read (i q0 n : Nat)
  | reset (i : Nat)

def Op.buf : Op → Nat
  | .insert i _ _ | .delete i _ _ | .read i _ _ | .reset i => i

/-- What the operation makes of a text. -/
def Op.text : Op → List Rune → List Rune
  | .insert _ q0 s, t => insertAt q0 s t
  | .delete _ q0 q1, t => deleteFrom q0 q1 t
  | .read _ _ _, t => t
  | .reset _, _ => []

/-- What it reads of it. -/
def Op.out : Op → List Rune → List Rune
  | .read _ q0 n, t => (t.drop q0).take n
  | _, _ => []

/-- Arguments in the range of the text, which stays in the range of a `uint`. -/
def Op.InRange : Op → List Rune → Prop
  | .insert _ q0 s, t => q0 ≤ t.length ∧ t.length + s.length < 2 ^ 32
  | .delete _ q0 q1, t => q0 ≤ q1 ∧ q1 ≤ t.length
  | .read _ q0 n, t => q0 + n ≤ t.length
  | .reset _, _ => True

/-- Arguments in the range of the text. -/
def Op.Inside : Op → List Rune → Prop
  | .insert _ q0 _, t => q0 ≤ t.length
  | .delete _ q0 q1, t => q0 ≤ q1 ∧ q1 ≤ t.length
  | .read _ q0 n, t => q0 + n ≤ t.length
  | .reset _, _ => True

variable {d : Disk} {b : Buffer} {i : Nat} {s t : List Rune}

theorem Op.InRange.inside {op : Op} (h : op.InRange t) : op.Inside t := by
  cases op with
  | insert i q0 s => exact h.1
  | delete i q0 q1 => exact h
  | read i q0 n => exact h
  | reset i => trivial

def Op.call (d : Disk) (b : Buffer) : Op → Except String (Disk × Buffer × List Rune)
  | .insert _ q0 s => bufinsert d b q0 s >>= fun (d, b) => .ok (d, b, [])
  | .delete _ q0 q1 => bufdelete d b q0 q1 >>= fun (d, b) => .ok (d, b, [])
  | .read _ q0 n => bufread d b q0 n
  | .reset _ => bufreset d b >>= fun (d, b) => .ok (d, b, [])

/-- No more blocks than this are made. -/
def Op.blocks : Op → Nat
  | .insert _ _ s => 3 * s.length
  | .delete _ q0 q1 => q1 - q0
  | .read _ _ n => n
  | .reset _ => 0

/-- **No operation loses any of the file**, or takes more of it than for so many blocks. -/
theorem call_keeps (rest : Nat → Prop) (op : Op) : May (fun x => Keeps rest op.blocks d b.bl x.1 x.2.1.bl) (op.call d b) := by
  cases op with
  | insert i q0 s =>
    have h : May (fun x => Keeps rest (3 * s.length) d b.bl x.1 x.2.bl) (bufinsert d b q0 s) := by
      rw [bufinsert]
      split
      · trivial
      · exact insertLoop_keeps rest _ d b q0 s
    refine Outcome.bind h ?_
    rintro ⟨d', b'⟩ hkeeps
    exact Outcome.ok hkeeps
  | delete i q0 q1 =>
    have h : May (fun x => Keeps rest (q1 - q0) d b.bl x.1 x.2.bl) (bufdelete d b q0 q1) := by
      rw [bufdelete]
      split
      · trivial
      · exact deleteLoop_keeps rest _ d b q0 q1
    refine Outcome.bind h ?_
    rintro ⟨d', b'⟩ hkeeps
    exact Outcome.ok hkeeps
  | read i q0 n =>
    change May _ (bufread d b q0 n)
    rw [bufread]
    split
    · trivial
    · exact readLoop_keeps rest _ d b q0 n []
  | reset i =>
    refine Outcome.bind (resetLoop_keeps rest (b.bl.length - 1) d
      { b with nc := 0, c := [], cq := 0, cdirty := false, cbi := 0 }) ?_
    rintro ⟨d', b'⟩ hkeeps
    exact Outcome.ok hkeeps

/-- What is left of a `bufreset` is not inserted into, but for what fits in a block. -/
def Op.Fits (b : Buffer) : Op → Prop
  | .insert _ _ s => ¬ (Leftover b ∧ Maxblock < s.length)
  | _ => True

/-- The buffers, with the texts that they are to hold. `good` is whether every call has passed its checks and read
what is there. -/
structure State where
  disk : Disk
  buf : Nat → Buffer
  text : Nat → List Rune
  good : Bool

namespace State

def exec (a : State) (op : Op) : State :=
  match op.call a.disk (a.buf op.buf) with
  | .ok (d, b, s) =>
    { disk := d
      buf := Function.update a.buf op.buf b
      text := Function.update a.text op.buf (op.text (a.text op.buf))
      good := a.good && s == op.out (a.text op.buf) }
  | .error _ => { a with good := false }

def start : State :=
  { disk := ⟨0, fun _ => [], fun _ => 0, 0⟩, buf := fun _ => ⟨0, [], 0, false, 0, []⟩, text := fun _ => [], good := true }

def Init (a : State) : Prop := a = start

def Step (a : State) (op : Op) (a' : State) : Prop := op.InRange (a.text op.buf) ∧ a' = a.exec op

/-- A step after which the file is no longer than there are addresses. -/
def FitStep (a : State) (op : Op) (a' : State) : Prop := Step a op a' ∧ a'.disk.addr ≤ ADDRS

/-- Every buffer has been the string it is to hold. -/
structure Strings (a : State) : Prop where
  good : a.good = true
  nc : ∀ i, (a.buf i).nc = (a.text i).length

/-! ## What is kept -/

/-- The blocks of the other buffers. -/
def others (a : State) (i : Nat) (k : Block) : Prop := ∃ j, j ≠ i ∧ k ∈ (a.buf j).bl

structure Kept (a : State) : Prop where
  good : a.good = true
  addr : a.disk.addr ≤ ADDRS
  holds : ∀ i, Holds a.disk (a.buf i) (a.text i)
  sound : ∀ i, ∀ k ∈ (a.buf i).bl, Sound k
  laid : ∃ size, ∀ i, Laid a.disk size (a.buf i).bl (a.others i)

variable {a a' : State}

theorem Kept.works (h : a.Kept) (i : Nat) : Works a.disk (a.others i) a.disk (a.buf i) (a.text i) := by
  obtain ⟨size, hlaid⟩ := h.laid
  exact ⟨⟨le_rfl, le_rfl, h.sound i, fun _ => ⟨⟨size, hlaid i⟩, fun _ _ => rfl⟩⟩, h.holds i⟩

/-- A text is no longer than a `uint` counts, as it is in the file but for what is in the cache. -/
theorem Kept.length_lt (h : a.Kept) (i : Nat) : (a.text i).length < 2 ^ 32 := by
  obtain ⟨size, hlaid⟩ := h.laid
  have hlaid := hlaid i
  have hsize : ∀ k ∈ (a.buf i).bl, size k.addr ≠ 0 ∧ k.n ≤ size k.addr := by
    intro k hk
    rw [hlaid.mine k hk]
    exact ⟨roundup_pos (h.sound i k hk), le_roundup k.n⟩
  have hroom : total (a.buf i).bl ≤ a.disk.addr := by
    have hin : ∀ k ∈ (a.buf i).bl, k.addr + k.n ≤ a.disk.addr := by
      intro k hk
      obtain ⟨hne, hle⟩ := hsize k hk
      exact Nat.le_trans (Nat.add_le_add_left hle _) (hlaid.below k.addr hne)
    refine Ranges.sum_le_of_apart hin ((List.pairwise_map.1 hlaid.nodup).imp_of_mem fun {k k'} hk hk' hne => ?_)
    · obtain ⟨hkne, hle⟩ := hsize k hk
      obtain ⟨hkne', _⟩ := hsize k' hk'
      have := hlaid.disjoint hkne hkne' hne
      omega
  have haddr : a.disk.addr ≤ 2 ^ 32 / 4 := h.addr
  rcases h.holds i with he | ⟨pre, k, post, stale, hr⟩
  · rw [he.text]
    decide
  have hcnc : (a.buf i).cnc ≤ 16 * 1024 := hr.cnc
  rw [hr.bl, total_append, total_cons, total_append] at hroom
  rw [hr.len]
  omega

/-- **An operation on one buffer** leaves the others what they hold. -/
theorem Kept.update (h : a.Kept) (hle : d.addr ≤ ADDRS)
    (hw : Works a.disk (a.others i) d b t) :
    Kept { disk := d, buf := Function.update a.buf i b, text := Function.update a.text i t, good := a.good } := by
  obtain ⟨hsince, hholds⟩ := hw
  obtain ⟨⟨size, hlaid⟩, hother⟩ := hsince.laid hle
  obtain ⟨_, hlaid0⟩ := h.laid
  have hin : ∀ j, j ≠ i → ∀ k ∈ (a.buf j).bl, a.others i k := fun j hj k hk => ⟨j, hj, hk⟩
  refine ⟨h.good, hle, ?_, ?_, size, ?_⟩
  · intro j
    by_cases hj : j = i
    · subst hj
      change Holds d (Function.update a.buf j b j) (Function.update a.text j t j)
      rw [Function.update_self, Function.update_self]
      exact hholds
    · change Holds d (Function.update a.buf i b j) (Function.update a.text i t j)
      rw [Function.update_of_ne hj, Function.update_of_ne hj]
      exact Holds.stay (h.holds j) h.addr hsince.eof fun k hk => hother k (hin j hj k hk)
  · intro j k hk
    by_cases hj : j = i
    · subst hj
      change k ∈ (Function.update a.buf j b j).bl at hk
      rw [Function.update_self] at hk
      exact hsince.sound k hk
    · change k ∈ (Function.update a.buf i b j).bl at hk
      rw [Function.update_of_ne hj] at hk
      exact h.sound j k hk
  intro j
  by_cases hj : j = i
  · subst hj
    change Laid d size (Function.update a.buf j b j).bl _
    rw [Function.update_self]
    refine ⟨hlaid.below, hlaid.apart, hlaid.mine, hlaid.nodup, hlaid.free, hlaid.freeNodup, hlaid.freeMine, ?_⟩
    rintro k ⟨l, hl, hk⟩
    change k ∈ (Function.update a.buf j b l).bl at hk
    rw [Function.update_of_ne hl] at hk
    exact hlaid.others k (hin l hl k hk)
  change Laid d size (Function.update a.buf i b j).bl _
  rw [Function.update_of_ne hj]
  refine ⟨hlaid.below, hlaid.apart, fun k hk => (hlaid.others k (hin j hj k hk)).2.1, (hlaid0 j).nodup, hlaid.free,
    hlaid.freeNodup, fun k hk => (hlaid.others k (hin j hj k hk)).2.2.2, ?_⟩
  rintro k ⟨l, hl, hk⟩
  change k ∈ (Function.update a.buf i b l).bl at hk
  by_cases hli : l = i
  · rw [hli, Function.update_self] at hk
    refine ⟨hsince.sound k hk, hlaid.mine k hk, ?_, hlaid.freeMine k hk⟩
    intro hm
    obtain ⟨k', hk', he⟩ := List.mem_map.1 hm
    refine (hlaid.others k' (hin j hj k' hk')).2.2.1 ?_
    rw [he]
    exact List.mem_map_of_mem hk
  · rw [Function.update_of_ne hli] at hk
    obtain ⟨hs, hsize, -, hfree⟩ := hlaid.others k (hin l hli k hk)
    exact ⟨hs, hsize, ((hlaid0 j).others k ⟨l, hl, hk⟩).2.2.1, hfree⟩

theorem call_spec {d0 : Disk} {O : Block → Prop} (op : Op) (h : Works d0 O d b t)
    (hin : op.Inside t) :
    Gives (fun x => Works d0 O x.1 x.2.1 (op.text t) ∧ (x.1.addr ≤ ADDRS → x.2.2 = op.out t) ∧
      (Snug b → op.Fits b → Snug x.2.1)) (op.call d b) := by
  cases op with
  | insert i q0 s =>
    refine Outcome.bind (bufinsert_spec h hin) ?_
    rintro ⟨d', b'⟩ ⟨hw, hsnug⟩
    exact Outcome.ok ⟨hw, fun _ => rfl, fun hb hop => hsnug hb hop⟩
  | delete i q0 q1 =>
    refine Outcome.bind (bufdelete_spec h hin.1 hin.2) ?_
    rintro ⟨d', b'⟩ ⟨hw, hsnug⟩
    exact Outcome.ok ⟨hw, fun _ => rfl, fun hb _ => hsnug hb⟩
  | read i q0 n =>
    refine (bufread_spec h hin).mono (fun _ => id) ?_
    rintro ⟨d', b', s⟩ ⟨hw, hs, hsnug⟩
    exact ⟨hw, hs, fun hb _ => hsnug hb⟩
  | reset i =>
    refine Outcome.bind (bufreset_spec h) ?_
    rintro ⟨d', b'⟩ ⟨hw, hsnug⟩
    exact Outcome.ok ⟨hw, fun _ => rfl, fun _ _ => hsnug⟩

theorem Kept.step {op : Op} (h : a.Kept) (hstep : FitStep a op a') : a'.Kept := by
  obtain ⟨⟨hin, rfl⟩, hle⟩ := hstep
  obtain ⟨⟨d, b, s⟩, hcall, hw, hout, -⟩ := (call_spec op (h.works op.buf) hin.inside).exists_ok fun _ => id
  rw [exec, hcall] at hle ⊢
  dsimp only at hw hout hle ⊢
  have hkept := h.update hle hw
  rw [hout hle, beq_self_eq_true, Bool.and_true]
  exact hkept

theorem start_kept : start.Kept := by
  have hempty : ∀ i, Empty (start.buf i) [] := fun i => ⟨rfl, rfl, rfl, rfl, rfl, rfl, rfl⟩
  refine ⟨rfl, Nat.zero_le _, fun i => .inl (hempty i), nofun, fun _ => 0, ?_⟩
  intro i
  refine ⟨fun _ h => absurd rfl h, fun _ _ h => absurd rfl h, nofun, .nil, nofun, fun _ => .nil, nofun, ?_⟩
  rintro k ⟨j, -, hk⟩
  cases hk

theorem reachable_kept (h : Trans.Reachable Init FitStep a) : a.Kept := by
  refine h.invariant Kept ?_ ?_
  · rintro a rfl
    exact start_kept
  · exact fun _ _ _ h hstep => h.step hstep

/-- **acme's buffers are strings** in every run in which the temporary file does not wrap. -/
theorem strings (a : State) (h : Trans.Reachable Init FitStep a) : a.Strings :=
  ⟨(reachable_kept h).good, fun i => ((reachable_kept h).holds i).nc⟩

/-- **An operation for which there is room** leaves the file no longer than there are addresses. -/
theorem Kept.fitStep (h : a.Kept) {op : Op} (hin : op.InRange (a.text op.buf))
    (hroom : a.disk.addr + op.blocks * Maxblock ≤ ADDRS) :
    FitStep a op (a.exec op) ∧ (a.exec op).disk.addr ≤ a.disk.addr + op.blocks * Maxblock ∧
      (a.exec op).text = Function.update a.text op.buf (op.text (a.text op.buf)) := by
  obtain ⟨⟨d, b, s⟩, hcall, -, -, -⟩ := (call_spec op (h.works op.buf) hin.inside).exists_ok fun _ => id
  have hadded := ((call_keeps (fun _ => False) op).of_ok hcall).room
  rw [FitStep, Step, exec, hcall]
  exact ⟨⟨⟨hin, rfl⟩, Nat.le_trans hadded hroom⟩, hadded, rfl⟩

/-- In range one after the other, of texts that are `t` at first. -/
def Ranged : List Op → (Nat → List Rune) → Prop
  | [], _ => True
  | op :: ops, t => op.InRange (t op.buf) ∧ Ranged ops (Function.update t op.buf (op.text (t op.buf)))

/-- So a run of them does, if there is room for all of the blocks; `P` is what the steps keep. -/
theorem Kept.short_run {P : State → Prop} {ops : List Op} (h : a.Kept) (hin : Ranged ops a.text)
    (hroom : a.disk.addr + (ops.map Op.blocks).sum * Maxblock ≤ ADDRS) (hstart : P a)
    (hstep : ∀ a, ∀ op ∈ ops, P a → FitStep a op (a.exec op) → P (a.exec op)) : P (ops.foldl exec a) := by
  induction ops generalizing a with
  | nil => exact hstart
  | cons op ops ih =>
    rw [List.map_cons, List.sum_cons, Nat.add_mul] at hroom
    obtain ⟨hfit, haddr, htext⟩ := h.fitStep hin.1 (by omega)
    refine ih (h.step hfit) (htext ▸ hin.2) (by omega) (hstep a op List.mem_cons_self hstart hfit) ?_
    exact fun a op hop => hstep a op (List.mem_cons_of_mem _ hop)

/-! ## When the file wraps -/

theorem ntosize_one : ntosize 1 = .ok (256, 1) := ntosize_ok (by decide)
theorem ntosize_max : ntosize Maxblock = .ok (Maxblock, 64) := ntosize_ok (by decide)

theorem insert_first (a : Nat) (r : Rune) :
    bufinsert ⟨a, fun _ => [], fun _ => 0, 0⟩ ⟨0, [], 0, false, 0, []⟩ 0 [r] =
      .ok (⟨a + 256, fun _ => [], fun _ => 0, 0⟩, ⟨1, [r], 0, true, 0, [⟨a % ADDRS, 1⟩]⟩) := by
  have hadd : addblock ⟨a, fun _ => [], fun _ => 0, 0⟩ ⟨0, [], 0, false, 0, []⟩ 0 1 =
      .ok (⟨a + 256, fun _ => [], fun _ => 0, 0⟩, ⟨0, [], 0, false, 0, [⟨a % ADDRS, 1⟩]⟩) := by
    rfl
  have hcache : setcache ⟨a, fun _ => [], fun _ => 0, 0⟩ ⟨0, [], 0, false, 0, []⟩ 0 =
      .ok (⟨a, fun _ => [], fun _ => 0, 0⟩, ⟨0, [], 0, false, 0, []⟩) := rfl
  have hstep : insertStep ⟨a, fun _ => [], fun _ => 0, 0⟩ ⟨0, [], 0, false, 0, []⟩ 0 [r] =
      .ok (⟨a + 256, fun _ => [], fun _ => 0, 0⟩, ⟨1, [r], 0, true, 0, [⟨a % ADDRS, 1⟩]⟩, 1) := by
    have hfit : 0 + 1 ≤ Maxblock := by decide
    simp only [insertStep, hcache, bind, Except.bind, pure, Except.pure, Buffer.cnc, List.length_nil,
      List.length_singleton, if_pos hfit, ne_eq, not_true_eq_false, if_true, if_false, Nat.zero_add, hadd]
    rfl
  change insertLoop 1 _ _ 0 [r] = _
  rw [insertLoop, hstep]
  · rfl
  · simp

theorem insert_next (a p : Nat) (f : Nat → Rune) (e : Nat) (r : Rune) (s : List Rune) (hs : s.length = Maxblock) :
    insertStep ⟨a, fun _ => [], f, e⟩ ⟨1, [r], 0, true, 0, [⟨p, 1⟩]⟩ 1 s =
      .ok ({ pwrite ⟨a, fun _ => [], f, e⟩ [r] p with addr := a + Maxblock },
        ⟨1 + Maxblock, s, 1, true, 1, [⟨p, 1⟩, ⟨a % ADDRS, Maxblock⟩]⟩, Maxblock) := by
  have htake : s.take Maxblock = s := List.take_of_length_le (Nat.le_of_eq hs)
  have hcache : setcache ⟨a, fun _ => [], f, e⟩ ⟨1, [r], 0, true, 0, [⟨p, 1⟩]⟩ 1 =
      .ok (⟨a, fun _ => [], f, e⟩, ⟨1, [r], 0, true, 0, [⟨p, 1⟩]⟩) := rfl
  have hflush : flush ⟨a, fun _ => [], f, e⟩ ⟨1, [r], 0, true, 0, [⟨p, 1⟩]⟩ =
      .ok (pwrite ⟨a, fun _ => [], f, e⟩ [r] p, ⟨1, [r], 0, false, 0, [⟨p, 1⟩]⟩) := by
    change ((diskwrite _ ⟨p, 1⟩ [r] >>= _) >>= _) = _
    have hone : [r].length = 1 := rfl
    rw [diskwrite, hone, ntosize_one]
    rfl
  refine Eq.trans (if_neg (show ¬ 1 + s.length ≤ Maxblock by omega)) ?_
  refine Eq.trans (if_pos (show 1 = 0 ∨ 1 = 0 + 1 from .inr rfl)) ?_
  rw [if_pos rfl, hflush]
  have hadd : addblock (pwrite ⟨a, fun _ => [], f, e⟩ [r] p) ⟨1, [r], 0, false, 0, [⟨p, 1⟩]⟩ 1 Maxblock =
      .ok ({ pwrite ⟨a, fun _ => [], f, e⟩ [r] p with addr := a + Maxblock },
        ⟨1, [r], 0, false, 0, [⟨p, 1⟩, ⟨a % ADDRS, Maxblock⟩]⟩) := by
    rfl
  simp only [bind, Except.bind, pure, Except.pure, hs, Nat.min_self, htake, reduceCtorEq, if_false, gt_iff_lt,
    Nat.zero_lt_one, if_true, Nat.zero_add, hadd]
  rfl

theorem insert_second (a p : Nat) (f : Nat → Rune) (e : Nat) (r : Rune) (s : List Rune) (hs : s.length = Maxblock) :
    bufinsert ⟨a, fun _ => [], f, e⟩ ⟨1, [r], 0, true, 0, [⟨p, 1⟩]⟩ 1 s =
      .ok ({ pwrite ⟨a, fun _ => [], f, e⟩ [r] p with addr := a + Maxblock },
        ⟨1 + Maxblock, s, 1, true, 1, [⟨p, 1⟩, ⟨a % ADDRS, Maxblock⟩]⟩) := by
  obtain ⟨n, hn⟩ : ∃ n, s.length = n + 1 := ⟨Maxblock - 1, by rw [hs]; rfl⟩
  have hstep := insert_next a p f e r s hs
  have hdrop : s.drop Maxblock = [] := List.drop_of_length_le (Nat.le_of_eq hs)
  change insertLoop s.length _ _ 1 s = _
  rw [hn, insertLoop, hstep]
  · change insertLoop n _ _ _ (s.drop Maxblock) = _
    rw [hdrop, insertLoop]
  · rintro rfl
    cases hn

theorem read_first (d : Disk) (p p' : Nat) (s : List Rune) (hs : s.length = Maxblock) (he : p + 1 ≤ d.eof) :
    bufread d ⟨1 + Maxblock, s, 1, true, 1, [⟨p, 1⟩, ⟨p', Maxblock⟩]⟩ 0 1 =
      .ok (pwrite d s p', ⟨1 + Maxblock, [(pwrite d s p').file p], 0, false, 0, [⟨p, 1⟩, ⟨p', Maxblock⟩]⟩,
        [(pwrite d s p').file p]) := by
  have hflush : flush d ⟨1 + Maxblock, s, 1, true, 1, [⟨p, 1⟩, ⟨p', Maxblock⟩]⟩ =
      .ok (pwrite d s p', ⟨1 + Maxblock, s, 1, false, 1, [⟨p, 1⟩, ⟨p', Maxblock⟩]⟩) := by
    have hne : ¬ s.length = 0 := by rw [hs]; decide
    change ((if s.length = 0 then _ else _) >>= _) = _
    rw [if_neg hne]
    change ((diskwrite d ⟨p', Maxblock⟩ s >>= _) >>= _) = _
    rw [diskwrite, hs, ntosize_max]
    rfl
  have hread : diskread (pwrite d s p') ⟨p, 1⟩ 1 = .ok [(pwrite d s p').file (p + 0)] := by
    have hwritten : Written (pwrite d s p') ⟨p, 1⟩ := Nat.le_trans he (Nat.le_max_left _ _)
    have hmax : 1 ≤ Maxblock := by decide
    exact diskread_spec (d := pwrite d s p') (k := ⟨p, 1⟩) ⟨Nat.one_pos, hmax⟩ hwritten
  have hcache : setcache d ⟨1 + Maxblock, s, 1, true, 1, [⟨p, 1⟩, ⟨p', Maxblock⟩]⟩ 0 =
      .ok (pwrite d s p', ⟨1 + Maxblock, [(pwrite d s p').file p], 0, false, 0, [⟨p, 1⟩, ⟨p', Maxblock⟩]⟩) := by
    rw [setcache, if_neg (Nat.not_lt_zero _), if_neg (by dsimp only; omega), if_neg (by dsimp only; omega), hflush]
    change (diskread (pwrite d s p') ⟨p, 1⟩ 1 >>= _) = _
    rw [hread]
    rfl
  change readLoop 1 d _ 0 1 [] = _
  rw [readLoop, hcache]
  · rfl
  · simp

def empty : Buffer := ⟨0, [], 0, false, 0, []⟩

def rune (j : Nat) : Rune := if j = 0 then 97 else 98

/-- The first `n` buffers have a rune each. -/
def filled (n : Nat) : State :=
  { disk := ⟨256 * n, fun _ => [], fun _ => 0, 0⟩
    buf := fun j => if j < n then ⟨1, [rune j], 0, true, 0, [⟨256 * j % ADDRS, 1⟩]⟩ else empty
    text := fun j => if j < n then [rune j] else []
    good := true }

theorem filled_buf {n j : Nat} (h : j < n) : (filled n).buf j = ⟨1, [rune j], 0, true, 0, [⟨256 * j % ADDRS, 1⟩]⟩ :=
  if_pos h

theorem filled_text {n j : Nat} (h : j < n) : (filled n).text j = [rune j] := if_pos h

theorem exec_filled (n : Nat) : (filled n).exec (.insert n 0 [rune n]) = filled (n + 1) := by
  have hbuf : (filled n).buf n = empty := if_neg (Nat.lt_irrefl n)
  have htext : (filled n).text n = [] := if_neg (Nat.lt_irrefl n)
  have hupdate : ∀ {α : Type} (f : Nat → α) (x y : α) (hx : x = f n),
      update (fun j => if j < n then f j else y) n x = fun j => if j < n + 1 then f j else y := by
    intro α f x y hx
    funext j
    by_cases hj : j = n
    · rw [hj, update_self, if_pos (Nat.lt_succ_self n), hx]
    rw [update_of_ne hj]
    by_cases hlt : j < n
    · rw [if_pos hlt, if_pos (Nat.lt_succ_of_lt hlt)]
    · rw [if_neg hlt, if_neg (by omega)]
  have hcall : Op.call (filled n).disk ((filled n).buf n) (.insert n 0 [rune n]) =
      .ok (⟨256 * n + 256, fun _ => [], fun _ => 0, 0⟩, ⟨1, [rune n], 0, true, 0, [⟨256 * n % ADDRS, 1⟩]⟩, []) := by
    rw [hbuf]
    change (bufinsert ⟨256 * n, fun _ => [], fun _ => 0, 0⟩ _ 0 [rune n] >>= _) = _
    rw [empty, insert_first]
    rfl
  change (match Op.call (filled n).disk ((filled n).buf n) (.insert n 0 [rune n]) with
    | .ok (d, b, s) => _
    | .error _ => _) = _
  rw [hcall]
  rw [State.mk.injEq]
  refine ⟨rfl, ?_, ?_, rfl⟩
  · exact hupdate _ _ empty rfl
  · change update (filled n).text n (insertAt 0 [rune n] ((filled n).text n)) = _
    rw [htext]
    exact hupdate (fun j => [rune j]) _ [] rfl

theorem filled_step (n : Nat) : Step (filled n) (.insert n 0 [rune n]) (filled (n + 1)) := by
  refine ⟨?_, (exec_filled n).symm⟩
  have htext : (filled n).text n = [] := if_neg (Nat.lt_irrefl n)
  change 0 ≤ ((filled n).text n).length ∧ ((filled n).text n).length + 1 < 2 ^ 32
  rw [htext]
  exact ⟨le_rfl, by decide⟩

theorem reachable_filled (n : Nat) : Trans.Reachable Init Step (filled n) := by
  induction n with
  | zero => exact .start rfl
  | succ n ih => exact ih.next (filled_step n)

theorem fit_filled {n : Nat} (h : 256 * n ≤ ADDRS) : Trans.Reachable Init FitStep (filled n) := by
  induction n with
  | zero => exact .start rfl
  | succ n ih => exact (ih (Nat.le_trans (Nat.mul_le_mul_left 256 (Nat.le_succ n)) h)).next ⟨filled_step n, h⟩

theorem exec_ok (a : State) (op : Op)
    (h : op.call a.disk (a.buf op.buf) = .ok (d, b, s)) : a.exec op =
      { disk := d, buf := update a.buf op.buf b, text := update a.text op.buf (op.text (a.text op.buf))
        good := a.good && s == op.out (a.text op.buf) } := by
  rw [exec, h]

theorem exec_self (a : State) (op : Op)
    (h : op.call a.disk (a.buf op.buf) = .ok (d, b, s)) :
    (a.exec op).disk = d ∧ (a.exec op).buf op.buf = b ∧ (a.exec op).text op.buf = op.text (a.text op.buf) := by
  rw [exec_ok _ _ h]
  exact ⟨rfl, update_self .., update_self ..⟩

theorem exec_other (a : State) (op : Op) (hi : i ≠ op.buf) :
    (a.exec op).buf i = a.buf i ∧ (a.exec op).text i = a.text i := by
  unfold exec
  split
  · exact ⟨Function.update_of_ne hi .., Function.update_of_ne hi ..⟩
  · exact ⟨rfl, rfl⟩

/-- A block more than this, and the file wraps. -/
def many : Nat := 2 ^ 22

/-- A block's worth of runes. -/
def full : List Rune := List.replicate Maxblock 99

theorem length_full : full.length = Maxblock := List.length_replicate

theorem filled_last :
    (filled (many + 1)).buf many = ⟨1, [98], 0, true, 0, [⟨0, 1⟩]⟩ ∧ (filled (many + 1)).text many = [98] := by
  have haddr : 256 * many % ADDRS = 0 := by decide
  have hrune : rune many = 98 := by decide
  exact ⟨rfl, rfl⟩

/-- The disk when the last buffer has written its block, and when the first one has. -/
def disk₁ : Disk := { pwrite (filled (many + 1)).disk [98] 0 with addr := 256 * (many + 1) + Maxblock }
def disk₂ : Disk := { pwrite disk₁ [97] 0 with addr := disk₁.addr + Maxblock }

def last : Buffer := ⟨1 + Maxblock, full, 1, true, 1, [⟨0, 1⟩, ⟨256 * (many + 1) % ADDRS, Maxblock⟩]⟩
def first : Buffer := ⟨1 + Maxblock, full, 1, true, 1, [⟨0, 1⟩, ⟨disk₁.addr % ADDRS, Maxblock⟩]⟩

theorem call_last : Op.call (filled (many + 1)).disk ((filled (many + 1)).buf many) (.insert many 1 full) =
    .ok (disk₁, last, []) := by
  rw [filled_last.1]
  change (bufinsert ⟨256 * (many + 1), fun _ => [], fun _ => 0, 0⟩ _ 1 full >>= _) = _
  rw [insert_second _ _ _ _ _ _ length_full]
  rfl

theorem call_first : Op.call disk₁ ⟨1, [97], 0, true, 0, [⟨0, 1⟩]⟩ (.insert 0 1 full) = .ok (disk₂, first, []) := by
  have hfree : disk₁ = ⟨disk₁.addr, fun _ => [], disk₁.file, disk₁.eof⟩ := rfl
  change (bufinsert disk₁ _ 1 full >>= _) = _
  rw [hfree, insert_second _ _ _ _ _ _ length_full]
  rfl

theorem call_read : ∃ d b, Op.call disk₂ last (.read many 0 1) = .ok (d, b, [97]) := by
  have hread := read_first disk₂ 0 (256 * (many + 1) % ADDRS) full length_full (Nat.le_max_right _ _)
  have hrune : (pwrite disk₂ full 256).file 0 = 97 := by
    rfl
  have haddr : 256 * (many + 1) % ADDRS = 256 := by decide
  exact ⟨_, _, hread⟩

def wrapped : State :=
  (((filled (many + 1)).exec (.insert many 1 full)).exec (.insert 0 1 full)).exec (.read many 0 1)

/-- Both go to the disk, and the last one is read. -/
theorem reachable_wrapped : Trans.Reachable Init Step wrapped ∧ wrapped.good = false := by
  have hne : (0 : Nat) ≠ many := by decide
  have hfirst : (filled (many + 1)).buf 0 = ⟨1, [97], 0, true, 0, [⟨0, 1⟩]⟩ := rfl
  obtain ⟨-, hlastText⟩ := filled_last
  obtain ⟨t1, ht1⟩ : ∃ t1, t1 = (filled (many + 1)).exec (.insert many 1 full) := ⟨_, rfl⟩
  obtain ⟨t2, ht2⟩ : ∃ t2, t2 = t1.exec (.insert 0 1 full) := ⟨_, rfl⟩
  obtain ⟨hdisk1, hbuf1, htext1⟩ := exec_self (filled (many + 1)) (.insert many 1 full) call_last
  have hother1 := (exec_other (filled (many + 1)) (.insert many 1 full) hne).1.trans hfirst
  have hotherText₁ : t1.text 0 = [97] := ht1 ▸ (exec_other (filled (many + 1)) (.insert many 1 full) hne).2
  rw [← ht1] at hdisk1 hbuf1 htext1 hother1
  have hcall2 : Op.call t1.disk (t1.buf 0) (.insert 0 1 full) = .ok (disk₂, first, []) := by
    rw [hother1, hdisk1]
    exact call_first
  have hdisk2 : t2.disk = disk₂ := ht2 ▸ (exec_self _ _ hcall2).1
  have hbuf2 : t2.buf many = t1.buf many := ht2 ▸ (exec_other t1 (.insert 0 1 full) hne.symm).1
  have htext2 : t2.text many = insertAt 1 full [98] := by
    rw [ht2, (exec_other t1 (.insert 0 1 full) hne.symm).2, ← hlastText]
    exact htext1
  obtain ⟨d3, b3, hread⟩ := call_read
  have hcall3 : Op.call t2.disk (t2.buf many) (.read many 0 1) = .ok (d3, b3, [97]) := by
    rw [hdisk2, hbuf2]
    exact (congrArg (Op.call disk₂ · (.read many 0 1)) hbuf1).trans hread
  have hout : Op.out (.read many 0 1) (t2.text many) = [98] := by
    rw [htext2]
    rfl
  rw [wrapped, ← ht1, ← ht2]
  constructor
  · have hin1 : (Op.insert many 1 full).InRange ((filled (many + 1)).text many) := by
      exact ⟨le_rfl, by rw [length_full]; decide⟩
    have hin2 : (Op.insert 0 1 full).InRange (t1.text 0) := by
      rw [hotherText₁]
      exact ⟨le_rfl, by rw [length_full]; decide⟩
    have hin3 : (Op.read many 0 1).InRange (t2.text many) := by
      change 0 + 1 ≤ (t2.text many).length
      rw [htext2, length_insertAt, List.length_singleton]
      omega
    have hreach1 : Trans.Reachable Init Step t1 := (reachable_filled (many + 1)).next ⟨hin1, ht1⟩
    have hreach2 : Trans.Reachable Init Step t2 := hreach1.next ⟨hin2, ht2⟩
    exact hreach2.next ⟨hin3, rfl⟩
  rw [exec_ok _ _ hcall3]
  change (t2.good && [97] == Op.out (.read many 0 1) (t2.text many)) = false
  rw [hout]
  exact Bool.and_false _

/-- With more than the file has addresses for, one text is another's. -/
theorem strings_fail : ¬ ∀ a, Trans.Reachable Init Step a → a.Strings := by
  intro h
  obtain ⟨hreach, hbad⟩ := reachable_wrapped
  rw [(h wrapped hreach).good] at hbad
  cases hbad

/-- Two runes, of which a block's worth of others splits the block; then three are deleted, and some are read. -/
def edits : List Op := [.insert 0 0 [97, 98], .insert 0 1 full, .delete 0 0 3, .read 0 (Maxblock - 3) 2]

theorem edits_ranged : Ranged edits start.text := by
  have hmax : (2 : Nat) + Maxblock = 16386 := by decide
  have hlen : (insertAt 1 full [97, 98]).length = 16386 := by
    rw [length_insertAt, length_full, ← hmax]
    rfl
  have hcut : (deleteFrom 0 3 (insertAt 1 full [97, 98])).length = 16383 := by
    rw [length_deleteFrom (by decide) (by omega), hlen]
  refine ⟨⟨le_rfl, by decide⟩, ⟨by decide, ?_⟩, ⟨by decide, ?_⟩, ?_, trivial⟩
  · rw [length_full]
    decide
  · exact Nat.le_trans (by decide) (Nat.le_of_eq hlen.symm)
  · exact Nat.le_trans (by decide) (Nat.le_of_eq hcut.symm)

theorem edits_room : start.disk.addr + (edits.map Op.blocks).sum * Maxblock ≤ ADDRS := by
  rw [edits]
  simp only [List.map_cons, List.map_nil, List.sum_cons, List.sum_nil, Op.blocks, length_full]
  decide

theorem strings_edited : (edits.foldl exec start).Strings :=
  strings _ (start_kept.short_run (P := Trans.Reachable Init FitStep) edits_ranged edits_room (.start rfl)
    fun _ _ _ h hfit => h.next hfit)

end State

end Plan9.Acme
