/-
The room in acme's temporary file: while the file does not wrap every rune of it that has
been given to a block is in one place, a block of one buffer within its text or a free list,
as long as only a buffer without blocks is reset or closed (`accounted`).

That no two places share runes is known from the layout (`Laid`). That none is lost
is about the blocks alone, and holds whatever is in them (`call_keeps`).
-/
import Plan9.Acme.BuffRuns

namespace Plan9.Acme

open List Function

variable {d d' : Disk} {b b' : Buffer} {s t : List Rune}

/-! ## Where the text is -/

/-- How many runes of the text are in each of the blocks: those it has, or the cache if that has been changed. -/
def Buffer.lens (b : Buffer) : List Nat := if b.cdirty then b.cached else b.bl.map Block.n

theorem Holds.lens (h : Holds d b t) (hleft : ¬ Leftover b) : b.lens = b.cached := by
  rw [Buffer.lens]
  cases hdirty : b.cdirty with
  | true => rfl
  | false =>
    rw [if_neg Bool.false_ne_true, Buffer.cached]
    rcases h with he | ⟨pre, k, post, stale, hr⟩
    · rw [he.bl]
      rfl
    have hnz : b.nc ≠ 0 := fun hzero => hleft ⟨hzero, hdirty, hr.bl_ne_nil⟩
    obtain ⟨hkn, -, -⟩ := (hr.clean hdirty).resolve_left hnz
    have hlen : (pre.map Block.n).length = b.cbi := by rw [length_map, hr.cbi]
    rw [hr.bl, map_append, map_cons, set_append_right _ _ (Nat.le_of_eq hlen), hlen, Nat.sub_self, set_cons_zero, hkn]

theorem deleteLoop_dirty : ∀ (fuel : Nat) (d : Disk) (b : Buffer) (q0 q1 : Nat),
    May (fun x => x.2 = b ∨ x.2.cdirty = true) (deleteLoop fuel d b q0 q1) := by
  intro fuel
  induction fuel with
  | zero =>
    intro d b q0 q1
    rw [deleteLoop]
    split
    · trivial
    · exact Outcome.ok (.inl rfl)
  | succ fuel ih =>
    intro d b q0 q1
    rw [deleteLoop]
    split
    · have hstep : May (fun x => x.2.1.cdirty = true) (deleteStep d b q0 q1) :=
        Outcome.bind Outcome.any fun _ _ => Outcome.ok rfl
      refine Outcome.bind hstep ?_
      rintro ⟨d', b', n⟩ hdirty
      exact (ih d' b' q0 _).mono (fun _ => id) fun x hx => .inr (hx.elim (fun he => he ▸ hdirty) id)
    · exact Outcome.ok (.inl rfl)

/-- Only a `bufreset` of a buffer that has blocks leaves one. -/
def Op.Whole (b : Buffer) : Op → Prop
  | .reset _ => b.bl = []
  | _ => True

theorem call_whole {op : Op} (hw : Holds d b t) (hin : op.Inside t) (hw' : Holds d' b' (op.text t))
    (hcall : op.call d b = .ok (d', b', s)) (hleft : ¬ Leftover b) (hwhole : op.Whole b) : ¬ Leftover b' := by
  have hnc := hw'.nc
  cases op with
  | insert i q0 r =>
    cases r with
    | nil =>
      change (bufinsert d b q0 [] >>= _) = _ at hcall
      rw [bufinsert, if_neg (by rw [hw.nc]; exact Nat.not_lt.2 hin)] at hcall
      cases hcall
      exact hleft
    | cons r rs =>
      rintro ⟨hzero, -, -⟩
      rw [hzero, Op.text, length_insertAt, length_cons] at hnc
      omega
  | delete i q0 q1 =>
    have hdirty : May (fun x => x.2.1 = b ∨ x.2.1.cdirty = true) (Op.call d b (.delete i q0 q1)) := by
      change May _ (bufdelete d b q0 q1 >>= _)
      rw [bufdelete]
      split
      · trivial
      refine Outcome.bind (deleteLoop_dirty _ d b q0 q1) ?_
      rintro ⟨_, _⟩ h
      exact Outcome.ok h
    rcases hdirty.of_ok hcall with hb | hb
    · rw [show b' = b from hb]
      exact hleft
    · rintro ⟨-, hclean, -⟩
      rw [show b'.cdirty = true from hb] at hclean
      cases hclean
  | read i q0 n =>
    cases n with
    | zero =>
      change bufread d b q0 0 = _ at hcall
      rw [bufread, if_neg (by rw [hw.nc]; exact not_not.2 ⟨hin, hin⟩)] at hcall
      cases hcall
      exact hleft
    | succ n =>
      rintro ⟨hzero, -, -⟩
      have hle : q0 + (n + 1) ≤ t.length := hin
      rw [hzero, Op.text] at hnc
      omega
  | reset i =>
    change (bufreset d b >>= _) = _ at hcall
    rw [bufreset, show b.bl = [] from hwhole] at hcall
    cases hcall
    exact fun h => h.2.2 rfl

/-! ## Open buffers -/

inductive SpaceOp
  | call (op : Op)
  | close (i : Nat)

/-- The buffers, and which of them are open. -/
structure Space where
  st : State
  opened : Nat → Bool

/-- What a block is referenced by: the array of a buffer, or the free list for a size. -/
inductive Place
  | block (i j : Nat)
  | free (c j : Nat)
  deriving DecidableEq

namespace Space

def exec (a : Space) : SpaceOp → Space
  | .call op => { a with st := a.st.exec op }
  | .close i =>
    { st := match bufclose a.st.disk (a.st.buf i) with
        | .ok (d, b) => { a.st with disk := d, buf := Function.update a.st.buf i b, text := Function.update a.st.text i [] }
        | .error _ => { a.st with good := false }
      opened := Function.update a.opened i false }

def start : Space := ⟨State.start, fun _ => true⟩

def Init (a : Space) : Prop := a = start

/-- It is an open buffer that is used. -/
def Ready (a : Space) : SpaceOp → Prop
  | .call op => a.opened op.buf = true ∧ op.InRange (a.st.text op.buf)
  | .close i => a.opened i = true

def Step (a : Space) (op : SpaceOp) (a' : Space) : Prop := a.Ready op ∧ a' = a.exec op

/-- A buffer is reset or closed when it has no blocks. -/
def Tidy (a : Space) : SpaceOp → Prop
  | .call op => op.Whole (a.st.buf op.buf)
  | .close i => (a.st.buf i).bl = []

/-- A step after which the file is no longer than there are addresses. -/
def TidyStep (a : Space) (op : SpaceOp) (a' : Space) : Prop := Step a op a' ∧ a.Tidy op ∧ a'.st.disk.addr ≤ ADDRS

/-- The address of the block there and its room. -/
def range (a : Space) : Place → Option (Nat × Nat)
  | .block i j => if a.opened i then (a.st.buf i).bl[j]?.map fun k => (k.addr, roundup k.n) else none
  | .free c j => (a.st.disk.free c)[j]?.map fun addr => (addr, c * Blockincr)

/-- Blocks share no runes; every rune of the file that was ever given to a block is in one of them, and only one; and
the blocks of a buffer are within its text. -/
structure Accounted (a : Space) : Prop where
  apart : ∀ p q r s, a.range p = some r → a.range q = some s → p ≠ q → r.1 + r.2 ≤ s.1 ∨ s.1 + s.2 ≤ r.1
  one : ∀ x < a.st.disk.addr, ∃! p, ∃ r, a.range p = some r ∧ r.1 ≤ x ∧ x < r.1 + r.2
  within : ∀ i j, a.opened i = true → j < (a.st.buf i).bl.length → ((a.st.buf i).lens.take (j + 1)).sum ≤ (a.st.buf i).nc

/-! ## What is kept -/

structure Kept (a : Space) : Prop where
  st : a.st.Kept
  covered : ∀ x < a.st.disk.addr, (∃ i, ∃ k ∈ (a.st.buf i).bl, k.Has x) ∨ Freed a.st.disk x
  snug : ∀ i, Snug (a.st.buf i)
  whole : ∀ i, ¬ Leftover (a.st.buf i)
  closed : ∀ i, a.opened i = false → (a.st.buf i).bl = []

variable {a a' : Space}

theorem Kept.update {i : Nat} {d : Disk} {b : Buffer} {st : State} {opened : Nat → Bool} (h : a.Kept) (hst : st.Kept)
    (hdisk : st.disk = d) (hbuf : st.buf = update a.st.buf i b) (hle : d.addr ≤ ADDRS)
    {n : Nat} (hkeeps : Keeps (fun x => ∃ j, j ≠ i ∧ ∃ k ∈ (a.st.buf j).bl, k.Has x) n a.st.disk (a.st.buf i).bl d b.bl)
    (hsnug : Snug b) (hwhole : ¬ Leftover b) (hclosed : ∀ j, opened j = false → a.opened j = false ∧ j ≠ i ∨ j = i ∧ b.bl = []) :
    Kept ⟨st, opened⟩ := by
  refine ⟨hst, ?_, ?_, ?_, ?_⟩
  · intro x hx
    rw [hdisk] at hx ⊢
    rw [hbuf]
    have hcov : Covered (fun x => ∃ j, j ≠ i ∧ ∃ k ∈ (a.st.buf j).bl, k.Has x) a.st.disk (a.st.buf i).bl := by
      intro y hy
      rcases h.covered y hy with ⟨j, k, hk, hhas⟩ | hfree
      · by_cases hj : j = i
        · exact .inl ⟨k, hj ▸ hk, hhas⟩
        · exact .inr (.inr ⟨j, hj, k, hk, hhas⟩)
      · exact .inr (.inl hfree)
    rcases hkeeps.covered hle hcov x hx with ⟨k, hk, hhas⟩ | hfree | ⟨j, hj, k, hk, hhas⟩
    · refine .inl ⟨i, k, ?_, hhas⟩
      rw [update_self]
      exact hk
    · exact .inr hfree
    · refine .inl ⟨j, k, ?_, hhas⟩
      rw [update_of_ne hj]
      exact hk
  · intro j
    rw [hbuf]
    by_cases hj : j = i
    · rw [hj, update_self]
      exact hsnug
    · rw [update_of_ne hj]
      exact h.snug j
  · intro j
    rw [hbuf]
    by_cases hj : j = i
    · rw [hj, update_self]
      exact hwhole
    · rw [update_of_ne hj]
      exact h.whole j
  intro j hj
  rw [hbuf]
  rcases hclosed j hj with ⟨hcl, hne⟩ | ⟨rfl, hbl⟩
  · rw [update_of_ne hne]
    exact h.closed j hcl
  · rw [update_self]
    exact hbl

theorem Kept.call {op : Op} (h : a.Kept) (hready : a.Ready (.call op)) (hwhole : op.Whole (a.st.buf op.buf))
    (hle : (a.st.exec op).disk.addr ≤ ADDRS) : Kept ⟨a.st.exec op, a.opened⟩ := by
  have hstep : State.FitStep a.st op (a.st.exec op) := ⟨⟨hready.2, rfl⟩, hle⟩
  have hst := h.st.step hstep
  have hfits : op.Fits (a.st.buf op.buf) := by
    cases op with
    | insert i q0 s => exact fun hleft => h.whole i hleft.1
    | _ => trivial
  obtain ⟨⟨d, b, s⟩, hcall, hworks, -, hsnug⟩ := (State.call_spec op (h.st.works op.buf) hready.2.inside).exists_ok fun _ => id
  have hkeeps := (@call_keeps a.st.disk (a.st.buf op.buf) (fun x => ∃ j, j ≠ op.buf ∧ ∃ k ∈ (a.st.buf j).bl, k.Has x)
    op).of_ok hcall
  have hexec : (a.st.exec op).disk = d ∧ (a.st.exec op).buf = Function.update a.st.buf op.buf b := by
    rw [State.exec, hcall]
    exact ⟨rfl, rfl⟩
  refine h.update hst hexec.1 hexec.2 (hexec.1 ▸ hle) hkeeps (hsnug (h.snug op.buf) hfits)
    (call_whole (h.st.holds op.buf) hready.2.inside hworks.holds hcall (h.whole op.buf) hwhole) ?_
  intro j hj
  refine .inl ⟨hj, ?_⟩
  rintro rfl
  rw [hready.1] at hj
  cases hj

theorem bufclose_nil {d : Disk} {b : Buffer} (h : b.bl = []) : bufclose d b = .ok (d, State.empty) := by
  rw [bufclose, bufreset, h]
  rfl

theorem Kept.close {i : Nat} (h : a.Kept) (hbl : (a.st.buf i).bl = []) : (a.exec (.close i)).Kept := by
  have hexec : a.exec (.close i) = ⟨⟨a.st.disk, Function.update a.st.buf i State.empty, Function.update a.st.text i [], a.st.good⟩,
      Function.update a.opened i false⟩ := by
    rw [exec, bufclose_nil hbl]
  have hsince := (h.st.works i).since
  rw [hbl] at hsince
  have hworks : Works a.st.disk (a.st.others i) a.st.disk State.empty [] := ⟨hsince, .inl ⟨rfl, rfl, rfl, rfl, rfl, rfl, rfl⟩⟩
  have hst := h.st.update h.st.addr hworks
  rw [hexec]
  refine h.update hst rfl rfl h.st.addr (n := 0) ?_ (snug_nil rfl) (fun h => h.2.2 rfl) ?_
  · rw [hbl]
    exact Keeps.refl _ _ _ _
  intro j hj
  by_cases hji : j = i
  · exact .inr ⟨hji, rfl⟩
  · rw [Function.update_of_ne hji] at hj
    exact .inl ⟨hj, hji⟩

theorem Kept.step {op : SpaceOp} (h : a.Kept) (hstep : TidyStep a op a') : a'.Kept := by
  obtain ⟨⟨hready, rfl⟩, htidy, hle⟩ := hstep
  cases op with
  | call op => exact h.call hready htidy hle
  | close i => exact h.close htidy

theorem start_kept : start.Kept :=
  ⟨State.start_kept, fun _ hx => absurd hx (Nat.not_lt_zero _), fun _ => snug_nil rfl,
    fun _ h => h.2.2 rfl, fun _ _ => rfl⟩

/-! ## Every rune of the file once -/

theorem block_range {i j : Nat} {r : Nat × Nat} (h : a.range (.block i j) = some r) :
    ∃ k, (a.st.buf i).bl[j]? = some k ∧ a.opened i = true ∧ r = (k.addr, roundup k.n) := by
  rw [range] at h
  by_cases ho : a.opened i = true
  · rw [if_pos ho, Option.map_eq_some_iff] at h
    obtain ⟨k, hk, rfl⟩ := h
    exact ⟨k, hk, ho, rfl⟩
  · rw [if_neg ho] at h
    cases h

theorem free_range {c j : Nat} {r : Nat × Nat} (h : a.range (.free c j) = some r) :
    ∃ addr, (a.st.disk.free c)[j]? = some addr ∧ r = (addr, c * Blockincr) := by
  rw [range, Option.map_eq_some_iff] at h
  obtain ⟨addr, haddr, rfl⟩ := h
  exact ⟨addr, haddr, rfl⟩

section

variable {size : Nat → Nat} (hlaid : ∀ i, Laid a.st.disk size (a.st.buf i).bl (a.st.others i))

include hlaid

theorem range_size (h : a.Kept) {p : Place} {r : Nat × Nat} (hp : a.range p = some r) : size r.1 = r.2 ∧ r.2 ≠ 0 := by
  cases p with
  | block i j =>
    obtain ⟨k, hk, -, rfl⟩ := block_range hp
    have hmem := mem_of_getElem? hk
    exact ⟨(hlaid i).mine k hmem, roundup_pos (h.st.sound i k hmem)⟩
  | free c j =>
    obtain ⟨addr, haddr, rfl⟩ := free_range hp
    obtain ⟨hsize, hc⟩ := (hlaid 0).free c addr (mem_of_getElem? haddr)
    exact ⟨hsize, Nat.mul_ne_zero (Nat.pos_iff_ne_zero.1 hc) (by decide)⟩

theorem block_not_free {i j c : Nat} {k : Block} (hk : (a.st.buf i).bl[j]? = some k) : k.addr ∉ a.st.disk.free c :=
  (hlaid i).freeMine k (mem_of_getElem? hk) c

theorem range_inj {p q : Place} {r s : Nat × Nat} (hp : a.range p = some r) (hq : a.range q = some s) (haddr : r.1 = s.1) :
    p = q := by
  cases p with
  | block i j =>
    obtain ⟨k, hk, -, rfl⟩ := block_range hp
    cases q with
    | block i' j' =>
      obtain ⟨k', hk', -, rfl⟩ := block_range hq
      change k.addr = k'.addr at haddr
      by_cases hi : i = i'
      · subst hi
        have hmap : ∀ {j : Nat} {k : Block}, (a.st.buf i).bl[j]? = some k →
            ((a.st.buf i).bl.map Block.addr)[j]? = some k.addr := by
          intro j k hk
          rw [List.getElem?_map, hk]
          rfl
        obtain ⟨hj, -⟩ := List.getElem?_eq_some_iff.1 (hmap hk)
        have hsame := (hmap hk).trans ((congrArg some haddr).trans (hmap hk').symm)
        rw [(List.getElem?_inj hj (hlaid i).nodup).1 hsame]
      · have := ((hlaid i).others k' ⟨i', Ne.symm hi, List.mem_of_getElem? hk'⟩).2.2.1
        exact absurd (haddr ▸ List.mem_map_of_mem (List.mem_of_getElem? hk)) this
    | free c j' =>
      obtain ⟨addr, hfree, rfl⟩ := free_range hq
      change k.addr = addr at haddr
      exact absurd (haddr ▸ List.mem_of_getElem? hfree) (block_not_free hlaid hk)
  | free c j =>
    obtain ⟨addr, hfree, rfl⟩ := free_range hp
    cases q with
    | block i' j' =>
      obtain ⟨k', hk', -, rfl⟩ := block_range hq
      change addr = k'.addr at haddr
      exact absurd (haddr ▸ List.mem_of_getElem? hfree) (block_not_free hlaid hk')
    | free c' j' =>
      obtain ⟨addr', hfree', rfl⟩ := free_range hq
      obtain rfl : addr = addr' := haddr
      -- the size says which list
      have hc := ((hlaid 0).free c addr (List.mem_of_getElem? hfree)).1
      have hc' := ((hlaid 0).free c' addr (List.mem_of_getElem? hfree')).1
      obtain rfl : c = c' := Nat.eq_of_mul_eq_mul_right (by decide : 0 < Blockincr) (hc.symm.trans hc')
      obtain ⟨hj, -⟩ := List.getElem?_eq_some_iff.1 hfree
      rw [(List.getElem?_inj hj ((hlaid 0).freeNodup c)).1 (hfree.trans hfree'.symm)]

end

theorem Kept.accountedFor (h : a.Kept) : a.Accounted := by
  obtain ⟨_, hlaid⟩ := h.st.laid
  have hapart : ∀ p q r s, a.range p = some r → a.range q = some s → p ≠ q → r.1 + r.2 ≤ s.1 ∨ s.1 + s.2 ≤ r.1 := by
    intro p q r s hp hq hne
    obtain ⟨hr, hrpos⟩ := range_size hlaid h hp
    obtain ⟨hs, hspos⟩ := range_size hlaid h hq
    have := (hlaid 0).disjoint (hr ▸ hrpos) (hs ▸ hspos) fun haddr => hne (range_inj hlaid hp hq haddr)
    rw [hr, hs] at this
    exact this
  refine ⟨hapart, ?_, ?_⟩
  · intro x hx
    have hplace : ∃ p r, a.range p = some r ∧ r.1 ≤ x ∧ x < r.1 + r.2 := by
      rcases h.covered x hx with ⟨i, k, hk, hhas⟩ | ⟨c, addr, haddr, hin⟩
      · obtain ⟨j, hj⟩ := mem_iff_getElem?.1 hk
        have ho : a.opened i = true := by
          by_contra hcl
          rw [h.closed i (eq_false_of_ne_true hcl)] at hk
          cases hk
        refine ⟨.block i j, (k.addr, roundup k.n), ?_, hhas⟩
        rw [range, if_pos ho, hj]
        rfl
      obtain ⟨j, hj⟩ := mem_iff_getElem?.1 haddr
      refine ⟨.free c j, (addr, c * Blockincr), ?_, hin⟩
      rw [range, hj]
      rfl
    obtain ⟨p, r, hp, hlo, hhi⟩ := hplace
    refine ⟨p, ⟨r, hp, hlo, hhi⟩, ?_⟩
    rintro q ⟨s, hq, hlo', hhi'⟩
    by_contra hne
    have := hapart q p s r hq hp hne
    omega
  intro i j _ _
  rw [(h.st.holds i).lens (h.whole i)]
  refine Nat.le_trans ?_ (h.snug i)
  conv_rhs => rw [← take_append_drop (j + 1) (a.st.buf i).cached, sum_append]
  exact Nat.le_add_right _ _

/-- **The room in the file is accounted for** in every run of tidy steps. -/
theorem accounted (a : Space) (h : Trans.Reachable Init TidyStep a) : a.Accounted := by
  have hkept : a.Kept := by
    refine h.invariant Kept ?_ ?_
    · rintro a rfl
      exact start_kept
    · exact fun _ _ _ h hstep => h.step hstep
  exact hkept.accountedFor

theorem accounted_addr (h : Trans.Reachable Init TidyStep a) : a.st.disk.addr ≤ ADDRS := by
  cases h with
  | start h =>
    rw [show a = start from h]
    decide
  | next _ hstep => exact hstep.2.2

/-- A buffer that is empty can always be closed. -/
theorem reachable_close {st : State} {opened : Nat → Bool} {i : Nat} (h : Trans.Reachable Init TidyStep ⟨st, opened⟩)
    (ho : opened i = true) (hbuf : st.buf i = State.empty) :
    Trans.Reachable Init TidyStep (exec ⟨st, opened⟩ (.close i)) := by
  have hbl : (st.buf i).bl = [] := by
    rw [hbuf]
    rfl
  refine h.next (a := .close i) ⟨⟨ho, rfl⟩, hbl, ?_⟩
  rw [exec, bufclose_nil hbl]
  exact show st.disk.addr ≤ ADDRS from accounted_addr h

theorem step_filled : Step start (.call (.insert 0 0 [State.rune 0])) ⟨State.filled 1, fun _ => true⟩ := by
  refine ⟨⟨rfl, Nat.zero_le _, by decide⟩, ?_⟩
  rw [exec, ← State.exec_filled 0]
  rfl

theorem edits_run : Trans.Reachable Init TidyStep ⟨State.edits.foldl State.exec State.start, fun _ => true⟩ ∧
    (State.edits.foldl State.exec State.start).buf 1 = State.empty := by
  have hedits : ∀ op ∈ State.edits, op.buf = 0 ∧ ∀ b, op.Whole b := by
    intro op hop
    rw [State.edits] at hop
    simp only [mem_cons, not_mem_nil, or_false] at hop
    rcases hop with rfl | rfl | rfl | rfl
    all_goals exact ⟨rfl, fun _ => trivial⟩
  refine State.start_kept.short_run (P := fun st => Trans.Reachable Init TidyStep ⟨st, fun _ => true⟩ ∧ st.buf 1 = State.empty)
    State.edits_ranged State.edits_room ⟨.start rfl, rfl⟩ fun st op hop h hfit => ⟨?_, ?_⟩
  · exact h.1.next (a := .call op) ⟨⟨⟨rfl, hfit.1.1⟩, rfl⟩, (hedits op hop).2 _, hfit.2⟩
  · rw [(State.exec_other st op (by rw [(hedits op hop).1]; decide)).1]
    exact h.2

/-- A block is split, runes are deleted and some are read; then another buffer is closed. -/
theorem accounted_edited : Accounted (exec ⟨State.edits.foldl State.exec State.start, fun _ => true⟩ (.close 1)) :=
  accounted _ (reachable_close edits_run.1 rfl edits_run.2)

/-- Nothing has the block of the buffer when it is closed. -/
theorem accounted_closed : ¬ ∀ a, Trans.Reachable Init Step a → a.Accounted := by
  intro h
  obtain ⟨a, ha⟩ : ∃ a, a = exec ⟨State.filled 1, fun _ => true⟩ (.close 0) := ⟨_, rfl⟩
  have hready : Ready ⟨State.filled 1, fun _ => true⟩ (.close 0) := rfl
  have hreach : Trans.Reachable Init Step a := .next (.next (.start rfl) step_filled) ⟨hready, ha⟩
  have hdisk : a.st.disk = (State.filled 1).disk := by
    rw [ha]
    rfl
  have hbuf : ∀ i, a.opened i = true → (a.st.buf i).bl = [] := by
    intro i hi
    by_cases hzero : i = 0
    · rw [ha, hzero] at hi
      cases hi
    have hne : a.st.buf i = (State.filled 1).buf i := by
      rw [ha]
      exact Function.update_of_ne hzero _ _
    have hempty : (State.filled 1).buf i = State.empty := if_neg (by omega)
    rw [hne, hempty]
    rfl
  obtain ⟨p, ⟨r, hp, -⟩, -⟩ := (h a hreach).one 0 (by rw [hdisk]; decide)
  cases p with
  | block i j =>
    obtain ⟨k, hk, ho, -⟩ := block_range hp
    rw [hbuf i ho] at hk
    cases hk
  | free c j =>
    obtain ⟨_, haddr, -⟩ := free_range hp
    rw [hdisk] at haddr
    cases haddr

end Space

end Plan9.Acme
