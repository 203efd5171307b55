/-
Runs of a metadata block from `mbInit`: entries inserted, deleted and resized
as the callers do it.

The list of entries beside the block says what each should hold. It changes
only when the operation fits; the block may be compacted either way.
-/
import Plan9.Fossil.MetaFacts

namespace Plan9.Fossil

open Memory

/-- What an operation does to the list of entries, if it fits. -/
def MetaOp.apply : MetaOp → List Packed → List Packed
  | .insert i e, es => es.insertIdx i e
  | .delete i, es => es.eraseIdx i
  | .resize i e, es => es.set i e

/-- The callers look for the place first, and at `nindex`. -/
def MetaOp.Legal (maxindex : Nat) : MetaOp → List Packed → Prop
  | .insert i _, es => i ≤ es.length ∧ es.length < maxindex
  | .delete i, es => i < es.length
  | .resize i _, es => i < es.length

namespace MetaBlock

/-- **One operation** keeps the block in order. -/
theorem Inv.step {mb : MetaBlock} {es : List Packed} (h : mb.Inv es) {op : MetaOp} (hl : op.Legal mb.maxindex es) :
    ∃ mb' ok, mb.step op = some (mb', ok) ∧ mb'.Inv (if ok then op.apply es else es) ∧
      mb'.maxindex = mb.maxindex := by
  cases op with
  | insert i e =>
    obtain ⟨hinv, hmi, hroom, -⟩ := h.mbAlloc e.bytes.length
    unfold MetaBlock.step
    dsimp only
    cases halloc : mb.mbAlloc e.bytes.length with
    | mk mb1 r =>
      rw [halloc] at hinv hmi hroom
      cases r with
      | none => exact ⟨mb1, false, rfl, hinv, hmi⟩
      | some p =>
        have hfull : es.length < mb1.maxindex := by
          rw [show mb1.maxindex = mb.maxindex from hmi]
          exact hl.2
        obtain ⟨mb', hins, hinv', -, hmi'⟩ := hinv.mbInsert (hroom p rfl) hl.1 hfull
        dsimp only
        rw [hins]
        exact ⟨mb', true, rfl, hinv', hmi'.trans hmi⟩
  | delete i =>
    obtain ⟨mb', hdel, hinv, -, -, hmi⟩ := h.mbDelete hl
    unfold MetaBlock.step
    dsimp only
    rw [hdel]
    exact ⟨mb', true, rfl, hinv, hmi⟩
  | resize i e =>
    have hi : i < es.length := hl
    obtain ⟨me, hget, hunpack⟩ := h.meUnpack hi
    obtain ⟨hinv, hmi, hroom⟩ := h.mbResize hget e.bytes.length
    unfold MetaBlock.step
    dsimp only
    rw [hunpack]
    dsimp only
    cases hres : mb.mbResize me e.bytes.length with
    | mk mb1 r =>
      rw [hres] at hinv hmi hroom
      cases r with
      | none => exact ⟨mb1, false, rfl, hinv, hmi⟩
      | some me' =>
        obtain ⟨hsize, hr⟩ := hroom me' rfl
        obtain ⟨mb2, hdel, hinv2, hindex, hmax, hmi2⟩ := hinv.mbDelete hi
        have hroom2 : Room mb2 me'.p e.bytes.length := by
          have homin : mb2.omin = mb1.omin := by
            unfold omin
            rw [hmi2]
          refine ⟨by rw [homin]; exact hr.low, by rw [hmax]; exact hr.high, fun b hb => ?_⟩
          rw [hindex] at hb
          exact hr.clear b hb
        have hcount := hinv.count
        have hlen := hinv.held.length_eq
        obtain ⟨mb', hins, hinv', -, hmi'⟩ := hinv2.mbInsert (i := i) hroom2
          (by rw [List.length_eraseIdx_of_lt hi]; omega) (by rw [List.length_eraseIdx_of_lt hi]; omega)
        dsimp only
        rw [hdel]
        dsimp only
        rw [show me' = ⟨me'.p, u16 e.bytes.length⟩ by rw [← hsize], hins]
        rw [insertIdx_eraseIdx_self hi] at hinv'
        exact ⟨mb', true, rfl, hinv', (hmi'.trans hmi2).trans hmi⟩

theorem inv_mbInit {n ne : Nat} (hfit : metaHeaderSize + ne * metaIndexSize ≤ n) (hmax : n ≤ 2 ^ 16) :
    (mbInit n ne).Inv [] := by
  refine ⟨.nil, fun me hme => ?_, .nil, ?_, ?_, ?_, ?_, Nat.zero_le _⟩
  · cases hme
  · change (0 : Int) = (metaHeaderSize + ne * metaIndexSize : Nat) - (metaHeaderSize + ne * metaIndexSize : Nat) - 0
    omega
  · exact Int.le_refl _
  · change ((metaHeaderSize + ne * metaIndexSize : Nat) : Int) ≤ n
    omega
  · change (n : Int) ≤ 2 ^ 16
    omega

def exec : List MetaOp → MetaBlock → List Packed → Option (MetaBlock × List Packed)
  | [], mb, es => some (mb, es)
  | op :: ops, mb, es =>
    match mb.step op with
    | none => none
    | some (mb, ok) => exec ops mb (if ok then op.apply es else es)

/-- Each operation is one a caller may make. -/
def LegalRun : List MetaOp → MetaBlock → List Packed → Prop
  | [], _, _ => True
  | op :: ops, mb, es => op.Legal mb.maxindex es ∧
      ∀ mb' ok, mb.step op = some (mb', ok) → LegalRun ops mb' (if ok then op.apply es else es)

theorem Inv.exec {mb : MetaBlock} {es : List Packed} (h : mb.Inv es) {ops : List MetaOp} (hl : LegalRun ops mb es) :
    ∃ mb' es', exec ops mb es = some (mb', es') ∧ mb'.Inv es' := by
  induction ops generalizing mb es with
  | nil => exact ⟨mb, es, rfl, h⟩
  | cons op ops ih =>
    obtain ⟨mb', ok, hstep, hinv, -⟩ := h.step hl.1
    unfold MetaBlock.exec
    rw [hstep]
    exact ih hinv (hl.2 mb' ok hstep)

/-- What a metadata block is for. -/
structure InOrder (mb : MetaBlock) (es : List Packed) : Prop where
  nindex : mb.index.length = es.length
  bytes : ∀ (i : Nat) (me : MetaEntry) (e : Packed), mb.index[i]? = some me → es[i]? = some e → load mb.buf me.p me.size = e.bytes
  inside : ∀ me ∈ mb.index, mb.omin ≤ me.p ∧ (me.p : Int) + me.size ≤ mb.size
  apart : mb.index.Pairwise MetaEntry.Apart
  free : mb.free = mb.size - mb.omin - sizes mb.index
  metaChunks : mb.metaChunks.isSome = true
  mbAlloc : ∀ n : Nat, (mb.mbAlloc n).2 = none → mb.maxsize - mb.size + mb.free < n

theorem Inv.inOrder {mb : MetaBlock} {es : List Packed} (h : mb.Inv es) : InOrder mb es := by
  refine ⟨h.held.length_eq, fun i me e hme he => ?_, h.inside, h.apart, h.free, ?_, fun n => (h.mbAlloc n).2.2.2⟩
  · obtain ⟨e', he', hheld⟩ := forall₂_getElem? h.held hme
    rw [he] at he'
    cases he'
    exact hheld.bytes
  · obtain ⟨mcs, hmcs, -⟩ := h.metaChunks
    rw [hmcs]
    rfl

/-- **Metadata blocks stay in order**, whatever is inserted, deleted and resized. -/
theorem meta_block_in_order {n ne : Nat} (hfit : metaHeaderSize + ne * metaIndexSize ≤ n) (hmax : n ≤ 2 ^ 16)
    {ops : List MetaOp} (hl : LegalRun ops (mbInit n ne) []) :
    ∃ mb es, MetaBlock.exec ops (mbInit n ne) [] = some (mb, es) ∧ InOrder mb es := by
  obtain ⟨mb, es, hexec, hinv⟩ := (inv_mbInit hfit hmax).exec hl
  exact ⟨mb, es, hexec, hinv.inOrder⟩

/-- An entry of `n + 4` bytes. -/
def packedZeros (n : Nat) (hge : 4 ≤ n) (hlt : n < 65000) : Packed where
  bytes := dirMagic ++ List.replicate n 0
  magic := List.prefix_append _ _
  size_ge := by simp [dirMagic]; omega
  size_lt := by simp [dirMagic]; omega

theorem meta_block_in_order_two : ∃ mb es, MetaBlock.exec
    [.insert 0 (packedZeros 60 (by decide) (by decide)), .insert 0 (packedZeros 100 (by decide) (by decide))]
    (mbInit 8192 81) [] = some (mb, es) ∧ InOrder mb es := by
  have hfit : metaHeaderSize + 81 * metaIndexSize ≤ 8192 := by decide
  refine meta_block_in_order hfit (by decide)
    ⟨⟨by decide, by decide⟩, fun mb ok hstep => ⟨⟨Nat.zero_le _, ?_⟩, fun _ _ _ => trivial⟩⟩
  obtain ⟨mb', ok', hstep', -, hmi⟩ := @Inv.step _ _ (inv_mbInit hfit (by decide))
    (.insert 0 (packedZeros 60 (by decide) (by decide))) ⟨by decide, by decide⟩
  rw [hstep] at hstep'
  cases hstep'
  rw [hmi]
  cases ok with
  | false => decide
  | true => decide

end MetaBlock

end Plan9.Fossil
