/-
`packetfragments`: where the bytes of a packet are, from an offset on, without a copy.

The offset may be the size of the packet, as the check has it, but then the loop that skips
fragments has none left to stop at.
-/
import Plan9.Venti.PacketRuns

namespace Plan9.Venti.Packets

open Chain CInt List

/-- A place in a memory, or in the caller's, and how many bytes are there; nil is `none`. -/
structure IOchunk where
  addr : Option (Option Nat × Nat)
  len : Int
  deriving DecidableEq

/-- The second loop and the third, which fill the `nio` chunks from `io` to `eio`, and `size`. -/
def chunkLoop (h : Heap) : Nat → Option FragId → Int → Int → List IOchunk × Int
  | 0, _, _, size => ([], size)
  | k + 1, none, offset, size =>
    let (io, size) := chunkLoop h k none offset size
    ({ addr := none, len := 0 } :: io, size)
  | k + 1, some f, offset, size =>
    let r := h.frag f
    let len := int32 (r.wp - (r.rp + offset))
    let (io, size) := chunkLoop h k r.next 0 (int32 (size + len))
    ({ addr := some (r.mem, (r.rp + offset).toNat), len := len } :: io, size)

/-- The result and what is stored at `io`; `none` is the result -1. -/
def packetfragments (s : State) (p : Nat) (nio offset : Int) : Except Fault (Option (Int × List IOchunk)) := do
  s.notfree p
  if (s.packet p).size = 0 ∨ nio ≤ 0 then return some (0, [])
  if offset < 0 ∨ offset > (s.packet p).size then return none
  let (f, offset) ← skipLoop s.heap s.rounds (s.packet p).first offset
  let (io, size) := chunkLoop s.heap nio.toNat (some f) offset 0
  return some (size, io)

/-! ## Pieces of a string in parts -/

/-- What is left of the parts after the first `n` bytes. -/
def piecesFrom : List (List UInt8) → Nat → List (List UInt8)
  | [], _ => []
  | b :: l, n => if b.length ≤ n then piecesFrom l (n - b.length) else b.drop n :: l

theorem flatten_piecesFrom : ∀ (l : List (List UInt8)) (n : Nat), (piecesFrom l n).flatten = l.flatten.drop n
  | [], n => by simp [piecesFrom]
  | b :: l, n => by
    rw [piecesFrom, flatten_cons]
    split
    · rename_i hle
      rw [flatten_piecesFrom l, drop_append, drop_of_length_le hle, nil_append]
    · rename_i hlt
      rw [flatten_cons, drop_append_of_le_length (by omega)]

theorem piecesFrom_append : ∀ (l l' : List (List UInt8)) (n : Nat), piecesFrom (l ++ l') (l.flatten.length + n) = piecesFrom l' n
  | [], l', n => by simp
  | b :: l, l', n => by
    have ih := piecesFrom_append l l' n
    rw [flatten_cons, length_append, cons_append, piecesFrom, if_pos (by omega),
      show b.length + l.flatten.length + n - b.length = l.flatten.length + n by omega, ih]

/-! ## The chunks -/

/-- The bytes of a chunk. -/
def Heap.chunk (h : Heap) (c : IOchunk) : List UInt8 :=
  match c.addr with
  | none => []
  | some (none, pos) => Memory.load h.text pos c.len.toNat
  | some (some m, pos) => Memory.load (h.mem m).data pos c.len.toNat

/-- The chunks at `io` are the pieces `ps`, as many as there is room for, then nil. -/
structure Chunks (h : Heap) (ps : List (List UInt8)) (nio : Nat) (size : Int) (io : List IOchunk) : Prop where
  length : io.length = nio
  pieces : (io.take ps.length).map h.chunk = ps.take nio
  len : ∀ c ∈ io, c.len = (h.chunk c).length
  nil : ∀ c ∈ io.drop ps.length, c = { addr := none, len := 0 }
  size : size = (io.map IOchunk.len).sum

section

variable {h : Heap} {l : List FragId}

theorem chunkLoop_nil : ∀ (k : Nat) (offset size : Int),
    chunkLoop h k none offset size = (List.replicate k { addr := none, len := 0 }, size)
  | 0, _, _ => rfl
  | k + 1, offset, size => by rw [chunkLoop, chunkLoop_nil k, replicate_succ]

theorem chunks_nil (k : Nat) : Chunks h [] k 0 (List.replicate k { addr := none, len := 0 }) where
  length := length_replicate
  pieces := by simp
  len c hc := by
    rw [eq_of_mem_replicate hc]
    rfl
  nil c hc := eq_of_mem_replicate hc
  size := by simp

theorem Chunks.cons {ps : List (List UInt8)} {k : Nat} {size : Int} {io : List IOchunk} {c : IOchunk} {b : List UInt8}
    (hio : Chunks h ps k size io) (hb : h.chunk c = b) (hlen : c.len = b.length) :
    Chunks h (b :: ps) (k + 1) (c.len + size) (c :: io) where
  length := by rw [length_cons, hio.length]
  pieces := by rw [length_cons, take_succ_cons, map_cons, take_succ_cons, hio.pieces, hb]
  len d hd := by
    rcases mem_cons.1 hd with rfl | hd
    · rw [hlen, hb]
    · exact hio.len d hd
  nil := hio.nil
  size := by rw [map_cons, sum_cons, hio.size]

theorem chunk_bytes (hinv : HeapInv h l) {f : FragId} {off : Nat} (hle : (off : Int) ≤ h.fragsize f) :
    h.chunk { addr := some ((h.frag f).mem, (h.frag f).rp + off), len := h.fragsize f - off } = (h.bytes f).drop off := by
  have hlen := hinv.length_bytes f
  have hload := @load_bytes h f off (h.fragsize f - off).toNat (by omega)
  rw [take_of_length_le (by rw [length_drop]; omega)] at hload
  rw [← hload]
  unfold Heap.chunk Heap.dataOf
  cases (h.frag f).mem <;> rfl

theorem chunks_zero (ps : List (List UInt8)) : Chunks h ps 0 0 [] where
  length := rfl
  pieces := by simp
  len := nofun
  nil c hc := by simp at hc
  size := rfl

theorem chunkLoop_spec (hinv : HeapInv h l) : ∀ (c : List FragId) (k : Nat) (f : FragId) (off : Nat) (size : Int),
    Linked h.next (h.next f) c → (off : Int) ≤ h.fragsize f → 0 ≤ size → size + (total h (f :: c) - off) < 2 ^ 31 →
    ∃ n, (chunkLoop h k (some f) off size).2 = size + n ∧
      Chunks h ((h.bytes f).drop off :: c.map h.bytes) k n (chunkLoop h k (some f) off size).1 := by
  intro c k
  induction k generalizing c with
  | zero =>
    intro f off size _ _ _ _
    exact ⟨0, (Int.add_zero _).symm, chunks_zero _⟩
  | succ k ih =>
    intro f off size hl hle h0 hsum
    have hlen := hinv.length_bytes f
    have hrest := hinv.total_nonneg c
    rw [total_cons] at hsum
    have hfrag : h.fragsize f = (h.frag f).wp - (h.frag f).rp := rfl
    have hwide : int32 ((h.frag f).wp - ((h.frag f).rp + off)) = h.fragsize f - off := by
      rw [int32_eq (by omega) (by omega)]
      omega
    have hplace : (((h.frag f).rp : Int) + off).toNat = (h.frag f).rp + off := by omega
    have hnew : int32 (size + (h.fragsize f - off)) = size + (h.fragsize f - off) := int32_eq (by omega) (by omega)
    have hnext : (h.frag f).next = h.next f := rfl
    rw [chunkLoop]
    simp only [hwide, hplace, hnew, hnext]
    have hbytes := chunk_bytes hinv hle
    have hlast : h.fragsize f - off = ((h.bytes f).drop off).length := by
      rw [length_drop]
      omega
    cases c with
    | nil =>
      rw [show h.next f = none from hl, chunkLoop_nil]
      refine ⟨h.fragsize f - off + 0, by omega, ?_⟩
      exact (chunks_nil k).cons hbytes hlast
    | cons g c =>
      rw [hl.1]
      have hg := hinv.fragsize_nonneg g
      obtain ⟨n, hn, hio⟩ := ih c g 0 (size + (h.fragsize f - off)) hl.2 hg (by omega) (by
        omega)
      refine ⟨h.fragsize f - off + n, by rw [← Int.add_assoc]; exact hn, ?_⟩
      exact hio.cons hbytes hlast

end

/-! ## `packetfragments` -/

/-- The states of the packets in a run: calls on packets with arguments that are `int`s, also of `packetforeign`. -/
inductive Reached (text : Nat → UInt8) : State → Prop where
  | init : Reached text (State.init text)
  | step {s s' : State} {op : Op} {r : Res} (h : Reached text s) (hlt : ∀ p ∈ op.packets, p < s.npacket) (hfit : op.Fits)
    (hs : step s op = .ok (r, s')) : Reached text s'

section

variable {text : Nat → UInt8} {s : State} {l : List FragId} {chain : Nat → List FragId} {p : Nat}

theorem Reached.inv (h : Reached text s) : ∃ l chain, Inv s l chain (fun _ => 0) := by
  induction h with
  | init => exact ⟨[], _, (init_inv text).1⟩
  | @step s s' op r _ hlt hfit hs ih =>
    obtain ⟨l, chain, hinv⟩ := ih
    by_cases hforeign : ∃ buf n free a, op = .foreign buf n free a
    · obtain ⟨buf, n, free, a, rfl⟩ := hforeign
      rcases hrun : packetforeign s buf n free a with e | ⟨q, s1⟩
      · simp only [Packets.step, bind, Except.bind, hrun] at hs
        cases hs
      · simp only [Packets.step, bind, Except.bind, hrun, pure, Except.pure] at hs
        obtain ⟨f, l', chain', hinv', -⟩ := (packetforeign_spec hinv hfit).of_ok hrun
        cases hs
        exact ⟨l', chain', hinv'⟩
    · obtain ⟨_, l', chain', hran, -⟩ :=
        (step_good hinv hlt hfit fun buf n free a heq => hforeign ⟨buf, n, free, a, heq⟩).of_ok hs
      exact ⟨l', chain', hran.inv⟩

/-- The pieces of the packet from the offset on, and their bytes. -/
structure Gives (s : State) (p : Nat) (nio offset : Nat) (r : Int × List IOchunk) : Prop where
  chunks : Chunks s.heap (piecesFrom ((chainOf s p).map s.heap.bytes) offset) nio r.1 r.2
  bytes : ∀ x, contents s p = some x →
    (piecesFrom ((chainOf s p).map s.heap.bytes) offset).flatten = x.drop offset

theorem packetfragments_inside (hinv : Inv s l chain (fun _ => 0)) (hp : s.Live p) {nio offset : Nat} (hnio : 1 ≤ nio)
    (hoff : (offset : Int) < (s.packet p).size) :
    ∃ r, packetfragments s p nio offset = .ok (some r) ∧ Gives s p nio offset r := by
  have hsize := (hinv.size p hp).trans (Int.add_zero _)
  have hlim := hinv.limit p hp
  have hq := hinv.queue p hp
  obtain ⟨⟨f, off⟩, hskip, c1, c2, hchain, hoff', hoff0, hofflt⟩ := (skipLoop_spec (chain p) s.rounds (s.packet p).first offset
    hq.linked (hinv.length_chain p) (by omega)).exists_ok (by rintro e ⟨-, hle⟩; omega)
  dsimp only at hchain hoff' hoff0 hofflt
  have hlen1 := hinv.heap.length_content c1
  have htotal : total s.heap (chain p) = total s.heap c1 + total s.heap (f :: c2) := by rw [hchain, total_append]
  have hlink := hq.linked
  rw [hchain] at hlink
  obtain ⟨n, hn, hio⟩ := chunkLoop_spec hinv.heap c2 nio f off.toNat 0 hlink.node.2 (by omega) (Int.le_refl 0) (by
    omega)
  have hpieces : piecesFrom ((chain p).map s.heap.bytes) offset =
      (s.heap.bytes f).drop off.toNat :: c2.map s.heap.bytes := by
    have hlenf := hinv.heap.length_bytes f
    have hflat : (c1.map s.heap.bytes).flatten.length + off.toNat = offset := by
      rw [show (c1.map s.heap.bytes).flatten = content s.heap c1 from flatMap_def.symm]
      omega
    rw [hchain, map_append, ← hflat, piecesFrom_append, map_cons, piecesFrom, if_neg (by omega)]
  refine ⟨((chunkLoop s.heap nio (some f) off 0).2, (chunkLoop s.heap nio (some f) off 0).1), ?_, ⟨?_, ?_⟩⟩
  · unfold packetfragments
    rw [notfree_of_live hp]
    rw [if_neg (by omega)]
    rw [if_neg (by omega), hskip, Int.toNat_natCast]
    rfl
  · rw [hinv.chainOf_eq hp, hpieces]
    rw [Int.toNat_of_nonneg hoff0, Int.zero_add] at hn
    rw [Int.toNat_of_nonneg hoff0] at hio
    rw [hn]
    exact hio
  · intro x hx
    rw [hinv.contents_live hp] at hx
    rw [hinv.chainOf_eq hp, flatten_piecesFrom, ← Option.some.inj hx, content, flatMap_def]

/-- No fragment is left after as many bytes as there are. -/
theorem packetfragments_size (hinv : Inv s l chain (fun _ => 0)) (hp : s.Live p) {nio : Nat} (hnio : 1 ≤ nio)
    (hpos : 0 < (s.packet p).size) : packetfragments s p nio (s.packet p).size = .error .nilDeref := by
  have hsize := (hinv.size p hp).trans (Int.add_zero _)
  have hq := hinv.queue p hp
  have hskip : skipLoop s.heap s.rounds (s.packet p).first (s.packet p).size = .error .nilDeref := by
    have hspec := skipLoop_spec (chain p) s.rounds (s.packet p).first (s.packet p).size hq.linked (hinv.length_chain p)
      (Int.le_of_lt hpos)
    cases hrun : skipLoop s.heap s.rounds (s.packet p).first (s.packet p).size with
    | error e => rw [(hspec.of_error hrun).1]
    | ok r =>
      obtain ⟨_, c2, hchain, _, -, _⟩ := hspec.of_ok hrun
      have := hinv.heap.total_nonneg c2
      rw [hchain, total_append, total_cons] at hsize
      omega
  unfold packetfragments
  rw [notfree_of_live hp]
  rw [if_neg (by omega)]
  rw [if_neg (by omega), hskip]
  rfl

/-- `packetfragments` gives the pieces of the packet from every offset it accepts but the last. -/
theorem packetfragments_pieces (h : Reached text s) (hp : s.Live p) (hne : 0 < (s.packet p).size) {nio offset : Nat}
    (hnio : 1 ≤ nio) (hoff : (offset : Int) ≤ (s.packet p).size) :
    (∃ r, packetfragments s p nio offset = .ok (some r) ∧ Gives s p nio offset r) ↔ (offset : Int) < (s.packet p).size := by
  obtain ⟨l, _, hinv⟩ := h.inv
  refine ⟨?_, packetfragments_inside hinv hp hnio⟩
  rintro ⟨r, hr, -⟩
  by_contra hlt
  rw [show (offset : Int) = (s.packet p).size by omega, packetfragments_size hinv hp hnio hne] at hr
  cases hr

/-- The end of three bytes is accepted, and then what is not there is dereferenced. -/
theorem packetfragments_end : ∃ s, Reached (fun _ => 0) s ∧ s.Live 0 ∧ (s.packet 0).size = 3 ∧
    packetfragments s 0 1 3 = .error .nilDeref ∧ ¬ ∃ r, packetfragments s 0 (1 : Nat) (3 : Nat) = .ok (some r) ∧ Gives s 0 1 3 r := by
  have h1 : Reached (fun _ => 0) _ := @Reached.step _ _ _ .alloc _ .init nofun trivial rfl
  have h2 : Reached (fun _ => 0) _ := @Reached.step _ _ _ (.append 0 [1, 2, 3]) _ h1 (by decide) (by decide : 3 < 2 ^ 31) rfl
  refine ⟨_, h2, by decide, by decide, rfl, ?_⟩
  rintro ⟨r, hr, -⟩
  cases hr

/-- The last two of three bytes. -/
theorem packetfragments_pieces_two : ∃ s, contents s 0 = some [1, 2, 3] ∧
    ∃ r, packetfragments s 0 (1 : Nat) (1 : Nat) = .ok (some r) ∧ Gives s 0 1 1 r := by
  have h1 : Reached (fun _ => 0) _ := @Reached.step _ _ _ .alloc _ .init nofun trivial rfl
  have h2 : Reached (fun _ => 0) _ := @Reached.step _ _ _ (.append 0 [1, 2, 3]) _ h1 (by decide) (by decide : 3 < 2 ^ 31) rfl
  exact ⟨_, by decide, (packetfragments_pieces h2 (by decide) (by decide) (by decide) (by decide)).2 (by decide)⟩

end

end Plan9.Venti.Packets
