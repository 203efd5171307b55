/-
The fragments of a datagram, put together again.

The reassembly queue of a datagram has one block for each of its fragments that has
come, in their order, whatever comes twice (`Held`): a piece goes between those before
and those after it, and takes the place of its own duplicate. The queue is complete
when it has all of them. Fragments of other datagrams leave it alone, as long as there
is a free entry for each of them and no queue times out (`Room`, `Mine`).
-/
import Mathlib.Data.List.Perm.Subperm
import Plan9.Ip.FragmentFacts
import Plan9.Ip.ReassembleRuns

namespace Plan9.Ip

open Function List

variable {d : Source} {v w : Packet} {ws fs gs m : List Packet} {lo hi : Nat}

/-! ## The pieces of a datagram -/

/-- Where a fragment begins. -/
def Packet.off (w : Packet) : Nat := w.hdr.frag % 2 ^ 13 * 8

theorem Piece.lo_lt (h : Piece d w lo) : lo < 2 ^ 16 := by
  have hwithin := h.within
  have hshort := d.short
  omega

theorem Piece.off (h : Piece d w lo) : w.off = lo := by
  have hlt := h.lo_lt
  have haligned := h.aligned
  unfold Packet.off
  rw [h.frag]
  split
  · unfold ipmf
    omega
  · omega

theorem Piece.and_ipmf (h : Piece d w lo) : w.hdr.frag &&& ipmf = 0 ↔ lo + w.data.length = d.payload.length := by
  have hlt := h.lo_lt
  have hwithin := h.within
  have hmf : ipmf = 2 ^ 13 := rfl
  rw [h.frag, hmf, Nat.and_two_pow]
  by_cases hmore : lo + w.data.length < d.payload.length
  · have hbit : (lo / 8 + 2 ^ 13).testBit 13 = true := by
      rw [Nat.add_comm, Nat.testBit_two_pow_add_eq, Nat.testBit_lt_two_pow (by omega)]
      rfl
    rw [if_pos hmore, hbit, Bool.toNat_true]
    omega
  · rw [if_neg hmore, Nat.add_zero, Nat.testBit_lt_two_pow (by omega)]
    refine ⟨fun _ => ?_, fun _ => rfl⟩
    omega

theorem Pieces.split (h : Pieces d lo hi ws) (hw : w ∈ ws) :
    ∃ front back mid, ws = front ++ w :: back ∧ Pieces d lo mid front ∧ Piece d w mid ∧
      Pieces d (mid + w.data.length) hi back := by
  induction ws generalizing lo with
  | nil => exact nomatch hw
  | cons v ws ih =>
    rcases mem_cons.1 hw with rfl | hw
    · exact ⟨[], ws, lo, rfl, rfl, h.1, h.2⟩
    · obtain ⟨front, back, mid, rfl, hfront, hpiece, hback⟩ := ih h.2 hw
      exact ⟨v :: front, back, mid, rfl, ⟨h.1, hfront⟩, hpiece, hback⟩

theorem Pieces.mem (h : Pieces d lo hi ws) (hw : w ∈ ws) : ∃ mid, lo ≤ mid ∧ mid + w.data.length ≤ hi ∧ Piece d w mid := by
  obtain ⟨_, _, mid, -, hfront, hpiece, hback⟩ := h.split hw
  exact ⟨mid, hfront.le, hback.le, hpiece⟩

theorem Pieces.nil_of_end (h : Pieces d lo lo ws) (hpayload : d.payload ≠ []) : ws = [] := by
  cases ws with
  | nil => rfl
  | cons w ws =>
    have hpos := h.1.nonempty.resolve_right hpayload
    have hle := h.2.le
    omega

/-! ## A queue of pieces -/

/-- The block has the piece. -/
structure HasPiece (w : Packet) (q : Frag) : Prop where
  hdr : q.hdr = w.hdr.marked
  mem : q.mem.take w.data.length = w.data
  foff : q.foff = w.off
  flen : q.flen = w.data.length

variable {φ : Packet → Frag} {blist back : List Frag}

theorem takeWhile_before {front : List Frag} {n : Nat} (hfront : ∀ q ∈ front, q.foff < n) (hback : ∀ q ∈ back, n ≤ q.foff) :
    (front ++ back).takeWhile (·.foff < n) = front ∧ (front ++ back).dropWhile (·.foff < n) = back := by
  have hall : ∀ q ∈ front, decide (q.foff < n) = true := fun q hq => decide_eq_true (hfront q hq)
  rw [takeWhile_append_of_pos hall, dropWhile_append_of_pos hall]
  cases back with
  | nil => simp
  | cons q back =>
    have hnot : decide (q.foff < n) = false := decide_eq_false (Nat.not_lt.2 (hback q mem_cons_self))
    rw [takeWhile_cons, dropWhile_cons, hnot]
    exact ⟨append_nil _, rfl⟩

theorem cover_none {n : Nat} (hback : ∀ q ∈ back, n ≤ q.foff) : cover n back = back := by
  cases back with
  | nil => rfl
  | cons q back =>
    have hle := hback q mem_cons_self
    unfold cover
    rw [if_pos (by omega)]

theorem enqueue_between {bp : Frag} {front dup : List Frag} (hpos : 0 < bp.flen)
    (hfront : ∀ q ∈ front, q.foff < bp.foff ∧ q.fend ≤ bp.foff) (hdup : ∀ q ∈ dup, q.foff = bp.foff ∧ q.flen = bp.flen)
    (hback : ∀ q ∈ back, bp.fend ≤ q.foff) : enqueue bp (front ++ (dup ++ back)) = some (front ++ bp :: back) := by
  have hafter : ∀ q ∈ dup ++ back, bp.foff ≤ q.foff := by
    intro q hq
    rcases mem_append.1 hq with hq | hq
    · exact Nat.le_of_eq (hdup q hq).1.symm
    · exact Nat.le_trans (Nat.le_add_right _ _) (hback q hq)
  have hcover : cover (bp.foff + bp.flen) (dup ++ back) = back := by
    induction dup with
    | nil => exact cover_none hback
    | cons q dup ih =>
      obtain ⟨_, _⟩ := hdup q mem_cons_self
      rw [cons_append]
      unfold cover
      rw [if_neg (by omega), if_neg (by omega)]
      exact ih (fun q hq => hdup q (mem_cons_of_mem _ hq)) fun q hq => hafter q (mem_cons_of_mem _ hq)
  obtain ⟨htake, hdrop⟩ := takeWhile_before (fun q hq => (hfront q hq).1) hafter
  unfold enqueue
  rw [htake, hdrop, hcover]
  rcases eq_nil_or_concat front with rfl | ⟨front, prev, rfl⟩
  · rfl
  rw [concat_eq_append] at *
  have hprev := (hfront prev (by simp)).2
  unfold Frag.fend at hprev
  dsimp only
  rw [getLast?_concat]
  dsimp only
  rw [if_neg (by omega)]

theorem complete_iff (h : Pieces d lo d.payload.length fs) (hpayload : d.payload ≠ []) (hne : fs ≠ [])
    (hφ : ∀ w ∈ fs, HasPiece w (φ w)) (keep : Packet → Bool) :
    complete lo ((fs.filter keep).map φ) = true ↔ ∀ w ∈ fs, keep w = true := by
  induction fs generalizing lo with
  | nil => exact absurd rfl hne
  | cons w ws ih =>
    obtain ⟨hpiece, hrest⟩ := h
    have hpos := hpiece.nonempty.resolve_right hpayload
    have hhold := hφ w mem_cons_self
    by_cases hkeep : keep w = true
    · rw [filter_cons_of_pos hkeep, map_cons]
      unfold complete
      have hfoff : (φ w).foff = lo := hhold.foff.trans hpiece.off
      rw [if_neg (not_not_intro hfoff)]
      have hfinal : (φ w).final = true ↔ ws = [] := by
        unfold Frag.final
        rw [hhold.hdr, beq_iff_eq]
        refine hpiece.and_ipmf.trans ⟨fun hend => ?_, fun hnil => ?_⟩
        · rw [hend] at hrest
          exact hrest.nil_of_end hpayload
        · subst hnil
          exact hrest
      by_cases hnil : ws = []
      · rw [if_pos (hfinal.2 hnil)]
        subst hnil
        simp [hkeep]
      · rw [if_neg (fun hf => hnil (hfinal.1 hf)), hhold.flen,
          ih hrest hnil fun w hw => hφ w (mem_cons_of_mem _ hw)]
        simp [hkeep]
    rw [filter_cons_of_neg hkeep]
    refine ⟨fun hcomplete => ?_, fun hall => absurd (hall w mem_cons_self) hkeep⟩
    cases hq : (ws.filter keep).map φ with
    | nil =>
      rw [hq] at hcomplete
      cases hcomplete
    | cons q qs =>
      rw [hq] at hcomplete
      have hmem : q ∈ (ws.filter keep).map φ := by
        rw [hq]
        exact mem_cons_self
      obtain ⟨x, hx, rfl⟩ := mem_map.1 hmem
      have hxmem := (mem_filter.1 hx).1
      obtain ⟨mid, _, -, hxpiece⟩ := hrest.mem hxmem
      have hfoff : (φ x).foff = mid := (hφ x (mem_cons_of_mem _ hxmem)).foff.trans hxpiece.off
      unfold complete at hcomplete
      rw [if_pos (by omega)] at hcomplete
      cases hcomplete

theorem Pieces.flatMap (h : Pieces d lo d.payload.length fs) (hφ : ∀ w ∈ fs, HasPiece w (φ w)) :
    (fs.map φ).flatMap (fun q => q.mem.take q.flen) = d.payload.drop lo := by
  induction fs generalizing lo with
  | nil =>
    have hend : lo = d.payload.length := h
    rw [hend, drop_length]
    rfl
  | cons w ws ih =>
    have hhold := hφ w mem_cons_self
    rw [map_cons, flatMap_cons, ih h.2 fun w hw => hφ w (mem_cons_of_mem _ hw), hhold.flen, hhold.mem, h.1.data,
      length_take, length_drop]
    have hlen : min w.data.length (d.payload.length - lo) = w.data.length := by
      have := h.1.within
      omega
    rw [hlen, ← drop_drop, take_append_drop]

theorem Pieces.sum_flen (h : Pieces d lo hi fs) (hφ : ∀ w ∈ fs, HasPiece w (φ w)) :
    lo + ((fs.map φ).map Frag.flen).sum = hi := by
  induction fs generalizing lo with
  | nil => exact h
  | cons w ws ih =>
    rw [map_cons, map_cons, sum_cons, (hφ w mem_cons_self).flen, ← Nat.add_assoc]
    exact ih h.2 fun w hw => hφ w (mem_cons_of_mem _ hw)

theorem Pieces.assemble (h : Pieces d 0 d.payload.length fs) (hne : fs ≠ []) (hφ : ∀ w ∈ fs, HasPiece w (φ w)) :
    ∃ g, Ip.assemble (fs.map φ) = some g ∧ g.payload = d.payload ∧ g.hdr.length = ip4hdr + d.payload.length := by
  have hshort := d.short
  have hbytes := h.flatMap hφ
  have hsum := h.sum_flen hφ
  cases fs with
  | nil => exact absurd rfl hne
  | cons w ws =>
    have hhold := hφ w mem_cons_self
    have hlength : (φ w).hdr.length = ip4hdr + (φ w).flen := by
      rw [hhold.hdr, hhold.flen]
      exact h.1.length
    refine ⟨_, rfl, ?_, ?_⟩
    · unfold Datagram.payload
      rw [flatMap_cons, flatMap_map, hlength, Nat.add_sub_cancel_left]
      exact hbytes
    rw [map_cons, map_cons, sum_cons] at hsum
    change ((φ w).hdr.length + ((ws.map φ).map Frag.flen).sum) % 2 ^ 16 = _
    unfold ip4hdr at hshort hlength ⊢
    omega

theorem Pieces.off_front {front : List Packet} (h : Pieces d lo hi front) (hpayload : d.payload ≠ []) (hv : v ∈ front) :
    v.off < hi ∧ v.off + v.data.length ≤ hi := by
  obtain ⟨_, -, _, hpiece⟩ := h.mem hv
  have hpos := hpiece.nonempty.resolve_right hpayload
  rw [hpiece.off]
  omega

theorem Pieces.off_back {back : List Packet} (h : Pieces d lo hi back) (hv : v ∈ back) : lo ≤ v.off := by
  obtain ⟨_, hle, -, hpiece⟩ := h.mem hv
  rw [hpiece.off]
  exact hle

theorem Pieces.enqueue {q : Frag} (h : Pieces d 0 d.payload.length fs) (hpayload : d.payload ≠ []) (hw : w ∈ fs)
    (hφ : ∀ w ∈ fs, HasPiece w (φ w)) (hq : HasPiece w q) (keep : Packet → Bool) :
    Ip.enqueue q ((fs.filter keep).map φ) =
      some ((fs.filter fun v => keep v || v.hdr == w.hdr).map (update φ w q)) := by
  obtain ⟨front, back, mid, rfl, hfront, hpiece, hback⟩ := h.split hw
  have hpos := hpiece.nonempty.resolve_right hpayload
  have hfoff : q.foff = mid := hq.foff.trans hpiece.off
  have hne : ∀ v ∈ front ++ back, v.hdr ≠ w.hdr := by
    intro v hv heq
    have hoff : v.off = w.off := by
      unfold Packet.off
      rw [heq]
    rw [hpiece.off] at hoff
    rcases mem_append.1 hv with hv | hv
    · have := (hfront.off_front hpayload hv).1
      omega
    · have := hback.off_back hv
      omega
  have hkept : ∀ vs : List Packet, (∀ v ∈ vs, v.hdr ≠ w.hdr) →
      (vs.filter fun v => keep v || v.hdr == w.hdr).map (update φ w q) = (vs.filter keep).map φ := by
    intro vs hvs
    have hfilter : (vs.filter fun v => keep v || v.hdr == w.hdr) = vs.filter keep := by
      refine filter_congr fun v hv => ?_
      rw [beq_false_of_ne (hvs v hv), Bool.or_false]
    rw [hfilter]
    refine map_congr_left fun v hv => update_of_ne (fun heq => ?_) _ _
    exact hvs v (mem_filter.1 hv).1 (heq ▸ rfl)
  have hfrontne : ∀ v ∈ front, v.hdr ≠ w.hdr := fun v hv => hne v (mem_append_left _ hv)
  have hbackne : ∀ v ∈ back, v.hdr ≠ w.hdr := fun v hv => hne v (mem_append_right _ hv)
  have hself : (keep w || w.hdr == w.hdr) = true := by rw [beq_self_eq_true, Bool.or_true]
  rw [filter_append, map_append, filter_append, map_append,
    filter_cons_of_pos (p := fun v => keep v || v.hdr == w.hdr) hself, map_cons, hkept front hfrontne, hkept back hbackne, update_self]
  have hsplit : ((w :: back).filter keep).map φ = (if keep w then [φ w] else []) ++ (back.filter keep).map φ := by
    rw [filter_cons]
    split <;> rfl
  rw [hsplit]
  refine enqueue_between ?_ (fun x hx => ?_) (fun x hx => ?_) fun x hx => ?_
  · rw [hq.flen]
    exact hpos
  · obtain ⟨v, hv, rfl⟩ := mem_map.1 hx
    have hvmem := (mem_filter.1 hv).1
    have hv' := hφ v (mem_append_left _ hvmem)
    unfold Frag.fend
    rw [hfoff, hv'.foff, hv'.flen]
    exact hfront.off_front hpayload hvmem
  · split at hx
    · obtain rfl := mem_singleton.1 hx
      exact ⟨(hφ w hw).foff.trans hq.foff.symm, (hφ w hw).flen.trans hq.flen.symm⟩
    · exact nomatch hx
  obtain ⟨v, hv, rfl⟩ := mem_map.1 hx
  have hvmem := (mem_filter.1 hv).1
  have hv' := hφ v (mem_append_right _ (mem_cons_of_mem _ hvmem))
  unfold Frag.fend
  rw [hfoff, hq.flen, hv'.foff]
  exact hback.off_back hvmem

/-! ## Among other queues -/

def Ip4hdr.key (h : Ip4hdr) : Nat × Nat × Nat := (h.src, h.dst, h.id)

def Fragment4.key (f : Fragment4) : Nat × Nat × Nat := (f.src, f.dst, f.id)

variable {ip : IP} {f g : Fragment4} {fl : List Fragment4} {h h' : Ip4hdr} {keys : List (Nat × Nat × Nat)} {now offset : Nat} {bp : Blk}

theorem isOf_iff_key : f.isOf h = true ↔ f.key = h.key := by
  rw [isOf_iff]
  unfold Fragment4.key Ip4hdr.key
  rw [Prod.mk.injEq, Prod.mk.injEq]

theorem isOf_other (hne : h'.key ≠ h.key) (hf : f.isOf h' = true) : ¬ f.isOf h = true := fun hf' =>
  hne ((isOf_iff_key.1 hf).symm.trans (isOf_iff_key.1 hf'))

theorem find_same (hf : f.isOf h = true) : (f :: fl).find? (·.isOf h) = some f := by
  rw [find?_cons, hf]

/-- One key has one queue, of its fragments, and there are entries enough for all keys. -/
structure Room (keys : List (Nat × Nat × Nat)) (ip : IP) : Prop where
  distinct : (ip.flist.map Fragment4.key).Nodup
  known : ∀ f ∈ ip.flist, f.key ∈ keys
  room : keys.length ≤ ip.free + ip.flist.length
  own : ∀ f ∈ ip.flist, ∀ q ∈ f.blist, q.hdr.key = f.key

theorem Room.sublist (hr : Room keys ip) {free : Nat} (hsub : List.Sublist fl ip.flist)
    (hfree : ip.free + ip.flist.length ≤ free + fl.length) : Room keys ⟨fl, free⟩ :=
  ⟨hr.distinct.sublist (hsub.map _), fun f hf => hr.known f (hsub.subset hf), Nat.le_trans hr.room hfree,
    fun f hf => hr.own f (hsub.subset hf)⟩

theorem expire_sublist : List.Sublist (expire now h fl) fl := by
  induction fl with
  | nil => exact .slnil
  | cons f fl ih =>
    unfold expire
    split
    · exact .refl _
    · split
      · exact ih.cons _
      · exact ih.cons_cons _

theorem Room.free (hr : Room keys ip) : Room keys (ip.ipfragfree4 h) := by
  refine hr.sublist eraseP_sublist ?_
  have := @le_length_eraseP _ (·.isOf h) ip.flist
  omega

theorem Room.allo (hr : Room keys ip) {bl : Frag} (hfind : ip.flist.find? (·.isOf h) = none) (hkey : h.key ∈ keys)
    (hbl : bl.hdr.key = h.key) : ip.ipfragallo4 now h bl = ⟨⟨[bl], h.src, h.id, h.dst, (now + 30000) % 2 ^ 32⟩ :: ip.flist, ip.free - 1⟩ ∧
      Room keys (ip.ipfragallo4 now h bl) := by
  have hnew : ∀ f ∈ ip.flist, f.key ≠ h.key := fun f hf heq => by
    have hnone := find?_eq_none.1 hfind f hf
    exact hnone (isOf_iff_key.2 heq)
  have hdistinct : (h.key :: ip.flist.map Fragment4.key).Nodup := by
    refine nodup_cons.2 ⟨fun hmem => ?_, hr.distinct⟩
    obtain ⟨f, hf, heq⟩ := mem_map.1 hmem
    exact hnew f hf heq
  have hsub : h.key :: ip.flist.map Fragment4.key ⊆ keys := by
    intro k hk
    rcases mem_cons.1 hk with rfl | hk
    · exact hkey
    · obtain ⟨f, hf, rfl⟩ := mem_map.1 hk
      exact hr.known f hf
  have hcount := (hdistinct.subperm hsub).length_le
  rw [length_cons, length_map] at hcount
  have hroom := hr.room
  have hpos : ip.free ≠ 0 := by omega
  have hallo : ip.ipfragallo4 now h bl = ⟨⟨[bl], h.src, h.id, h.dst, (now + 30000) % 2 ^ 32⟩ :: ip.flist, ip.free - 1⟩ := by
    unfold IP.ipfragallo4
    rw [if_neg hpos]
  refine ⟨hallo, hallo ▸ ⟨hdistinct, fun f hf => ?_, ?_, fun f hf q hq => ?_⟩⟩
  · rcases mem_cons.1 hf with rfl | hf
    · exact hkey
    · exact hr.known f hf
  · change keys.length ≤ ip.free - 1 + (ip.flist.length + 1)
    omega
  rcases mem_cons.1 hf with rfl | hf
  · obtain rfl := mem_singleton.1 hq
    exact hbl
  · exact hr.own f hf q hq

theorem Room.setblist (hr : Room keys ip) (hblist : ∀ q ∈ blist, q.hdr.key = h.key) :
    Room keys (ip.setblist h blist) := by
  have hkey : ∀ f : Fragment4, (if f.isOf h then { f with blist := blist } else f).key = f.key := by
    intro f
    split <;> rfl
  have hkeys : (ip.setblist h blist).flist.map Fragment4.key = ip.flist.map Fragment4.key := by
    unfold IP.setblist
    rw [map_map]
    exact map_congr_left fun f _ => hkey f
  refine ⟨hkeys ▸ hr.distinct, fun f hf => ?_, ?_, fun f hf q hq => ?_⟩
  · obtain ⟨g, hg, rfl⟩ := mem_map.1 hf
    rw [hkey]
    exact hr.known g hg
  · have hroom := hr.room
    unfold IP.setblist
    rw [length_map]
    exact hroom
  obtain ⟨g, hg, rfl⟩ := mem_map.1 hf
  rw [hkey]
  split at hq
  · rename_i hof
    exact (hblist q hq).trans (isOf_iff_key.1 hof).symm
  · exact hr.own g hg q hq

theorem cover_hdr {fend : Nat} {ls : List Frag} : ∀ q ∈ cover fend ls, ∃ p ∈ ls, q.hdr = p.hdr := by
  induction ls with
  | nil => exact fun q hq => nomatch hq
  | cons l ls ih =>
    intro q hq
    unfold cover at hq
    dsimp only at hq
    split at hq
    · exact ⟨q, hq, rfl⟩
    split at hq
    · rcases mem_cons.1 hq with rfl | hq
      · exact ⟨l, mem_cons_self, rfl⟩
      · exact ⟨q, mem_cons_of_mem _ hq, rfl⟩
    · obtain ⟨p, hp, heq⟩ := ih q hq
      exact ⟨p, mem_cons_of_mem _ hp, heq⟩

theorem enqueue_hdr {bl : Frag} {blist' : List Frag} (hen : enqueue bl blist = some blist') :
    ∀ q ∈ blist', q.hdr = bl.hdr ∨ ∃ p ∈ blist, q.hdr = p.hdr := by
  have hbefore : ∀ q ∈ blist.takeWhile (·.foff < bl.foff), q ∈ blist := fun q hq => (takeWhile_sublist _).subset hq
  have hrest : ∀ q ∈ bl :: cover (bl.foff + bl.flen) (blist.dropWhile (·.foff < bl.foff)),
      q.hdr = bl.hdr ∨ ∃ p ∈ blist, q.hdr = p.hdr := by
    intro q hq
    rcases mem_cons.1 hq with rfl | hq
    · exact .inl rfl
    · obtain ⟨p, hp, heq⟩ := cover_hdr q hq
      exact .inr ⟨p, (dropWhile_sublist _).subset hp, heq⟩
  intro q hq
  unfold enqueue at hen
  dsimp only at hen
  split at hen
  · cases hen
    exact hrest q hq
  rename_i prev hprev
  have hprevmem := hbefore prev (mem_of_getLast? hprev)
  split at hen
  · split at hen
    · exact nomatch hen
    cases hen
    rcases mem_append.1 hq with hq | hq
    · exact .inr ⟨q, hbefore q (dropLast_subset _ hq), rfl⟩
    · rcases mem_cons.1 hq with rfl | hq
      · exact .inr ⟨prev, hprevmem, rfl⟩
      · exact hrest q hq
  cases hen
  rcases mem_append.1 hq with hq | hq
  · exact .inr ⟨q, hbefore q hq, rfl⟩
  · exact hrest q hq

/-- The block as it comes to a queue. -/
def Blk.toFrag (bp : Blk) (h : Ip4hdr) (offset : Nat) : Frag := ⟨h, bp.mem, bp.len, (offset <<< 3) % 2 ^ 16, h.length - ip4hdr⟩

/-- The queues after the search. -/
def IP.searched (ip : IP) (now : Nat) (h : Ip4hdr) : IP :=
  ⟨expire now h ip.flist, ip.free + (ip.flist.length - (expire now h ip.flist).length)⟩

theorem Room.searched (hr : Room keys ip) : Room keys (ip.searched now h) := by
  refine hr.sublist expire_sublist ?_
  omega

theorem ip4reassemble_cases (ip : IP) (now offset : Nat) (h : Ip4hdr) (bp : Blk) :
    (h.tos = 0 ∧ offset &&& 0x9fff = 0 ∧ ((ip4reassemble ip now offset h bp).1 = (ip.searched now h).ipfragfree4 h ∨
        (ip4reassemble ip now offset h bp).1 = ip.searched now h) ∧ (ip4reassemble ip now offset h bp).2 = some ⟨h, [bp]⟩) ∨
    (¬ (h.tos = 0 ∧ offset &&& 0x9fff = 0) ∧ (
      (ip.flist.find? (·.isOf h) = none ∧
        ip4reassemble ip now offset h bp = ((ip.searched now h).ipfragallo4 now h (bp.toFrag h offset), none)) ∨
      ∃ f, ip.flist.find? (·.isOf h) = some f ∧ (
        (enqueue (bp.toFrag h offset) f.blist = none ∧ ip4reassemble ip now offset h bp = (ip.searched now h, none)) ∨
        ∃ blist, enqueue (bp.toFrag h offset) f.blist = some blist ∧ (
          (complete 0 blist = true ∧ ip4reassemble ip now offset h bp = ((ip.searched now h).ipfragfree4 h, assemble blist)) ∨
          (complete 0 blist = false ∧ ip4reassemble ip now offset h bp = ((ip.searched now h).setblist h blist, none)))))) := by
  unfold ip4reassemble
  dsimp only
  rw [expire_find]
  by_cases hwhole : h.tos = 0 ∧ offset &&& 0x9fff = 0
  · rw [if_pos hwhole]
    refine .inl ⟨hwhole.1, hwhole.2, ?_, rfl⟩
    split
    · exact .inl rfl
    · exact .inr rfl
  rw [if_neg hwhole]
  refine .inr ⟨hwhole, ?_⟩
  cases hfind : ip.flist.find? (·.isOf h) with
  | none => exact .inl ⟨rfl, rfl⟩
  | some f =>
    refine .inr ⟨f, rfl, ?_⟩
    cases hen : enqueue (bp.toFrag h offset) f.blist with
    | none =>
      refine .inl ⟨rfl, ?_⟩
      unfold Blk.toFrag at hen
      dsimp only
      rw [hen]
      rfl
    | some blist =>
      refine .inr ⟨blist, rfl, ?_⟩
      unfold Blk.toFrag at hen
      dsimp only
      rw [hen]
      cases hcomplete : complete 0 blist with
      | true => exact .inl ⟨rfl, if_pos hcomplete⟩
      | false => exact .inr ⟨rfl, if_neg (by rw [hcomplete]; exact Bool.false_ne_true)⟩

theorem enqueue_key (hr : Room keys ip) (hfind : ip.flist.find? (·.isOf h) = some f)
    (hen : enqueue (bp.toFrag h offset) f.blist = some blist) : ∀ q ∈ blist, q.hdr.key = h.key := by
  intro q hq
  have hof : f.key = h.key := isOf_iff_key.1 (by
    have hfound := find?_some hfind
    exact hfound)
  rcases enqueue_hdr hen q hq with heq | ⟨p, hp, heq⟩
  · rw [heq]
    rfl
  · rw [heq, hr.own f (mem_of_find?_eq_some hfind) p hp, hof]

/-- A fragment keeps the room for all; what comes of it is of its datagram. -/
theorem Room.reassemble (hr : Room keys ip) (hkey : h.key ∈ keys) : Room keys (ip4reassemble ip now offset h bp).1 ∧
    ∀ d, (ip4reassemble ip now offset h bp).2 = some d → d.hdr.key = h.key := by
  have hs : Room keys (ip.searched now h) := hr.searched
  rcases ip4reassemble_cases ip now offset h bp with ⟨-, -, hip, hout⟩ | ⟨-, ⟨hfind, heq⟩ | ⟨f, hfind, ⟨-, heq⟩ |
    ⟨blist, hen, ⟨-, heq⟩ | ⟨-, heq⟩⟩⟩⟩
  · refine ⟨?_, fun d hd => ?_⟩
    · rcases hip with hip | hip
      · exact hip ▸ hs.free
      · exact hip ▸ hs
    · obtain rfl := Option.some.inj (hout.symm.trans hd)
      rfl
  · rw [heq]
    have hfind' : (ip.searched now h).flist.find? (·.isOf h) = none := expire_find.trans hfind
    exact ⟨(hs.allo hfind' hkey rfl).2, fun d hd => nomatch hd⟩
  · rw [heq]
    exact ⟨hs, fun d hd => nomatch hd⟩
  · rw [heq]
    refine ⟨hs.free, fun d hd => ?_⟩
    cases blist with
    | nil => exact nomatch hd
    | cons bl bls =>
      cases hd
      exact enqueue_key hr hfind hen bl mem_cons_self
  · rw [heq]
    exact ⟨hs.setblist (enqueue_key hr hfind hen), fun d hd => nomatch hd⟩

/-! ## The queue of a datagram -/

theorem expire_find_other (hage : ∀ f, fl.find? (·.isOf h) = some f → now ≤ f.age) :
    (expire now h' fl).find? (·.isOf h) = fl.find? (·.isOf h) := by
  induction fl with
  | nil => rfl
  | cons f fl ih =>
    unfold expire
    by_cases hf' : f.isOf h' = true
    · rw [if_pos hf']
    rw [if_neg hf']
    by_cases hf : f.isOf h = true
    · have hlive := hage f (find_same hf)
      rw [if_neg (Nat.not_lt.2 hlive), find_same hf, find_same hf]
    have ih := ih fun g hg => hage g ((find_other hf).trans hg)
    rw [find_other hf]
    split
    · exact ih
    · rw [find_other hf]
      exact ih

theorem erase_find_other (hne : h'.key ≠ h.key) : (fl.eraseP (·.isOf h')).find? (·.isOf h) = fl.find? (·.isOf h) := by
  induction fl with
  | nil => rfl
  | cons f fl ih =>
    rw [eraseP_cons]
    by_cases hf' : f.isOf h' = true
    · rw [hf', find_other (isOf_other hne hf')]
      rfl
    · rw [Bool.eq_false_iff.2 hf', cond_false, find?_cons, find?_cons, ih]

theorem erase_find (hdistinct : (fl.map Fragment4.key).Nodup) : (fl.eraseP (·.isOf h)).find? (·.isOf h) = none := by
  induction fl with
  | nil => rfl
  | cons f fl ih =>
    rw [map_cons, nodup_cons] at hdistinct
    rw [eraseP_cons]
    by_cases hf : f.isOf h = true
    · rw [hf, cond_true]
      refine find?_eq_none.2 fun g hg hof => hdistinct.1 ?_
      rw [isOf_iff_key.1 hf, ← isOf_iff_key.1 hof]
      exact mem_map_of_mem hg
    · rw [Bool.eq_false_iff.2 hf, cond_false, find_other hf]
      exact ih hdistinct.2

theorem setblist_find : (ip.setblist h' blist).flist.find? (·.isOf h) =
    (ip.flist.find? (·.isOf h)).map fun f => if f.isOf h' then { f with blist := blist } else f := by
  have hsame : ((fun f : Fragment4 => f.isOf h) ∘
      fun f : Fragment4 => if f.isOf h' then { f with blist := blist } else f) = (·.isOf h) := by
    funext f
    rw [comp_apply]
    split <;> rfl
  unfold IP.setblist
  rw [find?_map, hsame]

/-- The queue of the datagram with the fragments `fs` has those that have come, all but `m`, and lives until `t`. -/
def Mine (h : Ip4hdr) (fs m : List Packet) (t : Nat) (ip : IP) : Prop :=
  match ip.flist.find? (·.isOf h) with
  | none => m = fs
  | some f => t ≤ f.age ∧ ∃ φ : Packet → Frag, (∀ w ∈ fs, HasPiece w (φ w)) ∧ f.blist = (fs.filter (· ∉ m)).map φ

variable {t : Nat} {ip' : IP}

theorem Mine.congr (hm : Mine h fs m t ip) (hfind : ip'.flist.find? (·.isOf h) = ip.flist.find? (·.isOf h)) : Mine h fs m t ip' := by
  unfold Mine at hm ⊢
  rw [hfind]
  exact hm

theorem Mine.live (hm : Mine h fs m t ip) (hnow : now ≤ t) (hfind : ip.flist.find? (·.isOf h) = some f) : now ≤ f.age := by
  unfold Mine at hm
  rw [hfind] at hm
  exact Nat.le_trans hnow hm.1

theorem Mine.other (hm : Mine h fs m t ip) (hr : Room keys ip) (hkey : h'.key ∈ keys) (hne : h'.key ≠ h.key) (hnow : now ≤ t) :
    Mine h fs m t (ip4reassemble ip now offset h' bp).1 := by
  have hs : (ip.searched now h').flist.find? (·.isOf h) = ip.flist.find? (·.isOf h) :=
    expire_find_other fun f hf => hm.live hnow hf
  have hfree : ((ip.searched now h').ipfragfree4 h').flist.find? (·.isOf h) = ip.flist.find? (·.isOf h) :=
    (erase_find_other hne).trans hs
  rcases ip4reassemble_cases ip now offset h' bp with ⟨-, -, hip, -⟩ | ⟨-, ⟨hfind, heq⟩ | ⟨f, hfind, ⟨-, heq⟩ |
    ⟨_, -, ⟨-, heq⟩ | ⟨-, heq⟩⟩⟩⟩
  · rcases hip with hip | hip
    · exact hip ▸ hm.congr hfree
    · exact hip ▸ hm.congr hs
  · have hfind' : (ip.searched now h').flist.find? (·.isOf h') = none := expire_find.trans hfind
    have hsr : Room keys (ip.searched now h') := hr.searched
    have hallo : (ip.searched now h').ipfragallo4 now h' (bp.toFrag h' offset) = _ := (hsr.allo hfind' hkey rfl).1
    rw [heq]
    refine hm.congr ?_
    rw [hallo]
    refine (find_other fun hof => hne ?_).trans hs
    exact isOf_iff_key.1 hof
  · rw [heq]
    exact hm.congr hs
  · rw [heq]
    exact hm.congr hfree
  rw [heq]
  refine hm.congr ?_
  rw [setblist_find, hs]
  cases hf : ip.flist.find? (·.isOf h) with
  | none => rfl
  | some f =>
    have hof : f.isOf h = true := by
      have hfound := find?_some hf
      exact hfound
    rw [Option.map_some, if_neg fun hof' => isOf_other hne hof' hof]

theorem Mine.key (hm : Mine h fs m t ip) (heq : h'.key = h.key) : Mine h' fs m t ip := by
  have hsame : (fun f : Fragment4 => f.isOf h') = (·.isOf h) := by
    funext f
    rw [Bool.eq_iff_iff, isOf_iff_key, isOf_iff_key, heq]
  unfold Mine at hm ⊢
  rw [hsame]
  exact hm

theorem Piece.not_whole (hw : Piece d w lo) (hfrag : w.hdr.frag ≠ 0) : ¬ (w.hdr.marked.tos = 0 ∧ w.hdr.frag &&& 0x9fff = 0) := by
  intro hwhole
  have ha : Arrival.Whole ⟨0, w.hdr, ⟨[], 0⟩⟩ := hwhole
  have hoff := ha.off
  rw [off_eq] at hoff
  have hlo : lo = 0 := hw.off.symm.trans hoff
  have hend : lo + w.data.length = d.payload.length := by
    have hfinal := ha.final
    exact hw.and_ipmf.1 (beq_iff_eq.1 hfinal)
  refine hfrag (hw.frag.trans ?_)
  rw [hend, hlo, if_neg (Nat.lt_irrefl _)]

theorem Pieces.exists_other (hp : Pieces d 0 d.payload.length fs) (hpayload : d.payload ≠ []) (hw : w ∈ fs) (hfrag : w.hdr.frag ≠ 0) :
    ∃ v ∈ fs, v.hdr ≠ w.hdr := by
  by_contra hall
  have hall' : ∀ v ∈ fs, v.hdr = w.hdr := fun v hv => by
    by_contra hne
    exact hall ⟨v, hv, hne⟩
  obtain ⟨front, back, mid, rfl, hfront, hpiece, hback⟩ := hp.split hw
  have hoff : ∀ v ∈ front ++ w :: back, v.off = mid := fun v hv => by
    rw [← hpiece.off]
    unfold Packet.off
    rw [hall' v hv]
  have hpos := hpiece.nonempty.resolve_right hpayload
  have hfrontnil : front = [] := by
    refine eq_nil_iff_forall_not_mem.2 fun v hv => ?_
    have := (hfront.off_front hpayload hv).1
    have := hoff v (mem_append_left _ hv)
    omega
  have hbacknil : back = [] := by
    refine eq_nil_iff_forall_not_mem.2 fun v hv => ?_
    have := hback.off_back hv
    have := hoff v (mem_append_right _ (mem_cons_of_mem _ hv))
    omega
  subst hfrontnil hbacknil
  have hmid : 0 = mid := hfront
  have hend := hback
  refine hfrag (hpiece.frag.trans ?_)
  rw [hend, if_neg (Nat.lt_irrefl _), ← hmid]

theorem not_mem_rest (v w : Packet) : decide (v ∉ m.filter (·.hdr ≠ w.hdr)) = (decide (v ∉ m) || v.hdr == w.hdr) := by
  rw [Bool.eq_iff_iff, decide_eq_true_iff, Bool.or_eq_true, decide_eq_true_iff, beq_iff_eq, mem_filter, decide_eq_true_iff]
  tauto

theorem Mine.own (hm : Mine w.hdr.marked fs m t ip) (hp : Pieces d 0 d.payload.length fs) (hpayload : d.payload ≠ []) (hw : w ∈ fs)
    (hfrag : w.hdr.frag ≠ 0) (hbp : HasPiece w (bp.toFrag w.hdr.marked w.hdr.frag)) (hr : Room keys ip) (hkey : w.hdr.key ∈ keys)
    (hsub : ∀ v ∈ m, v ∈ fs) (hnow : t ≤ (now + 30000) % 2 ^ 32) :
    (m.filter (·.hdr ≠ w.hdr) = [] → Mine w.hdr.marked fs fs t (ip4reassemble ip now w.hdr.frag w.hdr.marked bp).1 ∧
      ∃ g, (ip4reassemble ip now w.hdr.frag w.hdr.marked bp).2 = some g ∧ g.payload = d.payload ∧
        g.hdr.length = ip4hdr + d.payload.length) ∧
    (m.filter (·.hdr ≠ w.hdr) ≠ [] → Mine w.hdr.marked fs (m.filter (·.hdr ≠ w.hdr)) t
      (ip4reassemble ip now w.hdr.frag w.hdr.marked bp).1 ∧ (ip4reassemble ip now w.hdr.frag w.hdr.marked bp).2 = none) := by
  obtain ⟨_, -, -, hpiece⟩ := hp.mem hw
  have hs : Room keys (ip.searched now w.hdr.marked) := hr.searched
  have hne : fs ≠ [] := fun hnil => by
    rw [hnil] at hw
    exact nomatch hw
  have hrest : ∀ v ∈ m.filter (·.hdr ≠ w.hdr), v ∈ fs := fun v hv => hsub v (mem_filter.1 hv).1
  have hfilter : (fs.filter fun v => decide (v ∉ m) || v.hdr == w.hdr) = fs.filter (· ∉ m.filter (·.hdr ≠ w.hdr)) :=
    filter_congr fun v _ => (not_mem_rest v w).symm
  rcases ip4reassemble_cases ip now w.hdr.frag w.hdr.marked bp with ⟨h1, h2, -⟩ | ⟨-, ⟨hfind, heq⟩ | ⟨f, hfind, hcases⟩⟩
  · exact absurd ⟨h1, h2⟩ (hpiece.not_whole hfrag)
  · -- the first to come
    have hmfs : m = fs := by
      unfold Mine at hm
      rw [hfind] at hm
      exact hm
    have hmore : m.filter (·.hdr ≠ w.hdr) ≠ [] := by
      obtain ⟨v, hv, hvne⟩ := hp.exists_other hpayload hw hfrag
      refine ne_nil_of_mem (mem_filter.2 ⟨hmfs ▸ hv, ?_⟩)
      exact decide_eq_true hvne
    refine ⟨fun hnil => absurd hnil hmore, fun _ => ?_⟩
    have hfind' : (ip.searched now w.hdr.marked).flist.find? (·.isOf w.hdr.marked) = none := expire_find.trans hfind
    have hallo : (ip.searched now w.hdr.marked).ipfragallo4 now w.hdr.marked (bp.toFrag w.hdr.marked w.hdr.frag) = _ :=
      (hs.allo hfind' hkey rfl).1
    rw [heq]
    refine ⟨?_, rfl⟩
    rw [hallo]
    unfold Mine
    rw [find_same (isOf_iff.2 ⟨rfl, rfl, rfl⟩)]
    let φ : Packet → Frag := fun v => ⟨v.hdr.marked, v.data, v.data.length, v.off, v.data.length⟩
    have hφ : ∀ v ∈ fs, HasPiece v (φ v) := fun v _ => ⟨rfl, take_length, rfl, rfl⟩
    have hen := hp.enqueue hpayload hw hφ hbp (· ∉ m)
    have hnone : fs.filter (· ∉ m) = [] := by
      refine filter_eq_nil_iff.2 fun v hv => ?_
      simpa [hmfs] using hv
    rw [hnone] at hen
    have hone := Option.some.inj hen
    refine ⟨hnow, update φ w (bp.toFrag w.hdr.marked w.hdr.frag), fun v hv => ?_, ?_⟩
    · by_cases hvw : v = w
      · rw [hvw, update_self]
        exact hbp
      · rw [update_of_ne hvw]
        exact hφ v hv
    · rw [← hfilter]
      exact hone
  unfold Mine at hm
  rw [hfind] at hm
  obtain ⟨hage, φ, hφ, hblist⟩ := hm
  have hen := hp.enqueue hpayload hw hφ hbp (· ∉ m)
  rw [← hblist, hfilter] at hen
  have hφ' : ∀ v ∈ fs, HasPiece v (update φ w (bp.toFrag w.hdr.marked w.hdr.frag) v) := by
    intro v hv
    by_cases hvw : v = w
    · rw [hvw, update_self]
      exact hbp
    · rw [update_of_ne hvw]
      exact hφ v hv
  have hcomplete := complete_iff hp hpayload hne hφ' (· ∉ m.filter (·.hdr ≠ w.hdr))
  have hall : (∀ v ∈ fs, decide (v ∉ m.filter (·.hdr ≠ w.hdr)) = true) ↔ m.filter (·.hdr ≠ w.hdr) = [] := by
    refine ⟨fun hall => eq_nil_iff_forall_not_mem.2 fun v hv => ?_, fun hnil v _ => ?_⟩
    · exact of_decide_eq_true (hall v (hrest v hv)) hv
    · rw [hnil]
      exact decide_eq_true not_mem_nil
  rcases hcases with ⟨hnone, -⟩ | ⟨_, hsome, hdone⟩
  · exact absurd (hnone.symm.trans hen) (by simp)
  obtain rfl := Option.some.inj (hsome.symm.trans hen)
  refine ⟨fun hnil => ?_, fun hmore => ?_⟩
  · rcases hdone with ⟨-, heq⟩ | ⟨hnot, -⟩
    · rw [heq]
      refine ⟨?_, ?_⟩
      · unfold Mine
        have hgone : ((ip.searched now w.hdr.marked).ipfragfree4 w.hdr.marked).flist.find? (·.isOf w.hdr.marked) = none :=
          erase_find hs.distinct
        rw [hgone]
      · have hkeep := filter_eq_self.2 (hall.2 hnil)
        rw [hkeep]
        exact hp.assemble hne hφ'
    · rw [hcomplete.2 (hall.2 hnil)] at hnot
      exact absurd hnot (by simp)
  rcases hdone with ⟨hyes, -⟩ | ⟨-, heq⟩
  · exact absurd (hall.1 (hcomplete.1 hyes)) hmore
  rw [heq]
  refine ⟨?_, rfl⟩
  have hof : f.isOf w.hdr.marked = true := by
    have hfound := find?_some hfind
    exact hfound
  have hfind' : (ip.searched now w.hdr.marked).flist.find? (·.isOf w.hdr.marked) = some f := expire_find.trans hfind
  unfold Mine
  rw [setblist_find, hfind', Option.map_some, if_pos hof]
  exact ⟨hage, _, hφ', rfl⟩

/-! ## Round trip -/

variable {a : Arrival} {as before : List Arrival} {k : Nat × Nat × Nat}

/-- The packet comes, in a block that may have more memory. -/
structure Arrival.Brings (a : Arrival) (w : Packet) : Prop where
  hdr : a.hdr = w.hdr
  len : a.bp.len = w.data.length
  data : a.data = w.data

def IP.receive (ip : IP) (a : Arrival) : IP × Option Datagram := ipiput4 ip a.now a.hdr a.bp

def IP.received (ip : IP) : List Arrival → IP
  | [] => ip
  | a :: as => (ip.receive a).1.received as

/-- What of the fragments is still missing: after the last one, all are again. -/
def stillMissing (fs m : List Packet) (a : Arrival) : List Packet :=
  if m.filter (·.hdr ≠ a.hdr) = [] then fs else m.filter (·.hdr ≠ a.hdr)

def missing (fs : List Packet) (as : List Arrival) : List Packet := as.foldl (stillMissing fs) fs

/-- One of the fragments of a datagram, or of another of some datagrams, between 30 seconds before `t` and `t`; the clock
does not wrap in that time. -/
structure Comes (fs : List Packet) (k : Nat × Nat × Nat) (keys : List (Nat × Nat × Nat)) (t : Nat) (a : Arrival) : Prop where
  now : a.now ≤ t
  inTime : t ≤ (a.now + 30000) % 2 ^ 32
  of : (∃ w ∈ fs, a.Brings w) ∨ a.hdr.key ≠ k ∧ a.hdr.key ∈ keys

theorem Arrival.Brings.holds (ha : a.Brings w) (hw : Piece d w lo) : HasPiece w (a.bp.toFrag w.hdr.marked w.hdr.frag) := by
  refine ⟨rfl, ?_, ?_, ?_⟩
  · rw [← ha.len]
    exact ha.data
  · have hoff := off_eq a
    rw [Arrival.off, ha.hdr] at hoff
    exact hoff
  · change w.hdr.length - ip4hdr = _
    rw [hw.length, Nat.add_sub_cancel_left]

/-- "don't let any frag info go up the stack" -/
def Datagram.up (g : Datagram) : Datagram := { g with hdr := { g.hdr with frag := 0 } }

theorem receive_whole (hfrag : a.hdr.frag = 0) : ip.receive a = (ip, some (Datagram.up ⟨a.hdr, [a.bp]⟩)) := by
  unfold IP.receive ipiput4
  rw [if_neg (not_not_intro hfrag)]
  rfl

theorem receive_frag (hfrag : a.hdr.frag ≠ 0) :
    ip.receive a = ((ip4reassemble ip a.now a.hdr.frag a.hdr.marked a.bp).1,
      (ip4reassemble ip a.now a.hdr.frag a.hdr.marked a.bp).2.map Datagram.up) := by
  unfold IP.receive ipiput4
  rw [if_pos hfrag]
  rfl

theorem Room.receive (hr : Room keys ip) (hkey : a.hdr.key ∈ keys) : Room keys (ip.receive a).1 ∧
    ∀ g, (ip.receive a).2 = some g → g.hdr.key = a.hdr.key := by
  by_cases hfrag : a.hdr.frag = 0
  · rw [receive_whole hfrag]
    refine ⟨hr, fun g hg => ?_⟩
    cases hg
    rfl
  obtain ⟨h1, h2⟩ := @Room.reassemble ip a.hdr.marked keys a.now a.hdr.frag a.bp hr hkey
  rw [receive_frag hfrag]
  refine ⟨h1, fun g hg => ?_⟩
  obtain ⟨g', hg', rfl⟩ := Option.map_eq_some_iff.1 hg
  exact h2 g' hg'

theorem Room.received (hr : Room keys ip) (hkeys : ∀ a ∈ as, a.hdr.key ∈ keys) : Room keys (ip.received as) := by
  induction as generalizing ip with
  | nil => exact hr
  | cons a as ih =>
    exact ih (hr.receive (hkeys a mem_cons_self)).1 fun b hb => hkeys b (mem_cons_of_mem _ hb)

theorem IP.received_append (ip : IP) (as bs : List Arrival) : ip.received (as ++ bs) = (ip.received as).received bs := by
  induction as generalizing ip with
  | nil => rfl
  | cons a as ih => exact ih _

/-- The fragments of a datagram as they come from its path. -/
structure Fragments (d : Source) (fs : List Packet) : Prop where
  pieces : Pieces d 0 d.payload.length fs
  one : d.payload = [] → fs.length = 1

theorem Fragments.ne_nil (hfs : Fragments d fs) : fs ≠ [] := by
  intro hnil
  have hpieces := hfs.pieces
  have hone := hfs.one
  rw [hnil] at hpieces hone
  have hlen : 0 = d.payload.length := hpieces
  exact absurd (hone (length_eq_zero_iff.1 hlen.symm)) (by simp)

theorem Fragments.key (hfs : Fragments d fs) (hw : w ∈ fs) : w.hdr.key = (d.src, d.dst, d.id) := by
  obtain ⟨_, -, -, hpiece⟩ := hfs.pieces.mem hw
  unfold Ip4hdr.key
  rw [hpiece.src, hpiece.dst, hpiece.id]

theorem Fragments.whole (hfs : Fragments d fs) (hw : w ∈ fs) (hfrag : w.hdr.frag = 0) : fs = [w] ∧ w.data = d.payload := by
  obtain ⟨front, back, mid, rfl, hfront, hpiece, hback⟩ := hfs.pieces.split hw
  have hmid : mid = 0 := by
    rw [← hpiece.off]
    unfold Packet.off
    rw [hfrag, Nat.zero_mod, Nat.zero_mul]
  have hend : mid + w.data.length = d.payload.length := hpiece.and_ipmf.1 (by rw [hfrag, Nat.zero_and])
  have hdata : w.data = d.payload := by
    rw [hpiece.data, hmid, drop_zero, take_of_length_le (by omega)]
  refine ⟨?_, hdata⟩
  by_cases hpayload : d.payload = []
  · have hlen := hfs.one hpayload
    rw [length_append, length_cons] at hlen
    obtain rfl : front = [] := length_eq_zero_iff.1 (by omega)
    obtain rfl : back = [] := length_eq_zero_iff.1 (by omega)
    rfl
  rw [hmid] at hfront
  rw [hend] at hback
  rw [hfront.nil_of_end hpayload, hback.nil_of_end hpayload]
  rfl

theorem Mine.again (hm : Mine h fs m t ip) (hall : ∀ v ∈ fs, v ∈ m) : Mine h fs fs t ip := by
  unfold Mine at hm ⊢
  cases hfind : ip.flist.find? (·.isOf h) with
  | none => rfl
  | some f =>
    rw [hfind] at hm
    obtain ⟨hage, φ, hφ, hblist⟩ := hm
    refine ⟨hage, φ, hφ, hblist.trans ?_⟩
    have hnone : ∀ vs : List Packet, (∀ v ∈ fs, v ∈ vs) → fs.filter (· ∉ vs) = [] := fun vs hvs =>
      filter_eq_nil_iff.2 fun v hv => by simpa using hvs v hv
    rw [hnone m hall, hnone fs fun v => id]

/-- What a queue of the fragments is between two arrivals. -/
structure Waiting (h : Ip4hdr) (fs : List Packet) (t : Nat) (keys : List (Nat × Nat × Nat)) (m : List Packet) (ip : IP) : Prop where
  mine : Mine h fs m t ip
  room : Room keys ip
  more : m ≠ []
  sub : ∀ v ∈ m, v ∈ fs

theorem Waiting.receive (hwait : Waiting h fs t keys m ip) (hfs : Fragments d fs) (hkey : h.key = (d.src, d.dst, d.id))
    (hmem : h.key ∈ keys) (ha : Comes fs h.key keys t a) :
    Waiting h fs t keys (stillMissing fs m a) (ip.receive a).1 ∧
    ((∀ v ∈ m, v.hdr = a.hdr) → ∃ g, (ip.receive a).2 = some g ∧ g.payload = d.payload ∧ g.hdr.length = ip4hdr + d.payload.length) ∧
    ∀ g, (ip.receive a).2 = some g → g.hdr.key = h.key → ∀ v ∈ m, v.hdr = a.hdr := by
  have hrestiff : m.filter (·.hdr ≠ a.hdr) = [] ↔ ∀ v ∈ m, v.hdr = a.hdr := by
    rw [filter_eq_nil_iff]
    exact forall₂_congr fun v _ => by rw [decide_eq_true_iff, not_not]
  have hfsne := hfs.ne_nil
  -- what is still missing is some of the fragments
  have hstill : stillMissing fs m a ≠ [] ∧ ∀ v ∈ stillMissing fs m a, v ∈ fs := by
    unfold stillMissing
    split
    · exact ⟨hfsne, fun v hv => hv⟩
    · rename_i hmore
      exact ⟨hmore, fun v hv => hwait.sub v (mem_filter.1 hv).1⟩
  obtain ⟨w0, hw0⟩ := exists_mem_of_ne_nil m hwait.more
  rcases ha.of with ⟨w, hw, hbrings⟩ | ⟨hother, hknown⟩
  · have hwkey : w.hdr.key = h.key := (hfs.key hw).trans hkey.symm
    have hroom := (hwait.room.receive (a := a) (by rw [hbrings.hdr, hwkey]; exact hmem)).1
    obtain ⟨_, -, hlo, hpiece⟩ := hfs.pieces.mem hw
    by_cases hfrag : w.hdr.frag = 0
    · obtain ⟨hfsw, hdata⟩ := hfs.whole hw hfrag
      have hall : ∀ v ∈ m, v.hdr = a.hdr := fun v hv => by
        have hvw := hwait.sub v hv
        rw [hfsw, mem_singleton] at hvw
        rw [hvw, hbrings.hdr]
      have hwm : w ∈ m := by
        have hw0w := hwait.sub w0 hw0
        rw [hfsw, mem_singleton] at hw0w
        exact hw0w ▸ hw0
      have hmfs : stillMissing fs m a = fs := if_pos (hrestiff.2 hall)
      refine ⟨⟨?_, hroom, hstill.1, hstill.2⟩, fun _ => ?_, fun g _ _ => hall⟩
      · rw [receive_whole (hbrings.hdr ▸ hfrag), hmfs]
        refine hwait.mine.again fun v hv => ?_
        rw [hfsw, mem_singleton] at hv
        exact hv ▸ hwm
      rw [receive_whole (hbrings.hdr ▸ hfrag)]
      refine ⟨_, rfl, ?_, ?_⟩
      · unfold Datagram.payload Datagram.up
        rw [flatMap_singleton, ← hdata, ← hbrings.data]
        rfl
      · change a.hdr.length = _
        rw [hbrings.hdr, hpiece.length, hdata]
    have hpayload : d.payload ≠ [] := by
      intro hnil
      rw [hnil, length_nil] at hlo
      refine hfrag (hpiece.frag.trans ?_)
      rw [hnil, length_nil, if_neg (Nat.not_lt_zero _)]
      omega
    have hmarked : w.hdr.marked.key = h.key := hwkey
    obtain ⟨hlast, hmore⟩ := (hwait.mine.key hmarked).own hfs.pieces hpayload hw hfrag (hbrings.holds hpiece) hwait.room
      (hwkey ▸ hmem) hwait.sub ha.inTime
    rw [← hbrings.hdr] at hlast hmore
    rw [receive_frag (hbrings.hdr ▸ hfrag)]
    rw [receive_frag (hbrings.hdr ▸ hfrag)] at hroom
    have hback : h.key = a.hdr.marked.key := by
      rw [hbrings.hdr]
      exact hmarked.symm
    by_cases hnil : m.filter (·.hdr ≠ a.hdr) = []
    · obtain ⟨hmine, g, hg, hgpayload, hglen⟩ := hlast hnil
      refine ⟨⟨?_, hroom, hstill.1, hstill.2⟩, fun _ => ?_, fun _ _ _ => hrestiff.1 hnil⟩
      · have hmfs : stillMissing fs m a = fs := if_pos hnil
        rw [hmfs]
        exact hmine.key hback
      · rw [hg]
        exact ⟨_, rfl, hgpayload, hglen⟩
    obtain ⟨hmine, hout⟩ := hmore hnil
    refine ⟨⟨?_, hroom, hstill.1, hstill.2⟩, fun hall => absurd (hrestiff.2 hall) hnil, fun g hg => ?_⟩
    · have hmrest : stillMissing fs m a = m.filter (·.hdr ≠ a.hdr) := if_neg hnil
      rw [hmrest]
      exact hmine.key hback
    · rw [hout] at hg
      exact nomatch hg
  have hnot : ∀ v ∈ m, v.hdr ≠ a.hdr := fun v hv heq => by
    refine hother ?_
    rw [← heq, hfs.key (hwait.sub v hv), hkey]
  have hrest : m.filter (·.hdr ≠ a.hdr) = m := filter_eq_self.2 fun v hv => decide_eq_true (hnot v hv)
  have hsame : stillMissing fs m a = m := by
    unfold stillMissing
    rw [hrest, if_neg hwait.more]
  obtain ⟨hroom, hout⟩ := hwait.room.receive hknown
  refine ⟨⟨?_, hroom, hstill.1, hstill.2⟩, fun hall => absurd (hall w0 hw0) (hnot w0 hw0), fun g hg hgkey => ?_⟩
  · rw [hsame]
    by_cases hfrag : a.hdr.frag = 0
    · rw [receive_whole hfrag]
      exact hwait.mine
    · rw [receive_frag hfrag]
      have hmarked : a.hdr.marked.key = a.hdr.key := rfl
      exact hwait.mine.other hwait.room (hmarked ▸ hknown) (hmarked ▸ hother) ha.now
  · exact absurd ((hout g hg).symm.trans hgkey) hother

theorem Waiting.received (hwait : Waiting h fs t keys m ip) (hfs : Fragments d fs) (hkey : h.key = (d.src, d.dst, d.id))
    (hmem : h.key ∈ keys) (has : ∀ a ∈ as, Comes fs h.key keys t a) :
    Waiting h fs t keys (as.foldl (stillMissing fs) m) (ip.received as) := by
  induction as generalizing m ip with
  | nil => exact hwait
  | cons a as ih =>
    exact ih (hwait.receive hfs hkey hmem (has a mem_cons_self)).1 fun b hb => has b (mem_cons_of_mem _ hb)

theorem Room.init {size : Nat} (hsize : keys.length ≤ size) : Room keys (IP.init size) :=
  ⟨.nil, fun _ hf => (nomatch hf), hsize, fun _ hf => (nomatch hf)⟩

/-- A datagram gets to the end of its path, and what comes of its fragments there, in any order, is the datagram when
the last one of them comes that is missing, and nothing before. -/
theorem fragments_round_trip (medialen : Int) (path : List Int) (ttl tos id4 : Nat) (eh : Ip4hdr) (bp : List (List UInt8)) :
    (eh.frag &&& ipdf = 0 → ip4hdr + bp.flatten.length < ipmax → 28 ≤ medialen → (∀ m ∈ path, 28 ≤ m) → path.length ≤ ttl →
      ((ip4hdr + bp.flatten.length : Nat) ≤ medialen → bp.length ≤ 1) →
      ∃ ps fs, ipoput4 medialen false ttl tos id4 eh bp = .sent ps ∧ carry path ps = some fs) ∧
    ∀ ps fs, ipoput4 medialen false ttl tos id4 eh bp = .sent ps → carry path ps = some fs →
      ∀ size keys before as a t, (eh.src, eh.dst, id4 % 2 ^ 16) ∉ keys → keys.length < size →
        (∀ b ∈ before, b.hdr.key ∈ keys) → (∀ b ∈ as ++ [a], Comes fs (eh.src, eh.dst, id4 % 2 ^ 16) keys t b) →
        ((∀ v ∈ missing fs as, v.hdr = a.hdr) → ∃ g, (((IP.init size).received (before ++ as)).receive a).2 = some g ∧
          g.payload = bp.flatten ∧ g.hdr.length = ip4hdr + bp.flatten.length) ∧
        ∀ g, (((IP.init size).received (before ++ as)).receive a).2 = some g → g.hdr.key = (eh.src, eh.dst, id4 % 2 ^ 16) →
          ∀ v ∈ missing fs as, v.hdr = a.hdr := by
  have hid : id4 % 2 ^ 16 < 2 ^ 16 := Nat.mod_lt _ (by decide)
  refine ⟨fun hdf hlen hmin hpath httl hone => ?_, fun ps fs hsent hcarry size keys before as a t hnew hsize hbefore has => ?_⟩
  · let d : Source := ⟨eh.src, eh.dst, id4 % 2 ^ 16, bp.flatten, hid, by unfold ipmax at hlen; unfold ip4hdr at hlen ⊢; omega⟩
    obtain ⟨ps, hsent⟩ := @ipoput4_sends d eh bp medialen ttl tos id4 rfl rfl rfl rfl hdf (.inr hmin) hone
    obtain ⟨hpieces, -, hpsttl⟩ := @ipoput4_pieces d ps eh bp medialen ttl tos id4 rfl rfl rfl rfl hsent
    obtain ⟨fs, hfs⟩ := exists_carry hpieces hpath hpsttl httl
    exact ⟨ps, fs, hsent, hfs⟩
  have hlen : ¬ ip4hdr + bp.flatten.length ≥ ipmax := by
    intro hbig
    unfold ipoput4 at hsent
    simp only [Bool.false_eq_true, false_and, if_false, ← length_flatten] at hsent
    rw [if_pos hbig] at hsent
    exact nomatch hsent
  let d : Source := ⟨eh.src, eh.dst, id4 % 2 ^ 16, bp.flatten, hid, by unfold ipmax at hlen; unfold ip4hdr at hlen ⊢; omega⟩
  obtain ⟨hpieces, hone, -⟩ := @ipoput4_pieces d ps eh bp medialen ttl tos id4 rfl rfl rfl rfl hsent
  obtain ⟨hcarried, hcount⟩ := carry_pieces hpieces hcarry
  have hfs : Fragments d fs := ⟨hcarried, fun hnil => (hcount hnil).trans (hone hnil)⟩
  let h : Ip4hdr := { eh with id := id4 % 2 ^ 16 }
  have hkey : h.key = (d.src, d.dst, d.id) := rfl
  have hroom : Room (h.key :: keys) ((IP.init size).received before) :=
    (Room.init hsize).received fun b hb => mem_cons_of_mem _ (hbefore b hb)
  have hothers : Room keys ((IP.init size).received before) := (Room.init (Nat.le_of_lt hsize)).received hbefore
  have hnone : ((IP.init size).received before).flist.find? (·.isOf h) = none := by
    refine find?_eq_none.2 fun f hf hof => hnew ?_
    have hknown := hothers.known f hf
    rw [isOf_iff_key.1 hof] at hknown
    exact hknown
  have hmine : Mine h fs fs t ((IP.init size).received before) := by
    unfold Mine
    rw [hnone]
  have hwait : Waiting h fs t (h.key :: keys) fs ((IP.init size).received before) := ⟨hmine, hroom, hfs.ne_nil, fun v hv => hv⟩
  have hcomes : ∀ b ∈ as ++ [a], Comes fs h.key (h.key :: keys) t b := fun b hb => by
    obtain ⟨h1, h2, h3⟩ := has b hb
    exact ⟨h1, h2, h3.imp_right fun hother => ⟨hother.1, mem_cons_of_mem _ hother.2⟩⟩
  have hafter := hwait.received hfs hkey mem_cons_self fun b hb => hcomes b (mem_append_left _ hb)
  have hlast := hafter.receive hfs hkey mem_cons_self (hcomes a (mem_append_right _ (mem_singleton_self a)))
  rw [IP.received_append]
  exact hlast.2

/-- Twenty bytes in two blocks. -/
def twenty : List (List UInt8) := [[1, 2, 3, 4, 5, 6, 7, 8, 9, 10, 11], [12, 13, 14, 15, 16, 17, 18, 19, 20]]

def twentyHdr : Ip4hdr := ⟨ipver4hlen4, 0, 0, 0, 0, 0, 17, 0, 1, 2⟩

/-- The fragment of them at `off`, of 8 bytes at most. -/
def twentyFrag (off frag : Nat) : Packet :=
  ⟨Ip4hdr.summed ⟨ipver4hlen4, 0, min 8 (20 - off) + 20, 7, frag, 63, 17, 0, 1, 2⟩, (twenty.flatten.drop off).take 8⟩

/-- In a block with more memory. -/
def Packet.inBlock (w : Packet) (now : Nat) : Arrival := ⟨now, w.hdr, ⟨w.data ++ [0, 0], w.data.length⟩⟩

theorem Packet.inBlock_brings (w : Packet) (now : Nat) : (w.inBlock now).Brings w := ⟨rfl, rfl, take_left⟩

/-- Fragments of 16 and 4 bytes, the first of them cut in two; the last one comes first, and again. -/
theorem fragments_round_trip_twenty :
    ∃ g, (((IP.init 2).received ([] ++ [(twentyFrag 16 2).inBlock 5, (twentyFrag 0 ipmf).inBlock 6,
      (twentyFrag 16 2).inBlock 7])).receive ((twentyFrag 8 (ipmf + 1)).inBlock 8)).2 = some g ∧
      g.payload = twenty.flatten ∧ g.hdr.length = ip4hdr + twenty.flatten.length := by
  have hsent : ipoput4 36 false 64 0 7 twentyHdr twenty =
      .sent [⟨Ip4hdr.summed ⟨ipver4hlen4, 0, 36, 7, ipmf, 64, 17, 0, 1, 2⟩, twenty.flatten.take 16⟩,
        ⟨Ip4hdr.summed ⟨ipver4hlen4, 0, 24, 7, 2, 64, 17, 0, 1, 2⟩, twenty.flatten.drop 16⟩] := by rfl
  have hcarry : carry [28] [⟨Ip4hdr.summed ⟨ipver4hlen4, 0, 36, 7, ipmf, 64, 17, 0, 1, 2⟩, twenty.flatten.take 16⟩,
        ⟨Ip4hdr.summed ⟨ipver4hlen4, 0, 24, 7, 2, 64, 17, 0, 1, 2⟩, twenty.flatten.drop 16⟩] =
      some [twentyFrag 0 ipmf, twentyFrag 8 (ipmf + 1), twentyFrag 16 2] := by rfl
  have hcomes : ∀ w ∈ [twentyFrag 0 ipmf, twentyFrag 8 (ipmf + 1), twentyFrag 16 2], ∀ now ≤ 8,
      Comes [twentyFrag 0 ipmf, twentyFrag 8 (ipmf + 1), twentyFrag 16 2] (1, 2, 7) [] 8 (w.inBlock now) := fun w hw now hnow =>
    ⟨hnow, by change 8 ≤ (now + 30000) % 2 ^ 32; omega, .inl ⟨w, hw, w.inBlock_brings now⟩⟩
  refine ((fragments_round_trip 36 [28] 64 0 7 twentyHdr twenty).2 _ _ hsent hcarry 2 [] [] _ _ 8 not_mem_nil (by decide)
    (fun b hb => nomatch hb) fun b hb => ?_).1 (by decide +kernel)
  have hb' : b = (twentyFrag 16 2).inBlock 5 ∨ b = (twentyFrag 0 ipmf).inBlock 6 ∨ b = (twentyFrag 16 2).inBlock 7 ∨
      b = (twentyFrag 8 (ipmf + 1)).inBlock 8 := by simpa using hb
  rcases hb' with rfl | rfl | rfl | rfl
  · exact hcomes _ (by simp) 5 (by decide)
  · exact hcomes _ (by simp) 6 (by decide)
  · exact hcomes _ (by simp) 7 (by decide)
  · exact hcomes _ (by simp) 8 (by decide)

/-- After the first fragment the last one of a datagram of another protocol, with the addresses and the identification
of this one, is returned with it; and a queue made as the clock is about to wrap is freed by the next search for another. -/
theorem fragments_mixed :
    let w₁ : Packet := ⟨Ip4hdr.summed ⟨ipver4hlen4, 0, 36, 7, ipmf, 64, 17, 0, 1, 2⟩, twenty.flatten.take 16⟩
    let w₂ : Packet := ⟨Ip4hdr.summed ⟨ipver4hlen4, 0, 24, 7, 2, 64, 17, 0, 1, 2⟩, twenty.flatten.drop 16⟩
    let other : Packet := ⟨Ip4hdr.summed ⟨ipver4hlen4, 0, 24, 7, 2, 64, 6, 0, 1, 2⟩, [0, 0, 0, 0]⟩
    let third : Packet := ⟨Ip4hdr.summed ⟨ipver4hlen4, 0, 28, 3, ipmf, 64, 17, 0, 5, 2⟩, [0, 0, 0, 0, 0, 0, 0, 0]⟩
    ipoput4 36 false 64 0 7 twentyHdr twenty = .sent [w₁, w₂] ∧
    (∃ g, (((IP.init 2).received [w₁.inBlock 5]).receive (other.inBlock 6)).2 = some g ∧ g.hdr.proto = 17 ∧
      g.payload = twenty.flatten.take 16 ++ [0, 0, 0, 0] ∧ w₂ ∈ missing [w₁, w₂] [w₁.inBlock 5]) ∧
    (((IP.init 2).received [w₁.inBlock (2 ^ 32 - 9), third.inBlock (2 ^ 32 - 8)]).receive (w₂.inBlock (2 ^ 32 - 7))).2 = none ∧
    missing [w₁, w₂] [w₁.inBlock (2 ^ 32 - 9), third.inBlock (2 ^ 32 - 8)] = [w₂] :=
  ⟨by rfl, ⟨_, by rfl, by decide +kernel, by decide +kernel, by decide +kernel⟩, by decide +kernel, by decide +kernel⟩

end Plan9.Ip
