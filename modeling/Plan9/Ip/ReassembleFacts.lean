/-
What `ip4reassemble` makes of a queue.

A fragment on a queue is what is left of one that was received (`Part`). The
fragments of a queue lie one after the other, with nothing behind a last one
(`Queue`), as long as those that come are `Careful`: within 65535 bytes, not over
the end of the fragment with the beginning, and none behind a last one. A queue
that is complete is then the datagram, byte by byte (`Queue.assemble`).
-/
import Mathlib.Data.List.TakeWhile
import Plan9.Ip.Fragment

namespace Plan9.Ip

open List Option

/-! ## What is received -/

/-- A fragment as it is received. -/
structure Arrival where
  now : Nat
  hdr : Ip4hdr
  bp : Blk

namespace Arrival

def off (a : Arrival) : Nat := (a.hdr.frag <<< 3) % 2 ^ 16

def len (a : Arrival) : Nat := a.hdr.length - ip4hdr

def final (a : Arrival) : Bool := a.hdr.frag &&& ipmf == 0

def data (a : Arrival) : List UInt8 := a.bp.mem.take a.bp.len

/-- `ipiput4` has checked the length. -/
structure Wf (a : Arrival) : Prop where
  length : a.hdr.length = ip4hdr + a.bp.len
  short : a.hdr.length < 2 ^ 16
  lim : a.bp.len ≤ a.bp.mem.length

/-- The fragment as it comes to the queue. -/
def toFrag (a : Arrival) : Frag := ⟨a.hdr.marked, a.bp.mem, a.bp.len, a.off, a.len⟩

end Arrival

/-- Where a fragment on a queue ends. -/
def Frag.fend (q : Frag) : Nat := q.foff + q.flen

/-! ## Parts of fragments -/

/-- `q` is what is left of a fragment received; of a last one the end is there. -/
structure Part (a : Arrival) (q : Frag) : Prop where
  foff : a.off ≤ q.foff
  fend : q.fend ≤ a.off + a.len
  mem : q.mem = a.bp.mem.drop (q.foff - a.off)
  last : q.final = a.final
  whole : q.final = true → q.fend = a.off + a.len
  short : a.off + a.len ≤ 65535 - ip4hdr

/-- `q` is `p` without its beginning. -/
structure Cut (p q : Frag) : Prop where
  hdr : q.hdr = p.hdr
  foff : p.foff ≤ q.foff
  fend : q.fend = p.fend
  mem : q.mem = p.mem.drop (q.foff - p.foff)

variable {a : Arrival} {p q x y bp : Frag} {ls ls' blist : List Frag} {fend : Nat} {as : List Arrival}

theorem Cut.rfl : Cut q q := ⟨Eq.refl _, le_rfl, Eq.refl _, by rw [Nat.sub_self, drop_zero]⟩

theorem Cut.final (h : Cut p q) : q.final = p.final := by
  unfold Frag.final
  rw [h.hdr]

theorem Part.cut (hp : Part a p) (h : Cut p q) : Part a q := by
  refine ⟨Nat.le_trans hp.foff h.foff, h.fend ▸ hp.fend, ?_, h.final.trans hp.last, fun hq => ?_, hp.short⟩
  · rw [h.mem, hp.mem, drop_drop]
    congr 1
    have := hp.foff
    have := h.foff
    omega
  · rw [h.fend]
    exact hp.whole (h.final ▸ hq)

theorem Arrival.part (hshort : a.off + a.len ≤ 65535 - ip4hdr) : Part a a.toFrag := by
  refine ⟨le_rfl, le_rfl, ?_, rfl, fun _ => rfl, hshort⟩
  dsimp only [Arrival.toFrag]
  rw [Nat.sub_self, drop_zero]

/-! ## Queues -/

/-- The fragments of a list lie one after the other. -/
def Apart (ls : List Frag) : Prop := ls.Pairwise fun p q => p.fend ≤ q.foff

/-- What a fragment reaches over is gone from the ones after it. -/
theorem cover_spec (hls : Apart ls) (hfend : fend < 2 ^ 16) (hafter : ∀ q ∈ ls, q.fend < 2 ^ 16) :
    Apart (cover fend ls) ∧ ∀ q ∈ cover fend ls, fend ≤ q.foff ∧ ∃ p ∈ ls, Cut p q := by
  induction ls with
  | nil => exact ⟨.nil, fun q hq => (nomatch hq)⟩
  | cons l ls ih =>
    obtain ⟨hfirst, hrest⟩ := pairwise_cons.1 hls
    have hlater : ∀ q ∈ ls, fend ≤ l.fend → fend ≤ q.foff := fun q hq hle => Nat.le_trans hle (hfirst q hq)
    unfold cover
    by_cases hnone : (fend : Int) - l.foff ≤ 0
    · rw [if_pos hnone]
      refine ⟨hls, fun q hq => ⟨?_, q, hq, Cut.rfl⟩⟩
      rcases mem_cons.1 hq with rfl | hq
      · omega
      · exact hlater q hq (by unfold Frag.fend; omega)
    rw [if_neg hnone]
    by_cases hpart : (fend : Int) - l.foff < l.flen
    · rw [if_pos hpart]
      have hbound := hafter l mem_cons_self
      have hfoff : (l.foff + ((fend : Int) - l.foff).toNat) % 2 ^ 16 = fend := by
        omega
      have hend : fend + (l.flen - ((fend : Int) - l.foff).toNat) = l.foff + l.flen := by omega
      rw [hfoff]
      refine ⟨List.Pairwise.cons (fun q hq => ?_) hrest, fun q hq => ?_⟩
      · have := hfirst q hq
        unfold Frag.fend at this ⊢
        dsimp only
        omega
      rcases mem_cons.1 hq with rfl | hq
      · refine ⟨le_rfl, l, mem_cons_self, rfl, ?_, hend, ?_⟩
        · dsimp only
          omega
        · dsimp only
          congr 1
          omega
      · exact ⟨hlater q hq (by unfold Frag.fend; omega), q, mem_cons_of_mem _ hq, Cut.rfl⟩
    rw [if_neg hpart]
    obtain ⟨h1, h2⟩ := ih hrest fun q hq => hafter q (mem_cons_of_mem _ hq)
    refine ⟨h1, fun q hq => ?_⟩
    obtain ⟨hle, p, hp, hcut⟩ := h2 q hq
    exact ⟨hle, p, mem_cons_of_mem _ hp, hcut⟩

/-- The fragments of a queue, of those received. -/
structure Queue (as : List Arrival) (blist : List Frag) : Prop where
  apart : Apart blist
  part : ∀ q ∈ blist, ∃ a ∈ as, a.Wf ∧ Part a q
  last : ∀ q ∈ blist, q.final = true → ∀ x ∈ blist, x.fend ≤ q.fend
  /-- The fragment with the beginning has all of its bytes. -/
  first : ∀ q, blist.head? = some q → q.foff = 0 → q.hdr.length = ip4hdr + q.flen

theorem Queue.mono {as' : List Arrival} (h : Queue as blist) (hsub : ∀ a ∈ as, a ∈ as') : Queue as' blist :=
  ⟨h.apart, fun q hq => by
    obtain ⟨a, ha, hpart⟩ := h.part q hq
    exact ⟨a, hsub a ha, hpart⟩, h.last, h.first⟩

theorem Queue.fend_lt (h : Queue as blist) (hq : q ∈ blist) : q.fend ≤ 65535 - ip4hdr := by
  obtain ⟨a, -, -, hpart⟩ := h.part q hq
  exact Nat.le_trans hpart.fend hpart.short

/-- A fragment that its queue can take: it ends within the longest datagram, it does not reach over the end of the
fragment with the beginning from within, and no fragment is behind a last one. -/
structure Careful (blist : List Frag) (a : Arrival) : Prop where
  short : a.off + a.len ≤ 65535 - ip4hdr
  first : ∀ q, blist.head? = some q → q.foff = 0 → 0 < a.off → a.off < q.fend → a.off + a.len ≤ q.fend
  behind : a.final = true → ∀ q ∈ blist, q.fend ≤ a.off + a.len
  last : ∀ q ∈ blist, q.final = true → a.off + a.len ≤ q.fend

theorem exists_split (blist : List Frag) (off : Nat) :
    ∃ before after, blist = before ++ after ∧ blist.takeWhile (·.foff < off) = before ∧ blist.dropWhile (·.foff < off) = after ∧
      ∀ q ∈ before, q.foff < off := by
  refine ⟨_, _, takeWhile_append_dropWhile.symm, rfl, rfl, fun q hq => ?_⟩
  have htrue := mem_takeWhile_imp hq
  exact of_decide_eq_true htrue

theorem Queue.behind {before after : List Frag} (h : Queue as (before ++ after)) (hc : Careful (before ++ after) a) :
    Apart (a.toFrag :: cover (a.off + a.len) after) ∧
      ∀ q ∈ cover (a.off + a.len) after, a.off + a.len ≤ q.foff ∧ ∃ p ∈ after, Cut p q := by
  have hshort := hc.short
  obtain ⟨hapart, hcover⟩ := @cover_spec after (a.off + a.len) (h.apart.sublist (sublist_append_right _ _)) (by omega)
    fun q hq => Nat.lt_of_le_of_lt (h.fend_lt (mem_append_right _ hq)) (by decide)
  exact ⟨List.Pairwise.cons (fun q hq => (hcover q hq).1) hapart, hcover⟩

/-- `x` is of the old queue, less some of its beginning or its end, or is the new fragment. -/
def Left (blist : List Frag) (a : Arrival) (x : Frag) : Prop :=
  x = a.toFrag ∨ ∃ p ∈ blist, Cut p x ∨ p.final = false ∧ x.hdr = p.hdr ∧ x.foff = p.foff ∧ x.mem = p.mem ∧ x.fend ≤ p.fend

theorem Queue.left_part (h : Queue as blist) (ha : a.Wf) (hc : Careful blist a) (hx : Left blist a x) :
    ∃ b ∈ a :: as, b.Wf ∧ Part b x := by
  rcases hx with rfl | ⟨p, hp, hcut⟩
  · exact ⟨a, mem_cons_self, ha, a.part hc.short⟩
  obtain ⟨b, hb, hwf, hpart⟩ := h.part p hp
  refine ⟨b, mem_cons_of_mem _ hb, hwf, ?_⟩
  rcases hcut with hcut | ⟨hfinal, hhdr, hfoff, hmem, hfend⟩
  · exact hpart.cut hcut
  have hxfinal : x.final = false := by
    unfold Frag.final at hfinal ⊢
    rw [hhdr]
    exact hfinal
  exact ⟨hfoff ▸ hpart.foff, Nat.le_trans hfend hpart.fend, by rw [hmem, hpart.mem, hfoff], by rw [hxfinal, ← hfinal, hpart.last],
    fun hx => absurd (hxfinal.symm.trans hx) Bool.false_ne_true, hpart.short⟩

theorem Queue.left_last (h : Queue as blist) (hc : Careful blist a) (hq : Left blist a q) (hfinal : q.final = true)
    (hx : Left blist a x) : x.fend ≤ q.fend := by
  have hxle : ∀ n, a.off + a.len ≤ n → (∀ p ∈ blist, p.fend ≤ n) → x.fend ≤ n := by
    intro n h1 h2
    rcases hx with rfl | ⟨p, hp, hcut | ⟨-, -, -, -, hfend⟩⟩
    · exact h1
    · rw [hcut.fend]
      exact h2 p hp
    · exact Nat.le_trans hfend (h2 p hp)
  rcases hq with rfl | ⟨p, hp, hcut | ⟨hnot, hhdr, -⟩⟩
  · exact hxle _ le_rfl (hc.behind hfinal)
  · have hpfinal := hcut.final ▸ hfinal
    rw [hcut.fend]
    exact hxle _ (hc.last p hp hpfinal) (h.last p hp hpfinal)
  · unfold Frag.final at hfinal hnot
    rw [hhdr, hnot] at hfinal
    exact absurd hfinal Bool.false_ne_true

theorem Arrival.Wf.toFrag_length (ha : a.Wf) : a.toFrag.hdr.length = ip4hdr + a.toFrag.flen := by
  have hlength := ha.length
  have hhdr : a.toFrag.hdr.length = a.hdr.length := rfl
  have hlen : a.toFrag.flen = a.hdr.length - ip4hdr := rfl
  omega

theorem Queue.enqueue (h : Queue as blist) (ha : a.Wf) (hc : Careful blist a) {blist' : List Frag}
    (hen : Ip.enqueue a.toFrag blist = some blist') : Queue (a :: as) blist' := by
  obtain ⟨before, after, hsplit, htake, hdrop, hbefore⟩ := exists_split blist a.off
  have hoff : a.toFrag.foff = a.off := rfl
  have hlen : a.toFrag.flen = a.len := rfl
  unfold Ip.enqueue at hen
  rw [hoff, hlen, htake, hdrop] at hen
  subst hsplit
  obtain ⟨hapart, hcover⟩ := h.behind hc
  have hcoverleft : ∀ x ∈ cover (a.off + a.len) after, Left (before ++ after) a x := fun x hx => by
    obtain ⟨-, p, hp, hcut⟩ := hcover x hx
    exact .inr ⟨p, mem_append_right _ hp, .inl hcut⟩
  suffices hall : Apart blist' ∧ (∀ x ∈ blist', Left (before ++ after) a x) ∧
      ∀ q, blist'.head? = some q → q.foff = 0 → q.hdr.length = ip4hdr + q.flen by
    obtain ⟨h1, h2, h3⟩ := hall
    exact ⟨h1, fun q hq => h.left_part ha hc (h2 q hq), fun q hq hfinal x hx => h.left_last hc (h2 q hq) hfinal (h2 x hx), h3⟩
  have hself := ha.toFrag_length
  obtain ⟨hbeforeapart, -, -⟩ := pairwise_append.1 h.apart
  rcases eq_nil_or_concat before with rfl | ⟨front, prev, rfl⟩
  · cases hen
    refine ⟨hapart, fun x hx => ?_, fun q hq _ => ?_⟩
    · rcases mem_cons.1 hx with rfl | hx
      · exact .inl rfl
      · exact hcoverleft x hx
    · cases hq
      exact hself
  rw [concat_eq_append] at *
  obtain ⟨hfront, -, hfrontprev⟩ := pairwise_append.1 hbeforeapart
  have hprevfoff : prev.foff < a.off := hbefore prev (by simp)
  have hmem : ∀ x ∈ front ++ [prev], x ∈ (front ++ [prev]) ++ after := fun x hx => mem_append_left _ hx
  have hprevmem : prev ∈ (front ++ [prev]) ++ after := hmem prev (by simp)
  have hrest : ∀ x ∈ a.toFrag :: cover (a.off + a.len) after, a.off ≤ x.foff := by
    intro x hx
    rcases mem_cons.1 hx with rfl | hx
    · exact le_rfl
    · exact Nat.le_trans (Nat.le_add_right _ _) (hcover x hx).1
  have hrestleft : ∀ x ∈ a.toFrag :: cover (a.off + a.len) after, Left ((front ++ [prev]) ++ after) a x := by
    intro x hx
    rcases mem_cons.1 hx with rfl | hx
    · exact .inl rfl
    · exact hcoverleft x hx
  have hfrontleft : ∀ x ∈ front, Left ((front ++ [prev]) ++ after) a x := fun x hx =>
    .inr ⟨x, hmem x (mem_append_left _ hx), .inl Cut.rfl⟩
  -- the list, with what becomes of `prev`
  have hput : ∀ prev' : Frag, prev'.foff = prev.foff → prev'.fend ≤ a.off →
      Apart (front ++ prev' :: a.toFrag :: cover (a.off + a.len) after) := by
    intro prev' hfoff hfend
    refine pairwise_append.2 ⟨hfront, List.Pairwise.cons (fun x hx => Nat.le_trans hfend (hrest x hx)) hapart,
      fun p hp x hx => ?_⟩
    have hle := hfrontprev p hp prev (mem_singleton_self _)
    rcases mem_cons.1 hx with rfl | hx
    · rw [hfoff]
      exact hle
    · have := hrest x hx
      omega
  dsimp only at hen
  rw [getLast?_concat] at hen
  dsimp only at hen
  rw [dropLast_concat] at hen
  by_cases hov : (prev.foff : Int) + prev.flen - a.off > 0
  · rw [if_pos hov] at hen
    by_cases hall : (prev.foff : Int) + prev.flen - a.off ≥ a.len
    · rw [if_pos hall] at hen
      exact nomatch hen
    rw [if_neg hall] at hen
    cases hen
    have hover : ¬ a.off + a.len ≤ prev.fend := by
      unfold Frag.fend
      omega
    have hnotlast : prev.final = false := by
      by_contra hlast
      exact hover (hc.last prev hprevmem (Bool.not_eq_false _ ▸ hlast))
    refine ⟨hput _ rfl ?_, fun x hx => ?_, fun q hq hq0 => ?_⟩
    · unfold Frag.fend
      dsimp only
      omega
    · rcases mem_append.1 hx with hx | hx
      · exact hfrontleft x hx
      rcases mem_cons.1 hx with rfl | hx
      · refine .inr ⟨prev, hprevmem, .inr ⟨hnotlast, rfl, rfl, rfl, ?_⟩⟩
        unfold Frag.fend
        dsimp only
        omega
      · exact hrestleft x hx
    cases front with
    | nil =>
      cases hq
      refine absurd (hc.first prev rfl hq0 (by omega) ?_) hover
      unfold Frag.fend
      omega
    | cons f front => exact h.first q hq hq0
  rw [if_neg hov] at hen
  cases hen
  rw [append_assoc, singleton_append]
  refine ⟨hput prev rfl ?_, fun x hx => ?_, fun q hq hq0 => ?_⟩
  · unfold Frag.fend
    omega
  · rcases mem_append.1 hx with hx | hx
    · exact hfrontleft x hx
    · rcases mem_cons.1 hx with rfl | hx
      · exact .inr ⟨_, hprevmem, .inl Cut.rfl⟩
      · exact hrestleft x hx
  cases front with
  | nil =>
    cases hq
    exact h.first prev rfl hq0
  | cons f front => exact h.first q hq hq0

/-! ## A complete queue -/

/-- The bytes of the fragments of a list, one after the other. -/
def contents (ls : List Frag) : List UInt8 := ls.flatMap fun q => q.mem.take q.flen

theorem complete_split {pos : Nat} {ls : List Frag} (h : complete pos ls = true) :
    ∃ pre last post, ls = pre ++ last :: post ∧ last.final = true ∧ (∀ q ∈ pre, q.final = false) ∧
      last.foff = pos + (pre.map Frag.flen).sum ∧ ∀ l r q, pre = l ++ q :: r → q.foff = pos + (l.map Frag.flen).sum := by
  induction ls generalizing pos with
  | nil => exact nomatch h
  | cons bl bls ih =>
    unfold complete at h
    by_cases hoff : bl.foff = pos
    · rw [if_neg (not_not_intro hoff)] at h
      by_cases hlast : bl.final = true
      · refine ⟨[], bl, bls, rfl, hlast, fun q hq => (nomatch hq), by simpa using hoff, fun l r q hl => ?_⟩
        exact absurd hl.symm (by simp)
      rw [if_neg hlast] at h
      obtain ⟨pre, last, post, rfl, hfinal, hnot, hfoff, hpre⟩ := ih h
      refine ⟨bl :: pre, last, post, rfl, hfinal, fun q hq => ?_, ?_, fun l r q hl => ?_⟩
      · rcases mem_cons.1 hq with rfl | hq
        · exact Bool.eq_false_iff.2 hlast
        · exact hnot q hq
      · rw [hfoff, map_cons, sum_cons, Nat.add_assoc]
      cases l with
      | nil =>
        cases hl
        simpa using hoff
      | cons b l =>
        obtain ⟨rfl, hrest⟩ := cons.inj hl
        rw [hpre l r q hrest, map_cons, sum_cons, Nat.add_assoc]
    · rw [if_pos hoff] at h
      exact nomatch h

theorem contents_at {pos : Nat} {ls : List Frag} (hmem : ∀ q ∈ ls, q.flen ≤ q.mem.length)
    (hfoff : ∀ l r q, ls = l ++ q :: r → q.foff = pos + (l.map Frag.flen).sum) :
    (contents ls).length = (ls.map Frag.flen).sum ∧
      ∀ i b, (contents ls)[i]? = some b → ∃ q ∈ ls, q.foff ≤ pos + i ∧ pos + i < q.fend ∧ q.mem[pos + i - q.foff]? = some b := by
  induction ls generalizing pos with
  | nil => exact ⟨rfl, fun i b h => (nomatch h)⟩
  | cons bl bls ih =>
    have hbl : bl.foff = pos := by simpa using hfoff [] bls bl rfl
    have hlen : (bl.mem.take bl.flen).length = bl.flen := length_take_of_le (hmem bl mem_cons_self)
    obtain ⟨h1, h2⟩ := @ih (pos + bl.flen) (fun q hq => hmem q (mem_cons_of_mem _ hq)) fun l r q hl => by
      rw [hfoff (bl :: l) r q (by rw [hl]; rfl), map_cons, sum_cons, Nat.add_assoc]
    have hcons : contents (bl :: bls) = bl.mem.take bl.flen ++ contents bls := rfl
    refine ⟨?_, fun i b hb => ?_⟩
    · rw [hcons, length_append, hlen, h1, map_cons, sum_cons]
    rw [hcons] at hb
    by_cases hi : i < bl.flen
    · rw [getElem?_append_left (by rw [hlen]; exact hi), getElem?_take_of_lt hi] at hb
      refine ⟨bl, mem_cons_self, by omega, by unfold Frag.fend; omega, ?_⟩
      rw [← hb]
      congr 1
      omega
    rw [getElem?_append_right (by rw [hlen]; omega), hlen] at hb
    obtain ⟨q, hq, hlo, hhi, hget⟩ := h2 (i - bl.flen) b hb
    have heq : pos + bl.flen + (i - bl.flen) = pos + i := by omega
    rw [heq] at hlo hhi hget
    exact ⟨q, mem_cons_of_mem _ hq, hlo, hhi, hget⟩

/-- What is returned is the datagram of the fragments received: it ends where a last one of them does, every byte is
one that a fragment has in its place, and the lengths are right. -/
structure Faithful (as : List Arrival) (d : Datagram) : Prop where
  last : ∃ a ∈ as, a.final = true ∧ a.off + a.len = d.payload.length
  short : d.payload.length ≤ 65535 - ip4hdr
  byte : ∀ i b, d.payload[i]? = some b → ∃ a ∈ as, a.off ≤ i ∧ i < a.off + a.len ∧ a.data[i - a.off]? = some b
  length : d.hdr.length = ip4hdr + d.payload.length
  lim : ∀ b ∈ d.blocks, b.len ≤ b.mem.length

theorem Part.flen_le (h : Part a q) (ha : a.Wf) : q.flen ≤ q.mem.length := by
  have h1 := h.fend
  have h2 := h.foff
  have h3 := ha.lim
  have h4 := ha.length
  rw [h.mem, length_drop]
  unfold Frag.fend at h1
  unfold Arrival.len at h1
  omega

theorem Queue.assemble_payload {bl : Frag} {bls : List Frag} (hfirst : bl.hdr.length = ip4hdr + bl.flen) {d : Datagram}
    (hd : Ip.assemble (bl :: bls) = some d) :
    d.payload = contents (bl :: bls) ∧ d.hdr.length = (ip4hdr + ((bl :: bls).map Frag.flen).sum) % 2 ^ 16 ∧
      ∀ b ∈ d.blocks, ∃ q ∈ bl :: bls, b.mem = q.mem ∧ b.len = q.flen := by
  cases hd
  have hlen : bl.hdr.length - ip4hdr = bl.flen := by omega
  refine ⟨?_, ?_, fun b hb => ?_⟩
  · unfold Datagram.payload contents
    rw [hlen, flatMap_cons, flatMap_cons, flatMap_map]
  · rw [hfirst, map_cons, sum_cons, Nat.add_assoc]
  rcases mem_cons.1 hb with rfl | hb
  · exact ⟨bl, mem_cons_self, rfl, hlen⟩
  · obtain ⟨q, hq, rfl⟩ := mem_map.1 hb
    exact ⟨q, mem_cons_of_mem _ hq, rfl, rfl⟩

theorem Queue.post_empty {pre post : List Frag} {last : Frag} (h : Queue as (pre ++ last :: post)) (hlast : last.final = true) :
    ∀ q ∈ post, q.flen = 0 := by
  intro q hq
  have hmem : q ∈ pre ++ last :: post := mem_append_right _ (mem_cons_of_mem _ hq)
  have hle := h.last last (mem_append_right _ mem_cons_self) hlast q hmem
  obtain ⟨-, happ, -⟩ := pairwise_append.1 h.apart
  have hge := (pairwise_cons.1 happ).1 q hq
  unfold Frag.fend at hle hge
  omega

/-- A complete queue is the datagram. -/
theorem Queue.assemble (h : Queue as blist) (hcomplete : complete 0 blist = true) :
    ∃ d, Ip.assemble blist = some d ∧ Faithful as d := by
  obtain ⟨pre, last, post, rfl, hfinal, -, hfoff, hpre⟩ := complete_split hcomplete
  have hempty := h.post_empty hfinal
  have hparts : ∀ q ∈ pre ++ last :: post, ∃ a ∈ as, a.Wf ∧ Part a q := h.part
  have hmemlen : ∀ q ∈ pre ++ [last], q.flen ≤ q.mem.length := fun q hq => by
    obtain ⟨a, -, hwf, hpart⟩ := hparts q (by
      rw [append_cons]
      exact mem_append_left _ hq)
    exact hpart.flen_le hwf
  have hplace : ∀ l r q, pre ++ [last] = l ++ q :: r → q.foff = 0 + (l.map Frag.flen).sum := by
    intro l r q hl
    rcases eq_nil_or_concat r with rfl | ⟨r, z, rfl⟩
    · obtain ⟨rfl, hq⟩ := append_inj' hl rfl
      obtain rfl := singleton_inj.1 hq
      exact hfoff
    · rw [concat_eq_append, ← cons_append, ← append_assoc] at hl
      exact hpre l r q (append_inj' hl rfl).1
  obtain ⟨hlength, hbyte⟩ := contents_at hmemlen hplace
  -- what comes after the last fragment adds nothing
  have hpost : contents post = [] ∧ (post.map Frag.flen).sum = 0 := by
    constructor
    · refine flatMap_eq_nil_iff.2 fun q hq => ?_
      rw [hempty q hq, take_zero]
    · refine List.sum_eq_zero_iff_forall_eq_nat.2 fun n hn => ?_
      obtain ⟨q, hq, rfl⟩ := mem_map.1 hn
      exact hempty q hq
  have hcontents : contents (pre ++ last :: post) = contents (pre ++ [last]) := by
    rw [append_cons]
    unfold contents
    rw [flatMap_append]
    exact (congrArg _ hpost.1).trans (append_nil _)
  have hsum : ((pre ++ last :: post).map Frag.flen).sum = ((pre ++ [last]).map Frag.flen).sum := by
    rw [append_cons, map_append, sum_append, hpost.2, Nat.add_zero]
  have hend : (contents (pre ++ [last])).length = last.fend := by
    rw [hlength, map_append, sum_append, Frag.fend, hfoff]
    simp
  obtain ⟨a, ha, hwf, hpart⟩ := hparts last (mem_append_right _ mem_cons_self)
  have hshort := h.fend_lt (mem_append_right pre (mem_cons_self (l := post)))
  -- the first fragment has offset 0
  obtain ⟨bl, bls, hlist⟩ := exists_cons_of_ne_nil (append_ne_nil_of_right_ne_nil pre (cons_ne_nil last post))
  have hfirst : bl.hdr.length = ip4hdr + bl.flen := by
    refine h.first bl (by rw [hlist]; rfl) ?_
    cases pre with
    | nil =>
      cases hlist
      simpa using hfoff
    | cons q pre =>
      obtain ⟨rfl, -⟩ := List.cons.inj hlist
      simpa using hpre [] pre q rfl
  obtain ⟨d, hd⟩ : ∃ d, Ip.assemble (bl :: bls) = some d := ⟨_, rfl⟩
  obtain ⟨hpayload, hhdr, hblocks⟩ := Queue.assemble_payload hfirst hd
  rw [← hlist] at hd hpayload hhdr hblocks
  rw [hcontents] at hpayload
  refine ⟨d, hd, ⟨a, ha, ?_, ?_⟩, ?_, fun i b hb => ?_, ?_, fun b hb => ?_⟩
  · rw [← hpart.last]
    exact hfinal
  · rw [hpayload, hend, hpart.whole hfinal]
  · rw [hpayload, hend]
    exact hshort
  · rw [hpayload] at hb
    obtain ⟨q, hq, hlo, hhi, hget⟩ := hbyte i b hb
    obtain ⟨c, hc, hcwf, hcpart⟩ := hparts q (by
      rw [append_cons]
      exact mem_append_left _ hq)
    have h1 := hcpart.foff
    have h2 := hcpart.fend
    have h3 := hcwf.length
    refine ⟨c, hc, by omega, by omega, ?_⟩
    rw [hcpart.mem, getElem?_drop] at hget
    unfold Arrival.data
    rw [getElem?_take_of_lt (by unfold Arrival.len at h2; omega), ← hget]
    congr 1
    omega
  · rw [hhdr, hsum, ← hlength, hpayload]
    have hbound : (contents (pre ++ [last])).length ≤ 65535 - ip4hdr := hend ▸ hshort
    unfold ip4hdr at hbound ⊢
    exact Nat.mod_eq_of_lt (by omega)
  obtain ⟨q, hq, hbmem, hblen⟩ := hblocks b hb
  obtain ⟨c, -, hcwf, hcpart⟩ := hparts q hq
  rw [hbmem, hblen]
  exact hcpart.flen_le hcwf

end Plan9.Ip
