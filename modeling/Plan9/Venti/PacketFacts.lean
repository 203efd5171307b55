/-
The packets as byte strings: what each function of `packet.c` makes of the contents of the
packets, and what stays true of the records (`Inv`).

While data is added to a packet its size runs ahead of its fragments; `owed` is by how
much. Adding changes a memory in place only where one fragment points into it, so the
bytes of the other fragments stay.
-/
import Plan9.Venti.PacketWalks
import Mathlib.Data.List.Perm.Subperm

namespace Plan9.Venti.Packets

open Chain CInt Function List

/-! ## The invariant -/

def State.Live (s : State) (p : Nat) : Prop := p < s.npacket ∧ 0 ≤ (s.packet p).size

instance (s : State) (p : Nat) : Decidable (s.Live p) := inferInstanceAs (Decidable (_ ∧ _))

/-- `chain p` are the fragments of the packet `p`, and the size of `p` is what they have and `owed p`. -/
structure Inv (s : State) (l : List FragId) (chain : Nat → List FragId) (owed : Nat → Int) : Prop where
  heap : HeapInv s.heap l
  queue : ∀ p, s.Live p → IsQueue s.heap.next (s.packet p).first (s.packet p).last (chain p)
  dead : ∀ p, ¬ s.Live p → chain p = []
  used : ∀ p, ∀ f ∈ chain p, s.heap.Used l f
  disj : ∀ p q f, f ∈ chain p → f ∈ chain q → p = q
  size : ∀ p, s.Live p → (s.packet p).size = total s.heap (chain p) + owed p
  limit : ∀ p, s.Live p → (s.packet p).size < 2 ^ 31
  own : ∀ p i, s.heap.Used l (.loc p i) → p < s.npacket
  poolNodup : s.freePacket.Nodup
  pool : ∀ p ∈ s.freePacket, p < s.npacket ∧ (s.packet p).size = -1

variable {p : Nat} {f : FragId}

section

variable {s s' : State} {l l' : List FragId} {chain chain' : Nat → List FragId} {owed owed' : Nat → Int}

theorem Inv.nodup (hinv : Inv s l chain owed) (p : Nat) : (chain p).Nodup := by
  by_cases hp : s.Live p
  · exact (hinv.queue p hp).nodup
  · rw [hinv.dead p hp]
    exact nodup_nil

theorem Inv.rebuild (hinv : Inv s l chain owed) (P : Nat → Prop) (hheap : HeapInv s'.heap l')
    (hnp : s'.npacket = s.npacket) (hpool : s'.freePacket = s.freePacket) (hP : ∀ q, P q → s.Live q)
    (hpk : ∀ q, ¬ P q → s'.packet q = s.packet q) (howed : ∀ q, ¬ P q → owed' q = owed q)
    (hkeep : ∀ q, ¬ P q → chain' q = chain q ∧ ∀ f ∈ chain q, s'.heap.Used l' f ∧ s'.heap.frag f = s.heap.frag f)
    (hnew : ∀ q, P q → IsQueue s'.heap.next (s'.packet q).first (s'.packet q).last (chain' q) ∧
      (∀ f ∈ chain' q, s'.heap.Used l' f) ∧ (s'.packet q).size = total s'.heap (chain' q) + owed' q ∧
      0 ≤ (s'.packet q).size ∧ (s'.packet q).size < 2 ^ 31)
    (hdisj : ∀ q r f, P q → f ∈ chain' q → f ∈ chain' r → q = r)
    (hown : ∀ q i, s'.heap.Used l' (.loc q i) → q < s.npacket) : Inv s' l' chain' owed' := by
  have hlive : ∀ q, s'.Live q ↔ s.Live q := by
    intro q
    by_cases hq : P q
    · exact iff_of_true ⟨hnp ▸ (hP q hq).1, (hnew q hq).2.2.2.1⟩ (hP q hq)
    · rw [State.Live, State.Live, hnp, hpk q hq]
  refine { heap := hheap, queue := ?_, dead := ?_, used := ?_, disj := ?_, size := ?_, limit := ?_, own := ?_,
           poolNodup := hpool ▸ hinv.poolNodup, pool := ?_ }
  · intro q hq
    by_cases hPq : P q
    · exact (hnew q hPq).1
    · obtain ⟨heq, hsame⟩ := hkeep q hPq
      rw [hpk q hPq, heq]
      exact (hinv.queue q ((hlive q).1 hq)).congr fun f hf => congrArg Frag.next (hsame f hf).2
  · intro q hq
    have hPq : ¬ P q := fun h => hq ((hlive q).2 (hP q h))
    rw [(hkeep q hPq).1]
    exact hinv.dead q fun h => hq ((hlive q).2 h)
  · intro q f hf
    by_cases hPq : P q
    · exact (hnew q hPq).2.1 f hf
    · rw [(hkeep q hPq).1] at hf
      exact ((hkeep q hPq).2 f hf).1
  · intro q r f hq hr
    by_cases hPq : P q
    · exact hdisj q r f hPq hq hr
    by_cases hPr : P r
    · exact (hdisj r q f hPr hr hq).symm
    · rw [(hkeep q hPq).1] at hq
      rw [(hkeep r hPr).1] at hr
      exact hinv.disj q r f hq hr
  · intro q hq
    by_cases hPq : P q
    · exact (hnew q hPq).2.2.1
    · rw [hpk q hPq, (hkeep q hPq).1, howed q hPq, total_congr fun f hf => ((hkeep q hPq).2 f hf).2]
      exact hinv.size q ((hlive q).1 hq)
  · intro q hq
    by_cases hPq : P q
    · exact (hnew q hPq).2.2.2.2
    · rw [hpk q hPq]
      exact hinv.limit q ((hlive q).1 hq)
  · intro q i hu
    rw [hnp]
    exact hown q i hu
  intro q hq
  rw [hpool] at hq
  obtain ⟨hlt, hsize⟩ := hinv.pool q hq
  have hPq : ¬ P q := fun h => by
    have := (hP q h).2
    omega
  rw [hnp, hpk q hPq]
  exact ⟨hlt, hsize⟩

/-! ## Contents -/

/-- The fragments of a packet, along the pointers. -/
def chainOf (s : State) (p : Nat) : List FragId := toList s.heap.next s.rounds (s.packet p).first

/-- The bytes of the packets that are not free. -/
def contents (s : State) (p : Nat) : Option (List UInt8) :=
  if p < s.npacket ∧ 0 ≤ (s.packet p).size then some (content s.heap (chainOf s p)) else none

theorem Inv.length_chain (hinv : Inv s l chain owed) (p : Nat) : (chain p).length < s.rounds := by
  let all : List FragId := ((range s.npacket).flatMap fun q => [.loc q 0, .loc q 1]) ++
    (range s.heap.nfrag).map .glob
  have hsub : chain p ⊆ all := by
    intro f hf
    have hu := hinv.used p f hf
    rw [mem_append]
    cases f with
    | loc q i =>
      have hi := hinv.heap.locIdx q i hu
      refine .inl (mem_flatMap.2 ⟨q, mem_range.2 (hinv.own q i hu), ?_⟩)
      obtain rfl | rfl : i = 0 ∨ i = 1 := by omega
      · simp
      · simp
    | glob k => exact .inr (mem_map.2 ⟨k, mem_range.2 hu.1, rfl⟩)
  have hlen : all.length = 2 * s.npacket + s.heap.nfrag := by
    simp [all, length_flatMap]
    omega
  have := (subperm_of_subset (hinv.nodup p) hsub).length_le
  rw [State.rounds]
  omega

theorem Inv.chainOf_eq (hinv : Inv s l chain owed) (hp : s.Live p) : chainOf s p = chain p :=
  (hinv.queue p hp).linked.toList_eq (Nat.le_of_lt (hinv.length_chain p))

theorem Inv.contents_live (hinv : Inv s l chain owed) (hp : s.Live p) :
    contents s p = some (content s.heap (chain p)) := by
  rw [← hinv.chainOf_eq hp]
  exact if_pos hp

theorem contents_dead (hp : ¬ s.Live p) : contents s p = none := if_neg hp

theorem contents_isSome {x : List UInt8} (h : contents s p = some x) : s.Live p := by
  by_contra hp
  rw [contents_dead hp] at h
  exact nomatch h

end

/-! ## What a call does to the fragments -/

/-- Destructors stay, a fragment that is used stays with its memory, those of `freed` may be given back, and a new one has a
memory if all the old ones have. -/
structure Effect (h : Heap) (l : List FragId) (h' : Heap) (l' : List FragId) (freed : List FragId) : Prop where
  stale : ∀ g, (h'.frag g).free = (h.frag g).free ∧ (h'.frag g).a = (h.frag g).a
  keep : ∀ g, h.Used l g → h'.Used l' g → (h'.frag g).mem = (h.frag g).mem
  gone : ∀ g, h.Used l g → ¬ h'.Used l' g → g ∈ freed
  born : ∀ g, ¬ h.Used l g → h'.Used l' g → (h'.frag g).mem = none → ∃ f, h.Used l f ∧ (h.frag f).mem = none

section

variable {h h1 h' : Heap} {l l1 l' : List FragId}

theorem Effect.refl (h : Heap) (l freed : List FragId) : Effect h l h l freed :=
  ⟨fun _ => ⟨rfl, rfl⟩, fun _ _ _ => rfl, fun _ hu hn => absurd hu hn, fun _ hn hu => absurd hu hn⟩

theorem Effect.trans {freed : List FragId} (e1 : Effect h l h1 l1 []) (e2 : Effect h1 l1 h' l' freed) :
    Effect h l h' l' freed := by
  have hused : ∀ g, h.Used l g → h1.Used l1 g := fun g hg => by
    by_contra hn
    exact absurd (e1.gone g hg hn) (by simp)
  refine ⟨fun g => ⟨(e2.stale g).1.trans (e1.stale g).1, (e2.stale g).2.trans (e1.stale g).2⟩, ?_, ?_, ?_⟩
  · exact fun g hg hg' => (e2.keep g (hused g hg) hg').trans (e1.keep g hg (hused g hg))
  · exact fun g hg hn => e2.gone g (hused g hg) hn
  intro g hn hg' hnone
  by_cases hg1 : h1.Used l1 g
  · exact e1.born g hn hg1 ((e2.keep g hg1 hg').symm.trans hnone)
  obtain ⟨f, hf1, hf⟩ := e2.born g hg1 hg' hnone
  by_cases hf0 : h.Used l f
  · exact ⟨f, hf0, (e1.keep f hf0 hf1).symm.trans hf⟩
  · exact e1.born f hf0 hf1 hf

theorem Grown.effect (hg : Grown h l p f h' l')
    (hmem : (h'.frag f).mem = none → ∃ g, h.Used l g ∧ (h.frag g).mem = none) : Effect h l h' l' [] := by
  refine ⟨fun g => ?_, fun g hu _ => ?_, fun g hu hn => absurd ((hg.used g).2 (.inr hu)) hn, fun g hn hu hnone => ?_⟩
  · by_cases heq : g = f
    · rw [heq]
      exact hg.stale
    · rw [hg.same g heq]
      exact ⟨rfl, rfl⟩
  · rw [hg.same g fun heq => hg.fresh (heq ▸ hu)]
  · obtain rfl := ((hg.used g).1 hu).resolve_right hn
    exact hmem hnone

/-- The records are the same but for where they point to and what follows them. -/
structure SameRec (h h' : Heap) : Prop where
  state : ∀ g, (h'.frag g).state = (h.frag g).state
  mem : ∀ g, (h'.frag g).mem = (h.frag g).mem
  stale : ∀ g, (h'.frag g).free = (h.frag g).free ∧ (h'.frag g).a = (h.frag g).a
  nfrag : h'.nfrag = h.nfrag

theorem SameRec.used (hs : SameRec h h') (g : FragId) : h'.Used l g ↔ h.Used l g := Heap.used_congr (hs.state g) hs.nfrag

theorem SameRec.effect (hs : SameRec h h') (l : List FragId) : Effect h l h' l [] :=
  ⟨hs.stale, fun g _ _ => hs.mem g, fun g hu hn => absurd ((hs.used g).2 hu) hn,
    fun g hn hu => absurd ((hs.used g).1 hu) hn⟩

theorem sameRec_setFrag {r : Frag} (hstate : r.state = (h.frag f).state) (hmem : r.mem = (h.frag f).mem)
    (hfree : r.free = (h.frag f).free) (ha : r.a = (h.frag f).a) : SameRec h (h.setFrag f r) := by
  have hall : ∀ g, ((h.setFrag f r).frag g).state = (h.frag g).state ∧ ((h.setFrag f r).frag g).mem = (h.frag g).mem ∧
      ((h.setFrag f r).frag g).free = (h.frag g).free ∧ ((h.setFrag f r).frag g).a = (h.frag g).a := by
    intro g
    by_cases hg : g = f
    · rw [hg, setFrag_frag_self]
      exact ⟨hstate, hmem, hfree, ha⟩
    · rw [setFrag_frag_of_ne _ hg]
      exact ⟨rfl, rfl, rfl, rfl⟩
  exact ⟨fun g => (hall g).1, fun g => (hall g).2.1, fun g => (hall g).2.2, rfl⟩

end

/-! ## Adding a fragment -/

section

variable {s s' : State} {l l' : List FragId} {chain chain' : Nat → List FragId} {owed owed' : Nat → Int}

theorem Inv.grow (hinv : Inv s l chain owed) {h' : Heap} (hp : p < s.npacket)
    (hheap : HeapInv h' l') (hg : Grown s.heap l p f h' l') :
    Inv { s with heap := h' } l' chain owed ∧ h'.Used l' f ∧ ∀ q, f ∉ chain q := by
  have hnot : ∀ q, f ∉ chain q := fun q hq => hg.fresh (hinv.used q f hq)
  refine ⟨hinv.rebuild (fun _ => False) hheap rfl rfl (fun _ h => h.elim) (fun _ _ => rfl) (fun _ _ => rfl) ?_
    (fun _ h => h.elim) (fun _ _ _ h => h.elim) ?_, (hg.used f).2 (.inl rfl), hnot⟩
  · refine fun q _ => ⟨rfl, fun g hgq => ⟨(hg.used g).2 (.inr (hinv.used q g hgq)), hg.same g ?_⟩⟩
    rintro rfl
    exact hnot q hgq
  intro q i hu
  rcases (hg.used _).1 hu with heq | hu
  · rw [hg.own q i heq.symm]
    exact hp
  · exact hinv.own q i hu

theorem next_setFrag (h : Heap) (f : FragId) (r : Frag) : (h.setFrag f r).next = update h.next f r.next := by
  funext g
  by_cases hg : g = f
  · rw [hg, Heap.next, setFrag_frag_self, update_self]
  · rw [Heap.next, setFrag_frag_of_ne _ hg, update_of_ne hg, Heap.next]

theorem Inv.change (hinv : Inv s l chain owed) {c : List FragId} {d : Int} (hp : s.Live p) (hheap : HeapInv s'.heap l')
    (hnp : s'.npacket = s.npacket) (hpool : s'.freePacket = s.freePacket) (hpk : ∀ q, q ≠ p → s'.packet q = s.packet q)
    (hkeep : ∀ q, q ≠ p → ∀ f ∈ chain q, s'.heap.Used l' f ∧ s'.heap.frag f = s.heap.frag f)
    (hqueue : IsQueue s'.heap.next (s'.packet p).first (s'.packet p).last c) (hused : ∀ f ∈ c, s'.heap.Used l' f)
    (hnot : ∀ f ∈ c, ∀ q, q ≠ p → f ∉ chain q) (hsize : (s'.packet p).size = total s'.heap c + d)
    (hpos : 0 ≤ (s'.packet p).size) (hlt : (s'.packet p).size < 2 ^ 31)
    (hown : ∀ q i, s'.heap.Used l' (.loc q i) → q < s.npacket) :
    Inv s' l' (update chain p c) (update owed p d) := by
  refine hinv.rebuild (· = p) hheap hnp hpool (fun q h => h ▸ hp) hpk (fun q hq => update_of_ne hq ..) ?_ ?_ ?_ hown
  · exact fun q hq => ⟨update_of_ne hq .., hkeep q hq⟩
  · rintro q rfl
    rw [update_self, update_self]
    exact ⟨hqueue, hused, hsize, hpos, hlt⟩
  rintro q r f rfl hf hr
  rw [update_self] at hf
  by_contra hne
  rw [update_of_ne (Ne.symm hne)] at hr
  exact hnot f hf r (Ne.symm hne) hr

theorem link_none (hfirst : (s.packet p).first = none) :
    s.link p f = .ok (s.setPacket p { s.packet p with first := some f, last := some f }) := by
  unfold State.link
  dsimp only
  rw [hfirst]
  rfl

theorem link_some {first last : FragId} (hfirst : (s.packet p).first = some first)
    (hlast : (s.packet p).last = some last) :
    s.link p f = .ok ({ s with heap := s.heap.setFrag last { s.heap.frag last with next := some f } }.setPacket p
      { s.packet p with last := some f }) := by
  unfold State.link
  dsimp only
  rw [hfirst, hlast]
  rfl

/-- **`p->last->next = f`**: a fragment that is in no packet is put at the end. -/
theorem link_spec (hinv : Inv s l chain owed) (hp : s.Live p) (hf : s.heap.Used l f)
    (hnot : ∀ q, f ∉ chain q) (hnext : s.heap.next f = none) :
    ∃ s', s.link p f = .ok s' ∧
      Inv s' l (update chain p (chain p ++ [f])) (update owed p (owed p - s.heap.fragsize f)) ∧
      SameRec s.heap s'.heap ∧ (∀ g, s'.heap.bytes g = s.heap.bytes g) ∧ s'.heap.frag f = s.heap.frag f ∧
      s'.heap.mem = s.heap.mem ∧ (∀ q, (s'.packet q).size = (s.packet q).size) ∧ s'.npacket = s.npacket := by
  have hq := hinv.queue p hp
  have hsize := hinv.size p hp
  have hlim := hinv.limit p hp
  have hpos := hp.2
  have hpk : ∀ (r : Packet) (q : Nat), q ≠ p → (s.setPacket p r).packet q = s.packet q :=
    fun r q hne => update_of_ne hne ..
  have hself : ∀ r : Packet, (s.setPacket p r).packet p = r := fun r => update_self ..
  have hsizes : ∀ r : Packet, r.size = (s.packet p).size → ∀ q, ((s.setPacket p r).packet q).size = (s.packet q).size := by
    intro r hr q
    by_cases hne : q = p
    · rw [hne, hself, hr]
    · rw [hpk r q hne]
  cases hfirst : (s.packet p).first with
  | none =>
    have hnil : chain p = [] := hq.head_none_iff.1 hfirst
    refine ⟨_, link_none hfirst, ?_, ⟨fun _ => rfl, fun _ => rfl, fun _ => ⟨rfl, rfl⟩, rfl⟩, fun _ => rfl, rfl, rfl,
      hsizes _ rfl, rfl⟩
    rw [hnil]
    refine hinv.change hp hinv.heap rfl rfl (hpk _) (fun q _ g hg => ⟨hinv.used q g hg, rfl⟩) ?_ ?_ ?_ ?_ ?_ ?_ hinv.own
    · rw [hself]
      exact ⟨⟨rfl, hnext⟩, rfl, by simp⟩
    · intro g hg
      rw [mem_singleton.1 (show g ∈ [f] from hg)]
      exact hf
    · intro g hg q _
      rw [mem_singleton.1 (show g ∈ [f] from hg)]
      exact hnot q
    · rw [hself]
      rw [hsize, hnil]
      change total s.heap [] + owed p = total s.heap ([] ++ [f]) + (owed p - s.heap.fragsize f)
      rw [total_append, total_cons, total_nil]
      omega
    · rw [hself]
      exact hpos
    · rw [hself]
      exact hlim
  | some first =>
    obtain ⟨last, hlast⟩ : ∃ last, (s.packet p).last = some last := by
      cases hl : (s.packet p).last with
      | none =>
        rw [hq.head_none_iff.2 (hq.tail_none_iff.1 hl)] at hfirst
        exact nomatch hfirst
      | some last => exact ⟨last, rfl⟩
    have hlastmem : last ∈ chain p := mem_of_getLast? (hq.tail.symm.trans hlast)
    have hlastused := hinv.used p last hlastmem
    have hfl : f ≠ last := fun heq => hnot p (heq ▸ hlastmem)
    obtain ⟨hheap, hused⟩ := @HeapInv.setUsed s.heap l last { s.heap.frag last with next := some f } hinv.heap hlastused rfl rfl
      (hinv.heap.order last) fun m hm => (hinv.heap.bounds last m hm).2
    have hrec := @sameRec_setFrag last s.heap { s.heap.frag last with next := some f } rfl rfl rfl rfl
    generalize hr : ({ s.heap.frag last with next := some f } : Frag) = r at hheap hused hrec
    have hptr : ∀ g, ((s.heap.setFrag last r).frag g).rp = (s.heap.frag g).rp ∧
        ((s.heap.setFrag last r).frag g).wp = (s.heap.frag g).wp := by
      intro g
      by_cases hg : g = last
      · rw [hg, setFrag_frag_self, ← hr]
        exact ⟨rfl, rfl⟩
      · rw [setFrag_frag_of_ne _ hg]
        exact ⟨rfl, rfl⟩
    have hfsize : ∀ g, (s.heap.setFrag last r).fragsize g = s.heap.fragsize g := fun g => by
      rw [Heap.fragsize, Heap.fragsize, (hptr g).1, (hptr g).2]
    have hbytes : ∀ g, (s.heap.setFrag last r).bytes g = s.heap.bytes g := fun g => by
      rw [Heap.bytes, Heap.bytes, Heap.dataOf, Heap.dataOf, (hptr g).1, (hptr g).2, hrec.mem g]
      rfl
    refine ⟨{ s with heap := s.heap.setFrag last r }.setPacket p { s.packet p with last := some f },
      hr ▸ link_some hfirst hlast, ?_, hrec, hbytes, setFrag_frag_of_ne _ hfl r, rfl,
      hsizes { s.packet p with last := some f } rfl, rfl⟩
    refine hinv.change hp hheap rfl rfl (hpk _) (fun q hne g hg => ⟨(hused g).2 (hinv.used q g hg), ?_⟩) ?_ ?_ ?_ ?_ ?_ ?_ ?_
    · refine setFrag_frag_of_ne _ ?_ _
      rintro rfl
      exact hne (hinv.disj q p g hg hlastmem)
    · have henq := @IsQueue.enqueue _ s.heap.next (chain p) f _ (s.packet p).first last (hlast ▸ hq) (hnot p) hnext
      have hupd : (s.heap.setFrag last r).next = update s.heap.next last (some f) := by
        rw [next_setFrag, ← hr]
      rw [← hupd] at henq
      exact (hself { s.packet p with last := some f }).symm ▸ henq
    · intro g hg
      rcases mem_append.1 hg with hg | hg
      · exact (hused g).2 (hinv.used p g hg)
      · rw [mem_singleton.1 hg]
        exact (hused f).2 hf
    · intro g hg q hne
      rcases mem_append.1 hg with hg | hg
      · exact fun hin => hne (hinv.disj q p g hin hg)
      · rw [mem_singleton.1 hg]
        exact hnot q
    · have htotal : ∀ c, total (s.heap.setFrag last r) c = total s.heap c :=
        fun c => congrArg sum (map_congr_left fun g _ => hfsize g)
      refine (congrArg Packet.size (hself { s.packet p with last := some f })).trans ?_
      change (s.packet p).size = total (s.heap.setFrag last r) (chain p ++ [f]) + (owed p - s.heap.fragsize f)
      rw [htotal, hsize, total_append, total_cons, total_nil]
      omega
    · exact (congrArg Packet.size (hself { s.packet p with last := some f })).symm ▸ hpos
    · exact (congrArg Packet.size (hself { s.packet p with last := some f })).symm ▸ hlim
    · exact fun q i hu => hinv.own q i ((hused _).1 hu)

end

end Plan9.Venti.Packets
