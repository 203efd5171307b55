/-
What the functions that take packets apart and put them together do to the byte strings:
no byte is stored, and the fragments move, are duplicated or are given back.
-/
import Plan9.Venti.PacketAdd

namespace Plan9.Venti.Packets

open Chain CInt Function List

/-! ## Parts of fragments -/

theorem drop_part {a b : List UInt8} {offset off : Int} (h : off = offset - a.length) (h0 : 0 ≤ off) :
    (a ++ b).drop offset.toNat = b.drop off.toNat := by
  rw [drop_append, drop_of_length_le (by omega), nil_append, show offset.toNat - a.length = off.toNat by omega]

theorem take_part {a b : List UInt8} {n n' : Int} (h : n' = n - a.length) (h0 : 0 ≤ n') :
    (a ++ b).take n.toNat = a ++ b.take n'.toNat := by
  rw [take_append, take_of_length_le (by omega), show n.toNat - a.length = n'.toNat by omega]

section

variable {h : Heap} {l : List FragId} {f g : FragId} {r : Frag} {c : List FragId}

theorem bytes_setFrag_of_ne (hne : g ≠ f) (r : Frag) : (h.setFrag f r).bytes g = h.bytes g :=
  SameData.bytes ⟨fun _ => rfl, rfl⟩ (setFrag_frag_of_ne h hne r)

theorem bytes_setFrag_drop {k : Nat} (hmem : r.mem = (h.frag f).mem) (hrp : r.rp = (h.frag f).rp + k)
    (hwp : r.wp = (h.frag f).wp) : (h.setFrag f r).bytes f = (h.bytes f).drop k := by
  rw [Heap.bytes, Heap.bytes, Heap.dataOf, Heap.dataOf, setFrag_frag_self, hmem, hrp, hwp]
  unfold Memory.load
  apply ext_getElem
  · simp only [length_map, length_range, length_drop]
    omega
  · intro i h1 h2
    simp [Nat.add_assoc]

theorem bytes_setFrag_take {k : Nat} (hmem : r.mem = (h.frag f).mem) (hrp : r.rp = (h.frag f).rp)
    (hwp : r.wp = (h.frag f).rp + k) (hk : k ≤ (h.frag f).wp - (h.frag f).rp) :
    (h.setFrag f r).bytes f = (h.bytes f).take k := by
  rw [Heap.bytes, Heap.bytes, Heap.dataOf, Heap.dataOf, setFrag_frag_self, hmem, hrp, hwp]
  unfold Memory.load
  apply ext_getElem
  · simp only [length_map, length_range, length_take]
    omega
  · intro i h1 h2
    simp

theorem HeapInv.narrow (hinv : HeapInv h l) (hf : h.Used l f) (hstate : r.state = (h.frag f).state)
    (hmem : r.mem = (h.frag f).mem) (hle : r.rp ≤ r.wp) (hwp : r.wp ≤ (h.frag f).wp) :
    HeapInv (h.setFrag f r) l ∧ ∀ g, (h.setFrag f r).Used l g ↔ h.Used l g :=
  hinv.setUsed hf hstate hmem hle fun m hm => Nat.le_trans hwp (hinv.bounds f m (hmem ▸ hm)).2

/-- A first step after which nothing is given out. -/
theorem Effect.trans_of_used {h1 h' : Heap} {l1 l' : List FragId} {freed1 freed2 freed : List FragId}
    (e1 : Effect h l h1 l1 freed1) (e2 : Effect h1 l1 h' l' freed2) (hsub1 : freed1 ⊆ freed) (hsub2 : freed2 ⊆ freed)
    (hused : ∀ g, h'.Used l' g → h1.Used l1 g) : Effect h l h' l' freed := by
  refine ⟨fun g => ⟨(e2.stale g).1.trans (e1.stale g).1, (e2.stale g).2.trans (e1.stale g).2⟩, ?_, ?_, ?_⟩
  · exact fun g hg hg' => (e2.keep g (hused g hg') hg').trans (e1.keep g hg (hused g hg'))
  · intro g hg hn
    by_cases hg1 : h1.Used l1 g
    · exact hsub2 (e2.gone g hg1 hn)
    · exact hsub1 (e1.gone g hg hg1)
  · exact fun g hn hg' hnone => e1.born g hn (hused g hg') ((e2.keep g (hused g hg') hg').symm.trans hnone)

end

section

variable {s s1 s' : State} {l l1 l' : List FragId} {chain chain1 chain' : Nat → List FragId} {owed owed1 owed' : Nat → Int}
  {p : Nat} {f : FragId}

/-! ## A packet given out -/

/-- The packet is empty, and all else is as it was. -/
structure Fresh (s : State) (p : Nat) (s' : State) : Prop where
  heap : s'.heap = s.heap
  dead : ¬ s.Live p
  live : ∀ q, s'.Live q ↔ q = p ∨ s.Live q
  packet : s'.packet p = { size := 0, asize := 0, first := none, last := none }
  other : ∀ q, q ≠ p → s'.packet q = s.packet q
  count : s.npacket ≤ s'.npacket

theorem fresh_of_packet (hheap : s'.heap = s.heap) (hdead : ¬ s.Live p)
    (hpacket : s'.packet = update s.packet p { size := 0, asize := 0, first := none, last := none })
    (hlt : p < s'.npacket) (hold : ∀ q, q ≠ p → (q < s'.npacket ↔ q < s.npacket)) (hle : s.npacket ≤ s'.npacket) :
    Fresh s p s' := by
  have hself : s'.packet p = { size := 0, asize := 0, first := none, last := none } := by
    rw [hpacket, update_self]
  have hother : ∀ q, q ≠ p → s'.packet q = s.packet q := fun q hq => by rw [hpacket, update_of_ne hq]
  refine ⟨hheap, hdead, fun q => ?_, hself, hother, hle⟩
  by_cases hq : q = p
  · refine iff_of_true ⟨hq ▸ hlt, ?_⟩ (.inl hq)
    exact Int.le_of_eq (congrArg Packet.size (hq ▸ hself)).symm
  · rw [State.Live, State.Live, hother q hq, hold q hq]
    exact (or_iff_right hq).symm

theorem Inv.fresh (hinv : Inv s l chain (fun _ => 0)) (hf : Fresh s p s') (hnodup : s'.freePacket.Nodup)
    (hpool : ∀ q ∈ s'.freePacket, q ∈ s.freePacket ∧ q ≠ p) :
    Ran s l chain [] s' l chain (fun _ => 0) (update (contents s) p (some [])) := by
  have hnil := hinv.dead p hf.dead
  have hplive : s'.Live p := (hf.live p).2 (.inl rfl)
  have hold : ∀ q, q ≠ p → (s'.Live q ↔ s.Live q) := fun q hq => by
    rw [hf.live q]
    exact or_iff_right hq
  have hinv' : Inv s' l chain (fun _ => 0) := by
    refine { heap := hf.heap ▸ hinv.heap, queue := ?_, dead := ?_, used := ?_, disj := hinv.disj, size := ?_, limit := ?_,
             own := ?_, poolNodup := hnodup, pool := ?_ }
    · intro q hq
      by_cases hqp : q = p
      · subst hqp
        rw [hf.packet, hnil, hf.heap]
        exact IsQueue.empty _
      · rw [hf.other q hqp, hf.heap]
        exact hinv.queue q ((hold q hqp).1 hq)
    · intro q hq
      by_cases hqp : q = p
      · exact absurd (hqp ▸ hplive) hq
      · exact hinv.dead q fun h => hq ((hold q hqp).2 h)
    · intro q f hf'
      rw [hf.heap]
      exact hinv.used q f hf'
    · intro q hq
      rw [hf.heap]
      by_cases hqp : q = p
      · subst hqp
        rw [hf.packet, hnil]
        rfl
      · rw [hf.other q hqp]
        exact hinv.size q ((hold q hqp).1 hq)
    · intro q hq
      by_cases hqp : q = p
      · subst hqp
        rw [hf.packet]
        decide
      · rw [hf.other q hqp]
        exact hinv.limit q ((hold q hqp).1 hq)
    · intro q i hu
      rw [hf.heap] at hu
      exact Nat.lt_of_lt_of_le (hinv.own q i hu) hf.count
    intro q hq
    obtain ⟨hq', hne⟩ := hpool q hq
    rw [hf.other q hne]
    exact ⟨Nat.lt_of_lt_of_le (hinv.pool q hq').1 hf.count, (hinv.pool q hq').2⟩
  refine ⟨hinv', hf.heap ▸ Effect.refl _ _ _, ?_, funext fun q => ?_⟩
  · intro hs q f hfq
    rw [hf.heap]
    exact hs q f hfq
  by_cases hqp : q = p
  · subst hqp
    rw [update_self, hinv'.contents_live hplive, hnil]
    rfl
  · rw [update_of_ne hqp]
    exact contents_same hinv hinv' (hold q hqp) rfl fun f _ => by rw [hf.heap]

theorem packetalloc_spec (hinv : Inv s l chain (fun _ => 0)) :
    ∃ p s', packetalloc s = .ok (p, s') ∧ Fresh s p s' ∧
      Ran s l chain [] s' l chain (fun _ => 0) (update (contents s) p (some [])) := by
  unfold packetalloc
  cases hpool : s.freePacket with
  | nil =>
    refine ⟨s.npacket, _, rfl, ?_⟩
    have hdead : ¬ s.Live s.npacket := fun h => Nat.lt_irrefl _ h.1
    generalize hs' : ({ s.setPacket s.npacket { size := 0, asize := 0, first := none, last := none } with
      npacket := s.npacket + 1 } : State) = s'
    have hfresh : Fresh s s.npacket s' := by
      subst hs'
      exact fresh_of_packet rfl hdead rfl (Nat.lt_succ_self _) (fun q hq => by dsimp only; omega) (Nat.le_succ _)
    have hfree : s'.freePacket = [] := by
      subst hs'
      exact hpool
    exact ⟨hfresh, hinv.fresh hfresh (hfree ▸ nodup_nil) fun q hq => by rw [hfree] at hq; exact nomatch hq⟩
  | cons p ps =>
    obtain ⟨hlt, hsize⟩ := hinv.pool p (by rw [hpool]; exact mem_cons_self ..)
    have hnd := hpool ▸ hinv.poolNodup
    dsimp only
    rw [if_neg (not_not_intro hsize)]
    refine ⟨p, _, rfl, ?_⟩
    have hdead : ¬ s.Live p := fun h => by
      have := h.2
      omega
    generalize hs' : ({ s.setPacket p { size := 0, asize := 0, first := none, last := none } with
      freePacket := ps } : State) = s'
    have hfresh : Fresh s p s' := by
      subst hs'
      exact fresh_of_packet rfl hdead rfl hlt (fun _ _ => Iff.rfl) le_rfl
    have hfree : s'.freePacket = ps := by
      subst hs'
      rfl
    refine ⟨hfresh, hinv.fresh hfresh (hfree ▸ (nodup_cons.1 hnd).2) fun q hq => ?_⟩
    rw [hfree] at hq
    rw [hpool]
    exact ⟨mem_cons_of_mem _ hq, fun heq => (nodup_cons.1 hnd).1 (heq ▸ hq)⟩

/-! ## Giving back -/

theorem FreedAll.effect {h h' : Heap} {c : List FragId} (hall : FreedAll h l c h' l') : Effect h l h' l' c := by
  refine ⟨hall.stale, fun g _ hg' => ?_, fun g hg hn => ?_, fun g hn hg' => absurd ((hall.used g).1 hg').2 hn⟩
  · rw [hall.same g ((hall.used g).1 hg').1]
  · by_contra hc
    exact hn ((hall.used g).2 ⟨hc, hg⟩)

theorem placed_spec (hinv : Inv s l chain (fun _ => 0)) (hp : s.Live p) {h' : Heap} {c freed : List FragId}
    (hheap : HeapInv h' l') (heff : Effect s.heap l h' l' freed) (hdata : SameData s.heap h')
    (hother : ∀ q, q ≠ p → ∀ g ∈ chain q, h'.Used l' g ∧ h'.frag g = s.heap.frag g)
    (hown : ∀ q i, h'.Used l' (.loc q i) → q < s.npacket) (hused : ∀ g ∈ c, h'.Used l' g)
    (hnot : ∀ g ∈ c, ∀ q, q ≠ p → g ∉ chain q) {r : Packet} (hq : IsQueue h'.next r.first r.last c)
    (hsize : r.size = total h' c) (hlt : r.size < 2 ^ 31) (hsolid : Solid s chain → ∀ g ∈ c, h'.bytes g ≠ []) :
    Ran s l chain freed ({ s with heap := h' }.setPacket p r) l' (update chain p c) (fun _ => 0)
      (update (contents s) p (some (content h' c))) := by
  have hself : ({ s with heap := h' }.setPacket p r).packet p = r := setPacket_self r
  have hpos : 0 ≤ r.size := hsize ▸ hheap.total_nonneg c
  have hinv' : Inv ({ s with heap := h' }.setPacket p r) l' (update chain p c) (fun _ => 0) := by
    have := @Inv.change p s ({ s with heap := h' }.setPacket p r) l l' chain (fun _ => 0) hinv c 0 hp hheap rfl rfl
      (fun q hq => setPacket_of_ne hq r) hother (hself.symm ▸ hq) hused hnot
      (hself.symm ▸ hsize.trans (Int.add_zero _).symm) (hself.symm ▸ hpos) (hself.symm ▸ hlt) hown
    rwa [update_eq_self] at this
  have hlive := live_setPacket (s := { s with heap := h' }) hp hpos
  refine ⟨hinv', heff, fun hs q g hg => ?_, funext fun q => ?_⟩
  · change h'.bytes g ≠ []
    by_cases hq : q = p
    · rw [hq, update_self] at hg
      exact hsolid hs g hg
    · rw [update_of_ne hq] at hg
      rw [hdata.bytes (hother q hq g hg).2]
      exact hs q g hg
  by_cases hq : q = p
  · rw [hq, update_self, hinv'.contents_live ((hlive p).2 hp), update_self]
    rfl
  · rw [update_of_ne hq]
    exact contents_same hinv hinv' (hlive q) (update_of_ne hq ..) fun g hg => hdata.bytes (hother q hq g hg).2

theorem dropped_spec (hinv : Inv s l chain (fun _ => 0)) (hp : s.Live p) {h' : Heap} (hheap : HeapInv h' l') {freed : List FragId}
    (heff : Effect s.heap l h' l' freed) (hdata : SameData s.heap h')
    (hother : ∀ q, q ≠ p → ∀ g ∈ chain q, h'.Used l' g ∧ h'.frag g = s.heap.frag g) (hown : ∀ g, h'.Used l' g → s.heap.Used l g)
    {r : Packet} (hr : r = { size := 0, asize := 0, first := none, last := none }) :
    Ran s l chain freed ({ s with heap := h' }.setPacket p r) l' (update chain p []) (fun _ => 0)
      (modify (contents s) p fun _ => []) := by
  subst hr
  rw [modify_some (hinv.contents_live hp)]
  exact placed_spec hinv hp hheap heff hdata hother (fun q i hu => hinv.own q i (hown _ hu)) (by simp) (by simp)
    (IsQueue.empty _) rfl (by decide) (by simp)

theorem emptied_spec (hinv : Inv s l chain (fun _ => 0)) (hp : s.Live p) {h' : Heap} (hheap : HeapInv h' l')
    (hall : FreedAll s.heap l (chain p) h' l') {r : Packet} (hr : r = { size := 0, asize := 0, first := none, last := none }) :
    Ran s l chain (chain p) ({ s with heap := h' }.setPacket p r) l' (update chain p []) (fun _ => 0)
      (modify (contents s) p fun _ => []) := by
  have hnot : ∀ q, q ≠ p → ∀ g ∈ chain q, g ∉ chain p := fun q hq g hg hin => hq (hinv.disj q p g hg hin)
  exact dropped_spec hinv hp hheap hall.effect hall.data
    (fun q hq g hg => ⟨(hall.used g).2 ⟨hnot q hq g hg, hinv.used q g hg⟩, hall.same g (hnot q hq g hg)⟩)
    (fun g hg => ((hall.used g).1 hg).2) hr

theorem setPacket_setPacket (r r' : Packet) : (s.setPacket p r).setPacket p r' = s.setPacket p r' := by
  rw [State.setPacket, State.setPacket, State.setPacket, update_idem]

theorem Inv.retire (hinv : Inv s l chain owed) (hp : s.Live p) (hnil : chain p = []) {r : Packet} (hr : r.size = -1)
    (hs' : s' = { s.setPacket p r with freePacket := p :: s.freePacket }) :
    Inv s' l chain owed ∧ ¬ s'.Live p ∧ ∀ q, q ≠ p → (s'.Live q ↔ s.Live q) := by
  have hself : s'.packet p = r := hs' ▸ setPacket_self r
  have hother : ∀ q, q ≠ p → s'.packet q = s.packet q := fun q hq => hs' ▸ setPacket_of_ne hq r
  have hheap : s'.heap = s.heap := by rw [hs']; rfl
  have hnp : s'.npacket = s.npacket := by rw [hs']; rfl
  have hpool : s'.freePacket = p :: s.freePacket := by rw [hs']
  have hdead : ¬ s'.Live p := fun h => by
    have := h.2
    rw [hself, hr] at this
    exact absurd this (by decide)
  have hlive : ∀ q, q ≠ p → (s'.Live q ↔ s.Live q) := fun q hq => by rw [State.Live, State.Live, hother q hq, hnp]
  have hne : ∀ q, s'.Live q → q ≠ p := fun q hq heq => hdead (heq ▸ hq)
  refine ⟨{ heap := hheap ▸ hinv.heap, queue := fun q hq => ?_, dead := fun q hq => ?_, used := fun q f hf => ?_,
            disj := hinv.disj, size := fun q hq => ?_, limit := fun q hq => ?_, own := fun q i hu => ?_, poolNodup := ?_,
            pool := fun q hq => ?_ }, hdead, hlive⟩
  · rw [hother q (hne q hq), hheap]
    exact hinv.queue q ((hlive q (hne q hq)).1 hq)
  · by_cases hqp : q = p
    · rw [hqp, hnil]
    · exact hinv.dead q fun h => hq ((hlive q hqp).2 h)
  · rw [hheap]
    exact hinv.used q f hf
  · rw [hother q (hne q hq), hheap]
    exact hinv.size q ((hlive q (hne q hq)).1 hq)
  · rw [hother q (hne q hq)]
    exact hinv.limit q ((hlive q (hne q hq)).1 hq)
  · rw [hheap] at hu
    rw [hnp]
    exact hinv.own q i hu
  · rw [hpool]
    refine nodup_cons.2 ⟨fun hin => ?_, hinv.poolNodup⟩
    have h1 := (hinv.pool p hin).2
    have h2 := hp.2
    omega
  rw [hpool] at hq
  rw [hnp]
  by_cases hqp : q = p
  · rw [hqp, hself]
    exact ⟨hp.1, hr⟩
  · rw [hother q hqp]
    exact hinv.pool q ((mem_cons.1 hq).resolve_left hqp)

theorem packetfree_spec (hinv : Inv s l chain (fun _ => 0)) (hp : s.Live p) :
    ∃ s' l' chain', packetfree s p = .ok s' ∧
      Ran s l chain (chain p) s' l' chain' (fun _ => 0) (update (contents s) p none) := by
  obtain ⟨h', l', _, hloop, hheap, hall⟩ := freeLoop_spec (chain p) s.rounds s.heap l (s.packet p).first 0 hinv.heap
    (hinv.queue p hp).linked (hinv.nodup p) (hinv.used p) (Nat.le_of_lt (hinv.length_chain p))
  have hran := emptied_spec hinv hp hheap hall rfl
  have hlive1 := live_of_modify hp rfl hran.holds
  generalize hs1 : { s with heap := h' }.setPacket p { size := 0, asize := 0, first := none, last := none } = s1 at hran hlive1
  have hrun : packetfree s p = .ok { s1.setPacket p { s.packet p with first := none, last := none, size := -1 } with
      freePacket := p :: s1.freePacket } := by
    rw [packetfree, notfree_of_live hp]
    simp only [bind, Except.bind, hloop]
    rw [← hs1, setPacket_setPacket]
    rfl
  obtain ⟨hinv', hdead, hlive⟩ := hran.inv.retire hlive1 (update_self ..) (r := { s.packet p with
    first := none, last := none, size := -1 }) rfl rfl
  refine ⟨_, l', _, hrun, hinv', hran.effect, hran.solid, funext fun q => ?_⟩
  by_cases hq : q = p
  · rw [hq, update_self, contents_dead hdead]
  · rw [update_of_ne hq]
    refine (contents_same hran.inv hinv' (hlive q hq) rfl fun _ _ => rfl).trans ?_
    rw [hran.holds, modify, update_of_ne hq]

/-! ## `packettrim` -/

/-- What of a chain is left: `c1` before and `c2` behind are given back, `first` starts `off` bytes later and `last` has
`n` bytes from its start. -/
theorem trimmed_spec (hinv : Inv s l chain (fun _ => 0)) (hp : s.Live p) {c1 c2 d1 d2 : List FragId} {first last : FragId}
    {offset off n n' : Int} (hchain : chain p = c1 ++ first :: c2) (hsplit : first :: c2 = d1 ++ last :: d2)
    {h1 : Heap} (hheap1 : HeapInv h1 l1) (hall1 : FreedAll s.heap l c1 h1 l1) (hoff : off = offset - total s.heap c1) (hoff0 : 0 ≤ off)
    (hofflt : off < s.heap.fragsize first) {h2 : Heap}
    (hh2 : h2 = h1.setFrag first { h1.frag first with rp := (h1.frag first).rp + off.toNat })
    (hn : n' = n - total h2 d1) (hn0 : 0 < n') (hnle : n' ≤ h2.fragsize last) {h3 : Heap}
    (hh3 : h3 = h2.setFrag last { h2.frag last with wp := (h2.frag last).rp + n'.toNat, next := none }) (k : Nat)
    (hk : d2.length ≤ k) (a : Int) :
    ∃ h4 l4 a', freeLoop k h3 (h2.next last) a = .ok (h4, a') ∧ offset + n ≤ total s.heap (chain p) ∧
      ∀ r : Packet, r.size = n → r.first = some first → r.last = some last → n < 2 ^ 31 →
        Ran s l chain (chain p) ({ s with heap := h4 }.setPacket p r) l4 (update chain p (d1 ++ [last])) (fun _ => 0)
          (modify (contents s) p fun x => (x.drop offset.toNat).take n.toNat) := by
  have hnd := hinv.nodup p
  rw [hchain, nodup_append] at hnd
  have hc1 : ∀ g ∈ first :: c2, g ∉ c1 := fun g hg hin => hnd.2.2 g hin g hg rfl
  have hlastmem : last ∈ first :: c2 := by simp [hsplit]
  have hnd2 : (d1 ++ last :: d2).Nodup := hsplit ▸ hnd.2.1
  rw [nodup_append] at hnd2
  have hlastd1 : last ∉ d1 := fun hin => hnd2.2.2 last hin last (mem_cons_self ..) rfl
  have hlastd2 := (nodup_cons.1 hnd2.2.1).1
  have hd1d2 : ∀ g ∈ d1, g ∉ d2 := fun g hg hin => hnd2.2.2 g hg g (mem_cons_of_mem _ hin) rfl
  have hd1 : ∀ g ∈ d1, g ∈ first :: c2 := fun g hg => by simp [hsplit, hg]
  have hd2 : ∀ g ∈ d2, g ∈ first :: c2 := fun g hg => by simp [hsplit, hg]
  -- the heaps one after the other
  have hused : ∀ g ∈ first :: c2, s.heap.Used l g := fun g hg => hinv.used p g (by rw [hchain]; exact mem_append_right _ hg)
  have hsame1 : ∀ g ∈ first :: c2, h1.frag g = s.heap.frag g := fun g hg => hall1.same g (hc1 g hg)
  have hused1 : ∀ g ∈ first :: c2, h1.Used l1 g := fun g hg => (hall1.used g).2 ⟨hc1 g hg, hused g hg⟩
  rw [← fragsize_congr (hsame1 first (mem_cons_self ..)), Heap.fragsize] at hofflt
  obtain ⟨hheap2, hused2⟩ := @HeapInv.narrow h1 l1 first { h1.frag first with rp := (h1.frag first).rp + off.toNat } hheap1
    (hused1 first (mem_cons_self ..)) rfl rfl (by dsimp only; omega) le_rfl
  have hrec2 := @sameRec_setFrag first h1 { h1.frag first with rp := (h1.frag first).rp + off.toNat } rfl rfl rfl rfl
  have hnext2 : h2.next = h1.next := by
    rw [hh2, next_setFrag]
    exact update_eq_self first h1.next
  have hbytes2 : h2.bytes first = (h1.bytes first).drop off.toNat := by
    rw [hh2]
    exact bytes_setFrag_drop rfl rfl rfl
  have hother2 : ∀ g, g ≠ first → h2.bytes g = h1.bytes g := fun g hg => hh2 ▸ bytes_setFrag_of_ne hg _
  rw [← hh2] at hheap2 hused2 hrec2
  have hnle' := hnle
  rw [Heap.fragsize] at hnle'
  obtain ⟨hheap3, hused3⟩ := @HeapInv.narrow h2 l1 last { h2.frag last with wp := (h2.frag last).rp + n'.toNat, next := none }
    hheap2 ((hused2 last).2 (hused1 last hlastmem)) rfl rfl (by dsimp only; omega) (by dsimp only; omega)
  have hrec3 := @sameRec_setFrag last h2 { h2.frag last with wp := (h2.frag last).rp + n'.toNat, next := none } rfl rfl rfl rfl
  have hnext3 : h3.next = update h2.next last none := by rw [hh3, next_setFrag]
  have hbytes3 : h3.bytes last = (h2.bytes last).take n'.toNat := by
    rw [hh3]
    exact bytes_setFrag_take rfl rfl rfl (by omega)
  have hother3 : ∀ g, g ≠ last → h3.bytes g = h2.bytes g := fun g hg => hh3 ▸ bytes_setFrag_of_ne hg _
  rw [← hh3] at hheap3 hused3 hrec3
  -- the chain
  have hlink : Linked h2.next (some first) (d1 ++ last :: d2) := by
    have hl := (hinv.queue p hp).linked
    rw [hchain] at hl
    rw [← hsplit, hnext2]
    exact hl.node.congr fun g hg => congrArg Frag.next (hsame1 g hg)
  have hlink3 : Linked h3.next (h2.next last) d2 := by
    refine hlink.node.2.congr fun g hg => ?_
    rw [hnext3, update_of_ne fun heq : g = last => hlastd2 (heq ▸ hg)]
  obtain ⟨h4, l4, a', hloop, hheap4, hall4⟩ := freeLoop_spec d2 k h3 l1 (h2.next last) a hheap3 hlink3
    (nodup_cons.1 hnd2.2.1).2 (fun g hg => (hused3 g).2 ((hused2 g).2 (hused1 g (hd2 g hg)))) hk
  -- what the fragments hold
  have hcontent2 : content h2 (first :: c2) = (content s.heap (first :: c2)).drop off.toNat := by
    have hlen := hheap1.length_bytes first
    rw [Heap.fragsize] at hlen
    have hrest : content h2 c2 = content s.heap c2 := flatMap_congr fun g hg => by
      have hgm : g ∈ first :: c2 := mem_cons_of_mem _ hg
      rw [hother2 g fun heq => (nodup_cons.1 hnd.2.1).1 (heq ▸ hg), hall1.data.bytes (hsame1 g hgm)]
    rw [content_cons, content_cons, hbytes2, hrest, ← hall1.data.bytes (hsame1 first (mem_cons_self ..)),
      drop_append_of_le_length (by omega)]
  have hcontent4 : content h4 (d1 ++ [last]) = (content h2 (first :: c2)).take n.toNat := by
    have hlen := hheap2.length_bytes last
    have hpart : content h4 d1 = content h2 d1 := flatMap_congr fun g hg => by
      rw [hall4.data.bytes (hall4.same g (hd1d2 g hg)), hother3 g fun heq => hlastd1 (heq ▸ hg)]
    rw [hsplit, content_append, content_append, content_cons, content_cons, hpart, hall4.data.bytes (hall4.same last hlastd2), hbytes3,
      @take_part _ _ n n' (by rw [hheap2.length_content]; exact hn) (Int.le_of_lt hn0), take_append_of_le_length (by omega)]
    simp
  have htotal2 : total h2 (first :: c2) = total h2 d1 + h2.fragsize last + total h2 d2 := by
    rw [hsplit, total_append, total_cons]
    omega
  have h2len := hheap2.length_content (first :: c2)
  have hd2len := hheap2.total_nonneg d2
  have hd1len := hheap2.total_nonneg d1
  refine ⟨h4, l4, a', hloop, ?_, fun r hsize hfirst hlast hlt => ?_⟩
  · have hslen := hinv.heap.length_content (first :: c2)
    rw [hcontent2, length_drop] at h2len
    rw [hchain, total_append]
    omega
  have hlen4 : total h4 (d1 ++ [last]) = n := by
    rw [← hheap4.length_content, hcontent4, length_take]
    omega
  have hmem4 : ∀ g ∈ d1 ++ [last], g ∈ first :: c2 ∧ g ∉ d2 := by
    intro g hg
    rcases mem_append.1 hg with hg | hg
    · exact ⟨hd1 g hg, hd1d2 g hg⟩
    · rw [mem_singleton.1 hg]
      exact ⟨hlastmem, hlastd2⟩
  have hotherq : ∀ q, q ≠ p → ∀ g ∈ chain q, h4.Used l4 g ∧ h4.frag g = s.heap.frag g := by
    intro q hq g hg
    have hgp : g ∉ chain p := fun hin => hq (hinv.disj q p g hg hin)
    have hg2 : g ∉ first :: c2 := fun hin => hgp (by rw [hchain]; exact mem_append_right _ hin)
    have hg1 : g ∉ c1 := fun hin => hgp (by rw [hchain]; exact mem_append_left _ hin)
    have hgd2 : g ∉ d2 := fun hin => hg2 (hd2 g hin)
    refine ⟨(hall4.used g).2 ⟨hgd2, (hused3 g).2 ((hused2 g).2 ((hall1.used g).2 ⟨hg1, hinv.used q g hg⟩))⟩, ?_⟩
    rw [hall4.same g hgd2, hh3, setFrag_frag_of_ne _ fun heq : g = last => hg2 (heq ▸ hlastmem), hh2,
      setFrag_frag_of_ne _ fun heq : g = first => hg2 (heq ▸ mem_cons_self ..), hall1.same g hg1]
  have hdata : SameData s.heap h4 :=
    hall1.data.trans (SameData.trans (hh3 ▸ hh2 ▸ ⟨fun _ => rfl, rfl⟩) hall4.data)
  have h23 : Effect h1 l1 h4 l4 d2 := ((hrec2.effect l1).trans (hrec3.effect l1)).trans hall4.effect
  have heff : Effect s.heap l h4 l4 (chain p) := by
    refine hall1.effect.trans_of_used h23 ?_ ?_ fun g hg => (hused2 g).1 ((hused3 g).1 ((hall4.used g).1 hg).2)
    · exact fun g hg => by rw [hchain]; exact mem_append_left _ hg
    · exact fun g hg => by rw [hchain]; exact mem_append_right _ (hd2 g hg)
  have hc4 : ((content s.heap (chain p)).drop offset.toNat).take n.toNat = content h4 (d1 ++ [last]) := by
    rw [hcontent4, hcontent2, hchain, content_append,
      @drop_part _ _ offset off (by rw [hinv.heap.length_content]; exact hoff) hoff0]
  rw [modify_some (hinv.contents_live hp), hc4]
  refine placed_spec hinv hp hheap4 heff hdata hotherq
    (fun q i hu => hinv.own q i ((hall1.used _).1 ((hused2 _).1 ((hused3 _).1 ((hall4.used _).1 hu).2))).2)
    (fun g hg => (hall4.used g).2 ⟨(hmem4 g hg).2, (hused3 g).2 ((hused2 g).2 (hused1 g (hmem4 g hg).1))⟩) ?_ ?_
    (hsize.trans hlen4.symm) (hsize ▸ hlt) ?_
  · intro g hg q hq hin
    exact hq (hinv.disj q p g hin (by rw [hchain]; exact mem_append_right _ (hmem4 g hg).1))
  · rw [hfirst, hlast]
    refine ⟨?_, (getLast?_concat ..).symm, nodup_append.2 ⟨hnd2.1, pairwise_singleton _ _, ?_⟩⟩
    · have hnext4 : ∀ g, g ∉ d2 → h4.next g = h3.next g := fun g hg => congrArg Frag.next (hall4.same g hg)
      refine Linked.cut ?_ hlink fun g hg => ?_
      · rw [hnext4 last hlastd2, hnext3, update_self]
      · rw [hnext4 g (hd1d2 g hg), hnext3, update_of_ne fun heq : g = last => hlastd1 (heq ▸ hg)]
    · intro g hg g' hg' heq
      exact hlastd1 (mem_singleton.1 hg' ▸ heq ▸ hg)
  intro hs g hg
  obtain ⟨hgm, hgd2⟩ := hmem4 g hg
  have hg2 : h2.bytes g ≠ [] := by
    by_cases hgf : g = first
    · have hlen := hheap1.length_bytes first
      rw [Heap.fragsize] at hlen
      rw [hgf, hbytes2]
      intro hnil
      have := congrArg length hnil
      rw [length_drop, length_nil] at this
      omega
    · rw [hother2 g hgf, hall1.data.bytes (hsame1 g hgm)]
      exact hs p g (by rw [hchain]; exact mem_append_right _ hgm)
  rw [hall4.data.bytes (hall4.same g hgd2)]
  by_cases hgl : g = last
  · rw [hgl] at hg2 ⊢
    rw [hbytes3]
    intro hnil
    rcases take_eq_nil_iff.1 hnil with h0 | h0
    · omega
    · exact hg2 h0
  · rw [hother3 g hgl]
    exact hg2

theorem packettrim_spec (hinv : Inv s l chain (fun _ => 0)) (hp : s.Live p) {offset n : Int} (hoff : offset < 2 ^ 31)
    (hn : n < 2 ^ 31) :
    Outcome (fun _ => offset ≤ (s.packet p).size ∧ ¬ offset + n < 2 ^ 31)
      (fun r => if r.1 then (0 ≤ offset ∧ 0 ≤ n ∧ offset + n ≤ (s.packet p).size) ∧ ∃ l' chain',
          Ran s l chain (chain p) r.2 l' chain' (fun _ => 0) (modify (contents s) p fun x => (x.drop offset.toNat).take n.toNat)
        else ¬ (0 ≤ offset ∧ 0 ≤ n ∧ offset + n ≤ (s.packet p).size) ∧ r.2 = s)
      (packettrim s p offset n) := by
  have hsize := (hinv.size p hp).trans (Int.add_zero _)
  have hlim := hinv.limit p hp
  unfold packettrim
  rw [notfree_of_live hp]
  change Outcome _ _ (if offset < 0 ∨ offset > (s.packet p).size then Except.ok (false, s) else _)
  split
  · exact ⟨by omega, rfl⟩
  split
  · rename_i hbig
    refine ⟨fun h => ?_, rfl⟩
    rw [int32_eq (by omega) (by omega)] at hbig
    omega
  rename_i hcheck
  have hfits : offset + n < 2 ^ 31 → offset + n ≤ (s.packet p).size := fun hlt => by
    rw [int32_eq (by omega) hlt] at hcheck
    omega
  split
  · rename_i h0
    obtain ⟨_, l', _, hloop, hheap, hall⟩ := freeLoop_spec (chain p) s.rounds s.heap l (s.packet p).first 0 hinv.heap
      (hinv.queue p hp).linked (hinv.nodup p) (hinv.used p) (Nat.le_of_lt (hinv.length_chain p))
    simp only [bind, Except.bind, hloop]
    refine ⟨⟨by omega, by omega, by omega⟩, l', update chain p [], ?_⟩
    subst h0
    exact emptied_spec hinv hp hheap hall rfl
  refine Outcome.bind (trimLoop_spec (chain p) s.rounds s.heap l (s.packet p).first offset (s.packet p).asize hinv.heap
    (hinv.queue p hp).linked (hinv.nodup p) (hinv.used p) (hinv.length_chain p) (by omega) |>.mono ?_ fun _ => id) ?_
  · refine fun e he => ⟨by omega, fun hlt => ?_⟩
    omega
  rintro ⟨h1, first, off, asize⟩ ⟨_, c2, _, hchain, hheap1, hall1, hoff', hoff0, hofflt⟩
  dsimp only at hchain hheap1 hall1 hoff' hoff0 hofflt ⊢
  generalize hh2 : h1.setFrag first { h1.frag first with rp := (h1.frag first).rp + off.toNat } = h2
  have hnd := hinv.nodup p
  rw [hchain, nodup_append] at hnd
  have hsame : ∀ g ∈ first :: c2, h1.frag g = s.heap.frag g := fun g hg => hall1.same g fun hin => hnd.2.2 g hin g hg rfl
  have hnext2 : h2.next = h1.next := by
    rw [← hh2, next_setFrag]
    exact update_eq_self first h1.next
  have hlink : Linked h2.next (h2.next first) c2 := by
    have hl := (hinv.queue p hp).linked
    rw [hchain] at hl
    have hl' : Linked h1.next (some first) (first :: c2) :=
      hl.node.congr fun g hg => congrArg Frag.next (hsame g hg)
    rw [hnext2]
    exact hl'.2
  have htotal : total h2 (first :: c2) = (s.packet p).size - offset := by
    have hfirst : h2.fragsize first = h1.fragsize first - off := by
      rw [Heap.fragsize, Heap.fragsize, ← hh2, setFrag_frag_self]
      dsimp only
      omega
    have hrest : total h2 c2 = total h1 c2 := total_congr fun g hg => by
      rw [← hh2]
      exact setFrag_frag_of_ne _ (fun heq : g = first => (nodup_cons.1 hnd.2.1).1 (heq ▸ hg)) _
    have h1total := total_congr hsame
    rw [total_cons] at h1total ⊢
    rw [hsize, hchain, total_append, hfirst, hrest]
    omega
  have hlen := hinv.length_chain p
  rw [hchain, length_append, length_cons] at hlen
  refine Outcome.bind ((middleLoop_spec c2 s.rounds first n hlink (by omega) (by omega)).mono ?_ fun _ => id) ?_
  · refine fun e he => ⟨by omega, fun hsum => ?_⟩
    omega
  rintro ⟨last, n'⟩ ⟨d1, _, hsplit, hn', hn0', hnle⟩
  have hlen2 := congrArg length hsplit
  rw [length_append, length_cons, length_cons] at hlen2
  generalize hh3 : h2.setFrag last { h2.frag last with wp := (h2.frag last).rp + n'.toNat, next := none } = h3
  obtain ⟨_, l4, _, hloop, _, hdone⟩ := trimmed_spec hinv hp hchain hsplit hheap1 hall1 hoff' hoff0 hofflt hh2.symm hn' hn0' hnle hh3.symm
    s.rounds (by omega) asize
  rw [show (h2.frag last).next = h2.next last from rfl, hloop]
  exact ⟨⟨by omega, by omega, by omega⟩, l4, update chain p (d1 ++ [last]), hdone _ rfl rfl rfl hn⟩

end

end Plan9.Venti.Packets
