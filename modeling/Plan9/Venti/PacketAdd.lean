/-
What `packetappend`, `packetprefix`, `packetheader` and `packettrailer` do to the byte strings.

A fragment is the only one of its memory, so what is stored there is in no other packet.
First the size of the packet is raised; each fragment that is added, or made larger,
pays some of what is owed.
-/
import Plan9.Venti.PacketFacts

namespace Plan9.Venti.Packets

open CInt Chain Function List Option

/-! ## States along the way -/

/-- The packet `p` holds something else, made of what it held. -/
def modify (c : Nat → Option (List UInt8)) (p : Nat) (g : List UInt8 → List UInt8) : Nat → Option (List UInt8) :=
  Function.update c p ((c p).map g)

theorem modify_modify (c : Nat → Option (List UInt8)) (p : Nat) (g g' : List UInt8 → List UInt8) :
    modify (modify c p g) p g' = modify c p (g' ∘ g) := by
  rw [modify, modify, update_self, Option.map_map, update_idem]
  rfl

variable {n : Int} {c0 : List FragId} {r : Packet} {buf x : List UInt8} {g : List UInt8 → List UInt8}

theorem modify_id {c : Nat → Option (List UInt8)} {p : Nat} (h : ∀ x, g x = x) :
    modify c p g = c := by
  have hg : g = id := funext h
  rw [modify, hg, Option.map_id, id, update_eq_self]

theorem modify_some {c : Nat → Option (List UInt8)} {p : Nat} (h : c p = some x)
    (g : List UInt8 → List UInt8) : modify c p g = update c p (some (g x)) := by
  rw [modify, h]
  rfl

/-- No fragment of a packet is empty. -/
def Solid (s : State) (chain : Nat → List FragId) : Prop := ∀ q, ∀ f ∈ chain q, s.heap.bytes f ≠ []

/-- From `s` to `s'` with those of `freed` given back, and `c` what the packets hold. -/
structure Ran (s : State) (l : List FragId) (chain : Nat → List FragId) (freed : List FragId) (s' : State) (l' : List FragId)
    (chain' : Nat → List FragId) (owed' : Nat → Int) (c : Nat → Option (List UInt8)) : Prop where
  inv : Inv s' l' chain' owed'
  effect : Effect s.heap l s'.heap l' freed
  solid : Solid s chain → Solid s' chain'
  holds : contents s' = c

section

variable {s s1 s' : State} {l l1 l' : List FragId} {chain chain1 chain' : Nat → List FragId} {owed owed1 owed' : Nat → Int}
  {freed : List FragId} {c c1 : Nat → Option (List UInt8)} {p : Nat} {f : FragId}

theorem Ran.refl (hinv : Inv s l chain owed) (freed : List FragId) : Ran s l chain freed s l chain owed (contents s) :=
  ⟨hinv, Effect.refl s.heap l freed, id, rfl⟩

theorem Ran.trans (h1 : Ran s l chain [] s1 l1 chain1 owed1 c1) (h2 : Ran s1 l1 chain1 freed s' l' chain' owed' c) :
    Ran s l chain freed s' l' chain' owed' c :=
  ⟨h2.inv, h1.effect.trans h2.effect, fun h => h2.solid (h1.solid h), h2.holds⟩

theorem contents_same (hinv : Inv s l chain owed) (hinv' : Inv s' l' chain' owed') (hlive : s'.Live p ↔ s.Live p)
    (hchain : chain' p = chain p) (hbytes : ∀ f ∈ chain p, s'.heap.bytes f = s.heap.bytes f) : contents s' p = contents s p := by
  by_cases hp : s.Live p
  · rw [hinv.contents_live hp, hinv'.contents_live (hlive.2 hp), hchain]
    exact congrArg some (flatMap_congr hbytes)
  · rw [contents_dead hp, contents_dead fun h => hp (hlive.1 h)]

theorem setPacket_self (r : Packet) : (s.setPacket p r).packet p = r := update_self ..

theorem setPacket_of_ne {q : Nat} (hq : q ≠ p) (r : Packet) : (s.setPacket p r).packet q = s.packet q :=
  update_of_ne hq ..

theorem Inv.record (hinv : Inv s l chain owed) (hp : s.Live p) {d : Int} (hfirst : r.first = (s.packet p).first)
    (hlast : r.last = (s.packet p).last) (hsize : r.size = total s.heap (chain p) + d) (hpos : 0 ≤ r.size)
    (hlt : r.size < 2 ^ 31) : Inv (s.setPacket p r) l chain (update owed p d) := by
  have hself : (s.setPacket p r).packet p = r := setPacket_self r
  have := @Inv.change p s (s.setPacket p r) l l chain owed hinv (chain p) d hp hinv.heap rfl rfl
    (fun q hq => setPacket_of_ne hq r) (fun q _ f hf => ⟨hinv.used q f hf, rfl⟩) ?_ (hinv.used p) ?_ ?_ ?_ ?_ hinv.own
  · rwa [update_eq_self] at this
  · rw [hself, hfirst, hlast]
    exact hinv.queue p hp
  · exact fun f hf q hq hin => hq (hinv.disj q p f hin hf)
  · rw [hself]
    exact hsize
  · rw [hself]
    exact hpos
  · rw [hself]
    exact hlt

theorem live_setPacket (hp : s.Live p) (hpos : 0 ≤ r.size) (q : Nat) : (s.setPacket p r).Live q ↔ s.Live q := by
  by_cases hq : q = p
  · subst hq
    refine iff_of_true ⟨hp.1, ?_⟩ hp
    rw [setPacket_self]
    exact hpos
  · rw [State.Live, setPacket_of_ne hq]
    rfl

theorem owe_spec (hinv : Inv s l chain (fun _ => 0)) (hp : s.Live p) (hn : 0 ≤ n)
    (hlt : (s.packet p).size + n < 2 ^ 31) (hr : r = { s.packet p with size := (s.packet p).size + n }) :
    Ran s l chain [] (s.setPacket p r) l chain (update (fun _ => 0) p n) (contents s) := by
  have hpos := hp.2
  have hsize := hinv.size p hp
  have hinv' : Inv (s.setPacket p r) l chain (update (fun _ => 0) p n) := by
    subst hr
    exact hinv.record hp rfl rfl (by dsimp only; omega) (by dsimp only; omega) hlt
  refine ⟨hinv', Effect.refl _ _ _, id, funext fun q => ?_⟩
  exact contents_same hinv hinv' (live_setPacket hp (by subst hr; dsimp only; omega) q) rfl fun _ _ => rfl

end

/-! ## Storing -/

section

variable {h : Heap} {l : List FragId} {f : FragId} {m : Nat}

theorem store_frag (m pos : Nat) (buf : List UInt8) : (h.store m pos buf).frag = h.frag := rfl

theorem store_sizes (m pos : Nat) (buf : List UInt8) (k : Nat) :
    ((h.store m pos buf).mem k).size = (h.mem k).size ∧ ((h.store m pos buf).mem k).ref = (h.mem k).ref := by
  by_cases hk : k = m
  · rw [hk, Heap.store, setMem_mem_self]
    exact ⟨rfl, rfl⟩
  · rw [Heap.store, setMem_mem_of_ne _ hk]
    exact ⟨rfl, rfl⟩

theorem HeapInv.store (hinv : HeapInv h l) (m pos : Nat) (buf : List UInt8) : HeapInv (h.store m pos buf) l :=
  (hinv.memCongr (store_frag m pos buf) ⟨rfl, rfl, rfl, rfl, rfl, fun k => (store_sizes m pos buf k).1⟩
    fun k => (store_sizes m pos buf k).2).1

theorem bytes_store_of_ne (hinv : HeapInv h l) (hf : h.Used l f) (hm : (h.frag f).mem = some m) (hone : (h.mem m).ref = 1)
    (pos : Nat) (buf : List UInt8) {g : FragId} (hg : h.Used l g) (hne : g ≠ f) :
    (h.store m pos buf).bytes g = h.bytes g := by
  have hgm : (h.frag g).mem ≠ some m := fun heq => hne ((hinv.counted m).eq_of_ref_one hone hg heq hf hm)
  rw [Heap.bytes, Heap.bytes, Heap.dataOf, Heap.dataOf, store_frag]
  cases hk : (h.frag g).mem with
  | none => rfl
  | some k =>
    have hkm : k ≠ m := fun heq => hgm (heq ▸ hk)
    dsimp only
    rw [show (h.store m pos buf).mem k = h.mem k from setMem_mem_of_ne h hkm _]

theorem dataOf_store (hm : (h.frag f).mem = some m) (pos : Nat) (buf : List UInt8) :
    (h.store m pos buf).dataOf f = Memory.store (h.dataOf f) pos buf := by
  rw [Heap.dataOf, Heap.dataOf, store_frag, hm]
  dsimp only
  rw [Heap.store, setMem_mem_self]

theorem bytes_store_self (hm : (h.frag f).mem = some m) (hsize : h.fragsize f = buf.length) :
    (h.store m (h.frag f).rp buf).bytes f = buf := by
  rw [Heap.fragsize] at hsize
  rw [Heap.bytes, dataOf_store hm, store_frag, show (h.frag f).wp - (h.frag f).rp = buf.length by omega]
  exact Memory.load_store

theorem sameRec_store (m pos : Nat) (buf : List UInt8) : SameRec h (h.store m pos buf) :=
  ⟨fun _ => rfl, fun _ => rfl, fun _ => ⟨rfl, rfl⟩, rfl⟩

end

section

variable {s s1 s' : State} {l l1 l' : List FragId} {chain chain1 chain' : Nat → List FragId} {owed owed1 owed' : Nat → Int}
  {p : Nat} {f : FragId} {m : Nat}

variable (hinv : Inv s l chain owed) (hp : s.Live p)

include hinv in
theorem Inv.store (m pos : Nat) (buf : List UInt8) :
    Inv { s with heap := s.heap.store m pos buf } l chain owed :=
  hinv.rebuild (fun _ => False) (hinv.heap.store m pos buf) rfl rfl (fun _ h => h.elim) (fun _ _ => rfl) (fun _ _ => rfl)
    (fun q _ => ⟨rfl, fun f hf => ⟨((sameRec_store m pos buf).used f).2 (hinv.used q f hf), rfl⟩⟩) (fun _ h => h.elim)
    (fun _ _ _ h => h.elim) fun q i hu => hinv.own q i (((sameRec_store m pos buf).used _).1 hu)

/-! ## A new fragment -/

include hinv in
theorem newFrag_spec (hp : p < s.npacket) (h0 : 0 < n) (hn : n ≤ maxFragSize) (pos : Pos)
    (next : Option FragId) :
    ∃ f m h' l', fragalloc s.heap p n pos next = .ok (f, h') ∧ Inv { s with heap := h' } l' chain owed ∧ h'.Used l' f ∧
      (∀ q, f ∉ chain q) ∧ (h'.frag f).mem = some m ∧ (h'.mem m).ref = 1 ∧ h'.next f = next ∧ h'.fragsize f = n ∧
      Effect s.heap l h' l' [] ∧ ∀ q, ∀ g ∈ chain q, h'.bytes g = s.heap.bytes g := by
  obtain ⟨f, m, h', l', hrun, hheap, hgrown, hmem, hnext, hsize, hone, -, -⟩ := fragalloc_pos hinv.heap p h0 hn pos next
  obtain ⟨hinv', hused, hnot⟩ := hinv.grow hp hheap hgrown
  refine ⟨f, m, h', l', hrun, hinv', hused, hnot, hmem, hone, hnext, hsize, hgrown.effect ?_, fun q g hg => ?_⟩
  · intro hnone
    rw [hmem] at hnone
    exact nomatch hnone
  · exact hgrown.data.bytes (hgrown.same g fun heq => hnot q (heq ▸ hg))

include hinv hp in
theorem prepend_spec (hf : s.heap.Used l f) (hnot : ∀ q, f ∉ chain q)
    (hnext : s.heap.next f = (s.packet p).first) (hsize : r.size = (s.packet p).size) (hfirst : r.first = some f)
    (hlast : r.last = if (s.packet p).first = none then some f else (s.packet p).last) :
    Inv (s.setPacket p r) l (update chain p (f :: chain p)) (update owed p (owed p - s.heap.fragsize f)) := by
  have hq := hinv.queue p hp
  have hself : (s.setPacket p r).packet p = r := setPacket_self r
  refine hinv.change hp hinv.heap rfl rfl (fun q hne => setPacket_of_ne hne r) (fun q _ g hg => ⟨hinv.used q g hg, rfl⟩)
    ?_ ?_ ?_ ?_ ?_ ?_ hinv.own
  · rw [hself, hfirst, hlast]
    refine ⟨⟨rfl, ?_⟩, ?_, nodup_cons.2 ⟨hnot p, hq.nodup⟩⟩
    · rw [show (s.setPacket p r).heap = s.heap from rfl, hnext]
      exact hq.linked
    cases hc : chain p with
    | nil => rw [if_pos (hq.head_none_iff.2 hc)]; rfl
    | cons g c =>
      rw [if_neg fun hnone => cons_ne_nil g c (hc ▸ hq.head_none_iff.1 hnone), getLast?_cons_cons, hq.tail, hc]
  · intro g hg
    rcases mem_cons.1 hg with rfl | hg
    · exact hf
    · exact hinv.used p g hg
  · intro g hg q hne
    rcases mem_cons.1 hg with rfl | hg
    · exact hnot q
    · exact fun hin => hne (hinv.disj q p g hin hg)
  · rw [hself, hsize, hinv.size p hp]
    change total s.heap (chain p) + owed p = total s.heap (f :: chain p) + _
    rw [total_cons]
    omega
  · rw [hself, hsize]
    exact hp.2
  · rw [hself, hsize]
    exact hinv.limit p hp

include hinv in
theorem Ran.put (hinv' : Inv s' l' chain' owed') (hp : s.Live p) (heff : Effect s.heap l s'.heap l' [])
    (hlive : ∀ q, s'.Live q ↔ s.Live q) (hchain : ∀ q, q ≠ p → chain' q = chain q) {c1 : List FragId}
    (hsplit : chain' p = c0 ++ f :: c1) (hold : ∀ g ∈ c0 ++ c1, g ∈ chain p)
    (hother : ∀ q, ∀ g ∈ chain q, g ≠ f → s'.heap.bytes g = s.heap.bytes g) (hself : s'.heap.bytes f = x)
    (hx : Solid s chain → x ≠ []) :
    Ran s l chain [] s' l' chain' owed' (update (contents s) p (some (content s.heap c0 ++ x ++ content s.heap c1))) := by
  have hfmem : f ∈ chain' p := by simp [hsplit]
  have hne : f ∉ c0 ++ c1 := (nodup_cons.1 (perm_middle.nodup_iff.1 (hsplit ▸ hinv'.nodup p))).1
  have hpart : ∀ c, c ⊆ c0 ++ c1 → content s'.heap c = content s.heap c := fun c hc =>
    flatMap_congr fun g hg => hother p g (hold g (hc hg)) fun heq => hne (heq ▸ hc hg)
  refine ⟨hinv', heff, fun hs q g hg => ?_, funext fun q => ?_⟩
  · by_cases hgf : g = f
    · rw [hgf, hself]
      exact hx hs
    have hgc : g ∈ chain q := by
      by_cases hq : q = p
      · subst hq
        refine hold g ?_
        simpa [hsplit, hgf] using hg
      · rwa [hchain q hq] at hg
    rw [hother q g hgc hgf]
    exact hs q g hgc
  by_cases hq : q = p
  · subst hq
    rw [update_self, hinv'.contents_live ((hlive q).2 hp), hsplit, content_append, content_cons, hself,
      hpart c0 (subset_append_left ..), hpart c1 (subset_append_right ..), append_assoc]
  · rw [update_of_ne hq]
    exact contents_same hinv hinv' (hlive q) (hchain q hq) fun g hg => hother q g hg fun heq =>
      hq (hinv'.disj q p f (hchain q hq ▸ heq ▸ hg) hfmem)

include hinv in
theorem fill_spec (hinv1 : Inv s1 l1 chain1 owed1) (hp : s.Live p) (heff : Effect s.heap l s1.heap l1 [])
    (hsizes : ∀ q, s1.Live q ↔ s.Live q) (hchain : ∀ q, q ≠ p → chain1 q = chain q) {c1 : List FragId}
    (hsplit : chain1 p = c0 ++ f :: c1) (hold : chain p = c0 ++ c1)
    (hbytes : ∀ q, ∀ g ∈ chain q, s1.heap.bytes g = s.heap.bytes g) (hm : (s1.heap.frag f).mem = some m)
    (hone : (s1.heap.mem m).ref = 1) (h0 : 0 < buf.length) (hsize : s1.heap.fragsize f = buf.length) :
    Ran s l chain [] { s1 with heap := s1.heap.store m (s1.heap.frag f).rp buf } l1 chain1 owed1
      (update (contents s) p (some (content s.heap c0 ++ buf ++ content s.heap c1))) := by
  have hfused := hinv1.used p f (by simp [hsplit])
  refine Ran.put hinv (hinv1.store m (s1.heap.frag f).rp buf) hp (heff.trans ((sameRec_store m _ buf).effect l1)) hsizes hchain
    hsplit (fun g hg => hold ▸ hg) (fun q g hg hne => ?_) (bytes_store_self hm hsize) fun _ => length_pos_iff.1 h0
  have hg1 : g ∈ chain1 q := by
    by_cases hq : q = p
    · subst hq
      rw [hold, mem_append] at hg
      rw [hsplit, mem_append, mem_cons]
      exact hg.imp_right .inr
    · rwa [hchain q hq]
  exact (bytes_store_of_ne hinv1.heap hfused hm hone _ buf (hinv1.used q g hg1) hne).trans (hbytes q g hg)

/-! ## A fragment made larger -/

include hinv hp in
/-- New pointers for `f` into its memory, of which it is the only fragment, and `buf` stored there: `x` are its
bytes afterwards. -/
theorem widen_spec {c1 : List FragId} (hsplit : chain p = c0 ++ f :: c1)
    (hm : (s.heap.frag f).mem = some m) (hone : (s.heap.mem m).ref = 1) {rp wp : Nat} (hle : rp ≤ wp)
    (hwp : wp ≤ (s.heap.mem m).size) (pos : Nat) (buf : List UInt8)
    (hx : Memory.load (Memory.store (s.heap.dataOf f) pos buf) rp (wp - rp) = x) (hsolid : s.heap.bytes f ≠ [] → x ≠ []) :
    Ran s l chain [] { s with heap := (s.heap.store m pos buf).setFrag f { s.heap.frag f with rp := rp, wp := wp } } l chain
      (update owed p (owed p + s.heap.fragsize f - (wp - rp)))
      (update (contents s) p (some (content s.heap c0 ++ x ++ content s.heap c1))) := by
  have hfmem : f ∈ chain p := by simp [hsplit]
  have hused := hinv.used p f hfmem
  have hnd : f ∉ c0 ∧ f ∉ c1 := by
    have := hsplit ▸ hinv.nodup p
    rw [nodup_append] at this
    exact ⟨fun hin => this.2.2 f hin f (mem_cons_self ..) rfl, (nodup_cons.1 this.2.1).1⟩
  obtain ⟨hheap, hused'⟩ := @HeapInv.setUsed (s.heap.store m pos buf) l f { s.heap.frag f with rp := rp, wp := wp }
    (hinv.heap.store m pos buf) (((sameRec_store m pos buf).used f).2 hused) rfl rfl hle fun k hk => by
      obtain rfl : m = k := some.inj (hm.symm.trans hk)
      rw [(store_sizes m pos buf m).1]
      exact hwp
  have hsame : ∀ g, g ≠ f → ((s.heap.store m pos buf).setFrag f { s.heap.frag f with rp := rp, wp := wp }).frag g =
      s.heap.frag g := fun g hg => setFrag_frag_of_ne _ hg _
  have hother : ∀ q, ∀ g ∈ chain q, g ≠ f →
      ((s.heap.store m pos buf).setFrag f { s.heap.frag f with rp := rp, wp := wp }).bytes g = s.heap.bytes g := by
    intro q g hg hne
    rw [← bytes_store_of_ne hinv.heap hused hm hone pos buf (hinv.used q g hg) hne]
    exact SameData.bytes ⟨fun _ => rfl, rfl⟩ (hsame g hne)
  have hself : ((s.heap.store m pos buf).setFrag f { s.heap.frag f with rp := rp, wp := wp }).bytes f = x := by
    rw [← hx, ← dataOf_store hm]
    rw [Heap.bytes, Heap.dataOf, Heap.dataOf, setFrag_frag_self]
    rfl
  have hset := @sameRec_setFrag f (s.heap.store m pos buf) { s.heap.frag f with rp := rp, wp := wp } rfl rfl rfl rfl
  have hrec : SameRec s.heap ((s.heap.store m pos buf).setFrag f { s.heap.frag f with rp := rp, wp := wp }) :=
    ⟨hset.state, hset.mem, hset.stale, hset.nfrag⟩
  have hnext : ((s.heap.store m pos buf).setFrag f { s.heap.frag f with rp := rp, wp := wp }).next = s.heap.next := by
    rw [next_setFrag]
    exact update_eq_self f s.heap.next
  have hsize : ((s.heap.store m pos buf).setFrag f { s.heap.frag f with rp := rp, wp := wp }).fragsize f = wp - rp := by
    rw [Heap.fragsize, setFrag_frag_self]
  generalize (s.heap.store m pos buf).setFrag f { s.heap.frag f with rp := rp, wp := wp } = h' at *
  have htotal : total h' (chain p) = total s.heap (chain p) - s.heap.fragsize f + (wp - rp) := by
    rw [hsplit, total_append, total_append, total_cons, total_cons, hsize,
      total_congr fun g hg => hsame g fun heq => hnd.1 (heq ▸ hg), total_congr fun g hg => hsame g fun heq => hnd.2 (heq ▸ hg)]
    omega
  have hinv' : Inv { s with heap := h' } l chain (update owed p (owed p + s.heap.fragsize f - (wp - rp))) := by
    have := @Inv.change p s { s with heap := h' } l l chain owed hinv (chain p) (owed p + s.heap.fragsize f - (wp - rp)) hp
      hheap rfl rfl (fun _ _ => rfl) (fun q hq g hg => ⟨(hused' g).2 (hinv.used q g hg), hsame g ?_⟩) ?_
      (fun g hg => (hused' g).2 (hinv.used p g hg)) (fun g hg q hq hin => hq (hinv.disj q p g hin hg)) ?_ hp.2
      (hinv.limit p hp) fun q i hu => hinv.own q i ((hused' _).1 hu)
    · rwa [update_eq_self] at this
    · exact fun heq => hq (hinv.disj q p g hg (heq ▸ hfmem))
    · exact (hinv.queue p hp).congr fun g _ => congrFun hnext g
    · rw [htotal, hinv.size p hp]
      omega
  exact Ran.put hinv hinv' hp (hrec.effect l) (fun _ => Iff.rfl) (fun _ _ => rfl) hsplit
    (fun g hg => hsplit ▸ (perm_middle.mem_iff.2 (mem_cons_of_mem f hg))) hother hself fun hs => hsolid (hs p f hfmem)

include hinv hp in
theorem widenBack_spec (hsplit : chain p = c0 ++ [f])
    (hm : (s.heap.frag f).mem = some m) (hone : (s.heap.mem m).ref = 1)
    (hwp : (s.heap.frag f).wp + buf.length ≤ (s.heap.mem m).size) :
    Ran s l chain []
      { s with
        heap := (s.heap.store m (s.heap.frag f).wp buf).setFrag f
          { s.heap.frag f with wp := (s.heap.frag f).wp + buf.length } } l chain
      (update owed p (owed p - buf.length)) (modify (contents s) p (· ++ buf)) := by
  have horder := hinv.heap.order f
  have hx : Memory.load (Memory.store (s.heap.dataOf f) (s.heap.frag f).wp buf) (s.heap.frag f).rp
      ((s.heap.frag f).wp + buf.length - (s.heap.frag f).rp) = s.heap.bytes f ++ buf := by
    have := @Memory.load_store_back _ (s.heap.dataOf f) (s.heap.frag f).rp ((s.heap.frag f).wp - (s.heap.frag f).rp) buf
    rw [Nat.add_sub_cancel' horder] at this
    rw [Heap.bytes, ← this]
    exact congrArg _ (by omega)
  have hwide := widen_spec hinv hp hsplit hm hone (by omega) hwp (s.heap.frag f).wp buf hx fun hne hnil =>
    hne (append_eq_nil_iff.1 hnil).1
  have howed : owed p + s.heap.fragsize f - (((s.heap.frag f).wp + buf.length : Nat) - (s.heap.frag f).rp) =
      owed p - buf.length := by
    rw [Heap.fragsize]
    omega
  rw [howed] at hwide
  rw [modify_some (hinv.contents_live hp), hsplit, content_append, append_assoc]
  simpa using hwide

include hinv hp in
theorem widenFront_spec {c1 : List FragId} (hsplit : chain p = f :: c1)
    (hm : (s.heap.frag f).mem = some m) (hone : (s.heap.mem m).ref = 1)
    (hrp : buf.length ≤ (s.heap.frag f).rp) :
    Ran s l chain []
      { s with
        heap := (s.heap.store m ((s.heap.frag f).rp - buf.length) buf).setFrag f
          { s.heap.frag f with rp := (s.heap.frag f).rp - buf.length } } l chain
      (update owed p (owed p - buf.length)) (modify (contents s) p (buf ++ ·)) := by
  have horder := hinv.heap.order f
  have hx : Memory.load (Memory.store (s.heap.dataOf f) ((s.heap.frag f).rp - buf.length) buf)
      ((s.heap.frag f).rp - buf.length) ((s.heap.frag f).wp - ((s.heap.frag f).rp - buf.length)) =
      buf ++ s.heap.bytes f := by
    have := @Memory.load_store_front _ (s.heap.dataOf f) ((s.heap.frag f).rp - buf.length)
      ((s.heap.frag f).wp - (s.heap.frag f).rp) buf
    rw [Nat.sub_add_cancel hrp] at this
    rw [Heap.bytes, ← this]
    exact congrArg _ (by omega)
  have hwide := @widen_spec [] _ s l chain owed p f m hinv hp c1 hsplit hm hone ((s.heap.frag f).rp - buf.length)
    (s.heap.frag f).wp (by omega) (hinv.heap.bounds f m hm).2 _ buf hx fun hne hnil => hne (append_eq_nil_iff.1 hnil).2
  have howed : owed p + s.heap.fragsize f - ((s.heap.frag f).wp - ((s.heap.frag f).rp - buf.length : Nat)) =
      owed p - buf.length := by
    rw [Heap.fragsize]
    omega
  rw [howed] at hwide
  rw [modify_some (hinv.contents_live hp), hsplit, content_cons, ← append_assoc]
  simpa using hwide

/-! ## Adding at the end -/

theorem setPacket_eq_self (s : State) (p : Nat) : s.setPacket p (s.packet p) = s := by
  rw [State.setPacket, update_eq_self]

include hinv hp in
/-- **One round of `packetappend`**: a fragment of `n` bytes at the end. -/
theorem appendRound_spec (h0 : 0 < n) (hn : n ≤ maxFragSize)
    (pos : Pos) :
    ∃ f m h l', fragalloc s.heap p n pos none = .ok (f, h) ∧ (h.frag f).mem = some m ∧
      ∀ r : Packet, r.size = (s.packet p).size → r.first = (s.packet p).first → r.last = (s.packet p).last →
        ∃ s1 chain', State.link ({ s with heap := h }.setPacket p r) p f = .ok s1 ∧ s1.heap.frag f = h.frag f ∧ s1.Live p ∧
          ∀ buf : List UInt8, buf.length = n →
            Ran s l chain [] { s1 with heap := s1.heap.store m (s1.heap.frag f).rp buf } l' chain'
              (update owed p (owed p - n)) (modify (contents s) p (· ++ buf)) := by
  obtain ⟨f, m, h, l', hrun, hinv', hused, hnot, hmem, hone, hnext, hsize, heff, hbytes⟩ :=
    newFrag_spec hinv hp.1 h0 hn pos none
  refine ⟨f, m, h, l', hrun, hmem, fun r hrsize hfirst hlast => ?_⟩
  have hpos := hp.2
  have hinv2 : Inv ({ s with heap := h }.setPacket p r) l' chain owed := by
    have := @Inv.record r { s with heap := h } l' chain owed p hinv' hp (owed p) hfirst hlast
      (hrsize.trans (hinv'.size p hp)) (by omega) (by have := hinv.limit p hp; omega)
    rwa [update_eq_self] at this
  have hlive2 := @live_setPacket r { s with heap := h } p hp (by omega)
  obtain ⟨s1, hlink, hinv1, hrec, hbytes1, hfrag, hmem1, hsizes, hnp⟩ := link_spec hinv2 ((hlive2 p).2 hp) hused hnot hnext
  have hlive1 : ∀ q, s1.Live q ↔ s.Live q := fun q => by
    rw [State.Live, hsizes q, hnp]
    exact hlive2 q
  refine ⟨s1, update chain p (chain p ++ [f]), hlink, hfrag, (hlive1 p).2 hp, fun buf hbuf => ?_⟩
  have hfsize : s1.heap.fragsize f = buf.length := (fragsize_congr hfrag).trans (hsize.trans hbuf.symm)
  have hfill := fill_spec hinv hinv1 hp (heff.trans (hrec.effect l')) hlive1 (fun q hq => update_of_ne hq ..)
    ((update_self ..).trans rfl) (append_nil _).symm (fun q g hg => (hbytes1 g).trans (hbytes q g hg))
    (by rw [hfrag]; exact hmem) (by rw [hmem1]; exact hone) (by omega) hfsize
  rw [show (({ s with heap := h } : State).setPacket p r).heap.fragsize f = n from hsize] at hfill
  rw [modify_some (hinv.contents_live hp)]
  rwa [content_nil, append_nil] at hfill

include hinv hp in
/-- **One round of `packetprefix`**: a fragment of `n` bytes at the start. -/
theorem prefixRound_spec (h0 : 0 < n) (hn : n ≤ maxFragSize)
    (pos : Pos) :
    ∃ f m h l' chain', fragalloc s.heap p n pos (s.packet p).first = .ok (f, h) ∧ (h.frag f).mem = some m ∧
      ∀ r : Packet, r.size = (s.packet p).size → r.first = some f →
        r.last = (if (s.packet p).first = none then some f else (s.packet p).last) →
        ({ s with heap := h }.setPacket p r).Live p ∧ ∀ buf : List UInt8, buf.length = n →
          Ran s l chain [] { s.setPacket p r with heap := h.store m (h.frag f).rp buf } l' chain'
            (update owed p (owed p - n)) (modify (contents s) p (buf ++ ·)) := by
  obtain ⟨f, m, h, l', hrun, hinv', hused, hnot, hmem, hone, hnext, hsize, heff, hbytes⟩ :=
    newFrag_spec hinv hp.1 h0 hn pos (s.packet p).first
  refine ⟨f, m, h, l', update chain p (f :: chain p), hrun, hmem, fun r hrsize hfirst hlast => ?_⟩
  have hpos := hp.2
  have hinv1 := @prepend_spec r { s with heap := h } l' chain owed p f hinv' hp hused hnot hnext hrsize hfirst hlast
  have hlive1 := @live_setPacket r { s with heap := h } p hp (by omega)
  refine ⟨(hlive1 p).2 hp, fun buf hbuf => ?_⟩
  have hfill := @fill_spec [] buf s _ l l' chain _ owed _ p f m hinv hinv1 hp heff hlive1
    (fun q hq => update_of_ne hq ..) (chain p) ((update_self ..).trans rfl) rfl hbytes hmem hone (by omega)
    (hsize.trans hbuf.symm)
  rw [show ({ s with heap := h } : State).heap.fragsize f = n from hsize] at hfill
  rw [modify_some (hinv.contents_live hp)]
  exact hfill

include hp in
theorem live_of_modify {c : Nat → Option (List UInt8)} (hc : c = contents s) (hs' : contents s' = modify c p g) : s'.Live p := by
  refine contents_isSome (x := g (content s.heap (chainOf s p))) ?_
  rw [hs', modify, update_self, hc, show contents s p = some (content s.heap (chainOf s p)) from if_pos hp]
  rfl

theorem Ran.unowed (hinv : Inv s l chain (update (fun _ => 0) p (0 : Nat))) (hg : ∀ x, g x = x) :
    Ran s l chain [] s l chain (fun _ => 0) (modify (contents s) p g) := by
  rw [Int.natCast_zero, update_eq_self] at hinv
  rw [modify_id hg]
  exact Ran.refl hinv []

theorem appendLoop_spec : ∀ (k : Nat) (s : State) (l : List FragId) (chain : Nat → List FragId) (buf : List UInt8),
    Inv s l chain (update (fun _ => 0) p buf.length) → s.Live p → buf.length ≤ k →
    ∃ s' l' chain', appendLoop p k s buf buf.length = .ok s' ∧
      Ran s l chain [] s' l' chain' (fun _ => 0) (modify (contents s) p (· ++ buf)) := by
  intro k
  induction k with
  | zero =>
    intro s l chain buf hinv _ hk
    obtain rfl : buf = [] := eq_nil_of_length_eq_zero (Nat.le_zero.1 hk)
    exact ⟨s, l, chain, rfl, .unowed hinv append_nil⟩
  | succ k ih =>
    intro s l chain buf hinv hp hk
    by_cases h0 : (buf.length : Int) ≤ 0
    · obtain rfl : buf = [] := eq_nil_of_length_eq_zero (by omega)
      exact ⟨s, l, chain, rfl, .unowed hinv append_nil⟩
    generalize hnn : (if (buf.length : Int) > maxFragSize then (maxFragSize : Int) else buf.length) = nn
    have hmax : maxFragSize = 9216 := rfl
    have hlen : ((buf.take nn.toNat).length : Int) = nn ∧ 0 < nn ∧ nn ≤ maxFragSize ∧ nn ≤ buf.length := by
      rw [length_take, ← hnn]
      split <;> omega
    obtain ⟨f, m, h, l1, hrun, hmem, hround⟩ := appendRound_spec hinv hp hlen.2.1 hlen.2.2.1
      (if (s.packet p).first = none then Pos.pMiddle else .pFront)
    obtain ⟨s1, chain1, hlink, hfrag, -, hfill⟩ := hround (s.packet p) rfl rfl rfl
    have hran := hfill (buf.take nn.toNat) hlen.1
    rw [show ({ s with heap := h } : State).setPacket p (s.packet p) = { s with heap := h } from
      setPacket_eq_self { s with heap := h } p] at hlink
    rw [← hfrag] at hmem
    generalize hs2 : ({ s1 with heap := s1.heap.store m (s1.heap.frag f).rp (buf.take nn.toNat) } : State) = s2 at hran
    have hdrop : ((buf.drop nn.toNat).length : Int) = buf.length - nn := by
      rw [length_drop]
      omega
    have hinv2 := hran.inv
    rw [update_idem, update_self, ← hdrop] at hinv2
    have hlive2 : s2.Live p := live_of_modify hp rfl hran.holds
    obtain ⟨s', l', chain', hloop, hran'⟩ := ih s2 l1 chain1 (buf.drop nn.toNat) hinv2 hlive2 (by omega)
    refine ⟨s', l', chain', ?_, ?_⟩
    · rw [appendLoop, if_neg h0, hnn]
      simp only [bind, Except.bind, hrun, hlink, hmem, deref, hs2]
      rw [← hdrop]
      exact hloop
    have := hran.trans hran'
    rw [hran.holds, modify_modify] at this
    refine ⟨this.inv, this.effect, this.solid, this.holds.trans (congrArg (modify (contents s) p) (funext fun x => ?_))⟩
    change x ++ buf.take nn.toNat ++ buf.drop nn.toNat = x ++ buf
    rw [append_assoc, take_append_drop]

/-! ## The size while data is added -/

theorem link_size (s : State) (p : Nat) (f : FragId) :
    Outcome (fun _ => True) (fun s' => (s'.packet p).size = (s.packet p).size) (s.link p f) := by
  unfold State.link
  dsimp only
  split
  · exact (congrArg Packet.size (setPacket_self _)).trans rfl
  · refine Outcome.any.bind fun last _ => ?_
    exact (congrArg Packet.size (setPacket_self _)).trans rfl

theorem appendLoop_size : ∀ (k : Nat) (s : State) (buf : List UInt8) (n : Int),
    Outcome (fun _ => True) (fun s' => (s'.packet p).size = (s.packet p).size) (appendLoop p k s buf n) := by
  intro k
  induction k with
  | zero => exact fun s buf n => rfl
  | succ k ih =>
    intro s buf n
    rw [appendLoop]
    split
    · rfl
    · refine Outcome.any.bind fun r _ => (link_size _ p r.1).bind fun s1 hs1 => Outcome.any.bind fun m _ => ?_
      exact (ih _ _ _).mono (fun _ => id) fun s' hs' => hs'.trans hs1

theorem notfree_of_neg (h : (s.packet p).size < 0) : s.notfree p = .error .assert := if_neg (by omega)

theorem notfree_of_live (h : s.Live p) : s.notfree p = .ok () := if_pos h.2

theorem int32_add_neg {x : Int} (hx : x < 2 ^ 31) (hn : n < 2 ^ 31) (hsum : ¬ x + n < 2 ^ 31) : int32 (x + n) < 0 := by
  have h := int32_emod (x + n)
  have hle := int32_le_max (x + n)
  omega

/-! ## `packetappend` -/

/-- There is room for `n` bytes more, and the memories are those of `p` only. -/
def Roomy (s : State) (chain : Nat → List FragId) (p : Nat) (n : Int) : Prop :=
  (s.packet p).size + n < 2 ^ 31 ∧ ∀ f ∈ chain p, ∃ m, (s.heap.frag f).mem = some m ∧ (s.heap.mem m).ref = 1

theorem Roomy.ref (h : Roomy s chain p n) (hf : f ∈ chain p) (hm : (s.heap.frag f).mem = some m) :
    (s.heap.mem m).ref = 1 := by
  obtain ⟨k, hk, hone⟩ := h.2 f hf
  rwa [some.inj (hm.symm.trans hk)]

theorem Roomy.mem (h : Roomy s chain p n) (hf : f ∈ chain p) : (s.heap.frag f).mem ≠ none := by
  obtain ⟨m, hm, -⟩ := h.2 f hf
  exact hm ▸ some_ne_none m

theorem grow_spec (hinv : Inv s l chain fun _ => 0) (hp : s.Live p) (hn : 0 ≤ n) (hlt : n < 2 ^ 31)
    (hs1 : s.setPacket p { s.packet p with size := int32 ((s.packet p).size + n) } = s1) :
    (Ran s l chain [] s1 l chain (update (fun _ => 0) p n) (contents s) ∧ s1.Live p ∧ s1.heap = s.heap) ∨
      (s1.packet p).size < 0 ∧ ¬ Roomy s chain p n := by
  subst hs1
  by_cases hsum : (s.packet p).size + n < 2 ^ 31
  · have hpos := hp.2
    rw [int32_eq (by omega) hsum]
    exact .inl ⟨owe_spec hinv hp hn hsum rfl, (live_setPacket hp (by dsimp only; omega) p).2 hp, rfl⟩
  · refine .inr ⟨?_, fun h => hsum h.1⟩
    rw [setPacket_self]
    exact int32_add_neg (hinv.limit p hp) hlt hsum

theorem packetappend_spec (hinv : Inv s l chain (fun _ => 0)) (hp : s.Live p) (hlen : buf.length < 2 ^ 31) :
    Outcome (fun _ => ¬ Roomy s chain p buf.length)
      (fun s' => ∃ l' chain', Ran s l chain [] s' l' chain' (fun _ => 0) (modify (contents s) p (· ++ buf)))
      (packetappend s p buf buf.length) := by
  unfold packetappend
  rw [notfree_of_live hp]
  change Outcome _ _ (if (buf.length : Int) ≤ 0 then Except.ok s else _)
  split
  · obtain rfl : buf = [] := eq_nil_of_length_eq_zero (by omega)
    refine ⟨l, chain, ?_⟩
    rw [modify_id fun x => append_nil x]
    exact Ran.refl hinv []
  generalize hs1 : s.setPacket p { s.packet p with size := int32 ((s.packet p).size + buf.length) } = s1
  rcases grow_spec hinv hp (Int.natCast_nonneg buf.length) (by omega) hs1 with ⟨howe, hlive1, hheap⟩ | ⟨hneg, hroom⟩
  · have hfinish : ∀ (s2 : State) (buf1 buf2 : List UInt8) (n2 : Int), buf1 ++ buf2 = buf → n2 = buf2.length →
        Ran s l chain [] s2 l chain (update (fun _ => 0) p buf2.length) (modify (contents s) p (· ++ buf1)) →
        s2.Live p → Outcome (fun _ => ¬ Roomy s chain p buf.length)
          (fun s' => ∃ l' chain', Ran s l chain [] s' l' chain' (fun _ => 0) (modify (contents s) p (· ++ buf)))
          (do let s ← appendLoop p n2.toNat s2 buf2 n2; s.notfree p; return s) := by
      rintro s2 buf1 buf2 n2 rfl rfl hran hlive2
      obtain ⟨s', l', chain', hloop, hran'⟩ := appendLoop_spec buf2.length s2 l chain buf2 hran.inv hlive2 le_rfl
      have hlive' : s'.Live p := live_of_modify hlive2 rfl hran'.holds
      rw [Int.toNat_natCast, hloop]
      change Outcome _ _ (s'.notfree p >>= _)
      rw [notfree_of_live hlive']
      refine ⟨l', chain', (hran.trans hran').inv, (hran.trans hran').effect, (hran.trans hran').solid, ?_⟩
      rw [hran'.holds, hran.holds, modify_modify]
      exact congrArg (modify (contents s) p) (funext fun x => append_assoc x buf1 buf2)
    have hq := hinv.queue p hp
    split
    · exact hfinish s1 [] buf buf.length rfl rfl (by rw [modify_id fun x => append_nil x]; exact howe) hlive1
    rename_i first hfirst
    obtain ⟨c0, f, hchain, hlast⟩ := hq.exists_last hfirst
    have hfmem : f ∈ chain p := by simp [hchain]
    rw [hlast]
    change Outcome _ _ (deref (s1.heap.frag f).mem >>= _)
    cases hm : (s.heap.frag f).mem with
    | none =>
      rw [hheap, hm]
      exact fun hroom => hroom.mem hfmem hm
    | some m =>
      rw [hheap, hm]
      change Outcome _ _ (if (s.heap.mem m).ref ≠ 1 then _ else _)
      split
      · rename_i href
        exact fun hroom => href (hroom.ref hfmem hm)
      rename_i hone
      have hbound := (hinv.heap.bounds f m hm).2
      generalize hnn : (if ((s.heap.mem m).size : Int) - (s.heap.frag f).wp > buf.length then (buf.length : Int)
        else (s.heap.mem m).size - (s.heap.frag f).wp) = nn
      have hnn' : 0 ≤ nn ∧ nn ≤ buf.length ∧ (s.heap.frag f).wp + nn ≤ (s.heap.mem m).size := by
        rw [← hnn]
        split <;> omega
      have htake : (buf.take nn.toNat).length = nn.toNat := by
        rw [length_take]
        omega
      have hdrop : ((buf.drop nn.toNat).length : Int) = buf.length - nn := by
        rw [length_drop]
        omega
      have hwide := @widenBack_spec c0 (buf.take nn.toNat) s1 l chain _ p f m howe.inv hlive1 hchain (hheap ▸ hm)
        (hheap ▸ Decidable.not_not.1 hone) (by rw [hheap]; omega)
      rw [hheap, htake, update_idem, update_self, Int.toNat_of_nonneg hnn'.1, ← hdrop, howe.holds] at hwide
      exact hfinish _ (buf.take nn.toNat) (buf.drop nn.toNat) (buf.length - nn) (take_append_drop ..) hdrop.symm
        (howe.trans hwide) hlive1
  refine Outcome.mono (B := fun _ => True) (Q := fun _ => False) ?_ (fun _ _ => hroom) fun _ h => h.elim
  have hfinish : ∀ (s2 : State) (buf2 : List UInt8) (n2 : Int), (s2.packet p).size < 0 →
      Outcome (fun _ => True) (fun _ => False) (do let s ← appendLoop p n2.toNat s2 buf2 n2; s.notfree p; return s) := by
    refine fun s2 buf2 n2 h2 => (appendLoop_size _ _ _ _).bind fun s' hs' => ?_
    rw [notfree_of_neg (by omega)]
    trivial
  split
  · exact hfinish _ _ _ hneg
  refine Outcome.any.bind fun f _ => Outcome.any.bind fun m _ => ?_
  split
  · trivial
  · exact hfinish _ _ _ hneg

/-! ## `packetprefix` -/

theorem prefixLoop_spec : ∀ (k : Nat) (s : State) (l : List FragId) (chain : Nat → List FragId) (buf : List UInt8) (n : Nat),
    Inv s l chain (update (fun _ => 0) p n) → s.Live p → n ≤ k → n ≤ buf.length →
    ∃ s' l' chain', prefixLoop p k s buf n = .ok s' ∧
      Ran s l chain [] s' l' chain' (fun _ => 0) (modify (contents s) p (buf.take n ++ ·)) := by
  intro k
  induction k with
  | zero =>
    intro s l chain buf n hinv _ hk _
    obtain rfl : n = 0 := Nat.le_zero.1 hk
    exact ⟨s, l, chain, rfl, .unowed hinv nil_append⟩
  | succ k ih =>
    intro s l chain buf n hinv hp hk hbuf
    by_cases h0 : (n : Int) ≤ 0
    · obtain rfl : n = 0 := by omega
      exact ⟨s, l, chain, rfl, .unowed hinv nil_append⟩
    generalize hnn : (if (n : Int) > maxFragSize then (maxFragSize : Int) else n) = nn
    have hnn' : 0 < nn ∧ nn ≤ maxFragSize ∧ nn ≤ n := by
      have hmax : maxFragSize = 9216 := rfl
      rw [← hnn]
      split <;> omega
    obtain ⟨f, m, h, l1, chain1, hrun, hmem, hround⟩ := prefixRound_spec hinv hp hnn'.1 hnn'.2.1 .pEnd
    have hpart : ((((buf.drop (n - nn).toNat).take nn.toNat).length : Nat) : Int) = nn := by
      rw [length_take, length_drop]
      omega
    have hran := (hround { s.packet p with
                           asize := (s.packet p).asize + h.fragasize f, first := some f,
                           last := if (s.packet p).first = none then some f else (s.packet p).last } rfl rfl rfl).2 _ hpart
    generalize hs2 : ({ s.setPacket p { s.packet p with
        asize := (s.packet p).asize + h.fragasize f, first := some f,
        last := if (s.packet p).first = none then some f else (s.packet p).last } with
      heap := h.store m (h.frag f).rp ((buf.drop (n - nn).toNat).take nn.toNat) } : State) = s2 at hran
    have hleft : ((n - nn).toNat : Int) = n - nn := by omega
    have hinv2 := hran.inv
    rw [update_idem, update_self, ← hleft] at hinv2
    obtain ⟨s', l', chain', hloop, hran'⟩ := ih s2 l1 chain1 buf (n - nn).toNat hinv2 (live_of_modify hp rfl hran.holds)
      (by omega) (by omega)
    refine ⟨s', l', chain', ?_, ?_⟩
    · rw [prefixLoop, if_neg h0, hnn]
      simp only [bind, Except.bind, hrun, hmem, deref]
      rw [← hleft]
      subst hs2
      exact hloop
    have := hran.trans hran'
    rw [hran.holds, modify_modify] at this
    refine ⟨this.inv, this.effect, this.solid, this.holds.trans (congrArg (modify (contents s) p) (funext fun x => ?_))⟩
    change buf.take (n - nn).toNat ++ ((buf.drop (n - nn).toNat).take nn.toNat ++ x) = buf.take n ++ x
    rw [← append_assoc, ← take_add, show (n - nn).toNat + nn.toNat = n by omega]

theorem prefixLoop_size : ∀ (k : Nat) (s : State) (buf : List UInt8) (n : Int),
    Outcome (fun _ => True) (fun s' => (s'.packet p).size = (s.packet p).size) (prefixLoop p k s buf n) := by
  intro k
  induction k with
  | zero => exact fun s buf n => rfl
  | succ k ih =>
    intro s buf n
    rw [prefixLoop]
    split
    · rfl
    · refine Outcome.any.bind fun r _ => Outcome.any.bind fun m _ => ?_
      exact (ih _ _ _).mono (fun _ => id) fun s' hs' => hs'.trans ((congrArg Packet.size (setPacket_self _)).trans rfl)

theorem packetprefix_spec (hinv : Inv s l chain (fun _ => 0)) (hp : s.Live p) (hlen : buf.length < 2 ^ 31) :
    Outcome (fun _ => ¬ Roomy s chain p buf.length)
      (fun s' => ∃ l' chain', Ran s l chain [] s' l' chain' (fun _ => 0) (modify (contents s) p (buf ++ ·)))
      ( packetprefix s p buf buf.length) := by
  unfold packetprefix
  rw [notfree_of_live hp]
  change Outcome _ _ (if (buf.length : Int) ≤ 0 then Except.ok s else _)
  split
  · obtain rfl : buf = [] := eq_nil_of_length_eq_zero (by omega)
    refine ⟨l, chain, ?_⟩
    rw [modify_id fun x => nil_append x]
    exact Ran.refl hinv []
  generalize hs1 : s.setPacket p { s.packet p with size := int32 ((s.packet p).size + buf.length) } = s1
  rcases grow_spec hinv hp (Int.natCast_nonneg buf.length) (by omega) hs1 with ⟨howe, hlive1, hheap⟩ | ⟨hneg, hroom⟩
  · have hfinish : ∀ (s2 : State) (n2 : Nat), n2 ≤ buf.length →
        Ran s l chain [] s2 l chain (update (fun _ => 0) p n2) (modify (contents s) p (buf.drop n2 ++ ·)) →
        s2.Live p → Outcome (fun _ => ¬ Roomy s chain p buf.length)
          (fun s' => ∃ l' chain', Ran s l chain [] s' l' chain' (fun _ => 0) (modify (contents s) p (buf ++ ·)))
          (do let s ← prefixLoop p (n2 : Int).toNat s2 buf n2; s.notfree p; return s) := by
      intro s2 n2 hn2 hran hlive2
      obtain ⟨s', l', chain', hloop, hran'⟩ := prefixLoop_spec n2 s2 l chain buf n2 hran.inv hlive2 le_rfl hn2
      have hlive' : s'.Live p := live_of_modify hlive2 rfl hran'.holds
      rw [Int.toNat_natCast, hloop]
      change Outcome _ _ (s'.notfree p >>= _)
      rw [notfree_of_live hlive']
      refine ⟨l', chain', (hran.trans hran').inv, (hran.trans hran').effect, (hran.trans hran').solid, ?_⟩
      rw [hran'.holds, hran.holds, modify_modify]
      refine congrArg (modify (contents s) p) (funext fun x => ?_)
      change buf.take n2 ++ (buf.drop n2 ++ x) = buf ++ x
      rw [← append_assoc, take_append_drop]
    have hq := hinv.queue p hp
    split
    · refine hfinish s1 buf.length le_rfl ?_ hlive1
      rw [drop_length, modify_id fun x => nil_append x]
      exact howe
    rename_i f hfirst
    obtain ⟨c1, hchain⟩ : ∃ c1, chain p = f :: c1 := head?_eq_some_iff.1 (hq.head ▸ hfirst)
    have hfmem : f ∈ chain p := by simp [hchain]
    rw [hheap]
    rcases Option.eq_none_or_eq_some (s.heap.frag f).mem with hm | ⟨m, hm⟩
    · rw [show deref (s.heap.frag f).mem = .error .nilDeref by rw [hm]; rfl]
      exact fun hroom => hroom.mem hfmem hm
    rw [show deref (s.heap.frag f).mem = .ok m by rw [hm]; rfl]
    change Outcome _ _ (if (s.heap.mem m).ref ≠ 1 then _ else _)
    split
    · rename_i href
      exact fun hroom => href (hroom.ref hfmem hm)
    rename_i hone
    generalize hnn : (if ((s.heap.frag f).rp : Int) > buf.length then (buf.length : Int) else (s.heap.frag f).rp) = nn
    obtain ⟨n2, hn2⟩ : ∃ n2 : Nat, (buf.length : Int) - nn = n2 := ⟨(buf.length - nn).toNat, by omega⟩
    have hdrop : (buf.drop n2).take nn.toNat = buf.drop n2 := take_of_length_le (by rw [length_drop]; omega)
    have hlength : ((buf.drop n2).length : Int) = nn := by
      rw [length_drop]
      omega
    have hwide := @widenFront_spec (buf.drop n2) s1 l chain _ p f m howe.inv hlive1 c1 hchain (hheap ▸ hm)
      (hheap ▸ Decidable.not_not.1 hone) (by rw [hheap]; omega)
    rw [hheap, hlength, update_idem, update_self, hn2, howe.holds,
      show (buf.drop n2).length = nn.toNat by omega] at hwide
    rw [hn2, Int.toNat_natCast, hdrop]
    exact hfinish _ n2 (by omega) (howe.trans hwide) hlive1
  refine Outcome.mono (B := fun _ => True) (Q := fun _ => False) ?_ (fun _ _ => hroom) fun _ h => h.elim
  have hfinish : ∀ (s2 : State) (n2 : Int), (s2.packet p).size < 0 →
      Outcome (fun _ => True) (fun _ => False) (do let s ← prefixLoop p n2.toNat s2 buf n2; s.notfree p; return s) := by
    refine fun s2 n2 h2 => (prefixLoop_size _ _ _ _).bind fun s' hs' => ?_
    rw [notfree_of_neg (by omega)]
    trivial
  split
  · exact hfinish _ _ hneg
  refine Outcome.any.bind fun m _ => ?_
  split
  · trivial
  · exact hfinish _ _ hneg

/-! ## `packetheader` and `packettrailer` -/

/-- The space that is returned, filled by the caller, is what is added. -/
def Filled (s : State) (l : List FragId) (chain : Nat → List FragId) (p : Nat) (n : Int)
    (g : List UInt8 → List UInt8 → List UInt8) : Option (Nat × Nat) × State → Prop
  | (none, s') => ¬ (0 < n ∧ n ≤ maxFragSize) ∧ s' = s
  | (some (m, pos), s') => (0 < n ∧ n ≤ maxFragSize) ∧ ∀ fill : List UInt8, fill.length = n →
      ∃ l' chain', Ran s l chain [] { s' with heap := s'.heap.store m pos fill } l' chain' (fun _ => 0) (modify (contents s) p (g fill))

theorem headerInPlace_neg (m : Nat) (n : Int) (h : (s.packet p).size < 0) :
    Outcome (fun _ => True) (fun _ => False) (headerInPlace s p f m n) := by
  unfold headerInPlace
  split
  · trivial
  · dsimp only
    rw [notfree_of_neg (by exact h)]
    trivial

theorem headerAlloc_neg (n : Int) (h : (s.packet p).size < 0) : Outcome (fun _ => True) (fun _ => False) (headerAlloc s p n) := by
  refine Outcome.any.bind fun r _ => ?_
  dsimp only
  rw [notfree_of_neg (by rw [setPacket_self]; exact h)]
  trivial

theorem headerInPlace_spec (hran : Ran s l chain [] s1 l chain (update (fun _ => 0) p n) (contents s))
    (hp1 : s1.Live p) {c1 : List FragId} (hchain : chain p = f :: c1) (hm : (s1.heap.frag f).mem = some m)
    (hn : 0 < n ∧ n ≤ maxFragSize) (hrp : n ≤ (s1.heap.frag f).rp) :
    Outcome (fun _ => (s1.heap.mem m).ref ≠ 1) (Filled s l chain p n fun fill x => fill ++ x) (headerInPlace s1 p f m n) := by
  unfold headerInPlace
  split
  · assumption
  rename_i hone
  dsimp only
  rw [notfree_of_live (by exact hp1), setFrag_frag_self]
  refine ⟨hn, fun fill hfill => ⟨l, chain, ?_⟩⟩
  have hwide := @widenFront_spec fill s1 l chain _ p f m hran.inv hp1 c1 hchain hm (Decidable.not_not.1 hone) (by omega)
  rw [update_idem, update_self, hfill, Int.sub_self, update_eq_self, hran.holds,
    show fill.length = n.toNat by omega] at hwide
  exact hran.trans hwide

theorem headerAlloc_spec (hran : Ran s l chain [] s1 l chain (update (fun _ => 0) p n) (contents s))
    (hp1 : s1.Live p) (hn : 0 < n ∧ n ≤ maxFragSize) :
    Outcome (fun _ => False) (Filled s l chain p n fun fill x => fill ++ x) (headerAlloc s1 p n) := by
  unfold headerAlloc
  obtain ⟨f, m, h, l', chain', hrun, hmem, hround⟩ := prefixRound_spec hran.inv hp1 hn.1 hn.2 .pEnd
  obtain ⟨hlive, hfill⟩ := hround { s1.packet p with
                                    asize := (s1.packet p).asize + h.fragasize f, first := some f,
                                    last := if (s1.packet p).first = none then some f else (s1.packet p).last } rfl rfl rfl
  simp only [bind, Except.bind, hrun, hmem, notfree_of_live hlive]
  refine ⟨hn, fun fill hlen => ⟨l', chain', ?_⟩⟩
  have hran' := hfill fill hlen
  rw [update_idem, update_self, Int.sub_self, update_eq_self, hran.holds] at hran'
  exact hran.trans hran'

theorem packetheader_spec (hinv : Inv s l chain (fun _ => 0)) (hp : s.Live p) :
    Outcome (fun _ => ¬ Roomy s chain p n) (Filled s l chain p n fun fill x => fill ++ x) (packetheader s p n) := by
  unfold packetheader
  rw [notfree_of_live hp]
  change Outcome _ _ (if n ≤ 0 ∨ n > maxFragSize then Except.ok (none, s) else _)
  split
  · exact ⟨by omega, rfl⟩
  have hmax : maxFragSize = 9216 := rfl
  have hn' : 0 < n ∧ n ≤ maxFragSize := by omega
  generalize hs1 : s.setPacket p { s.packet p with size := int32 ((s.packet p).size + n) } = s1
  rcases grow_spec hinv hp (Int.le_of_lt hn'.1) (by omega) hs1 with ⟨howe, hlive1, hheap⟩ | ⟨hneg, hroom⟩
  · have halloc : Outcome (fun _ => ¬ Roomy s chain p n) (Filled s l chain p n fun fill x => fill ++ x) (headerAlloc s1 p n) :=
      (headerAlloc_spec howe hlive1 hn').mono (fun _ h => h.elim) fun _ => id
    split
    · rename_i f hfirst
      obtain ⟨c1, hchain⟩ : ∃ c1, chain p = f :: c1 := head?_eq_some_iff.1 ((howe.inv.queue p hlive1).head ▸ hfirst)
      have hfmem : f ∈ chain p := by simp [hchain]
      rcases Option.eq_none_or_eq_some (s1.heap.frag f).mem with hm | ⟨m, hm⟩
      · rw [hm]
        exact fun hroom => hroom.mem hfmem (hheap ▸ hm)
      rw [hm]
      split
      · rename_i hrp
        refine (headerInPlace_spec howe hlive1 hchain hm hn' hrp).mono (fun _ href hroom => ?_) fun _ => id
        rw [hheap] at hm href
        exact href (hroom.ref hfmem hm)
      · exact halloc
    · exact halloc
  refine Outcome.mono (B := fun _ => True) (Q := fun _ => False) ?_ (fun _ _ => hroom) fun _ h => h.elim
  split
  · refine Outcome.any.bind fun m _ => ?_
    split
    · exact headerInPlace_neg m n hneg
    · exact headerAlloc_neg n hneg
  · exact headerAlloc_neg n hneg

theorem trailerInPlace_neg (m : Nat) (n : Int) (h : (s.packet p).size < 0) :
    Outcome (fun _ => True) (fun _ => False) (trailerInPlace s p f m n) := by
  unfold trailerInPlace
  split
  · trivial
  · dsimp only
    rw [notfree_of_neg (by exact h)]
    trivial

theorem trailerAlloc_neg (n : Int) (h : (s.packet p).size < 0) :
    Outcome (fun _ => True) (fun _ => False) (trailerAlloc s p n) := by
  refine Outcome.any.bind fun r _ => (link_size _ p r.1).bind fun s1 hs1 => ?_
  rw [setPacket_self] at hs1
  rw [notfree_of_neg (by rw [hs1]; exact h)]
  trivial

theorem trailerInPlace_spec (hran : Ran s l chain [] s1 l chain (update (fun _ => 0) p n) (contents s))
    (hp1 : s1.Live p) (hchain : chain p = c0 ++ [f]) (hm : (s1.heap.frag f).mem = some m)
    (hn : 0 < n ∧ n ≤ maxFragSize) (hwp : n ≤ (s1.heap.mem m).size - (s1.heap.frag f).wp) :
    Outcome (fun _ => (s1.heap.mem m).ref ≠ 1) (Filled s l chain p n fun fill x => x ++ fill) (trailerInPlace s1 p f m n) := by
  unfold trailerInPlace
  split
  · assumption
  rename_i hone
  dsimp only
  rw [notfree_of_live (by exact hp1)]
  refine ⟨hn, fun fill hfill => ⟨l, chain, ?_⟩⟩
  have hwide := @widenBack_spec c0 fill s1 l chain _ p f m hran.inv hp1 hchain hm (Decidable.not_not.1 hone) (by omega)
  rw [update_idem, update_self, hfill, Int.sub_self, update_eq_self, hran.holds,
    show fill.length = n.toNat by omega] at hwide
  exact hran.trans hwide

theorem trailerAlloc_spec (hran : Ran s l chain [] s1 l chain (update (fun _ => 0) p n) (contents s))
    (hp1 : s1.Live p) (hn : 0 < n ∧ n ≤ maxFragSize) :
    Outcome (fun _ => False) (Filled s l chain p n fun fill x => x ++ fill) (trailerAlloc s1 p n) := by
  unfold trailerAlloc
  obtain ⟨f, m, h, l', hrun, hmem, hround⟩ := appendRound_spec hran.inv hp1 hn.1 hn.2
    (if (s1.packet p).first = none then Pos.pMiddle else .pFront)
  obtain ⟨s2, chain', hlink, hfrag, hlive, hfill⟩ :=
    hround { s1.packet p with asize := (s1.packet p).asize + h.fragasize f } rfl rfl rfl
  simp only [bind, Except.bind, hrun, hlink, hmem, notfree_of_live hlive]
  refine ⟨hn, fun fill hlen => ⟨l', chain', ?_⟩⟩
  have hran' := hfill fill hlen
  rw [update_idem, update_self, Int.sub_self, update_eq_self, hran.holds, hfrag] at hran'
  exact hran.trans hran'

theorem packettrailer_spec (hinv : Inv s l chain (fun _ => 0)) (hp : s.Live p) :
    Outcome (fun _ => ¬ Roomy s chain p n) (Filled s l chain p n fun fill x => x ++ fill) (packettrailer s p n) := by
  unfold packettrailer
  rw [notfree_of_live hp]
  change Outcome _ _ (if n ≤ 0 ∨ n > maxFragSize then Except.ok (none, s) else _)
  split
  · exact ⟨by omega, rfl⟩
  have hmax : maxFragSize = 9216 := rfl
  have hn' : 0 < n ∧ n ≤ maxFragSize := by omega
  generalize hs1 : s.setPacket p { s.packet p with size := int32 ((s.packet p).size + n) } = s1
  rcases grow_spec hinv hp (Int.le_of_lt hn'.1) (by omega) hs1 with ⟨howe, hlive1, hheap⟩ | ⟨hneg, hroom⟩
  · have halloc : Outcome (fun _ => ¬ Roomy s chain p n) (Filled s l chain p n fun fill x => x ++ fill) (trailerAlloc s1 p n) :=
      (trailerAlloc_spec howe hlive1 hn').mono (fun _ h => h.elim) fun _ => id
    split
    · rename_i first hfirst
      obtain ⟨c0, f, hchain, hlast⟩ := (howe.inv.queue p hlive1).exists_last hfirst
      have hfmem : f ∈ chain p := by simp [hchain]
      rw [hlast]
      change Outcome _ _ (deref (s1.heap.frag f).mem >>= _)
      rcases Option.eq_none_or_eq_some (s1.heap.frag f).mem with hm | ⟨m, hm⟩
      · rw [hm]
        exact fun hroom => hroom.mem hfmem (hheap ▸ hm)
      rw [hm]
      change Outcome _ _ (if n ≤ (s1.heap.mem m).size - (s1.heap.frag f).wp then trailerInPlace s1 p f m n
        else trailerAlloc s1 p n)
      split
      · rename_i hwp
        refine (trailerInPlace_spec howe hlive1 hchain hm hn' hwp).mono (fun _ href hroom => ?_) fun _ => id
        rw [hheap] at hm href
        exact href (hroom.ref hfmem hm)
      · exact halloc
    · exact halloc
  refine Outcome.mono (B := fun _ => True) (Q := fun _ => False) ?_ (fun _ _ => hroom) fun _ h => h.elim
  split
  · refine Outcome.any.bind fun f _ => Outcome.any.bind fun m _ => ?_
    split
    · exact trailerInPlace_neg m n hneg
    · exact trailerAlloc_neg n hneg
  · exact trailerAlloc_neg n hneg

end

end Plan9.Venti.Packets
