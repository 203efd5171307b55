/-
What `packetdup` and `packetsplit` do, after which packets share memories, and `packetconcat`.
-/
import Plan9.Venti.PacketCuts

namespace Plan9.Venti.Packets

open Chain CInt Function List

/-! ## Copies of fragments -/

section

variable {h h' : Heap} {l l' : List FragId} {c d : List FragId} {p : Nat} {ff : FragId}

/-- The bytes there. -/
def Heap.loadAt (h : Heap) (e : Option Nat × Nat × Nat) : List UInt8 :=
  Memory.load (match e.1 with | none => h.text | some m => (h.mem m).data) e.2.1 (e.2.2 - e.2.1)

theorem bytes_eq_loadAt (h : Heap) (f : FragId) : h.bytes f = h.loadAt (h.extent f) := rfl

theorem SameData.loadAt (hd : SameData h h') (e : Option Nat × Nat × Nat) : h'.loadAt e = h.loadAt e := by
  obtain ⟨m, rp, wp⟩ := e
  cases m with
  | none => exact congrArg (fun t => Memory.load t rp (wp - rp)) hd.text
  | some m => exact congrArg (fun t => Memory.load t rp (wp - rp)) (hd.data m)

theorem content_of_extent (hd : SameData h h') (hext : d.map h'.extent = c.map h.extent) : content h' d = content h c := by
  have hflat : ∀ (h : Heap) (c : List FragId), content h c = (c.map h.extent).flatMap h.loadAt := fun h c => by
    rw [flatMap_map]
    rfl
  rw [hflat h' d, hflat h c, hext]
  exact flatMap_congr fun e _ => hd.loadAt e

theorem Copied.extent (hc : Copied h l p ff c h' l' d) : h'.extent ff = h.extent ff := by
  have hmem := congrArg Frag.mem hc.keep
  have hrp := congrArg Frag.rp hc.keep
  have hwp := congrArg Frag.wp hc.keep
  rw [Heap.extent, Heap.extent, hmem, hrp, hwp]

theorem Copied.content (hc : Copied h l p ff c h' l' d) : content h' (ff :: d) = h.bytes ff ++ content h c := by
  rw [content_cons, bytes_eq_loadAt, hc.extent, hc.data.loadAt, content_of_extent hc.data hc.sizes]
  rfl

theorem Copied.total (hc : Copied h l p ff c h' l' d) (hheap : HeapInv h l) (hheap' : HeapInv h' l') :
    total h' (ff :: d) = h.fragsize ff + total h c := by
  have hlen := congrArg length hc.content
  have h1 := hheap'.length_content (ff :: d)
  have h2 := hheap.length_content c
  have h3 := hheap.length_bytes ff
  rw [length_append] at hlen
  omega

theorem Copied.effect (hc : Copied h l p ff c h' l' d) (hused : ∀ g ∈ c, h.Used l g) : Effect h l h' l' [] := by
  refine ⟨hc.stale, fun g hg _ => ?_, fun g hg hn => absurd ((hc.used g).2 (.inr hg)) hn, fun g hn hg' hnone => ?_⟩
  · have hgd : g ∉ d := fun hin => hc.fresh g hin hg
    by_cases hgf : g = ff
    · rw [hgf]
      exact congrArg Prod.fst hc.extent
    · rw [hc.same g hgd hgf]
  have hin : h'.extent g ∈ c.map h.extent := by
    rw [← show d.map h'.extent = c.map h.extent from hc.sizes]
    exact mem_map_of_mem (((hc.used g).1 hg').resolve_right hn)
  obtain ⟨e, he, heq⟩ := mem_map.1 hin
  exact ⟨e, hused e he, (congrArg Prod.fst heq).trans hnone⟩

theorem shortened_spec (hheap : HeapInv h l) {d0 : List FragId} {last : FragId} (hnot : last ∉ d0) (hlast : h.Used l last)
    {n : Int} (hn : n ≤ 0) (hpos : 0 < n + h.fragsize last)
    (hh' : h' = h.setFrag last { h.frag last with wp := ((h.frag last).wp + n).toNat, next := none }) :
    HeapInv h' l ∧ (∀ g, h'.Used l g ↔ h.Used l g) ∧ SameRec h h' ∧ h'.next = update h.next last none ∧
      (∀ g, g ≠ last → h'.bytes g = h.bytes g) ∧ h'.bytes last ≠ [] ∧
      content h' (d0 ++ [last]) = (content h (d0 ++ [last])).take (total h (d0 ++ [last]) + n).toNat := by
  have hlen := hheap.length_bytes last
  have hsize := hpos
  rw [Heap.fragsize] at hsize
  obtain ⟨hheap', hused'⟩ := @HeapInv.narrow h l last { h.frag last with wp := ((h.frag last).wp + n).toNat, next := none } hheap
    hlast rfl rfl (by dsimp only; omega) (by dsimp only; omega)
  have hrec := @sameRec_setFrag last h { h.frag last with wp := ((h.frag last).wp + n).toNat, next := none } rfl rfl rfl rfl
  have hbytes : h'.bytes last = (h.bytes last).take (n + h.fragsize last).toNat := by
    rw [hh']
    exact bytes_setFrag_take rfl rfl (by rw [Heap.fragsize]; dsimp only; omega) (by rw [Heap.fragsize]; omega)
  have hother : ∀ g, g ≠ last → h'.bytes g = h.bytes g := fun g hg => hh' ▸ bytes_setFrag_of_ne hg _
  rw [← hh'] at hheap' hused' hrec
  refine ⟨hheap', hused', hrec, by rw [hh', next_setFrag], hother, ?_, ?_⟩
  · rw [hbytes]
    intro hnil
    rcases take_eq_nil_iff.1 hnil with h0 | h0
    · omega
    · rw [h0, length_nil] at hlen
      omega
  have hpart : content h' d0 = content h d0 :=
    flatMap_congr fun g hg => hother g fun heq => hnot (heq ▸ hg)
  rw [content_append, content_append, total_append, hpart, total_cons, total_nil,
    @take_part _ _ _ (n + h.fragsize last) (by rw [hheap.length_content]; omega) (by omega)]
  simp [hbytes]

end

section

variable {s s1 s' : State} {l l1 l' : List FragId} {chain chain1 chain' : Nat → List FragId} {owed owed1 owed' : Nat → Int}
  {p : Nat} {f : FragId}

variable (hinv : Inv s l chain (fun _ => 0)) (hp : s.Live p)

/-! ## `packetdup` -/

include hinv in
/-- From the fragment `f` on, `off` bytes into it, `n` bytes are duplicated into the empty packet `pp`. -/
theorem dupped_spec {pp : Nat} (hpp : s.Live pp) {c1 e1 e2 : List FragId}
    {offset off n n' : Int} (hchain : chain p = c1 ++ f :: (e1 ++ e2)) (hoff : off = offset - total s.heap c1) (hoff0 : 0 ≤ off)
    (hofflt : off < s.heap.fragsize f) (h0 : 0 < n) (hlt : n < 2 ^ 31) {ff : FragId} {h1 : Heap} (hheap1 : HeapInv h1 l1)
    (hgrown : Grown s.heap l pp ff h1 l1) (hext : h1.extent ff = s.heap.extent f) {h2 : Heap}
    (hh2 : h2 = h1.setFrag ff { h1.frag ff with rp := (h1.frag ff).rp + off.toNat }) {h3 : Heap} {l3 d : List FragId}
    (hheap3 : HeapInv h3 l3) (hcopied : Copied h2 l1 pp ff e1 h3 l3 d) {last : FragId} (hlast : (ff :: d).getLast? = some last)
    (hn : n' = n - h2.fragsize ff - total h2 e1) (hn0 : n' ≤ 0) (hnpos : 0 < n' + h3.fragsize last) {h4 : Heap}
    (hh4 : h4 = h3.setFrag last { h3.frag last with wp := ((h3.frag last).wp + n').toNat, next := none }) {r : Packet}
    (hr : r.size = n ∧ r.first = some ff ∧ r.last = some last) :
    offset + n ≤ total s.heap (chain p) ∧
      Ran s l chain [] ({ s with heap := h4 }.setPacket pp r) l3 (update chain pp (ff :: d)) (fun _ => 0)
        (update (contents s) pp (some (((content s.heap (chain p)).drop offset.toNat).take n.toNat))) := by
  have hfchain : f ∈ chain p := by simp [hchain]
  have hfused := hinv.used p f hfchain
  have hfresh : ∀ q, ff ∉ chain q := fun q hin => hgrown.fresh (hinv.used q ff hin)
  have hffused1 : h1.Used l1 ff := (hgrown.used ff).2 (.inl rfl)
  -- the fragment `ff` from `off` on
  have hsize1 : h1.fragsize ff = s.heap.fragsize f := by
    have h1rp := congrArg (fun e => e.2.1) hext
    have h1wp := congrArg (fun e => e.2.2) hext
    simp only [Heap.extent] at h1rp h1wp
    rw [Heap.fragsize, Heap.fragsize, h1rp, h1wp]
  have hoff1 := hofflt
  rw [← hsize1, Heap.fragsize] at hoff1
  obtain ⟨hheap2, hused2⟩ := @HeapInv.narrow h1 l1 ff { h1.frag ff with rp := (h1.frag ff).rp + off.toNat } hheap1 hffused1 rfl
    rfl (by dsimp only; omega) le_rfl
  have hrec2 := @sameRec_setFrag ff h1 { h1.frag ff with rp := (h1.frag ff).rp + off.toNat } rfl rfl rfl rfl
  have hbytes2 : h2.bytes ff = (s.heap.bytes f).drop off.toNat := by
    rw [hh2, @bytes_setFrag_drop h1 ff { h1.frag ff with rp := (h1.frag ff).rp + off.toNat } off.toNat rfl rfl rfl, bytes_eq_loadAt,
      hext, hgrown.data.loadAt]
    rfl
  have hsame2 : ∀ g, g ≠ ff → h2.frag g = s.heap.frag g := fun g hg => by rw [hh2, setFrag_frag_of_ne _ hg, hgrown.same g hg]
  have hdata2 : SameData s.heap h2 := hgrown.data.trans (hh2 ▸ ⟨fun _ => rfl, rfl⟩)
  rw [← hh2] at hheap2 hused2 hrec2
  have hne : ∀ q, ∀ g ∈ chain q, g ≠ ff := fun q g hg heq => hfresh q (heq ▸ hg)
  have he1chain : ∀ g ∈ e1, g ∈ chain p := fun g hg => by rw [hchain]; simp [hg]
  have he1 : content h2 e1 = content s.heap e1 :=
    hdata2.content fun g hg => hsame2 g (hne p g (he1chain g hg))
  -- the copies
  have hffd : ff ∉ d := fun hin => hcopied.fresh ff hin ((hused2 ff).2 hffused1)
  have hold3 : ∀ q, ∀ g ∈ chain q, g ∉ d := fun q g hg hin =>
    hcopied.fresh g hin ((hused2 g).2 ((hgrown.used g).2 (.inr (hinv.used q g hg))))
  have hnd : (ff :: d).Nodup := nodup_cons.2 ⟨hffd, hcopied.nodup⟩
  have hcontent3 := hcopied.content
  have htotal3 := hcopied.total hheap2 hheap3
  obtain ⟨d0, hd0⟩ : ∃ d0, ff :: d = d0 ++ [last] := by
    obtain ⟨d0, hd0⟩ := getLast?_eq_some_iff.1 hlast
    exact ⟨d0, hd0⟩
  have hlastmem : last ∈ ff :: d := by simp [hd0]
  have hused3 : ∀ g ∈ ff :: d, h3.Used l3 g := by
    intro g hg
    rcases mem_cons.1 hg with rfl | hg
    · exact (hcopied.used g).2 (.inr ((hused2 g).2 hffused1))
    · exact (hcopied.used g).2 (.inl hg)
  have hlastd0 : last ∉ d0 := by
    rw [hd0, nodup_append] at hnd
    exact fun hin => hnd.2.2 last hin last (mem_singleton.2 rfl) rfl
  obtain ⟨hheap4, hused4, hrec4, hnext4, hother4, hne4, hcontent4⟩ :=
    shortened_spec hheap3 hlastd0 (hused3 last hlastmem) hn0 hnpos hh4
  rw [← hd0, show total h3 (ff :: d) + n' = n by omega, hcontent3, hbytes2, he1] at hcontent4
  have hsize2 : h2.fragsize ff = s.heap.fragsize f - off := by
    have hlen2 := hheap2.length_bytes ff
    have hlen := hinv.heap.length_bytes f
    rw [hbytes2, length_drop] at hlen2
    omega
  have htotal2 : total h2 e1 = total s.heap e1 := total_congr fun g hg => hsame2 g (hne p g (he1chain g hg))
  have htotal : total s.heap (chain p) = total s.heap c1 + (s.heap.fragsize f + (total s.heap e1 + total s.heap e2)) := by
    rw [hchain, total_append, total_cons, total_append]
  have he2 := hinv.heap.total_nonneg e2
  refine ⟨by omega, ?_⟩
  have hsame4 : ∀ q, ∀ g ∈ chain q, h4.Used l3 g ∧ h4.frag g = s.heap.frag g := by
    intro q g hg
    have hgd := hold3 q g hg
    have hgl : g ≠ last := fun heq => by
      rcases mem_cons.1 (heq ▸ hlastmem) with h | h
      · exact hne q g hg h
      · exact hgd h
    refine ⟨(hused4 g).2 ((hcopied.used g).2 (.inr ((hused2 g).2 ((hgrown.used g).2 (.inr (hinv.used q g hg)))))), ?_⟩
    rw [hh4, setFrag_frag_of_ne _ hgl, hcopied.same g hgd (hne q g hg), hsame2 g (hne q g hg)]
  have hdata4 : SameData s.heap h4 := hdata2.trans (hcopied.data.trans (hh4 ▸ ⟨fun _ => rfl, rfl⟩))
  have hlen4 : total h4 (ff :: d) = n := by
    have hlenf := hinv.heap.length_bytes f
    have hlene := hinv.heap.length_content e1
    rw [← hheap4.length_content, hcontent4, length_take, length_append, length_drop]
    omega
  have heff1 : Effect s.heap l h1 l1 [] := hgrown.effect fun hnone => ⟨f, hfused, (congrArg Prod.fst hext).symm.trans hnone⟩
  have heff3 : Effect h2 l1 h3 l3 [] := hcopied.effect fun g hg =>
    (hused2 g).2 ((hgrown.used g).2 (.inr (hinv.used p g (he1chain g hg))))
  have hc4 : ((content s.heap (chain p)).drop offset.toNat).take n.toNat = content h4 (ff :: d) := by
    have hlenf := hinv.heap.length_bytes f
    have hlene := hinv.heap.length_content e1
    have hdrop : (s.heap.bytes f ++ (content s.heap e1 ++ content s.heap e2)).drop off.toNat =
        (s.heap.bytes f).drop off.toNat ++ content s.heap e1 ++ content s.heap e2 := by
      rw [drop_append_of_le_length (by omega), append_assoc]
    rw [hcontent4, hchain, content_append, content_cons, content_append,
      @drop_part _ _ offset off (by rw [hinv.heap.length_content]; exact hoff) hoff0, hdrop]
    refine take_append_of_le_length ?_
    rw [length_append, length_drop]
    omega
  rw [hc4]
  refine placed_spec hinv hpp hheap4 (((heff1.trans (hrec2.effect l1)).trans heff3).trans (hrec4.effect l3)) hdata4
    (fun q _ => hsame4 q) ?_ (fun g hg => (hused4 g).2 (hused3 g hg)) ?_ ?_ (hr.1.trans hlen4.symm) (hr.1 ▸ hlt) ?_
  · intro q i hu
    rcases (hcopied.used _).1 ((hused4 _).1 hu) with hin | hu
    · rw [hcopied.own q i hin]
      exact hpp.1
    rcases (hgrown.used _).1 ((hused2 _).1 hu) with heq | hu
    · rw [hgrown.own q i heq.symm]
      exact hpp.1
    · exact hinv.own q i hu
  · intro g hg q _ hin
    rcases mem_cons.1 hg with rfl | hg
    · exact hfresh q hin
    · exact hold3 q g hin hg
  · rw [hr.2.1, hr.2.2]
    refine ⟨?_, hlast.symm, hnd⟩
    refine (hcopied.path.congr (fun g _ hgl => ?_) hnd).linked hlast ?_
    · rw [hnext4, update_of_ne fun heq : g = last => hgl (heq ▸ hlast)]
    · rw [hnext4, update_self]
  intro hs g hg
  by_cases hgl : g = last
  · rw [hgl]
    exact hne4
  rw [hother4 g hgl]
  rcases mem_cons.1 hg with rfl | hg
  · intro hnil
    have h3ext := hcopied.extent
    rw [bytes_eq_loadAt, h3ext, hcopied.data.loadAt, ← bytes_eq_loadAt] at hnil
    have := hheap2.length_bytes g
    rw [hnil, length_nil] at this
    omega
  have hin : h3.extent g ∈ e1.map h2.extent := by
    rw [← show d.map h3.extent = e1.map h2.extent from hcopied.sizes]
    exact mem_map_of_mem hg
  obtain ⟨e, he, heq⟩ := mem_map.1 hin
  rw [bytes_eq_loadAt, ← heq, hcopied.data.loadAt, ← bytes_eq_loadAt, hdata2.bytes (hsame2 e (hne p e (he1chain e he)))]
  exact hs p e (he1chain e he)

include hinv hp in
theorem packetdup_spec {offset n : Int} (hoff : offset < 2 ^ 31)
    (hn : n < 2 ^ 31) :
    Outcome
      (fun e => e ≠ .assertForeign ∧ ¬ offset + n < 2 ^ 31 ∨ e = .assertForeign ∧ ∃ g ∈ chain p, (s.heap.frag g).Dirty)
      (fun r => match r.1 with
        | none => ¬ (0 ≤ offset ∧ 0 ≤ n ∧ offset + n ≤ (s.packet p).size) ∧ r.2 = s
        | some q => (0 ≤ offset ∧ 0 ≤ n ∧ offset + n ≤ (s.packet p).size) ∧ ¬ s.Live q ∧ ∃ l' chain',
          Ran s l chain [] r.2 l' chain' (fun _ => 0) (update (contents s) q
            ((contents s p).map fun x => (x.drop offset.toNat).take n.toNat)))
      (packetdup s p offset n) := by
  have hsize := (hinv.size p hp).trans (Int.add_zero _)
  have hlim := hinv.limit p hp
  unfold packetdup
  rw [notfree_of_live hp]
  split
  · rename_i hbig
    refine ⟨fun h => ?_, rfl⟩
    rw [int32_eq (by omega) (by omega)] at hbig
    omega
  rename_i hcheck
  have hfits : offset + n < 2 ^ 31 → offset + n ≤ (s.packet p).size := fun hlt => by
    rw [int32_eq (by omega) hlt] at hcheck
    omega
  obtain ⟨pp, s1, halloc, hfresh, hran⟩ := packetalloc_spec hinv
  rw [halloc, hinv.contents_live hp]
  change Outcome _ _ (if n = 0 then Except.ok (some pp, s1) else _)
  split
  · rename_i h0
    refine ⟨⟨by omega, by omega, hfits (by omega)⟩, hfresh.dead, l, chain, ?_⟩
    subst h0
    exact hran
  have hne : p ≠ pp := fun heq => hfresh.dead (heq ▸ hp)
  have hp1 : s1.Live p := (hfresh.live p).2 (.inr hp)
  have hpp1 : s1.Live pp := (hfresh.live pp).2 (.inl rfl)
  have hinv1 := hran.inv
  have hsize1 : (s1.packet p).size = total s1.heap (chain p) := (hinv1.size p hp1).trans (Int.add_zero _)
  rw [hfresh.other p hne, hsize] at hsize1
  refine Outcome.bind ((skipLoop_spec (chain p) s1.rounds (s1.packet p).first offset (hinv1.queue p hp1).linked
    (hinv1.length_chain p) (by omega)).mono ?_ fun _ => id) ?_
  · rintro e ⟨rfl, hle⟩
    refine .inl ⟨nofun, fun hlt => ?_⟩
    omega
  rintro ⟨f, off⟩ ⟨c1, c2, hchain, hoff', hoff0, hofflt⟩
  have hfchain : f ∈ chain p := by simp [hchain]
  have hdirty : ∀ g, (s1.heap.frag g).Dirty → (s.heap.frag g).Dirty := fun g hg => by rwa [hfresh.heap] at hg
  refine Outcome.bind ((fragdup_spec hinv1.heap pp (hinv1.used p f hfchain)).mono ?_ fun _ => id) ?_
  · rintro e ⟨he, hd⟩
    exact .inr ⟨he, f, hfchain, hdirty f hd⟩
  rintro ⟨ff, h1⟩ ⟨l1, hheap1, hgrown, -, hmem1, hrp1, hwp1, -⟩
  dsimp only at hheap1 hgrown hmem1 hrp1 hwp1 ⊢
  have hext : h1.extent ff = s1.heap.extent f := by rw [Heap.extent, Heap.extent, hmem1, hrp1, hwp1]
  generalize hh2 : h1.setFrag ff { h1.frag ff with rp := (h1.frag ff).rp + off.toNat } = h2
  have hffchain : ∀ q, ff ∉ chain q := fun q hin => hgrown.fresh (hinv1.used q ff hin)
  have hffused1 : h1.Used l1 ff := (hgrown.used ff).2 (.inl rfl)
  have hoff1 := hofflt
  rw [Heap.fragsize, ← hrp1, ← hwp1] at hoff1
  obtain ⟨hheap2, hused2⟩ := @HeapInv.narrow h1 l1 ff { h1.frag ff with rp := (h1.frag ff).rp + off.toNat } hheap1 hffused1 rfl
    rfl (by dsimp only; omega) le_rfl
  rw [hh2] at hheap2 hused2
  have hold : ∀ g ∈ chain p, h2.Used l1 g ∧ h2.frag g = s1.heap.frag g := by
    intro g hg
    have hgf : g ≠ ff := fun heq => hffchain p (heq ▸ hg)
    refine ⟨(hused2 g).2 ((hgrown.used g).2 (.inr (hinv1.used p g hg))), ?_⟩
    rw [← hh2, setFrag_frag_of_ne _ hgf, hgrown.same g hgf]
  have hsub : ∀ g ∈ f :: c2, g ∈ chain p := fun g hg => by rw [hchain]; exact mem_append_right _ hg
  have hlink : Linked h2.next (h2.next f) c2 := by
    have hl := (hinv1.queue p hp1).linked
    rw [hchain] at hl
    have hl2 : Linked h2.next (some f) (f :: c2) := hl.node.congr fun g hg => congrArg Frag.next (hold g (hsub g hg)).2
    exact hl2.2
  have hnd : (f :: c2).Nodup := by
    have := hinv1.nodup p
    rw [hchain, nodup_append] at this
    exact this.2.1
  have hlen := hinv1.length_chain p
  rw [hchain, length_append, length_cons] at hlen
  have htotal : total s1.heap (chain p) = total s1.heap c1 + (s1.heap.fragsize f + total s1.heap c2) := by
    rw [hchain, total_append, total_cons]
  have htotal2 : total h2 c2 = total s1.heap c2 :=
    total_congr fun g hg => (hold g (hsub g (mem_cons_of_mem _ hg))).2
  have hsize2 : h2.fragsize ff = s1.heap.fragsize f - off := by
    rw [Heap.fragsize, Heap.fragsize, ← hh2, setFrag_frag_self, ← hrp1, ← hwp1]
    dsimp only
    omega
  refine Outcome.bind ((dupLoop_spec pp c2 s1.rounds h2 l1 f ff (n - h2.fragsize ff) _ hheap2 hlink hnd
    (fun g hg => (hold g (hsub g (mem_cons_of_mem _ hg))).1) ((hused2 ff).2 hffused1)
    (fun hin => hffchain p (hsub ff hin)) (by omega) (by omega)).mono ?_ fun _ => id) ?_
  · rintro e (⟨rfl, hlt⟩ | ⟨he, g, hg, hd⟩)
    · refine .inl ⟨nofun, fun hsum => ?_⟩
      omega
    · have hgm := hsub g (mem_cons_of_mem _ hg)
      rw [(hold g hgm).2] at hd
      exact .inr ⟨he, g, hgm, hdirty g hd⟩
  rintro ⟨h3, last, n', asize⟩ ⟨_, _, l3, d, rfl, hheap3, hcopied, hlast, hn', hn0, hnpos⟩
  generalize hh4 : h3.setFrag last { h3.frag last with wp := ((h3.frag last).wp + n').toNat, next := none } = h4
  obtain ⟨hle, hdone⟩ := dupped_spec hinv1 hpp1 hchain hoff' hoff0 hofflt (by omega) hn hheap1 hgrown hext hh2.symm hheap3 hcopied hlast hn'
    hn0 hnpos hh4.symm (r := { size := n, asize := asize, first := some ff, last := some last }) ⟨rfl, rfl, rfl⟩
  refine ⟨⟨by omega, by omega, by omega⟩, hfresh.dead, l3, update chain pp (ff :: d), ?_⟩
  have := hran.trans hdone
  rw [hran.holds, update_idem, hfresh.heap] at this
  exact this

/-! ## `packetsplit` -/

include hinv hp in
/-- The packet `p` has the fragments `c2` afterwards, and `pp` those of `c1`. -/
theorem halves_spec {pp : Nat} (hpp : s.Live pp) (hne : p ≠ pp)
    {h' : Heap} {c1 c2 : List FragId} (hheap' : HeapInv h' l') (heff : Effect s.heap l h' l' []) (hdata : SameData s.heap h')
    (hother : ∀ q, q ≠ p → q ≠ pp → ∀ g ∈ chain q, h'.Used l' g ∧ h'.frag g = s.heap.frag g)
    (hown : ∀ q i, h'.Used l' (.loc q i) → q < s.npacket)
    (hused : ∀ g ∈ c1 ++ c2, h'.Used l' g ∧ ∀ q, q ≠ p → q ≠ pp → g ∉ chain q)
    (hdisj : ∀ g ∈ c1, g ∉ c2) {r1 r2 : Packet} (hq1 : IsQueue h'.next r1.first r1.last c1)
    (hq2 : IsQueue h'.next r2.first r2.last c2) (hs1 : r1.size = total h' c1) (hs2 : r2.size = total h' c2)
    (hlt1 : r1.size < 2 ^ 31) (hlt2 : r2.size < 2 ^ 31) (hsolid : Solid s chain → ∀ g ∈ c1 ++ c2, h'.bytes g ≠ []) :
    Ran s l chain [] (({ s with heap := h' }.setPacket pp r1).setPacket p r2) l' (update (update chain pp c1) p c2)
      (fun _ => 0) (update (update (contents s) p (some (content h' c2))) pp (some (content h' c1))) := by
  generalize hs' : ({ s with heap := h' }.setPacket pp r1).setPacket p r2 = s'
  have hself : s'.packet p = r2 := hs' ▸ setPacket_self r2
  have hselfpp : s'.packet pp = r1 := by
    rw [← hs', setPacket_of_ne (Ne.symm hne)]
    exact setPacket_self r1
  have hpk : ∀ q, q ≠ p → q ≠ pp → s'.packet q = s.packet q := fun q h1 h2 => by
    rw [← hs', setPacket_of_ne h1]
    exact setPacket_of_ne h2 r1
  have hheap : s'.heap = h' := by rw [← hs']; rfl
  have hnp : s'.npacket = s.npacket := by rw [← hs']; rfl
  have hcp : update (update chain pp c1) p c2 p = c2 := update_self ..
  have hcpp : update (update chain pp c1) p c2 pp = c1 := by
    rw [update_of_ne (Ne.symm hne), update_self]
  have hcq : ∀ q, q ≠ p → q ≠ pp → update (update chain pp c1) p c2 q = chain q := fun q h1 h2 => by
    rw [update_of_ne h1, update_of_ne h2]
  generalize update (update chain pp c1) p c2 = chain' at hcp hcpp hcq ⊢
  have h1pos := hheap'.total_nonneg c1
  have h2pos := hheap'.total_nonneg c2
  have hlive : ∀ q, s'.Live q ↔ s.Live q := by
    intro q
    by_cases hqp : q = p
    · rw [hqp]
      exact iff_of_true ⟨hnp ▸ hp.1, by rw [hself]; omega⟩ hp
    by_cases hqpp : q = pp
    · rw [hqpp]
      exact iff_of_true ⟨hnp ▸ hpp.1, by rw [hselfpp]; omega⟩ hpp
    · rw [State.Live, State.Live, hpk q hqp hqpp, hnp]
  have hinv' : Inv s' l' chain' (fun _ => 0) := by
    refine hinv.rebuild (fun q => q = p ∨ q = pp) (hheap ▸ hheap') hnp (by rw [← hs']; rfl) ?_ ?_ (fun _ _ => rfl) ?_ ?_ ?_ ?_
    · rintro q (rfl | rfl)
      · exact hp
      · exact hpp
    · exact fun q hq => hpk q (fun h => hq (.inl h)) fun h => hq (.inr h)
    · intro q hq
      rw [hheap]
      exact ⟨hcq q (fun h => hq (.inl h)) fun h => hq (.inr h), hother q (fun h => hq (.inl h)) fun h => hq (.inr h)⟩
    · rw [hheap]
      rintro q (rfl | rfl)
      · rw [hself, hcp]
        exact ⟨hq2, fun g hg => (hused g (mem_append_right _ hg)).1, hs2.trans (Int.add_zero _).symm, by omega, hlt2⟩
      · rw [hselfpp, hcpp]
        exact ⟨hq1, fun g hg => (hused g (mem_append_left _ hg)).1, hs1.trans (Int.add_zero _).symm, by omega, hlt1⟩
    · rintro q r g (rfl | rfl) hq hr
      · rw [hcp] at hq
        by_contra hqr
        by_cases hrpp : r = pp
        · rw [hrpp, hcpp] at hr
          exact hdisj g hr hq
        · rw [hcq r (Ne.symm hqr) hrpp] at hr
          exact (hused g (mem_append_right _ hq)).2 r (Ne.symm hqr) hrpp hr
      rw [hcpp] at hq
      by_contra hqr
      by_cases hrp : r = p
      · rw [hrp, hcp] at hr
        exact hdisj g hq hr
      · rw [hcq r hrp (Ne.symm hqr)] at hr
        exact (hused g (mem_append_left _ hq)).2 r hrp (Ne.symm hqr) hr
    · rw [hheap]
      exact hown
  refine ⟨hinv', hheap ▸ heff, ?_, funext fun q => ?_⟩
  · intro hs q g hg
    rw [hheap]
    by_cases hqp : q = p
    · rw [hqp, hcp] at hg
      exact hsolid hs g (mem_append_right _ hg)
    by_cases hqpp : q = pp
    · rw [hqpp, hcpp] at hg
      exact hsolid hs g (mem_append_left _ hg)
    · rw [hcq q hqp hqpp] at hg
      rw [hdata.bytes (hother q hqp hqpp g hg).2]
      exact hs q g hg
  by_cases hqpp : q = pp
  · rw [hqpp, update_self, hinv'.contents_live ((hlive pp).2 hpp), hcpp, hheap]
  rw [update_of_ne hqpp]
  by_cases hqp : q = p
  · rw [hqp, update_self, hinv'.contents_live ((hlive p).2 hp), hcp, hheap]
  rw [update_of_ne hqp]
  refine contents_same hinv hinv' (hlive q) (hcq q hqp hqpp) fun g hg => ?_
  rw [hheap]
  exact hdata.bytes (hother q hqp hqpp g hg).2

theorem bytes_setFrag_next {h : Heap} {r : Frag} (hmem : r.mem = (h.frag f).mem) (hrp : r.rp = (h.frag f).rp)
    (hwp : r.wp = (h.frag f).wp) (g : FragId) : (h.setFrag f r).bytes g = h.bytes g := by
  by_cases hg : g = f
  · rw [hg, @bytes_setFrag_drop h f r 0 hmem hrp hwp]
    rfl
  · exact bytes_setFrag_of_ne hg r

theorem splitLast_spec {h : Heap} {c : List FragId} {first last : Option FragId} (hl : Linked h.next first c) (hnd : c.Nodup)
    (hlast : ∀ g c', c = g :: c' → c' ≠ [] → last = c'.getLast?) : IsQueue h.next first (splitLast h first last) c := by
  refine ⟨hl, ?_, hnd⟩
  cases c with
  | nil =>
    rw [show first = none from hl]
    rfl
  | cons g c =>
    rw [hl.1]
    change (if h.next g = none then some g else last) = _
    cases c with
    | nil => exact if_pos hl.2
    | cons g' c =>
      rw [hl.2.1, if_neg nofun, getLast?_cons_cons]
      exact hlast g (g' :: c) rfl (cons_ne_nil _ _)

include hinv hp in
theorem splitBetween_spec {pp : Nat} (hpp : s.Live pp) (hne : p ≠ pp)
    {c0 c2 : List FragId} {g : FragId} (hchain : chain p = c0 ++ g :: c2) {h' : Heap}
    (hh' : h' = s.heap.setFrag g { s.heap.frag g with next := none }) {n : Int} (hn : n = total s.heap (c0 ++ [g]))
    {r1 r2 : Packet} (h1 : r1.size = n ∧ r1.first = (s.packet p).first ∧ r1.last = some g)
    (h2 : r2.size = (s.packet p).size - n ∧ r2.first = c2.head? ∧ r2.last = splitLast h' c2.head? (s.packet p).last) :
    Ran s l chain [] (({ s with heap := h' }.setPacket pp r1).setPacket p r2) l
      (update (update chain pp (c0 ++ [g])) p c2) (fun _ => 0)
      (update (update (contents s) p (some ((content s.heap (chain p)).drop n.toNat))) pp
        (some ((content s.heap (chain p)).take n.toNat))) := by
  have hq := hinv.queue p hp
  have hsize := (hinv.size p hp).trans (Int.add_zero _)
  have hlim := hinv.limit p hp
  have hnd := hinv.nodup p
  have hlinked := hq.linked
  have hgp : g ∈ chain p := by simp [hchain]
  rw [hchain] at hnd hlinked
  have hnd' := nodup_append.1 hnd
  have hgc0 : g ∉ c0 := fun hin => hnd'.2.2 g hin g (mem_cons_self ..) rfl
  have hgc2 := (nodup_cons.1 hnd'.2.1).1
  have hmem : ∀ x ∈ (c0 ++ [g]) ++ c2, x ∈ chain p := fun x hx => by simpa [hchain] using hx
  obtain ⟨hheap', hused'⟩ := @HeapInv.setUsed s.heap l g { s.heap.frag g with next := none } hinv.heap (hinv.used p g hgp) rfl
    rfl (hinv.heap.order g) fun m hm => (hinv.heap.bounds g m hm).2
  have hrec := @sameRec_setFrag g s.heap { s.heap.frag g with next := none } rfl rfl rfl rfl
  have hbytes := @bytes_setFrag_next g s.heap { s.heap.frag g with next := none } rfl rfl rfl
  have hnext : h'.next = update s.heap.next g none := by rw [hh', next_setFrag]
  have hnextne : ∀ x, x ≠ g → h'.next x = s.heap.next x := fun x hx => by rw [hnext, update_of_ne hx]
  have hframe : ∀ x, x ≠ g → h'.frag x = s.heap.frag x := fun x hx => hh' ▸ setFrag_frag_of_ne _ hx _
  have hdata : SameData s.heap h' := hh' ▸ ⟨fun _ => rfl, rfl⟩
  rw [← hh'] at hheap' hused' hrec hbytes
  have hcontent : ∀ c, content h' c = content s.heap c := fun c => flatMap_congr fun x _ => hbytes x
  have htotal : ∀ c, total h' c = total s.heap c := fun c => by
    rw [← hheap'.length_content, ← hinv.heap.length_content, hcontent]
  have hlen := hinv.heap.length_content (c0 ++ [g])
  have hall : chain p = (c0 ++ [g]) ++ c2 := by rw [hchain, append_assoc]; rfl
  have htotalp : total s.heap (chain p) = total s.heap (c0 ++ [g]) + total s.heap c2 := by rw [hall, total_append]
  have h2pos := hinv.heap.total_nonneg c2
  have hnext2 : Linked s.heap.next c2.head? c2 := by
    have hl := hlinked.node.2
    rw [hl.head] at hl
    exact hl
  obtain ⟨hr1size, hr1first, hr1last⟩ := h1
  obtain ⟨hr2size, hr2first, hr2last⟩ := h2
  have hhalf := @halves_spec s l l chain p hinv hp pp hpp hne h' (c0 ++ [g]) c2 hheap' (hrec.effect l) hdata
    (fun q hqp _ x hx => ⟨(hused' x).2 (hinv.used q x hx), hframe x fun heq => hqp (hinv.disj q p g (heq ▸ hx) hgp)⟩)
    (fun q i hu => hinv.own q i ((hused' _).1 hu))
    (fun x hx => ⟨(hused' x).2 (hinv.used p x (hmem x hx)), fun q hqp _ hin => hqp (hinv.disj q p x hin (hmem x hx))⟩)
    ?_ r1 r2 ?_ ?_ ?_ ?_ ?_ ?_ fun hs x hx => ?_
  · rw [hcontent, hcontent] at hhalf
    rw [hall, content_append, drop_append_of_le_length (by omega), take_append_of_le_length (by omega),
      drop_of_length_le (by omega), take_of_length_le (by omega), nil_append]
    exact hhalf
  · intro x hx hin
    rcases mem_append.1 hx with hx | hx
    · exact hnd'.2.2 x hx x (mem_cons_of_mem _ hin) rfl
    · exact hgc2 (mem_singleton.1 hx ▸ hin)
  · rw [hr1first, hr1last]
    refine ⟨Linked.cut (by rw [hnext, update_self]) hlinked fun x hx => hnextne x fun heq => hgc0 (heq ▸ hx),
      (getLast?_concat ..).symm, ?_⟩
    have := hall ▸ hinv.nodup p
    exact (nodup_append.1 this).1
  · rw [hr2first, hr2last]
    refine splitLast_spec (hnext2.congr fun x hx => hnextne x fun heq => hgc2 (heq ▸ hx)) (nodup_cons.1 hnd'.2.1).2 fun x c hc hcne => ?_
    obtain ⟨y, _, rfl⟩ := exists_cons_of_ne_nil hcne
    rw [hq.tail, hall, hc, getLast?_append_of_ne_nil _ (cons_ne_nil _ _), getLast?_cons_cons]
  · rw [hr1size, htotal, hn]
  · rw [hr2size, htotal]
    omega
  · omega
  · omega
  · rw [hbytes]
    exact hs p x (hmem x hx)

include hinv hp in
/-- The cut is in the fragment `g`, of which `f` is the copy. -/
theorem splitInside_spec {pp : Nat} (hpp : s.Live pp) (hne : p ≠ pp)
    {c1 c3 : List FragId} {g : FragId} (hchain : chain p = c1 ++ g :: c3) {k : Int} (hk0 : 0 < k) (hklt : k < s.heap.fragsize g)
    {h1 : Heap} (hheap1 : HeapInv h1 l1) (hgrown : Grown s.heap l p f h1 l1) (hext : h1.extent f = s.heap.extent g)
    (hfnext : h1.next f = s.heap.next g) {h2 h3 h4 : Heap}
    (hh2 : h2 = h1.setFrag g { h1.frag g with wp := (h1.frag g).rp + k.toNat })
    (hh3 : h3 = h2.setFrag f { h2.frag f with rp := (h2.frag f).rp + k.toNat })
    (hh4 : h4 = h3.setFrag g { h3.frag g with next := none }) {n : Int} (hn : n = total s.heap c1 + k)
    {r1 r2 : Packet} (hr1 : r1.size = n ∧ r1.first = (s.packet p).first ∧ r1.last = some g)
    (hr2 : r2.size = (s.packet p).size - n ∧ r2.first = some f ∧ r2.last = splitLast h4 (some f) (s.packet p).last) :
    Ran s l chain [] (({ s with heap := h4 }.setPacket pp r1).setPacket p r2) l1
      (update (update chain pp (c1 ++ [g])) p (f :: c3)) (fun _ => 0)
      (update (update (contents s) p (some ((content s.heap (chain p)).drop n.toNat))) pp
        (some ((content s.heap (chain p)).take n.toNat))) := by
  have hq := hinv.queue p hp
  have hsize := (hinv.size p hp).trans (Int.add_zero _)
  have hlim := hinv.limit p hp
  have hnd := hinv.nodup p
  have hlinked := hq.linked
  have hgp : g ∈ chain p := by simp [hchain]
  have hgused := hinv.used p g hgp
  rw [hchain] at hnd hlinked
  have hnd' := nodup_append.1 hnd
  have hgc1 : g ∉ c1 := fun hin => hnd'.2.2 g hin g (mem_cons_self ..) rfl
  have hgc3 := (nodup_cons.1 hnd'.2.1).1
  have hc3 : ∀ x ∈ c3, x ∈ chain p := fun x hx => by simp [hchain, hx]
  have hc1 : ∀ x ∈ c1, x ∈ chain p := fun x hx => by simp [hchain, hx]
  have hfq : ∀ q, f ∉ chain q := fun q hin => hgrown.fresh (hinv.used q f hin)
  have hfg : f ≠ g := fun heq => hfq p (heq ▸ hgp)
  have hfused1 : h1.Used l1 f := (hgrown.used f).2 (.inl rfl)
  have hgused1 : h1.Used l1 g := (hgrown.used g).2 (.inr hgused)
  have hg1 : h1.frag g = s.heap.frag g := hgrown.same g (Ne.symm hfg)
  have hksize := hklt
  rw [Heap.fragsize] at hksize
  have hrp := congrArg (fun e => e.2.1) hext
  have hwp := congrArg (fun e => e.2.2) hext
  simp only [Heap.extent] at hrp hwp
  -- the heaps one after the other
  obtain ⟨hheap2, hused2⟩ := @HeapInv.narrow h1 l1 g { h1.frag g with wp := (h1.frag g).rp + k.toNat } hheap1 hgused1 rfl rfl
    (by dsimp only; omega) (by dsimp only; rw [hg1]; omega)
  have hrec2 := @sameRec_setFrag g h1 { h1.frag g with wp := (h1.frag g).rp + k.toNat } rfl rfl rfl rfl
  have hbytes2 : h2.bytes g = (h1.bytes g).take k.toNat := by
    rw [hh2]
    exact bytes_setFrag_take rfl rfl rfl (by rw [hg1]; omega)
  rw [← hh2] at hheap2 hused2 hrec2
  have hf2 : h2.frag f = h1.frag f := hh2 ▸ setFrag_frag_of_ne _ hfg _
  obtain ⟨hheap3, hused3⟩ := @HeapInv.narrow h2 l1 f { h2.frag f with rp := (h2.frag f).rp + k.toNat } hheap2
    ((hused2 f).2 hfused1) rfl rfl (by dsimp only; rw [hf2]; omega) le_rfl
  have hrec3 := @sameRec_setFrag f h2 { h2.frag f with rp := (h2.frag f).rp + k.toNat } rfl rfl rfl rfl
  have hbytes3 : h3.bytes f = (h2.bytes f).drop k.toNat := by
    rw [hh3]
    exact bytes_setFrag_drop rfl rfl rfl
  rw [← hh3] at hheap3 hused3 hrec3
  obtain ⟨hheap4, hused4⟩ := @HeapInv.setUsed h3 l1 g { h3.frag g with next := none } hheap3 ((hused3 g).2 ((hused2 g).2 hgused1))
    rfl rfl (hheap3.order g) fun m hm => (hheap3.bounds g m hm).2
  have hrec4 := @sameRec_setFrag g h3 { h3.frag g with next := none } rfl rfl rfl rfl
  have hbytes4 := @bytes_setFrag_next g h3 { h3.frag g with next := none } rfl rfl rfl
  rw [← hh4] at hheap4 hused4 hrec4 hbytes4
  -- from the first to the last
  have hused : ∀ x, h4.Used l1 x ↔ x = f ∨ s.heap.Used l x := fun x => by
    rw [hused4, hused3, hused2, hgrown.used]
  have hframe : ∀ x, x ≠ f → x ≠ g → h4.frag x = s.heap.frag x := fun x hxf hxg => by
    rw [hh4, setFrag_frag_of_ne _ hxg, hh3, setFrag_frag_of_ne _ hxf, hh2, setFrag_frag_of_ne _ hxg, hgrown.same x hxf]
  have hdata : SameData s.heap h4 := hgrown.data.trans (hh4 ▸ hh3 ▸ hh2 ▸ ⟨fun _ => rfl, rfl⟩)
  have hsub : ∀ {c : List FragId}, (∀ x ∈ c, x ∈ chain p ∧ x ≠ g) → ∀ x ∈ c, h4.frag x = s.heap.frag x := fun hc x hx =>
    hframe x (fun heq => hfq p (heq ▸ (hc x hx).1)) (hc x hx).2
  have hsub1 := hsub fun x hx => ⟨hc1 x hx, fun heq : x = g => hgc1 (heq ▸ hx)⟩
  have hsub3 := hsub fun x hx => ⟨hc3 x hx, fun heq : x = g => hgc3 (heq ▸ hx)⟩
  have hg4 : h4.bytes g = (s.heap.bytes g).take k.toNat := by
    rw [hbytes4, hh3, bytes_setFrag_of_ne (Ne.symm hfg), hbytes2, hgrown.data.bytes hg1]
  have hf4 : h4.bytes f = (s.heap.bytes g).drop k.toNat := by
    rw [hbytes4, hbytes3, hh2, bytes_setFrag_of_ne hfg, bytes_eq_loadAt, hext, hgrown.data.loadAt]
    rfl
  have hnext4 : h4.next = update (update s.heap.next f (s.heap.next g)) g none := by
    funext x
    by_cases hxg : x = g
    · rw [hxg, update_self, hh4, next_setFrag, update_self]
    rw [update_of_ne hxg]
    by_cases hxf : x = f
    · rw [hxf, update_self, ← hfnext, hh4, next_setFrag, update_of_ne hfg, hh3, next_setFrag, update_self,
        hf2]
      rfl
    · rw [update_of_ne hxf]
      exact congrArg Frag.next (hframe x hxf hxg)
  have hnextc : ∀ x ∈ chain p, x ≠ g → h4.next x = s.heap.next x := fun x hx hxg => by
    rw [hnext4, update_of_ne hxg, update_of_ne fun heq : x = f => hfq p (heq ▸ hx)]
  -- the two packets
  have hlen := hinv.heap.length_bytes g
  have hlen1 := hinv.heap.length_content c1
  have hcontent1 : content h4 (c1 ++ [g]) = content s.heap c1 ++ (s.heap.bytes g).take k.toNat := by
    rw [content_append, hdata.content hsub1, content_cons, hg4, content_nil, append_nil]
  have hcontent3 : content h4 (f :: c3) = (s.heap.bytes g).drop k.toNat ++ content s.heap c3 := by
    rw [content_cons, hf4, hdata.content hsub3]
  have htotal1 : total h4 (c1 ++ [g]) = n := by
    rw [← hheap4.length_content, hcontent1, length_append, length_take]
    omega
  have htotal3 : total h4 (f :: c3) = (s.packet p).size - n := by
    have hlen3 := hinv.heap.length_content c3
    rw [← hheap4.length_content, hcontent3, length_append, length_drop, hsize, hchain, total_append, total_cons]
    omega
  have h3pos := hheap4.total_nonneg (f :: c3)
  obtain ⟨hr1size, hr1first, hr1last⟩ := hr1
  obtain ⟨hr2size, hr2first, hr2last⟩ := hr2
  have heff1 : Effect s.heap l h1 l1 [] := hgrown.effect fun hnone => ⟨g, hgused, (congrArg Prod.fst hext).symm.trans hnone⟩
  have hmem : ∀ x ∈ (c1 ++ [g]) ++ f :: c3, x = f ∨ x ∈ chain p := by
    intro x hx
    rw [hchain]
    simp only [mem_append, mem_cons, not_mem_nil, or_false] at hx ⊢
    tauto
  have hhalf := @halves_spec s l l1 chain p hinv hp pp hpp hne h4 (c1 ++ [g]) (f :: c3) hheap4
    (((heff1.trans (hrec2.effect l1)).trans (hrec3.effect l1)).trans (hrec4.effect l1)) hdata
    (fun q hqp _ x hx => ⟨(hused x).2 (.inr (hinv.used q x hx)), hframe x (fun heq => hfq q (heq ▸ hx))
      fun heq => hqp (hinv.disj q p g (heq ▸ hx) hgp)⟩) ?_ ?_ ?_ r1 r2 ?_ ?_ ?_ ?_ ?_ ?_ fun hs x hx => ?_
  · rw [hcontent1, hcontent3] at hhalf
    have hk : (s.heap.bytes g ++ content s.heap c3).drop k.toNat = (s.heap.bytes g).drop k.toNat ++ content s.heap c3 :=
      drop_append_of_le_length (by omega)
    have hk' : (s.heap.bytes g ++ content s.heap c3).take k.toNat = (s.heap.bytes g).take k.toNat :=
      take_append_of_le_length (by omega)
    rw [hchain, content_append, content_cons, @drop_part _ _ n k (by omega) (Int.le_of_lt hk0),
      @take_part _ _ n k (by omega) (Int.le_of_lt hk0), hk, hk']
    exact hhalf
  · intro q i hu
    rcases (hused _).1 hu with heq | hu
    · rw [hgrown.own q i heq.symm]
      exact hp.1
    · exact hinv.own q i hu
  · intro x hx
    rcases hmem x hx with rfl | hx
    · exact ⟨(hused x).2 (.inl rfl), fun q _ _ => hfq q⟩
    · exact ⟨(hused x).2 (.inr (hinv.used p x hx)), fun q hqp _ hin => hqp (hinv.disj q p x hin hx)⟩
  · intro x hx hin
    rcases mem_append.1 hx with hx | hx
    · rcases mem_cons.1 hin with rfl | hin
      · exact hfq p (hc1 x hx)
      · exact hnd'.2.2 x hx x (mem_cons_of_mem _ hin) rfl
    rw [mem_singleton.1 hx] at hin
    rcases mem_cons.1 hin with heq | hin
    · exact hfg heq.symm
    · exact hgc3 hin
  · rw [hr1first, hr1last]
    refine ⟨Linked.cut (by rw [hnext4, update_self]) hlinked fun x hx =>
      hnextc x (hc1 x hx) fun heq => hgc1 (heq ▸ hx), (getLast?_concat ..).symm, ?_⟩
    refine nodup_append.2 ⟨hnd'.1, pairwise_singleton _ _, fun x hx y hy heq => hgc1 ?_⟩
    exact mem_singleton.1 hy ▸ heq ▸ hx
  · rw [hr2first, hr2last]
    refine splitLast_spec ⟨rfl, ?_⟩ (nodup_cons.2 ⟨fun hin => hfq p (hc3 f hin), (nodup_cons.1 hnd'.2.1).2⟩)
      fun x c hc hcne => ?_
    · rw [show h4.next f = s.heap.next g by rw [hnext4, update_of_ne hfg, update_self]]
      exact hlinked.node.2.congr fun x hx => hnextc x (hc3 x hx) fun heq => hgc3 (heq ▸ hx)
    · cases hc
      obtain ⟨y, _, rfl⟩ := exists_cons_of_ne_nil hcne
      rw [hq.tail, hchain, getLast?_append_of_ne_nil _ (cons_ne_nil _ _), getLast?_cons_cons]
  · rw [hr1size, htotal1]
  · rw [hr2size, htotal3]
  · omega
  · omega
  rcases mem_append.1 hx with hx | hx
  · rcases mem_append.1 hx with hx | hx
    · rw [hdata.bytes (hsub1 x hx)]
      exact hs p x (hc1 x hx)
    rw [mem_singleton.1 hx, hg4]
    intro hnil
    have := congrArg length hnil
    rw [length_take, length_nil] at this
    omega
  rcases mem_cons.1 hx with rfl | hx
  · rw [hf4]
    intro hnil
    have := congrArg length hnil
    rw [length_drop, length_nil] at this
    omega
  · rw [hdata.bytes (hsub3 x hx)]
    exact hs p x (hc3 x hx)

include hinv hp in
theorem packetsplit_spec {n : Int} :
    Outcome (fun e => e = .assertForeign ∧ ∃ g ∈ chain p, (s.heap.frag g).Dirty)
      (fun r => match r.1 with
        | none => ¬ (0 ≤ n ∧ n ≤ (s.packet p).size) ∧ r.2 = s
        | some q => (0 ≤ n ∧ n ≤ (s.packet p).size) ∧ ¬ s.Live q ∧ ∃ l' chain',
          Ran s l chain [] r.2 l' chain' (fun _ => 0) (update (modify (contents s) p (·.drop n.toNat)) q
            ((contents s p).map (·.take n.toNat))))
      (packetsplit s p n) := by
  have hsize := (hinv.size p hp).trans (Int.add_zero _)
  unfold packetsplit
  rw [notfree_of_live hp]
  split
  · exact ⟨by omega, rfl⟩
  obtain ⟨pp, s1, halloc, hfresh, hran⟩ := packetalloc_spec hinv
  have hne : p ≠ pp := fun heq => hfresh.dead (heq ▸ hp)
  rw [halloc, hinv.contents_live hp]
  change Outcome _ _ (if n = 0 then Except.ok (some pp, s1) else _)
  split
  · rename_i h0
    refine ⟨⟨by omega, by omega⟩, hfresh.dead, l, chain, ?_⟩
    subst h0
    rw [modify_id (g := (drop (Int.toNat 0) ·)) fun x => drop_zero]
    exact hran
  have hp1 : s1.Live p := (hfresh.live p).2 (.inr hp)
  have hpp1 : s1.Live pp := (hfresh.live pp).2 (.inl rfl)
  have hinv1 := hran.inv
  have hq := hinv1.queue p hp1
  have hsize1 : (s1.packet p).size = total s1.heap (chain p) := (hinv1.size p hp1).trans (Int.add_zero _)
  rw [hfresh.other p hne, hsize] at hsize1
  refine Outcome.bind ((splitLoop_spec (chain p) s1.rounds (s1.packet p).first none n 0 hq.linked (hinv1.length_chain p)
    (by omega)).mono ?_ fun _ => id) ?_
  · rintro e ⟨-, hlt⟩
    omega
  rintro ⟨f, _, n', _⟩ ⟨c1, c2, hchain, hf, hff, hn', hn0, hcut⟩
  dsimp only at hf hff hn' hn0 hcut ⊢
  have hnd := hchain ▸ hinv1.nodup p
  have hfinish : ∀ {s' : State} {l' : List FragId} {chain' : Nat → List FragId} {a b : List UInt8},
      Ran s1 l chain [] s' l' chain' (fun _ => 0) (update (update (contents s1) p (some a)) pp (some b)) →
      a = (content s.heap (chain p)).drop n.toNat → b = (content s.heap (chain p)).take n.toNat →
      Ran s l chain [] s' l' chain' (fun _ => 0) (update (modify (contents s) p (·.drop n.toNat)) pp
        (some ((content s.heap (chain p)).take n.toNat))) := by
    rintro s' l' chain' a b hhalf rfl rfl
    have := hran.trans hhalf
    rw [hran.holds, update_comm hne, update_idem, update_comm (Ne.symm hne)] at this
    rw [modify_some (hinv.contents_live hp)]
    exact this
  unfold splitFrag
  split
  · rename_i hpos
    obtain ⟨g, c3, rfl, hlt⟩ := hcut hpos
    rw [show f = some g from hf]
    have hgp : g ∈ chain p := by simp [hchain]
    have hdup := fragdup_spec hinv1.heap p (hinv1.used p g hgp)
    cases hrun : fragdup s1.heap p g with
    | error e =>
      obtain ⟨he, hdirty⟩ := hdup.of_error hrun
      simp only [deref, bind, Except.bind, hrun]
      exact ⟨he, g, hgp, by rwa [hfresh.heap] at hdirty⟩
    | ok r =>
      obtain ⟨f', h1⟩ := r
      obtain ⟨l1, hheap1, hgrown, -, hmem1, hrp1, hwp1, hnext1⟩ := hdup.of_ok hrun
      have hext : h1.extent f' = s1.heap.extent g := by rw [Heap.extent, Heap.extent, hmem1, hrp1, hwp1]
      simp only [deref, bind, Except.bind, hrun, pure, Except.pure]
      have hn'' : n = total s1.heap c1 + n' := by omega
      refine ⟨⟨by omega, by omega⟩, hfresh.dead, l1, update (update chain pp (c1 ++ [g])) p (f' :: c3),
        hfinish (splitInside_spec hinv1 hp1 hpp1 hne hchain hpos hlt hheap1 hgrown hext hnext1 rfl rfl rfl hn'' ?_ ?_)
          (by rw [hfresh.heap]) (by rw [hfresh.heap])⟩
      · exact ⟨rfl, rfl, rfl⟩
      · exact ⟨rfl, rfl, rfl⟩
  have hne1 : c1 ≠ [] := by
    rintro rfl
    rw [total_nil] at hn'
    omega
  obtain ⟨c0, g, hc1⟩ := (eq_nil_or_concat c1).resolve_left hne1
  rw [concat_eq_append] at hc1
  subst hc1
  rw [getLast?_concat] at hff
  simp only [hff, deref, bind, Except.bind, pure, Except.pure]
  have hn'' : n = total s1.heap (c0 ++ [g]) := by omega
  rw [append_assoc] at hchain
  refine ⟨⟨by omega, by omega⟩, hfresh.dead, l, update (update chain pp (c0 ++ [g])) p c2,
    hfinish (splitBetween_spec hinv1 hp1 hpp1 hne hchain rfl hn'' ?_ ?_) (by rw [hfresh.heap]) (by rw [hfresh.heap])⟩
  · exact ⟨rfl, rfl, rfl⟩
  · exact ⟨rfl, hf, congrArg (splitLast _ · _) hf⟩

/-! ## `packetconcat` -/

include hinv hp in
theorem joined_spec {pp : Nat} (hpp : s.Live pp) (hne : p ≠ pp)
    {h' : Heap} (hheap' : HeapInv h' l) (hrec : SameRec s.heap h') (hdata : SameData s.heap h')
    (hbytes : ∀ g, h'.bytes g = s.heap.bytes g) (hframe : ∀ g, g ∉ chain p → h'.frag g = s.heap.frag g)
    (hsum : (s.packet p).size + (s.packet pp).size < 2 ^ 31) (hcne : chain pp ≠ []) {r : Packet}
    (hrsize : r.size = (s.packet p).size + (s.packet pp).size) (hlast : r.last = (s.packet pp).last)
    (hlink : Linked h'.next r.first (chain p ++ chain pp)) {r0 : Packet}
    (hr0 : r0 = { size := 0, asize := 0, first := none, last := none }) :
    Ran s l chain [] (({ s with heap := h' }.setPacket p r).setPacket pp r0) l
      (update (update chain pp []) p (chain p ++ chain pp)) (fun _ => 0)
      (update (update (contents s) p (some (content s.heap (chain p ++ chain pp)))) pp (some [])) := by
  have hsize := (hinv.size p hp).trans (Int.add_zero _)
  have hsizepp := (hinv.size pp hpp).trans (Int.add_zero _)
  have hcontent : ∀ c, content h' c = content s.heap c := fun c => flatMap_congr fun x _ => hbytes x
  have htotal : ∀ c, total h' c = total s.heap c := fun c => by
    rw [← hheap'.length_content, ← hinv.heap.length_content, hcontent]
  have hmem : ∀ g ∈ [] ++ (chain p ++ chain pp), g ∈ chain p ∨ g ∈ chain pp := fun g hg => mem_append.1 hg
  have hcomm : ({ s with heap := h' }.setPacket p r).setPacket pp r0 = ({ s with heap := h' }.setPacket pp r0).setPacket p r := by
    rw [State.setPacket, State.setPacket, State.setPacket, State.setPacket]
    rw [update_comm hne]
  rw [hcomm, ← hcontent]
  subst hr0
  refine halves_spec hinv hp hpp hne hheap' (hrec.effect l) hdata ?_ ?_ ?_ (fun g hg => absurd hg not_mem_nil) (IsQueue.empty _) ?_ rfl ?_
    (by decide) ?_ ?_
  · exact fun q hqp _ x hx => ⟨(hrec.used x).2 (hinv.used q x hx), hframe x fun hin => hqp (hinv.disj q p x hx hin)⟩
  · exact fun q i hu => hinv.own q i ((hrec.used _).1 hu)
  · intro x hx
    rcases hmem x hx with hx | hx
    · exact ⟨(hrec.used x).2 (hinv.used p x hx), fun q hqp _ hin => hqp (hinv.disj q p x hin hx)⟩
    · exact ⟨(hrec.used x).2 (hinv.used pp x hx), fun q _ hqp hin => hqp (hinv.disj q pp x hin hx)⟩
  · refine ⟨hlink, ?_, nodup_append.2 ⟨hinv.nodup p, hinv.nodup pp, fun x hx y hy heq => ?_⟩⟩
    · rw [hlast, (hinv.queue pp hpp).tail, getLast?_append_of_ne_nil _ hcne]
    · exact hne (hinv.disj p pp x hx (heq ▸ hy))
  · rw [hrsize, htotal, total_append, hsize, hsizepp]
  · rw [hrsize]
    exact hsum
  intro hs x hx
  rw [hbytes]
  rcases hmem x hx with hx | hx
  · exact hs p x hx
  · exact hs pp x hx

theorem join_spec {h : Heap} (hheap : HeapInv h l) {c : List FragId} (hnd : c.Nodup) (hused : ∀ g ∈ c, h.Used l g) (hs : s.heap = h)
    (hq : IsQueue h.next (s.packet p).first (s.packet p).last c) (first : Option FragId) :
    ∃ h' first', s.join p first = .ok ({ s with heap := h' }.setPacket p { s.packet p with first := first' }) ∧ HeapInv h' l ∧
      SameRec h h' ∧ SameData h h' ∧ (∀ g, h'.bytes g = h.bytes g) ∧ (∀ g, g ∉ c → h'.frag g = h.frag g) ∧
      ∀ c', Linked h.next first c' → (c ++ c').Nodup → Linked h'.next first' (c ++ c') := by
  subst hs
  unfold State.join
  cases hfirst : (s.packet p).first with
  | none =>
    obtain rfl : c = [] := hq.head_none_iff.1 hfirst
    refine ⟨s.heap, first, rfl, hheap, ⟨fun _ => rfl, fun _ => rfl, fun _ => ⟨rfl, rfl⟩, rfl⟩, SameData.refl _, fun _ => rfl,
      fun _ _ => rfl, fun c' hl _ => hl⟩
  | some a =>
    obtain ⟨c0, last, rfl, hlast⟩ := hq.exists_last hfirst
    have hmem : last ∈ c0 ++ [last] := by simp
    obtain ⟨hheap', -⟩ := @HeapInv.setUsed s.heap l last { s.heap.frag last with next := first } hheap (hused last hmem) rfl rfl
      (hheap.order last) fun m hm => (hheap.bounds last m hm).2
    refine ⟨s.heap.setFrag last { s.heap.frag last with next := first }, some a, ?_, hheap', sameRec_setFrag rfl rfl rfl rfl,
      ⟨fun _ => rfl, rfl⟩, bytes_setFrag_next rfl rfl rfl, fun g hg => setFrag_frag_of_ne _ (fun heq : g = last => hg (heq ▸ hmem)) _,
      fun c' hl hndc => ?_⟩
    · have hsame : ({ s.packet p with first := some a } : Packet) = s.packet p := by rw [← hfirst]
      rw [hlast, hsame]
      exact congrArg Except.ok
        (setPacket_eq_self { s with heap := s.heap.setFrag last { s.heap.frag last with next := first } } p).symm
    have hl' := hq.linked
    rw [hfirst] at hl'
    rw [next_setFrag, append_assoc]
    rw [append_assoc] at hndc
    exact Linked.concat hl hl' hndc

include hinv hp in
/-- The fragments of `pp` go behind those of `p`. Where the two are one packet, it is empty afterwards. -/
theorem packetconcat_spec {pp : Nat} (hpp : s.Live pp) {x y : List UInt8}
    (hx : contents s p = some x) (hy : contents s pp = some y) :
    Outcome (fun _ => p ≠ pp ∧ ¬ (s.packet p).size + (s.packet pp).size < 2 ^ 31)
      (fun s' => ∃ l' chain', Ran s l chain [] s' l' chain' (fun _ => 0)
        (update (update (contents s) p (some (x ++ y))) pp (some [])))
      (packetconcat s p pp) := by
  have hsizepp := (hinv.size pp hpp).trans (Int.add_zero _)
  have hlim := hinv.limit p hp
  have hlimpp := hinv.limit pp hpp
  have hpos := hp.2
  have hx' := hx
  have hy' := hy
  rw [hinv.contents_live hp] at hx'
  rw [hinv.contents_live hpp] at hy'
  cases hx'
  cases hy'
  have hlen := hinv.heap.length_content (chain pp)
  unfold packetconcat
  rw [notfree_of_live hp, notfree_of_live hpp]
  change Outcome _ _ (if (s.packet pp).size = 0 then Except.ok s else _)
  split
  · have hnil : content s.heap (chain pp) = [] := eq_nil_of_length_eq_zero (by omega)
    refine ⟨l, chain, ?_⟩
    have hkeep : update (contents s) p (some (content s.heap (chain p) ++ [])) = contents s :=
      update_eq_self_iff.2 (by rw [append_nil, hx])
    rw [hnil, hkeep, update_eq_self_iff.2 (hnil ▸ hy.symm)]
    exact Ran.refl hinv []
  have hcne : chain pp ≠ [] := by
    intro hnil
    rw [hnil, total_nil] at hsizepp
    omega
  have hq := hinv.queue p hp
  generalize hr1 : ({ s.packet p with
                      size := int32 ((s.packet p).size + (s.packet pp).size),
                      asize := (s.packet p).asize + (s.packet pp).asize } : Packet) = r1
  have hq := hinv.queue p hp
  have hself : (s.setPacket p r1).packet p = r1 := setPacket_self r1
  have hq1 : IsQueue s.heap.next ((s.setPacket p r1).packet p).first ((s.setPacket p r1).packet p).last (chain p) := by
    rw [hself, ← hr1]
    exact hq
  obtain ⟨h', first', hjoin, hheap', hrec, hdata, hbytes, hframe, hlink⟩ :=
    join_spec hinv.heap (hinv.nodup p) (hinv.used p) (s := s.setPacket p r1) rfl hq1 (s.packet pp).first
  have hst : ∀ R : Packet, ({ s.setPacket p r1 with heap := h' } : State).setPacket p R = { s with heap := h' }.setPacket p R :=
    fun R => setPacket_setPacket (s := { s with heap := h' }) r1 R
  simp only [bind, Except.bind, hjoin, setPacket_self, setPacket_setPacket]
  rw [hst]
  generalize hr0 : ({ size := 0, asize := 0, first := none, last := none } : Packet) = r0
  generalize hr2 : ({ size := r1.size, asize := r1.asize, first := first', last := (s.packet pp).last } : Packet) = r2
  generalize hs' : ({ s with heap := h' }.setPacket p r2).setPacket pp r0 = s'
  have hselfpp : (s'.packet pp).size = 0 := by rw [← hs', setPacket_self, ← hr0]
  have hnfpp : s'.notfree pp = .ok () := if_pos (by omega)
  by_cases hne : p = pp
  · subst hne
    have hnfp : s'.notfree p = .ok () := hnfpp
    rw [hnfp]
    subst hs'
    rw [setPacket_setPacket, update_idem, ← modify_some hx fun _ => []]
    exact ⟨l, _, dropped_spec hinv hp hheap' (hrec.effect l) hdata
      (fun q hqp g hg => ⟨(hrec.used g).2 (hinv.used q g hg), hframe g fun hin => hqp (hinv.disj q p g hg hin)⟩)
      (fun g hg => (hrec.used g).1 hg) hr0.symm⟩
  have hselfp : (s'.packet p).size = int32 ((s.packet p).size + (s.packet pp).size) := by
    rw [← hs', setPacket_of_ne hne, setPacket_self, ← hr2, ← hr1]
  by_cases hsum : (s.packet p).size + (s.packet pp).size < 2 ^ 31
  · rw [int32_eq (by omega) hsum] at hselfp
    have hnfp : s'.notfree p = .ok () := if_pos (by omega)
    rw [hnfp, hnfpp]
    refine ⟨l, update (update chain pp []) p (chain p ++ chain pp), ?_⟩
    rw [← content_append]
    subst hs'
    refine joined_spec hinv hp hpp hne hheap' hrec hdata hbytes hframe hsum hcne ?_ ?_ ?_ hr0.symm
    · rw [← hr2, ← hr1]
      exact int32_eq (by omega) hsum
    · rw [← hr2]
    · rw [← hr2]
      refine hlink (chain pp) (hinv.queue pp hpp).linked (nodup_append.2 ⟨hinv.nodup p, hinv.nodup pp, fun x hx y hy heq => ?_⟩)
      exact hne (hinv.disj p pp x hx (heq ▸ hy))
  · rw [notfree_of_neg (by rw [hselfp]; exact int32_add_neg hlim hlimpp hsum)]
    exact ⟨hne, hsum⟩

end

end Plan9.Venti.Packets
