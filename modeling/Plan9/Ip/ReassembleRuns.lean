/-
Runs of `ip4reassemble`, over fragments of any datagrams in any order.

Each reassembly queue is one of the fragments received of its datagram (`Sound`).
What is returned is then `Faithful`, in every run whose fragments their queues can
take (`IP.Takes`). `overlap_assembled` is a run of two fragments that overlap: the
first is trimmed on the queue, but not in what is returned.
-/
import Plan9.Ip.ReassembleFacts

namespace Plan9.Ip

open List

variable {ip : IP} {a b : Arrival} {as : List Arrival} {h : Ip4hdr} {f : Fragment4} {fs : List Fragment4} {now : Nat}

/-! ## The search for a queue -/

theorem find_other (hf : ¬ f.isOf h = true) : (f :: fs).find? (·.isOf h) = fs.find? (·.isOf h) := by
  rw [find?_cons, Bool.eq_false_iff.2 hf]

theorem expire_find : (expire now h fs).find? (·.isOf h) = fs.find? (·.isOf h) := by
  induction fs with
  | nil => rfl
  | cons f fs ih =>
    unfold expire
    by_cases hf : f.isOf h = true
    · rw [if_pos hf]
    rw [if_neg hf]
    by_cases hage : f.age < now
    · rw [if_pos hage, ih, find_other hf]
    · rw [if_neg hage, find_other hf, find_other hf, ih]

theorem mem_of_expire (hf : f ∈ expire now h fs) : f ∈ fs := by
  induction fs with
  | nil => exact nomatch hf
  | cons g fs ih =>
    unfold expire at hf
    split at hf
    · exact hf
    split at hf
    · exact mem_cons_of_mem _ (ih hf)
    · rcases mem_cons.1 hf with rfl | hf
      · exact mem_cons_self
      · exact mem_cons_of_mem _ (ih hf)

theorem isOf_iff : f.isOf h = true ↔ f.src = h.src ∧ f.dst = h.dst ∧ f.id = h.id := by
  unfold Fragment4.isOf
  rw [Bool.and_eq_true, Bool.and_eq_true, beq_iff_eq, beq_iff_eq, beq_iff_eq, and_assoc]

/-! ## Runs -/

/-- The fragment comes, in time. -/
def IP.arrive (ip : IP) (a : Arrival) : IP × Option Datagram := ip4reassemble ip a.now a.hdr.frag a.hdr.marked a.bp

def IP.after (ip : IP) : List Arrival → IP
  | [] => ip
  | a :: as => (ip.arrive a).1.after as

/-- `b` is of the datagram of `a`. -/
def Arrival.ofSame (a b : Arrival) : Bool := b.hdr.src == a.hdr.src && b.hdr.dst == a.hdr.dst && b.hdr.id == a.hdr.id

/-- No fragment at all. -/
def Arrival.Whole (a : Arrival) : Prop := a.hdr.marked.tos = 0 ∧ a.hdr.frag &&& 0x9fff = 0

/-- The queue of the fragment can take it, if there is one. -/
structure IP.Takes (ip : IP) (a : Arrival) : Prop where
  short : ¬ a.Whole → a.off + a.len ≤ 65535 - ip4hdr
  queue : ¬ a.Whole → ∀ f, ip.flist.find? (·.isOf a.hdr) = some f → Careful f.blist a

/-- The queues are of fragments received. -/
def Sound (as : List Arrival) (ip : IP) : Prop := ∀ f ∈ ip.flist, Queue (as.filter (f.isOf ·.hdr)) f.blist

theorem Sound.mono {as' : List Arrival} (hs : Sound as ip) (hsub : ∀ a ∈ as, a ∈ as') : Sound as' ip := fun f hf =>
  (hs f hf).mono fun a ha => mem_filter.2 ⟨hsub a (mem_filter.1 ha).1, (mem_filter.1 ha).2⟩

theorem Sound.subset {ip' : IP} (hs : Sound as ip) (hsub : ∀ f ∈ ip'.flist, f ∈ ip.flist) : Sound as ip' := fun f hf =>
  hs f (hsub f hf)

theorem off_eq (a : Arrival) : a.off = a.hdr.frag % 2 ^ 13 * 8 := by
  unfold Arrival.off
  omega

theorem Arrival.Whole.off (h : a.Whole) : a.off = 0 := by
  have hmask : a.hdr.frag &&& 0x1fff = 0 := by
    have hand : (0x1fff : Nat) = 0x9fff &&& 0x1fff := rfl
    rw [hand, ← Nat.and_assoc, h.2, Nat.zero_and]
  rw [off_eq, ← Nat.and_two_pow_sub_one_eq_mod]
  exact (congrArg (· * 8) hmask).trans (Nat.zero_mul 8)

theorem Arrival.Whole.final (h : a.Whole) : a.final = true := by
  unfold Arrival.final
  by_contra hmf
  have htos : a.hdr.marked.tos = 1 := if_pos (by simpa using hmf)
  rw [h.1] at htos
  exact absurd htos (by decide)

theorem Arrival.Whole.faithful (h : a.Whole) (ha : a.Wf) (hmem : a ∈ as) : Faithful as ⟨a.hdr.marked, [a.bp]⟩ := by
  have hlen := ha.length
  have hshort := ha.short
  have hoff := h.off
  have hpayload : Datagram.payload ⟨a.hdr.marked, [a.bp]⟩ = a.data := by
    unfold Datagram.payload
    rw [flatMap_singleton]
    rfl
  have hdata : a.data.length = a.len := by
    unfold Arrival.data Arrival.len
    rw [length_take_of_le ha.lim]
    omega
  refine ⟨⟨a, hmem, h.final, by rw [hpayload, hdata, hoff, Nat.zero_add]⟩, ?_, fun i b hb => ?_, ?_, fun b hb => ?_⟩
  · rw [hpayload, hdata]
    unfold Arrival.len
    omega
  · rw [hpayload] at hb
    refine ⟨a, hmem, by omega, ?_, by rw [hoff, Nat.sub_zero]; exact hb⟩
    have := (List.getElem?_eq_some_iff.1 hb).1
    omega
  · rw [hpayload, hdata]
    unfold Arrival.len
    exact hlen.trans (by rw [hlen]; omega)
  · obtain rfl := mem_singleton.1 hb
    exact ha.lim

theorem Queue.single (ha : a.Wf) (hshort : a.off + a.len ≤ 65535 - ip4hdr) : Queue [a] [a.toFrag] := by
  refine ⟨pairwise_singleton _ _, fun q hq => ?_, fun q hq _ x hx => ?_, fun q hq _ => ?_⟩
  · obtain rfl := mem_singleton.1 hq
    exact ⟨a, mem_singleton_self a, ha, a.part hshort⟩
  · obtain rfl := mem_singleton.1 hq
    obtain rfl := mem_singleton.1 hx
    exact le_rfl
  · cases hq
    exact ha.toFrag_length

theorem Faithful.mono {as' : List Arrival} {d : Datagram} (h : Faithful as d) (hsub : ∀ a ∈ as, a ∈ as') : Faithful as' d := by
  obtain ⟨a, ha, hlast⟩ := h.last
  refine ⟨⟨a, hsub a ha, hlast⟩, h.short, fun i b hb => ?_, h.length, h.lim⟩
  obtain ⟨c, hc, hbyte⟩ := h.byte i b hb
  exact ⟨c, hsub c hc, hbyte⟩

theorem ofSame_of_isOf (ha : f.isOf a.hdr = true) (hb : f.isOf b.hdr = true) : a.ofSame b = true := by
  obtain ⟨h1, h2, h3⟩ := isOf_iff.1 ha
  obtain ⟨h4, h5, h6⟩ := isOf_iff.1 hb
  simp [Arrival.ofSame, ← h1, ← h2, ← h3, h4, h5, h6]

theorem isOf_of_same {g : Fragment4} (ha : f.isOf a.hdr = true) (hb : f.isOf b.hdr = true) (hg : g.isOf a.hdr = true) :
    g.isOf b.hdr = true := by
  obtain ⟨h1, h2, h3⟩ := isOf_iff.1 ha
  obtain ⟨h4, h5, h6⟩ := isOf_iff.1 hb
  obtain ⟨h7, h8, h9⟩ := isOf_iff.1 hg
  exact isOf_iff.2 ⟨h7.trans (h1.symm.trans h4), h8.trans (h2.symm.trans h5), h9.trans (h3.symm.trans h6)⟩

theorem Sound.arrive (hs : Sound as ip) (ha : a.Wf) (hc : ip.Takes a) :
    Sound (a :: as) (ip.arrive a).1 ∧ ∀ d, (ip.arrive a).2 = some d → Faithful ((a :: as).filter a.ofSame) d := by
  have hself : a ∈ (a :: as).filter a.ofSame := mem_filter.2 ⟨mem_cons_self, by simp [Arrival.ofSame]⟩
  have hkept : ∀ ip' : IP, (∀ f ∈ ip'.flist, f ∈ ip.flist) → Sound (a :: as) ip' := fun ip' hsub =>
    (hs.subset hsub).mono fun b => mem_cons_of_mem _
  have hexpire : ∀ f ∈ expire a.now a.hdr.marked ip.flist, f ∈ ip.flist := fun f => mem_of_expire
  unfold IP.arrive ip4reassemble
  by_cases hwhole : a.Whole
  · rw [if_pos (show a.hdr.marked.tos = 0 ∧ a.hdr.frag &&& 0x9fff = 0 from hwhole)]
    refine ⟨hkept _ fun f hf => ?_, fun d hd => ?_⟩
    · split at hf
      · exact hexpire f (mem_of_mem_eraseP hf)
      · exact hexpire f hf
    · cases hd
      exact hwhole.faithful ha hself
  rw [if_neg (show ¬ (a.hdr.marked.tos = 0 ∧ a.hdr.frag &&& 0x9fff = 0) from hwhole), expire_find]
  have hbl : (⟨a.hdr.marked, a.bp.mem, a.bp.len, (a.hdr.frag <<< 3) % 2 ^ 16, a.hdr.marked.length - ip4hdr⟩ : Frag) = a.toFrag := rfl
  rw [hbl]
  cases hfind : ip.flist.find? (·.isOf a.hdr.marked) with
  | none =>
    refine ⟨fun f hf => ?_, fun d hd => (nomatch hd)⟩
    have hcases : f = ⟨[a.toFrag], a.hdr.src, a.hdr.id, a.hdr.dst, (a.now + 30000) % 2 ^ 32⟩ ∨ f ∈ ip.flist := by
      dsimp only [IP.ipfragallo4] at hf
      split at hf
      · rcases mem_cons.1 hf with rfl | hf
        · exact .inl rfl
        · exact .inr (hexpire f (dropLast_subset _ hf))
      · rcases mem_cons.1 hf with rfl | hf
        · exact .inl rfl
        · exact .inr (hexpire f hf)
    rcases hcases with rfl | hf
    · exact (Queue.single ha (hc.short hwhole)).mono fun b hb => by
        obtain rfl := mem_singleton.1 hb
        exact mem_filter.2 ⟨mem_cons_self, isOf_iff.2 ⟨rfl, rfl, rfl⟩⟩
    · exact hkept ip (fun f => id) f hf
  | some f =>
    have hof : f.isOf a.hdr = true := by
      have hfound := find?_some hfind
      exact hfound
    have hold := hs f (mem_of_find?_eq_some hfind)
    dsimp only
    cases hen : enqueue a.toFrag f.blist with
    | none => exact ⟨hkept _ hexpire, fun d hd => (nomatch hd)⟩
    | some blist =>
      have hqueue := hold.enqueue ha (hc.queue hwhole f hfind) hen
      dsimp only
      by_cases hcomplete : complete 0 blist = true
      · rw [if_pos hcomplete]
        refine ⟨hkept _ fun g hg => hexpire g (mem_of_mem_eraseP hg), fun d hd => ?_⟩
        obtain ⟨d', hd', hfaithful⟩ := hqueue.assemble hcomplete
        obtain rfl := Option.some.inj (hd.symm.trans hd')
        refine hfaithful.mono fun b hb => ?_
        rcases mem_cons.1 hb with rfl | hb
        · exact hself
        · obtain ⟨hmem, hofb⟩ := mem_filter.1 hb
          exact mem_filter.2 ⟨mem_cons_of_mem _ hmem, ofSame_of_isOf hof hofb⟩
      rw [if_neg hcomplete]
      refine ⟨fun g hg => ?_, fun d hd => (nomatch hd)⟩
      obtain ⟨g, hgold, rfl⟩ := mem_map.1 hg
      by_cases hgof : g.isOf a.hdr.marked = true
      · rw [if_pos hgof]
        refine hqueue.mono fun b hb => ?_
        rcases mem_cons.1 hb with rfl | hb
        · exact mem_filter.2 ⟨mem_cons_self, hgof⟩
        · obtain ⟨hmem, hofb⟩ := mem_filter.1 hb
          exact mem_filter.2 ⟨mem_cons_of_mem _ hmem, isOf_of_same hof hofb hgof⟩
      · rw [if_neg hgof]
        exact hkept ip (fun f => id) g (hexpire g hgold)

/-- Every fragment is one that its queue takes, as it comes. -/
def IP.TakesAll (ip : IP) : List Arrival → Prop
  | [] => True
  | a :: as => a.Wf ∧ ip.Takes a ∧ (ip.arrive a).1.TakesAll as

theorem Sound.after {before : List Arrival} (hs : Sound before ip) (hall : ip.TakesAll as) : Sound (as.reverse ++ before) (ip.after as) := by
  induction as generalizing ip before with
  | nil => exact hs
  | cons a as ih =>
    obtain ⟨ha, hc, hrest⟩ := hall
    have hsound := ih (hs.arrive ha hc).1 hrest
    rw [reverse_cons, append_assoc]
    exact hsound

theorem IP.TakesAll.split {as' : List Arrival} (hall : ip.TakesAll (as ++ as')) : ip.TakesAll as ∧ (ip.after as).TakesAll as' := by
  induction as generalizing ip with
  | nil => exact ⟨trivial, hall⟩
  | cons a as ih =>
    obtain ⟨ha, hc, hrest⟩ := hall
    obtain ⟨h1, h2⟩ := ih hrest
    exact ⟨⟨ha, hc, h1⟩, h2⟩

/-- No queue yet. -/
def IP.init (size : Nat) : IP := ⟨[], size⟩

/-- What comes of fragments that their queues take is the datagram of those with its source, destination and id. -/
theorem ip4reassemble_faithful (size : Nat) (as : List Arrival) (a : Arrival) (hall : (IP.init size).TakesAll (as ++ [a]))
    (d : Datagram) (hd : (((IP.init size).after as).arrive a).2 = some d) : Faithful ((as ++ [a]).filter a.ofSame) d := by
  obtain ⟨hbefore, ha, hc, -⟩ := hall.split
  have hinit : Sound [] (IP.init size) := fun f hf => nomatch hf
  refine (((hinit.after hbefore).arrive ha hc).2 d hd).mono fun b hb => ?_
  obtain ⟨hmem, hof⟩ := mem_filter.1 hb
  refine mem_filter.2 ⟨?_, hof⟩
  rw [mem_append, mem_singleton]
  rcases mem_cons.1 hmem with rfl | hmem
  · exact .inr rfl
  · rw [append_nil, mem_reverse] at hmem
    exact .inl hmem

/-- A fragment of a datagram of one byte, sixteen times. -/
def sixteen (frag : Nat) (byte : UInt8) : Arrival :=
  ⟨0, ⟨ipver4hlen4, 0, 36, 1, frag, 64, 17, 0, 1, 2⟩, ⟨List.replicate 16 byte, 16⟩⟩

/-- Two fragments, the second behind the first. -/
theorem ip4reassemble_two :
    ∃ d, (((IP.init 100).after [sixteen ipmf 1]).arrive (sixteen 2 2)).2 = some d ∧
      Faithful (([sixteen ipmf 1] ++ [sixteen 2 2]).filter (sixteen 2 2).ofSame) d := by
  have hwf1 : (sixteen ipmf 1).Wf := ⟨by decide, by decide, by decide⟩
  have hwf2 : (sixteen 2 2).Wf := ⟨by decide, by decide, by decide⟩
  have hall : (IP.init 100).TakesAll ([sixteen ipmf 1] ++ [sixteen 2 2]) := by
    refine ⟨hwf1, ⟨fun _ => by decide, fun _ f hf => (nomatch hf)⟩, hwf2, ⟨fun _ => by decide, fun _ f hf => ?_⟩, trivial⟩
    obtain rfl := Option.some.inj (hf.symm.trans (show _ = some (⟨[(sixteen ipmf 1).toFrag], 1, 1, 2, 30000⟩ : Fragment4) by decide))
    refine ⟨by decide, fun q hq _ _ hlt => ?_, fun _ q hq => ?_, fun q hq hfinal => ?_⟩
    · cases hq
      exact absurd hlt (by decide)
    · obtain rfl := mem_singleton.1 hq
      decide
    · obtain rfl := mem_singleton.1 hq
      exact absurd hfinal (by decide)
  cases hd : (((IP.init 100).after [sixteen ipmf 1]).arrive (sixteen 2 2)).2 with
  | none => exact absurd hd (by decide)
  | some d => exact ⟨d, rfl, ip4reassemble_faithful 100 [sixteen ipmf 1] (sixteen 2 2) hall d hd⟩

/-- The second fragment overlaps half of the first: the payload returned has 32 bytes, and no fragment goes beyond 24. -/
theorem overlap_assembled :
    ∃ d, (((IP.init 100).after [sixteen ipmf 1]).arrive (sixteen 1 2)).2 = some d ∧ d.payload.length = 32 ∧
      (sixteen ipmf 1).Wf ∧ (sixteen 1 2).Wf ∧ ¬ Faithful [sixteen ipmf 1, sixteen 1 2] d := by
  cases hd : (((IP.init 100).after [sixteen ipmf 1]).arrive (sixteen 1 2)).2 with
  | none => exact absurd hd (by decide)
  | some d =>
    have hlength : ((((IP.init 100).after [sixteen ipmf 1]).arrive (sixteen 1 2)).2.map fun d => d.payload.length) = some 32 := by
      decide
    rw [hd] at hlength
    have hlen : d.payload.length = 32 := Option.some.inj hlength
    refine ⟨d, rfl, hlen, ⟨by decide, by decide, by decide⟩, ⟨by decide, by decide, by decide⟩, fun hfaithful => ?_⟩
    obtain ⟨a, ha, -, hend⟩ := hfaithful.last
    rw [hlen] at hend
    rcases mem_cons.1 ha with rfl | ha
    · exact absurd hend (by decide)
    · obtain rfl := mem_singleton.1 ha
      exact absurd hend (by decide)

end Plan9.Ip
