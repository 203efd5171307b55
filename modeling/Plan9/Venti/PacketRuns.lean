/-
Runs of packet operations.

In a run without `packetforeign` whose sums stay `int`s the packets are byte strings
(`packets_values`). With `packetforeign` a record that was given back may still have a
destructor; as long as none does, `fragdup` finds none where there is no foreign fragment
(`fragdup_not_foreign`).
-/
import Plan9.Venti.PacketReads

namespace Plan9.Venti.Packets

open Chain CInt List

/-! ## Byte strings -/

/-- What the operations are on byte strings. A packet that is not free holds one. -/
inductive SpecStep : (Nat → Option (List UInt8)) → Op → Res → (Nat → Option (List UInt8)) → Prop where
  | alloc {c p} (h : c p = none) : SpecStep c .alloc (.packet p) (Function.update c p (some []))
  | append {c p x} (h : c p = some x) (buf) : SpecStep c (.append p buf) .done (Function.update c p (some (x ++ buf)))
  | prefixed {c p x} (h : c p = some x) (buf) : SpecStep c (.prefixed p buf) .done (Function.update c p (some (buf ++ x)))
  | header {c p x fill} {n : Int} (h : c p = some x) (hn : 0 < n ∧ n ≤ maxFragSize) :
    SpecStep c (.header p n fill) .done (Function.update c p (some (fill ++ x)))
  | headerFail {c p fill} {n : Int} (hn : ¬ (0 < n ∧ n ≤ maxFragSize)) : SpecStep c (.header p n fill) .fail c
  | trailer {c p x fill} {n : Int} (h : c p = some x) (hn : 0 < n ∧ n ≤ maxFragSize) :
    SpecStep c (.trailer p n fill) .done (Function.update c p (some (x ++ fill)))
  | trailerFail {c p fill} {n : Int} (hn : ¬ (0 < n ∧ n ≤ maxFragSize)) : SpecStep c (.trailer p n fill) .fail c
  | dup {c p x q} {offset n : Int} (h : c p = some x) (hin : 0 ≤ offset ∧ 0 ≤ n ∧ offset + n ≤ x.length) (hq : c q = none) :
    SpecStep c (.dup p offset n) (.packet q) (Function.update c q (some ((x.drop offset.toNat).take n.toNat)))
  | dupFail {c p x} {offset n : Int} (h : c p = some x) (hin : ¬ (0 ≤ offset ∧ 0 ≤ n ∧ offset + n ≤ x.length)) :
    SpecStep c (.dup p offset n) .fail c
  | split {c p x q} {n : Int} (h : c p = some x) (hin : 0 ≤ n ∧ n ≤ x.length) (hq : c q = none) :
    SpecStep c (.split p n) (.packet q)
      (Function.update (Function.update c p (some (x.drop n.toNat))) q (some (x.take n.toNat)))
  | splitFail {c p x} {n : Int} (h : c p = some x) (hin : ¬ (0 ≤ n ∧ n ≤ x.length)) : SpecStep c (.split p n) .fail c
  | trim {c p x} {offset n : Int} (h : c p = some x) (hin : 0 ≤ offset ∧ 0 ≤ n ∧ offset + n ≤ x.length) :
    SpecStep c (.trim p offset n) .done (Function.update c p (some ((x.drop offset.toNat).take n.toNat)))
  | trimFail {c p x} {offset n : Int} (h : c p = some x) (hin : ¬ (0 ≤ offset ∧ 0 ≤ n ∧ offset + n ≤ x.length)) :
    SpecStep c (.trim p offset n) .fail c
  | consume {c p x buf} {n : Int} (h : c p = some x) (hin : 0 ≤ n ∧ n ≤ x.length) :
    SpecStep c (.consume p buf n) (.bytes (if buf then x.take n.toNat else [])) (Function.update c p (some (x.drop n.toNat)))
  | consumeFail {c p x buf} {n : Int} (h : c p = some x) (hin : ¬ (0 ≤ n ∧ n ≤ x.length)) : SpecStep c (.consume p buf n) .fail c
  | concat {c p pp x y} (h : c p = some x) (h' : c pp = some y) :
    SpecStep c (.concat p pp) .done (Function.update (Function.update c p (some (x ++ y))) pp (some []))
  | copy {c p x} {offset n : Int} (h : c p = some x) (hin : InPacket x.length offset n) :
    SpecStep c (.copy p offset n) (.bytes ((x.drop offset.toNat).take n.toNat)) c
  | copyFail {c p x} {offset n : Int} (h : c p = some x) (hin : ¬ InPacket x.length offset n) : SpecStep c (.copy p offset n) .fail c
  | cmp {c p pp x y} (h : c p = some x) (h' : c pp = some y) : SpecStep c (.cmp p pp) (.sign (lexSign x y)) c
  | free {c p x} (h : c p = some x) : SpecStep c (.free p) .done (Function.update c p none)

/-! ## One step -/

/-- The packets that are named. -/
def Op.packets : Op → List Nat
  | .alloc => []
  | .append p _ | .prefixed p _ | .header p _ _ | .trailer p _ _ | .dup p _ _ | .split p _ | .trim p _ _ | .consume p _ _
  | .copy p _ _ | .free p => [p]
  | .concat p pp | .cmp p pp => [p, pp]
  | .foreign .. => []

/-- The `int`s are no larger than the largest, and the caller fills the space it is given. -/
def Op.Fits : Op → Prop
  | .append _ buf | .prefixed _ buf => buf.length < 2 ^ 31
  | .header _ n fill | .trailer _ n fill => n < 2 ^ 31 ∧ fill.length = n.toNat
  | .dup _ offset n | .trim _ offset n | .copy _ offset n => offset < 2 ^ 31 ∧ n < 2 ^ 31
  | .split _ n | .consume _ _ n | .foreign _ n _ _ => n < 2 ^ 31
  | .alloc | .concat .. | .cmp .. | .free _ => True

/-- No memory of the packet is shared. -/
def State.Unshared (s : State) (p : Nat) : Prop :=
  ∀ f ∈ chainOf s p, ∀ m, (s.heap.frag f).mem = some m → (s.heap.mem m).ref = 1

/-- The sums that the function makes of `int`s are `int`s, and data is added to packets whose fragments are unshared. -/
def State.Sums (s : State) : Op → Prop
  | .append p buf | .prefixed p buf => s.Unshared p ∧ (s.packet p).size + buf.length < 2 ^ 31
  | .header p n _ | .trailer p n _ => s.Unshared p ∧ (0 < n → n ≤ maxFragSize → (s.packet p).size + n < 2 ^ 31)
  | .dup _ offset n => offset + n < 2 ^ 31
  | .trim p offset n => offset ≤ (s.packet p).size → offset + n < 2 ^ 31
  | .copy p offset n => offset < (s.packet p).size → offset + n < 2 ^ 31
  | .concat p pp => p ≠ pp → (s.packet p).size + (s.packet pp).size < 2 ^ 31
  | .alloc | .split .. | .consume .. | .cmp .. | .free _ | .foreign .. => True

/-- No record has a destructor, and each fragment has a memory. -/
structure Plain (h : Heap) (l : List FragId) : Prop where
  clean : ∀ f, ¬ (h.frag f).Dirty
  mem : ∀ f, h.Used l f → (h.frag f).mem ≠ none

variable {h : Heap} {op : Op} {offset n : Int} {freed : List FragId} {fill : List UInt8}

section

variable {s s' : State} {l l' : List FragId} {chain chain' : Nat → List FragId} {p : Nat}

theorem Effect.plain {h' : Heap} (he : Effect h l h' l' freed) (hp : Plain h l) : Plain h' l' := by
  refine ⟨fun f => ?_, fun f hf hnone => ?_⟩
  · rw [Frag.Dirty, (he.stale f).1, (he.stale f).2]
    exact hp.clean f
  by_cases hu : h.Used l f
  · exact hp.mem f hu ((he.keep f hu hf).symm.trans hnone)
  · obtain ⟨g, hg, hgnone⟩ := he.born f hu hf hnone
    exact hp.mem g hg hgnone

/-- The conditions under which the packets are byte strings. -/
def Met (s : State) (l : List FragId) (chain : Nat → List FragId) (op : Op) : Prop :=
  (∀ p ∈ op.packets, s.Live p) ∧ s.Sums op ∧ Solid s chain ∧ Plain s.heap l

/-- What an operation gives. -/
def Good (s : State) (l : List FragId) (chain : Nat → List FragId) (op : Op) (r : Res × State) : Prop :=
  ∃ freed l' chain', Ran s l chain freed r.2 l' chain' (fun _ => 0) (contents r.2) ∧
    (Met s l chain op → SpecStep (contents s) op r.1 (contents r.2))

/-- A call is good, or its conditions are not met. -/
def Safe (s : State) (l : List FragId) (chain : Nat → List FragId) (op : Op) : Prop :=
  Outcome (fun _ => ¬ Met s l chain op) (Good s l chain op) (step s op)

theorem Ran.self {c : Nat → Option (List UInt8)}
    (h : Ran s l chain freed s' l' chain' (fun _ => 0) c) : Ran s l chain freed s' l' chain' (fun _ => 0) (contents s') :=
  ⟨h.inv, h.effect, h.solid, rfl⟩

theorem Inv.contents_length (hinv : Inv s l chain (fun _ => 0)) (hp : s.Live p) {x : List UInt8} (hx : contents s p = some x) :
    (s.packet p).size = x.length ∧ x = content s.heap (chain p) := by
  rw [hinv.contents_live hp] at hx
  cases hx
  exact ⟨((hinv.size p hp).trans (Int.add_zero _)).trans (hinv.heap.length_content _).symm, rfl⟩

theorem notfree_dead (hlt : p < s.npacket) (hp : ¬ s.Live p) : s.notfree p = .error .assert :=
  if_neg fun h => hp ⟨hlt, h⟩

section

variable (hinv : Inv s l chain (fun _ => 0))

include hinv

theorem alloc_good : Safe s l chain .alloc := by
  obtain ⟨p, _, halloc, hfresh, hran⟩ := packetalloc_spec hinv
  simp only [Safe, step, bind, Except.bind, halloc]
  refine ⟨[], l, chain, hran.self, fun _ => ?_⟩
  rw [hran.holds]
  exact .alloc (contents_dead hfresh.dead)

theorem read_good {x : Except Fault Res}
    (hx : Met s l chain op → ∃ r, x = .ok r ∧ SpecStep (contents s) op r (contents s)) :
    Outcome (fun _ => ¬ Met s l chain op) (Good s l chain op) (x >>= fun r => .ok (r, s)) := by
  cases x with
  | error e =>
    intro hm
    obtain ⟨r, hr, -⟩ := hx hm
    exact nomatch hr
  | ok r =>
    refine ⟨[], l, chain, Ran.refl hinv [], fun hm => ?_⟩
    obtain ⟨_, hr, hspec⟩ := hx hm
    obtain rfl := Except.ok.inj hr
    exact hspec

variable (hp : s.Live p)

include hp

theorem roomy_of_met (hplain : Plain s.heap l) (hu : s.Unshared p)
    (hsum : (s.packet p).size + n < 2 ^ 31) : Roomy s chain p n := by
  refine ⟨hsum, fun f hf => ?_⟩
  obtain ⟨m, hm⟩ := Option.ne_none_iff_exists'.1 (hplain.mem f (hinv.used p f hf))
  exact ⟨m, hm, hu f (hinv.chainOf_eq hp ▸ hf) m hm⟩

theorem append_good {buf : List UInt8} (hfit : buf.length < 2 ^ 31) : Safe s l chain (.append p buf) := by
  refine Outcome.bind ((packetappend_spec hinv hp hfit).mono (fun _ hroom hm => hroom ?_) fun _ => id) ?_
  · exact roomy_of_met hinv hp hm.2.2.2 hm.2.1.1 hm.2.1.2
  rintro s' ⟨l', chain', hran⟩
  refine ⟨[], l', chain', hran.self, fun _ => ?_⟩
  have hx := hinv.contents_live hp
  rw [hran.holds, modify_some hx]
  exact .append hx buf

theorem prefixed_good {buf : List UInt8} (hfit : buf.length < 2 ^ 31) : Safe s l chain (.prefixed p buf) := by
  refine Outcome.bind ((packetprefix_spec hinv hp hfit).mono (fun _ hroom hm => hroom ?_) fun _ => id) ?_
  · exact roomy_of_met hinv hp hm.2.2.2 hm.2.1.1 hm.2.1.2
  rintro s' ⟨l', chain', hran⟩
  refine ⟨[], l', chain', hran.self, fun _ => ?_⟩
  have hx := hinv.contents_live hp
  rw [hran.holds, modify_some hx]
  exact .prefixed hx buf

theorem filled_good (hlen : fill.length = n.toNat) {g : List UInt8 → List UInt8 → List UInt8} {r : Option (Nat × Nat) × State}
    (hr : Filled s l chain p n g r) (hfail : ¬ (0 < n ∧ n ≤ maxFragSize) → SpecStep (contents s) op .fail (contents s))
    (hdone : 0 < n ∧ n ≤ maxFragSize → SpecStep (contents s) op .done (modify (contents s) p (g fill))) :
    Good s l chain op (fillSpace fill r) := by
  obtain ⟨m, s'⟩ := r
  cases m with
  | none =>
    obtain ⟨hn, rfl⟩ := hr
    exact ⟨[], l, chain, Ran.refl hinv [], fun _ => hfail hn⟩
  | some m =>
    obtain ⟨hn, hfill⟩ := hr
    obtain ⟨l', chain', hran⟩ := hfill fill (by omega)
    refine ⟨[], l', chain', hran.self, fun _ => ?_⟩
    change SpecStep (contents s) op .done (contents { s' with heap := s'.heap.store m.1 m.2 fill })
    rw [hran.holds]
    exact hdone hn

theorem header_good (hfit : fill.length = n.toNat) : Safe s l chain (.header p n fill) := by
  have hx := hinv.contents_live hp
  by_cases hn : 0 < n ∧ n ≤ maxFragSize
  · refine Outcome.bind ((packetheader_spec hinv hp).mono (fun _ hroom hm => hroom ?_) fun _ => id) fun r hr =>
      filled_good hinv hp hfit hr (fun h => absurd hn h) fun hn => ?_
    · exact roomy_of_met hinv hp hm.2.2.2 hm.2.1.1 (hm.2.1.2 hn.1 hn.2)
    · rw [modify_some hx]
      exact .header hx hn
  have hfail : packetheader s p n = .ok (none, s) := by
    unfold packetheader
    rw [notfree_of_live hp]
    exact if_pos (by omega)
  simp only [Safe, step, bind, Except.bind, hfail]
  exact ⟨[], l, chain, Ran.refl hinv [], fun _ => .headerFail hn⟩

theorem trailer_good (hfit : fill.length = n.toNat) : Safe s l chain (.trailer p n fill) := by
  have hx := hinv.contents_live hp
  by_cases hn : 0 < n ∧ n ≤ maxFragSize
  · refine Outcome.bind ((packettrailer_spec hinv hp).mono (fun _ hroom hm => hroom ?_) fun _ => id) fun r hr =>
      filled_good hinv hp hfit hr (fun h => absurd hn h) fun hn => ?_
    · exact roomy_of_met hinv hp hm.2.2.2 hm.2.1.1 (hm.2.1.2 hn.1 hn.2)
    · rw [modify_some hx]
      exact .trailer hx hn
  have hfail : packettrailer s p n = .ok (none, s) := by
    unfold packettrailer
    rw [notfree_of_live hp]
    exact if_pos (by omega)
  simp only [Safe, step, bind, Except.bind, hfail]
  exact ⟨[], l, chain, Ran.refl hinv [], fun _ => .trailerFail hn⟩

theorem dup_good (hfit : offset < 2 ^ 31 ∧ n < 2 ^ 31) : Safe s l chain (.dup p offset n) := by
  have hx := hinv.contents_live hp
  have hsize := (hinv.contents_length hp hx).1
  refine Outcome.bind ((packetdup_spec hinv hp hfit.1 hfit.2).mono (fun e he hm => ?_) fun _ => id) ?_
  · rcases he with ⟨-, hbig⟩ | ⟨-, g, -, hg⟩
    · exact hbig hm.2.1
    · exact hm.2.2.2.clean g hg
  rintro ⟨q, s'⟩ hr
  cases q with
  | none =>
    obtain ⟨hn, rfl⟩ := hr
    exact ⟨[], l, chain, Ran.refl hinv [], fun _ => .dupFail hx (hsize ▸ hn)⟩
  | some q =>
    obtain ⟨hn, hdead, l', chain', hran⟩ := hr
    refine ⟨[], l', chain', hran.self, fun _ => ?_⟩
    change SpecStep (contents s) _ (.packet q) (contents s')
    rw [hran.holds, hx]
    exact .dup hx (hsize ▸ hn) (contents_dead hdead)

theorem split_good : Safe s l chain (.split p n) := by
  have hx := hinv.contents_live hp
  have hsize := (hinv.contents_length hp hx).1
  refine Outcome.bind ((packetsplit_spec hinv hp).mono (fun e he hm => ?_) fun _ => id) ?_
  · obtain ⟨-, g, -, hg⟩ := he
    exact hm.2.2.2.clean g hg
  rintro ⟨q, s'⟩ hr
  cases q with
  | none =>
    obtain ⟨hn, rfl⟩ := hr
    exact ⟨[], l, chain, Ran.refl hinv [], fun _ => .splitFail hx (hsize ▸ hn)⟩
  | some q =>
    obtain ⟨hn, hdead, l', chain', hran⟩ := hr
    refine ⟨[], l', chain', hran.self, fun _ => ?_⟩
    change SpecStep (contents s) _ (.packet q) (contents s')
    rw [hran.holds, hx, modify_some hx]
    exact .split hx (hsize ▸ hn) (contents_dead hdead)

theorem trim_good (hfit : offset < 2 ^ 31 ∧ n < 2 ^ 31) : Safe s l chain (.trim p offset n) := by
  have hx := hinv.contents_live hp
  have hsize := (hinv.contents_length hp hx).1
  refine Outcome.bind ((packettrim_spec hinv hp hfit.1 hfit.2).mono (fun _ he hm => he.2 (hm.2.1 he.1)) fun _ => id) ?_
  rintro ⟨ok, s'⟩ hr
  cases ok with
  | false =>
    obtain ⟨hn, rfl⟩ : _ ∧ s' = s := hr
    exact ⟨[], l, chain, Ran.refl hinv [], fun _ => .trimFail hx (hsize ▸ hn)⟩
  | true =>
    obtain ⟨hn, l', chain', hran⟩ : _ ∧ _ := hr
    refine ⟨chain p, l', chain', hran.self, fun _ => ?_⟩
    rw [hran.holds, modify_some hx]
    exact .trim hx (hsize ▸ hn)

theorem consume_good {buf : Bool} (hfit : n < 2 ^ 31) : Safe s l chain (.consume p buf n) := by
  have hx := hinv.contents_live hp
  have hsize := (hinv.contents_length hp hx).1
  obtain ⟨b, _, hrun, hr⟩ := packetconsume_spec hinv hp hfit buf
  simp only [Safe, step, bind, Except.bind, hrun]
  cases b with
  | none =>
    obtain ⟨hn, rfl⟩ := hr
    exact ⟨[], l, chain, Ran.refl hinv [], fun _ => .consumeFail hx (hsize ▸ hn)⟩
  | some b =>
    obtain ⟨hn, rfl, l', chain', hran⟩ := hr
    refine ⟨chain p, l', chain', hran.self, fun _ => ?_⟩
    rw [hran.holds, modify_some hx]
    exact .consume hx (hsize ▸ hn)

theorem concat_good {pp : Nat} (hpp : s.Live pp) : Safe s l chain (.concat p pp) := by
  have hx := hinv.contents_live hp
  have hy := hinv.contents_live hpp
  refine Outcome.bind ((packetconcat_spec hinv hp hpp hx hy).mono (fun _ he hm => he.2 (hm.2.1 he.1)) fun _ => id) ?_
  rintro s' ⟨l', chain', hran⟩
  refine ⟨[], l', chain', hran.self, fun _ => ?_⟩
  rw [hran.holds]
  exact .concat hx hy

theorem free_good : Safe s l chain (.free p) := by
  obtain ⟨_, l', chain', hrun, hran⟩ := packetfree_spec hinv hp
  simp only [Safe, step, bind, Except.bind, hrun]
  refine ⟨chain p, l', chain', hran.self, fun _ => ?_⟩
  rw [hran.holds]
  exact .free (hinv.contents_live hp)

theorem copy_good : Safe s l chain (.copy p offset n) := by
  have hx := hinv.contents_live hp
  have hsize := (hinv.contents_length hp hx).1
  have hread := @read_good (.copy p offset n) s l chain hinv
    (packetcopy s p offset n >>= fun b => .ok (b.elim .fail .bytes)) fun hm => ?_
  · cases hrun : packetcopy s p offset n with
    | error e =>
      rw [hrun] at hread
      simp only [Safe, step, bind, Except.bind, hrun]
      exact hread
    | ok b =>
      rw [hrun] at hread
      simp only [Safe, step, bind, Except.bind, hrun]
      cases b <;> exact hread
  obtain ⟨r, hrun, hr⟩ := packetcopy_spec hinv hp hm.2.1
  rw [hrun]
  cases r with
  | none => exact ⟨_, rfl, .copyFail hx (hsize ▸ hr)⟩
  | some b =>
    refine ⟨_, rfl, ?_⟩
    rw [hr.2]
    exact .copy hx (hsize ▸ hr.1)

theorem cmp_good {pp : Nat} (hpp : s.Live pp) : Safe s l chain (.cmp p pp) := by
  have hread := @read_good (.cmp p pp) s l chain hinv (packetcmp s p pp >>= fun x => .ok (.sign x)) fun hm => ?_
  · cases hrun : packetcmp s p pp with
    | error e =>
      rw [hrun] at hread
      simp only [Safe, step, bind, Except.bind, hrun]
      exact hread
    | ok b =>
      rw [hrun] at hread
      simp only [Safe, step, bind, Except.bind, hrun]
      exact hread
  · rw [packetcmp_spec hinv hm.2.2.1 hp hpp]
    exact ⟨_, rfl, .cmp (hinv.contents_live hp) (hinv.contents_live hpp)⟩

end

theorem dead_error (hlt : ∀ p ∈ op.packets, p < s.npacket) (hdead : ¬ ∀ p ∈ op.packets, s.Live p) :
    step s op = .error .assert := by
  have hone : ∀ p, (∀ q ∈ [p], q < s.npacket) → (¬ ∀ q ∈ [p], s.Live q) → s.notfree p = .error .assert := fun p hlt hdead =>
    notfree_dead (hlt p (by simp)) fun h => hdead (by simpa using h)
  have htwo : ∀ p pp, (∀ q ∈ [p, pp], q < s.npacket) → (¬ ∀ q ∈ [p, pp], s.Live q) →
      s.notfree p = .error .assert ∨ s.notfree p = .ok () ∧ s.notfree pp = .error .assert := fun p pp hlt hdead => by
    by_cases hp : s.Live p
    · exact .inr ⟨notfree_of_live hp, notfree_dead (hlt pp (by simp)) fun h => hdead (by simpa using ⟨hp, h⟩)⟩
    · exact .inl (notfree_dead (hlt p (by simp)) hp)
  cases op with
  | alloc => exact absurd (fun p hp => nomatch hp) hdead
  | foreign => exact absurd (fun p hp => nomatch hp) hdead
  | append p => simp only [step, packetappend, bind, Except.bind, hone p hlt hdead]
  | prefixed p => simp only [step, packetprefix, bind, Except.bind, hone p hlt hdead]
  | header p => simp only [step, packetheader, bind, Except.bind, hone p hlt hdead]
  | trailer p => simp only [step, packettrailer, bind, Except.bind, hone p hlt hdead]
  | dup p => simp only [step, packetdup, bind, Except.bind, hone p hlt hdead]
  | split p => simp only [step, packetsplit, bind, Except.bind, hone p hlt hdead]
  | trim p => simp only [step, packettrim, bind, Except.bind, hone p hlt hdead]
  | consume p => simp only [step, packetconsume, bind, Except.bind, hone p hlt hdead]
  | copy p => simp only [step, packetcopy, bind, Except.bind, hone p hlt hdead]
  | free p => simp only [step, packetfree, bind, Except.bind, hone p hlt hdead]
  | concat p pp =>
    rcases htwo p pp hlt hdead with h | ⟨h, h'⟩
    · simp only [step, packetconcat, bind, Except.bind, h]
    · simp only [step, packetconcat, bind, Except.bind, h, h']
  | cmp p pp =>
    rcases htwo p pp hlt hdead with h | ⟨h, h'⟩
    · simp only [step, packetcmp, bind, Except.bind, h]
    · simp only [step, packetcmp, bind, Except.bind, h, h']

/-- **One call**: with its conditions met it does what it does on byte strings; where it gives anything at all, the records
are in order. -/
theorem step_good (hinv : Inv s l chain (fun _ => 0)) (hlt : ∀ p ∈ op.packets, p < s.npacket) (hfit : op.Fits)
    (hforeign : ∀ buf n free a, op ≠ .foreign buf n free a) :
    Safe s l chain op := by
  by_cases hlive : ∀ p ∈ op.packets, s.Live p
  · cases op with
    | alloc => exact alloc_good hinv
    | append p buf => exact append_good hinv (hlive p (by simp [Op.packets])) hfit
    | prefixed p buf => exact prefixed_good hinv (hlive p (by simp [Op.packets])) hfit
    | header p n fill => exact header_good hinv (hlive p (by simp [Op.packets])) hfit.2
    | trailer p n fill => exact trailer_good hinv (hlive p (by simp [Op.packets])) hfit.2
    | dup p offset n => exact dup_good hinv (hlive p (by simp [Op.packets])) hfit
    | split p n => exact split_good hinv (hlive p (by simp [Op.packets]))
    | trim p offset n => exact trim_good hinv (hlive p (by simp [Op.packets])) hfit
    | consume p buf n => exact consume_good hinv (hlive p (by simp [Op.packets])) hfit
    | concat p pp => exact concat_good hinv (hlive p (by simp [Op.packets])) (hlive pp (by simp [Op.packets]))
    | copy p offset n => exact copy_good hinv (hlive p (by simp [Op.packets]))
    | cmp p pp => exact cmp_good hinv (hlive p (by simp [Op.packets])) (hlive pp (by simp [Op.packets]))
    | free p => exact free_good hinv (hlive p (by simp [Op.packets]))
    | foreign buf n free a => exact absurd rfl (hforeign buf n free a)
  · rw [Safe, dead_error hlt hlive]
    exact fun hm => hlive hm.1

/-! ## The start -/

theorem init_inv (text : Nat → UInt8) :
    Inv (State.init text) [] (fun _ => []) (fun _ => 0) ∧ Solid (State.init text) (fun _ => []) ∧ Plain (State.init text).heap [] := by
  have hunused : ∀ f, ¬ (State.init text).heap.Used [] f := by
    intro f hf
    cases f with
    | loc p i => exact nomatch hf
    | glob k => exact Nat.not_lt_zero k hf.1
  have hdead : ∀ p, ¬ (State.init text).Live p := fun p hp => Nat.not_lt_zero p hp.1
  have hheap : HeapInv (State.init text).heap [] := by
    refine { linked := rfl, nodup := nodup_nil, glob := nofun, globState := fun k hk => absurd hk (Nat.not_lt_zero k),
             locState := nofun, locIdx := fun p i hu => absurd hu (hunused _), idle := fun _ _ => rfl,
             counted := fun m => ⟨[], nodup_nil, fun f => ⟨nofun, fun h => absurd h.1 (hunused f)⟩, rfl⟩,
             order := fun _ => Nat.le_refl 0, bounds := nofun, size := fun m hm => absurd hm (Nat.not_lt_zero m),
             memNodup := nodup_nil, small := nofun, big := nofun }
  refine ⟨?_, fun q f hf => (nomatch hf), fun f hf => ?_, fun f hf => absurd hf (hunused f)⟩
  · exact { heap := hheap, queue := fun p hp => absurd hp (hdead p), dead := fun _ _ => rfl, used := fun _ _ hf => (nomatch hf),
            disj := fun _ _ _ hf => (nomatch hf), size := fun p hp => absurd hp (hdead p), limit := fun p hp => absurd hp (hdead p),
            own := fun p i hu => absurd hu (hunused _), poolNodup := nodup_nil, pool := nofun }
  · rcases hf with hf | hf
    · exact hf rfl
    · exact hf rfl

end

def run (s : State) : List Op → Except Fault State
  | [] => .ok s
  | op :: ops => do
    let (_, s) ← step s op
    run s ops

/-! ## Runs without foreign fragments -/

/-- A call on packets that are not free, other than `packetforeign`, whose sums are `int`s. -/
structure State.Meets (s : State) (op : Op) : Prop where
  live : ∀ p ∈ op.packets, s.Live p
  fits : op.Fits
  sums : s.Sums op
  own : ∀ buf n free a, op ≠ .foreign buf n free a

inductive Values (text : Nat → UInt8) : State → Prop where
  | init : Values text (State.init text)
  | step {s s' : State} {op : Op} {r : Res} (h : Values text s) (hm : s.Meets op) (hs : step s op = .ok (r, s')) : Values text s'

/-- Sizes and the pointers to the last fragments are those of what the packets hold. -/
def State.Exact (s : State) : Prop :=
  ∀ p, s.Live p → ∃ x, contents s p = some x ∧ (s.packet p).size = x.length ∧ (s.packet p).last = (chainOf s p).getLast? ∧
    Linked s.heap.next (s.packet p).first (chainOf s p)

section

variable {text : Nat → UInt8} {s s' : State} {l l' : List FragId} {chain chain' : Nat → List FragId} {p : Nat}

theorem Inv.exact (hinv : Inv s l chain (fun _ => 0)) : s.Exact := by
  intro p hp
  have hx := hinv.contents_live hp
  have hq := hinv.queue p hp
  rw [hinv.chainOf_eq hp]
  exact ⟨_, hx, (hinv.contents_length hp hx).1, hq.tail, hq.linked⟩

theorem Inv.call (hinv : Inv s l chain (fun _ => 0)) (hsolid : Solid s chain) (hplain : Plain s.heap l)
    (hm : s.Meets op) : ∃ r s', step s op = .ok (r, s') ∧ SpecStep (contents s) op r (contents s') ∧
      ∃ l' chain', Inv s' l' chain' (fun _ => 0) ∧ Solid s' chain' ∧ Plain s'.heap l' := by
  have hmet : Met s l chain op := ⟨hm.live, hm.sums, hsolid, hplain⟩
  obtain ⟨⟨r, s'⟩, hrun, _, l', chain', hran, hspec⟩ :=
    (step_good hinv (fun p hp => (hm.live p hp).1) hm.fits hm.own).exists_ok fun _ h => h hmet
  exact ⟨r, s', hrun, hspec hmet, l', chain', hran.inv, hran.solid hsolid, hran.effect.plain hplain⟩

theorem Values.inv (h : Values text s) : ∃ l chain, Inv s l chain (fun _ => 0) ∧ Solid s chain ∧ Plain s.heap l := by
  induction h with
  | init => exact ⟨[], _, init_inv text⟩
  | step _ hm hs ih =>
    obtain ⟨l, chain, hinv, hsolid, hplain⟩ := ih
    obtain ⟨r, _, hrun, -, hnext⟩ := hinv.call hsolid hplain hm
    obtain ⟨-, rfl⟩ := Prod.mk.inj (Except.ok.inj (hs.symm.trans hrun))
    exact hnext

/-- **Packets are values**: in a run whose sums are `int`s each call does what the operation on byte strings does. -/
theorem packets_values (h : Values text s) :
    s.Exact ∧ ∀ op, s.Meets op → ∃ r s', step s op = .ok (r, s') ∧ SpecStep (contents s) op r (contents s') := by
  obtain ⟨l, _, hinv, hsolid, hplain⟩ := h.inv
  refine ⟨hinv.exact, fun op hm => ?_⟩
  obtain ⟨r, s', hrun, hspec, -⟩ := hinv.call hsolid hplain hm
  exact ⟨r, s', hrun, hspec⟩

/-- The second and third of three bytes. -/
theorem packets_values_dup : ∃ s, Values (fun _ => 0) s ∧ contents s 0 = some [1, 2, 3] ∧
    ∃ r s', step s (.dup 0 1 2) = .ok (r, s') ∧ SpecStep (contents s) (.dup 0 1 2) r (contents s') := by
  have h1 : Values (fun _ => 0) _ := @Values.step _ _ _ .alloc _ .init ⟨nofun, trivial, trivial, nofun⟩ rfl
  have h2 : Values (fun _ => 0) _ := @Values.step _ _ _ (.append 0 [1, 2, 3]) _ h1
    { live := by decide, fits := (by decide : 3 < 2 ^ 31), sums := ⟨fun f hf => (nomatch hf), by decide⟩, own := nofun } rfl
  exact ⟨_, h2, by decide, (packets_values h2).2 (.dup 0 1 2)
    { live := by decide, fits := (by decide : (1 : Int) < 2 ^ 31 ∧ (2 : Int) < 2 ^ 31), sums := (by decide : (1 : Int) + 2 < 2 ^ 31), own := nofun }⟩

/-- `offset + n` is no `int`: the check does not find that there are three bytes only. -/
theorem packetdup_overflow : ∃ s, run (State.init fun _ => 0) [.alloc, .append 0 [1, 2, 3]] = .ok s ∧
    contents s 0 = some [1, 2, 3] ∧ (Op.dup 0 1 2147483647).Fits ∧
    SpecStep (contents s) (.dup 0 1 2147483647) .fail (contents s) ∧
    step s (.dup 0 1 2147483647) = .error .nilDeref := by
  exact ⟨_, rfl, by decide, (by decide : (1 : Int) < 2 ^ 31 ∧ (2147483647 : Int) < 2 ^ 31), .dupFail (x := [1, 2, 3]) (by decide) (by decide), rfl⟩

/-! ## Runs with foreign fragments -/

/-- `f` is not free. -/
def Heap.Held (h : Heap) (f : FragId) : Prop := h.Used (toList h.next (h.nfrag + 1) h.freeFrag) f

/-- No fragment that points into a memory has a destructor. -/
def Clean (h : Heap) (l : List FragId) : Prop := ∀ f, h.Used l f → (h.frag f).mem ≠ none → ¬ (h.frag f).Dirty

theorem HeapInv.held_iff (hinv : HeapInv h l) (f : FragId) : h.Held f ↔ h.Used l f := by
  have hsub : l ⊆ (range h.nfrag).map .glob := by
    intro f hf
    obtain ⟨k, hk, rfl⟩ := hinv.glob f hf
    exact mem_map.2 ⟨k, mem_range.2 hk, rfl⟩
  have hlen := (subperm_of_subset hinv.nodup hsub).length_le
  rw [length_map, length_range] at hlen
  rw [Heap.Held, show toList h.next (h.nfrag + 1) h.freeFrag = l from hinv.linked.toList_eq (by omega)]

/-- A record with a destructor that is taken again is the only way to such a fragment. -/
theorem Effect.clean {h' : Heap} (he : Effect h l h' l' freed) (hc : Clean h l)
    (htake : ∀ f, ¬ h.Used l f → h'.Used l' f → ¬ (h.frag f).Dirty) : Clean h' l' := by
  intro f hu' hm
  rw [Frag.Dirty, (he.stale f).1, (he.stale f).2]
  by_cases hu : h.Used l f
  · exact hc f hu (by rwa [he.keep f hu hu'] at hm)
  · exact htake f hu hu'

theorem packetforeign_spec (hinv : Inv s l chain (fun _ => 0)) {buf : Nat} {free a : Option Nat} (hn : n < 2 ^ 31) :
    Outcome (fun _ => True)
      (fun r => ∃ f l' chain', Inv r.2 l' chain' (fun _ => 0) ∧ r.2.heap.Used l' f ∧ (r.2.heap.frag f).mem = none ∧
        ∀ g, g ≠ f → r.2.heap.frag g = s.heap.frag g ∧ (r.2.heap.Used l' g ↔ s.heap.Used l g))
      (packetforeign s buf n free a) := by
  obtain ⟨p, s1, halloc, hfresh, hran⟩ := packetalloc_spec hinv
  have hinv1 := hran.inv
  have hp1 : s1.Live p := (hfresh.live p).2 (.inl rfl)
  obtain ⟨f, h1, l1, hrun, hheap1, hgrown, -, -, hmem, -⟩ := fragalloc_zero hinv1.heap p .pFront none
  unfold packetforeign
  simp only [bind, Except.bind, halloc, hrun]
  generalize hr : ({ h1.frag f with free := free, a := a, next := none, rp := buf, wp := (buf + n).toNat } : Frag) = r
  generalize hq : ({ s1.packet p with first := some f, last := some f, size := n } : Packet) = q
  by_cases h0 : 0 ≤ n
  · obtain ⟨hinv2, hused, hnot⟩ := hinv1.grow hp1.1 hheap1 hgrown
    obtain ⟨hheap2, hused2⟩ := @HeapInv.setUsed h1 l1 f r hheap1 hused (by rw [← hr]) (by rw [← hr]) (by rw [← hr]; dsimp only; omega)
      fun m hm => by rw [← hr] at hm; exact nomatch hmem.symm.trans hm
    have hsame : ∀ g, g ≠ f → (h1.setFrag f r).frag g = h1.frag g := fun g hg => setFrag_frag_of_ne _ hg r
    have hself : (h1.setFrag f r).frag f = r := setFrag_frag_self ..
    have hpk : ({ s1 with heap := h1.setFrag f r }.setPacket p q).packet p = q := setPacket_self q
    have hsize : total (h1.setFrag f r) [f] = n := by
      rw [total_cons, total_nil, Heap.fragsize, hself, ← hr]
      dsimp only
      omega
    have hinv3 := @Inv.change p { s1 with heap := h1 } ({ s1 with heap := h1.setFrag f r }.setPacket p q) l1 l1 chain (fun _ => 0)
      hinv2 [f] 0 hp1 hheap2 rfl rfl (fun q' hq' => setPacket_of_ne hq' q)
      (fun q' _ g hg => ⟨(hused2 g).2 (hinv2.used q' g hg), hsame g fun heq => hnot q' (heq ▸ hg)⟩) ?_ ?_ ?_ ?_ ?_ ?_
      fun q' i hu => hinv2.own q' i ((hused2 _).1 hu)
    · rw [Function.update_eq_self] at hinv3
      have hfree : ({ s1 with heap := h1.setFrag f r }.setPacket p q).notfree p = .ok () := if_pos (by rw [hpk, ← hq]; exact h0)
      rw [hfree]
      have hmem' : ((h1.setFrag f r).frag f).mem = none := by
        rw [hself, ← hr]
        exact hmem
      refine ⟨f, l1, _, hinv3, (hused2 f).2 hused, hmem', fun g hg => ?_⟩
      refine ⟨(hsame g hg).trans ((hgrown.same g hg).trans (by rw [hfresh.heap])), (hused2 g).trans ((hgrown.used g).trans ?_)⟩
      rw [hfresh.heap]
      exact or_iff_right hg
    · rw [hpk, ← hq]
      refine ⟨⟨rfl, ?_⟩, rfl, pairwise_singleton _ _⟩
      change ((h1.setFrag f r).frag f).next = none
      rw [hself, ← hr]
    · intro g hg
      rw [mem_singleton.1 hg]
      exact (hused2 f).2 hused
    · intro g hg q' _
      rw [mem_singleton.1 hg]
      exact hnot q'
    · rw [hpk, ← hq]
      exact hsize.symm.trans (Int.add_zero _).symm
    · rw [hpk, ← hq]
      exact h0
    · rw [hpk, ← hq]
      exact hn
  have hfree : ({ s1 with heap := h1.setFrag f r }.setPacket p q).notfree p = .error .assert :=
    if_neg (by rw [setPacket_self, ← hq]; dsimp only; omega)
  rw [hfree]
  trivial

/-- Runs in which only `packetforeign` takes a free record that has a destructor or an argument for one. -/
inductive Quiet (text : Nat → UInt8) : State → Prop where
  | init : Quiet text (State.init text)
  | step {s s' : State} {op : Op} {r : Res} (h : Quiet text s) (hlt : ∀ p ∈ op.packets, p < s.npacket) (hfit : op.Fits)
    (hs : step s op = .ok (r, s'))
    (htake : (∀ buf n free a, op ≠ .foreign buf n free a) →
      ∀ f, ¬ s.heap.Held f → s'.heap.Held f → ¬ (s.heap.frag f).Dirty) : Quiet text s'

theorem step_foreign_clean {buf : Nat} {free a : Option Nat} {r : Res} (hinv : Inv s l chain (fun _ => 0))
    (hclean : Clean s.heap l) (hn : n < 2 ^ 31) (hs : step s (.foreign buf n free a) = .ok (r, s')) :
    ∃ l' chain', Inv s' l' chain' (fun _ => 0) ∧ Clean s'.heap l' := by
  rcases hrun : packetforeign s buf n free a with e | ⟨p, s1⟩
  · simp only [step, bind, Except.bind, hrun] at hs
    exact nomatch hs
  simp only [step, bind, Except.bind, hrun, pure, Except.pure] at hs
  obtain ⟨f, l', chain', hinv', -, hmem, hsame⟩ := (packetforeign_spec hinv hn).of_ok hrun
  cases hs
  refine ⟨l', chain', hinv', fun g hu hm => ?_⟩
  by_cases heq : g = f
  · exact absurd (heq ▸ hmem) hm
  · obtain ⟨hrec, hiff⟩ := hsame g heq
    rw [hrec] at hm ⊢
    exact hclean g (hiff.1 hu) hm

theorem Quiet.inv (h : Quiet text s) : ∃ l chain, Inv s l chain (fun _ => 0) ∧ Clean s.heap l := by
  induction h with
  | init => exact ⟨[], _, (init_inv text).1, fun f _ _ => (init_inv text).2.2.clean f⟩
  | @step s s' op r _ hlt hfit hs htake ih =>
    obtain ⟨l, chain, hinv, hclean⟩ := ih
    by_cases hforeign : ∃ buf n free a, op = .foreign buf n free a
    · obtain ⟨buf, n, free, a, rfl⟩ := hforeign
      exact step_foreign_clean hinv hclean hfit hs
    have hother : ∀ buf n free a, op ≠ .foreign buf n free a := fun buf n free a heq => hforeign ⟨buf, n, free, a, heq⟩
    obtain ⟨_, l', chain', hran, -⟩ := (step_good hinv hlt hfit hother).of_ok hs
    refine ⟨l', chain', hran.inv, hran.effect.clean hclean fun f hf hf' => ?_⟩
    exact htake hother f (fun hheld => hf ((hinv.heap.held_iff f).1 hheld)) ((hran.inv.heap.held_iff f).2 hf')

/-- **`packetdup` and `packetsplit` of a packet without foreign fragments** do not find a destructor. -/
theorem fragdup_not_foreign (h : Quiet text s) (hp : p < s.npacket) (hown : ∀ f ∈ chainOf s p, (s.heap.frag f).mem ≠ none) :
    (∀ offset n : Int, offset < 2 ^ 31 → n < 2 ^ 31 → packetdup s p offset n ≠ .error .assertForeign) ∧
      ∀ n : Int, packetsplit s p n ≠ .error .assertForeign := by
  obtain ⟨l, chain, hinv, hclean⟩ := h.inv
  by_cases hlive : s.Live p
  · rw [hinv.chainOf_eq hlive] at hown
    have hdirty : ¬ ∃ g ∈ chain p, (s.heap.frag g).Dirty := by
      rintro ⟨g, hg, hd⟩
      exact hclean g (hinv.used p g hg) (hown g hg) hd
    refine ⟨fun offset n hoff hn heq => ?_, fun n heq => ?_⟩
    · rcases (packetdup_spec hinv hlive hoff hn).of_error heq with ⟨hne, -⟩ | ⟨-, hd⟩
      · exact hne rfl
      · exact hdirty hd
    · exact hdirty ((packetsplit_spec hinv hlive).of_error heq).2
  refine ⟨fun offset n _ _ heq => ?_, fun n heq => ?_⟩
  · simp only [packetdup, bind, Except.bind, notfree_dead hp hlive] at heq
    exact nomatch heq
  · simp only [packetsplit, bind, Except.bind, notfree_dead hp hlive] at heq
    exact nomatch heq

/-- Three bytes, from another record than that of a foreign packet, which is freed. -/
theorem fragdup_not_foreign_freed : ∃ s,
    run (State.init fun _ => 0) [.foreign 0 5 (some 7) none, .alloc, .append 1 [1, 2, 3], .free 0] = .ok s ∧
    chainOf s 1 = [.loc 1 0] ∧ (∀ offset n : Int, offset < 2 ^ 31 → n < 2 ^ 31 →
    packetdup s 1 offset n ≠ .error .assertForeign) ∧ ∀ n : Int, packetsplit s 1 n ≠ .error .assertForeign := by
  have hclean : ∀ f, ¬ ((State.init fun _ => 0).heap.frag f).Dirty := (init_inv fun _ => 0).2.2.clean
  have h1 : Quiet (fun _ => 0) _ := @Quiet.step _ _ _ (.foreign 0 5 (some 7) none) _ .init nofun (by decide : (5 : Int) < 2 ^ 31) rfl
    fun hne => absurd rfl (hne 0 5 (some 7) none)
  have h2 : Quiet (fun _ => 0) _ := @Quiet.step _ _ _ .alloc _ h1 nofun trivial rfl fun _ f hf hf' => absurd hf' hf
  have h3 : Quiet (fun _ => 0) _ := @Quiet.step _ _ _ (.append 1 [1, 2, 3]) _ h2 (by decide) (by decide : 3 < 2 ^ 31) rfl
    fun _ f hf _ hd => by
      rcases f with ⟨_ | p, _ | i⟩ | k
      · exact hf rfl
      · exact hclean (.loc 0 (i + 1)) hd
      · exact hclean (.loc (p + 1) 0) hd
      · exact hclean (.loc (p + 1) (i + 1)) hd
      · exact hclean (.glob k) hd
  have h4 : Quiet (fun _ => 0) _ := @Quiet.step _ _ _ (.free 0) _ h3 (by decide) trivial rfl
    fun _ f hf hf' => by
      rcases f with ⟨_ | p, _ | i⟩ | k
      · exact absurd rfl hf
      · exact absurd hf' hf
      · exact absurd hf' hf
      · exact absurd hf' hf
      · exact absurd hf' hf
  exact ⟨_, rfl, by decide, fragdup_not_foreign h4 (by decide) (by decide)⟩

/-- The record of the foreign packet comes back, with its destructor, as the first fragment of the next packet. -/
theorem packetdup_stale_destructor : ∃ s, run (State.init fun _ => 0) [.foreign 0 5 (some 7) none, .free 0, .alloc, .append 0 [1, 2, 3]] =
    .ok s ∧ (∀ f ∈ chainOf s 0, (s.heap.frag f).mem ≠ none) ∧ packetdup s 0 0 2 = .error .assertForeign := by
  exact ⟨_, rfl, by decide, rfl⟩

end

end Plan9.Venti.Packets
