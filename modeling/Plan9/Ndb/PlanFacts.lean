/-
Messages as planned.

`planMsg` says of the records alone where they go and how many of them are packed. A
record that does not fit leaves its names in the dictionary, where they lead nowhere
(`Plan.dropped`). Packing keeps to the plan (`Keeps`), also where it runs out of room.
-/
import Plan9.Ndb.PackFacts

namespace Plan9.Ndb

open List Option

/-! ## Names -/

def labelsLoop : Nat → Str → List Str
  | 0, _ => []
  | turns + 1, np => if np = [] then [] else label np :: labelsLoop turns (parent np)

/-- The labels of a name. -/
def labels (np : Str) : List Str := labelsLoop np.length np

def IsName (np : Str) : Prop := ∃ d : Domain, text d.labels = np

variable {ep : Nat} {s s' : Pack} {dp dp' dp'' : Dict} {np bs out : List UInt8} {env : Env} {rp : RR} {f : Field} {fs : List Field}
  {quest : Bool} {rps : List RR} {st st' st'' : Plan} {ls : List Str} {n : Nat}

theorem labelsLoop_text {turns : Nat} (hls : ∀ l ∈ ls, IsLabel l) (hturns : (text ls).length ≤ turns) : labelsLoop turns (text ls) = ls := by
  induction ls generalizing turns with
  | nil => cases turns <;> rfl
  | cons l ls ih =>
    have hl := hls l mem_cons_self
    have hlt := @length_parent_lt l ls hl
    cases turns with
    | zero => omega
    | succ turns =>
      rw [labelsLoop, if_neg (text_cons_ne_nil hl), label_text hl, parent_text hl, ih (fun l hl => hls l (mem_cons_of_mem _ hl)) (by omega)]

theorem labels_text (hls : ∀ l ∈ ls, IsLabel l) : labels (text ls) = ls := labelsLoop_text hls le_rfl

theorem IsName.labels (h : IsName np) : ∃ d : Domain, Ndb.labels np = d.labels ∧ text d.labels = np := by
  obtain ⟨d, rfl⟩ := h
  exact ⟨d, labels_text d.good, rfl⟩

/-! ## Well-formed records -/

/-- A C string that is counted in a byte. -/
structure IsString (np : Str) : Prop where
  short : np.length ≤ 255
  noNul : 0 ∉ np

/-- A part of a record has what is to be packed. -/
def FieldOk (env : Env) (rp : RR) : Field → Prop
  | .name x | .string x => ∃ dn, rp.dn x = some dn ∧ IsName dn.name
  | .symbol x => ∃ dn, rp.dn x = some dn ∧ IsString dn.name
  | .ushort x => rp.num x < 2 ^ 16
  | .uchar x => rp.num x < 2 ^ 8
  | .ulong x => rp.num x < 2 ^ 32
  -- the text of an address
  | .v4addr x => ∃ dn, rp.dn x = some dn ∧ env.fmtV (env.pv4 dn.name) = dn.name
  | .v6addr x => ∃ dn, rp.dn x = some dn ∧ env.fmtI (env.pv6 dn.name) = dn.name
  | .txt => ∀ t ∈ rp.txt, IsString t
  | .bytes => True

/-- A record of a type that both converters handle. -/
structure RROk (env : Env) (rp : RR) : Prop where
  owner : IsName rp.owner.name
  cls : rp.owner.cls < 2 ^ 16
  handled : (scans rp.type).isSome
  fields : ∀ f ∈ packs rp.type, FieldOk env rp f

/-- A question, of a type that is not taken for one with its bytes swapped. -/
structure QOk (rp : RR) : Prop where
  owner : IsName rp.owner.name
  cls : rp.owner.cls < 2 ^ 16
  type : rp.type < 2 ^ 16
  plain : ¬ (rp.type % 256 = 0 ∧ rp.type / 256 ≠ 0)

def OneOk (env : Env) (quest : Bool) (rp : RR) : Prop := if quest then QOk rp else RROk env rp

/-! ## Plans for records -/

def planField (ep : Nat) (rp : RR) (f : Field) (st : Plan) : Plan :=
  match f with
  | .name x =>
    match rp.dn x with
    | some dn => planName ep (labels dn.name) st
    | none => st
  | .symbol x | .string x =>
    match rp.dn x with
    | some dn => st.put ep (min dn.name.length 255 + 1)
    | none => st
  | .ushort _ => st.put ep 2
  | .uchar _ => st.put ep 1
  | .ulong _ => st.put ep 4
  | .v4addr _ => st.put ep 4
  | .v6addr _ => st.put ep 16
  | .txt => rp.txt.foldl (fun st t => st.put ep (min t.length 255 + 1)) st
  | .bytes => st.put ep (rp.data.getD []).length

def planFields (ep : Nat) (rp : RR) (fs : List Field) (st : Plan) : Plan := fs.foldl (fun st f => planField ep rp f st) st

def planHeader (ep : Nat) (rp : RR) (st : Plan) : Plan := (((planName ep (labels rp.owner.name) st).put ep 2).put ep 2).put ep 4

def planRR (ep : Nat) (rp : RR) (st : Plan) : Plan :=
  let st := planHeader ep rp st
  if st.past ∨ st.pos + 2 ≥ ep then { st with past := true } else planFields ep rp (packs rp.type) { st with pos := st.pos + 2 }

def planQ (ep : Nat) (rp : RR) (st : Plan) : Plan := ((planName ep (labels rp.owner.name) st).put ep 2).put ep 2

def planOne (ep : Nat) (quest : Bool) (rp : RR) (st : Plan) : Plan := if quest then planQ ep rp st else planRR ep rp st

/-- The record does not fit: `st'` is where it was given up. -/
def Plan.dropped (st st' : Plan) : Plan := { st with known := st.known ++ (st'.known.drop st.known.length).map fun y => (y.1, none) }

/-- With how many are packed. -/
def planRecords (ep : Nat) (quest : Bool) : List RR → Plan → Plan × Nat
  | [], st => (st, 0)
  | rp :: rps, st =>
    if st.pos < ep then
      let st' := planOne ep quest rp st
      if st'.past then (st.dropped st', 0)
      else ((planRecords ep quest rps st').1, (planRecords ep quest rps st').2 + 1)
    else (st, 0)

/-! ## Keeping to the plan -/

structure Keeps (ep : Nat) (s : Pack) (dp : Dict) (st : Plan) : Prop where
  named : List.Forall₂ Named dp.x st.known
  used : dp.used ≤ 254 * dp.x.length
  fits : Fits ep s st
  entries : s.past = false → List.Forall₂ (Entry s.out) dp.x st.known

/-- Nothing is forgotten. -/
structure Adds (dp dp' : Dict) (st st' : Plan) : Prop where
  dict : dp.x <+: dp'.x
  known : st.known <+: st'.known
  log : st.log <+: st'.log

theorem Adds.refl (dp : Dict) (st : Plan) : Adds dp dp st st := ⟨prefix_rfl, prefix_rfl, prefix_rfl⟩

theorem Adds.trans (h : Adds dp dp' st st') (h' : Adds dp' dp'' st' st'') : Adds dp dp'' st st'' :=
  ⟨h.dict.trans h'.dict, h.known.trans h'.known, h.log.trans h'.log⟩

theorem Adds.put (dp : Dict) (st : Plan) (ep n : Nat) : Adds dp dp st (st.put ep n) :=
  ⟨prefix_rfl, Plan.put_known st ep n ▸ prefix_rfl, Plan.put_log st ep n ▸ prefix_rfl⟩

theorem Keeps.packed (h : Keeps ep s dp st) (hover : s.past = false) : Packed ep s dp st := ⟨h.entries hover, h.used, h.fits⟩

theorem Keeps.put (h : Keeps ep s dp st) (hn : bs.length = n) : Keeps ep (s.put ep bs) dp (st.put ep n) := by
  subst hn
  refine ⟨(Plan.put_known st ep _).symm ▸ h.named, h.used, h.fits.put bs, fun hover => ?_⟩
  obtain ⟨hs, hout, -⟩ := Pack.put_over hover
  rw [Plan.put_known, hout]
  exact (h.entries hs).imp fun _ _ h => h.append _

/-- Where there is no more room, one entry at most is made. -/
theorem Keeps.name_of_over (d : Domain) (h : Keeps ep s dp st) (hover : s.past = true) :
    Keeps ep (pname ep (text d.labels) s dp).1 (pname ep (text d.labels) s dp).2 (planName ep d.labels st) ∧
      Adds dp (pname ep (text d.labels) s dp).2 st (planName ep d.labels st) := by
  have hshort : ¬ (text d.labels).length ≥ domlen := by
    have := d.short
    unfold domlen
    omega
  have hfinal : (pname ep (text d.labels) s dp).1.past = true := pname_of_over _ hover
  unfold planName
  unfold pname at hfinal ⊢
  rw [if_neg hshort] at hfinal ⊢
  have hgood := d.good
  have hlong := d.short
  generalize d.labels = ls at hfinal hgood hlong
  cases ls with
  | nil =>
    have hput : Keeps ep (s.put ep [0]) dp (st.put ep 1) := h.put rfl
    exact ⟨⟨hput.named, hput.used, ⟨hput.fits.past, hput.fits.pos⟩, hput.entries⟩, prefix_rfl,
      Plan.put_known st ep 1 ▸ prefix_rfl, prefix_append _ _⟩
  | cons l ls =>
    have hl := hgood l mem_cons_self
    have hnone : ∀ {s' : Pack} {P : Prop}, s'.past = true → s'.past = false → P := fun htrue hfalse => absurd (htrue.symm.trans hfalse) (by simp)
    rw [pnameLoop_cons hl] at hfinal ⊢
    rw [planLoop]
    rcases find_known (fun _ _ h => h) h.named hgood with ⟨hx, hk⟩ | ⟨off, k, hx, hk, -⟩
    · have hs1 : (s.put ep (UInt8.ofNat l.length :: l)).past = true := Pack.put_of_over hover
      obtain ⟨_, _, hentx, hentk, hent, hused, hfits, -⟩ := @enter_plan (l :: ls) ep s dp st none (hops st.known (l :: ls))
        h.named.length_eq.symm h.fits h.used hlong (by simp)
      have hput := hfits.put (UInt8.ofNat l.length :: l)
      have hst1 : ((st.enter ep (hops st.known (l :: ls)) (l :: ls)).put ep (l.length + 1)).past = true := hput.past ▸ hs1
      rw [hx, hk]
      rw [if_pos hs1, if_pos hst1]
      refine ⟨⟨?_, hused, ⟨hput.past, hput.pos⟩, hnone hs1⟩, ?_, ?_, prefix_append _ _⟩
      · rw [Plan.put_known, hentx, hentk]
        exact rel_append h.named (hent.imp fun _ _ h => h.named hgood (cons_ne_nil _ _))
      · exact hentx ▸ prefix_append _ _
      · rw [Plan.put_known, hentk]
        exact prefix_append _ _
    · have hput : Keeps ep (s.put ep (pointerTo off)) dp (st.put ep 2) := h.put rfl
      rw [hx, hk]
      exact ⟨⟨hput.named, hput.used, ⟨hput.fits.past, hput.fits.pos⟩, hput.entries⟩, prefix_rfl,
        Plan.put_known st ep 2 ▸ prefix_rfl, prefix_append _ _⟩

theorem Keeps.name (hnp : IsName np) (h : Keeps ep s dp st) :
    Keeps ep (pname ep np s dp).1 (pname ep np s dp).2 (planName ep (labels np) st) ∧
      Adds dp (pname ep np s dp).2 st (planName ep (labels np) st) := by
  obtain ⟨d, hlabels, rfl⟩ := hnp.labels
  rw [hlabels]
  cases hover : s.past with
  | true => exact h.name_of_over d hover
  | false =>
    obtain ⟨_, _, hres⟩ := pname_plan d (h.packed hover)
    refine ⟨⟨?_, hres.used, hres.fits, fun hfinal => ((h.packed hover).name d hfinal).entries⟩, ?_, ?_, prefix_append _ _⟩
    · rw [hres.x, hres.known]
      exact rel_append h.named hres.named
    · exact hres.x ▸ prefix_append _ _
    · exact hres.known ▸ prefix_append _ _

theorem Keeps.spells {k : Nat} (hnp : IsName np) (h : Keeps ep s dp st) (hover : (pname ep np s dp).1.past = false)
    (hk : hops st.known (labels np) = some k) :
    Spells (pname ep np s dp).1.out s.out.length (labels np) k (pname ep np s dp).1.out.length := by
  obtain ⟨d, hlabels, rfl⟩ := hnp.labels
  rw [hlabels] at hk ⊢
  have hs : s.past = false := by
    cases hover' : s.past with
    | false => rfl
    | true => exact absurd ((pname_of_over _ hover').symm.trans hover) (by simp)
  obtain ⟨_, _, hres⟩ := pname_plan d (h.packed hs)
  exact hres.spells hover k hk

/-! ## Records -/

theorem Keeps.symbol (np : Str) (h : Keeps ep s dp st) : Keeps ep (psym ep np s) dp (st.put ep (min np.length 255 + 1)) := by
  refine h.put ?_
  rw [length_cons, length_take]
  unfold strlen
  split <;> omega

theorem Keeps.txt (txt : List Str) (h : Keeps ep s dp st) :
    Keeps ep (txt.foldl (fun s t => psym ep t s) s) dp (txt.foldl (fun st t => st.put ep (min t.length 255 + 1)) st) ∧
      Adds dp dp st (txt.foldl (fun st t => st.put ep (min t.length 255 + 1)) st) := by
  induction txt generalizing s st with
  | nil => exact ⟨h, .refl dp st⟩
  | cons t txt ih =>
    obtain ⟨hkeeps, hadds⟩ := ih (h.symbol t)
    exact ⟨hkeeps, (Adds.put dp st ep _).trans hadds⟩

theorem Keeps.field (hok : FieldOk env rp f) (h : Keeps ep s dp st) : ∃ s' dp', packField env ep rp f s dp = some (s', dp') ∧
    Keeps ep s' dp' (planField ep rp f st) ∧ Adds dp dp' st (planField ep rp f st) := by
  cases f with
  | name x =>
    obtain ⟨dn, hdn, hname⟩ := hok
    obtain ⟨hkeeps, hadds⟩ := h.name hname
    rw [packField, planField, hdn]
    exact ⟨_, _, rfl, hkeeps, hadds⟩
  | symbol x | string x =>
    obtain ⟨dn, hdn, -⟩ := hok
    rw [packField, planField, hdn]
    exact ⟨_, _, rfl, h.symbol dn.name, .put dp st ep _⟩
  | ushort x | uchar x | ulong x => exact ⟨_, _, rfl, h.put (length_beBytes _ _), .put dp st ep _⟩
  | v4addr x =>
    obtain ⟨dn, hdn, -⟩ := hok
    rw [packField, planField, hdn]
    exact ⟨_, _, rfl, h.put (env.pv4_length _), .put dp st ep _⟩
  | v6addr x =>
    obtain ⟨dn, hdn, -⟩ := hok
    rw [packField, planField, hdn]
    exact ⟨_, _, rfl, h.put (env.pv6_length _), .put dp st ep _⟩
  | txt =>
    obtain ⟨hkeeps, hadds⟩ := h.txt rp.txt
    exact ⟨_, _, rfl, hkeeps, hadds⟩
  | bytes => exact ⟨_, _, rfl, h.put rfl, .put dp st ep _⟩

theorem Keeps.fields (hok : ∀ f ∈ fs, FieldOk env rp f) (h : Keeps ep s dp st) : ∃ s' dp', packFields env ep rp fs s dp = some (s', dp') ∧
    Keeps ep s' dp' (planFields ep rp fs st) ∧ Adds dp dp' st (planFields ep rp fs st) := by
  induction fs generalizing s dp st with
  | nil => exact ⟨s, dp, rfl, h, .refl dp st⟩
  | cons f fs ih =>
    obtain ⟨_, _, hf, hkeeps, hadds⟩ := h.field (hok f mem_cons_self)
    obtain ⟨s2, dp2, hfs, hkeeps', hadds'⟩ := ih (fun f hf => hok f (mem_cons_of_mem _ hf)) hkeeps
    exact ⟨s2, dp2, by rw [packFields, hf]; exact hfs, hkeeps', hadds.trans hadds'⟩

theorem Keeps.header (env : Env) (howner : IsName rp.owner.name) (h : Keeps ep s dp st) :
    Keeps ep (packHeader env ep rp s dp).1 (packHeader env ep rp s dp).2 (planHeader ep rp st) ∧
      Adds dp (packHeader env ep rp s dp).2 st (planHeader ep rp st) := by
  obtain ⟨hkeeps, hadds⟩ := h.name howner
  exact ⟨((hkeeps.put (length_beBytes _ _)).put (length_beBytes _ _)).put (length_beBytes _ _),
    ((hadds.trans (.put _ _ _ _)).trans (.put _ _ _ _)).trans (.put _ _ _ _)⟩

theorem Keeps.room (bs : List UInt8) (h : Keeps ep s dp st) (hover : s.past = false) (hroom : s.out.length + 2 < ep) (hbs : bs.length = 2) :
    Keeps ep (s.room bs) dp { st with pos := st.pos + 2 } := by
  obtain ⟨_, -⟩ := h.fits.pos hover
  refine ⟨h.named, h.used, ⟨h.fits.past, fun _ => ?_⟩, fun _ => (h.entries hover).imp fun _ _ h => h.append _⟩
  unfold Pack.room
  dsimp only
  rw [length_append]
  omega

theorem packFields_filled (hover : s'.past = false) (h : packFields env ep rp fs (s.room [0, 0]) dp = some (s', dp')) :
    packFields env ep rp fs (s.room (beBytes 2 (s'.out.drop (s.out.length + 2)).length)) dp = some (s.fill s', dp') := by
  have hlen : (s.room [0, 0]).out.length = s.out.length + 2 := length_append
  have hswap : ∀ n, s.room (beBytes 2 n) = (s.room [0, 0]).swap (s.out ++ beBytes 2 n) := by
    intro n
    unfold Pack.swap Pack.room
    rw [drop_eq_nil_of_le (by simp), append_nil]
  have hpre : ∀ n, (s.out ++ beBytes 2 n).length = s.out.length + 2 := by
    intro n
    rw [length_append, length_beBytes]
  rw [hswap, packFields_swap (by rw [hpre, hlen]), h, swapped, map_some]
  unfold Pack.fill Pack.swap
  rw [if_neg (by rw [hover]; simp), hpre, ← append_assoc]

/-- A record is packed as planned; if it fits, its length could have been there before its data. -/
theorem Keeps.rr (hok : RROk env rp) (h : Keeps ep s dp st) : ∃ s' dp', convRR2M env ep rp s dp = some (s', dp') ∧
    Keeps ep s' dp' (planRR ep rp st) ∧ Adds dp dp' st (planRR ep rp st) ∧
    (s'.past = false → (packHeader env ep rp s dp).1.past = false ∧
      ∃ n, s'.out.length = (packHeader env ep rp s dp).1.out.length + 2 + n ∧
        Keeps ep ((packHeader env ep rp s dp).1.room (beBytes 2 n)) (packHeader env ep rp s dp).2
          { planHeader ep rp st with pos := (planHeader ep rp st).pos + 2 } ∧
        packFields env ep rp (packs rp.type) ((packHeader env ep rp s dp).1.room (beBytes 2 n)) (packHeader env ep rp s dp).2 =
          some (s', dp') ∧
        planRR ep rp st = planFields ep rp (packs rp.type) { planHeader ep rp st with pos := (planHeader ep rp st).pos + 2 }) := by
  obtain ⟨hheader, hadds⟩ := h.header env hok.owner
  rw [convRR2M_eq, planRR]
  dsimp only
  generalize (packHeader env ep rp s dp).1 = s1 at hheader hadds
  generalize (packHeader env ep rp s dp).2 = dp1 at hheader hadds
  generalize planHeader ep rp st = st1 at hheader hadds
  have hfits := hheader.fits
  by_cases hfull : s1.past ∨ s1.out.length + 2 ≥ ep
  · have hplan : st1.past ∨ st1.pos + 2 ≥ ep := by
      rw [← hfits.past]
      cases hover : s1.past with
      | true => exact .inl rfl
      | false => exact .inr ((hfits.pos hover).1 ▸ hfull.resolve_left (by rw [hover]; simp))
    rw [if_pos hfull, if_pos hplan]
    exact ⟨_, _, rfl, ⟨hheader.named, hheader.used, ⟨rfl, fun hnot => nomatch hnot⟩, fun hnot => nomatch hnot⟩,
      ⟨hadds.dict, hadds.known, hadds.log⟩, fun hnot => nomatch hnot⟩
  have hover : s1.past = false := by simpa using fun hover => hfull (.inl hover)
  have hroom : s1.out.length + 2 < ep := Nat.not_le.1 fun hle => hfull (.inr hle)
  have hplan : ¬ (st1.past ∨ st1.pos + 2 ≥ ep) := by
    rw [← hfits.past, ← (hfits.pos hover).1]
    exact hfull
  rw [if_neg hfull, if_neg hplan]
  have hadds1 : Adds dp1 dp1 st1 { st1 with pos := st1.pos + 2 } := ⟨prefix_rfl, prefix_rfl, prefix_rfl⟩
  obtain ⟨s2, dp2, hfields, hkeeps, hadds'⟩ := (hheader.room [0, 0] hover hroom rfl).fields hok.fields
  rw [hfields]
  cases hover2 : s2.past with
  | true =>
    have hfill : s1.fill s2 = s2 := if_pos hover2
    refine ⟨s2, dp2, by rw [map_some, hfill], hkeeps, hadds.trans (hadds1.trans hadds'), fun hnot => ?_⟩
    exact absurd (hover2.symm.trans hnot) (by simp)
  | false =>
    have hfilled := packFields_filled hover2 hfields
    have hstart := hheader.room (beBytes 2 (s2.out.drop (s1.out.length + 2)).length) hover hroom (length_beBytes _ _)
    obtain ⟨_, _, hfields', hkeeps', -⟩ := hstart.fields hok.fields
    obtain ⟨rfl, rfl⟩ := Prod.mk.inj (some.inj (hfilled.symm.trans hfields'))
    refine ⟨s1.fill s2, dp2, rfl, hkeeps', hadds.trans (hadds1.trans hadds'), fun _ => ⟨hover, _, ?_, hstart, hfilled, rfl⟩⟩
    unfold Pack.fill
    rw [if_neg (by rw [hover2]; simp), length_append, length_append, length_beBytes]
    omega

theorem Keeps.question (hok : QOk rp) (h : Keeps ep s dp st) : Keeps ep (convQ2M ep rp s dp).1 (convQ2M ep rp s dp).2 (planQ ep rp st) ∧
    Adds dp (convQ2M ep rp s dp).2 st (planQ ep rp st) := by
  obtain ⟨hkeeps, hadds⟩ := h.name hok.owner
  exact ⟨(hkeeps.put (length_beBytes _ _)).put (length_beBytes _ _), (hadds.trans (.put _ _ _ _)).trans (.put _ _ _ _)⟩

theorem Keeps.one (hok : OneOk env quest rp) (h : Keeps ep s dp st) : ∃ s' dp', packOne env ep quest rp s dp = some (s', dp') ∧
    Keeps ep s' dp' (planOne ep quest rp st) ∧ Adds dp dp' st (planOne ep quest rp st) := by
  cases quest with
  | true =>
    obtain ⟨hkeeps, hadds⟩ := h.question hok
    exact ⟨_, _, rfl, hkeeps, hadds⟩
  | false =>
    obtain ⟨s', dp', hone, hkeeps, hadds, -⟩ := h.rr hok
    exact ⟨s', dp', hone, hkeeps, hadds⟩

/-! ## Sections -/

theorem forall₂_split {α β : Type} {R : α → β → Prop} {xs : List α} {ys ys' : List β} {xs' : List α} (h : List.Forall₂ R (xs ++ xs') (ys ++ ys'))
    (hlen : xs.length = ys.length) : List.Forall₂ R xs ys ∧ List.Forall₂ R xs' ys' := by
  induction xs generalizing ys with
  | nil =>
    obtain rfl := eq_nil_of_length_eq_zero hlen.symm
    exact ⟨.nil, h⟩
  | cons x xs ih =>
    cases ys with
    | nil => exact nomatch hlen
    | cons y ys =>
      obtain ⟨hxy, hrest⟩ := forall₂_cons.1 h
      obtain ⟨hxs, hxs'⟩ := ih hrest (Nat.succ.inj hlen)
      exact ⟨.cons hxy hxs, hxs'⟩

theorem Keeps.dropped (h : Keeps ep s dp st) (hover : s.past = false) (h' : Keeps ep s' dp' st') (hadds : Adds dp dp' st st') :
    Keeps ep s dp' (st.dropped st') := by
  obtain ⟨new, hnew⟩ := hadds.dict
  obtain ⟨newk, hnewk⟩ := hadds.known
  have hall := h'.named
  rw [← hnew, ← hnewk] at hall
  obtain ⟨-, hadded⟩ := forall₂_split hall h.named.length_eq
  have hstale : List.Forall₂ (Entry s.out) new (newk.map fun y => (y.1, none)) :=
    forall₂_map_right_iff.2 (hadded.imp fun _ _ h => ⟨⟨h.good, h.name, h.ne⟩, fun _ hnone => nomatch hnone⟩)
  have hknown : (st.dropped st').known = st.known ++ newk.map fun y => (y.1, none) := by
    unfold Plan.dropped
    rw [← hnewk, drop_left]
  have hentries : List.Forall₂ (Entry s.out) dp'.x (st.dropped st').known := by
    rw [hknown, ← hnew]
    exact rel_append (h.entries hover) hstale
  exact ⟨hentries.imp fun _ _ h => h.toNamed, h'.used, ⟨h.fits.past, h.fits.pos⟩, fun _ => hentries⟩

theorem Keeps.records (hok : ∀ rp ∈ rps, OneOk env quest rp) (h : Keeps ep ⟨out, false⟩ dp st) :
    ∃ out' dp', packLoop env ep quest rps out dp = some (out', dp', (planRecords ep quest rps st).2) ∧
      Keeps ep ⟨out', false⟩ dp' (planRecords ep quest rps st).1 ∧ st.log <+: (planRecords ep quest rps st).1.log := by
  induction rps generalizing out dp st with
  | nil => exact ⟨out, dp, rfl, h, prefix_rfl⟩
  | cons rp rps ih =>
    obtain ⟨hpos, -⟩ := h.fits.pos rfl
    obtain ⟨s1, dp1, hone, hkeeps, hadds⟩ := h.one (hok rp mem_cons_self)
    rw [packLoop_cons, planRecords, ← hpos]
    dsimp only
    by_cases hroom : out.length < ep
    · rw [if_pos hroom, if_pos hroom, hone, bind_some, ← hkeeps.fits.past]
      cases hover : s1.past with
      | true => exact ⟨out, dp1, rfl, h.dropped rfl hkeeps hadds, prefix_rfl⟩
      | false =>
        obtain ⟨_, over1⟩ := s1
        obtain rfl : over1 = false := hover
        obtain ⟨out', dp', hrest, hkeeps', hlog⟩ := ih (fun rp hrp => hok rp (mem_cons_of_mem _ hrp)) hkeeps
        rw [if_neg Bool.false_ne_true, if_neg Bool.false_ne_true, hrest]
        exact ⟨out', dp', rfl, hkeeps', hadds.log.trans hlog⟩
    · rw [if_neg hroom, if_neg hroom]
      exact ⟨out, dp, rfl, h, prefix_rfl⟩

end Plan9.Ndb
