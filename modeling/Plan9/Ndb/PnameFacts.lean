/-
Names that are packed one after another.

Where the bytes go can be said of the names alone: `Plan` has the offset and what the
dictionary knows, the suffixes entered, each with how many pointers there are on the way
from where it is packed. `hops` is that for a name to be packed. It is none where a pointer
cannot lead: it has 14 bits.
-/
import Mathlib.Data.List.Forall2
import Plan9.Ndb.NameFacts

namespace Plan9.Ndb

open List

variable {l : Str} {ls : List Str} {out : List UInt8} {k e ep : Nat} {s : Pack} {dp : Dict} {x pend : List (Nat × Str)}

/-! ## Plans -/

/-- Suffixes, with the pointers on the way. -/
abbrev Known := List (List Str × Option Nat)

def Known.find (known : Known) (ls : List Str) : Option (Option Nat) := (known.find? (·.1 = ls)).map (·.2)

/-- The pointers on the way through a name that is packed. -/
def hops (known : Known) : List Str → Option Nat
  | [] => some 0
  | l :: ls =>
    match known.find (l :: ls) with
    | some k => k.map (· + 1)
    | none => hops known ls

structure Plan where
  known : Known
  pos : Nat
  past : Bool
  /-- The hops of the names so far. -/
  log : List (Option Nat)

def Plan.off (st : Plan) (ep : Nat) : Nat := if st.past then ep + 1 else st.pos

/-- So many bytes are packed. -/
def Plan.put (st : Plan) (ep n : Nat) : Plan :=
  if st.past ∨ ep < st.pos + n then { st with past := true } else { st with pos := st.pos + n }

@[simp]
theorem Plan.put_known (st : Plan) (ep n : Nat) : (st.put ep n).known = st.known := by
  unfold Plan.put
  split <;> rfl

@[simp]
theorem Plan.put_log (st : Plan) (ep n : Nat) : (st.put ep n).log = st.log := by
  unfold Plan.put
  split <;> rfl

def Plan.enter (st : Plan) (ep : Nat) (k : Option Nat) (ls : List Str) : Plan :=
  if st.known.length < ndict then { st with known := st.known ++ [(ls, if st.off ep < 2 ^ 14 then k else none)] } else st

/-- Label after label of a name with the hops `k`. -/
def planLoop (ep : Nat) (k : Option Nat) : List Str → Plan → Plan
  | [], st => st.put ep 1
  | l :: ls, st =>
    match st.known.find (l :: ls) with
    | some _ => st.put ep 2
    | none =>
      let st := (st.enter ep k (l :: ls)).put ep (l.length + 1)
      if st.past then st else planLoop ep k ls st

def planName (ep : Nat) (ls : List Str) (st : Plan) : Plan :=
  { planLoop ep (hops st.known ls) ls st with log := st.log ++ [hops st.known ls] }

/-! ## The dictionary -/

theorem forall₂_right {α β : Type} {R : α → β → Prop} {P : β → Prop} {xs : List α} {ys : List β} (h : List.Forall₂ R xs ys)
    (hP : ∀ a b, R a b → P b) : ∀ b ∈ ys, P b := by
  induction h with
  | nil => exact fun b hb => nomatch hb
  | cons hab _ ih =>
    intro b hb
    rcases mem_cons.1 hb with rfl | hb
    · exact hP _ _ hab
    · exact ih b hb

/-- A name of the dictionary. -/
structure Named (x : Nat × Str) (y : List Str × Option Nat) : Prop where
  good : ∀ l ∈ y.1, IsLabel l
  name : x.2 = text y.1
  ne : y.1 ≠ []

/-- It is spelled where it is said to be. -/
structure Entry (out : List UInt8) (x : Nat × Str) (y : List Str × Option Nat) : Prop extends Named x y where
  spells : ∀ k, y.2 = some k → x.1 < 2 ^ 14 ∧ ∃ e, Spells out x.1 y.1 k e

theorem Entry.append {x : Nat × Str} {y : List Str × Option Nat} (h : Entry out x y) (rest : List UInt8) : Entry (out ++ rest) x y :=
  ⟨h.toNamed, fun k hk => by
    obtain ⟨hoff, e, hspells⟩ := h.spells k hk
    exact ⟨hoff, e, hspells.append rest⟩⟩

variable {known : Known}

theorem find_known {R : Nat × Str → List Str × Option Nat → Prop} (hR : ∀ a b, R a b → Named a b) (hx : List.Forall₂ R x known)
    (hls : ∀ l ∈ ls, IsLabel l) : (x.find? (·.2 = text ls) = none ∧ known.find ls = none) ∨
      ∃ off k, x.find? (·.2 = text ls) = some (off, text ls) ∧ known.find ls = some k ∧ R (off, text ls) (ls, k) := by
  induction hx with
  | nil => exact .inl ⟨rfl, rfl⟩
  | @cons a b x known hentry _ ih =>
    obtain ⟨off, name⟩ := a
    obtain ⟨ls', k⟩ := b
    have hname : name = text ls' := (hR _ _ hentry).name
    by_cases heq : ls' = ls
    · subst heq hname
      refine .inr ⟨off, k, ?_, ?_, hentry⟩
      · simp
      · simp [Known.find]
    have hne : ¬ name = text ls := fun h => heq (text_inj (hR _ _ hentry).good hls (hname.symm.trans h))
    have hfind : find? (fun y => decide (y.2 = text ls)) ((off, name) :: x) = x.find? (·.2 = text ls) := by
      rw [find?_cons, decide_eq_false hne]
    have hknown : Known.find ((ls', k) :: known) ls = Known.find known ls := by
      unfold Known.find
      rw [find?_cons, decide_eq_false heq]
    rw [hfind, hknown]
    exact ih

/-! ## Packing -/

theorem Pack.put_over {bs : List UInt8} (h : (s.put ep bs).past = false) :
    s.past = false ∧ s.put ep bs = { s with out := s.out ++ bs } ∧ s.out.length + bs.length ≤ ep := by
  unfold Pack.put at h ⊢
  by_cases hfull : s.past ∨ ep < s.out.length + bs.length
  · rw [if_pos hfull] at h
    exact nomatch h
  · rw [if_neg hfull]
    exact ⟨by simpa using fun hover => hfull (.inl hover), rfl, Nat.not_lt.1 fun hlt => hfull (.inr hlt)⟩

theorem enter_spec {np : Str} {off : Nat} {last : Option Str} (hused : dp.used ≤ 254 * dp.x.length) (hnp : np.length ≤ 253)
    (hlast : dp.x.length < ndict → ∀ prev, last = some prev → parent prev = np) :
    (dp.x.length < ndict ∧ (dp.enter np last off).1.x = dp.x ++ [(off % 2 ^ 16, np)] ∧ (dp.enter np last off).2 = some np ∨
      ¬ dp.x.length < ndict ∧ (dp.enter np last off).1 = dp) ∧
    (dp.enter np last off).1.used ≤ 254 * (dp.enter np last off).1.x.length := by
  unfold Dict.enter
  by_cases hroom : dp.x.length < ndict
  · rw [if_pos hroom]
    cases last with
    | some prev =>
      have hprev := hlast hroom prev rfl
      dsimp only
      rw [hprev]
      refine ⟨.inl ⟨hroom, rfl, rfl⟩, ?_⟩
      rw [length_append]
      omega
    | none =>
      have hbuf : dp.used + np.length + 1 < dictbuf := by
        unfold ndict at hroom
        unfold dictbuf
        omega
      rw [if_pos hbuf]
      refine ⟨.inl ⟨hroom, rfl, rfl⟩, ?_⟩
      dsimp only
      rw [length_append, length_singleton]
      omega
  · rw [if_neg hroom]
    exact ⟨.inr ⟨hroom, rfl⟩, hused⟩

/-- The plan is for where the packing is. -/
structure Fits (ep : Nat) (s : Pack) (st : Plan) : Prop where
  past : s.past = st.past
  pos : s.past = false → s.out.length = st.pos ∧ s.out.length ≤ ep

variable {st : Plan}

theorem Fits.off (h : Fits ep s st) : s.off ep = st.off ep := by
  unfold Pack.off Plan.off
  rw [← h.past]
  cases hover : s.past with
  | true => rfl
  | false => exact (h.pos hover).1

theorem Fits.put (h : Fits ep s st) (bs : List UInt8) : Fits ep (s.put ep bs) (st.put ep bs.length) := by
  unfold Pack.put Plan.put
  rw [← h.past]
  cases hover : s.past with
  | true =>
    exact ⟨rfl, fun hfalse => nomatch hfalse⟩
  | false =>
    rw [← (h.pos hover).1]
    by_cases hfull : ep < s.out.length + bs.length
    · rw [if_pos (.inr hfull), if_pos (.inr hfull)]
      exact ⟨rfl, fun hfalse => nomatch hfalse⟩
    rw [if_neg (by simpa using hfull), if_neg (by simpa using hfull)]
    refine ⟨hover.symm ▸ h.past ▸ rfl, fun _ => ⟨?_, ?_⟩⟩
    · exact length_append
    · rw [length_append]
      exact Nat.not_lt.1 hfull

theorem find_pending {pendk : Known} (hlonger : ∀ y ∈ pendk, ls.length < y.1.length) : pendk.find ls = none := by
  have hnone : pendk.find? (·.1 = ls) = none := by
    refine find?_eq_none.2 fun y hy heq => ?_
    have hlt := hlonger y hy
    rw [of_decide_eq_true heq] at hlt
    exact Nat.lt_irrefl _ hlt
  unfold Known.find
  rw [hnone]
  rfl

theorem Known.find_append (known pendk : Known) (ls : List Str) : Known.find (known ++ pendk) ls = (known.find ls).or (pendk.find ls) := by
  unfold Known.find
  rw [find?_append]
  cases known.find? (·.1 = ls) <;> rfl

theorem pnameLoop_cons {turns : Nat} {last : Option Str} (hl : IsLabel l) :
    pnameLoop ep (turns + 1) (text (l :: ls)) last s dp =
      match dp.x.find? (·.2 = text (l :: ls)) with
      | some (offset, _) => (s.put ep (pointerTo offset), dp)
      | none =>
        if (s.put ep (UInt8.ofNat l.length :: l)).past then
          (s.put ep (UInt8.ofNat l.length :: l), (dp.enter (text (l :: ls)) last (s.off ep)).1)
        else pnameLoop ep turns (text ls) (dp.enter (text (l :: ls)) last (s.off ep)).2 (s.put ep (UInt8.ofNat l.length :: l))
          (dp.enter (text (l :: ls)) last (s.off ep)).1 := by
  have hshort : ¬ l.length > labellen := by
    have := hl.short
    unfold labellen
    omega
  rw [pnameLoop, if_neg (text_cons_ne_nil hl), label_text hl, parent_text hl]
  simp only [if_neg hshort]
  rfl

/-- An entry for a name at an offset. -/
structure At (off : Nat) (k : Option Nat) (ls : List Str) (x : Nat × Str) (y : List Str × Option Nat) : Prop where
  offset : x.1 = off % 2 ^ 16
  name : x.2 = text ls
  known : y = (ls, if off < 2 ^ 14 then k else none)

theorem At.named {off : Nat} {k : Option Nat} {x : Nat × Str} {y : List Str × Option Nat} (h : At off k ls x y)
    (hls : ∀ l ∈ ls, IsLabel l) (hne : ls ≠ []) : Named x y := by
  obtain ⟨-, hname, rfl⟩ := h
  exact ⟨hls, hname, hne⟩

theorem At.entry {off : Nat} {k : Option Nat} {x : Nat × Str} {y : List Str × Option Nat} (h : At off k ls x y)
    (hls : ∀ l ∈ ls, IsLabel l) (hne : ls ≠ []) (hspells : ∀ n, k = some n → ∃ e, Spells out off ls n e) : Entry out x y := by
  refine ⟨h.named hls hne, fun n hn => ?_⟩
  obtain ⟨hoff, -, rfl⟩ := h
  split at hn
  · rename_i hlt
    rw [Nat.mod_eq_of_lt (by omega)] at hoff
    obtain ⟨e, he⟩ := hspells n hn
    exact ⟨hoff ▸ hlt, e, hoff ▸ he⟩
  · exact nomatch hn

theorem enter_plan {last : Option Str} {k : Option Nat} (hlen : st.known.length = dp.x.length) (hfits : Fits ep s st)
    (hused : dp.used ≤ 254 * dp.x.length) (hshort : (text ls).length ≤ 253)
    (hlast : dp.x.length < ndict → ∀ prev, last = some prev → parent prev = text ls) :
    ∃ new newk, (dp.enter (text ls) last (s.off ep)).1.x = dp.x ++ new ∧ (st.enter ep k ls).known = st.known ++ newk ∧
      List.Forall₂ (At (s.off ep) k ls) new newk ∧
      (dp.enter (text ls) last (s.off ep)).1.used ≤ 254 * (dp.enter (text ls) last (s.off ep)).1.x.length ∧
      Fits ep s (st.enter ep k ls) ∧
      ((dp.enter (text ls) last (s.off ep)).1.x.length < ndict → (dp.enter (text ls) last (s.off ep)).2 = some (text ls)) := by
  obtain ⟨henter, hused'⟩ := @enter_spec dp (text ls) (s.off ep) last hused hshort hlast
  have hfits' : Fits ep s (st.enter ep k ls) := by
    unfold Plan.enter
    split
    · exact ⟨hfits.past, hfits.pos⟩
    · exact hfits
  unfold Plan.enter at hfits' ⊢
  rcases henter with ⟨hroom, hx, hlast'⟩ | ⟨hfull, heq⟩
  · rw [if_pos (hlen.symm ▸ hroom)] at hfits' ⊢
    refine ⟨_, _, hx, rfl, .cons ⟨rfl, rfl, ?_⟩ .nil, hused', hfits', fun _ => hlast'⟩
    rw [hfits.off]
  · rw [if_neg (hlen.symm ▸ hfull)] at hfits' ⊢
    exact ⟨[], [], by rw [heq, append_nil], by rw [append_nil], .nil, hused', hfits', fun hlt => absurd (heq ▸ hlt) hfull⟩

/-- What comes of a name: new entries, and, if it fits, the bytes that spell it. -/
structure NameResult (ep : Nat) (k : Option Nat) (ls : List Str) (s : Pack) (dp : Dict) (st : Plan) (s' : Pack) (dp' : Dict)
    (st' : Plan) (new : List (Nat × Str)) (newk : Known) : Prop where
  x : dp'.x = dp.x ++ new
  known : st'.known = st.known ++ newk
  named : List.Forall₂ Named new newk
  used : dp'.used ≤ 254 * dp'.x.length
  fits : Fits ep s' st'
  out : s'.past = false → ∃ bytes, s'.out = s.out ++ bytes
  entries : s'.past = false → List.Forall₂ (Entry s'.out) new newk
  spells : s'.past = false → ∀ n, k = some n → Spells s'.out s.out.length ls n s'.out.length

theorem pnameLoop_plan {x0 : List (Nat × Str)} {known0 pendk : Known} {turns : Nat} {last : Option Str}
    (hx : List.Forall₂ (Entry s.out) x0 known0) (hpend : List.Forall₂ Named pend pendk) (hdp : dp.x = x0 ++ pend)
    (hknown : st.known = known0 ++ pendk) (hlonger : ∀ y ∈ pendk, ls.length < y.1.length) (hused : dp.used ≤ 254 * dp.x.length)
    (hlast : dp.x.length < ndict → ∀ prev, last = some prev → parent prev = text ls) (hls : ∀ l ∈ ls, IsLabel l)
    (hshort : (text ls).length ≤ 253) (hturns : ls.length < turns) (hfits : Fits ep s st) :
    ∃ new newk, NameResult ep (hops known0 ls) ls s dp st (pnameLoop ep turns (text ls) last s dp).1
      (pnameLoop ep turns (text ls) last s dp).2 (planLoop ep (hops known0 ls) ls st) new newk := by
  induction ls generalizing turns last s dp st pend pendk with
  | nil =>
    obtain ⟨turns, rfl⟩ := Nat.exists_eq_succ_of_ne_zero (Nat.ne_of_gt hturns)
    have hput := hfits.put [0]
    rw [pnameLoop, if_pos (by rfl), planLoop]
    refine ⟨[], [], by simp, by simp, .nil, hused, hput, fun hover => ?_, fun _ => .nil, fun hover n hn => ?_⟩
    · obtain ⟨-, hout, -⟩ := Pack.put_over hover
      exact ⟨[0], by rw [hout]⟩
    obtain ⟨-, hout, -⟩ := Pack.put_over hover
    cases hn
    rw [hout, length_append, length_singleton]
    exact .root (by simp)
  | cons l ls ih =>
    obtain ⟨turns, rfl⟩ := Nat.exists_eq_succ_of_ne_zero (Nat.ne_of_gt (Nat.lt_of_le_of_lt (Nat.zero_le _) hturns))
    have hl := hls l mem_cons_self
    have hls' : ∀ l ∈ ls, IsLabel l := fun l hl => hls l (mem_cons_of_mem _ hl)
    have hpendknone : pendk.find (l :: ls) = none := find_pending hlonger
    have hxfind : dp.x.find? (·.2 = text (l :: ls)) = x0.find? (·.2 = text (l :: ls)) := by
      rcases find_known (fun _ _ h => h) hpend hls with ⟨hnone, -⟩ | ⟨off, k, -, hk, -⟩
      · rw [hdp, find?_append, hnone, Option.or_none]
      · exact absurd (hk.symm.trans hpendknone) (by simp)
    have hkfind : st.known.find (l :: ls) = known0.find (l :: ls) := by
      rw [hknown, Known.find_append, hpendknone, Option.or_none]
    rw [pnameLoop_cons hl, planLoop, hxfind, hkfind]
    rcases find_known (fun _ _ h => h.toNamed) hx hls with ⟨hnone, hknone⟩ | ⟨off, k, hsome, hksome, hentry⟩
    · -- the suffix is new, and its label is packed
      rw [hnone, hknone]
      have hhops : hops known0 (l :: ls) = hops known0 ls := by
        rw [hops, hknone]
      rw [hhops]
      have hlen : st.known.length = dp.x.length := by
        rw [hknown, hdp, length_append, length_append, hx.length_eq, hpend.length_eq]
      have hlabel := hfits.put (UInt8.ofNat l.length :: l)
      obtain ⟨ent, entk, hentx, hentknown, hent, hused', hentfits, hentlast⟩ :=
        enter_plan hlen hfits hused hshort hlast (k := hops known0 ls)
      have hnamed : List.Forall₂ Named ent entk := hent.imp fun _ _ h => h.named hls (cons_ne_nil _ _)
      have hlabel := hentfits.put (UInt8.ofNat l.length :: l)
      have hover : (s.put ep (UInt8.ofNat l.length :: l)).past = ((st.enter ep (hops known0 ls) (l :: ls)).put ep (l.length + 1)).past :=
        hlabel.past
      dsimp only
      rw [← hover]
      cases hs1 : (s.put ep (UInt8.ofNat l.length :: l)).past with
      | true =>
        rw [if_pos rfl, if_pos rfl]
        exact ⟨ent, entk, hentx, by rw [Plan.put_known, hentknown], hnamed, hused', hlabel,
          fun hfalse => absurd (hs1.symm.trans hfalse) (by simp), fun hfalse => absurd (hs1.symm.trans hfalse) (by simp),
          fun hfalse => absurd (hs1.symm.trans hfalse) (by simp)⟩
      | false =>
        obtain ⟨hsover, hout, -⟩ := Pack.put_over hs1
        rw [if_neg (by simp), if_neg (by simp)]
        have hlonger' : ∀ y ∈ pendk ++ entk, ls.length < y.1.length := by
          intro y hy
          rcases mem_append.1 hy with hy | hy
          · exact Nat.lt_of_succ_lt (hlonger y hy)
          have hlong : ∀ y ∈ entk, ls.length < y.1.length := forall₂_right hent fun a b hab => by
            rw [hab.known]
            exact Nat.lt_succ_self _
          exact hlong y hy
        have hx1 : List.Forall₂ (Entry (s.put ep (UInt8.ofNat l.length :: l)).out) x0 known0 := by
          rw [hout]
          exact hx.imp fun _ _ h => h.append _
        have hlast1 : (dp.enter (text (l :: ls)) last (s.off ep)).1.x.length < ndict → ∀ prev,
            (dp.enter (text (l :: ls)) last (s.off ep)).2 = some prev → parent prev = text ls := by
          intro hroom prev hprev
          obtain rfl := Option.some.inj ((hentlast hroom).symm.trans hprev)
          exact parent_text hl
        obtain ⟨new, newk, hres⟩ := @ih (s.put ep (UInt8.ofNat l.length :: l)) (dp.enter (text (l :: ls)) last (s.off ep)).1
          (pend ++ ent) ((st.enter ep (hops known0 ls) (l :: ls)).put ep (l.length + 1)) (pendk ++ entk) turns
          (dp.enter (text (l :: ls)) last (s.off ep)).2 hx1 (rel_append hpend hnamed)
          (by rw [hentx, hdp, append_assoc]) (by rw [Plan.put_known, hentknown, hknown, append_assoc]) hlonger' hused' hlast1
          hls' (Nat.le_of_lt (Nat.lt_of_lt_of_le (length_parent_lt hl) hshort)) (Nat.lt_of_succ_lt_succ hturns) hlabel
        have hspells : (pnameLoop ep turns (text ls) (dp.enter (text (l :: ls)) last (s.off ep)).2
            (s.put ep (UInt8.ofNat l.length :: l)) (dp.enter (text (l :: ls)) last (s.off ep)).1).1.past = false →
            ∀ n, hops known0 ls = some n → Spells (pnameLoop ep turns (text ls) (dp.enter (text (l :: ls)) last (s.off ep)).2
              (s.put ep (UInt8.ofNat l.length :: l)) (dp.enter (text (l :: ls)) last (s.off ep)).1).1.out s.out.length (l :: ls) n
              (pnameLoop ep turns (text ls) (dp.enter (text (l :: ls)) last (s.off ep)).2
                (s.put ep (UInt8.ofNat l.length :: l)) (dp.enter (text (l :: ls)) last (s.off ep)).1).1.out.length := by
          intro hfinal n hn
          obtain ⟨bytes, hout'⟩ := hres.out hfinal
          have hrest := hres.spells hfinal n hn
          refine .label ?_ hl ?_
          · rw [hout', hout]
            simp
          have hstart : (s.put ep (UInt8.ofNat l.length :: l)).out.length = s.out.length + 1 + l.length := by
            rw [hout, length_append, length_cons]
            omega
          rw [← hstart]
          exact hrest
        refine ⟨ent ++ new, entk ++ newk, by rw [hres.x, hentx, append_assoc],
          by rw [hres.known, Plan.put_known, hentknown, append_assoc], rel_append hnamed hres.named, hres.used, hres.fits,
          fun hfinal => ?_, fun hfinal => ?_, fun hfinal n hn => ?_⟩
        · obtain ⟨bytes, hout'⟩ := hres.out hfinal
          exact ⟨_, by rw [hout', hout, append_assoc]⟩
        · refine rel_append (hent.imp fun a b hab => hab.entry hls (cons_ne_nil _ _) fun n hn => ?_) (hres.entries hfinal)
          have hoff : s.off ep = s.out.length := if_neg (by rw [hsover]; simp)
          have hat := hspells hfinal n hn
          rw [← hoff] at hat
          exact ⟨_, hat⟩
        · exact hspells hfinal n hn
    -- the rest is known
    rw [hsome, hksome]
    dsimp only
    have hhops : hops known0 (l :: ls) = k.map (· + 1) := by
      rw [hops, hksome]
    refine ⟨[], [], by simp, by simp, .nil, hused, hfits.put (pointerTo off), fun hover => ?_, fun _ => .nil, fun hover n hn => ?_⟩
    · obtain ⟨-, hout, -⟩ := Pack.put_over hover
      exact ⟨pointerTo off, by rw [hout]⟩
    obtain ⟨-, hout, -⟩ := Pack.put_over hover
    rw [hhops] at hn
    obtain ⟨m, rfl, rfl⟩ := Option.map_eq_some_iff.1 hn
    obtain ⟨hoff, e, hspells⟩ := hentry.spells m rfl
    rw [hout, length_append]
    exact .pointer (by simp [pointerTo]) hoff (cons_ne_nil _ _) (hspells.append _)

/-- The dictionary has what the plan knows, spelled in the message. -/
structure Packed (ep : Nat) (s : Pack) (dp : Dict) (st : Plan) : Prop where
  entries : List.Forall₂ (Entry s.out) dp.x st.known
  used : dp.used ≤ 254 * dp.x.length
  fits : Fits ep s st

theorem length_lt_turns (hls : ∀ l ∈ ls, IsLabel l) : ls.length < (text ls).length + 1 := by
  induction ls with
  | nil => exact Nat.one_pos
  | cons l ls ih =>
    have hlt := @length_parent_lt l ls (hls l mem_cons_self)
    have hrest := ih fun l hl => hls l (mem_cons_of_mem _ hl)
    rw [length_cons]
    omega

theorem pname_plan (d : Domain) (h : Packed ep s dp st) :
    ∃ new newk, NameResult ep (hops st.known d.labels) d.labels s dp st (pname ep (text d.labels) s dp).1
      (pname ep (text d.labels) s dp).2 (planName ep d.labels st) new newk := by
  have hshort : ¬ (text d.labels).length ≥ domlen := by
    have := d.short
    unfold domlen
    omega
  unfold pname
  rw [if_neg hshort]
  obtain ⟨new, newk, hres⟩ := @pnameLoop_plan d.labels ep s dp [] st dp.x st.known [] ((text d.labels).length + 1) none h.entries .nil
    (append_nil _).symm (append_nil _).symm (fun y hy => nomatch hy) h.used (fun _ prev hprev => nomatch hprev) d.good d.short
    (length_lt_turns d.good) h.fits
  exact ⟨new, newk, hres.x, hres.known, hres.named, hres.used, ⟨hres.fits.past, hres.fits.pos⟩, hres.out, hres.entries, hres.spells⟩

theorem Packed.name (d : Domain) (h : Packed ep s dp st) (hover : (pname ep (text d.labels) s dp).1.past = false) :
    Packed ep (pname ep (text d.labels) s dp).1 (pname ep (text d.labels) s dp).2 (planName ep d.labels st) := by
  obtain ⟨_, _, hres⟩ := pname_plan d h
  obtain ⟨_, hout⟩ := hres.out hover
  refine ⟨?_, hres.used, hres.fits⟩
  rw [hres.x, hres.known]
  refine rel_append ?_ (hres.entries hover)
  rw [hout]
  exact h.entries.imp fun _ _ h => h.append _

/-! ## Names one after another -/

def packNames (ep : Nat) : List Domain → Pack → Dict → Pack × Dict
  | [], s, dp => (s, dp)
  | d :: ds, s, dp => packNames ep ds (pname ep (text d.labels) s dp).1 (pname ep (text d.labels) s dp).2

def planNames (ep : Nat) (ds : List Domain) (st : Plan) : Plan := ds.foldl (fun st d => planName ep d.labels st) st

variable {d : Domain} {ds before after : List Domain}

theorem Pack.put_of_over {bs : List UInt8} (h : s.past = true) : (s.put ep bs).past = true := by
  unfold Pack.put
  rw [if_pos (.inl h)]

theorem pname_of_over (np : Str) (h : s.past = true) : (pname ep np s dp).1.past = true := by
  unfold pname
  split
  · rfl
  rw [pnameLoop]
  split
  · exact Pack.put_of_over h
  split
  · exact Pack.put_of_over h
  · dsimp only
    rw [if_pos (Pack.put_of_over h)]
    exact Pack.put_of_over h

theorem packNames_of_over (h : s.past = true) : (packNames ep ds s dp).1.past = true := by
  induction ds generalizing s dp with
  | nil => exact h
  | cons d ds ih => exact ih (pname_of_over _ h)

theorem packNames_append : packNames ep (before ++ after) s dp =
    packNames ep after (packNames ep before s dp).1 (packNames ep before s dp).2 := by
  induction before generalizing s dp with
  | nil => rfl
  | cons d ds ih => exact ih

theorem packNames_first (h : (packNames ep (d :: ds) s dp).1.past = false) : (pname ep (text d.labels) s dp).1.past = false := by
  cases hfirst : (pname ep (text d.labels) s dp).1.past with
  | false => rfl
  | true =>
    rw [packNames, packNames_of_over hfirst] at h
    exact nomatch h

theorem Packed.names (h : Packed ep s dp st) (hover : (packNames ep ds s dp).1.past = false) :
    Packed ep (packNames ep ds s dp).1 (packNames ep ds s dp).2 (planNames ep ds st) ∧
      ∃ bytes, (packNames ep ds s dp).1.out = s.out ++ bytes := by
  induction ds generalizing s dp st with
  | nil => exact ⟨h, [], (append_nil _).symm⟩
  | cons d ds ih =>
    have hfirst := packNames_first hover
    obtain ⟨_, _, hres⟩ := pname_plan d h
    obtain ⟨bytes, hout⟩ := hres.out hfirst
    obtain ⟨hpacked, bytes', hout'⟩ := ih (h.name d hfirst) hover
    exact ⟨hpacked, bytes ++ bytes', by rw [packNames, hout', hout, append_assoc]⟩

theorem planNames_log (k : Option Nat) : k ∈ (planNames ep ds st).log ↔ k ∈ st.log ∨
    ∃ before d after, ds = before ++ d :: after ∧ k = hops (planNames ep before st).known d.labels := by
  induction ds generalizing st with
  | nil =>
    refine ⟨fun h => .inl h, fun h => h.resolve_right ?_⟩
    rintro ⟨before, d, after, heq, -⟩
    exact absurd heq.symm (by simp)
  | cons d ds ih =>
    have hstep : planNames ep (d :: ds) st = planNames ep ds (planName ep d.labels st) := rfl
    have hlog : (planName ep d.labels st).log = st.log ++ [hops st.known d.labels] := rfl
    rw [hstep, ih, hlog, mem_append, mem_singleton, or_assoc]
    refine or_congr_right ⟨fun h => ?_, fun h => ?_⟩
    · rcases h with rfl | ⟨before, d', after, rfl, rfl⟩
      · exact ⟨[], d, ds, rfl, rfl⟩
      · exact ⟨d :: before, d', after, rfl, rfl⟩
    obtain ⟨before, d', after, heq, hk⟩ := h
    cases before with
    | nil =>
      obtain ⟨rfl, rfl⟩ := cons_eq_cons.1 heq
      exact .inl hk
    | cons d'' before =>
      obtain ⟨rfl, rfl⟩ := cons_eq_cons.1 heq
      exact .inr ⟨before, d', after, rfl, hk⟩

/-! ## In a message of 16384 bytes -/

/-- All that is known can be pointed to. -/
def Plan.Near (st : Plan) : Prop := ∀ y ∈ st.known, y.2 ≠ none

theorem Plan.Near.find {k : Option Nat} (h : st.Near) (hfind : st.known.find ls = some k) : k ≠ none := by
  obtain ⟨y, hy, rfl⟩ := Option.map_eq_some_iff.1 hfind
  exact h y (mem_of_find?_eq_some hy)

theorem Plan.Near.hops (h : st.Near) (ls : List Str) : hops st.known ls ≠ none := by
  induction ls with
  | nil => simp [Ndb.hops]
  | cons l ls ih =>
    rw [Ndb.hops]
    cases hfind : st.known.find (l :: ls) with
    | none => exact ih
    | some k => simpa using h.find hfind

theorem Plan.put_over {n : Nat} (h : (st.put ep n).past = false) : st.past = false ∧ st.pos + n ≤ ep := by
  unfold Plan.put at h
  by_cases hfull : st.past ∨ ep < st.pos + n
  · rw [if_pos hfull] at h
    exact nomatch h
  · exact ⟨by simpa using fun hover => hfull (.inl hover), Nat.not_lt.1 fun hlt => hfull (.inr hlt)⟩

theorem Plan.Near.loop {k : Option Nat} (h : st.Near) (hep : ep ≤ 2 ^ 14) (hk : k ≠ none) (hover : (planLoop ep k ls st).past = false) :
    (planLoop ep k ls st).Near := by
  induction ls generalizing st with
  | nil =>
    unfold planLoop Plan.Near
    rw [Plan.put_known]
    exact h
  | cons l ls ih =>
    rw [planLoop] at hover ⊢
    cases hfind : st.known.find (l :: ls) with
    | some _ =>
      unfold Plan.Near
      rw [Plan.put_known]
      exact h
    | none =>
      rw [hfind] at hover
      dsimp only at hover ⊢
      cases hput : ((st.enter ep k (l :: ls)).put ep (l.length + 1)).past with
      | true =>
        rw [hput, if_pos rfl] at hover
        exact absurd (hput.symm.trans hover) (by simp)
      | false =>
        rw [hput, if_neg (by simp)] at hover
        refine ih (fun y hy => ?_) hover
        rw [Plan.put_known] at hy
        obtain ⟨hst, hpos⟩ := Plan.put_over hput
        unfold Plan.enter at hy hst hpos
        split at hy
        · rw [if_pos (by assumption)] at hst hpos
          have hoff : st.off ep < 2 ^ 14 := by
            unfold Plan.off
            rw [if_neg (by rw [hst]; simp)]
            dsimp only at hpos
            omega
          rcases mem_append.1 hy with hy | hy
          · exact h y hy
          · obtain rfl := mem_singleton.1 hy
            rw [if_pos hoff]
            exact hk
        · exact h y hy

theorem Plan.Near.names (h : st.Near) (hep : ep ≤ 2 ^ 14) (hpacked : Packed ep s dp st) (hover : (packNames ep ds s dp).1.past = false) :
    (planNames ep ds st).Near := by
  induction ds generalizing s dp st with
  | nil => exact h
  | cons d ds ih =>
    have hfirst := packNames_first hover
    have hnext := hpacked.name d hfirst
    have hnear : (planName ep d.labels st).Near := h.loop hep (h.hops _) (hnext.fits.past ▸ hfirst)
    exact ih hnear hnext hover

/-- A scan at a position. -/
def Scan.start (p : Nat) : Scan := ⟨p, none, rok, false, false⟩

theorem gname_spells {msg : List UInt8} {n : Nat} {sp : Scan} (h : Spells msg sp.p ls n e) (hshort : (text ls).length ≤ 253)
    (herr : sp.err = none) (hstop : sp.stop = false) :
    gname msg sp = if n ≤ 11 then some (text ls, { sp with p := e })
      else some ([], { sp with err := some (.text "pointer loop") }) := by
  have hturns : enough msg sp.p 0 < 12 * (msg.length + 2) := by
    unfold enough
    omega
  have hlt := h.lt
  have hgood := h.good
  unfold gname
  rw [if_neg (by rw [herr, hstop]; simp)]
  have hend : sp.p + (0 + (e - sp.p)) = e := by omega
  rw [gnameLoop_spells h hturns (fun _ => Nat.zero_le _) (by rw [length_nil]; omega) (Nat.zero_le _), Nat.zero_add, nil_append,
    Bytes.cstr_eq_self (nul_notMem_text hgood), if_pos rfl, hend]

/-- Each of the names is read from where it is packed, up to where the next one is. -/
def NamesRead (ep : Nat) (pre : List UInt8) (names : List Domain) : Prop :=
  ∀ before d after, names = before ++ d :: after →
    gname (packNames ep names ⟨pre, false⟩ ⟨[], 0⟩).1.out (Scan.start (packNames ep before ⟨pre, false⟩ ⟨[], 0⟩).1.out.length) =
      some (text d.labels, Scan.start (packNames ep (before ++ [d]) ⟨pre, false⟩ ⟨[], 0⟩).1.out.length)

/-- Names that fit into a message are read if the way through none of them has more than 11 pointers. -/
theorem names_read_iff (ep : Nat) (pre : List UInt8) (names : List Domain) (hep : ep ≤ 2 ^ 14) (hpre : pre.length ≤ ep)
    (hfits : (packNames ep names ⟨pre, false⟩ ⟨[], 0⟩).1.past = false) :
    NamesRead ep pre names ↔ ∀ k ∈ (planNames ep names ⟨[], pre.length, false, []⟩).log, ∃ n ≤ 11, k = some n := by
  have hstart : Packed ep ⟨pre, false⟩ ⟨[], 0⟩ ⟨[], pre.length, false, []⟩ := ⟨.nil, Nat.zero_le _, rfl, fun _ => ⟨rfl, hpre⟩⟩
  have hnear : Plan.Near ⟨[], pre.length, false, []⟩ := fun y hy => nomatch hy
  have hread : ∀ before d after, names = before ++ d :: after →
      (gname (packNames ep names ⟨pre, false⟩ ⟨[], 0⟩).1.out (Scan.start (packNames ep before ⟨pre, false⟩ ⟨[], 0⟩).1.out.length) =
        some (text d.labels, Scan.start (packNames ep (before ++ [d]) ⟨pre, false⟩ ⟨[], 0⟩).1.out.length) ↔
      ∃ n ≤ 11, hops (planNames ep before ⟨[], pre.length, false, []⟩).known d.labels = some n) := by
    intro before d after hnames
    subst hnames
    rw [packNames_append] at hfits ⊢
    have hbefore : (packNames ep before ⟨pre, false⟩ ⟨[], 0⟩).1.past = false := by
      cases hover : (packNames ep before ⟨pre, false⟩ ⟨[], 0⟩).1.past with
      | false => rfl
      | true =>
        rw [packNames_of_over hover] at hfits
        exact nomatch hfits
    obtain ⟨hpacked, -⟩ := hstart.names hbefore
    have hd := packNames_first hfits
    obtain ⟨_, _, hres⟩ := pname_plan d hpacked
    obtain ⟨-, bytes, hafter⟩ := (hpacked.name d hd).names hfits
    obtain ⟨n, hn⟩ := Option.ne_none_iff_exists'.1 ((hnear.names hep hstart hbefore).hops d.labels)
    have hspells := (hres.spells hd n hn).append bytes
    rw [← hafter] at hspells
    have hgname := @gname_spells _ _ _ n (Scan.start (packNames ep before ⟨pre, false⟩ ⟨[], 0⟩).1.out.length) hspells d.short rfl rfl
    have hlast : packNames ep (before ++ [d]) ⟨pre, false⟩ ⟨[], 0⟩ =
        pname ep (text d.labels) (packNames ep before ⟨pre, false⟩ ⟨[], 0⟩).1 (packNames ep before ⟨pre, false⟩ ⟨[], 0⟩).2 :=
      packNames_append
    rw [packNames, hgname, hlast, hn]
    by_cases hmax : n ≤ 11
    · rw [if_pos hmax]
      exact ⟨fun _ => ⟨n, hmax, rfl⟩, fun _ => rfl⟩
    rw [if_neg hmax]
    refine ⟨fun heq => ?_, fun hsome => ?_⟩
    · have herr := congrArg (fun r : Option (Str × Scan) => r.map fun r => r.2.err.isSome) heq
      exact absurd herr (by simp [Scan.start])
    · obtain ⟨m, hm, heq⟩ := hsome
      exact absurd (Option.some.inj heq ▸ hm) hmax
  constructor
  · intro h k hk
    rcases (planNames_log k).1 hk with hk | ⟨before, d, after, hnames, rfl⟩
    · exact nomatch hk
    · exact (hread before d after hnames).1 (h before d after hnames)
  · intro h before d after hnames
    exact (hread before d after hnames).2 (h _ ((planNames_log _).2 (.inr ⟨before, d, after, hnames, rfl⟩)))

theorem text_replicate (n : Nat) : (text (List.replicate n [97])).length ≤ 2 * n := by
  induction n with
  | zero => exact Nat.le_refl 0
  | succ n ih =>
    rw [replicate_succ, length_text_cons, length_singleton]
    split <;> omega

/-- `a.a.a`, with so many labels, 13 at most. -/
def aName (n : Nat) : Domain where
  labels := List.replicate (min n 13) [97]
  good := fun l hl => by
    obtain ⟨-, rfl⟩ := List.mem_replicate.1 hl
    exact ⟨by decide, by decide, by decide, by decide⟩
  short := by
    have := text_replicate (min n 13)
    omega

/-- Names of which each has one label more. -/
def aNames (n : Nat) : List Domain := (List.range n).map fun i => aName (i + 1)

theorem names_read_twelve : NamesRead 16384 [] (aNames 12) := by
  refine (names_read_iff 16384 [] (aNames 12) (by decide) (by decide) (by decide +kernel)).2 fun k hk => ?_
  have hall : ((planNames 16384 (aNames 12) ⟨[], 0, false, []⟩).log.all fun k => k.any (· ≤ 11)) = true := by decide +kernel
  have hk' := all_eq_true.1 hall k hk
  cases k with
  | none => exact nomatch hk'
  | some n => exact ⟨n, of_decide_eq_true hk', rfl⟩

/-- The way through the thirteenth name has 12 pointers, one to each name before it. -/
theorem names_not_read_thirteen : (packNames 16384 (aNames 13) ⟨[], false⟩ ⟨[], 0⟩).1.past = false ∧ ¬ NamesRead 16384 [] (aNames 13) := by
  refine ⟨by decide +kernel, fun hread => ?_⟩
  have hlast := hread (aNames 12) (aName 13) [] rfl
  revert hlast
  decide +kernel

end Plan9.Ndb
