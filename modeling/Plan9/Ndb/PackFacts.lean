/-
What packing leaves alone.

Packing adds to what is packed already, and looks at no more of it than its length and
the dictionary. So the header of a message, and the length of a record's data, which are
filled in afterwards, could as well have been there from the start (`Pack.swap`).
-/
import Plan9.Ndb.PnameFacts

namespace Plan9.Ndb

open Option List

variable {ep : Nat} {s : Pack} {dp : Dict} {pre np bs : List UInt8} {env : Env} {rp : RR} {f : Field} {fs : List Field} {quest : Bool}
  {rps : List RR}

/-- Other bytes at the start. -/
def Pack.swap (pre : List UInt8) (s : Pack) : Pack := { s with out := pre ++ s.out.drop pre.length }

@[simp]
theorem Pack.swap_over (pre : List UInt8) (s : Pack) : (s.swap pre).past = s.past := rfl

theorem Pack.length_swap (h : pre.length ≤ s.out.length) : (s.swap pre).out.length = s.out.length := by
  unfold Pack.swap
  rw [length_append, length_drop]
  omega

/-! ## One put after another -/

theorem Pack.put_extends (s : Pack) (ep : Nat) (bs : List UInt8) : s.out <+: (s.put ep bs).out := by
  unfold Pack.put
  split
  · exact prefix_rfl
  · exact prefix_append _ _

theorem Pack.put_swap (bs : List UInt8) (h : pre.length ≤ s.out.length) : (s.swap pre).put ep bs = (s.put ep bs).swap pre := by
  unfold Pack.put
  rw [Pack.length_swap h, Pack.swap_over]
  by_cases hfull : s.past ∨ ep < s.out.length + bs.length
  · rw [if_pos hfull, if_pos hfull]
    rfl
  · rw [if_neg hfull, if_neg hfull]
    unfold Pack.swap
    rw [drop_append_of_le_length h, append_assoc]

theorem Pack.off_swap (h : pre.length ≤ s.out.length) : (s.swap pre).off ep = s.off ep := by
  unfold Pack.off
  rw [Pack.length_swap h, Pack.swap_over]

theorem psym_extends (np : Str) (s : Pack) : s.out <+: (psym ep np s).out := Pack.put_extends _ _ _

theorem psym_swap (np : Str) (h : pre.length ≤ s.out.length) : psym ep np (s.swap pre) = (psym ep np s).swap pre := Pack.put_swap _ h

theorem pnameLoop_extends (turns : Nat) (last : Option Str) : s.out <+: (pnameLoop ep turns np last s dp).1.out := by
  induction turns generalizing np last s dp with
  | zero => exact prefix_rfl
  | succ turns ih =>
    rw [pnameLoop]
    split
    · exact Pack.put_extends _ _ _
    split
    · exact Pack.put_extends _ _ _
    dsimp only
    split
    · exact Pack.put_extends _ _ _
    · split
      · exact Pack.put_extends _ _ _
      · exact (Pack.put_extends _ _ _).trans (ih _)

theorem pnameLoop_swap (turns : Nat) (last : Option Str) (h : pre.length ≤ s.out.length) :
    pnameLoop ep turns np last (s.swap pre) dp =
      ((pnameLoop ep turns np last s dp).1.swap pre, (pnameLoop ep turns np last s dp).2) := by
  induction turns generalizing np last s dp with
  | zero => rfl
  | succ turns ih =>
    rw [pnameLoop, pnameLoop]
    by_cases hnp : np = []
    · rw [if_pos hnp, if_pos hnp, Pack.put_swap _ h]
    rw [if_neg hnp, if_neg hnp]
    cases dp.x.find? (·.2 = np) with
    | some found =>
      dsimp only
      rw [Pack.put_swap _ h]
    | none =>
      dsimp only
      rw [Pack.put_swap _ h, Pack.off_swap h, Pack.swap_over]
      split
      · rfl
      · split
        · rfl
        · exact ih _ (h.trans (Pack.put_extends _ _ _).length_le)

theorem pname_extends (np : Str) (s : Pack) (dp : Dict) : s.out <+: (pname ep np s dp).1.out := by
  unfold pname
  split
  · exact prefix_rfl
  · exact pnameLoop_extends _ _

theorem pname_swap (np : Str) (dp : Dict) (h : pre.length ≤ s.out.length) :
    pname ep np (s.swap pre) dp = ((pname ep np s dp).1.swap pre, (pname ep np s dp).2) := by
  unfold pname
  split
  · rfl
  · exact pnameLoop_swap _ _ h

/-! ## Records -/

theorem txt_extends (txt : List Str) (s : Pack) : s.out <+: (txt.foldl (fun s t => psym ep t s) s).out := by
  induction txt generalizing s with
  | nil => exact prefix_rfl
  | cons t txt ih => exact (psym_extends _ _).trans (ih _)

theorem txt_swap (txt : List Str) (h : pre.length ≤ s.out.length) :
    txt.foldl (fun s t => psym ep t s) (s.swap pre) = (txt.foldl (fun s t => psym ep t s) s).swap pre := by
  induction txt generalizing s with
  | nil => rfl
  | cons t txt ih =>
    rw [foldl_cons, foldl_cons, psym_swap t h]
    exact ih (h.trans (psym_extends _ _).length_le)

/-- The result with other bytes at the start. -/
def swapped (pre : List UInt8) (r : Option (Pack × Dict)) : Option (Pack × Dict) := r.map fun (s, dp) => (s.swap pre, dp)

variable {s' : Pack} {out : List UInt8} {dp' : Dict}

theorem packField_extends (h : packField env ep rp f s dp = some (s', dp')) : s.out <+: s'.out := by
  cases f with
  | name x =>
    obtain ⟨dn, -, heq⟩ := map_eq_some_iff.1 h
    have hs := @pname_extends ep dn.name s dp
    rwa [heq] at hs
  | symbol x | string x =>
    obtain ⟨dn, -, heq⟩ := map_eq_some_iff.1 h
    cases heq
    exact psym_extends _ _
  | ushort x | uchar x | ulong x | bytes =>
    cases h
    exact Pack.put_extends _ _ _
  | v4addr x | v6addr x =>
    obtain ⟨dn, -, heq⟩ := map_eq_some_iff.1 h
    cases heq
    exact Pack.put_extends _ _ _
  | txt =>
    cases h
    exact txt_extends _ _

theorem packField_swap (h : pre.length ≤ s.out.length) :
    packField env ep rp f (s.swap pre) dp = swapped pre (packField env ep rp f s dp) := by
  cases f with
  | name x =>
    rw [packField, packField, swapped]
    cases rp.dn x with
    | none => rfl
    | some dn => exact congrArg some (pname_swap _ _ h)
  | symbol x | string x =>
    rw [packField, packField, swapped]
    cases rp.dn x with
    | none => rfl
    | some dn => exact congrArg (fun s => some (s, dp)) (psym_swap _ h)
  | ushort x | uchar x | ulong x | bytes => exact congrArg (fun s => some (s, dp)) (Pack.put_swap _ h)
  | v4addr x | v6addr x =>
    rw [packField, packField, swapped]
    cases rp.dn x with
    | none => rfl
    | some dn => exact congrArg (fun s => some (s, dp)) (Pack.put_swap _ h)
  | txt => exact congrArg (fun s => some (s, dp)) (txt_swap _ h)

theorem packFields_swap (h : pre.length ≤ s.out.length) :
    packFields env ep rp fs (s.swap pre) dp = swapped pre (packFields env ep rp fs s dp) := by
  induction fs generalizing s dp with
  | nil => rfl
  | cons f fs ih =>
    rw [packFields, packFields, packField_swap h]
    cases hf : packField env ep rp f s dp with
    | none => rfl
    | some r =>
      exact ih (h.trans (packField_extends hf).length_le)

/-- What is before the data of a record, less its length. -/
def packHeader (env : Env) (ep : Nat) (rp : RR) (s : Pack) (dp : Dict) : Pack × Dict :=
  (((((pname ep rp.owner.name s dp).1.put ep (beBytes 2 rp.type)).put ep (beBytes 2 rp.owner.cls)).put ep
    (beBytes 4 (rp.packedTtl env.now))), (pname ep rp.owner.name s dp).2)

/-- Two bytes for the length. -/
def Pack.room (s : Pack) (bs : List UInt8) : Pack := { s with out := s.out ++ bs }

/-- "Stuff in the rdata section length". -/
def Pack.fill (s s' : Pack) : Pack :=
  if s'.past then s'
  else { s' with out := s.out ++ (beBytes 2 (s'.out.drop (s.out.length + 2)).length ++ s'.out.drop (s.out.length + 2)) }

theorem convRR2M_eq (env : Env) (ep : Nat) (rp : RR) (s : Pack) (dp : Dict) : convRR2M env ep rp s dp =
    if (packHeader env ep rp s dp).1.past ∨ (packHeader env ep rp s dp).1.out.length + 2 ≥ ep then
      some ({ (packHeader env ep rp s dp).1 with past := true }, (packHeader env ep rp s dp).2)
    else (packFields env ep rp (packs rp.type) ((packHeader env ep rp s dp).1.room [0, 0]) (packHeader env ep rp s dp).2).map
      fun (s', dp') => ((packHeader env ep rp s dp).1.fill s', dp') := by
  unfold convRR2M packHeader Pack.room Pack.fill
  dsimp only
  split
  · rfl
  · cases packFields env ep rp (packs rp.type) _ (pname ep rp.owner.name s dp).2 with
    | none => rfl
    | some r =>
      dsimp only [map_some]
      split <;> rfl

/-- One record, of a question or not. -/
def packOne (env : Env) (ep : Nat) (quest : Bool) (rp : RR) (s : Pack) (dp : Dict) : Option (Pack × Dict) :=
  if quest then some (convQ2M ep rp s dp) else convRR2M env ep rp s dp

theorem packLoop_cons : packLoop env ep quest (rp :: rps) out dp =
    if out.length < ep then
      (packOne env ep quest rp ⟨out, false⟩ dp).bind fun (s, dp) =>
        if s.past then some (out, dp, 0)
        else (packLoop env ep quest rps s.out dp).map fun (out, dp, count) => (out, dp, count + 1)
    else some (out, dp, 0) := by
  rw [packLoop]
  unfold packOne
  split
  · cases (if quest then some (convQ2M ep rp ⟨out, false⟩ dp) else convRR2M env ep rp ⟨out, false⟩ dp) <;> rfl
  · rfl

end Plan9.Ndb
