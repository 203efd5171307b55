/-
What is sent and received.

`Logged` is about who: a call of `alt` sends or receives one value at most, and the
entry that was carried out says which. `Buffer` is about what: the values of a channel
are received in the order they were sent in, and those still to come are in the ring.
-/
import Mathlib.Data.List.Nodup
import Plan9.Libthread.ChannelFull

namespace Plan9.Libthread

open List Option Function

variable {T C V : Type}

/-! ## The ring of a channel -/

/-- `q` has been sent and not received. -/
structure Buffer (ch : Channel T V) (sent recvd q : List V) : Prop where
  sent : sent = recvd ++ q
  length : q.length = ch.n
  first : ch.f ≤ recvd.length
  holds : Ring.Holds ch.s ch.f ch.v q

namespace Buffer

variable {ch : Channel T V} {sent recvd q : List V} {x : V}

theorem nil (h : Buffer ch sent recvd q) (hn : ch.n = 0) : q = [] := length_eq_zero_iff.1 (h.length.trans hn)

theorem cons (h : Buffer ch sent recvd q) (hn : 0 < ch.n) : ∃ q', q = ch.v (ch.f % ch.s) :: q' := by
  have hlen := h.length
  cases q with
  | nil =>
    rw [length_nil] at hlen
    omega
  | cons y q' =>
    rw [h.holds.first]
    exact ⟨q', rfl⟩

theorem receive (h : Buffer ch sent recvd q) (hn : 0 < ch.n) (hrecvd : recvd.length + 1 < 2 ^ 32) :
    ∃ q', Buffer { ch with n := ch.n - 1, f := (ch.f + 1) % 2 ^ 32 } sent (recvd ++ [ch.v (ch.f % ch.s)]) q' := by
  obtain ⟨q', rfl⟩ := h.cons hn
  have hfirst := h.first
  have hf : (ch.f + 1) % 2 ^ 32 = ch.f + 1 := Nat.mod_eq_of_lt (by omega)
  refine ⟨q', ?_, ?_, ?_, ?_⟩
  · rw [h.sent, append_assoc]
    rfl
  · have hlen := h.length
    rw [length_cons] at hlen
    change q'.length = ch.n - 1
    omega
  · change (ch.f + 1) % 2 ^ 32 ≤ _
    rw [hf, length_append, length_singleton]
    omega
  · rw [hf]
    exact h.holds.pop

theorem send (h : Buffer ch sent recvd q) (hn : ch.n < ch.s) (hslot : (ch.f + ch.n) % 2 ^ 32 % ch.s = (ch.f + ch.n) % ch.s) :
    Buffer { ch with n := ch.n + 1, v := update ch.v ((ch.f + ch.n) % 2 ^ 32 % ch.s) x } (sent ++ [x]) recvd
      (q ++ [x]) := by
  refine ⟨?_, ?_, h.first, ?_⟩
  · rw [h.sent, append_assoc]
  · rw [length_append, length_singleton, h.length]
  · rw [hslot, ← h.length]
    exact h.holds.push (by rw [h.length]; exact hn)

theorem replace (h : Buffer ch sent recvd q) (hn : 0 < ch.n) (hfull : ch.n = ch.s) (hrecvd : recvd.length + 1 < 2 ^ 32) :
    ∃ q', Buffer { ch with f := (ch.f + 1) % 2 ^ 32, v := update ch.v (ch.f % ch.s) x } (sent ++ [x])
      (recvd ++ [ch.v (ch.f % ch.s)]) q' := by
  obtain ⟨q', rfl⟩ := h.cons hn
  have hfirst := h.first
  have hlen := h.length
  rw [length_cons] at hlen
  have hf : (ch.f + 1) % 2 ^ 32 = ch.f + 1 := Nat.mod_eq_of_lt (by omega)
  refine ⟨q' ++ [x], ?_, ?_, ?_, ?_⟩
  · rw [h.sent, append_assoc, append_assoc]
    rfl
  · rw [length_append, length_singleton]
    exact hlen
  · change (ch.f + 1) % 2 ^ 32 ≤ _
    rw [hf, length_append, length_singleton]
    omega
  · rw [hf]
    exact h.holds.replace (by omega)

theorem direct (h : Buffer ch sent recvd q) (hn : ch.n = 0) : Buffer ch (sent ++ [x]) (recvd ++ [x]) q := by
  obtain rfl := h.nil hn
  refine ⟨?_, h.length, ?_, .empty⟩
  · rw [h.sent, append_nil, append_nil]
  · rw [length_append]
    exact Nat.le_add_right_of_le h.first

end Buffer

namespace Chans

variable {s s' : Chans T C V} {t : T} {c : C} {p : T × Nat} {i : Nat} {a b : Alt C V} {zero : V}

/-- The values sent on a channel, and those received. -/
def sentVals (s : Chans T C V) (c : C) : List V := (s.sent c).map (·.2.2)

def recvdVals (s : Chans T C V) (c : C) : List V := (s.recvd c).map (·.2.2)

/-- As long as few values have been received. -/
def Ordered (s : Chans T C V) : Prop := ∀ c, (s.recvd c).length < 2 ^ 32 → ∃ q, Buffer (s.chan c) (s.sentVals c) (s.recvdVals c) q

theorem Ordered.init (h : s.Init) : s.Ordered := by
  intro c _
  obtain ⟨hf, hn, -⟩ := h.chan c
  refine ⟨[], ?_, hn.symm, ?_, .empty⟩
  · unfold sentVals recvdVals
    rw [h.sent, h.recvd]
    rfl
  · rw [hf]
    exact Nat.zero_le _

def ring (c : Channel T V) : Nat × Nat × Nat × (Nat → V) := (c.s, c.f, c.n, c.v)

theorem Ordered.congr (h : s.Ordered) (hchan : ∀ c, ring (s'.chan c) = ring (s.chan c)) (hsent : s'.sent = s.sent) (hrecvd : s'.recvd = s.recvd) : s'.Ordered := by
  intro c hlt
  rw [hrecvd] at hlt
  obtain ⟨q, hq⟩ := h c hlt
  simp only [ring, Prod.mk.injEq] at hchan
  obtain ⟨hs, hf, hn, hv⟩ := hchan c
  refine ⟨q, ?_, ?_, ?_, ?_⟩
  · unfold sentVals recvdVals
    rw [hsent, hrecvd]
    exact hq.sent
  · rw [hn]
    exact hq.length
  · unfold recvdVals
    rw [hf, hrecvd]
    exact hq.first
  · rw [hs, hf, hv]
    exact hq.holds

variable [DecidableEq C] [DecidableEq T]

/-! ## What a step adds -/

omit [DecidableEq T] in
theorem Ordered.update (h : s.Ordered) {ch : Channel T V} {xs ys : List (T × Nat × V)}
    (hchan : s'.chan = update s.chan c ch) (hsent : s'.sent = update s.sent c (s.sent c ++ xs))
    (hrecvd : s'.recvd = update s.recvd c (s.recvd c ++ ys))
    (hbuf : ∀ q, Buffer (s.chan c) (s.sentVals c) (s.recvdVals c) q → (s.recvdVals c).length + ys.length < 2 ^ 32 →
      ∃ q', Buffer ch (s.sentVals c ++ xs.map (·.2.2)) (s.recvdVals c ++ ys.map (·.2.2)) q') : s'.Ordered := by
  intro c' hlt
  unfold sentVals recvdVals
  rw [hrecvd] at hlt ⊢
  rw [hchan, hsent]
  by_cases hc : c' = c
  · subst hc
    rw [update_self, length_append] at hlt
    obtain ⟨q, hq⟩ := h c' (Nat.lt_of_le_of_lt (Nat.le_add_right ..) hlt)
    rw [update_self, update_self, update_self, map_append, map_append]
    exact hbuf q hq (by unfold recvdVals; rwa [length_map])
  · rw [update_of_ne hc] at hlt ⊢
    rw [update_of_ne hc, update_of_ne hc]
    exact h c' hlt

omit [DecidableEq T] in
theorem update_append_nil {α : Type} (log : C → List α) (c : C) : log = update log c (log c ++ []) := by
  rw [append_nil, update_eq_self]

theorem Ordered.meet (h : s.Ordered) (hf : s.Full) (hmem : some p ∈ (s.chan c).qentry)
    (hblocked : s.blocked (otherop a.op) p = true) (hmeet : s.meet zero t i a c p b = some s') : s'.Ordered := by
  obtain ⟨j, hopen⟩ := open_of_blocked hmem hblocked
  have hempty : ¬ ((s.chan c).s ≠ 0 ∧ (s.chan c).n ≠ 0) → (s.chan c).n = 0 := by
    intro hn
    have hle := hf.le c
    omega
  have hself : s.chan = Function.update s.chan c (s.chan c) := (update_eq_self ..).symm
  unfold Chans.meet altexecbuffered at hmeet
  dsimp only at hmeet
  split at hmeet
  · rename_i hn
    split at hmeet
    · cases hmeet
    rename_i hrcv
    have hrcv : a.op = .CHANRCV := Classical.not_not.1 hrcv
    rw [if_pos ⟨rfl, Nat.pos_of_ne_zero hn.2⟩] at hmeet
    cases hmeet
    -- The sender was blocked.
    have hfull : (s.chan c).n = (s.chan c).s := by
      rw [hrcv] at hopen
      exact hf.snd c j p hopen
    exact h.update rfl rfl rfl fun q hq hlt => hq.replace (Nat.pos_of_ne_zero hn.2) hfull hlt
  rename_i hn
  split at hmeet
  · cases hmeet
    exact h.update hself rfl rfl fun q hq _ => ⟨q, hq.direct (hempty hn)⟩
  · cases hmeet
    exact h.update hself rfl rfl fun q hq _ => ⟨q, hq.direct (hempty hn)⟩

theorem Ordered.buffered (h : s.Ordered)
    (hslot : a.op = .CHANSND → (s.chan c).n < (s.chan c).s →
      ((s.chan c).f + (s.chan c).n) % 2 ^ 32 % (s.chan c).s = ((s.chan c).f + (s.chan c).n) % (s.chan c).s)
    (hbuf : s.buffered zero t i a c = some s') : s'.Ordered := by
  unfold Chans.buffered altexecbuffered at hbuf
  by_cases hrcv : a.op = .CHANRCV ∧ 0 < (s.chan c).n
  · rw [if_pos hrcv] at hbuf
    dsimp only at hbuf
    rw [if_pos hrcv.1] at hbuf
    cases hbuf
    refine h.update rfl (update_append_nil ..) rfl ?_
    intro q hq hlt
    rw [map_nil, append_nil]
    exact hq.receive hrcv.2 hlt
  rw [if_neg hrcv] at hbuf
  by_cases hsnd : a.op = .CHANSND ∧ (s.chan c).n < (s.chan c).s
  · rw [if_pos hsnd] at hbuf
    dsimp only at hbuf
    rw [if_neg (by rw [hsnd.1]; simp)] at hbuf
    cases hbuf
    refine h.update rfl rfl (update_append_nil ..) ?_
    intro q hq _
    rw [map_nil, append_nil]
    exact ⟨_, hq.send hsnd.2 (hslot hsnd.1 hsnd.2)⟩
  · rw [if_neg hsnd] at hbuf
    cases hbuf

/-- What is sent on a channel that has room is put where it is looked for: `f + n` is below 2³², or `s` divides 2³². -/
def Room (ch : Channel T V) : Prop := ch.n < ch.s → ch.f + ch.n < 2 ^ 32 ∨ ch.s ∣ 2 ^ 32

omit [DecidableEq C] [DecidableEq T] in
theorem Room.slot {ch : Channel T V} (h : Room ch) (hn : ch.n < ch.s) : (ch.f + ch.n) % 2 ^ 32 % ch.s = (ch.f + ch.n) % ch.s := by
  rcases h hn with hlt | hdvd
  · rw [Nat.mod_eq_of_lt hlt]
  · exact Nat.mod_mod_of_dvd _ hdvd

theorem Alts.ordered {alts : List (Alt C V)} {mate : Option (T × Nat)} (h : Alts zero s t alts mate s') (hs : s.Inv)
    (hf : s.Full) (hfree : s.Free t) (ho : s.Ordered)
    (hroom : ∀ a ∈ alts, a.op = .CHANSND → ∀ c, a.c = some c → Room (s.chan c)) : s'.Ordered := by
  cases h with
  | meet _ _ hmem hblocked _ hmeet =>
    exact (ho.meet hf hmem hblocked hmeet).congr (fun _ => rfl) rfl rfl
  | buffered hmem hready _ hbuf =>
    refine (ho.buffered ?_ hbuf).congr (fun _ => rfl) rfl rfl
    intro hop
    exact (hroom _ (mem_of_getElem? hmem) hop _ (opens_some (ready_some hready).1).1).slot
  | meetAborts => exact ho.congr (fun _ => rfl) rfl rfl
  | bufferedAborts => exact ho.congr (fun _ => rfl) rfl rfl
  | noblk => exact ho.congr (fun _ => rfl) rfl rfl
  | await =>
    unfold Chans.await
    split
    · obtain ⟨q, heq, -⟩ := enqueueAll_queues s t alts 0 s.queue
        (fun c j k _ hat => hs.notMem_free hfree hat rfl) hs.once
      rw [setQueues_queue] at heq
      rw [heq]
      exact ho.congr (fun _ => rfl) rfl rfl
    split
    · exact ho.congr (fun _ => rfl) rfl rfl
    · split
      · exact ho.congr (fun _ => rfl) rfl rfl
      · exact ho.congr (fun _ => rfl) rfl rfl

omit [DecidableEq T] in
theorem Ordered.setClosed (ho : s.Ordered) (k : Nat) : (s.setChan c { s.chan c with closed := k }).Ordered := by
  refine ho.congr ?_ rfl rfl
  intro c'
  change ring (Function.update s.chan c _ c') = _
  by_cases hc : c' = c
  · subst hc
    rw [update_self]
    rfl
  · rw [update_of_ne hc]

theorem Ordered.closeFrom (ho : s.Ordered) : (s.closeFrom t c i).Ordered := by
  unfold Chans.closeFrom
  split
  · exact ho.congr (fun _ => rfl) rfl rfl
  · exact (ho.setClosed 2).congr (fun _ => rfl) rfl rfl

/-- The entries of an array are for different channels. -/
def NamesOnce (alts : List (Alt C V)) : Prop :=
  ∀ (j k : Nat) (a b : Alt C V) (c : C), alts[j]? = some a → alts[k]? = some b → a.op ≠ .CHANNOP → b.op ≠ .CHANNOP →
    a.c = some c → b.c = some c → j = k

/-- A call of `alt` names a channel once, and there is room where it sends. -/
def Fits (s : Chans T C V) : ChanAct T C V → Prop
  | .alt _ alts _ _ => NamesOnce alts ∧ ∀ a ∈ alts, a.op = .CHANSND → ∀ c, a.c = some c → Room (s.chan c)
  | _ => True

theorem Step.ordered {x : ChanAct T C V} (h : Step zero s x s') (hs : s.Inv) (hf : s.Full) (hfits : s.Fits x)
    (ho : s.Ordered) : s'.Ordered := by
  cases h with
  | nilchan => exact ho.congr (fun _ => rfl) rfl rfl
  | @alt _ t alts noblk _ hfree _ halts =>
    have hbegun : (s.begin t alts noblk).Ordered := ho.congr (fun _ => rfl) rfl rfl
    exact halts.ordered (hs.begin hfree alts noblk) (hf.begin hs hfree alts noblk) hfree hbegun hfits.2
  | interrupt => exact ho.congr (fun _ => rfl) rfl rfl
  | meeting => exact ho.congr (fun _ => rfl) rfl rfl
  | closing => exact ho.congr (fun _ => rfl) rfl rfl
  | resume hr =>
    rcases hs.resume_cases hr with ⟨-, -, heq⟩ | ⟨q, ret, heq, -⟩
    · rw [heq]
      exact ho.congr (fun _ => rfl) rfl rfl
    · rw [heq]
      exact ho.congr (fun _ => rfl) rfl rfl
  | already => exact ho.congr (fun _ => rfl) rfl rfl
  | chanclose => exact (ho.setClosed 1).closeFrom
  | close => exact ho.closeFrom

/-! ## Whose the values are -/

/-- The calls that sent on a channel, or received from it. -/
def keys (s : Chans T C V) : ChanOp → C → List (T × Nat)
  | .CHANSND, c => (s.sent c).map fun x => (x.1, x.2.1)
  | .CHANRCV, c => (s.recvd c).map fun x => (x.1, x.2.1)
  | .CHANNOP, _ => []

/-- What was carried out of the entry is logged, and what was received is where its `v` points to. -/
def Done (zero : V) (s : Chans T C V) (t : T) : Prop :=
  ∀ j, s.did t = some j → ∃ a c, s.entry (t, j) = some a ∧ a.c = some c ∧
    (a.op = .CHANSND ∧ (t, s.calls t, a.v.getD zero) ∈ s.sent c ∨
      a.op = .CHANRCV ∧ ∃ v, (t, s.calls t, v) ∈ s.recvd c ∧ (a.v = none ∨ a.v = some v))

structure Logged (zero : V) (s : Chans T C V) : Prop where
  once : ∀ op c, (s.keys op c).Nodup
  one : ∀ op op' c c' k, k ∈ s.keys op c → k ∈ s.keys op' c' → op = op' ∧ c = c'
  past : ∀ op c k, k ∈ s.keys op c → k.2 ≤ s.calls k.1 ∧ (k.2 = s.calls k.1 → s.did k.1 ≠ none)
  done : ∀ t, s.Done zero t

omit [DecidableEq C] [DecidableEq T] in
theorem Logged.init (h : s.Init) : s.Logged zero := by
  have hkeys : ∀ op c, s.keys op c = [] := by
    intro op c
    cases op with
    | CHANSND => rw [keys, h.sent]; rfl
    | CHANRCV => rw [keys, h.recvd]; rfl
    | CHANNOP => rfl
  refine ⟨?_, ?_, ?_, ?_⟩
  · intro op c
    rw [hkeys]
    exact nodup_nil
  · intro op op' c c' k hk
    rw [hkeys] at hk
    cases hk
  · intro op c k hk
    rw [hkeys] at hk
    cases hk
  · intro t j hj
    rw [h.did t] at hj
    cases hj

/-- What an entry is, its error apart. -/
def what (a : Alt C V) : Option C × ChanOp × Option V := (a.c, a.op, a.v)

omit [DecidableEq C] [DecidableEq T] in
theorem Done.congr (h : s.Done zero t) (hdid : s'.did t = s.did t) (hcalls : s'.calls t = s.calls t)
    (hsent : ∀ c x, x ∈ s.sent c → x ∈ s'.sent c) (hrecvd : ∀ c x, x ∈ s.recvd c → x ∈ s'.recvd c)
    (hentry : ∀ j, (s'.entry (t, j)).map what = (s.entry (t, j)).map what) : s'.Done zero t := by
  intro j hj
  rw [hdid] at hj
  obtain ⟨a, c, ha, hc, hlog⟩ := h j hj
  have hsame := hentry j
  rw [ha, map_some, map_eq_some_iff] at hsame
  obtain ⟨a', ha', heq⟩ := hsame
  obtain ⟨hc', heq⟩ := Prod.mk.inj heq
  obtain ⟨hop', hv'⟩ := Prod.mk.inj heq
  refine ⟨a', c, ha', hc'.trans hc, ?_⟩
  rw [hop', hv', hcalls]
  rcases hlog with ⟨hop, hlog⟩ | ⟨hop, v, hlog, hv⟩
  · exact .inl ⟨hop, hsent c _ hlog⟩
  · exact .inr ⟨hop, v, hrecvd c _ hlog, hv⟩

omit [DecidableEq C] [DecidableEq T] in
theorem Logged.congr (h : s.Logged zero) (hdid : s'.did = s.did) (hcalls : s'.calls = s.calls) (hsent : s'.sent = s.sent)
    (hrecvd : s'.recvd = s.recvd)
    (hentry : ∀ p, s.did p.1 ≠ none → (s'.entry p).map what = (s.entry p).map what) : s'.Logged zero := by
  have hkeys : ∀ op c, s'.keys op c = s.keys op c := by
    intro op c
    cases op with
    | CHANSND => rw [keys, hsent]; rfl
    | CHANRCV => rw [keys, hrecvd]; rfl
    | CHANNOP => rfl
  refine ⟨?_, ?_, ?_, ?_⟩
  · intro op c
    rw [hkeys]
    exact h.once op c
  · intro op op' c c' k hk hk'
    rw [hkeys] at hk hk'
    exact h.one op op' c c' k hk hk'
  · intro op c k hk
    rw [hkeys] at hk
    rw [hcalls, hdid]
    exact h.past op c k hk
  intro t j hj
  have hdone : s.did t ≠ none := by
    rw [← hdid, hj]
    simp
  exact (h.done t).congr (congrFun hdid t) (congrFun hcalls t) (by rw [hsent]; exact fun _ _ => id)
    (by rw [hrecvd]; exact fun _ _ => id) (fun j => hentry (t, j) hdone) j hj

theorem keys_carry {op : ChanOp} {v : V} (hop : op ≠ .CHANNOP) (op' : ChanOp) (c' : C) :
    (s.carry p op c v).keys op' c' = if op' = op ∧ c' = c then s.keys op' c' ++ [(p.1, s.calls p.1)] else s.keys op' c' := by
  have hmap : ∀ log : C → List (T × Nat × V), (update log c (log c ++ [(p.1, s.calls p.1, v)]) c').map (fun x => (x.1, x.2.1)) =
      if c' = c then (log c').map (fun x => (x.1, x.2.1)) ++ [(p.1, s.calls p.1)] else (log c').map fun x => (x.1, x.2.1) := by
    intro log
    by_cases hc : c' = c
    · subst hc
      rw [update_self, if_pos rfl, map_append]
      rfl
    · rw [update_of_ne hc, if_neg hc]
  cases op with
  | CHANNOP => exact absurd rfl hop
  | CHANSND =>
    cases op' with
    | CHANSND =>
      simp only [true_and]
      exact hmap s.sent
    | CHANRCV => rfl
    | CHANNOP => rfl
  | CHANRCV =>
    cases op' with
    | CHANRCV =>
      simp only [true_and]
      exact hmap s.recvd
    | CHANSND => rfl
    | CHANNOP => rfl

theorem Logged.carry (h : s.Logged zero) {v : V} (hdid : s.did p.1 = none) (ha : s.entry p = some a) (hc : a.c = some c)
    (hlog : a.op = .CHANSND ∧ v = a.v.getD zero ∨ a.op = .CHANRCV ∧ (a.v = none ∨ a.v = some v)) :
    (s.carry p a.op c v).Logged zero := by
  have hop : a.op ≠ .CHANNOP := by
    rcases hlog with ⟨hop, -⟩ | ⟨hop, -⟩ <;> rw [hop] <;> simp
  -- The call is in no log yet.
  have hnew : ∀ op c, (p.1, s.calls p.1) ∉ s.keys op c := by
    intro op c hmem
    exact (h.past op c _ hmem).2 rfl hdid
  have hkeys := fun op' c' => keys_carry (s := s) (p := p) (c := c) (v := v) hop op' c'
  have hmem : ∀ op' c' k, k ∈ (s.carry p a.op c v).keys op' c' →
      k ∈ s.keys op' c' ∨ op' = a.op ∧ c' = c ∧ k = (p.1, s.calls p.1) := by
    intro op' c' k hk
    rw [hkeys] at hk
    split at hk
    · rename_i heq
      rcases mem_append.1 hk with hk | hk
      · exact .inl hk
      · exact .inr ⟨heq.1, heq.2, mem_singleton.1 hk⟩
    · exact .inl hk
  have hdid' : ∀ t, s.did t ≠ none → update s.did p.1 (some p.2) t ≠ none := by
    intro t ht
    by_cases hp : t = p.1
    · rw [hp, update_self]
      simp
    · rwa [update_of_ne hp]
  refine ⟨?_, ?_, ?_, ?_⟩
  · intro op' c'
    rw [hkeys]
    split
    · rw [← concat_eq_append]
      exact (h.once op' c').concat (hnew op' c')
    · exact h.once op' c'
  · intro op1 op2 c1 c2 k hk1 hk2
    rcases hmem op1 c1 k hk1 with hk1 | ⟨rfl, rfl, rfl⟩
    · rcases hmem op2 c2 k hk2 with hk2 | ⟨-, -, rfl⟩
      · exact h.one op1 op2 c1 c2 k hk1 hk2
      · exact absurd hk1 (hnew op1 c1)
    · rcases hmem op2 c2 _ hk2 with hk2 | ⟨rfl, rfl, -⟩
      · exact absurd hk2 (hnew op2 c2)
      · exact ⟨rfl, rfl⟩
  · intro op' c' k hk
    rcases hmem op' c' k hk with hk | ⟨-, -, rfl⟩
    · exact ⟨(h.past op' c' k hk).1, fun heq => hdid' k.1 ((h.past op' c' k hk).2 heq)⟩
    · refine ⟨le_rfl, fun _ => ?_⟩
      change update s.did p.1 (some p.2) p.1 ≠ none
      simp
  have hsub : ∀ (log : C → List (T × Nat × V)) (y : T × Nat × V) (c' : C) (x : T × Nat × V), x ∈ log c' →
      x ∈ update log c (log c ++ [y]) c' := by
    intro log y c' x hx
    by_cases hc : c' = c
    · subst hc
      rw [update_self]
      exact mem_append_left _ hx
    · rwa [update_of_ne hc]
  have hlast : ∀ (log : C → List (T × Nat × V)) (y : T × Nat × V), y ∈ update log c (log c ++ [y]) c := by
    intro log y
    rw [update_self]
    exact mem_append_right _ (mem_singleton.2 rfl)
  intro t
  by_cases ht : t = p.1
  · subst ht
    intro j hj
    change update s.did p.1 (some p.2) p.1 = some j at hj
    rw [update_self] at hj
    cases hj
    refine ⟨a, c, ha, hc, ?_⟩
    rcases hlog with ⟨hop, rfl⟩ | ⟨hop, hv⟩
    · rw [hop]
      exact .inl ⟨rfl, hlast s.sent _⟩
    · rw [hop]
      exact .inr ⟨rfl, v, hlast s.recvd _, hv⟩
  refine (h.done t).congr (update_of_ne ht ..) rfl ?_ ?_ fun _ => rfl
  · intro c' x hx
    rcases hlog with ⟨hop, -⟩ | ⟨hop, -⟩
    · rw [hop]
      exact hsub s.sent _ c' x hx
    · rw [hop]
      exact hx
  intro c' x hx
  rcases hlog with ⟨hop, -⟩ | ⟨hop, -⟩
  · rw [hop]
    exact hx
  · rw [hop]
    exact hsub s.recvd _ c' x hx

omit [DecidableEq C] in
theorem Logged.store (h : s.Logged zero) (hdid : s.did p.1 = none) (v : Option V) : (s.store p v).Logged zero := by
  refine h.congr rfl rfl rfl rfl ?_
  intro q hq
  rw [store_entry, if_neg]
  rintro rfl
  exact hq hdid

omit [DecidableEq T] [DecidableEq C] in
theorem altcopy_or (zero : V) (dst : Option V) (x : V) : altcopy zero dst (some x) = none ∨ altcopy zero dst (some x) = some x := by
  cases dst with
  | none => exact .inl rfl
  | some y => exact .inr rfl

omit [DecidableEq T] [DecidableEq C] in
theorem altcopy_or' (zero : V) (dst src : Option V) :
    altcopy zero dst src = none ∨ altcopy zero dst src = some (src.getD zero) := by
  cases dst with
  | none => exact .inl rfl
  | some y => exact .inr rfl

theorem Logged.meet (h : s.Logged zero) (hpt : p.1 ≠ t) (hdt : s.did t = none) (hdp : s.did p.1 = none)
    (ha : s.entry (t, i) = some a) (hb : s.entry p = some b) (hac : a.c = some c) (hbc : b.c = some c)
    (hop : a.op = .CHANRCV ∧ b.op = .CHANSND ∨ a.op = .CHANSND ∧ b.op = .CHANRCV)
    (hmeet : s.meet zero t i a c p b = some s') : s'.Logged zero := by
  have hpne : p ≠ (t, i) := by
    rintro rfl
    exact hpt rfl
  unfold Chans.meet at hmeet
  dsimp only at hmeet
  split at hmeet
  · split at hmeet
    · cases hmeet
    rename_i hrcv
    have hrcv : a.op = .CHANRCV := Classical.not_not.1 hrcv
    have hsnd : b.op = .CHANSND := by
      rcases hop with ⟨-, hop⟩ | ⟨hop, -⟩
      · exact hop
      · rw [hrcv] at hop
        cases hop
    split at hmeet
    · cases hmeet
    rename_i buf ch' _
    cases hmeet
    have h1 : (s.setChan c { ch' with v := update ch'.v buf (b.v.getD zero) }).Logged zero :=
      h.congr rfl rfl rfl rfl fun _ _ => rfl
    have h2 := h1.store (p := (t, i)) hdt (altcopy zero a.v (some ((s.chan c).v buf)))
    have h3 := h2.carry (p := (t, i)) (a := { a with v := altcopy zero a.v (some ((s.chan c).v buf)) }) hdt
      (by rw [store_entry, if_pos rfl]; change (s.entry (t, i)).map _ = _; rw [ha]; rfl) hac
      (.inr ⟨hrcv, altcopy_or zero a.v ((s.chan c).v buf)⟩)
    have h4 := h3.carry (p := p) (a := b) (v := b.v.getD zero)
      (by change update s.did t (some i) p.1 = none; rw [update_of_ne hpt, hdp])
      (by change ((s.setChan c _).store (t, i) _).entry p = _; rw [store_entry, if_neg hpne]; exact hb) hbc
      (.inl ⟨hsnd, rfl⟩)
    rwa [hrcv, hsnd] at h4
  split at hmeet
  · rename_i hrcv
    have hsnd : b.op = .CHANSND := by
      rcases hop with ⟨-, hop⟩ | ⟨hop, -⟩
      · exact hop
      · rw [hrcv] at hop
        cases hop
    cases hmeet
    have h2 := h.store (p := (t, i)) hdt (altcopy zero a.v b.v)
    have h3 := h2.carry (p := p) (a := b) (v := b.v.getD zero) hdp (by rw [store_entry, if_neg hpne]; exact hb) hbc
      (.inl ⟨hsnd, rfl⟩)
    have h4 := h3.carry (p := (t, i)) (a := { a with v := altcopy zero a.v b.v }) (v := b.v.getD zero)
      (by change update s.did p.1 (some p.2) t = none; rw [update_of_ne (Ne.symm hpt), hdt])
      (by change (s.store (t, i) _).entry (t, i) = _; rw [store_entry, if_pos rfl, ha]; rfl) hac
      (.inr ⟨hrcv, altcopy_or' zero a.v b.v⟩)
    rwa [hrcv, hsnd] at h4
  rename_i hnrcv
  obtain ⟨hsnd, hrcv⟩ : a.op = .CHANSND ∧ b.op = .CHANRCV := by
    rcases hop with ⟨hop, -⟩ | hop
    · exact absurd hop hnrcv
    · exact hop
  cases hmeet
  have h2 := h.store (p := p) hdp (altcopy zero b.v a.v)
  have h3 := h2.carry (p := (t, i)) (a := a) (v := a.v.getD zero) hdt
    (by rw [store_entry, if_neg (Ne.symm hpne)]; exact ha) hac (.inl ⟨hsnd, rfl⟩)
  have h4 := h3.carry (p := p) (a := { b with v := altcopy zero b.v a.v }) (v := a.v.getD zero)
    (by change update s.did t (some i) p.1 = none; rw [update_of_ne hpt, hdp])
    (by change (s.store p _).entry p = _; rw [store_entry, if_pos rfl, hb]; rfl) hbc
    (.inr ⟨hrcv, altcopy_or' zero b.v a.v⟩)
  rwa [hrcv, hsnd] at h4

theorem Logged.buffered (h : s.Logged zero) (hdt : s.did t = none) (ha : s.entry (t, i) = some a) (hac : a.c = some c)
    (hbuf : s.buffered zero t i a c = some s') : s'.Logged zero := by
  unfold Chans.buffered altexecbuffered at hbuf
  by_cases hrcv : a.op = .CHANRCV ∧ 0 < (s.chan c).n
  · rw [if_pos hrcv] at hbuf
    dsimp only at hbuf
    rw [if_pos hrcv.1] at hbuf
    cases hbuf
    have h1 : (s.setChan c { s.chan c with n := (s.chan c).n - 1, f := ((s.chan c).f + 1) % 2 ^ 32 }).Logged zero :=
      h.congr rfl rfl rfl rfl fun _ _ => rfl
    have h2 := h1.store (p := (t, i)) hdt (altcopy zero a.v (some ((s.chan c).v ((s.chan c).f % (s.chan c).s))))
    have h3 := h2.carry (p := (t, i)) (a := { a with v := altcopy zero a.v (some ((s.chan c).v ((s.chan c).f % (s.chan c).s))) })
      hdt (by rw [store_entry, if_pos rfl]; change (s.entry (t, i)).map _ = _; rw [ha]; rfl) hac
      (.inr ⟨hrcv.1, altcopy_or zero a.v _⟩)
    rwa [hrcv.1] at h3
  rw [if_neg hrcv] at hbuf
  by_cases hsnd : a.op = .CHANSND ∧ (s.chan c).n < (s.chan c).s
  · rw [if_pos hsnd] at hbuf
    dsimp only at hbuf
    rw [if_neg (by rw [hsnd.1]; simp)] at hbuf
    cases hbuf
    have h1 : ∀ ch, (s.setChan c ch).Logged zero := fun ch => h.congr rfl rfl rfl rfl fun _ _ => rfl
    have h2 := fun ch => (h1 ch).carry (p := (t, i)) (a := a) (v := a.v.getD zero) hdt ha hac (.inl ⟨hsnd.1, rfl⟩)
    rw [hsnd.1] at h2
    exact h2 _
  · rw [if_neg hsnd] at hbuf
    cases hbuf

omit [DecidableEq C] in
theorem Logged.begin (h : s.Logged zero) (t : T) (alts : List (Alt C V)) (noblk : Bool) : (s.begin t alts noblk).Logged zero := by
  have hkeys : ∀ op c, (s.begin t alts noblk).keys op c = s.keys op c := by
    intro op c
    cases op <;> rfl
  refine ⟨?_, ?_, ?_, ?_⟩
  · intro op c
    exact h.once op c
  · intro op op' c c' k hk hk'
    exact h.one op op' c c' k hk hk'
  · intro op c k hk
    obtain ⟨hle, hdone⟩ := h.past op c k hk
    change k.2 ≤ update s.calls t (s.calls t + 1) k.1 ∧
      (k.2 = update s.calls t (s.calls t + 1) k.1 → update s.did t none k.1 ≠ none)
    by_cases hkt : k.1 = t
    · rw [hkt, update_self]
      rw [hkt] at hle
      omega
    · rw [update_of_ne hkt, update_of_ne hkt]
      exact ⟨hle, hdone⟩
  intro w
  by_cases hwt : w = t
  · subst hwt
    intro j hj
    change update s.did w none w = some j at hj
    rw [update_self] at hj
    cases hj
  refine (h.done w).congr (update_of_ne hwt ..) (update_of_ne hwt ..) (fun _ _ => id) (fun _ _ => id) ?_
  intro j
  unfold Chans.entry Chans.begin
  dsimp only
  rw [update_of_ne hwt]

omit [DecidableEq C] [DecidableEq T] in
theorem what_map {alts : List (Alt C V)} {f : Alt C V → Alt C V} (hf : ∀ a, what (f a) = what a) (j : Nat) :
    ((alts.map f)[j]?).map what = (alts[j]?).map what := by
  rw [getElem?_map, Option.map_map, show what ∘ f = what from funext hf]

omit [DecidableEq C] [DecidableEq T] in
theorem what_modify {alts : List (Alt C V)} {f : Alt C V → Alt C V} (hf : ∀ a, what (f a) = what a) (i j : Nat) :
    ((alts.modify i f)[j]?).map what = (alts[j]?).map what := by
  rw [getElem?_modify]
  cases alts[j]? with
  | none => rfl
  | some a =>
    by_cases hij : i = j
    · simp [hij, hf]
    · simp [hij]

theorem Alts.logged {alts : List (Alt C V)} {mate : Option (T × Nat)} (h : Alts zero s t alts mate s') (hs : s.Inv)
    (hfree : s.Free t) (hdid : s.did t = none) (halts : s.alts t = alts) (hl : s.Logged zero) : s'.Logged zero := by
  have hsame : ∀ {s' : Chans T C V}, s'.did = s.did → s'.calls = s.calls → s'.sent = s.sent → s'.recvd = s.recvd →
      s'.alts = s.alts → s'.Logged zero := by
    intro s' hd hc hsent hrecvd ha
    refine hl.congr hd hc hsent hrecvd fun p _ => ?_
    unfold Chans.entry
    rw [ha]
  cases h with
  | @meet i a b c p s₁ hi hready hmem hblocked hb hmeet =>
    obtain ⟨hpt, -, -, hdp, hnamed⟩ := hs.met_entry hfree hmem hblocked
    obtain ⟨hac, hop, -⟩ := opens_some (ready_some hready).1
    obtain ⟨b', hb', -, hbc⟩ := alts_of_named hnamed
    obtain ⟨-, b'', hb'', hbop⟩ := blocked_tag hblocked
    have hbb' : b' = b := some.inj (hb'.symm.trans hb)
    have hbb'' : b'' = b := some.inj (hb''.symm.trans hb)
    subst hbb' hbb''
    refine (hl.meet hpt hdid hdp ?_ hb hac hbc ?_ hmeet).congr rfl rfl rfl rfl fun _ _ => rfl
    · unfold Chans.entry
      rw [halts]
      exact hi
    cases hao : a.op with
    | CHANSND => exact .inr ⟨rfl, by rw [hbop, hao]; rfl⟩
    | CHANRCV => exact .inl ⟨rfl, by rw [hbop, hao]; rfl⟩
    | CHANNOP => exact absurd hao hop
  | @buffered i a c s₁ hi hready _ hbuf =>
    refine (hl.buffered hdid ?_ (opens_some (ready_some hready).1).1 hbuf).congr rfl rfl rfl rfl fun _ _ => rfl
    unfold Chans.entry
    rw [halts]
    exact hi
  | meetAborts => exact hsame rfl rfl rfl rfl rfl
  | bufferedAborts => exact hsame rfl rfl rfl rfl rfl
  | noblk => exact hsame rfl rfl rfl rfl rfl
  | await =>
    unfold Chans.await
    split
    · obtain ⟨q, heq, -⟩ := enqueueAll_queues s t alts 0 s.queue
        (fun c j k _ hat => hs.notMem_free hfree hat rfl) hs.once
      rw [setQueues_queue] at heq
      rw [heq]
      exact hsame rfl rfl rfl rfl rfl
    split
    · refine hl.congr rfl rfl rfl rfl ?_
      intro p hp
      have hpt : p.1 ≠ t := by
        intro hpt
        rw [hpt] at hp
        exact hp hdid
      unfold Chans.entry
      change ((update s.alts t _ p.1)[p.2]?).map what = _
      rw [update_of_ne hpt]
    · split
      · exact hsame rfl rfl rfl rfl rfl
      · exact hsame rfl rfl rfl rfl rfl

theorem Logged.closeFrom (hl : s.Logged zero) : (s.closeFrom t c i).Logged zero := by
  unfold Chans.closeFrom
  split
  · exact hl.congr rfl rfl rfl rfl fun _ _ => rfl
  · exact hl.congr rfl rfl rfl rfl fun _ _ => rfl

theorem Step.logged {x : ChanAct T C V} (h : Step zero s x s') (hs : s.Inv) (hl : s.Logged zero) : s'.Logged zero := by
  cases h with
  | @nilchan t alts noblk => exact (hl.begin t alts noblk).congr rfl rfl rfl rfl fun _ _ => rfl
  | @alt _ t alts noblk _ hfree _ halts =>
    exact halts.logged (hs.begin hfree alts noblk) hfree (update_self ..) (update_self ..) (hl.begin ..)
  | interrupt => exact hl.congr rfl rfl rfl rfl fun _ _ => rfl
  | meeting => exact hl.congr rfl rfl rfl rfl fun _ _ => rfl
  | closing => exact hl.congr rfl rfl rfl rfl fun _ _ => rfl
  | @resume t r hr =>
    rcases hs.resume_cases hr with ⟨-, -, heq⟩ | ⟨q, ret, heq, -⟩
    · rw [heq]
      exact hl.congr rfl rfl rfl rfl fun _ _ => rfl
    rw [heq]
    refine hl.congr rfl rfl rfl rfl ?_
    intro p _
    unfold Chans.entry
    change ((update s.alts t _ p.1)[p.2]?).map what = _
    by_cases hpt : p.1 = t
    · rw [hpt, update_self]
      refine what_map ?_ p.2
      intro a
      split <;> rfl
    · rw [update_of_ne hpt]
  | already => exact hl.congr rfl rfl rfl rfl fun _ _ => rfl
  | @chanclose t c =>
    have hclosing : (s.setChan c { s.chan c with closed := 1 }).Logged zero := hl.congr rfl rfl rfl rfl fun _ _ => rfl
    exact hclosing.closeFrom
  | close => exact hl.closeFrom

end Chans

end Plan9.Libthread
