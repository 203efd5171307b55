/-
The ring of a buffered channel over runs of any length: from which slot the values are
received, into which they were sent, and what is sent into a slot in between.

The extraction point `f` is a free-running `uint`, so the slot of the `k`-th value is
`k % 2^32 % s` whenever it is sent in passing and whenever it is received. That is where
the value was put and nothing else since, except around the wrap of the counter when `s`
does not divide 2^32: the slots begin anew at 0 there, and a value behind the wrap can
get the slot of one before it that is still waiting (`Clear`).

A receiver that meets a sender takes the first value and leaves the sender's in its slot.
A sender waits only at a full buffer, so this is a use of a full one.
-/
import Plan9.Libthread.Channel

namespace Plan9.Libthread

open Function List

variable {T V : Type}

/-! ## Uses of the buffer -/

inductive Use (V : Type)
  | send (x : V)
  | recv
  | exchange (x : V)

/-- What is stored in a slot, and what is taken from one. -/
inductive Event (V : Type)
  | put (slot : Nat) (x : V)
  | take (slot : Nat) (x : V)

/-- `altexecbuffered` and the `altcopy` after it. -/
def Channel.use (c : Channel T V) : Use V → Option (List (Event V) × Channel T V)
  | .send x => do
    let (buf, c') ← altexecbuffered c .CHANSND false
    return ([.put buf x], { c' with v := update c'.v buf x })
  | .recv => do
    let (buf, c') ← altexecbuffered c .CHANRCV false
    return ([.take buf (c.v buf)], c')
  | .exchange x =>
    if c.n = c.s then do
      let (buf, c') ← altexecbuffered c .CHANRCV true
      return ([.take buf (c.v buf), .put buf x], { c' with v := update c'.v buf x })
    else none

/-- The uses in order, as far as they can be made. -/
def Channel.uses : Channel T V → List (Use V) → Option (List (Event V) × Channel T V)
  | c, [] => some ([], c)
  | c, u :: us => do
    let (es, c) ← c.use u
    let (es', c) ← c.uses us
    return (es ++ es', c)

/-- A channel that `chancreate` made, with `v` what was in its memory. -/
def chancreate (s : Nat) (v : Nat → V) : Channel T V := ⟨s, 0, 0, 0, [], v⟩

/-! ## What is claimed of the slots -/

def Event.isPut : Event V → Bool
  | .put _ _ => true
  | .take _ _ => false

def puts (es : List (Event V)) : Nat := es.countP Event.isPut

def takes (es : List (Event V)) : Nat := es.countP (!·.isPut)

/-- The put of number `k` is into the slot `a`, of the value `y`, and the last one into it. -/
def LastInto (es : List (Event V)) (k a : Nat) (y : V) : Prop :=
  ∃ before after, es = before ++ .put a y :: after ∧ puts before = k ∧ ∀ x, .put a x ∉ after

/-- The slot that the value of number `k` is taken from is the one it was put into, and no other was put into it in
between. -/
def SlotsKept (es : List (Event V)) : Prop :=
  ∀ before after a y, es = before ++ .take a y :: after → LastInto before (takes before) a y

/-- No value that is waiting loses its slot by this use. `2 ^ 32 % s` is how far the slots are off after the wrap. -/
def Channel.Clear (c : Channel T V) : Use V → Prop
  | .send _ => ¬ (2 ^ 32 ≤ c.f + c.n ∧ c.f + c.n - 2 ^ 32 < 2 ^ 32 % c.s ∧ 2 ^ 32 % c.s ≤ c.n)
  | .recv => True
  | .exchange _ => c.f + c.s < 2 ^ 32 ∨ 2 ^ 32 % c.s = 0

/-! ## Slots -/

/-- The slot of the value that is `i` behind the first one waiting. -/
def Channel.slot (c : Channel T V) (i : Nat) : Nat := (c.f + i) % 2 ^ 32 % c.s

section

variable {s f i n : Nat}

/-- Two waiting values have the same slot only across the wrap, and then they are `2 ^ 32 % s` apart. -/
theorem slot_eq_iff (hs : s < 2 ^ 31) (hf : f < 2 ^ 32) (hin : i < n) (hn : n < s) :
    (f + i) % 2 ^ 32 % s = (f + n) % 2 ^ 32 % s ↔ f + i < 2 ^ 32 ∧ 2 ^ 32 ≤ f + n ∧ n - i = 2 ^ 32 % s := by
  have hcong : ∀ {a d : Nat}, 0 < d → d < s → a % s ≠ (a + d) % s := by
    intro a d hd hds heq
    have hdvd : s ∣ a + d - a := (Nat.modEq_iff_dvd' (Nat.le_add_right a d)).1 heq
    have := Nat.le_of_dvd (by omega) hdvd
    omega
  by_cases hfn : f + n < 2 ^ 32
  · rw [Nat.mod_eq_of_lt (a := f + i) (by omega), Nat.mod_eq_of_lt hfn]
    have hne := hcong (a := f + i) (d := n - i) (by omega) (by omega)
    rw [show f + i + (n - i) = f + n by omega] at hne
    exact ⟨fun h => absurd h hne, fun h => by omega⟩
  have hwrap : (f + n) % 2 ^ 32 = f + n - 2 ^ 32 := by omega
  by_cases hfi : f + i < 2 ^ 32
  · rw [Nat.mod_eq_of_lt hfi, hwrap]
    -- 2^32 is (f + n - 2^32) short of f + n, and f + i is n - i short of it
    have hsum : f + i + (n - i) = (f + n - 2 ^ 32) + 2 ^ 32 := by omega
    constructor
    · intro heq
      refine ⟨hfi, by omega, ?_⟩
      have h : (f + i + (n - i)) % s = (f + i + 2 ^ 32) % s := by
        rw [hsum, Nat.add_mod, ← heq, ← Nat.add_mod]
      have h' : (n - i) % s = 2 ^ 32 % s := Nat.ModEq.add_left_cancel' (f + i) h
      rwa [Nat.mod_eq_of_lt (by omega)] at h'
    rintro ⟨-, -, hd⟩
    have h : (f + i + (n - i)) % s = (f + n - 2 ^ 32 + (n - i)) % s := by
      rw [hsum, Nat.add_mod, ← hd, Nat.mod_add_mod]
    exact Nat.ModEq.add_right_cancel' (n - i) h
  rw [show (f + i) % 2 ^ 32 = f + i - 2 ^ 32 by omega, hwrap]
  have hne := hcong (a := f + i - 2 ^ 32) (d := n - i) (by omega) (by omega)
  rw [show f + i - 2 ^ 32 + (n - i) = f + n - 2 ^ 32 by omega] at hne
  exact ⟨fun h => absurd h hne, fun h => by omega⟩

theorem slot_round_iff (hs : s < 2 ^ 31) (hs0 : 0 < s) (hf : f < 2 ^ 32) :
    (f + s) % 2 ^ 32 % s = f % s ↔ f + s < 2 ^ 32 ∨ 2 ^ 32 % s = 0 := by
  by_cases hfs : f + s < 2 ^ 32
  · rw [Nat.mod_eq_of_lt hfs, Nat.add_mod_right]
    exact ⟨fun _ => .inl hfs, fun _ => rfl⟩
  rw [show (f + s) % 2 ^ 32 = f + s - 2 ^ 32 by omega]
  have hsum : f + s - 2 ^ 32 + 2 ^ 32 = f + s := by omega
  constructor
  · intro heq
    have h : (f + s - 2 ^ 32 + 2 ^ 32) % s = (f + s - 2 ^ 32 + 0) % s := by
      rw [hsum, Nat.add_mod_right, Nat.add_zero, heq]
    have h' : 2 ^ 32 % s = 0 % s := Nat.ModEq.add_left_cancel' _ h
    exact .inr (by rw [h', Nat.zero_mod])
  rintro (h | h)
  · exact absurd h hfs
  · have hmod : (f + s - 2 ^ 32) % s = (f + s - 2 ^ 32 + 2 ^ 32) % s := by
      rw [Nat.add_mod, h, Nat.add_zero, Nat.mod_mod]
    rw [hmod, hsum, Nat.add_mod_right]

end

/-! ## What a use does -/

section

variable {c c' : Channel T V} {es es' : List (Event V)} {u : Use V} {x : V}

theorem use_send (h : c.use (.send x) = some (es, c')) :
    c.n < c.s ∧ es = [.put (c.slot c.n) x] ∧ c' = { c with n := c.n + 1, v := update c.v (c.slot c.n) x } := by
  simp only [Channel.use, altexecbuffered] at h
  by_cases hn : c.n < c.s
  · simp only [reduceCtorEq, false_and, if_false, hn, and_self, if_true] at h
    cases h
    exact ⟨hn, rfl, rfl⟩
  · simp [hn] at h

theorem use_recv (h : c.use .recv = some (es, c')) :
    0 < c.n ∧ es = [.take (c.f % c.s) (c.v (c.f % c.s))] ∧ c' = { c with n := c.n - 1, f := (c.f + 1) % 2 ^ 32 } := by
  simp only [Channel.use, altexecbuffered] at h
  by_cases hn : 0 < c.n
  · simp only [hn, and_self, if_true] at h
    cases h
    exact ⟨hn, rfl, rfl⟩
  · simp [hn] at h

theorem use_exchange (h : c.use (.exchange x) = some (es, c')) :
    c.n = c.s ∧ 0 < c.n ∧ es = [.take (c.f % c.s) (c.v (c.f % c.s)), .put (c.f % c.s) x] ∧
      c' = { c with f := (c.f + 1) % 2 ^ 32, v := update c.v (c.f % c.s) x } := by
  simp only [Channel.use, altexecbuffered] at h
  by_cases hn : c.n = c.s
  · by_cases hpos : 0 < c.n
    · simp only [hn, if_true, true_and] at h
      rw [if_pos (hn ▸ hpos)] at h
      cases h
      exact ⟨hn, hpos, rfl, by rw [hn]⟩
    · simp [hn, hn ▸ hpos] at h
  · simp [hn] at h

end

/-! ## Events in order -/

section

variable {es es' : List (Event V)} {e : Event V} {k a b : Nat} {x y : V}

@[simp] theorem puts_append (es es' : List (Event V)) : puts (es ++ es') = puts es + puts es' := countP_append

@[simp] theorem takes_append (es es' : List (Event V)) : takes (es ++ es') = takes es + takes es' := countP_append

@[simp] theorem puts_cons_put : puts (.put a x :: es) = puts es + 1 := countP_cons_of_pos rfl

@[simp] theorem takes_cons_put : takes (.put a x :: es) = takes es := countP_cons_of_neg (by simp [Event.isPut])

@[simp] theorem puts_cons_take : puts (.take a x :: es) = puts es := countP_cons_of_neg (by simp [Event.isPut])

@[simp] theorem takes_cons_take : takes (.take a x :: es) = takes es + 1 := countP_cons_of_pos rfl

@[simp] theorem puts_nil : puts ([] : List (Event V)) = 0 := rfl

@[simp] theorem takes_nil : takes ([] : List (Event V)) = 0 := rfl

theorem LastInto.append (h : LastInto es k a y) (es' : List (Event V)) (hout : ∀ x, .put a x ∉ es') :
    LastInto (es ++ es') k a y := by
  obtain ⟨before, after, rfl, hk, hlast⟩ := h
  refine ⟨before, after ++ es', by simp, hk, fun x hx => ?_⟩
  rcases mem_append.1 hx with hx | hx
  · exact hlast x hx
  · exact hout x hx

theorem LastInto.new (es : List (Event V)) (a : Nat) (x : V) : LastInto (es ++ [.put a x]) (puts es) a x :=
  ⟨es, [], rfl, rfl, fun _ => not_mem_nil⟩

theorem LastInto.put_lt (h : LastInto (es ++ .put a x :: es') k a y) : puts es ≤ k := by
  obtain ⟨_, _, heq, rfl, hlast⟩ := h
  rcases append_eq_append_iff.1 heq with ⟨t, rfl, -⟩ | ⟨t, rfl, ht⟩
  · simp
  cases t with
  | nil => simp
  | cons e t =>
    cases ht
    exact absurd (by simp) (hlast x)

theorem LastInto.slot_eq (h : LastInto (es ++ .put b x :: es') (puts es) a y) : a = b := by
  obtain ⟨_, _, heq, hk, -⟩ := h
  rcases append_eq_append_iff.1 heq with ⟨t, rfl, ht⟩ | ⟨t, rfl, ht⟩
  · cases t with
    | nil => cases ht; rfl
    | cons e t =>
      cases ht
      simp at hk
  cases t with
  | nil => cases ht; rfl
  | cons e t =>
    cases ht
    simp at hk

theorem SlotsKept.snoc (h : SlotsKept es) (htake : ∀ a y, e = .take a y → LastInto es (takes es) a y) :
    SlotsKept (es ++ [e]) := by
  intro before after a y heq
  rcases eq_nil_or_concat after with rfl | ⟨after, e', rfl⟩
  · obtain ⟨rfl, hlast⟩ := append_inj' heq rfl
    exact htake a y (cons.inj hlast).1
  · rw [concat_eq_append, ← cons_append, ← append_assoc] at heq
    exact h before after a y (append_inj' heq rfl).1

theorem SlotsKept.last (h : SlotsKept (es ++ [.take a y])) : LastInto es (takes es) a y := h es [] a y rfl

end

/-! ## The invariant -/

/-- After the events, of a channel with `s` elements. -/
structure After (s : Nat) (es : List (Event V)) (c : Channel T V) : Prop where
  size : c.s = s
  n_le : c.n ≤ s
  f_eq : c.f = takes es % 2 ^ 32
  puts_eq : puts es = takes es + c.n

/-- The values that are waiting are in the slots from which they will be taken. -/
def Held (es : List (Event V)) (c : Channel T V) : Prop :=
  ∀ i, i < c.n → LastInto es (takes es + i) (c.slot i) (c.v (c.slot i))

section

variable {s : Nat} {c c' : Channel T V} {es es' : List (Event V)} {u : Use V} {us : List (Use V)}

theorem After.f_lt (h : After s es c) : c.f < 2 ^ 32 := by
  rw [h.f_eq]
  exact Nat.mod_lt _ (by decide)

theorem After.slot_zero (h : After s es c) : c.slot 0 = c.f % c.s := by
  rw [Channel.slot, Nat.add_zero, Nat.mod_eq_of_lt h.f_lt]

theorem After.start (s : Nat) (v : Nat → V) : After s [] (chancreate s v : Channel T V) := ⟨rfl, Nat.zero_le s, rfl, rfl⟩

theorem After.use (h : After s es c) (huse : c.use u = some (es', c')) : After s (es ++ es') c' := by
  have hs := h.size
  have hf := h.f_eq
  have hputs := h.puts_eq
  have hn := h.n_le
  cases u with
  | send x =>
    obtain ⟨_, rfl, rfl⟩ := use_send huse
    refine ⟨hs, ?_, ?_, ?_⟩ <;> simp <;> omega
  | recv =>
    obtain ⟨hpos, rfl, rfl⟩ := use_recv huse
    refine ⟨hs, ?_, ?_, ?_⟩ <;> simp <;> omega
  | exchange x =>
    obtain ⟨_, hpos, rfl, rfl⟩ := use_exchange huse
    refine ⟨hs, ?_, ?_, ?_⟩ <;> simp <;> omega

theorem slot_succ (i : Nat) : ({ c with n := c.n - 1, f := (c.f + 1) % 2 ^ 32 } : Channel T V).slot i = c.slot (i + 1) := by
  rw [Channel.slot, Channel.slot, Nat.mod_add_mod, Nat.add_assoc, Nat.add_comm 1 i]

theorem Held.slots (hat : After s es c) (h : Held es c) (hkept : SlotsKept es) (hs : s < 2 ^ 31) (hclear : c.Clear u)
    (huse : c.use u = some (es', c')) : Held (es ++ es') c' ∧ SlotsKept (es ++ es') := by
  have hf := hat.f_lt
  have hsz := hat.size
  cases u with
  | send x =>
    obtain ⟨hlt, rfl, rfl⟩ := use_send huse
    have hne : ∀ i, i < c.n → c.slot i ≠ c.slot c.n := by
      intro i hi heq
      rw [Channel.slot, Channel.slot, slot_eq_iff (hsz ▸ hs) hf hi hlt] at heq
      exact hclear (by omega)
    refine ⟨fun i hi => ?_, hkept.snoc fun a y he => by cases he⟩
    change LastInto _ _ (c.slot i) (update c.v (c.slot c.n) x (c.slot i))
    rcases Nat.lt_or_eq_of_le (Nat.le_of_lt_succ hi) with hlt' | rfl
    · rw [update_of_ne (hne i hlt')]
      have := (h i hlt').append [.put (c.slot c.n) x] fun y hy => by
        rw [mem_singleton, Event.put.injEq] at hy
        exact hne i hlt' hy.1
      simpa using this
    · have := LastInto.new es (c.slot c.n) x
      rw [hat.puts_eq] at this
      simpa using this
  | recv =>
    obtain ⟨hpos, rfl, rfl⟩ := use_recv huse
    refine ⟨fun i hi => ?_, hkept.snoc fun a y he => ?_⟩
    · rw [slot_succ]
      have := (h (i + 1) (by change i < c.n - 1 at hi; omega)).append [.take (c.f % c.s) (c.v (c.f % c.s))]
        fun y hy => by simp at hy
      rwa [show takes es + (i + 1) = takes (es ++ [.take (c.f % c.s) (c.v (c.f % c.s))]) + i by simp; omega] at this
    · cases he
      have := h 0 hpos
      rwa [hat.slot_zero] at this
  | exchange x =>
    obtain ⟨hfull, hpos, rfl, rfl⟩ := use_exchange huse
    have hround : (c.f + c.s) % 2 ^ 32 % c.s = c.f % c.s := (slot_round_iff (hsz ▸ hs) (hfull ▸ hpos) hf).2 hclear
    have hne : ∀ i, 0 < i → i < c.n → c.slot i ≠ c.slot 0 := by
      intro i hi hin heq
      rw [Channel.slot, Channel.slot, eq_comm, slot_eq_iff (hsz ▸ hs) hf hi (hfull ▸ hin)] at heq
      rcases hclear with hlt | hz <;> omega
    have hfirst : LastInto es (takes es) (c.f % c.s) (c.v (c.f % c.s)) := by
      have := h 0 hpos
      rwa [hat.slot_zero] at this
    have htaken : SlotsKept (es ++ [.take (c.f % c.s) (c.v (c.f % c.s))]) := hkept.snoc fun a y he => by
      cases he
      exact hfirst
    refine ⟨fun i hi => ?_, ?_⟩
    · change LastInto _ _ (Channel.slot { c with n := c.n - 1, f := (c.f + 1) % 2 ^ 32 } i)
        (update c.v (c.f % c.s) x (Channel.slot { c with n := c.n - 1, f := (c.f + 1) % 2 ^ 32 } i))
      change i < c.n at hi
      rw [slot_succ]
      rcases Nat.lt_or_eq_of_le (Nat.succ_le_of_lt hi) with hlt | heq
      · have hout : c.slot (i + 1) ≠ c.f % c.s := hat.slot_zero ▸ hne (i + 1) (Nat.succ_pos i) hlt
        rw [update_of_ne hout]
        have := (h (i + 1) hlt).append [.take (c.f % c.s) (c.v (c.f % c.s)), .put (c.f % c.s) x] fun y hy => by
          simp only [mem_cons, reduceCtorEq, Event.put.injEq, not_mem_nil, or_false, false_or] at hy
          exact hout hy.1
        simpa [Nat.add_assoc, Nat.add_comm] using this
      have hlast : c.slot (i + 1) = c.f % c.s := by
        rw [Channel.slot, show i + 1 = c.s by omega, hround]
      rw [hlast, update_self]
      have := LastInto.new (es ++ [.take (c.f % c.s) (c.v (c.f % c.s))]) (c.f % c.s) x
      rw [append_assoc] at this
      have hnum : puts (es ++ [.take (c.f % c.s) (c.v (c.f % c.s))]) =
          takes (es ++ [.take (c.f % c.s) (c.v (c.f % c.s)), .put (c.f % c.s) x]) + i := by
        have := hat.puts_eq
        simp
        omega
      rwa [hnum] at this
    · have := htaken.snoc (e := .put (c.f % c.s) x) fun a y he => by cases he
      rwa [append_assoc] at this

/-! ## Runs -/

theorem uses_append : ∀ (us us' : List (Use V)) (c : Channel T V),
    c.uses (us ++ us') = (c.uses us).bind fun r => (r.2.uses us').map fun r' => (r.1 ++ r'.1, r'.2)
  | [], us', c => by
    rw [nil_append, Channel.uses, Option.bind_some]
    cases c.uses us' <;> rfl
  | u :: us, us', c => by
    rw [cons_append, Channel.uses, Channel.uses]
    cases c.use u with
    | none => rfl
    | some r =>
      simp only [Option.bind_eq_bind, Option.bind_some, uses_append us us']
      cases r.2.uses us with
      | none => rfl
      | some r' =>
        simp only [Option.bind_some, Option.pure_def]
        cases r'.2.uses us' with
        | none => rfl
        | some r'' => simp

theorem uses_split {us us' : List (Use V)} (h : c.uses (us ++ us') = some (es, c')) :
    ∃ es1 c1 es2, c.uses us = some (es1, c1) ∧ c1.uses us' = some (es2, c') ∧ es = es1 ++ es2 := by
  rw [uses_append, Option.bind_eq_some_iff] at h
  obtain ⟨⟨es1, c1⟩, h1, h⟩ := h
  rw [Option.map_eq_some_iff] at h
  obtain ⟨⟨es2, _⟩, h2, heq⟩ := h
  cases heq
  exact ⟨es1, c1, es2, h1, h2, rfl⟩

theorem uses_join {c1 : Channel T V} {es1 es2 : List (Event V)} {us us' : List (Use V)}
    (h1 : c.uses us = some (es1, c1)) (h2 : c1.uses us' = some (es2, c')) : c.uses (us ++ us') = some (es1 ++ es2, c') := by
  rw [uses_append, h1, Option.bind_some, h2, Option.map_some]

theorem uses_singleton : c.uses [u] = c.use u := by
  rw [Channel.uses]
  cases c.use u with
  | none => rfl
  | some r => simp [Channel.uses]

theorem uses_cons (h : c.uses (u :: us) = some (es, c')) :
    ∃ es1 c1 es2, c.use u = some (es1, c1) ∧ c1.uses us = some (es2, c') ∧ es = es1 ++ es2 := by
  rw [← singleton_append] at h
  obtain ⟨es1, c1, es2, huse, hrest, heq⟩ := uses_split h
  exact ⟨es1, c1, es2, uses_singleton.symm.trans huse, hrest, heq⟩

theorem uses_step {c1 : Channel T V} {es1 es2 : List (Event V)} (huse : c.use u = some (es1, c1))
    (h : c1.uses us = some (es2, c')) : c.uses (u :: us) = some (es1 ++ es2, c') := by
  exact uses_join (uses_singleton.trans huse) h

/-- Each use of a run is made in a state that is clear for it. -/
def AllClear (c : Channel T V) (us : List (Use V)) : Prop :=
  ∀ before u after, us = before ++ u :: after → ∀ es c', c.uses before = some (es, c') → c'.Clear u

theorem AllClear.head (h : AllClear c (u :: us)) : c.Clear u := h [] u us rfl [] c rfl

theorem AllClear.tail (h : AllClear c (u :: us)) (huse : c.use u = some (es, c')) : AllClear c' us := by
  rintro before u' after rfl es' c'' hrun
  exact h (u :: before) u' after rfl _ c'' (uses_step huse hrun)

theorem AllClear.append {us' : List (Use V)} (h : AllClear c (us ++ us')) : AllClear c us := by
  rintro before u after rfl
  exact h before u (after ++ us') (by simp)

theorem AllClear.recvs (c : Channel T V) (n : Nat) : AllClear c (replicate n (.recv : Use V)) := by
  intro before u after heq es c' _
  have hu : u ∈ replicate n (.recv : Use V) := heq ▸ by simp
  rw [eq_of_mem_replicate hu]
  trivial

theorem After.uses : ∀ {us : List (Use V)} {es : List (Event V)} {c : Channel T V} {es' c'}, After s es c →
    c.uses us = some (es', c') → After s (es ++ es') c'
  | [], es, c, es', c', hat, h => by
    cases h
    rwa [append_nil]
  | u :: us, es, c, es', c', hat, h => by
    obtain ⟨_, _, _, huse, hrest, rfl⟩ := uses_cons h
    rw [← append_assoc]
    exact (hat.use huse).uses hrest

theorem Held.uses (hs : s < 2 ^ 31) : ∀ {us : List (Use V)} {es : List (Event V)} {c : Channel T V} {es' c'}, After s es c →
    Held es c → SlotsKept es → AllClear c us → c.uses us = some (es', c') → Held (es ++ es') c' ∧ SlotsKept (es ++ es')
  | [], es, c, es', c', _, hheld, hkept, _, h => by
    cases h
    rw [append_nil]
    exact ⟨hheld, hkept⟩
  | u :: us, es, c, es', c', hat, hheld, hkept, hclear, h => by
    obtain ⟨_, _, _, huse, hrest, rfl⟩ := uses_cons h
    obtain ⟨hheld', hkept'⟩ := hheld.slots hat hkept hs hclear.head huse
    rw [← append_assoc]
    exact Held.uses hs (hat.use huse) hheld' hkept' (hclear.tail huse) hrest

/-- As many values as there are waiting can be received, one after another. -/
theorem uses_recvs : ∀ {n : Nat} {c : Channel T V}, n < c.n → c.f < 2 ^ 32 → ∃ es, takes es = n ∧ puts es = 0 ∧
    ∃ c', c.uses (replicate (n + 1) .recv) = some (es ++ [.take (c.slot n) (c.v (c.slot n))], c')
  | 0, c, hn, hf => by
    refine ⟨[], rfl, rfl, { c with n := c.n - 1, f := (c.f + 1) % 2 ^ 32 }, ?_⟩
    rw [replicate_one, uses_singleton, nil_append, Channel.slot, Nat.add_zero, Nat.mod_eq_of_lt hf]
    simp [Channel.use, altexecbuffered, hn]
  | n + 1, c, hn, hf => by
    have huse : c.use .recv = some ([.take (c.f % c.s) (c.v (c.f % c.s))],
        { c with n := c.n - 1, f := (c.f + 1) % 2 ^ 32 }) := by
      simp [Channel.use, altexecbuffered, Nat.lt_of_le_of_lt (Nat.zero_le _) hn]
    obtain ⟨es, htakes, hputs, c', hrun⟩ := uses_recvs (n := n) (c := { c with n := c.n - 1, f := (c.f + 1) % 2 ^ 32 })
      (by change n < c.n - 1; omega) (Nat.mod_lt _ (by decide))
    refine ⟨.take (c.f % c.s) (c.v (c.f % c.s)) :: es, by simp [htakes], by simp [hputs], c', ?_⟩
    rw [slot_succ] at hrun
    have hboth := uses_step huse hrun
    exact hboth

/-- A use for which the state is not clear spoils a value that can be received. -/
theorem exists_spoiled (hat : After s es c) (hs : s < 2 ^ 31) (hclear : ¬ c.Clear u) (huse : c.use u = some (es', c')) :
    ∃ n es'' c'', c'.uses (replicate n .recv) = some (es'', c'') ∧ ¬ SlotsKept (es ++ es' ++ es'') := by
  have hat' := hat.use huse
  have hf := hat.f_lt
  have hsz := hat.size
  cases u with
  | recv => exact absurd trivial hclear
  | send x =>
    obtain ⟨hlt, rfl, rfl⟩ := use_send huse
    have hbad := Classical.not_not.1 hclear
    -- the value that is as far ahead as the slots are off has the slot of the new one
    obtain ⟨i, hi, hslot⟩ : ∃ i, i < c.n ∧ c.slot i = c.slot c.n := by
      refine ⟨c.n - 2 ^ 32 % c.s, by omega, ?_⟩
      rw [Channel.slot, Channel.slot, slot_eq_iff (hsz ▸ hs) hf (by omega) hlt]
      omega
    obtain ⟨es'', htakes, hputs, c'', hrun⟩ := uses_recvs (n := i) (Nat.lt_succ_of_lt hi) hat'.f_lt
    refine ⟨i + 1, _, c'', hrun, fun hkept => ?_⟩
    rw [← append_assoc] at hkept
    have hlast := hkept.last
    change LastInto _ _ (c.slot i) _ at hlast
    rw [hslot, append_assoc] at hlast
    have hle := hlast.put_lt
    have := hat.puts_eq
    simp [htakes] at hle
    omega
  | exchange x =>
    obtain ⟨hfull, hpos, rfl, rfl⟩ := use_exchange huse
    obtain ⟨n, hn⟩ : ∃ n, c.n = n + 1 := ⟨c.n - 1, by omega⟩
    obtain ⟨es'', htakes, hputs, c'', hrun⟩ := uses_recvs
      (c := { c with f := (c.f + 1) % 2 ^ 32, v := update c.v (c.f % c.s) x }) (n := n) (hn ▸ Nat.lt_succ_self n) hat'.f_lt
    refine ⟨n + 1, _, c'', hrun, fun hkept => hclear ?_⟩
    rw [← append_assoc] at hkept
    have hlast := hkept.last
    have hslot : Channel.slot { c with f := (c.f + 1) % 2 ^ 32, v := update c.v (c.f % c.s) x } n =
        (c.f + c.s) % 2 ^ 32 % c.s := by
      rw [Channel.slot, Nat.mod_add_mod, Nat.add_assoc, Nat.add_comm 1 n, ← hn, hfull]
    rw [hslot] at hlast
    have hnum : takes (es ++ [.take (c.f % c.s) (c.v (c.f % c.s)), .put (c.f % c.s) x] ++ es'') =
        puts (es ++ [.take (c.f % c.s) (c.v (c.f % c.s))]) := by
      have := hat.puts_eq
      simp [htakes]
      omega
    rw [hnum, show es ++ [.take (c.f % c.s) (c.v (c.f % c.s)), .put (c.f % c.s) x] ++ es'' =
      es ++ [.take (c.f % c.s) (c.v (c.f % c.s))] ++ .put (c.f % c.s) x :: es'' by simp] at hlast
    exact (slot_round_iff (hsz ▸ hs) (hfull ▸ hpos) hf).1 hlast.slot_eq

end

/-- **Exactly when the slots are right.** In a run from an empty channel every value is received from the slot into which
it was sent, and nothing else has been sent into that slot in between — also when what is waiting anywhere in the run
is received there — if and only if every use of the run is made in a state that is clear for it. -/
theorem slotsKept_iff {s : Nat} (hs : s < 2 ^ 31) (v : Nat → V) {us : List (Use V)} {es : List (Event V)}
    {c : Channel T V} (hrun : (chancreate s v : Channel T V).uses us = some (es, c)) :
    AllClear (chancreate s v : Channel T V) us ↔
      ∀ before after n es' c', us = before ++ after →
        (chancreate s v : Channel T V).uses (before ++ replicate n .recv) = some (es', c') → SlotsKept es' := by
  have hheld : Held ([] : List (Event V)) (chancreate s v : Channel T V) := fun i hi => absurd hi (Nat.not_lt_zero i)
  have hkept : SlotsKept ([] : List (Event V)) := fun before after a y h => absurd h (by simp)
  constructor
  · rintro hclear before after n es' c' rfl huses
    obtain ⟨es1, c1, es2, h1, h2, rfl⟩ := uses_split huses
    obtain ⟨hheld1, hkept1⟩ := Held.uses hs (.start s v) hheld hkept hclear.append h1
    exact (Held.uses hs ((After.start s v).uses h1) hheld1 hkept1 (AllClear.recvs c1 n) h2).2
  rintro h before u after rfl es1 c1 h1
  by_contra hclear
  rw [← singleton_append, ← append_assoc] at hrun
  obtain ⟨es2, _, _, h2, -, -⟩ := uses_split hrun
  obtain ⟨_, _, _, h1', huse, rfl⟩ := uses_split h2
  cases h1.symm.trans h1'
  rw [uses_singleton] at huse
  obtain ⟨n, _, c5, h5, hspoiled⟩ := exists_spoiled ((After.start s v).uses h1) hs hclear huse
  exact hspoiled (h (before ++ [u]) after n _ c5 (by simp) (uses_join h2 h5))

/-- Three elements of which one is exchanged while the buffer is full. -/
theorem slotsKept_iff_full :
    AllClear (chancreate 3 fun _ => 0 : Channel Unit Nat) [.send 1, .send 2, .send 3, .exchange 4] ↔
      ∀ before after n es' c', [.send 1, .send 2, .send 3, .exchange 4] = before ++ after →
        (chancreate 3 fun _ => 0 : Channel Unit Nat).uses (before ++ replicate n .recv) = some (es', c') → SlotsKept es' :=
  slotsKept_iff (by decide) _ (by rfl)

theorem uses_rounds (k : Nat) : ∃ es : List (Event Nat), puts es = takes es ∧
    (chancreate 3 fun _ => 0 : Channel Unit Nat).uses (replicate k [.send 0, .recv]).flatten =
      some (es, ⟨3, k % 2 ^ 32, 0, 0, [], fun _ => 0⟩) := by
  induction k with
  | zero => exact ⟨[], rfl, rfl⟩
  | succ k ih =>
    obtain ⟨es, hes, hrun⟩ := ih
    rw [replicate_succ', flatten_append, flatten_singleton]
    have hround : (⟨3, k % 2 ^ 32, 0, 0, [], fun _ => 0⟩ : Channel Unit Nat).uses [.send 0, .recv] =
        some ([.put (k % 2 ^ 32 % 3) 0, .take (k % 2 ^ 32 % 3) 0], ⟨3, (k + 1) % 2 ^ 32, 0, 0, [], fun _ => 0⟩) := by
      simp [Channel.uses, Channel.use, altexecbuffered]
    exact ⟨_, by simp [hes], uses_join hrun hround⟩

/-- Behind 2^32 - 1 values that have been received, the next two are put into the same slot. -/
theorem slotsKept_wrapped : ∃ es c, (chancreate 3 fun _ => 0 : Channel Unit Nat).uses
    ((replicate (2 ^ 32 - 1) [.send 0, .recv]).flatten ++ [.send 1, .send 2, .recv]) = some (es, c) ∧ ¬ SlotsKept es := by
  obtain ⟨es, hes, hrun⟩ := uses_rounds (2 ^ 32 - 1)
  refine ⟨_, _, uses_join hrun rfl, fun hkept => ?_⟩
  change SlotsKept (es ++ [.put 0 1, .put 0 2, .take 0 2]) at hkept
  rw [show es ++ [.put 0 1, .put 0 2, .take 0 2] = es ++ [.put 0 1] ++ [.put 0 2] ++ [.take 0 2] by simp] at hkept
  have hle := hkept.last.put_lt
  simp only [puts_append, takes_append, puts_cons_put, takes_cons_put, puts_nil, takes_nil, hes] at hle
  omega

end Plan9.Libthread
