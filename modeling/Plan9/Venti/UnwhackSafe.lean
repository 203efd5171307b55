/-
`unwhack` of `venti/srv/unwhack.c` on any bytes at all, with every access checked.

Here the counts are `int`s as they are in the source, and a read outside `src`, a shift by
what is no count, an index outside a table, a sum that is no `int`, a copy from
before `dst` and a write after it are errors of the run. None happens, and the run is that of
`unwhack`. A round starts with more than 24 bits and takes at most 9 for a literal, 11
for a character in disguise, 5 and 17 for a short match, and 17 after it filled up again.
-/
import Plan9.Lib.Outcome
import Plan9.Venti.Whack

namespace Plan9.Venti.Unwhack

open Bytes (byteAt)

/-- What a run must not do. -/
inductive Fault where
  | read
  | shift
  | table
  | overflow
  | copy
  | write
  | rounds

abbrev Run := Except Fault

/-- `src` is the place of the next byte. -/
structure State where
  src : Nat
  uwbits : Nat
  uwnbits : Int
  overbits : Int

/-! ## Checked operations -/

/-- `x >> k` of a `ulong` -/
def shr (x : Nat) (k : Int) : Run Nat := if 0 ≤ k ∧ k < 32 then .ok (x >>> k.toNat) else .error .shift

def shl (x : Nat) (k : Int) : Run Nat := if 0 ≤ k ∧ k < 32 then .ok (x <<< k.toNat % 2 ^ 32) else .error .shift

/-- An `int`. -/
def int (x : Int) : Run Int := if -2 ^ 31 ≤ x ∧ x < 2 ^ 31 then .ok x else .error .overflow

/-- `x << k` of an `int` -/
def shlInt (x k : Int) : Run Int := if 0 ≤ k ∧ k < 32 then int (x * 2 ^ k.toNat) else .error .shift

/-- `t[i]` -/
def index {α : Type} (e : Fault) (t : List α) (i : Int) : Run α :=
  if i < 0 then .error e
  else
    match t[i.toNat]? with
    | none => .error e
    | some x => .ok x

/-- `*d++ = b`, with room for `ndst`. -/
def put (ndst : Nat) (d : List UInt8) (b : UInt8) : Run (List UInt8) :=
  if d.length < ndst then .ok (d ++ [b]) else .error .write

/-! ## The code -/

/-- `while(uwnbits <= 24)`, in at most `k` rounds -/
def fill (src : List UInt8) : Nat → State → Run State
  | 0, _ => .error .rounds
  | k + 1, u =>
    if u.uwnbits ≤ 24 then do
      let uwbits ← shl u.uwbits 8
      if u.src < src.length then
        let b ← index .read src u.src
        fill src k ⟨u.src + 1, uwbits ||| b.toNat, u.uwnbits + 8, u.overbits⟩
      else fill src k ⟨u.src, uwbits, u.uwnbits + 8, u.overbits + 8⟩
    else .ok u

/-- `uwnbits -= bits` -/
def State.drop (bits : Int) (u : State) : State := { u with uwnbits := u.uwnbits - bits }

def literal (lithist : Nat) (u : State) : Run (Nat × State) :=
  if lithist &&& 0xf ≠ 0 then do
    let u := u.drop 9
    let lit := (← shr u.uwbits u.uwnbits) &&& 0xff
    return (lit &&& 255, u)
  else do
    let u := u.drop 8
    let lit := (← shr u.uwbits u.uwnbits) &&& 0x7f
    if lit < 32 then
      if lit < 24 then
        let u := u.drop 2
        let lit := lit <<< 2 ||| (← shr u.uwbits u.uwnbits) &&& 3
        return ((lit + 256 - 64) &&& 0xff, u)
      else
        let u := u.drop 3
        let lit := lit <<< 3 ||| (← shr u.uwbits u.uwnbits) &&& 7
        return ((lit + 256 - 64) &&& 0xff, u)
    else return (lit, u)

/-- `while(code >= use)` and `len += code`, in at most `k` rounds; no length is "len out of range". -/
def bigLen : Nat → Int → Int → Int → Int → State → Run (Option (Int × State))
  | 0, _, _, _, _, _ => .error .rounds
  | k + 1, len, code, use, bits, u =>
    if code ≥ use then do
      let len ← int (len + use)
      let code ← shlInt (code - use) 1
      let u := u.drop 1
      if u.uwnbits < 0 then return none
      else
        -- the code is even here
        let code := code + ((← shr u.uwbits u.uwnbits) &&& 1 : Nat)
        let use ← shlInt use bits
        bigLen k len code use (if bits = 0 then 1 else 0) u
    else do
      let len ← int (len + code)
      return some (len, u)

def length (src : List UInt8) (len : Nat) (u : State) : Run (Option (Int × State)) :=
  if len < 255 then do
    let bits ← index .table lenbits len
    return some (len, u.drop bits)
  else do
    let u := u.drop dBigLenBits
    let code := ((← shr u.uwbits u.uwnbits) &&& (1 <<< dBigLenBits - 1) : Nat)
    match ← bigLen 32 dMaxFastLen ((code : Int) - dBigLenCode) dBigLenBase ((dBigLenBits &&& 1) ^^^ 1 : Nat) u with
    | none => return none
    | some (len, u) => return some (len, ← fill src 5 u)

def offset (u : State) : Run (Nat × State) := do
  let u := u.drop 4
  let bits := (← shr u.uwbits u.uwnbits) &&& 0xf
  let off ← index .table offbase bits
  let bits ← index .table offbits bits
  let u := u.drop bits
  let low ← shr u.uwbits u.uwnbits
  let mask ← shl 1 bits
  return ((off ||| low &&& (mask - 1)) + 1, u)

/-- `for(i = 0; i < len; i++) d[i] = s[i]`, for `len` bytes more -/
def copyBytes (ndst : Nat) (off : Nat) : Nat → List UInt8 → Run (List UInt8)
  | 0, d => .ok d
  | len + 1, d => do
    let b ← index .copy d (d.length - off)
    copyBytes ndst off len (← put ndst d b)

/-- From the first fill of a round to the next round. -/
def round (src : List UInt8) (ndst : Nat) (d : List UInt8) (lithist : Nat) (u : State) :
    Run (Except UnwhackErr (List UInt8 × Nat × State)) := do
  let u ← fill src 5 u
  let len ← index .table lenval ((← shr u.uwbits (u.uwnbits - 5)) &&& 0x1f : Nat)
  if len = 0 then
    let (lit, u) ← literal lithist u
    if d.length ≥ ndst then return .error .tooMuchOutput
    else
      let d ← put ndst d (UInt8.ofNat lit)
      return .ok (d, ((lithist <<< 1) ||| (if lit < 32 then 1 else 0) ||| (if lit > 127 then 1 else 0)) % 2 ^ 32, u)
  else
    match ← length src len u with
    | none => return .error .lenOutOfRange
    | some (len, u) =>
      let (off, u) ← offset u
      if off > d.length then return .error (.offsetOutOfRange off d.length len.toNat u.uwnbits.toNat)
      else if d.length + len > ndst then return .error .lenOutOfRange
      else return .ok (← copyBytes ndst off len.toNat d, lithist, u)

/-- `while(src < smax || uwnbits - overbits >= MinDecode)`, in at most `k` rounds, and what follows it -/
def loop (src : List UInt8) (ndst : Nat) : Nat → List UInt8 → Nat → State → Run (Except UnwhackErr (List UInt8))
  | 0, _, _, _ => .error .rounds
  | k + 1, d, lithist, u =>
    if u.src < src.length ∨ u.uwnbits - u.overbits ≥ minDecode then do
      match ← round src ndst d lithist u with
      | .error e => return .error e
      | .ok (d, lithist, u) => loop src ndst k d lithist u
    else if u.uwnbits < u.overbits then .ok (.error .overrun)
    else .ok (.ok d)

/-- `unwhack(uw, dst, ndst, src, nsrc)`: what is written to `dst`, or the error that goes with -1. -/
def run (ndst : Nat) (src : List UInt8) : Run (Except UnwhackErr (List UInt8)) :=
  loop src ndst (src.length + 2) [] (2 ^ 32 - 1) ⟨0, 0, 0, 0⟩

/-! ## Nothing is out of range -/

theorem ok_bind {α β : Type} (a : α) (f : α → Run β) : (Except.ok a : Run α) >>= f = f a := rfl

theorem shr_ok {x : Nat} {k : Int} (h0 : 0 ≤ k) (h : k < 32) : shr x k = .ok (x >>> k.toNat) := if_pos ⟨h0, h⟩

theorem shl_ok {x : Nat} {k : Int} (h0 : 0 ≤ k) (h : k < 32) : shl x k = .ok (x <<< k.toNat % 2 ^ 32) := if_pos ⟨h0, h⟩

theorem int_ok {x : Int} (hlo : 0 ≤ x) (hhi : x < 2 ^ 31) : int x = .ok x := if_pos ⟨by omega, hhi⟩

theorem shlInt_ok {x k : Nat} (hk : k < 32) (h : x <<< k < 2 ^ 31) : shlInt x k = .ok ((x <<< k : Nat) : Int) := by
  rw [shlInt, if_pos (by omega), Int.toNat_natCast, Nat.shiftLeft_eq]
  have heq : (x : Int) * 2 ^ k = ((x * 2 ^ k : Nat) : Int) := by push_cast; rfl
  rw [heq, int_ok (by omega) (by omega)]

theorem index_ok {α : Type} {e : Fault} {t : List α} {i : Nat} (h : i < t.length) : index e t i = .ok t[i] := by
  unfold index
  rw [if_neg (by omega), Int.toNat_natCast, List.getElem?_eq_getElem h]

theorem index_getD {e : Fault} {t : List Nat} {i : Nat} (h : i < t.length) : index e t i = .ok (t.getD i 0) := by
  rw [index_ok h, List.getD_eq_getElem?_getD, List.getElem?_eq_getElem h, Option.getD_some]

/-- What holds of the bits between two operations. -/
structure Fine (src : List UInt8) (u : State) : Prop where
  place : u.src ≤ src.length
  low : 0 ≤ u.uwnbits
  high : u.uwnbits ≤ 32
  phantom : 0 ≤ u.overbits
  none : u.src < src.length → u.overbits = 0

/-- The bits that are left, in `src` and in the word. -/
def State.left (src : List UInt8) (u : State) : Int := 8 * (src.length - u.src) + u.uwnbits - u.overbits

/-- The bits without the checks. -/
def State.decoder (src : List UInt8) (u : State) : Decoder := ⟨src.drop u.src, u.uwbits, u.uwnbits.toNat, u.overbits.toNat⟩

section

variable {src : List UInt8} {u : State}

theorem Fine.drop (h : Fine src u) {bits : Int} (h0 : 0 ≤ bits) (hle : bits ≤ u.uwnbits) : Fine src (u.drop bits) := by
  have hhigh := h.high
  exact ⟨h.place, by simp only [State.drop]; omega, by simp only [State.drop]; omega, h.phantom, h.none⟩

theorem left_drop (bits : Int) : (u.drop bits).left src = u.left src - bits := by
  simp only [State.left, State.drop]
  omega

theorem take_drop {bits : Nat} (hle : (bits : Int) ≤ u.uwnbits) :
    (u.decoder src).take bits =
      (u.uwbits >>> (u.uwnbits - bits).toNat &&& (1 <<< bits - 1), (u.drop bits).decoder src) := by
  simp only [Decoder.take, State.decoder, State.drop]
  rw [show u.uwnbits.toNat - bits = (u.uwnbits - bits).toNat by omega]

/-- Four rounds at most fill the word. -/
theorem fill_rounds : ∀ (n k : Nat) (u : State), Fine src u → (32 - u.uwnbits.toNat) / 8 = n → n < k →
    ∃ u', fill src k u = .ok u' ∧ Fine src u' ∧ 25 ≤ u'.uwnbits ∧ u'.left src = u.left src ∧
      u'.decoder src = fillLoop n (u.decoder src) := by
  intro n
  induction n with
  | zero =>
    intro k u h hn hk
    obtain ⟨k, rfl⟩ : ∃ k', k = k' + 1 := ⟨k - 1, by omega⟩
    have hlow := h.low
    refine ⟨u, ?_, h, by omega, rfl, rfl⟩
    rw [fill, if_neg (by omega)]
  | succ n ih =>
    intro k u h hn hk
    obtain ⟨k, rfl⟩ : ∃ k', k = k' + 1 := ⟨k - 1, by omega⟩
    obtain ⟨hplace, hlow, -, hphantom, hnone⟩ := h
    rw [fill, if_pos (by omega), shl_ok (by omega) (by omega)]
    by_cases hsrc : u.src < src.length
    · have h0 := hnone hsrc
      obtain ⟨u', hrun, hfine, h25, hleft, hdec⟩ := ih k
        ⟨u.src + 1, u.uwbits <<< 8 % 2 ^ 32 ||| src[u.src].toNat, u.uwnbits + 8, u.overbits⟩
        ⟨hsrc, by dsimp only; omega, by dsimp only; omega, hphantom, fun _ => h0⟩ (by dsimp only; omega) (by omega)
      refine ⟨u', ?_, hfine, h25, ?_, ?_⟩
      · simp only [bind, Except.bind, if_pos hsrc, index_ok hsrc]
        exact hrun
      · rw [hleft]
        simp only [State.left]
        omega
      rw [hdec]
      simp only [State.decoder, fillLoop]
      rw [List.drop_eq_getElem_cons hsrc]
      simp only [show (u.uwnbits + 8).toNat = u.uwnbits.toNat + 8 by omega]
    obtain ⟨u', hrun, hfine, h25, hleft, hdec⟩ := ih k ⟨u.src, u.uwbits <<< 8 % 2 ^ 32, u.uwnbits + 8, u.overbits + 8⟩
      ⟨hplace, by dsimp only; omega, by dsimp only; omega, by dsimp only; omega, fun h => absurd h hsrc⟩
      (by dsimp only; omega) (by omega)
    refine ⟨u', ?_, hfine, h25, ?_, ?_⟩
    · simp only [bind, Except.bind, if_neg hsrc]
      exact hrun
    · rw [hleft]
      simp only [State.left]
      omega
    rw [hdec]
    simp only [State.decoder, fillLoop]
    rw [List.drop_eq_nil_of_le (by omega)]
    simp only [show (u.uwnbits + 8).toNat = u.uwnbits.toNat + 8 by omega,
      show (u.overbits + 8).toNat = u.overbits.toNat + 8 by omega]

theorem fill_spec (h : Fine src u) : ∃ u', fill src 5 u = .ok u' ∧ Fine src u' ∧ 25 ≤ u'.uwnbits ∧
    u'.left src = u.left src ∧ u'.decoder src = Venti.fill (u.decoder src) :=
  fill_rounds _ 5 u h rfl (by omega)

theorem shr_drop (h : Fine src u) {bits : Int} (h0 : 0 < bits) (hle : bits ≤ u.uwnbits) :
    shr (u.drop bits).uwbits (u.drop bits).uwnbits = .ok (u.uwbits >>> (u.uwnbits - bits).toNat) := by
  have hhigh := h.high
  exact shr_ok (by simp only [State.drop]; omega) (by simp only [State.drop]; omega)

theorem literal_spec (h : Fine src u) (h25 : 25 ≤ u.uwnbits) (lithist : Nat) :
    ∃ lit u', literal lithist u = .ok (lit, u') ∧ (u.decoder src).literal lithist = (lit, u'.decoder src) ∧
      Fine src u' ∧ u'.left src ≤ u.left src - 8 := by
  unfold literal Decoder.literal
  by_cases hhist : lithist &&& 0xf ≠ 0
  · refine ⟨u.uwbits >>> (u.uwnbits - 9).toNat &&& 255, u.drop 9, ?_, ?_, h.drop (by omega) (by omega), by
      rw [left_drop]; omega⟩
    · rw [if_pos hhist]
      simp only [shr_drop h (show (0 : Int) < 9 by omega) (by omega), bind, Except.bind, pure, Except.pure, Nat.and_assoc]
      rfl
    · rw [if_pos hhist, @take_drop src u 9 (by omega)]
      simp only [Nat.and_assoc]
      rfl
  have h8 := @Fine.drop src u h 8 (by omega) (by omega)
  rw [if_neg hhist, if_neg hhist, @take_drop src u 8 (by omega)]
  simp only [shr_drop h (show (0 : Int) < 8 by omega) (by omega), bind, Except.bind, pure, Except.pure, Nat.and_assoc]
  rw [show (1 <<< 8 - 1) &&& 127 = 127 from rfl, show ((8 : Nat) : Int) = 8 from rfl]
  generalize u.uwbits >>> (u.uwnbits - 8).toNat &&& 127 = lit
  by_cases h32 : lit < 32
  · by_cases h24 : lit < 24
    · have h2 : (2 : Int) ≤ (u.drop 8).uwnbits := by simp only [State.drop]; omega
      simp only [if_pos h32, if_pos h24, shr_drop h8 (show (0 : Int) < 2 by omega) h2, @take_drop src (u.drop 8) 2 h2]
      exact ⟨_, _, rfl, rfl, h8.drop (by omega) h2, by rw [left_drop, left_drop]; omega⟩
    · have h3 : (3 : Int) ≤ (u.drop 8).uwnbits := by simp only [State.drop]; omega
      simp only [if_pos h32, if_neg h24, shr_drop h8 (show (0 : Int) < 3 by omega) h3, @take_drop src (u.drop 8) 3 h3]
      exact ⟨_, _, rfl, rfl, h8.drop (by omega) h3, by rw [left_drop, left_drop]; omega⟩
  · simp only [if_neg h32]
    exact ⟨lit, _, rfl, rfl, h8, Int.le_of_eq (left_drop 8)⟩

/-- The bits taken are no more than there are, and what is counted stays an `int`: twice the code and the length
at most double with each bit. -/
theorem bigLen_spec : ∀ (k : Nat) (len code use bits : Nat) (u : State), Fine src u → u.uwnbits < k → 1 ≤ use → 1 ≤ len → bits ≤ 1 →
    len + 2 * code < 2 ^ (30 - u.uwnbits.toNat) → u.uwnbits ≤ 26 →
    (bigLen k len code use bits u = .ok none ∧ unbigLoop k len code use bits (u.decoder src) = none) ∨
      ∃ len' : Nat, ∃ u', bigLen k len code use bits u = .ok (some ((len' : Int), u')) ∧
        unbigLoop k len code use bits (u.decoder src) = some (len', u'.decoder src) ∧ Fine src u' ∧
        u'.left src ≤ u.left src := by
  intro k
  induction k with
  | zero =>
    intro len code use bits u h hk
    have := h.low
    omega
  | succ k ih =>
    intro len code use bits u h hk huse hlen hbits hbound h26
    have hlow := h.low
    have hpow : 2 ^ (30 - u.uwnbits.toNat) ≤ 2 ^ 30 := Nat.pow_le_pow_right (by decide) (by omega)
    rw [bigLen, unbigLoop]
    by_cases hge : code ≥ use
    · have hlen' : int ((len : Int) + use) = .ok ((len + use : Nat) : Int) := by
        rw [int_ok (by omega) (by omega), Int.natCast_add]
      have hcode : shlInt ((code : Int) - use) 1 = .ok (((code - use) <<< 1 : Nat) : Int) := by
        rw [show (code : Int) - use = ((code - use : Nat) : Int) by omega]
        exact shlInt_ok (by decide) (by rw [Nat.shiftLeft_eq, Nat.pow_one]; omega)
      rw [if_pos (show (code : Int) ≥ use by omega), if_pos hge]
      rw [hlen', ok_bind, hcode, ok_bind]
      dsimp only
      by_cases h0 : u.uwnbits = 0
      · refine .inl ⟨?_, if_pos (by simp only [State.decoder]; omega)⟩
        rw [if_pos (by simp only [State.drop]; omega)]
        rfl
      have hdrop := @Fine.drop src u h 1 (by omega) (by omega)
      have hneg : ¬ (u.drop 1).uwnbits < 0 := by simp only [State.drop]; omega
      have hsome : ¬ (u.decoder src).uwnbits = 0 := by simp only [State.decoder]; omega
      rw [if_neg hneg, shr_drop h (by omega) (by omega), ok_bind, if_neg hsome, @take_drop src u 1 (by omega)]
      have hbit : u.uwbits >>> (u.uwnbits - 1).toNat &&& 1 ≤ 1 := Nat.and_le_right
      generalize u.uwbits >>> (u.uwnbits - 1).toNat &&& 1 = bit at hbit ⊢
      have huse' : shlInt (use : Int) bits = .ok ((use <<< bits : Nat) : Int) := by
        refine shlInt_ok (by omega) ?_
        obtain rfl | rfl : bits = 0 ∨ bits = 1 := by omega
        · omega
        · omega
      have hor : (code - use) <<< 1 ||| bit = (code - use) <<< 1 + bit := (Nat.shiftLeft_add_eq_or_of_lt (by omega) _).symm
      have hbits' : (if (bits : Int) = 0 then (1 : Int) else 0) = ((bits ^^^ 1 : Nat) : Int) := by
        obtain rfl | rfl : bits = 0 ∨ bits = 1 := by omega
        · rfl
        · rfl
      have hpow' : 2 ^ (30 - (u.drop 1).uwnbits.toNat) = 2 * 2 ^ (30 - u.uwnbits.toNat) := by
        rw [show 30 - (u.drop 1).uwnbits.toNat = 30 - u.uwnbits.toNat + 1 by simp only [State.drop]; omega, Nat.pow_succ]
        omega
      have hxor : bits ^^^ 1 ≤ 1 := by
        obtain rfl | rfl : bits = 0 ∨ bits = 1 := by omega
        · decide
        · decide
      have hshift : use ≤ use <<< bits := Nat.le_shiftLeft
      rw [huse', ok_bind, hor, hbits', ← Int.natCast_add]
      obtain ⟨hn, hn'⟩ | ⟨len', u', hr, hr', hfine, hleft⟩ := ih (len + use) ((code - use) <<< 1 + bit) (use <<< bits) (bits ^^^ 1)
        (u.drop 1) hdrop (by simp only [State.drop]; omega) (by omega) (by omega) hxor (by omega)
        (by simp only [State.drop]; omega)
      · exact .inl ⟨hn, hn'⟩
      · refine .inr ⟨len', u', hr, hr', hfine, ?_⟩
        rw [left_drop] at hleft
        omega
    · rw [if_neg (show ¬ (code : Int) ≥ use by omega), if_neg hge, int_ok (by omega) (by omega), ok_bind]
      exact .inr ⟨len + code, u, rfl, rfl, h, Int.le_refl _⟩

theorem decoder_drop {bits : Nat} (hle : (bits : Int) ≤ u.uwnbits) :
    (u.drop bits).decoder src = { u.decoder src with uwnbits := (u.decoder src).uwnbits - bits } := by
  simp only [State.decoder, State.drop]
  rw [show (u.uwnbits - bits).toNat = u.uwnbits.toNat - bits by omega]

/-- A length is short, or its code has four ones at the front. -/
theorem lenval_cases : ∀ v < 32, lenval.getD v 0 < 7 ∨ lenval.getD v 0 = 255 ∧ 30 ≤ v := by decide

theorem lenbits_le : ∀ len < 7, lenbits.getD len 0 ≤ 5 := by decide

theorem length_spec (h : Fine src u) (h25 : 25 ≤ u.uwnbits) {len : Nat}
    (hlen : lenval.getD (u.uwbits >>> (u.uwnbits - 5).toNat &&& 0x1f) 0 = len) :
    (length src len u = .ok none ∧ (u.decoder src).length len = none) ∨
      ∃ len' : Nat, ∃ u', length src len u = .ok (some ((len' : Int), u')) ∧
        (u.decoder src).length len = some (len', u'.decoder src) ∧ Fine src u' ∧ 17 ≤ u'.uwnbits ∧
        u'.left src ≤ u.left src := by
  have hhigh := h.high
  have hmod : u.uwbits >>> (u.uwnbits - 5).toNat &&& 0x1f = u.uwbits >>> (u.uwnbits - 5).toNat % 32 :=
    Nat.and_two_pow_sub_one_eq_mod _ 5
  rw [hmod] at hlen
  unfold length Decoder.length
  rcases lenval_cases _ (Nat.mod_lt (u.uwbits >>> (u.uwnbits - 5).toNat) (show 0 < 32 by decide)) with hshort | ⟨hbig, hv⟩
  · rw [hlen] at hshort
    have hbits := lenbits_le len hshort
    rw [if_pos (by omega), if_pos (by omega), index_getD hshort, ok_bind]
    refine .inr ⟨len, u.drop (lenbits.getD len 0 : Nat), rfl, ?_, h.drop (by omega) (by omega), ?_, ?_⟩
    · rw [decoder_drop (by omega)]
    · simp only [State.drop]
      omega
    · rw [left_drop]
      omega
  rw [hlen] at hbig
  subst hbig
  have h6 := @Fine.drop src u h 6 (by omega) (by omega)
  rw [if_neg (by decide), if_neg (by decide), show dBigLenBits = 6 from rfl, @take_drop src u 6 (by omega)]
  dsimp only
  rw [shr_drop h (show (0 : Int) < (6 : Nat) by decide) (by omega), ok_bind]
  rw [show 1 <<< 6 - 1 = 63 from rfl]
  -- the five bits looked up are the first of the six taken
  have hcode : u.uwbits >>> (u.uwnbits - (6 : Nat)).toNat &&& 63 = u.uwbits >>> (u.uwnbits - (6 : Nat)).toNat % 64 :=
    Nat.and_two_pow_sub_one_eq_mod _ 6
  have hhalf : u.uwbits >>> (u.uwnbits - 5).toNat = u.uwbits >>> (u.uwnbits - (6 : Nat)).toNat / 2 := by
    rw [show (u.uwnbits - 5).toNat = (u.uwnbits - (6 : Nat)).toNat + 1 by omega, Nat.shiftRight_succ]
  rw [hcode]
  generalize hx : u.uwbits >>> (u.uwnbits - (6 : Nat)).toNat % 64 = code at *
  rw [show (code : Int) - dBigLenCode = ((code - dBigLenCode : Nat) : Int) by unfold dBigLenCode; omega]
  have hpow : 2 ^ 4 ≤ 2 ^ (30 - (u.drop (6 : Nat)).uwnbits.toNat) :=
    Nat.pow_le_pow_right (by decide) (by simp only [State.drop]; omega)
  obtain ⟨hn, hn'⟩ | ⟨len', u', hr, hr', hfine, hleft⟩ := bigLen_spec 32 dMaxFastLen (code - dBigLenCode) dBigLenBase
    ((6 &&& 1) ^^^ 1) (u.drop (6 : Nat)) h6 (by simp only [State.drop]; omega) (by decide) (by decide) (by decide)
    (by unfold dMaxFastLen dBigLenCode; omega) (by simp only [State.drop]; omega)
  · refine .inl ⟨?_, ?_⟩
    · rw [hn, ok_bind]
      rfl
    · rw [hn']
  obtain ⟨u'', hfill, hfine', _, _, hdec⟩ := fill_spec hfine
  refine .inr ⟨len', u'', ?_, ?_, hfine', by omega, ?_⟩
  · rw [hr, ok_bind]
    dsimp only
    rw [hfill]
    rfl
  · rw [hr', hdec]
  · rw [left_drop] at hleft
    omega

theorem offbits_le : ∀ v < 16, 5 ≤ offbits.getD v 0 ∧ offbits.getD v 0 ≤ 13 := by decide

theorem offset_spec (h : Fine src u) (h17 : 17 ≤ u.uwnbits) :
    ∃ off u', offset u = .ok (off, u') ∧ (u.decoder src).offset = (off, u'.decoder src) ∧ Fine src u' ∧ 1 ≤ off ∧
      u'.left src ≤ u.left src - 8 := by
  have h4 := @Fine.drop src u h 4 (by omega) (by omega)
  have hlow : shr (u.drop 4).uwbits (u.drop 4).uwnbits = .ok (u.uwbits >>> (u.uwnbits - 4).toNat) :=
    shr_drop h (by decide) (by omega)
  unfold offset Decoder.offset
  rw [@take_drop src u 4 (by omega)]
  dsimp only
  rw [hlow, ok_bind, show 1 <<< 4 - 1 = 15 from rfl, show ((4 : Nat) : Int) = 4 from rfl]
  have hv : u.uwbits >>> (u.uwnbits - 4).toNat &&& 15 < 16 := Nat.lt_succ_of_le Nat.and_le_right
  generalize u.uwbits >>> (u.uwnbits - 4).toNat &&& 15 = v at hv
  obtain ⟨_, _⟩ := offbits_le v hv
  have hrest : ((offbits.getD v 0 : Nat) : Int) ≤ (u.drop 4).uwnbits := by
    simp only [State.drop]
    omega
  have hmask : shl 1 (offbits.getD v 0 : Nat) = .ok (1 <<< offbits.getD v 0) := by
    rw [shl_ok (by omega) (by omega), Int.toNat_natCast, Nat.mod_eq_of_lt]
    rw [Nat.one_shiftLeft]
    exact Nat.pow_lt_pow_right (by decide) (by omega)
  rw [index_getD hv, ok_bind, index_getD hv, ok_bind, shr_drop h4 (by omega) hrest, ok_bind, hmask, ok_bind,
    take_drop hrest]
  refine ⟨_, _, rfl, rfl, h4.drop (by omega) hrest, by omega, ?_⟩
  rw [left_drop, left_drop]
  omega

end

theorem copyBytes_eq {ndst off : Nat} (h0 : 1 ≤ off) : ∀ (len : Nat) (d : List UInt8), off ≤ d.length → d.length + len ≤ ndst →
    copyBytes ndst off len d = .ok (copy off len d) ∧ (copy off len d).length = d.length + len := by
  intro len
  induction len with
  | zero => intro d _ _; exact ⟨rfl, rfl⟩
  | succ len ih =>
    intro d hoff hroom
    have hlt : d.length - off < d.length := by omega
    have hindex : index .copy d ((d.length : Int) - off) = .ok (byteAt d (d.length - off)) := by
      rw [show (d.length : Int) - off = ((d.length - off : Nat) : Int) by omega, index_ok hlt, byteAt,
        List.getD_eq_getElem?_getD, List.getElem?_eq_getElem hlt, Option.getD_some]
    have hlen : (d ++ [byteAt d (d.length - off)]).length = d.length + 1 := by simp
    obtain ⟨hcopy, _⟩ := ih (d ++ [byteAt d (d.length - off)]) (by omega) (by omega)
    rw [copyBytes, hindex, ok_bind, put, if_pos (by omega), ok_bind, copy]
    exact ⟨hcopy, by omega⟩

/-! ## Runs -/

/-- What a round comes to, with its checks and without. -/
def Agree (src : List UInt8) (ndst : Nat) (u : State) :
    Except UnwhackErr (List UInt8 × Nat × State) → Except UnwhackErr (List UInt8 × Nat × Decoder) → Prop
  | .error e, r => r = .error e
  | .ok (d, lithist, u'), r => r = .ok (d, lithist, u'.decoder src) ∧ Fine src u' ∧ d.length ≤ ndst ∧ u'.left src ≤ u.left src - 8

section

variable {src : List UInt8} {u : State} {ndst : Nat} {d : List UInt8} {lithist : Nat}

theorem round_spec (h : Fine src u) :
    ∃ r, round src ndst d lithist u = .ok r ∧ Agree src ndst u r (unwhackRound ndst d lithist (u.decoder src)) := by
  obtain ⟨u1, hfill, h1, h25, _, hdec1⟩ := fill_spec h
  have hhigh := h1.high
  unfold round unwhackRound
  rw [hfill, ok_bind, ← hdec1, shr_ok (by omega) (by omega), ok_bind]
  have hpeek : (u1.decoder src).uwbits >>> ((u1.decoder src).uwnbits - 5) = u1.uwbits >>> (u1.uwnbits - 5).toNat := by
    simp only [State.decoder]
    rw [show u1.uwnbits.toNat - 5 = (u1.uwnbits - 5).toNat by omega]
  have h32 : u1.uwbits >>> (u1.uwnbits - 5).toNat &&& 0x1f < lenval.length := Nat.lt_succ_of_le Nat.and_le_right
  rw [index_getD h32, ok_bind]
  dsimp only
  rw [hpeek]
  generalize hlen : lenval.getD (u1.uwbits >>> (u1.uwnbits - 5).toNat &&& 0x1f) 0 = len
  by_cases h0 : len = 0
  · rw [if_pos h0, if_pos h0]
    obtain ⟨_, u2, hrun, hdec2, h2, hleft2⟩ := literal_spec h1 h25 lithist
    rw [hrun, ok_bind, hdec2]
    dsimp only
    by_cases hfull : d.length ≥ ndst
    · rw [if_pos hfull, if_pos hfull]
      exact ⟨_, rfl, rfl⟩
    rw [if_neg hfull, if_neg hfull, put, if_pos (by omega), ok_bind]
    refine ⟨_, rfl, rfl, h2, ?_, by omega⟩
    rw [List.length_append, List.length_singleton]
    omega
  rw [if_neg h0, if_neg h0]
  obtain ⟨hn, hn'⟩ | ⟨len', u2, hrun, hdec2, h2, h17, hleft2⟩ := length_spec h1 h25 hlen
  · rw [hn, ok_bind, hn']
    exact ⟨_, rfl, rfl⟩
  obtain ⟨off, _, hoff, hdec3, h3, hpos, _⟩ := offset_spec h2 h17
  rw [hrun, ok_bind, hdec2]
  dsimp only
  rw [hoff, ok_bind, hdec3]
  dsimp only
  by_cases hfar : off > d.length
  · rw [if_pos hfar, if_pos hfar]
    exact ⟨_, rfl, rfl⟩
  rw [if_neg hfar, if_neg hfar]
  by_cases hlong : d.length + len' > ndst
  · rw [if_pos hlong, if_pos (by omega)]
    exact ⟨_, rfl, rfl⟩
  · obtain ⟨hcopy, _⟩ := @copyBytes_eq ndst off hpos len' d (by omega) (by omega)
    rw [if_neg hlong, if_neg (by omega), Int.toNat_natCast, hcopy, ok_bind]
    exact ⟨_, rfl, rfl, h3, by omega, by omega⟩

/-- The loop goes on for both or for neither. -/
theorem more_iff (h : Fine src u) : (u.src < src.length ∨ u.uwnbits - u.overbits ≥ minDecode) ↔
    ((u.decoder src).src ≠ [] ∨ ((u.decoder src).uwnbits : Int) - (u.decoder src).overbits ≥ minDecode) := by
  have hlow := h.low
  have hphantom := h.phantom
  simp only [State.decoder, ne_eq, List.drop_eq_nil_iff, Int.toNat_of_nonneg hlow, Int.toNat_of_nonneg hphantom]
  omega

theorem more_left (h : Fine src u) (hmore : u.src < src.length ∨ u.uwnbits - u.overbits ≥ minDecode) : 8 ≤ u.left src := by
  have hlow := h.low
  have hplace := h.place
  have hnone := h.none
  simp only [State.left, minDecode] at *
  omega

theorem loop_stop (k : Nat) (lithist : Nat) (h : Fine src u) (hd : d.length ≤ ndst)
    (hstop : ¬ (u.src < src.length ∨ u.uwnbits - u.overbits ≥ minDecode)) :
    ∃ r, loop src ndst (k + 1) d lithist u = .ok r ∧ unwhackLoop ndst (k + 1) d lithist (u.decoder src) = some r ∧
      ∀ d', r = .ok d' → d'.length ≤ ndst := by
  have hlow := h.low
  rw [loop, if_neg hstop, unwhackLoop, if_neg fun hmore => hstop ((more_iff h).2 hmore)]
  by_cases hover : u.uwnbits < u.overbits
  · rw [if_pos hover, if_pos (by simp only [State.decoder]; omega)]
    exact ⟨_, rfl, rfl, nofun⟩
  rw [if_neg hover, if_neg (by simp only [State.decoder]; omega)]
  refine ⟨_, rfl, rfl, fun d' heq => ?_⟩
  cases heq
  exact hd

/-- A round takes eight bits, so there are no more rounds than bytes. -/
theorem loop_spec : ∀ (k : Nat) (d : List UInt8) (lithist : Nat) (u : State), Fine src u → d.length ≤ ndst →
    u.left src < 8 * (k + 1) → ∃ r, loop src ndst (k + 1) d lithist u = .ok r ∧
      unwhackLoop ndst (k + 1) d lithist (u.decoder src) = some r ∧ ∀ d', r = .ok d' → d'.length ≤ ndst := by
  intro k
  induction k with
  | zero =>
    intro d lithist u h hd hleft
    have hstop : ¬ (u.src < src.length ∨ u.uwnbits - u.overbits ≥ minDecode) := fun hmore => by
      have := more_left h hmore
      omega
    exact loop_stop 0 lithist h hd hstop
  | succ k ih =>
    intro d lithist u h hd hleft
    by_cases hmore : u.src < src.length ∨ u.uwnbits - u.overbits ≥ minDecode
    · obtain ⟨r, hrun, hagree⟩ := @round_spec src u ndst d lithist h
      rw [loop, if_pos hmore, hrun, ok_bind, unwhackLoop, if_pos ((more_iff h).1 hmore)]
      cases r with
      | error e =>
        rw [show unwhackRound ndst d lithist (u.decoder src) = .error e from hagree]
        exact ⟨_, rfl, rfl, nofun⟩
      | ok r =>
        obtain ⟨d', lithist', u'⟩ := r
        obtain ⟨heq, h', hd', _⟩ := hagree
        rw [heq]
        exact ih d' lithist' u' h' hd' (by omega)
    · exact loop_stop _ lithist h hd hmore

end

/-- `unwhack` runs to its end on any bytes with nothing out of range, and gives -1 or what there was room for. -/
theorem unwhack_safe (src : List UInt8) (ndst : Nat) :
    ∃ r, run ndst src = .ok r ∧ unwhack ndst src = some r ∧ ∀ d, r = .ok d → d.length ≤ ndst := by
  have hfine : Fine src ⟨0, 0, 0, 0⟩ := ⟨Nat.zero_le _, Int.le_refl 0, by decide, Int.le_refl 0, fun _ => rfl⟩
  exact loop_spec (src.length + 1) [] (2 ^ 32 - 1) ⟨0, 0, 0, 0⟩ hfine (Nat.zero_le _) (by
    simp only [State.left]
    omega)

end Plan9.Venti.Unwhack
