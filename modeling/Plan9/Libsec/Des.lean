/-
DES and triple DES of libsec, `des.c`, on one block.

The table `spbox` is a parameter, for the blocks come back whatever is in it.
-/
import Plan9.Lib.Feistel
import Mathlib.Tactic.Common
import Mathlib.Tactic.IntervalCases

namespace Plan9.Libsec

abbrev Uchar := BitVec 8

abbrev U32int := BitVec 32

/-- `((w << n) & up) | (w & stay) | ((w >> n) & down)`, which moves bits by `n` places. -/
def exchange (n : Nat) (up stay down w : U32int) : U32int := w <<< n &&& up ||| w &&& stay ||| w >>> n &&& down

def permute (w : U32int) : U32int :=
  exchange 12 0x0f0f0000 0xf0f00f0f 0x0000f0f0 (exchange 6 0x33003300 0xcc33cc33 0x00cc00cc w)

def word (a b c d : Uchar) : U32int := a.setWidth 32 ||| b.setWidth 32 <<< 8 ||| c.setWidth 32 <<< 16 ||| d.setWidth 32 <<< 24

/-- What both permutations do with two words. -/
def permutation : U32int × U32int → U32int × U32int
  | (a, b) => (permute (a <<< 1 &&& 0xaaaaaaaa ||| b &&& 0x55555555), permute (a &&& (0xaaaaaaaa : U32int) ||| b >>> 1 &&& 0x55555555))

/-- The initial permutation, to `left` and `right`. -/
def initial (text : Vector Uchar 8) : U32int × U32int :=
  permutation (word text[1] text[3] text[5] text[7], word text[0] text[2] text[4] text[6])

/-- The final permutation, inverse initial permutation. -/
def final (s : U32int × U32int) : Vector Uchar 8 :=
  match permutation s with
  | (v0, v1) =>
    #v[v0.setWidth 8, v1.setWidth 8, (v0 >>> 8).setWidth 8, (v1 >>> 8).setWidth 8,
      (v0 >>> 16).setWidth 8, (v1 >>> 16).setWidth 8, (v0 >>> 24).setWidth 8, (v1 >>> 24).setWidth 8]

section
variable (spbox : Nat → U32int)

def fetch (box : Nat) (i : U32int) (sh : Nat) : U32int := spbox (box * 64 + (i >>> (sh + 2) &&& 0x3f).toNat)

/-- What the one half is changed by. -/
def mangled (key : U32int × U32int) (half : U32int) : U32int :=
  let v0 := key.1 ^^^ (half >>> 1 ||| half <<< 31)
  let v1 := key.2 ^^^ (half <<< 3 ||| half >>> 29)
  fetch spbox 0 v0 24 ^^^ fetch spbox 2 v0 16 ^^^ fetch spbox 4 v0 8 ^^^ fetch spbox 6 v0 0 ^^^
    (fetch spbox 1 v1 24 ^^^ fetch spbox 3 v1 16 ^^^ fetch spbox 5 v1 8 ^^^ fetch spbox 7 v1 0)

/-- The loop, with `i` rounds of two to go and `key` at `k`. -/
def rounds (key : Nat → U32int) (keystep : Int) : Nat → Int → U32int × U32int → U32int × U32int
  | 0, _, s => s
  | i + 1, k, (left, right) =>
    let left := left ^^^ mangled spbox (key k.toNat, key (k.toNat + 1)) right
    let k := k + keystep
    let right := right ^^^ mangled spbox (key k.toNat, key (k.toNat + 1)) left
    rounds key keystep i (k + keystep) (left, right)

def keyed (key : Nat → U32int) (decrypting : Bool) : U32int × U32int → U32int × U32int :=
  if decrypting then rounds spbox key (-2) 8 (32 - 2) else rounds spbox key 2 8 0

def block_cipher (key : Nat → U32int) (text : Vector Uchar 8) (decrypting : Bool) : Vector Uchar 8 :=
  final (keyed spbox key decrypting (initial text))

/-- `ende` is one of `DES3EEE`, 0, `DES3EDE`, 2, `DES3DED`, 5 and `DES3DDD`, 7. -/
def triple_block_cipher (expanded_key : Nat → Nat → U32int) (text : Vector Uchar 8) (ende : Nat) : Vector Uchar 8 :=
  final ([0, 1, 2].foldl (fun s j =>
    (if (ende >>> j) % 2 = 1 then keyed spbox (expanded_key (2 - j)) true s else keyed spbox (expanded_key j) false s).swap)
    (initial text)).swap
end

/-- Where the bit comes from that `exchange` puts at `i`. -/
def source (n : Nat) (up down : U32int) (i : Nat) : Nat :=
  if up.getLsbD i then i - n else if down.getLsbD i then i + n else i

theorem getLsbD_exchange {n i : Nat} {up stay down : U32int} (hi : i < 32) (hup : up.getLsbD i → n ≤ i ∧ down.getLsbD i = false)
    (hstay : stay.getLsbD i = !(up.getLsbD i || down.getLsbD i)) (w : U32int) :
    (exchange n up stay down w).getLsbD i = w.getLsbD (source n up down i) := by
  simp only [exchange, source, BitVec.getLsbD_or, BitVec.getLsbD_and, BitVec.getLsbD_shiftLeft, BitVec.getLsbD_ushiftRight, hstay]
  generalize up.getLsbD i = u, down.getLsbD i = d at *
  cases u <;> cases d <;> simp_all [Nat.add_comm]

/-- Where the bit comes from that `permute` puts at `i`. -/
def place (i : Nat) : Nat := source 6 0x33003300 0x00cc00cc (source 12 0x0f0f0000 0x0000f0f0 i)

theorem getLsbD_permute {i : Nat} (hi : i < 32) (w : U32int) : (permute w).getLsbD i = w.getLsbD (place i) := by
  have hmasks : ∀ i < 32, ((0x0f0f0000 : U32int).getLsbD i → 12 ≤ i ∧ (0x0000f0f0 : U32int).getLsbD i = false) ∧
      (0xf0f00f0f : U32int).getLsbD i = !((0x0f0f0000 : U32int).getLsbD i || (0x0000f0f0 : U32int).getLsbD i) ∧
      ((0x33003300 : U32int).getLsbD i → 6 ≤ i ∧ (0x00cc00cc : U32int).getLsbD i = false) ∧
      (0xcc33cc33 : U32int).getLsbD i = !((0x33003300 : U32int).getLsbD i || (0x00cc00cc : U32int).getLsbD i) ∧
      source 12 0x0f0f0000 0x0000f0f0 i < 32 := by decide
  obtain ⟨hup, hstay, -, -, hlt⟩ := hmasks i hi
  obtain ⟨-, -, hup', hstay', -⟩ := hmasks _ hlt
  rw [permute, getLsbD_exchange hi hup hstay, getLsbD_exchange hlt hup' hstay', place]

theorem getLsbD_odd {i : Nat} (hi : i < 32) (x y : U32int) :
    (x &&& 0xaaaaaaaa ||| y &&& 0x55555555).getLsbD i = if i % 2 = 1 then x.getLsbD i else y.getLsbD i := by
  have hmasks : ∀ i < 32, (0xaaaaaaaa : U32int).getLsbD i = decide (i % 2 = 1) ∧ (0x55555555 : U32int).getLsbD i = decide (i % 2 ≠ 1) := by decide
  simp only [BitVec.getLsbD_or, BitVec.getLsbD_and, hmasks i hi]
  split <;> simp [*]

theorem place_facts : ∀ i < 32, place i < 32 ∧ place (place i) = i ∧ place i % 2 = i % 2 ∧ (i % 2 = 1 → place (place i - 1) = i - 1) ∧
    (i % 2 ≠ 1 → 1 + place i < 32 ∧ place (1 + place i) = i + 1) := by decide

theorem permutation_permutation (s : U32int × U32int) : permutation (permutation s).swap = s.swap := by
  obtain ⟨a, b⟩ := s
  refine Prod.ext (BitVec.eq_of_getLsbD_eq fun i hi => ?_) (BitVec.eq_of_getLsbD_eq fun i hi => ?_)
  all_goals
    obtain ⟨hlt, hself, hpar, hodd, heven⟩ := place_facts i hi
    simp only [permutation, Prod.swap_prod_mk, getLsbD_permute hi, getLsbD_odd hlt, hpar]
    split
  · rename_i h
    rw [BitVec.getLsbD_shiftLeft, getLsbD_permute (by omega), hodd h, getLsbD_odd (by omega), if_neg (by omega), BitVec.getLsbD_ushiftRight]
    simp [hlt, show 1 + (i - 1) = i by omega, show place i ≠ 0 by omega]
  · rename_i h
    rw [getLsbD_permute hlt, hself, getLsbD_odd hi, if_neg h]
  · rename_i h
    rw [getLsbD_permute hlt, hself, getLsbD_odd hi, if_pos h]
  · rename_i h
    rw [BitVec.getLsbD_ushiftRight, getLsbD_permute (heven h).1, (heven h).2, getLsbD_odd (by omega), if_pos (by omega), BitVec.getLsbD_shiftLeft]
    simp [show i + 1 < 32 by omega]

theorem word_bytes (v : U32int) : word (v.setWidth 8) ((v >>> 8).setWidth 8) ((v >>> 16).setWidth 8) ((v >>> 24).setWidth 8) = v := by
  ext i hi
  simp [word, ← BitVec.getLsbD_eq_getElem]
  grind

theorem bytes_word (a b c d : Uchar) :
    (word a b c d).setWidth 8 = a ∧ (word a b c d >>> 8).setWidth 8 = b ∧ (word a b c d >>> 16).setWidth 8 = c ∧ (word a b c d >>> 24).setWidth 8 = d := by
  refine ⟨?_, ?_, ?_, ?_⟩ <;> ext i hi <;> simp [word] <;> grind

theorem final_initial (text : Vector Uchar 8) : final (initial text).swap = text := by
  rw [final, initial, permutation_permutation]
  simp only [Prod.fst_swap, Prod.snd_swap, bytes_word]
  ext i hi
  interval_cases i <;> rfl

theorem toList_eight (v : Vector Uchar 8) : v.toList = [v[0], v[1], v[2], v[3], v[4], v[5], v[6], v[7]] := by
  refine List.ext_getElem (by simp) fun i hi _ => ?_
  rw [Vector.length_toList] at hi
  interval_cases i <;> simp

theorem eta (v : Vector Uchar 8) : #v[v[0], v[1], v[2], v[3], v[4], v[5], v[6], v[7]] = v := by
  ext i hi
  interval_cases i <;> rfl

theorem initial_final (s : U32int × U32int) : initial (final s) = s.swap := by
  have hwords : initial (final s) = permutation (permutation s).swap := congrArg permutation (Prod.ext (word_bytes _) (word_bytes _))
  rw [hwords, permutation_permutation]

/-- The keys of `n` rounds, from `k` on. -/
def subkeys (key : Nat → U32int) (keystep : Int) : Nat → Int → List (U32int × U32int)
  | 0, _ => []
  | n + 1, k => (key k.toNat, key (k.toNat + 1)) :: subkeys key keystep n (k + keystep)

variable {spbox : Nat → U32int} {key : Nat → U32int}

theorem rounds_eq (keystep : Int) (i : Nat) (k : Int) (s : U32int × U32int) :
    rounds spbox key keystep i k s = Feistel.run (· ^^^ ·) (mangled spbox) (subkeys key keystep (2 * i) k) s := by
  induction i generalizing k s with
  | zero => rfl
  | succ i ih => exact ih _ _

theorem keyed_eq (decrypting : Bool) : keyed spbox key decrypting = Feistel.run (· ^^^ ·) (mangled spbox)
    (if decrypting then (subkeys key 2 16 0).reverse else subkeys key 2 16 0) := by
  funext s
  cases decrypting with
  | false => exact rounds_eq 2 8 0 s
  | true => exact rounds_eq (-2) 8 30 s

@[simp] theorem keyed_keyed (decrypting : Bool) (s : U32int × U32int) :
    keyed spbox key decrypting (keyed spbox key (!decrypting) s).swap = s.swap := by
  have hrun := fun ks => Feistel.run_reverse (· ^^^ ·) (mangled spbox) (fun a b : U32int => by simp [BitVec.xor_assoc]) ks s
  rw [keyed_eq, keyed_eq]
  cases decrypting with
  | false => simpa using hrun (subkeys key 2 16 0).reverse
  | true => exact hrun (subkeys key 2 16 0)

/-- Each direction of DES undoes the other, with any key and any tables. -/
theorem block_cipher_undone (text : Vector Uchar 8) (decrypting : Bool) :
    block_cipher spbox key (block_cipher spbox key text (!decrypting)) decrypting = text := by
  rw [block_cipher, block_cipher, initial_final, keyed_keyed, final_initial]

/-- The modes of triple DES undo one another. -/
theorem triple_block_cipher_undone {expanded_key : Nat → Nat → U32int} {text : Vector Uchar 8} {ende : Nat} (hende : ende ∈ [0, 2, 5, 7]) :
    triple_block_cipher spbox expanded_key (triple_block_cipher spbox expanded_key text ende) (7 - ende) = text := by
  have hpass : ∀ key decrypting s, (keyed spbox key decrypting (keyed spbox key (!decrypting) s).swap).swap = s := by simp
  have hforth := fun key => hpass key true
  have hback := fun key => hpass key false
  simp only [Bool.not_true, Bool.not_false] at hforth hback
  rw [triple_block_cipher, triple_block_cipher, initial_final]
  simp only [List.mem_cons, List.not_mem_nil, or_false] at hende
  rcases hende with rfl | rfl | rfl | rfl <;> simp [hforth, hback, final_initial]

end Plan9.Libsec
