/-
The temporary file that acme's texts are kept in, as `disk.c` has it, and what is where
in it.

Addresses are in runes. `addr` in `Disk` is the length of the file as it would be; what
a block is given of it is a `uint` of bytes, so the file wraps at `ADDRS`. A block is
its value: it is in one array of blocks or on one free list, where `next` has the place
of `n`. The file takes every write and gives what has been written.

While the file has not wrapped, blocks of different addresses share no runes (`Laid`):
what is written to one leaves the others as they are. What follows from the numbers of
runes alone does not depend on it.
-/
import Mathlib.Data.List.Perm.Basic
import Plan9.Lib.Outcome

namespace Plan9.Acme

open Function List

abbrev Rune := UInt32

def Maxblock : Nat := 16 * 1024

def Blockincr : Nat := 256

/-- How many runes a `uint` of bytes addresses. -/
def ADDRS : Nat := 2 ^ 32 / 4

structure Block where
  addr : Nat
  n : Nat
  deriving DecidableEq, Repr

structure Disk where
  addr : Nat
  free : Nat → List Nat
  file : Nat → Rune
  eof : Nat

/-- The size of the block, and which free list is for it. -/
def ntosize (n : Nat) : Except String (Nat × Nat) :=
  if n > Maxblock then .error "internal error: ntosize"
  else
    let size := if n &&& (Blockincr - 1) ≠ 0 then n + (Blockincr - (n &&& (Blockincr - 1))) else n
    .ok (size, size / Blockincr)

def disknewblock (d : Disk) (n : Nat) : Except String (Block × Disk) := do
  let (size, i) ← ntosize n
  match d.free i with
  | a :: as => return (⟨a, n⟩, { d with free := Function.update d.free i as })
  | [] => return (⟨d.addr % ADDRS, n⟩, { d with addr := d.addr + size })

def diskrelease (d : Disk) (b : Block) : Except String Disk := do
  let (_, i) ← ntosize b.n
  return { d with free := Function.update d.free i (b.addr :: d.free i) }

def pwrite (d : Disk) (r : List Rune) (addr : Nat) : Disk :=
  { d with
    file := fun x => if addr ≤ x ∧ x < addr + r.length then r.getD (x - addr) 0 else d.file x
    eof := max d.eof (addr + r.length) }

/-- The block may be another one afterwards. -/
def diskwrite (d : Disk) (b : Block) (r : List Rune) : Except String (Block × Disk) := do
  let (size, _) ← ntosize b.n
  let (nsize, _) ← ntosize r.length
  let (b, d) ← (if size ≠ nsize then diskrelease d b >>= fun d => disknewblock d r.length else .ok (b, d))
  return (⟨b.addr, r.length⟩, pwrite d r b.addr)

def diskread (d : Disk) (b : Block) (n : Nat) : Except String (List Rune) := do
  if n > b.n then throw "internal error: diskread"
  let _ ← ntosize b.n
  if n ≠ 0 ∧ b.addr + n > d.eof then throw "read error from temp file"
  return (List.range n).map fun i => d.file (b.addr + i)

/-! ## Sizes -/

/-- The runes that a block of `n` has room for. -/
def roundup (n : Nat) : Nat := if n % Blockincr ≠ 0 then n + (Blockincr - n % Blockincr) else n

variable {size : Nat → Nat} {k : Block} {n a : Nat} {r : List Rune}

theorem ntosize_ok (h : n ≤ Maxblock) : ntosize n = .ok (roundup n, roundup n / Blockincr) := by
  have hand : n &&& (Blockincr - 1) = n % Blockincr := Nat.and_two_pow_sub_one_eq_mod n 8
  rw [ntosize, if_neg (Nat.not_lt.2 h), hand]
  rfl

theorem le_roundup (n : Nat) : n ≤ roundup n := by
  rw [roundup]
  split <;> omega

theorem roundup_div (n : Nat) : roundup n / Blockincr * Blockincr = roundup n := by
  rw [roundup, Blockincr]
  split <;> omega

/-! ## What is where -/

/-- The runes of a block that has been written. -/
def content (d : Disk) (k : Block) : List Rune := (List.range k.n).map fun i => d.file (k.addr + i)

def Written (d : Disk) (k : Block) : Prop := k.addr + k.n ≤ d.eof

/-- A block that a buffer may have. -/
def Sound (k : Block) : Prop := 0 < k.n ∧ k.n ≤ Maxblock

/-- `size a` is the room of the block at `a`, if there is one there. A block is one's own, one of the others' (`O`),
or free. -/
structure Laid (d : Disk) (size : Nat → Nat) (own : List Block) (O : Block → Prop) : Prop where
  below : ∀ a, size a ≠ 0 → a + size a ≤ d.addr
  apart : ∀ a a', size a ≠ 0 → size a' ≠ 0 → a < a' → a + size a ≤ a'
  mine : ∀ k ∈ own, size k.addr = roundup k.n
  nodup : (own.map Block.addr).Nodup
  free : ∀ i, ∀ a ∈ d.free i, size a = i * Blockincr ∧ 0 < i
  freeNodup : ∀ i, (d.free i).Nodup
  freeMine : ∀ k ∈ own, ∀ i, k.addr ∉ d.free i
  others : ∀ k, O k → Sound k ∧ size k.addr = roundup k.n ∧ k.addr ∉ own.map Block.addr ∧ ∀ i, k.addr ∉ d.free i

/-- What is known of the disk since `d₀`, with the blocks `own` of the buffer at work. -/
structure Since (d₀ : Disk) (O : Block → Prop) (d : Disk) (own : List Block) : Prop where
  addr : d₀.addr ≤ d.addr
  eof : d₀.eof ≤ d.eof
  sound : ∀ k ∈ own, Sound k
  laid : d.addr ≤ ADDRS → (∃ size, Laid d size own O) ∧ ∀ k, O k → content d k = content d₀ k

theorem Laid.perm {d : Disk} {own own' : List Block} {O : Block → Prop} (h : Laid d size own O)
    (hp : own.Perm own') : Laid d size own' O := by
  have hmem : ∀ k, k ∈ own' → k ∈ own := fun k hk => hp.symm.subset hk
  refine ⟨h.below, h.apart, fun k hk => h.mine k (hmem k hk), ?_, h.free, h.freeNodup,
    fun k hk => h.freeMine k (hmem k hk), ?_⟩
  · exact (hp.map Block.addr).nodup_iff.1 h.nodup
  · intro k hk
    obtain ⟨hs, hsize, hown, hfree⟩ := h.others k hk
    exact ⟨hs, hsize, fun hm => hown ((hp.map Block.addr).symm.subset hm), hfree⟩

theorem Since.perm {d₀ d : Disk} {own own' : List Block} {O : Block → Prop} (h : Since d₀ O d own)
    (hp : own.Perm own') : Since d₀ O d own' := by
  refine ⟨h.addr, h.eof, fun k hk => h.sound k (hp.symm.subset hk), ?_⟩
  intro hle
  obtain ⟨⟨size, hlaid⟩, hother⟩ := h.laid hle
  exact ⟨⟨size, hlaid.perm hp⟩, hother⟩

theorem Laid.disjoint {d : Disk} {own : List Block} {O : Block → Prop} (h : Laid d size own O)
    {a' : Nat} (ha : size a ≠ 0) (ha' : size a' ≠ 0) (hne : a ≠ a') : a + size a ≤ a' ∨ a' + size a' ≤ a := by
  rcases Nat.lt_or_gt_of_ne hne with hlt | hlt
  · exact .inl (h.apart a a' ha ha' hlt)
  · exact .inr (h.apart a' a ha' ha hlt)

theorem roundup_pos (h : Sound k) : roundup k.n ≠ 0 := by
  have := le_roundup k.n
  have := h.1
  omega

/-! ## What the functions do -/

/-- It fails no check, and gives what `Q` holds of. -/
abbrev Gives {α : Type} (Q : α → Prop) (x : Except String α) : Prop := Outcome (fun _ => False) Q x

section

variable {d₀ d : Disk} {O : Block → Prop} {own : List Block}

theorem Laid.take {i : Nat} {as : List Nat} (h : Laid d size own O) (hi : i = roundup n / Blockincr)
    (hfree : d.free i = a :: as) :
    Laid { d with free := update d.free i as } size (⟨a, n⟩ :: own) O := by
  obtain ⟨ha, hpos⟩ := h.free i a (by rw [hfree]; exact mem_cons_self)
  have hsize : size a = roundup n := by rw [ha, hi, roundup_div]
  have hmine : a ∉ own.map Block.addr := by
    intro hm
    obtain ⟨k, hk, rfl⟩ := mem_map.1 hm
    exact h.freeMine k hk i (by rw [hfree]; exact mem_cons_self)
  have hnd := h.freeNodup i
  rw [hfree, nodup_cons] at hnd
  have hsub : ∀ j, ∀ x ∈ update d.free i as j, x ∈ d.free j := by
    intro j x hx
    by_cases hj : j = i
    · rw [hj, update_self] at hx
      rw [hj, hfree]
      exact mem_cons_of_mem a hx
    · rw [update_of_ne hj] at hx
      exact hx
  have hgone : ∀ j, a ∉ update d.free i as j := by
    intro j hm
    by_cases hj : j = i
    · rw [hj, update_self] at hm
      exact hnd.1 hm
    have := (h.free j a (hsub j a hm)).1
    rw [ha] at this
    have hb : 0 < Blockincr := by decide
    exact hj (Nat.eq_of_mul_eq_mul_right hb this).symm
  refine ⟨h.below, h.apart, ?_, ?_, fun j x hx => h.free j x (hsub j x hx), ?_, ?_, ?_⟩
  · intro k hk
    rcases mem_cons.1 hk with rfl | hk
    · exact hsize
    · exact h.mine k hk
  · rw [map_cons, nodup_cons]
    exact ⟨hmine, h.nodup⟩
  · intro j
    by_cases hj : j = i
    · change (update d.free i as j).Nodup
      rw [hj, update_self]
      exact hnd.2
    · change (update d.free i as j).Nodup
      rw [update_of_ne hj]
      exact h.freeNodup j
  · intro k hk j hm
    rcases mem_cons.1 hk with rfl | hk
    · exact hgone j hm
    · exact h.freeMine k hk j (hsub j _ hm)
  intro k hk
  obtain ⟨hs, hksize, hkmine, hkfree⟩ := h.others k hk
  refine ⟨hs, hksize, ?_, fun j hm => hkfree j (hsub j _ hm)⟩
  rw [map_cons, mem_cons, not_or]
  refine ⟨?_, hkmine⟩
  intro he
  refine hkfree i ?_
  rw [he, hfree]
  exact mem_cons_self

theorem Laid.extend (h : Laid d size own O) (hs : ∀ k ∈ own, Sound k) (hn : 0 < n)
    (hle : d.addr + roundup n ≤ ADDRS) :
    Laid { d with addr := d.addr + roundup n } (update size d.addr (roundup n)) (⟨d.addr % ADDRS, n⟩ :: own) O := by
  have hpos : 0 < roundup n := Nat.lt_of_lt_of_le hn (le_roundup n)
  have haddr : d.addr % ADDRS = d.addr := Nat.mod_eq_of_lt (by omega)
  -- there has been no block at the end
  have hne : ∀ a, size a ≠ 0 → a ≠ d.addr := by
    intro a ha he
    have := h.below a ha
    omega
  have hold : ∀ a, size a ≠ 0 → update size d.addr (roundup n) a = size a :=
    fun a ha => update_of_ne (hne a ha) _ _
  have hmine : ∀ k ∈ own, size k.addr ≠ 0 := by
    intro k hk
    rw [h.mine k hk]
    exact roundup_pos (hs k hk)
  have hfree : ∀ i, ∀ a ∈ d.free i, size a ≠ 0 := by
    intro i a ha
    obtain ⟨hsize, hi⟩ := h.free i a ha
    rw [hsize]
    exact Nat.mul_ne_zero (by omega) (by decide)
  have hother : ∀ k, O k → size k.addr ≠ 0 := by
    intro k hk
    obtain ⟨hsound, hsize, -⟩ := h.others k hk
    rw [hsize]
    exact roundup_pos hsound
  have hsplit : ∀ a, update size d.addr (roundup n) a ≠ 0 → a = d.addr ∨ size a ≠ 0 := by
    intro a ha
    by_cases he : a = d.addr
    · exact .inl he
    · rw [update_of_ne he] at ha
      exact .inr ha
  rw [haddr]
  refine ⟨?_, ?_, ?_, ?_, ?_, h.freeNodup, ?_, ?_⟩
  · intro a ha
    rcases hsplit a ha with rfl | ha
    · exact Nat.le_of_eq (congrArg (_ + ·) (update_self ..))
    · rw [hold a ha]
      exact Nat.le_trans (h.below a ha) (Nat.le_add_right _ _)
  · intro a a' ha ha' hlt
    rcases hsplit a ha with rfl | ha
    · rcases hsplit a' ha' with rfl | ha'
      · exact absurd hlt (Nat.lt_irrefl _)
      · have := h.below a' ha'
        omega
    rw [hold a ha]
    rcases hsplit a' ha' with rfl | ha'
    · exact h.below a ha
    · exact h.apart a a' ha ha' hlt
  · intro k hk
    rcases mem_cons.1 hk with rfl | hk
    · exact update_self ..
    · rw [hold _ (hmine k hk)]
      exact h.mine k hk
  · rw [map_cons, nodup_cons]
    refine ⟨?_, h.nodup⟩
    intro hm
    obtain ⟨k, hk, hka⟩ := mem_map.1 hm
    exact hne _ (hmine k hk) hka
  · intro i a ha
    rw [hold a (hfree i a ha)]
    exact h.free i a ha
  · intro k hk i hm
    rcases mem_cons.1 hk with rfl | hk
    · exact hne _ (hfree i _ hm) rfl
    · exact h.freeMine k hk i hm
  intro k hk
  obtain ⟨hsound, hsize, hkmine, hkfree⟩ := h.others k hk
  refine ⟨hsound, ?_, ?_, hkfree⟩
  · rw [hold _ (hother k hk)]
    exact hsize
  · rw [map_cons, mem_cons, not_or]
    exact ⟨hne _ (hother k hk), hkmine⟩

theorem Laid.release {i : Nat} (h : Laid d size (k :: own) O) (hs : Sound k)
    (hi : i = roundup k.n / Blockincr) :
    Laid { d with free := update d.free i (k.addr :: d.free i) } size own O := by
  have hnd := h.nodup
  rw [map_cons, nodup_cons] at hnd
  have hsize : size k.addr = i * Blockincr := by rw [h.mine k mem_cons_self, hi, roundup_div]
  have hpos : 0 < i := by
    have hne := roundup_pos hs
    rw [← roundup_div, ← hi] at hne
    exact Nat.pos_of_ne_zero fun he => hne (by rw [he, Nat.zero_mul])
  have hsplit : ∀ j, ∀ x ∈ update d.free i (k.addr :: d.free i) j, x = k.addr ∧ j = i ∨ x ∈ d.free j := by
    intro j x hx
    by_cases hj : j = i
    · rw [hj, update_self, mem_cons] at hx
      rcases hx with hx | hx
      · exact .inl ⟨hx, hj⟩
      · exact .inr (hj ▸ hx)
    · rw [update_of_ne hj] at hx
      exact .inr hx
  refine ⟨h.below, h.apart, fun k' hk' => h.mine k' (mem_cons_of_mem _ hk'), hnd.2, ?_, ?_, ?_, ?_⟩
  · intro j x hx
    rcases hsplit j x hx with ⟨rfl, rfl⟩ | hx
    · exact ⟨hsize, hpos⟩
    · exact h.free j x hx
  · intro j
    change (update d.free i (k.addr :: d.free i) j).Nodup
    by_cases hj : j = i
    · rw [hj, update_self, nodup_cons]
      exact ⟨h.freeMine k mem_cons_self i, h.freeNodup i⟩
    · rw [update_of_ne hj]
      exact h.freeNodup j
  · intro k' hk' j hm
    rcases hsplit j _ hm with ⟨he, -⟩ | hm
    · exact hnd.1 (he ▸ mem_map_of_mem hk')
    · exact h.freeMine k' (mem_cons_of_mem _ hk') j hm
  intro k' hk'
  obtain ⟨hsound, hksize, hkmine, hkfree⟩ := h.others k' hk'
  rw [map_cons, mem_cons, not_or] at hkmine
  refine ⟨hsound, hksize, hkmine.2, ?_⟩
  intro j hm
  rcases hsplit j _ hm with ⟨he, -⟩ | hm
  · exact hkmine.1 he
  · exact hkfree j hm

theorem disknewblock_spec (h : Since d₀ O d own) (hn : 0 < n) (hmax : n ≤ Maxblock) :
    Gives (fun x => x.1.n = n ∧ Since d₀ O x.2 (x.1 :: own) ∧ x.2.file = d.file ∧ x.2.eof = d.eof ∧ d.addr ≤ x.2.addr)
      (disknewblock d n) := by
  have hsound : ∀ a, ∀ k ∈ (⟨a, n⟩ : Block) :: own, Sound k := by
    intro a k hk
    rcases mem_cons.1 hk with rfl | hk
    · exact ⟨hn, hmax⟩
    · exact h.sound k hk
  rw [disknewblock, ntosize_ok hmax]
  change Gives _ (match d.free (roundup n / Blockincr) with
    | a :: as => _
    | [] => _)
  cases hfree : d.free (roundup n / Blockincr) with
  | cons a as =>
    refine Outcome.ok ⟨rfl, ⟨h.addr, h.eof, hsound a, ?_⟩, rfl, rfl, le_rfl⟩
    intro hle
    obtain ⟨⟨size, hlaid⟩, hother⟩ := h.laid hle
    exact ⟨⟨size, hlaid.take rfl hfree⟩, hother⟩
  | nil =>
    refine Outcome.ok ⟨rfl, ⟨Nat.le_trans h.addr (Nat.le_add_right _ _), h.eof, hsound _, ?_⟩, rfl, rfl, Nat.le_add_right _ _⟩
    intro hle
    obtain ⟨⟨size, hlaid⟩, hother⟩ := h.laid (Nat.le_trans (Nat.le_add_right _ _) hle)
    exact ⟨⟨_, hlaid.extend h.sound hn hle⟩, hother⟩

theorem diskrelease_spec (h : Since d₀ O d (k :: own)) :
    Gives (fun d' => Since d₀ O d' own ∧ d'.file = d.file ∧ d'.eof = d.eof ∧ d'.addr = d.addr) (diskrelease d k) := by
  have hs := h.sound k mem_cons_self
  rw [diskrelease, ntosize_ok hs.2]
  refine Outcome.ok ⟨⟨h.addr, h.eof, fun k' hk' => h.sound k' (mem_cons_of_mem _ hk'), ?_⟩, rfl, rfl, rfl⟩
  intro hle
  obtain ⟨⟨size, hlaid⟩, hother⟩ := h.laid hle
  exact ⟨⟨size, hlaid.release hs rfl⟩, hother⟩

/-! ## Reading and writing -/

theorem content_pwrite_self (r : List Rune) (a : Nat) : content (pwrite d r a) ⟨a, r.length⟩ = r := by
  refine ext_getElem ?_ ?_
  · rw [content, length_map, length_range]
  intro i h1 h2
  simp only [content, getElem_map, getElem_range]
  change (if a ≤ a + i ∧ a + i < a + r.length then r.getD (a + i - a) 0 else d.file (a + i)) = r[i]
  rw [if_pos ⟨Nat.le_add_right a i, by omega⟩, Nat.add_sub_cancel_left, getD_eq_getElem?_getD,
    getElem?_eq_getElem h2, Option.getD_some]

theorem content_pwrite (h : a + r.length ≤ k.addr ∨ k.addr + k.n ≤ a) :
    content (pwrite d r a) k = content d k := by
  refine map_congr_left ?_
  intro i hi
  have hi := mem_range.1 hi
  exact if_neg (by omega)

theorem Since.pwrite (h : Since d₀ O d (k :: own)) (hpos : 0 < r.length)
    (hround : roundup r.length = roundup k.n) (hmax : r.length ≤ Maxblock) :
    Since d₀ O (pwrite d r k.addr) (⟨k.addr, r.length⟩ :: own) ∧
      (d.addr ≤ ADDRS → ∀ k' ∈ own, content (Acme.pwrite d r k.addr) k' = content d k') := by
  -- the blocks at other addresses are clear of it
  have hclear : ∀ {size : Nat → Nat} {k' : Block}, Laid d size (k :: own) O → Sound k' → size k'.addr = roundup k'.n →
      k'.addr ≠ k.addr → content (Acme.pwrite d r k.addr) k' = content d k' := by
    intro size k' hlaid hs hsize hne
    have hk := hlaid.mine k mem_cons_self
    have hle := le_roundup r.length
    have hle' := le_roundup k'.n
    have hkne : size k.addr ≠ 0 := by rw [hk]; omega
    have hk'ne : size k'.addr ≠ 0 := by rw [hsize]; exact roundup_pos hs
    refine content_pwrite ?_
    rcases hlaid.disjoint hkne hk'ne hne.symm with hd | hd
    · exact .inl (by omega)
    · exact .inr (by omega)
  refine ⟨⟨h.addr, Nat.le_trans h.eof (Nat.le_max_left _ _), ?_, ?_⟩, ?_⟩
  · intro k' hk'
    rcases mem_cons.1 hk' with rfl | hk'
    · exact ⟨hpos, hmax⟩
    · exact h.sound k' (mem_cons_of_mem _ hk')
  · intro hle
    obtain ⟨⟨size, hlaid⟩, hother⟩ := h.laid hle
    refine ⟨⟨size, hlaid.below, hlaid.apart, ?_, hlaid.nodup, hlaid.free, hlaid.freeNodup, ?_, hlaid.others⟩, ?_⟩
    · intro k' hk'
      rcases mem_cons.1 hk' with rfl | hk'
      · exact (hlaid.mine k mem_cons_self).trans hround.symm
      · exact hlaid.mine k' (mem_cons_of_mem _ hk')
    · intro k' hk'
      rcases mem_cons.1 hk' with rfl | hk'
      · exact hlaid.freeMine k mem_cons_self
      · exact hlaid.freeMine k' (mem_cons_of_mem _ hk')
    intro k' hk'
    obtain ⟨hs, hsize, hmine, -⟩ := hlaid.others k' hk'
    rw [← hother k' hk']
    refine hclear hlaid hs hsize ?_
    intro he
    rw [he, map_cons] at hmine
    exact hmine mem_cons_self
  intro hle k' hk'
  obtain ⟨⟨size, hlaid⟩, -⟩ := h.laid hle
  have hnd := hlaid.nodup
  rw [map_cons, nodup_cons] at hnd
  refine hclear hlaid (h.sound k' (mem_cons_of_mem _ hk')) (hlaid.mine k' (mem_cons_of_mem _ hk')) ?_
  intro he
  exact hnd.1 (he ▸ mem_map_of_mem hk')

/-- **What is written is there, and the other blocks are as they were.** -/
theorem diskwrite_spec (h : Since d₀ O d (k :: own)) (hpos : 0 < r.length)
    (hmax : r.length ≤ Maxblock) :
    Gives (fun x => x.1.n = r.length ∧ Since d₀ O x.2 (x.1 :: own) ∧ Written x.2 x.1 ∧ d.addr ≤ x.2.addr ∧
        d.eof ≤ x.2.eof ∧ (x.2.addr ≤ ADDRS → content x.2 x.1 = r ∧ ∀ k' ∈ own, content x.2 k' = content d k'))
      (diskwrite d k r) := by
  have hs := h.sound k mem_cons_self
  have hwritten : ∀ (d' : Disk) (a : Nat), Written (Acme.pwrite d' r a) ⟨a, r.length⟩ := fun d' a => Nat.le_max_right ..
  rw [diskwrite, ntosize_ok hs.2, ntosize_ok hmax]
  change Gives _ ((if roundup k.n ≠ roundup r.length then _ else _) >>= _)
  by_cases hround : roundup k.n = roundup r.length
  · rw [if_neg (not_not.2 hround)]
    obtain ⟨hsince, hkeep⟩ := h.pwrite hpos hround.symm hmax
    exact Outcome.ok ⟨rfl, hsince, hwritten d k.addr, le_rfl, Nat.le_max_left _ _,
      fun hle => ⟨content_pwrite_self r k.addr, hkeep hle⟩⟩
  rw [if_pos hround]
  -- another block for it
  have hmove : Gives (fun x => x.1.n = r.length ∧ Since d₀ O x.2 (x.1 :: own) ∧ x.2.file = d.file ∧ x.2.eof = d.eof ∧
      d.addr ≤ x.2.addr) (diskrelease d k >>= fun d => disknewblock d r.length) := by
    refine Outcome.bind (diskrelease_spec h) ?_
    rintro d' ⟨hsince, hfile, heof, haddr⟩
    refine (disknewblock_spec hsince hpos hmax).mono (fun _ => id) ?_
    rintro ⟨b, d''⟩ ⟨hn, hsince', hfile', heof', haddr'⟩
    exact ⟨hn, hsince', hfile'.trans hfile, heof'.trans heof, haddr ▸ haddr'⟩
  refine Outcome.bind hmove ?_
  rintro ⟨b, d'⟩ ⟨hn, hsince, hfile, heof, haddr⟩
  obtain ⟨hsince', hkeep⟩ := hsince.pwrite hpos (by rw [hn]) hmax
  refine Outcome.ok ⟨rfl, hsince', hwritten d' b.addr, haddr, ?_, ?_⟩
  · exact Nat.le_trans (Nat.le_of_eq heof.symm) (Nat.le_max_left _ _)
  · intro hle
    refine ⟨content_pwrite_self r b.addr, fun k' hk' => (hkeep hle k' hk').trans ?_⟩
    rw [content, content, hfile]

theorem diskread_spec (hs : Sound k) (hw : Written d k) : diskread d k k.n = .ok (content d k) := by
  rw [diskread, if_neg (Nat.lt_irrefl _)]
  rw [ntosize_ok hs.2]
  rw [if_neg fun hn => Nat.not_lt.2 hw hn.2]
  rfl

end

end Plan9.Acme
