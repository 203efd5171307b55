/-
Sequences that have the same values in another order within a range of indices, and order
within a range.

A value that all have, all have after it (`Rearranged.all`), and what is outside the range
stays. `OrderedOn.join` puts two ordered ranges together around a value between them.
-/
import Mathlib.Data.List.Nodup
import Mathlib.Data.List.Range
import Mathlib.Tactic.Ring

variable {α : Type*} {f g h : Nat → α} {lo hi : Nat}

/-- `g` is `f` with the indices from `lo` on, below `hi`, permuted. -/
def Rearranged (lo hi : Nat) (f g : Nat → α) : Prop :=
  ∃ π : Equiv.Perm Nat, (∀ k, k < lo ∨ hi ≤ k → π k = k) ∧ g = f ∘ π

namespace Rearranged

theorem refl (lo hi : Nat) (f : Nat → α) : Rearranged lo hi f f :=
  ⟨Equiv.refl Nat, fun _ _ => rfl, rfl⟩

theorem trans (hfg : Rearranged lo hi f g) (hgh : Rearranged lo hi g h) : Rearranged lo hi f h := by
  obtain ⟨π, hπ, rfl⟩ := hfg
  obtain ⟨ρ, hρ, rfl⟩ := hgh
  refine ⟨ρ.trans π, fun k hk => ?_, rfl⟩
  rw [Equiv.trans_apply, hρ k hk, hπ k hk]

theorem mono {lo' hi' : Nat} (hfg : Rearranged lo hi f g) (hlo : lo' ≤ lo) (hhi : hi ≤ hi') : Rearranged lo' hi' f g := by
  obtain ⟨π, hπ, rfl⟩ := hfg
  exact ⟨π, fun k hk => hπ k (by omega), rfl⟩

theorem swap {i j : Nat} (hi1 : lo ≤ i) (hi2 : i < hi) (hj1 : lo ≤ j) (hj2 : j < hi) (f : Nat → α) :
    Rearranged lo hi f (f ∘ Equiv.swap i j) :=
  ⟨Equiv.swap i j, fun k hk => Equiv.swap_apply_of_ne_of_ne (by omega) (by omega), rfl⟩

theorem outside (hfg : Rearranged lo hi f g) {k : Nat} (hk : k < lo ∨ hi ≤ k) : g k = f k := by
  obtain ⟨π, hπ, rfl⟩ := hfg
  rw [Function.comp_apply, hπ k hk]

theorem apply_inside {π : Equiv.Perm Nat} (hπ : ∀ k, k < lo ∨ hi ≤ k → π k = k) {k : Nat} (hk : lo ≤ k ∧ k < hi) :
    lo ≤ π k ∧ π k < hi := by
  by_contra hout
  have hfix : π (π k) = π k := hπ _ (by omega)
  have := π.injective hfix
  omega

theorem all (hfg : Rearranged lo hi f g) {P : α → Prop} (hP : ∀ k, lo ≤ k → k < hi → P (f k)) :
    ∀ k, lo ≤ k → k < hi → P (g k) := by
  obtain ⟨π, hπ, rfl⟩ := hfg
  intro k hk1 hk2
  obtain ⟨h1, h2⟩ := apply_inside hπ ⟨hk1, hk2⟩
  exact hP _ h1 h2

theorem perm {n : Nat} (hfg : Rearranged 0 n f g) : ((List.range n).map g).Perm ((List.range n).map f) := by
  obtain ⟨π, hπ, rfl⟩ := hfg
  rw [← List.map_map]
  refine List.Perm.map f ((List.perm_ext_iff_of_nodup ?_ List.nodup_range).mpr fun k => ?_)
  · exact List.nodup_range.map π.injective
  have hinv : ∀ k, k < 0 ∨ n ≤ k → π.symm k = k := fun k hk => by
    rw [Equiv.symm_apply_eq, hπ k hk]
  rw [List.mem_map, List.mem_range]
  constructor
  · rintro ⟨l, hl, rfl⟩
    exact (apply_inside hπ ⟨Nat.zero_le l, List.mem_range.1 hl⟩).2
  · intro hk
    exact ⟨π.symm k, List.mem_range.2 (apply_inside hinv ⟨Nat.zero_le k, hk⟩).2, π.apply_symm_apply k⟩

end Rearranged

/-! ## Order -/

def OrderedOn (le : α → α → Prop) (lo hi : Nat) (f : Nat → α) : Prop :=
  ∀ i j, lo ≤ i → i < j → j < hi → le (f i) (f j)

namespace OrderedOn

variable {le : α → α → Prop}

theorem short (h : hi ≤ lo + 1) (f : Nat → α) : OrderedOn le lo hi f := fun i j _ _ _ => by omega

theorem congr (h : OrderedOn le lo hi f) (hfg : ∀ k, lo ≤ k → k < hi → g k = f k) : OrderedOn le lo hi g := by
  intro i j hi1 hij hj
  rw [hfg i hi1 (by omega), hfg j (by omega) hj]
  exact h i j hi1 hij hj

theorem join {p : Nat} (htrans : ∀ x y z, le x y → le y z → le x z) (hleft : OrderedOn le lo p f)
    (hright : OrderedOn le (p + 1) hi f) (hbelow : ∀ k, lo ≤ k → k < p → le (f k) (f p))
    (habove : ∀ k, p + 1 ≤ k → k < hi → le (f p) (f k)) : OrderedOn le lo hi f := by
  intro i j hi1 hij hj
  rcases Nat.lt_trichotomy i p with hip | rfl | hip
  · rcases Nat.lt_trichotomy j p with hjp | rfl | hjp
    · exact hleft i j hi1 hij hjp
    · exact hbelow i hi1 hip
    · exact htrans _ _ _ (hbelow i hi1 hip) (habove j hjp hj)
  · exact habove j hij hj
  · exact hright i j hip hij hj

theorem pairwise {n : Nat} (h : OrderedOn le 0 n f) : ((List.range n).map f).Pairwise le := by
  rw [List.pairwise_map]
  refine List.pairwise_lt_range.imp_of_mem ?_
  intro i j _ hj hij
  exact h i j (Nat.zero_le i) hij (List.mem_range.1 hj)

end OrderedOn
