/-
`qsort` comes to an end, on the array's elements only, with the elements in another order;
and the order is that of the comparison function, where it is one.

`Acts` is all that `qsorts` needs of `cmp` and `swap`: that they see and exchange values,
and that the comparison follows a relation `le`. For a comparison function of no order
`le` holds of all.
-/
import Plan9.Lib.Rearrange
import Plan9.Libc.Qsort

namespace Plan9.Libc

open Function Memory Option

/-! ## The exchange of two elements -/

/-- `n` bytes at `i` and as many at `j`, exchanged. -/
def exchange (n : Nat) (mem : Nat → UInt8) (i j : Nat) : Nat → UInt8 := fun x =>
  if i ≤ x ∧ x < i + n then mem (j + (x - i))
  else if j ≤ x ∧ x < j + n then mem (i + (x - j))
  else mem x

theorem exchange_zero (mem : Nat → UInt8) (i j : Nat) : exchange 0 mem i j = mem := by
  funext x
  rw [exchange, if_neg (by omega), if_neg (by omega)]

theorem exchange_add {n l : Nat} (mem : Nat → UInt8) {i j : Nat} (h : i = j ∨ i + (l + n) ≤ j ∨ j + (l + n) ≤ i) :
    exchange n (exchange l mem i j) (i + l) (j + l) = exchange (l + n) mem i j := by
  funext x
  rcases h with rfl | h
  · have hself : ∀ (n : Nat) (mem : Nat → UInt8) (i : Nat), exchange n mem i i = mem := by
      intro n mem i
      funext x
      rw [exchange]
      split
      · exact congrArg mem (by omega)
      · rfl
    rw [hself, hself, hself]
  simp only [exchange]
  by_cases hi : i ≤ x ∧ x < i + l
  · rw [if_neg (by omega), if_neg (by omega), if_pos hi, if_pos (by omega)]
  by_cases hi' : i + l ≤ x ∧ x < i + l + n
  · rw [if_pos hi', if_neg (by omega), if_neg (by omega), if_pos (by omega)]
    exact congrArg mem (by omega)
  rw [if_neg hi', if_neg (show ¬ (i ≤ x ∧ x < i + (l + n)) by omega)]
  by_cases hj : j ≤ x ∧ x < j + l
  · rw [if_neg (by omega), if_neg (by omega), if_pos hj, if_pos (by omega)]
  by_cases hj' : j + l ≤ x ∧ x < j + l + n
  · rw [if_pos hj', if_neg (by omega), if_neg (by omega), if_pos (by omega)]
    exact congrArg mem (by omega)
  · rw [if_neg hj', if_neg (by omega), if_neg (by omega), if_neg (by omega)]

theorem swapb_eq : ∀ (es : Nat) (mem : Nat → UInt8) {i j : Nat}, i = j ∨ i + es ≤ j ∨ j + es ≤ i →
    swapb es mem i j = exchange es mem i j
  | 0, mem, i, j, _ => (exchange_zero mem i j).symm
  | es + 1, mem, i, j, h => by
    have hone : update (update mem i (mem j)) j (mem i) = exchange 1 mem i j := by
      funext x
      rw [exchange]
      by_cases hxj : x = j
      · subst hxj
        rw [update_self]
        split
        · exact congrArg mem (by omega)
        · rw [if_pos (by omega), Nat.sub_self, Nat.add_zero]
      rw [update_of_ne hxj]
      by_cases hxi : x = i
      · subst hxi
        rw [update_self, if_pos (by omega), Nat.sub_self, Nat.add_zero]
      · rw [update_of_ne hxi, if_neg (by omega), if_neg (by omega)]
    rw [swapb, hone, swapb_eq es _ (by omega), exchange_add mem (by omega), Nat.add_comm 1 es]

theorem swapiLoop_eq : ∀ (k : Nat) (mem : Nat → UInt8) {i j : Nat}, i = j ∨ i + 4 * k ≤ j ∨ j + 4 * k ≤ i →
    swapiLoop k mem i j = exchange (4 * k) mem i j
  | 0, mem, i, j, _ => (exchange_zero mem i j).symm
  | k + 1, mem, i, j, h => by
    have hcell : ∀ (mem : Nat → UInt8) (p : Nat) (src : Nat → UInt8) (q x : Nat),
        store mem p (load src q 4) x = if p ≤ x ∧ x < p + 4 then src (q + (x - p)) else mem x := by
      intro mem p src q x
      by_cases hx : p ≤ x ∧ x < p + 4
      · rw [if_pos hx, store, if_pos hx.1, getElem?_load (by omega), getD_some]
      · rw [if_neg hx, store_outside (by rw [length_load]; omega)]
    have hword : store (store mem i (load mem j 4)) j (load mem i 4) = exchange 4 mem i j := by
      funext x
      rw [exchange, hcell, hcell]
      by_cases hxj : j ≤ x ∧ x < j + 4
      · rw [if_pos hxj]
        split
        · exact congrArg mem (by omega)
        · rfl
      · rw [if_neg hxj, if_neg hxj]
    rw [swapiLoop]
    simp only [sizeofLong]
    rw [hword, swapiLoop_eq k _ (by omega), exchange_add mem (by omega), show 4 + 4 * k = 4 * (k + 1) by omega]

theorem apart {i j : Nat} (es : Nat) (h : i ≠ j) : i * es + es ≤ j * es ∨ j * es + es ≤ i * es := by
  rcases Nat.lt_or_gt_of_ne h with h | h
  · exact .inl (by rw [← Nat.succ_mul]; exact Nat.mul_le_mul_right es h)
  · exact .inr (by rw [← Nat.succ_mul]; exact Nat.mul_le_mul_right es h)

/-- **The elements `i` and `j` are exchanged**, and no other is touched. -/
theorem elem_exchange (mem : Nat → UInt8) (va es i j : Nat) :
    elem (exchange es mem (va + i * es) (va + j * es)) va es = elem mem va es ∘ Equiv.swap i j := by
  funext k
  apply List.map_congr_left
  intro b hb
  rw [List.mem_range] at hb
  rw [exchange]
  by_cases hki : k = i
  · subst hki
    rw [if_pos (by omega), Equiv.swap_apply_left]
    exact congrArg mem (by omega)
  have hi := apart es hki
  rw [if_neg (by omega)]
  by_cases hkj : k = j
  · subst hkj
    rw [if_pos (by omega), Equiv.swap_apply_right]
    exact congrArg mem (by omega)
  · have hj := apart es hkj
    rw [if_neg (by omega), Equiv.swap_apply_of_ne_of_ne hki hkj]

/-! ## What qsorts needs -/

section

variable {M α : Type} {p : QSort M} {N : Nat} {view : M → Nat → α} {Inv : M → Prop} {le : α → α → Prop}

/-- The comparisons of a sort see the values of `view`, below `N`, and follow `le`; its exchanges exchange them. -/
structure Acts (p : QSort M) (N : Nat) (view : M → Nat → α) (Inv : M → Prop) (le : α → α → Prop) : Prop where
  cmp : ∀ m i j, Inv m → i < N → j < N → ∃ r m', p.cmp m i j = some (r, m') ∧ view m' = view m ∧ Inv m' ∧
    (r ≤ 0 → le (view m i) (view m j)) ∧ (0 ≤ r → le (view m j) (view m i))
  swap : ∀ m i j, Inv m → i < N → j < N → ∃ m', p.swap m i j = some m' ∧ view m' = view m ∘ Equiv.swap i j ∧ Inv m'
  trans : ∀ x y z, le x y → le y z → le x z

namespace Acts

theorem pivot (h : Acts p N view Inv le) {a n : Nat} (hn : 0 < n) (hN : a + n ≤ N) {m : M} (hm : Inv m) :
    ∃ pi m', Libc.pivot p a n m = some (pi, m') ∧ view m' = view m ∧ Inv m' ∧ a ≤ pi ∧ pi < a + n := by
  have hcmp : ∀ m i j, Inv m → i < N → j < N → ∃ r m', p.cmp m i j = some (r, m') ∧ view m' = view m ∧ Inv m' :=
    fun m i j hm hi hj =>
      let ⟨r, m', hc, hv, hI, _⟩ := h.cmp m i j hm hi hj
      ⟨r, m', hc, hv, hI⟩
  unfold Libc.pivot
  dsimp only
  generalize hpi : a + n / 6 = pi
  generalize hpj : pi + (n / 6 + n / 6) = pj
  generalize hpk : pj + (n / 6 + n / 6) = pk
  obtain ⟨r, m1, hc, hv1, hm1⟩ := hcmp m pi pj hm (by omega) (by omega)
  rw [hc, bind_eq_bind, bind_some]
  by_cases hr : r < 0
  · rw [if_pos hr]
    obtain ⟨r2, m2, hc, hv2, hm2⟩ := hcmp m1 pi pk hm1 (by omega) (by omega)
    rw [hc, bind_some]
    by_cases hr2 : r2 < 0
    · rw [if_pos hr2]
      obtain ⟨r3, m3, hc, hv3, hm3⟩ := hcmp m2 pj pk hm2 (by omega) (by omega)
      rw [hc]
      refine ⟨_, m3, rfl, by rw [hv3, hv2, hv1], hm3, ?_⟩
      split <;> omega
    · rw [if_neg hr2]
      exact ⟨pi, m2, rfl, by rw [hv2, hv1], hm2, by omega⟩
  rw [if_neg hr]
  obtain ⟨r2, m2, hc, hv2, hm2⟩ := hcmp m1 pj pk hm1 (by omega) (by omega)
  rw [hc, bind_some]
  by_cases hr2 : r2 < 0
  · rw [if_pos hr2]
    obtain ⟨r3, m3, hc, hv3, hm3⟩ := hcmp m2 pi pk hm2 (by omega) (by omega)
    rw [hc]
    refine ⟨_, m3, rfl, by rw [hv3, hv2, hv1], hm3, ?_⟩
    split <;> omega
  · rw [if_neg hr2]
    exact ⟨pj, m2, rfl, by rw [hv2, hv1], hm2, by omega⟩

theorem scanUp (h : Acts p N view Inv le) {a pn : Nat} (ha : a < N) (hpn : pn ≤ N) : ∀ (k pi : Nat) (m : M), Inv m →
    pi + k = pn → ∃ pi' m', Libc.scanUp p a pn k pi m = some (pi', m') ∧ view m' = view m ∧ Inv m' ∧
      pi < pi' ∧ (pi < pn → pi' ≤ pn) ∧ (∀ x, pi < x → x < pi' → x < pn → le (view m x) (view m a)) ∧
      (pi' < pn → le (view m a) (view m pi'))
  | 0, pi, m, hm, hk => ⟨pi + 1, m, rfl, rfl, hm, by omega, by omega, fun x _ _ _ => by omega, fun _ => by omega⟩
  | k + 1, pi, m, hm, hk => by
    rw [Libc.scanUp]
    by_cases hlt : pi + 1 < pn
    · obtain ⟨r, m1, hc, hv1, hm1, hle, hge⟩ := h.cmp m (pi + 1) a hm (by omega) ha
      rw [if_pos hlt, hc, bind_eq_bind, bind_some]
      dsimp only
      by_cases hr : r < 0
      · obtain ⟨pi', m', hrun, hv, hI, _, h2, h3, h4⟩ := scanUp h ha hpn k (pi + 1) m1 hm1 (by omega)
        rw [hv1] at hv h3 h4
        rw [if_pos hr, hrun]
        refine ⟨pi', m', rfl, hv, hI, by omega, fun _ => h2 hlt, fun x hx1 hx2 hx3 => ?_, h4⟩
        by_cases hx : x = pi + 1
        · subst hx
          exact hle (by omega)
        · exact h3 x (by omega) hx2 hx3
      · rw [if_neg hr]
        exact ⟨pi + 1, m1, rfl, hv1, hm1, by omega, by omega, fun x _ _ _ => by omega, fun _ => hge (by omega)⟩
    · rw [if_neg hlt]
      exact ⟨pi + 1, m, rfl, rfl, hm, by omega, by omega, fun x _ _ _ => by omega, fun _ => by omega⟩

theorem scanDown (h : Acts p N view Inv le) {a : Nat} (ha : a < N) : ∀ (pj : Nat) (m : M), Inv m → a < pj → pj ≤ N →
    ∃ pj' m', Libc.scanDown p a pj m = some (pj', m') ∧ view m' = view m ∧ Inv m' ∧ a ≤ pj' ∧ pj' < pj ∧
      (∀ x, pj' < x → x < pj → le (view m a) (view m x)) ∧ (a < pj' → le (view m pj') (view m a))
  | 0, m, hm, hj, _ => by omega
  | pj + 1, m, hm, hj, hN => by
    rw [Libc.scanDown]
    by_cases hlt : pj > a
    · obtain ⟨r, m1, hc, hv1, hm1, hle, hge⟩ := h.cmp m pj a hm (by omega) ha
      rw [if_pos hlt, hc, bind_eq_bind, bind_some]
      dsimp only
      by_cases hr : r > 0
      · obtain ⟨pj', m', hrun, hv, hI, h1, _, h3, h4⟩ := scanDown h ha pj m1 hm1 hlt (by omega)
        rw [hv1] at hv h3 h4
        rw [if_pos hr, hrun]
        refine ⟨pj', m', rfl, hv, hI, h1, by omega, fun x hx1 hx2 => ?_, h4⟩
        by_cases hx : x = pj
        · subst hx
          exact hge (by omega)
        · exact h3 x hx1 (by omega)
      · rw [if_neg hr]
        exact ⟨pj, m1, rfl, hv1, hm1, by omega, by omega, fun x _ _ => by omega, fun _ => hle (by omega)⟩
    · rw [if_neg hlt]
      exact ⟨pj, m, rfl, rfl, hm, by omega, by omega, fun x _ _ => by omega, fun _ => by omega⟩

/-- What `cursors` has come to, up to `pi` and from `pj` on. -/
structure Cut (view : M → Nat → α) (le : α → α → Prop) (a pn pi pj : Nat) (m : M) : Prop where
  below : ∀ x, a < x → x ≤ pi → le (view m x) (view m a)
  above : ∀ x, pj ≤ x → x < pn → le (view m a) (view m x)

theorem Cut.swap {a pn pi pj : Nat} {m m' : M} (hview : view m' = view m ∘ Equiv.swap pi pj) (ha : a < pi) (hpij : pi ≤ pj)
    (hbelow : ∀ x, a < x → x < pi → le (view m x) (view m a)) (habove : ∀ x, pj < x → x < pn → le (view m a) (view m x))
    (hpi : le (view m a) (view m pi)) (hpj : le (view m pj) (view m a)) : Cut view le a pn pi pj m' := by
  have hpivot : view m' a = view m a := by
    rw [hview, comp_apply, Equiv.swap_apply_of_ne_of_ne (by omega) (by omega)]
  constructor
  · intro x hx1 hx2
    rw [hpivot, hview, comp_apply]
    by_cases hx : x = pi
    · rw [hx, Equiv.swap_apply_left]
      exact hpj
    · rw [Equiv.swap_apply_of_ne_of_ne hx (by omega)]
      exact hbelow x hx1 (by omega)
  intro x hx1 hx2
  rw [hpivot, hview, comp_apply]
  by_cases hx : x = pj
  · rw [hx, Equiv.swap_apply_right]
    exact hpi
  · rw [Equiv.swap_apply_of_ne_of_ne (by omega) hx]
    exact habove x (by omega) hx2

/-- **Both cursors**: they pass each other, with what is not after the pivot in front and what is not before it
behind. -/
theorem cursors (h : Acts p N view Inv le) {a pn : Nat} (hpn : pn ≤ N) : ∀ (fuel pi pj : Nat) (m : M), Inv m →
    pn ≤ pi + fuel → a ≤ pi → pi < pn → a < pj → pj ≤ pn → pi ≤ pj → Cut view le a pn pi pj m →
    ∃ pj' m', Libc.cursors p a pn fuel pi pj m = some (pj', m') ∧ Inv m' ∧ Rearranged (a + 1) pn (view m) (view m') ∧
      a ≤ pj' ∧ pj' < pn ∧ Cut view le a pn pj' (pj' + 1) m'
  | 0, pi, pj, m, _, hf, _, hpi, _, _, _, _ => by omega
  | fuel + 1, pi, pj, m, hm, hf, hapi, hpi, hapj, hpj, hpij, hcut => by
    obtain ⟨pi1, m1, hup, hv1, hm1, _, _, hupb, hups⟩ := h.scanUp (show a < N by omega) hpn (pn - pi) pi m hm (by omega)
    obtain ⟨pj1, m2, hdown, hv2, hm2, hdn1, _, hdna, hdns⟩ := h.scanDown (show a < N by omega) pj m1 hm1 hapj (by omega)
    rw [hv1] at hv2 hdna hdns
    have hbelow : ∀ x, a < x → x < pi1 → x < pn → le (view m2 x) (view m2 a) := by
      intro x hx1 hx2 hx3
      rw [hv2]
      by_cases hx : x ≤ pi
      · exact hcut.below x hx1 hx
      · exact hupb x (by omega) hx2 hx3
    have habove : ∀ x, pj1 < x → x < pn → le (view m2 a) (view m2 x) := by
      intro x hx1 hx2
      rw [hv2]
      by_cases hx : pj ≤ x
      · exact hcut.above x hx hx2
      · exact hdna x hx1 (by omega)
    rw [Libc.cursors, hup, bind_eq_bind, bind_some]
    dsimp only
    rw [hdown, bind_some]
    by_cases hpass : pj1 < pi1
    · rw [if_pos hpass]
      refine ⟨pj1, m2, rfl, hm2, by rw [hv2]; exact .refl _ _ _, hdn1, by omega, ?_, ?_⟩
      · exact fun x hx1 hx2 => hbelow x hx1 (by omega) (by omega)
      · exact fun x hx1 hx2 => habove x (by omega) hx2
    obtain ⟨m3, hswap, hv3, hm3⟩ := h.swap m2 pi1 pj1 hm2 (by omega) (by omega)
    have hcut' : Cut view le a pn pi1 pj1 m3 :=
      Cut.swap hv3 (by omega) (by omega) (fun x hx1 hx2 => hbelow x hx1 hx2 (by omega)) habove
        (by rw [hv2]; exact hups (by omega)) (by rw [hv2]; exact hdns (by omega))
    obtain ⟨pj', m', hrun, hI, hre, h1, h2, hcutEnd⟩ := cursors h hpn fuel pi1 pj1 m3 hm3 (by omega) (by omega)
      (by omega) (by omega) (by omega) (by omega) hcut'
    rw [if_neg hpass, hswap, bind_eq_bind, bind_some, hrun]
    refine ⟨pj', m', rfl, hI, ?_, h1, h2, hcutEnd⟩
    have hstep : Rearranged (a + 1) pn (view m) (view m3) := by
      rw [hv3, hv2]
      exact .swap (by omega) (by omega) (by omega) (by omega) _
    exact hstep.trans hre

/-- **A round**: the pivot ends at `pj`, with what is not after it in front and what is not before it behind. -/
theorem partition (h : Acts p N view Inv le) {a n : Nat} (hn : 1 < n) (hN : a + n ≤ N) {m : M} (hm : Inv m) :
    ∃ pj m', Libc.partition p a n m = some (pj, m') ∧ Inv m' ∧ Rearranged a (a + n) (view m) (view m') ∧
      a ≤ pj ∧ pj < a + n ∧ (∀ x, a ≤ x → x < pj → le (view m' x) (view m' pj)) ∧
      (∀ x, pj + 1 ≤ x → x < a + n → le (view m' pj) (view m' x)) := by
  obtain ⟨pi, m1, hpivot, hv1, hm1, _, _⟩ : ∃ pi m1, 
      (if n > 10 then Libc.pivot p a n m else some (a + (n >>> 1), m)) = some (pi, m1) ∧ view m1 = view m ∧ Inv m1 ∧ a ≤ pi ∧ pi < a + n := by
    split
    · exact h.pivot (by omega) hN hm
    · refine ⟨a + (n >>> 1), m, rfl, rfl, hm, by omega, ?_⟩
      omega
  obtain ⟨m2, hswap, hv2, hm2⟩ := h.swap m1 a pi hm1 (by omega) (by omega)
  have hstart : Cut view le a (a + n) a (a + n) m2 := ⟨fun x _ _ => by omega, fun x _ _ => by omega⟩
  obtain ⟨pj, m3, hrun, hm3, hre, hpj1, hpj2, hcut⟩ := h.cursors hN n a (a + n) m2 hm2 le_rfl (Nat.le_refl a)
    (by omega) (by omega) le_rfl (by omega) hstart
  obtain ⟨m4, hswap', hv4, hm4⟩ := h.swap m3 a pj hm3 (by omega) (by omega)
  have hend : view m4 pj = view m3 a := by
    rw [hv4, comp_apply, Equiv.swap_apply_right]
  refine ⟨pj, m4, ?_, hm4, ?_, hpj1, hpj2, fun x hx1 hx2 => ?_, fun x hx1 hx2 => ?_⟩
  · rw [Libc.partition, hpivot, bind_eq_bind, bind_some]
    dsimp only
    rw [hswap, bind_eq_bind, bind_some, hrun, bind_some]
    rw [hswap']
    rfl
  · have h1 : Rearranged a (a + n) (view m) (view m2) := by
      rw [hv2, hv1]
      exact .swap (by omega) (by omega) (by omega) (by omega) _
    have h2 : Rearranged a (a + n) (view m3) (view m4) := by
      rw [hv4]
      exact .swap (by omega) (by omega) (by omega) (by omega) _
    exact (h1.trans (hre.mono (by omega) (by omega))).trans h2
  · rw [hend, hv4, comp_apply]
    by_cases hx : x = a
    · rw [hx, Equiv.swap_apply_left]
      exact hcut.below pj (by omega) (by omega)
    · rw [Equiv.swap_apply_of_ne_of_ne hx (by omega)]
      exact hcut.below x (by omega) (by omega)
  · rw [hend, hv4, comp_apply, Equiv.swap_apply_of_ne_of_ne (by omega) (by omega)]
    exact hcut.above x (by omega) hx2

/-- **`qsorts`** ends, with the range in another order, and that order `le`. -/
theorem qsorts (h : Acts p N view Inv le) : ∀ (fuel a n : Nat) (m : M), n ≤ fuel → a + n ≤ N → Inv m →
    ∃ m', Libc.qsorts p fuel a n m = some m' ∧ Inv m' ∧ Rearranged a (a + n) (view m) (view m') ∧
      OrderedOn le a (a + n) (view m')
  | 0, a, n, m, hf, _, hm => ⟨m, if_neg (by omega), hm, .refl _ _ _, .short (by omega) _⟩
  | fuel + 1, a, n, m, hf, hN, hm => by
    rw [Libc.qsorts]
    by_cases hn : n > 1
    · obtain ⟨pj, m1, hpart, hm1, hre1, _, _, hbelow, habove⟩ := h.partition hn hN hm
      have hmid : a + (pj - a + 1) = pj + 1 := by omega
      have hleft : a + (pj - a) = pj := by omega
      have hright : pj + 1 + (n - (pj - a + 1)) = a + n := by omega
      rw [if_pos hn, hpart, bind_eq_bind, bind_some]
      dsimp only
      rw [hmid]
      by_cases hside : pj - a ≥ n - (pj - a + 1)
      · obtain ⟨m2, hrun2, hm2, hre2, hord2⟩ := qsorts h fuel a (pj - a) m1 (by omega) (by omega) hm1
        obtain ⟨m3, hrun3, hm3, hre3, hord3⟩ := qsorts h fuel (pj + 1) (n - (pj - a + 1)) m2 (by omega) (by omega) hm2
        rw [hleft] at hre2 hord2
        rw [hright] at hre3 hord3
        rw [if_pos hside, hrun2, bind_eq_bind, bind_some, hrun3]
        refine ⟨m3, rfl, hm3, ?_, ?_⟩
        · exact (hre1.trans (hre2.mono (by omega) (by omega))).trans (hre3.mono (by omega) (by omega))
        have hpivot : view m3 pj = view m1 pj := by rw [hre3.outside (by omega), hre2.outside (by omega)]
        refine .join h.trans (hord2.congr fun k _ hk => hre3.outside (by omega)) hord3 ?_ ?_
        · intro k hk1 hk2
          rw [hpivot, hre3.outside (by omega)]
          exact hre2.all (P := fun v => le v (view m1 pj)) hbelow k hk1 hk2
        rw [hpivot]
        refine hre3.all (P := fun v => le (view m1 pj) v) fun k hk1 hk2 => ?_
        rw [hre2.outside (by omega)]
        exact habove k hk1 hk2
      obtain ⟨m2, hrun2, hm2, hre2, hord2⟩ := qsorts h fuel (pj + 1) (n - (pj - a + 1)) m1 (by omega) (by omega) hm1
      obtain ⟨m3, hrun3, hm3, hre3, hord3⟩ := qsorts h fuel a (pj - a) m2 (by omega) (by omega) hm2
      rw [hright] at hre2 hord2
      rw [hleft] at hre3 hord3
      rw [if_neg hside, hrun2, bind_eq_bind, bind_some, hrun3]
      refine ⟨m3, rfl, hm3, ?_, ?_⟩
      · exact (hre1.trans (hre2.mono (by omega) (by omega))).trans (hre3.mono (by omega) (by omega))
      have hpivot : view m3 pj = view m1 pj := by rw [hre3.outside (by omega), hre2.outside (by omega)]
      refine .join h.trans hord3 (hord2.congr fun k hk _ => hre3.outside (by omega)) ?_ ?_
      · rw [hpivot]
        refine hre3.all (P := fun v => le v (view m1 pj)) fun k hk1 hk2 => ?_
        rw [hre2.outside (by omega)]
        exact hbelow k hk1 hk2
      · intro k hk1 hk2
        rw [hpivot, hre3.outside (by omega)]
        exact hre2.all (P := fun v => le (view m1 pj) v) habove k hk1 hk2
    · rw [if_neg hn]
      exact ⟨m, rfl, hm, .refl _ _ _, .short (by omega) _⟩

end Acts

end

/-! ## qsort -/

/-- A comparison function whose sign is a total preorder. -/
structure TotalPreorder {β : Type} (c : β → β → Int) : Prop where
  sign : ∀ x y, 0 ≤ c x y ↔ c y x ≤ 0
  trans : ∀ x y z, c x y ≤ 0 → c y z ≤ 0 → c x z ≤ 0

section

variable {σ : Type} (cmp : σ → List UInt8 → List UInt8 → Int × σ) (mem : Nat → UInt8) (va n : Nat) {es : Nat}

/-- The bytes outside the array are what they were. -/
def Outside (mem : Nat → UInt8) (va n es : Nat) (m : (Nat → UInt8) × σ) : Prop :=
  ∀ x, x < va ∨ va + n * es ≤ x → m.1 x = mem x

theorem swap_elem (mem : Nat → UInt8) (va i j : Nat) :
    (if (va ||| es) % sizeofLong ≠ 0 then swapb else swapi) es mem (va + i * es) (va + j * es) =
      exchange es mem (va + i * es) (va + j * es) := by
  have hap : va + i * es = va + j * es ∨ va + i * es + es ≤ va + j * es ∨ va + j * es + es ≤ va + i * es := by
    by_cases h : i = j
    · exact .inl (by rw [h])
    · have := apart es h
      omega
  split
  · exact swapb_eq es mem hap
  rename_i halign
  have hword : es % 4 = 0 := by
    have hzero : (va ||| es) % 2 ^ 2 = 0 := by rw [sizeofLong] at halign; omega
    rw [Nat.or_mod_two_pow] at hzero
    exact (Nat.or_eq_zero_iff.1 hzero).2
  rw [swapi, sizeofLong, swapiLoop_eq _ _ (by omega), show 4 * (es / 4) = es by omega]

theorem acts_qsortSort (hes : 0 < es) {le : List UInt8 → List UInt8 → Prop}
    (hle : ∀ s x y, ((cmp s x y).1 ≤ 0 → le x y) ∧ (0 ≤ (cmp s x y).1 → le y x))
    (htrans : ∀ x y z, le x y → le y z → le x z) :
    Acts (qsortSort cmp va n es) n (fun m => elem m.1 va es) (Outside mem va n es) le where
  cmp m i j hm hi hj := by
    refine ⟨_, _, if_pos ⟨hi, hj⟩, rfl, hm, ?_, ?_⟩
    · exact (hle _ _ _).1
    · exact (hle _ _ _).2
  swap m i j hm hi hj := by
    refine ⟨_, if_pos ⟨hes, hi, hj⟩, ?_, ?_⟩
    · rw [swap_elem, elem_exchange]
    intro x hx
    have hi' : i * es + es ≤ n * es := by rw [← Nat.succ_mul]; exact Nat.mul_le_mul_right es hi
    have hj' : j * es + es ≤ n * es := by rw [← Nat.succ_mul]; exact Nat.mul_le_mul_right es hj
    dsimp only
    rw [swap_elem, exchange, if_neg (by omega), if_neg (by omega)]
    exact hm x hx
  trans := htrans

/-- **qsort.** With any comparison function, it returns, having looked at and exchanged elements of the array alone;
the elements are those that were there, in another order, and no other byte has changed. With the comparison function
of a total preorder they are sorted. -/
theorem qsort_sorts (hes : 0 < es) (s : σ) :
    ∃ mem' s', qsort cmp mem s va n es = some (mem', s') ∧
      (elems mem' va n es).Perm (elems mem va n es) ∧
      (∀ x, x < va ∨ va + n * es ≤ x → mem' x = mem x) ∧
      ∀ c, (∀ s x y, (cmp s x y).1 = c x y) → TotalPreorder c → (elems mem' va n es).Pairwise fun x y => c x y ≤ 0 := by
  have hany : Acts (qsortSort cmp va n es) n (fun m => elem m.1 va es) (Outside mem va n es) fun _ _ => True :=
    acts_qsortSort cmp mem va n hes (fun _ _ _ => ⟨fun _ => trivial, fun _ => trivial⟩) (fun _ _ _ _ _ => trivial)
  obtain ⟨m', hrun, hout, hre, -⟩ := hany.qsorts n 0 n (mem, s) (Nat.le_refl n) (by omega) (fun _ _ => rfl)
  rw [Nat.zero_add] at hre
  refine ⟨m'.1, m'.2, hrun, hre.perm, hout, fun c hc hpre => ?_⟩
  have hle : ∀ s x y, ((cmp s x y).1 ≤ 0 → c x y ≤ 0) ∧ (0 ≤ (cmp s x y).1 → c y x ≤ 0) := by
    intro s x y
    rw [hc]
    exact ⟨id, (hpre.sign x y).1⟩
  have hord : Acts (qsortSort cmp va n es) n (fun m => elem m.1 va es) (Outside mem va n es) fun x y => c x y ≤ 0 :=
    acts_qsortSort cmp mem va n hes hle hpre.trans
  obtain ⟨_, hrun', -, -, hsorted⟩ := hord.qsorts n 0 n (mem, s) (Nat.le_refl n) (by omega) (fun _ _ => rfl)
  rw [Nat.zero_add] at hsorted
  obtain rfl := Option.some.inj (hrun.symm.trans hrun')
  exact hsorted.pairwise

/-- Four elements of two bytes, compared by the first; two are equal. -/
theorem qsort_sorts_four :
    ∃ mem' s', qsort (fun (k : Nat) x y => ((x.headD 0).toNat - (y.headD 0).toNat, k + 1))
        (fun x => [7, 1, 3, 2, 7, 3, 1, 4].getD x 0) 0 0 4 2 = some (mem', s') ∧
      (elems mem' 0 4 2).Perm [[7, 1], [3, 2], [7, 3], [1, 4]] := by
  obtain ⟨mem', s', hrun, hperm, -, -⟩ := qsort_sorts (fun (k : Nat) x y => ((x.headD 0).toNat - (y.headD 0).toNat, k + 1))
    (fun x => [7, 1, 3, 2, 7, 3, 1, 4].getD x 0) 0 4 (show 0 < 2 by decide) 0
  exact ⟨mem', s', hrun, hperm⟩

end

end Plan9.Libc
