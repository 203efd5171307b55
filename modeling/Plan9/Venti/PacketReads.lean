/-
`packetcopy`, `packetcmp` and `packetconsume`.

`packetcmp` walks along both packets at once and compares, from one end of a fragment to the
next, what is left of two fragments; the sign that it gives is that of the two byte strings.
-/
import Plan9.Venti.PacketShares

namespace Plan9.Venti.Packets

open Chain CInt List

/-! ## Lexicographic order -/

/-- The sign of a comparison. -/
def lexSign (x y : List UInt8) : Int := if x < y then -1 else if y < x then 1 else 0

theorem lexSign_nil_cons {y : List UInt8} (hy : y ≠ []) : lexSign [] y = -1 := by
  obtain ⟨b, y, rfl⟩ := exists_cons_of_ne_nil hy
  exact if_pos (nil_lt_cons b y)

theorem lexSign_cons_nil {x : List UInt8} (hx : x ≠ []) : lexSign x [] = 1 := by
  obtain ⟨a, x, rfl⟩ := exists_cons_of_ne_nil hx
  rw [lexSign, if_neg (not_lt_nil _), if_pos (nil_lt_cons a x)]

theorem lexSign_cons (a b : UInt8) (x y : List UInt8) :
    lexSign (a :: x) (b :: y) = if a < b then -1 else if b < a then 1 else lexSign x y := by
  unfold lexSign
  simp only [cons_lt_cons_iff]
  by_cases hab : a < b
  · simp [hab]
  by_cases hba : b < a
  · have hne : a ≠ b := by
      rintro rfl
      exact hab hba
    simp [hab, hba, hne]
  · have heq : a = b := UInt8.le_antisymm (UInt8.not_lt.1 hba) (UInt8.not_lt.1 hab)
    simp [heq]

theorem lexSign_append : ∀ (u v a b : List UInt8), u.length = v.length →
    lexSign (u ++ a) (v ++ b) = if memcmp u v ≠ 0 then memcmp u v else lexSign a b
  | [], [], a, b, _ => by simp [memcmp]
  | [], _ :: _, _, _, h => nomatch h
  | _ :: _, [], _, _, h => nomatch h
  | c :: u, d :: v, a, b, h => by
    rw [cons_append, cons_append, lexSign_cons, lexSign_append u v a b (Nat.succ.inj h), memcmp]
    by_cases hcd : c < d
    · simp [hcd]
    · by_cases hdc : d < c
      · simp [hcd, hdc]
      · simp [hcd, hdc]

/-! ## `packetcmp` -/

section

variable {h : Heap} {l : List FragId}

theorem back_split {f : FragId} {n k : Int} (hk : 0 ≤ k) (hkn : k ≤ n) (hn : n ≤ (h.frag f).wp) :
    h.back f n n = h.back f n k ++ h.back f (n - k) (n - k) := by
  rw [Heap.back, Heap.back, Heap.back, show n.toNat = k.toNat + (n - k).toNat by omega, Memory.load_add]
  congr 2
  omega

theorem length_back (f : FragId) {n k : Int} : (h.back f n k).length = k.toNat := Memory.length_load

theorem back_fragsize (hinv : HeapInv h l) (f : FragId) : h.back f (h.fragsize f) (h.fragsize f) = h.bytes f := by
  have horder := hinv.order f
  rw [Heap.back, Heap.bytes, Heap.fragsize]
  congr 1 <;> omega

theorem content_ne_nil {f : FragId} {c : List FragId} (hne : ∀ g ∈ f :: c, h.bytes g ≠ []) : content h (f :: c) ≠ [] := fun hnil =>
  hne f (mem_cons_self ..) (append_eq_nil_iff.1 hnil).1

theorem cmpLoop_spec (hinv : HeapInv h l) : ∀ (k : Nat) (f0 f1 : FragId) (c0 c1 : List FragId) (n0 n1 : Int),
    Linked h.next (h.next f0) c0 → Linked h.next (h.next f1) c1 → (∀ g ∈ c0 ++ c1, h.bytes g ≠ []) →
    0 < n0 → n0 ≤ h.fragsize f0 → 0 < n1 → n1 ≤ h.fragsize f1 → c0.length + c1.length < k →
    cmpLoop h k f0 f1 n0 n1 = .ok (lexSign (h.back f0 n0 n0 ++ content h c0) (h.back f1 n1 n1 ++ content h c1)) := by
  intro k
  induction k with
  | zero => intro f0 f1 c0 c1 n0 n1 _ _ _ _ _ _ _ hk; exact absurd hk (Nat.not_lt_zero _)
  | succ k ih =>
    intro f0 f1 c0 c1 n0 n1 hl0 hl1 hne hpos0 hle0 hpos1 hle1 hk
    have hwp0 : n0 ≤ (h.frag f0).wp := by
      rw [Heap.fragsize] at hle0
      omega
    have hwp1 : n1 ≤ (h.frag f1).wp := by
      rw [Heap.fragsize] at hle1
      omega
    have hsize : ∀ g ∈ c0 ++ c1, 0 < h.fragsize g := fun g hg => by
      have hlen := hinv.length_bytes g
      have := length_pos_iff.2 (hne g hg)
      omega
    rw [cmpLoop]
    split
    · rename_i hlt
      have hlen : (h.back f0 n0 n0).length = (h.back f1 n1 n0).length := by rw [length_back, length_back]
      rw [back_split (by omega) (Int.le_of_lt hlt) hwp1, append_assoc, lexSign_append _ _ _ _ hlen]
      dsimp only
      split
      · rfl
      cases c0 with
      | nil =>
        rw [show (h.frag f0).next = none from hl0, content_nil, lexSign_nil_cons]
        intro hnil
        have := congrArg length (append_eq_nil_iff.1 hnil).1
        rw [length_back, length_nil] at this
        omega
      | cons g c0 =>
        rw [show (h.frag f0).next = some g from hl0.1]
        have hg := hsize g (by simp)
        rw [content_cons, ← back_fragsize hinv g]
        exact ih g f1 c0 c1 (h.fragsize g) (n1 - n0) hl0.2 hl1 (fun x hx => hne x (by simp at hx ⊢; tauto)) hg (Int.le_refl _)
          (by omega) (by omega) (by simp at hk; omega)
    split
    · rename_i hgt
      have hlen : (h.back f0 n0 n1).length = (h.back f1 n1 n1).length := by rw [length_back, length_back]
      rw [back_split (f := f0) (k := n1) (by omega) (Int.le_of_lt hgt) hwp0, append_assoc, lexSign_append _ _ _ _ hlen]
      dsimp only
      split
      · rfl
      cases c1 with
      | nil =>
        rw [show (h.frag f1).next = none from hl1, content_nil, lexSign_cons_nil]
        intro hnil
        have := congrArg length (append_eq_nil_iff.1 hnil).1
        rw [length_back, length_nil] at this
        omega
      | cons g c1 =>
        rw [show (h.frag f1).next = some g from hl1.1]
        have hg := hsize g (by simp)
        rw [content_cons, ← back_fragsize hinv g]
        exact ih f0 g c0 c1 (n0 - n1) (h.fragsize g) hl0 hl1.2 (fun x hx => hne x (by simp at hx ⊢; tauto)) (by omega)
          (by omega) hg (Int.le_refl _) (by simp at hk; omega)
    obtain rfl : n0 = n1 := by omega
    have hlen : (h.back f0 n0 n0).length = (h.back f1 n0 n0).length := by rw [length_back, length_back]
    rw [lexSign_append _ _ _ _ hlen]
    dsimp only
    split
    · rfl
    cases c0 with
    | nil =>
      rw [show (h.frag f0).next = none from hl0]
      cases c1 with
      | nil => rw [show (h.frag f1).next = none from hl1]; rfl
      | cons g c1 =>
        rw [show (h.frag f1).next = some g from hl1.1, content_nil, lexSign_nil_cons (content_ne_nil fun x hx => hne x (by simpa using hx))]
    | cons g c0 =>
      rw [show (h.frag f0).next = some g from hl0.1]
      cases c1 with
      | nil =>
        rw [show (h.frag f1).next = none from hl1, content_nil, lexSign_cons_nil (content_ne_nil fun x hx => hne x (by simpa using hx))]
      | cons g' c1 =>
        rw [show (h.frag f1).next = some g' from hl1.1, content_cons, content_cons, ← back_fragsize hinv g, ← back_fragsize hinv g']
        exact ih g g' c0 c1 (h.fragsize g) (h.fragsize g') hl0.2 hl1.2 (fun x hx => hne x (by simp at hx ⊢; tauto))
          (hsize g (by simp)) (Int.le_refl _) (hsize g' (by simp)) (Int.le_refl _) (by simp at hk; omega)

end

section

variable {s : State} {l : List FragId} {chain : Nat → List FragId} {p : Nat}

/-- **`packetcmp` is the lexicographic comparison.** -/
theorem packetcmp_spec (hinv : Inv s l chain (fun _ => 0)) (hsolid : Solid s chain) (hp : s.Live p) {pp : Nat} (hpp : s.Live pp) :
    packetcmp s p pp = .ok (lexSign (content s.heap (chain p)) (content s.heap (chain pp))) := by
  have hl0 := (hinv.queue p hp).linked
  have hl1 := (hinv.queue pp hpp).linked
  have hlen0 := hinv.length_chain p
  have hlen1 := hinv.length_chain pp
  have hne0 := hsolid p
  have hne1 := hsolid pp
  have hsize : ∀ g, s.heap.bytes g ≠ [] → 0 < s.heap.fragsize g := fun g hg => by
    have hlen := hinv.heap.length_bytes g
    have := length_pos_iff.2 hg
    omega
  unfold packetcmp
  rw [notfree_of_live hp, notfree_of_live hpp]
  generalize chain p = c0 at hl0 hlen0 hne0
  generalize chain pp = c1 at hl1 hlen1 hne1
  cases c0 with
  | nil =>
    rw [show (s.packet p).first = none from hl0]
    cases c1 with
    | nil => rw [show (s.packet pp).first = none from hl1]; rfl
    | cons g c1 => rw [hl1.1, content_nil, lexSign_nil_cons (content_ne_nil hne1)]; rfl
  | cons g c0 =>
    rw [hl0.1]
    cases c1 with
    | nil => rw [show (s.packet pp).first = none from hl1, content_nil, lexSign_cons_nil (content_ne_nil hne0)]; rfl
    | cons g' c1 =>
      rw [hl1.1, content_cons, content_cons, ← back_fragsize hinv.heap g, ← back_fragsize hinv.heap g']
      refine cmpLoop_spec hinv.heap (2 * s.rounds) g g' c0 c1 _ _ hl0.2 hl1.2 ?_ (hsize g (hne0 g (by simp))) (Int.le_refl _)
        (hsize g' (hne1 g' (by simp))) (Int.le_refl _) (by simp at hlen0 hlen1; omega)
      intro x hx
      rcases mem_append.1 hx with hx | hx
      · exact hne0 x (mem_cons_of_mem _ hx)
      · exact hne1 x (mem_cons_of_mem _ hx)

/-! ## `packetcopy` -/

/-- What is asked for is in the packet. -/
def InPacket (len offset n : Int) : Prop := n = 0 ∨ 0 ≤ offset ∧ 0 < n ∧ offset + n ≤ len

theorem packetcopy_spec (hinv : Inv s l chain (fun _ => 0)) (hp : s.Live p) {offset n : Int}
    (hsum : offset < (s.packet p).size → offset + n < 2 ^ 31) :
    ∃ r, packetcopy s p offset n = .ok r ∧ match r with
      | none => ¬ InPacket (s.packet p).size offset n
      | some b => InPacket (s.packet p).size offset n ∧ b = ((content s.heap (chain p)).drop offset.toNat).take n.toNat := by
  have hsize := (hinv.size p hp).trans (Int.add_zero _)
  have hq := hinv.queue p hp
  unfold packetcopy
  rw [notfree_of_live hp]
  split
  · rename_i h0
    exact ⟨_, rfl, .inl h0, by rw [h0]; rfl⟩
  rename_i h0
  split
  · refine ⟨_, rfl, fun h => ?_⟩
    rcases h with h | h
    · exact h0 h
    · omega
  split
  · rename_i hbig
    refine ⟨_, rfl, fun h => ?_⟩
    rcases h with h | h
    · exact h0 h
    · rw [int32_eq (by omega) (by omega)] at hbig
      omega
  rename_i hcheck
  have hn : 0 < n := by omega
  have hsum' := hsum (by omega)
  rw [int32_eq (by omega) hsum'] at hcheck
  have hin : InPacket (s.packet p).size offset n := .inr ⟨by omega, hn, by omega⟩
  obtain ⟨⟨f, off⟩, hskip, c1, c2, hchain, hoff', hoff0, hofflt⟩ := (skipLoop_spec (chain p) s.rounds (s.packet p).first offset
    hq.linked (hinv.length_chain p) (by omega)).exists_ok (by rintro e ⟨-, hle⟩; omega)
  rw [hskip]
  dsimp only at hchain hoff' hoff0 hofflt
  have htotal : total s.heap (chain p) = total s.heap c1 + total s.heap (f :: c2) := by rw [hchain, total_append]
  have hdrop : (content s.heap (chain p)).drop offset.toNat = (content s.heap (f :: c2)).drop off.toNat := by
    rw [hchain, content_append, @drop_part _ _ offset off (by rw [hinv.heap.length_content]; exact hoff') hoff0]
  have hlen := hinv.heap.length_bytes f
  have h1pos := hinv.heap.total_nonneg c1
  rw [hdrop]
  change ∃ r, (if int32 (off + n) ≤ s.heap.fragsize f then _ else _) = _ ∧ _
  rw [int32_eq (by omega) (by omega)]
  split
  · refine ⟨_, rfl, hin, ?_⟩
    have hload := @load_bytes s.heap f off.toNat n.toNat (by omega)
    rw [content_cons, drop_append_of_le_length (by omega), take_append_of_le_length (by rw [length_drop]; omega)]
    exact hload
  have hlink := hq.linked
  rw [hchain] at hlink
  have hlenc := hinv.length_chain p
  rw [hchain, length_append] at hlenc
  obtain ⟨b, hpeek, rfl⟩ := (peekLoop_spec hinv.heap (f :: c2) s.rounds (some f) off n hlink.node (by omega) hoff0
    (by rintro g c heq; obtain ⟨rfl, rfl⟩ := cons.inj heq; omega) (.inl (by omega))).exists_ok fun _ h => h
  rw [hpeek]
  exact ⟨_, rfl, hin, rfl⟩

/-! ## `packetconsume` -/

theorem modify_congr {c : Nat → Option (List UInt8)} {x : List UInt8} (h : c p = some x) {g g' : List UInt8 → List UInt8}
    (hg : g x = g' x) : modify c p g = modify c p g' := by
  rw [modify_some h, modify_some h, hg]

theorem trimRest_spec (hinv : Inv s l chain (fun _ => 0)) (hp : s.Live p) {n : Int} (hn : n < 2 ^ 31) :
    ∃ ok s', packettrim s p n (int32 ((s.packet p).size - n)) = .ok (ok, s') ∧
      if ok then (0 ≤ n ∧ n ≤ (s.packet p).size) ∧ ∃ l' chain',
        Ran s l chain (chain p) s' l' chain' (fun _ => 0) (modify (contents s) p (·.drop n.toNat))
      else ¬ (0 ≤ n ∧ n ≤ (s.packet p).size) ∧ s' = s := by
  have hsize := (hinv.size p hp).trans (Int.add_zero _)
  have hlim := hinv.limit p hp
  have hpos := hp.2
  have hmax := int32_le_max ((s.packet p).size - n)
  have hrest : 0 ≤ n → int32 ((s.packet p).size - n) = (s.packet p).size - n := fun h0 => int32_eq (by omega) (by omega)
  obtain ⟨⟨ok, s'⟩, hrun, hr⟩ := (packettrim_spec hinv hp hn (by omega : int32 ((s.packet p).size - n) < 2 ^ 31)).exists_ok
    fun _ h => h.2 (by
      by_cases h0 : 0 ≤ n
      · omega
      · omega)
  refine ⟨ok, s', hrun, ?_⟩
  cases ok with
  | false =>
    refine ⟨fun h => hr.1 ?_, hr.2⟩
    omega
  | true =>
    obtain ⟨⟨h0, h1, h2⟩, l', chain', hran⟩ := hr
    rw [hrest h0] at h1 h2 hran
    have hlen := hinv.heap.length_content (chain p)
    have hall : modify (contents s) p (fun x => (x.drop n.toNat).take ((s.packet p).size - n).toNat) =
        modify (contents s) p (·.drop n.toNat) :=
      modify_congr (hinv.contents_live hp) (take_of_length_le (by rw [length_drop]; omega))
    rw [hall] at hran
    exact ⟨⟨h0, by omega⟩, l', chain', hran⟩

theorem packetconsume_spec (hinv : Inv s l chain (fun _ => 0)) (hp : s.Live p) {n : Int} (hn : n < 2 ^ 31) (buf : Bool) :
    ∃ b s', packetconsume s p buf n = .ok (b, s') ∧ match b with
      | none => ¬ (0 ≤ n ∧ n ≤ (s.packet p).size) ∧ s' = s
      | some b => (0 ≤ n ∧ n ≤ (s.packet p).size) ∧ b = (if buf then (content s.heap (chain p)).take n.toNat else []) ∧
        ∃ l' chain', Ran s l chain (chain p) s' l' chain' (fun _ => 0) (modify (contents s) p (·.drop n.toNat)) := by
  obtain ⟨ok, s', htrim, hs'⟩ := trimRest_spec hinv hp hn
  unfold packetconsume
  rw [notfree_of_live hp]
  have hfinish : ∀ b, (0 ≤ n → n ≤ (s.packet p).size → b = if buf then (content s.heap (chain p)).take n.toNat else []) →
      ∃ r s1, (do
        let x ← packettrim s p n (int32 ((s.packet p).size - n))
        return (if x.1 then some b else none, x.2) : Except Fault (Option (List UInt8) × State)) = .ok (r, s1) ∧ match r with
      | none => ¬ (0 ≤ n ∧ n ≤ (s.packet p).size) ∧ s1 = s
      | some b => (0 ≤ n ∧ n ≤ (s.packet p).size) ∧ b = (if buf then (content s.heap (chain p)).take n.toNat else []) ∧
        ∃ l' chain', Ran s l chain (chain p) s1 l' chain' (fun _ => 0) (modify (contents s) p (·.drop n.toNat)) := by
    intro b hb
    rw [htrim]
    cases ok with
    | false => exact ⟨_, _, rfl, hs'⟩
    | true =>
      exact ⟨_, _, rfl, hs'.1, hb hs'.1.1 hs'.1.2, hs'.2⟩
  cases buf with
  | false => exact hfinish [] fun _ _ => rfl
  | true =>
    obtain ⟨r, hcopy, hr⟩ := packetcopy_spec hinv hp (show 0 < (s.packet p).size → 0 + n < 2 ^ 31 from fun _ => by omega)
    cases r with
    | none =>
      refine ⟨none, s, by simp only [bind, Except.bind, hcopy, if_pos]; rfl, fun h => hr ?_, rfl⟩
      by_cases h0 : n = 0
      · exact .inl h0
      · exact .inr ⟨Int.le_refl 0, by omega, by omega⟩
    | some b =>
      have := hfinish b fun _ _ => hr.2
      simp only [bind, Except.bind, hcopy, if_pos] at this ⊢
      exact this

end

end Plan9.Venti.Packets
