/-
The tree a linked AVL tree is: nodes, each with the balance that is stored in
it, and the operations of `libavl/avl.c` on it.

These are the operations without pointers: what `singleleft` stores in `bal`
is computed as there, and `none` is where the code would follow a nil pointer
or run into `assert(0)`. That on a balanced tree it does neither, and what the
heights then are, is `balance_spec` and what is built on it.
-/
import Mathlib.Data.List.Basic
import Mathlib.Tactic.Ring

namespace Plan9.Libavl

variable {A : Type}

inductive Tree (A : Type)
  | nil
  | node (l : Tree A) (a : A) (bal : Int) (r : Tree A)

/-- `x > 0? x: 0` -/
def pos (x : Int) : Int := if x > 0 then x else 0

def canoncmp (cmp : Int) : Int := if cmp < 0 then -1 else if cmp > 0 then 1 else 0

namespace Tree

def toList : Tree A → List A
  | nil => []
  | node l a _ r => l.toList ++ a :: r.toList

def root : Tree A → Option A
  | nil => none
  | node _ a _ _ => some a

def bal : Tree A → Int
  | nil => 0
  | node _ _ b _ => b

def height : Tree A → Nat
  | nil => 0
  | node l _ _ r => max l.height r.height + 1

/-- What is stored is the difference of the heights, and that is at most one. -/
def Balanced : Tree A → Prop
  | nil => True
  | node l _ b r => l.Balanced ∧ r.Balanced ∧ b = r.height - l.height ∧ -1 ≤ b ∧ b ≤ 1

/-! ## Rotations -/

def singleleft : Tree A → Option (Tree A)
  | node x a ba (node y c r2 z) =>
    let l := pos r2 + 1 - ba
    some (node (node x a (-l) y) c (r2 - (pos l + 1)) z)
  | _ => none

def singleright : Tree A → Option (Tree A)
  | node (node x c bc y) a ba z =>
    let l2 := -bc
    let r := ba + (pos l2 + 1)
    some (node x c ((pos r + 1) - l2) (node y a r z))
  | _ => none

def doublerightleft : Tree A → Option (Tree A)
  | node l a b r =>
    match singleright r with
    | none => none
    | some r => singleleft (node l a b r)
  | nil => none

def doubleleftright : Tree A → Option (Tree A)
  | node l a b r =>
    match singleleft l with
    | none => none
    | some l => singleright (node l a b r)
  | nil => none

def balance : Tree A → Option (Tree A)
  | nil => none
  | node l a b r =>
    if b = -2 then
      if l.bal ≤ 0 then singleright (node l a b r)
      else if l.bal = 1 then doubleleftright (node l a b r)
      else none
    else if b = 2 then
      if r.bal ≥ 0 then singleleft (node l a b r)
      else if r.bal = -1 then doublerightleft (node l a b r)
      else none
    else some (node l a b r)

variable {t x t' y z : Tree A} {a c : A}

theorem toList_singleleft (h : singleleft t = some t') : t'.toList = t.toList := by
  cases t with
  | nil => cases h
  | node x a ba r =>
    cases r with
    | nil => cases h
    | node y c r2 z => cases h; simp [toList]

theorem toList_singleright (h : singleright t = some t') : t'.toList = t.toList := by
  cases t with
  | nil => cases h
  | node l a ba z =>
    cases l with
    | nil => cases h
    | node x c bc y => cases h; simp [toList]

theorem toList_doublerightleft (h : doublerightleft t = some t') : t'.toList = t.toList := by
  cases t with
  | nil => cases h
  | node l a b r =>
    rw [doublerightleft] at h
    cases hr : singleright r with
    | none => rw [hr] at h; cases h
    | some r' =>
      rw [hr] at h
      rw [toList_singleleft h, toList, toList, toList_singleright hr]

theorem toList_doubleleftright (h : doubleleftright t = some t') : t'.toList = t.toList := by
  cases t with
  | nil => cases h
  | node l a b r =>
    rw [doubleleftright] at h
    cases hl : singleleft l with
    | none => rw [hl] at h; cases h
    | some l' =>
      rw [hl] at h
      rw [toList_singleright h, toList, toList, toList_singleleft hl]

theorem toList_balance (h : balance t = some t') : t'.toList = t.toList := by
  cases t with
  | nil => cases h
  | node l a b r =>
    rw [balance] at h
    split at h
    · split at h
      · exact toList_singleright h
      · split at h
        · exact toList_doubleleftright h
        · cases h
    split at h
    · split at h
      · exact toList_singleleft h
      · split at h
        · exact toList_doublerightleft h
        · cases h
    · cases h; rfl

/-- A tree that is too high on the left by two, and in which the left side is not too high on its right, is put right
by one rotation. -/
theorem singleright_spec {bc : Int} (hl : (node x c bc y).Balanced) (hz : z.Balanced)
    (hb : (z.height : Int) + 2 = (node x c bc y).height) (hbc : bc ≤ 0) :
    ∃ t, singleright (node (node x c bc y) a (-2) z) = some t ∧ t.Balanced ∧ t.bal = bc + 1 ∧
      (t.height : Int) = (node (node x c bc y) a (-2) z).height - 1 + t.bal := by
  obtain ⟨hx, hy, _, _, _⟩ := hl
  rcases (show bc = -1 ∨ bc = 0 by omega) with rfl | rfl
  · refine ⟨node x c 0 (node y a 0 z), rfl, ?_, rfl, ?_⟩ <;> simp only [Balanced, height, bal] at hb ⊢
    · refine ⟨hx, ⟨hy, hz, ?_, ?_, ?_⟩, ?_, ?_, ?_⟩ <;> omega
    · omega
  · refine ⟨node x c 1 (node y a (-1) z), rfl, ?_, rfl, ?_⟩ <;> simp only [Balanced, height, bal] at hb ⊢
    · refine ⟨hx, ⟨hy, hz, ?_, ?_, ?_⟩, ?_, ?_, ?_⟩ <;> omega
    · omega

theorem singleleft_spec {bc : Int} (hr : (node y c bc z).Balanced) (hx : x.Balanced)
    (hb : (x.height : Int) + 2 = (node y c bc z).height) (hbc : 0 ≤ bc) :
    ∃ t, singleleft (node x a 2 (node y c bc z)) = some t ∧ t.Balanced ∧ t.bal = bc - 1 ∧
      (t.height : Int) = (node x a 2 (node y c bc z)).height - 1 - t.bal := by
  obtain ⟨hy, hz, _, _, _⟩ := hr
  rcases (show bc = 1 ∨ bc = 0 by omega) with rfl | rfl
  · refine ⟨node (node x a 0 y) c 0 z, rfl, ?_, rfl, ?_⟩ <;> simp only [Balanced, height, bal] at hb ⊢
    · refine ⟨⟨hx, hy, ?_, ?_, ?_⟩, hz, ?_, ?_, ?_⟩ <;> omega
    · omega
  · refine ⟨node (node x a 1 y) c (-1) z, rfl, ?_, rfl, ?_⟩ <;> simp only [Balanced, height, bal] at hb ⊢
    · refine ⟨⟨hx, hy, ?_, ?_, ?_⟩, hz, ?_, ?_, ?_⟩ <;> omega
    · omega

theorem double_spec {y1 y2 : Tree A} (a c d : A) {bd : Int} (hx : x.Balanced) (hz : z.Balanced)
    (hy : (node y1 d bd y2).Balanced) (hxz : x.height = z.height) (hh : (node y1 d bd y2).height = z.height + 1) :
    (node (node x a (if bd = 1 then -1 else 0) y1) d 0 (node y2 c (if bd = -1 then 1 else 0) z)).Balanced ∧
      (node (node x a (if bd = 1 then -1 else 0) y1) d 0 (node y2 c (if bd = -1 then 1 else 0) z)).height =
        z.height + 2 := by
  obtain ⟨hy1, hy2, _, _, _⟩ := hy
  simp only [Balanced, height] at hh ⊢
  rcases (show bd = -1 ∨ bd = 0 ∨ bd = 1 by omega) with rfl | rfl | rfl <;>
    exact ⟨⟨⟨hx, hy1, by omega, by decide, by decide⟩, ⟨hy2, hz, by omega, by decide, by decide⟩,
      by omega, by decide, by decide⟩, by omega⟩

theorem doubleleftright_spec (hl : (node x c 1 y).Balanced) (hz : z.Balanced)
    (hb : (z.height : Int) + 2 = (node x c 1 y).height) :
    ∃ t, doubleleftright (node (node x c 1 y) a (-2) z) = some t ∧ t.Balanced ∧ t.bal = 0 ∧
      (t.height : Int) = (node (node x c 1 y) a (-2) z).height - 1 := by
  obtain ⟨hx, hy, hdiff, -, -⟩ := hl
  rw [height] at hb
  cases y with
  | nil => simp only [height] at hdiff; omega
  | node y1 d bd y2 =>
    have H := double_spec c a d hx hz hy (by omega) (by omega)
    rcases (show bd = -1 ∨ bd = 0 ∨ bd = 1 by have := hy.2.2.2; omega) with rfl | rfl | rfl <;>
      exact ⟨_, rfl, H.1, rfl, by have := H.2; simp only [height] at *; omega⟩

theorem doublerightleft_spec (hr : (node y c (-1) z).Balanced) (hx : x.Balanced)
    (hb : (x.height : Int) + 2 = (node y c (-1) z).height) :
    ∃ t, doublerightleft (node x a 2 (node y c (-1) z)) = some t ∧ t.Balanced ∧ t.bal = 0 ∧
      (t.height : Int) = (node x a 2 (node y c (-1) z)).height - 1 := by
  obtain ⟨hy, hz, hdiff, -, -⟩ := hr
  rw [height] at hb
  cases y with
  | nil => simp only [height] at hdiff; omega
  | node y1 d bd y2 =>
    have H := double_spec a c d hx hz hy (by omega) (by omega)
    rcases (show bd = -1 ∨ bd = 0 ∨ bd = 1 by have := hy.2.2.2; omega) with rfl | rfl | rfl <;>
      exact ⟨_, rfl, H.1, rfl, by have := H.2; simp only [height] at *; omega⟩

/-- `balance` on a tree one side of which may be too high by one: the `assert(0)` are out of reach, and it is lower by
one exactly if it was too high and is even now. -/
theorem balance_spec {l r : Tree A} {b : Int} (hl : l.Balanced) (hr : r.Balanced)
    (hb : b = r.height - l.height) (hlo : -2 ≤ b) (hhi : b ≤ 2) :
    ∃ t, balance (node l a b r) = some t ∧ t.Balanced ∧
      (-1 ≤ b ∧ b ≤ 1 ∧ t = node l a b r ∨
       (b = -2 ∧ (l.bal ≠ 0 ↔ t.bal = 0) ∨ b = 2 ∧ (r.bal ≠ 0 ↔ t.bal = 0)) ∧
         (t.height : Int) = (node l a b r).height - if t.bal = 0 then 1 else 0) := by
  by_cases h2 : b = -2
  · subst h2
    cases l with
    | nil => simp only [height] at hb; omega
    | node x c bc y =>
      have hb' : (r.height : Int) + 2 = (node x c bc y).height := by omega
      have hbc := hl.2.2.2
      by_cases hle : bc ≤ 0
      · obtain ⟨t, ht, htb, hbal, hh⟩ := @singleright_spec A x y r a c bc hl hr hb' hle
        refine ⟨t, by simp only [balance, bal, hle, if_true]; exact ht, htb, .inr ⟨.inl ⟨rfl, ?_⟩, ?_⟩⟩
        · simp only [bal] at hbal ⊢
          omega
        · split <;> omega
      obtain rfl : bc = 1 := by omega
      obtain ⟨t, ht, htb, hbal, hh⟩ := @doubleleftright_spec A x y r a c hl hr hb'
      refine ⟨t, by simpa [balance, bal] using ht, htb, .inr ⟨.inl ⟨rfl, ?_⟩, ?_⟩⟩
      · exact ⟨fun _ => hbal, fun _ => show (1 : Int) ≠ 0 by decide⟩
      · rw [hh, hbal]; rfl
  by_cases h2' : b = 2
  · subst h2'
    cases r with
    | nil => simp only [height] at hb; omega
    | node y c bc z =>
      have hb' : (l.height : Int) + 2 = (node y c bc z).height := by omega
      have hbc := hr.2.2.2
      by_cases hge : 0 ≤ bc
      · obtain ⟨t, ht, htb, hbal, hh⟩ := @singleleft_spec A l y z a c bc hr hl hb' hge
        refine ⟨t, by simp [balance, bal, hge, ht], htb, .inr ⟨.inr ⟨rfl, ?_⟩, ?_⟩⟩
        · simp only [bal] at hbal ⊢
          omega
        · split <;> omega
      obtain rfl : bc = -1 := by omega
      obtain ⟨t, ht, htb, hbal, hh⟩ := @doublerightleft_spec A l y z a c hr hl hb'
      refine ⟨t, by simpa [balance, bal] using ht, htb, .inr ⟨.inr ⟨rfl, ?_⟩, ?_⟩⟩
      · exact ⟨fun _ => hbal, fun _ => show (-1 : Int) ≠ 0 by decide⟩
      · rw [hh, hbal]; rfl
  refine ⟨node l a b r, by rw [balance, if_neg h2, if_neg h2'], ?_, .inl ⟨?_, ?_, rfl⟩⟩
  · exact ⟨hl, hr, hb, by omega, by omega⟩
  · omega
  · omega

/-! ## Insertion -/

variable (cmp : A → A → Int)

/-- The tree, what `_insertavl` returns, by how much the tree is higher, and the node replaced. -/
def insert (r : A) : Tree A → Option (Tree A × Int × Option A)
  | nil => some (node nil r 0 nil, 1, none)
  | node l a ob rt =>
    let i := canoncmp (cmp r a)
    if i = 0 then some (node l r ob rt, 0, some a)
    else if i = 1 then
      match insert r rt with
      | none => none
      | some (rt, d, rfree) =>
        match balance (node l a (ob + i * d) rt) with
        | none => none
        | some t => some (t, if ob = 0 ∧ t.bal ≠ 0 then 1 else 0, rfree)
    else
      match insert r l with
      | none => none
      | some (l, d, rfree) =>
        match balance (node l a (ob + i * d) rt) with
        | none => none
        | some t => some (t, if ob = 0 ∧ t.bal ≠ 0 then 1 else 0, rfree)

/-! ## Deletion -/

/-- The tree without its first node, what `successor` returns, by how much it is higher, and that node. -/
def successor : Tree A → Option (Tree A × Int × A)
  | nil => none
  | node l a ob rt =>
    match l with
    | nil => some (rt, -1, a)
    | node _ _ _ _ =>
      match successor l with
      | none => none
      | some (l, d, r) =>
        match balance (node l a (ob - d) rt) with
        | none => none
        | some t => some (t, if ob ≠ 0 ∧ t.bal = 0 then -1 else 0, r)

/-- The tree, what `_deleteavl` returns, by how much it is higher, and the node taken out. -/
def delete (rx : A) : Tree A → Option (Tree A × Int × Option A)
  | nil => some (nil, 0, none)
  | node l a ob rt =>
    let i := canoncmp (cmp rx a)
    if i = 0 then
      match l, rt with
      | nil, rt => some (rt, -1, some a)
      | l, nil => some (l, -1, some a)
      | l, rt =>
        match successor rt with
        | none => none
        | some (rt, d, r) =>
          match balance (node l r (ob + d) rt) with
          | none => none
          | some t => some (t, if ob ≠ 0 ∧ t.bal = 0 then -1 else 0, some a)
    else if i = 1 then
      match delete rx rt with
      | none => none
      | some (rt, d, del) =>
        match balance (node l a (ob + i * d) rt) with
        | none => none
        | some t => some (t, if ob ≠ 0 ∧ t.bal = 0 then -1 else 0, del)
    else
      match delete rx l with
      | none => none
      | some (l, d, del) =>
        match balance (node l a (ob + i * d) rt) with
        | none => none
        | some t => some (t, if ob ≠ 0 ∧ t.bal = 0 then -1 else 0, del)

end Tree

end Plan9.Libavl
