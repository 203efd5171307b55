/-
What editing commands leave of a text, on the buffers: those of the log are the records of
`Elogs` as long as the temporary file does not wrap (`Logs`), and each that is applied makes
its change of the text (`Edited`).
-/
import Plan9.Acme.ElogRecords
import Plan9.Acme.FileUndo

namespace Plan9.Acme

open Changes Function List

/-! ## The log -/

theorem Buflog.ofRunes_runes (b : Buflog) : Buflog.ofRunes b.runes = b := by
  rw [Buflog.runes, Buflog.ofRunes, UInt16.toUInt16_toUInt32]

/-- What `elogflush` puts into the log. -/
def Elog.runes (e : Elog) : List Rune :=
  if e.type = Insert ∨ e.type = Replace then e.r ++ e.buflog.runes else if e.type = Delete then e.buflog.runes else []

def logRunes : List Elog → List Rune
  | [] => []
  | e :: es => logRunes es ++ e.runes

/-- The file `f` with the log that is in the buffer `k`. -/
structure Logs (f : File) (k : Nat) (g : Elogs) (l : Logging) (w : World) : Prop where
  log : l = ⟨f, g.elog, k⟩
  text : ∃ t, w.Has t ∧ t f.body = g.body ∧ (g.elog.type ≠ Elog.Empty → g.elogbuf.map logRunes = some (t k))

theorem reset_does {w : World} {t : Nat → List Rune} (h : w.Has t) (k : Nat) :
    Does (fun _ w' => w'.Has (update t k [])) (call (.reset k)) w :=
  (call_does (.reset k) h trivial).mono fun _ _ h => h.1

section

variable {f : File} {k : Nat} {g : Elogs} {l : Logging} {w : World} {q0 q1 : UInt32} {r : List Rune} (hk : f.body ≠ k)

theorem elogput_does {t : Nat → List Rune} (h : w.Has t) (e : Elog) (k : Nat) :
    Does (fun _ w' => w'.Has (update t k (t k ++ e.runes))) (elogput e k) w := by
  rw [elogput, Elog.runes]
  split
  · by_cases hr : e.r.length > 0
    · rw [if_pos hr]
      refine Within.bind (bufappend_does h k e.r) ?_
      rintro - w1 - h1
      refine (bufappend_does h1 k _).mono ?_
      rintro - w2 h2
      rw [update_self, update_idem, append_assoc] at h2
      exact h2
    · rw [if_neg hr, eq_nil_of_length_eq_zero (Nat.eq_zero_of_not_pos hr), nil_append]
      exact bufappend_does h k _
  split
  · exact bufappend_does h k _
  · refine Within.pure ?_
    rw [append_nil, update_eq_self]
    exact h

theorem eloginit_type (g : Elogs) : (Elogs.eloginit g).elog.type ≠ Elog.Empty := by
  rw [Elogs.eloginit]
  split
  · assumption
  · exact (by decide : Null ≠ Elog.Empty)

theorem sequence_type {c : Prop} [Decidable c] (hg : g.elog.type ≠ Elog.Empty) :
    (if c then Elogs.elogflush g else g).elog.type ≠ Elog.Empty := by
  split
  · exact (by decide : Null ≠ Elog.Empty)
  · exact hg

include hk

/-- **eloginit** -/
theorem eloginit_does (h : Logs f k g l w) : Does (Logs f k (Elogs.eloginit g)) (eloginit l) w := by
  obtain ⟨rfl, t, ht, hbody, hlog⟩ := h
  rw [eloginit, Elogs.eloginit]
  split
  · exact Within.pure ⟨rfl, t, ht, hbody, hlog⟩
  refine Within.bind (reset_does ht k) ?_
  rintro - w1 - h1
  refine Within.pure ⟨rfl, _, h1, (update_of_ne hk _ _).trans hbody, fun _ => ?_⟩
  rw [update_self]
  rfl

/-- **elogflush** -/
theorem elogflush_does (h : Logs f k g l w) (hg : g.elog.type ≠ Elog.Empty) :
    Does (Logs f k (Elogs.elogflush g)) (elogflush l) w := by
  obtain ⟨rfl, t, ht, hbody, hlog⟩ := h
  obtain ⟨es, hes, htext⟩ := Option.map_eq_some_iff.1 (hlog hg)
  refine Within.bind (elogput_does ht g.elog k) ?_
  rintro - w1 - h1
  refine Within.pure ⟨rfl, _, h1, (update_of_ne hk _ _).trans hbody, fun _ => ?_⟩
  rw [update_self, ← htext, Elogs.elogflush, Elogs.elogreset]
  dsimp only
  split
  · rw [hes]
    rfl
  · rename_i hnot
    have hnil : g.elog.runes = [] := by
      rw [Elog.runes, if_neg fun h => hnot (h.imp_right .inl), if_neg fun h => hnot (.inr (.inr h))]
    rw [hes, hnil, append_nil]
    rfl

/-- The log before a call, whether it is out of sequence or not. -/
theorem sequence_does {c : Prop} [Decidable c] (h : Logs f k g l w) (hg : g.elog.type ≠ Elog.Empty) :
    Does (Logs f k (if c then Elogs.elogflush g else g)) (if c then elogflush l else pure l) w := by
  split
  · exact elogflush_does hk h hg
  · exact Within.pure h

/-- **elogdelete** -/
theorem elogdelete_does (h : Logs f k g l w) :
    Does (Logs f k (Elogs.elogdelete g q0 q1)) (elogdelete l q0 q1) w := by
  rw [elogdelete, Elogs.elogdelete]
  split
  · exact Within.pure h
  refine Within.bind (eloginit_does hk h) ?_
  intro l1 w1 _ h1
  have hg := eloginit_type g
  generalize Elogs.eloginit g = g at h1 hg ⊢
  obtain rfl := h1.log
  refine Within.bind (sequence_does hk h1 hg) ?_
  intro l2 w2 _ h2
  have hg := sequence_type (c := g.elog.type ≠ Null ∧ q0 < g.elog.q0 + g.elog.nd) hg
  dsimp only
  generalize (if g.elog.type ≠ Null ∧ q0 < g.elog.q0 + g.elog.nd then Elogs.elogflush g else g) = g at h2 hg ⊢
  obtain rfl := h2.log
  dsimp only
  split
  · obtain ⟨-, t, ht, hbody, hlog⟩ := h2
    exact Within.pure ⟨rfl, t, ht, hbody, fun _ => hlog hg⟩
  refine Within.bind (elogflush_does hk h2 hg) ?_
  rintro l3 w3 - ⟨rfl, t, ht, hbody, hlog⟩
  exact Within.pure ⟨rfl, t, ht, hbody, fun _ => hlog (by decide : Null ≠ Elog.Empty)⟩

theorem eloginsertLoop_does : ∀ (fuel : Nat) {g : Elogs} {l : Logging} {w : World} {r : List Rune}, Logs f k g l w →
    g.elog.type ≠ Elog.Empty → r.length ≤ fuel →
    Does (Logs f k (Elogs.insertLoop g q0 r)) (eloginsertLoop q0 fuel l r) w := by
  intro fuel
  induction fuel with
  | zero =>
    intro g l w r h hg hr
    obtain rfl := eq_nil_of_length_eq_zero (Nat.le_zero.1 hr)
    rw [Elogs.insertLoop, dif_pos rfl]
    exact Within.pure h
  | succ fuel ih =>
    intro g l w r h hg hr
    cases r with
    | nil =>
      rw [Elogs.insertLoop, dif_pos rfl]
      exact Within.pure h
    | cons a r =>
      have hpos : 0 < RBUFSIZE := by decide
      rw [Elogs.insertLoop, dif_neg (cons_ne_nil a r)]
      refine Within.bind (elogflush_does hk h hg) ?_
      rintro l1 w1 - ⟨rfl, t, ht, hbody, hlog⟩
      refine ih ⟨rfl, t, ht, hbody, fun _ => hlog (by decide : Null ≠ Elog.Empty)⟩ (by decide : Insert ≠ Elog.Empty) ?_
      rw [length_drop]
      omega

/-- **eloginsert** -/
theorem eloginsert_does (h : Logs f k g l w) : Does (Logs f k (Elogs.eloginsert g q0 r)) (eloginsert l q0 r) w := by
  rw [eloginsert, Elogs.eloginsert]
  split
  · exact Within.pure h
  refine Within.bind (eloginit_does hk h) ?_
  intro l1 w1 _ h1
  have hg := eloginit_type g
  generalize Elogs.eloginit g = g at h1 hg ⊢
  obtain rfl := h1.log
  refine Within.bind (sequence_does hk h1 hg) ?_
  intro l2 w2 _ h2
  have hg := sequence_type (c := g.elog.type ≠ Null ∧ q0 < g.elog.q0) hg
  dsimp only
  generalize (if g.elog.type ≠ Null ∧ q0 < g.elog.q0 then Elogs.elogflush g else g) = g at h2 hg ⊢
  obtain rfl := h2.log
  dsimp only
  split
  · obtain ⟨-, t, ht, hbody, hlog⟩ := h2
    exact Within.pure ⟨rfl, t, ht, hbody, fun _ => hlog hg⟩
  · exact eloginsertLoop_does hk _ h2 hg le_rfl

/-- **elogreplace**: what it reads of the text is between the changes. -/
theorem elogreplace_does {es : List Elog} (h : Logs f k g l w) (ho : Elogs.Opened g es)
    (hin : InOrder (es.map Elog.change) q0.toNat) (hq : q0.toNat ≤ g.body.length) (hr : r.length ≤ RBUFSIZE) :
    Does (fun l' w' => ∃ g', Elogs.elogreplace g q0 q1 r = some g' ∧ Logs f k g' l' w') (elogreplace l q0 q1 r) w := by
  rw [elogreplace, Elogs.elogreplace]
  split
  · exact Within.pure ⟨g, rfl, h⟩
  obtain ⟨hinit, hsame⟩ := ho.eloginit
  rw [← hsame] at hq
  refine Within.bind (eloginit_does hk h) ?_
  intro l1 w1 _ h1
  have hg := eloginit_type g
  generalize Elogs.eloginit g = g at h1 hg hinit hq ⊢
  obtain rfl := h1.log
  dsimp only
  rw [if_neg (hinit.in_sequence hin).1, if_neg (hinit.in_sequence hin).1]
  refine Within.bind (Within.pure h1) ?_
  intro l2 w2 _ h2
  obtain rfl := h2.log
  dsimp only
  split
  · rename_i hmerge
    obtain ⟨_, rfl, hw⟩ := hinit.waits (by rw [hmerge.1]; decide)
    have hafter : (g.elog.q0 + g.elog.nd).toNat ≤ q0.toNat := hin.2.2
    have hgap : (q0 - (g.elog.q0 + g.elog.nd)).toNat = q0.toNat - (g.elog.q0 + g.elog.nd).toNat :=
      UInt32.toNat_sub_of_le _ _ (UInt32.le_iff_toNat_le.2 hafter)
    obtain ⟨-, t, ht, hbody, hlog⟩ := h2
    have hread : Does (fun s w' => w'.Has t ∧
          s = (g.body.drop (g.elog.q0 + g.elog.nd).toNat).take (q0 - (g.elog.q0 + g.elog.nd)).toNat)
        (if q0 - (g.elog.q0 + g.elog.nd) > 0 then
          call (.read f.body (g.elog.q0 + g.elog.nd).toNat (q0 - (g.elog.q0 + g.elog.nd)).toNat) else pure []) w2 := by
      split
      · rw [← hbody]
        refine read_does ht ?_
        rw [hbody, hgap]
        omega
      · rename_i hzero
        have hnone : (q0 - (g.elog.q0 + g.elog.nd)).toNat = 0 := by
          rw [gt_iff_lt, UInt32.lt_iff_toNat_lt] at hzero
          exact Nat.eq_zero_of_not_pos hzero
        rw [hnone]
        exact Within.pure ⟨ht, rfl⟩
    refine Within.bind hread ?_
    rintro s w3 - ⟨h3, rfl⟩
    exact Within.pure ⟨_, rfl, rfl, t, h3, hbody, fun _ => hlog hg⟩
  refine Within.bind (elogflush_does hk h2 hg) ?_
  rintro l3 w3 - ⟨rfl, t, ht, hbody, hlog⟩
  rw [if_neg (Nat.not_lt.2 hr), if_neg (Nat.not_lt.2 hr)]
  exact Within.pure ⟨_, rfl, rfl, t, ht, hbody, fun _ => hlog (by decide : Null ≠ Elog.Empty)⟩

end

/-- What the calls accept: the length is an `int`, and a replacement fits in `elog.r`. -/
def Elogcall.Accepted : Elogcall → Prop
  | .insert _ r => r.length < 2 ^ 31
  | .delete _ _ => True
  | .replace _ _ r => r.length ≤ RBUFSIZE

theorem Elogcall.Accepted.length_lt {c : Elogcall} (h : c.Accepted) : c.change.r.length < 2 ^ 31 := by
  cases c with
  | insert q0 r => exact h
  | delete q0 q1 => exact (by decide : 0 < 2 ^ 31)
  | replace q0 q1 r => exact Nat.lt_of_le_of_lt h (by decide)

/-- **The calls** put into the log what they do to the records. -/
theorem logged_does {f : File} {k n : Nat} {w : World} {t : Nat → List Rune} {calls : List Elogcall} (hk : f.body ≠ k)
    (h : w.Has t) (hin : InOrder (calls.map Elogcall.change) n) (hn : n ≤ (t f.body).length)
    (hacc : ∀ c ∈ calls, c.Accepted) :
    Does (fun l w' => ∃ g, Elogs.logged (Elogs.edited (t f.body)) calls = some g ∧ Logs f k g l w')
      (logged ⟨f, ⟨Elog.Empty, 0, 0, []⟩, k⟩ calls) w := by
  induction calls generalizing n with
  | nil => exact Within.pure ⟨_, rfl, rfl, t, h, rfl, fun hne => absurd rfl hne⟩
  | cons c cs ih =>
    obtain ⟨hcs, hle, hle'⟩ := hin
    have hrest : ∀ c ∈ cs, c.Accepted := fun c hc => hacc c (mem_cons_of_mem _ hc)
    have hq := Nat.le_trans hle (Nat.le_trans hle' hn)
    refine Within.bind (ih hcs hq hrest) ?_
    rintro l1 w1 - ⟨g, hg, h1⟩
    obtain ⟨es, hopened, hbody, hin, -⟩ := Elogs.logged_opened hcs (fun c hc => (hrest c hc).length_lt) hg
    rw [Elogs.logged, hg, Option.bind_some]
    cases c with
    | insert q0 r => exact (eloginsert_does hk h1).mono fun _ _ h => ⟨_, rfl, h⟩
    | delete q0 q1 => exact (elogdelete_does hk h1).mono fun _ _ h => ⟨_, rfl, h⟩
    | replace q0 q1 r => exact elogreplace_does hk h1 hopened hin (hbody ▸ hq) (hacc _ mem_cons_self)

/-! ## Applying -/

/-- The log is in none of the file's buffers. -/
structure File.Logged (f : File) (k : Nat) : Prop where
  apart : f.Apart f.delta f.epsilon
  body : f.body ≠ k
  delta : f.delta ≠ k
  epsilon : f.epsilon ≠ k

/-- The file, which was `f`, has the text `s`, and the log is `x`. -/
structure Edited (f : File) (k : Nat) (s x : List Rune) (f' : File) (w : World) : Prop where
  like : f.Like f'
  text : ∃ t, w.Has t ∧ t f.body = s ∧ t k = x

section

variable {f f' : File} {k p0 p1 : Nat} {s r x : List Rune} {w : World} {e : Elog}

/-- The text is changed in its buffer. -/
theorem changed_edited {t : Nat → List Rune} {op : Op} {c : Prop} [Decidable c] (hd : f.Logged k) (hlike : f.Like f')
    (hlog : t k = x) (hdo : Does (fun _ w' => w'.Has (update t f'.body s)) (call op) w) :
    Does (Edited f k s x) (do
      let _ ← call op
      return (if c then { f' with mod := true } else f')) w := by
  refine Within.bind hdo ?_
  rintro - w1 - h1
  rw [hlike.body] at h1
  refine Within.pure ⟨?_, _, h1, update_self .., (update_of_ne hd.body.symm ..).trans hlog⟩
  split
  · exact ⟨hlike.body, hlike.delta, hlike.epsilon⟩
  · exact hlike

theorem fileinsert_edited (hd : f.Logged k) (h : Edited f k s x f' w) (hp : p0 ≤ s.length) :
    Does (Edited f k (insertAt p0 r s) x) (fileinsert f' p0 r) w := by
  obtain ⟨hlike, t, ht, rfl, rfl⟩ := h
  have hlast : ∀ {w : World} {t' : Nat → List Rune}, w.Has t' → t' f.body = t f.body → t' k = t k →
      Does (Edited f k (insertAt p0 r (t f.body)) (t k)) (do
        let _ ← call (.insert f'.body p0 r)
        return (if r.length ≠ 0 then { f' with mod := true } else f')) w := by
    intro w t' h' hsame hlog
    rw [← hsame, ← hlike.body]
    exact changed_edited hd hlike hlog (insert_does h' (by rw [hlike.body, hsame]; exact hp))
  refine Within.bind (nc_does ht f'.body) ?_
  rintro n w' - ⟨rfl, rfl⟩
  rw [if_neg (by rw [hlike.body]; exact Nat.not_lt.2 hp)]
  by_cases hseq : f'.seq > 0
  · rw [if_pos hseq]
    refine Within.bind (fileuninsert_does ht f' f'.delta p0 r.length) ?_
    rintro - w1 - h1
    rw [hlike.delta] at h1
    exact hlast h1 (update_of_ne hd.apart.taken ..) (update_of_ne hd.delta.symm ..)
  · rw [if_neg hseq]
    exact hlast ht rfl rfl

theorem filedelete_edited (hd : f.Logged k) (h : Edited f k s x f' w) (hp : p0 ≤ p1) (hp1 : p1 ≤ s.length) :
    Does (Edited f k (deleteFrom p0 p1 s) x) (filedelete f' p0 p1) w := by
  obtain ⟨hlike, t, ht, rfl, rfl⟩ := h
  have hlast : ∀ {w : World} {t' : Nat → List Rune}, w.Has t' → t' f.body = t f.body → t' k = t k →
      Does (Edited f k (deleteFrom p0 p1 (t f.body)) (t k)) (do
        let _ ← call (.delete f'.body p0 p1)
        return (if p1 > p0 then { f' with mod := true } else f')) w := by
    intro w t' h' hsame hlog
    rw [← hsame, ← hlike.body]
    exact changed_edited hd hlike hlog (delete_does h' hp (by rw [hlike.body, hsame]; exact hp1))
  refine Within.bind (nc_does ht f'.body) ?_
  rintro n w' - ⟨rfl, rfl⟩
  rw [if_neg (by rw [hlike.body]; exact not_not.2 ⟨hp, Nat.le_trans hp hp1, hp1⟩)]
  by_cases hseq : f'.seq > 0
  · rw [if_pos hseq]
    have hne : f'.body ≠ f'.delta := by rw [hlike.body, hlike.delta]; exact hd.apart.taken
    refine Within.bind (fileundelete_does ht f' hne hp (by rw [hlike.body]; exact hp1)) ?_
    rintro - w1 - h1
    rw [hlike.delta] at h1
    exact hlast h1 (update_of_ne hd.apart.taken ..) (update_of_ne hd.delta.symm ..)
  · rw [if_neg hseq]
    exact hlast ht rfl rfl

theorem filemark_edited (hd : f.Logged k) (h : Edited f k s x f' w) (mod : Bool) (seq : UInt32) :
    Does (Edited f k s x) (if mod then pure f' else filemark f' seq) w := by
  cases mod with
  | true => exact Within.pure h
  | false =>
    obtain ⟨hlike, t, ht, rfl, rfl⟩ := h
    refine Within.bind (nc_does ht f'.epsilon) ?_
    rintro n w' - ⟨rfl, rfl⟩
    have hlike' : f.Like { f' with seq := seq.toInt32 } := ⟨hlike.body, hlike.delta, hlike.epsilon⟩
    split
    · refine Within.bind (delete_does ht (Nat.zero_le _) le_rfl) ?_
      rintro - w1 - h1
      rw [hlike.epsilon] at h1
      exact Within.pure ⟨hlike', _, h1, update_of_ne hd.apart.put .., update_of_ne hd.epsilon.symm ..⟩
    · exact Within.pure ⟨hlike', t, ht, rfl, rfl⟩

theorem textinsert_edited (hd : f.Logged k) (h : Edited f k s x f' w) (hp : p0 ≤ s.length) :
    Does (Edited f k (insertAt p0 r s) x) (textinsert f' p0 r) w := by
  rw [textinsert]
  split
  · rename_i hnil
    rw [hnil, insertAt, append_nil, take_append_drop]
    exact Within.pure h
  · exact fileinsert_edited hd h hp

theorem textdelete_edited (hd : f.Logged k) (h : Edited f k s x f' w) (hp : p0 ≤ p1) (hp1 : p1 ≤ s.length) :
    Does (Edited f k (deleteFrom p0 p1 s) x) (textdelete f' p0 p1) w := by
  rw [textdelete]
  split
  · rename_i heq
    rw [heq, deleteFrom, take_append_drop]
    exact Within.pure h
  · exact filedelete_edited hd h hp hp1

/-- Places in the text are what they are constrained to. -/
theorem textconstrain_edited {q0 q1 : UInt32} (h : Edited f k s x f' w) (h0 : q0.toNat ≤ s.length) (h1 : q1.toNat ≤ s.length) :
    Does (fun p w' => p = (q0.toNat, q1.toNat) ∧ Edited f k s x f' w') (textconstrain f' q0 q1) w := by
  obtain ⟨hlike, t, ht, rfl, rfl⟩ := h
  refine Within.bind (nc_does ht f'.body) ?_
  rintro n w' - ⟨rfl, rfl⟩
  rw [hlike.body, Nat.min_eq_left h0, Nat.min_eq_left h1]
  exact Within.pure ⟨rfl, hlike, t, ht, rfl, rfl⟩

/-- **The loops that insert** what is in the log. -/
theorem elogcopy_edited {up nr tq0 : Nat} (hd : f.Logged k) (hup : up + nr ≤ x.length) : ∀ (fuel : Nat) {f' : File}
    {w : World} {s : List Rune} {i : Nat}, Edited f k s x f' w → i ≤ nr → tq0 + i ≤ s.length → nr - i ≤ fuel →
    Does (Edited f k (insertAt (tq0 + i) ((x.drop (up + i)).take (nr - i)) s) x) (elogcopy k up nr tq0 fuel i f') w := by
  have hdone : ∀ {f' : File} {w : World} {s : List Rune}, Edited f k s x f' w →
      Does (Edited f k (insertAt (tq0 + nr) ((x.drop (up + nr)).take (nr - nr)) s) x) (pure f') w := by
    intro f' w s h
    rw [Nat.sub_self, take_zero, insertAt, append_nil, take_append_drop]
    exact Within.pure h
  intro fuel
  induction fuel with
  | zero =>
    intro f' w s i h hi _ hfuel
    obtain rfl : i = nr := by omega
    rw [elogcopy, if_neg (Nat.lt_irrefl i)]
    exact hdone h
  | succ fuel ih =>
    intro f' w s i h hi hin hfuel
    rw [elogcopy]
    by_cases hlt : i < nr
    · rw [if_pos hlt]
      obtain ⟨n, hn⟩ : ∃ n, n = min (nr - i) RBUFSIZE := ⟨_, rfl⟩
      have hpos : 0 < RBUFSIZE := by decide
      rw [← hn]
      obtain ⟨hlike, t, ht, hbody, rfl⟩ := h
      refine Within.bind (read_does ht (show up + i + n ≤ _ by omega)) ?_
      rintro buf w1 - ⟨h1, rfl⟩
      refine Within.bind (textinsert_edited hd ⟨hlike, t, h1, hbody, rfl⟩ hin) ?_
      intro f2 w2 _ h2
      have hlen : (((t k).drop (up + i)).take n).length = n := by
        rw [length_take, length_drop]
        omega
      have hnext := ih h2 (i := i + n) (by omega) (by rw [length_insertAt, hlen]; omega) (by omega)
      have hcut : ((t k).drop (up + i)).take (nr - i) =
          ((t k).drop (up + i)).take n ++ ((t k).drop (up + (i + n))).take (nr - (i + n)) := by
        rw [← Nat.add_assoc up, slice_add, show n + (nr - (i + n)) = nr - i by omega]
      obtain ⟨a, ha⟩ : ∃ a, a = ((t k).drop (up + i)).take n := ⟨_, rfl⟩
      rw [← ha] at hnext hlen hcut
      have hwhole := insertAt_insertAt (s := a ++ ((t k).drop (up + (i + n))).take (nr - (i + n))) (m := n) hin
        (by rw [length_append, hlen]; exact Nat.le_add_right _ _)
      rw [take_left' hlen, drop_left' hlen] at hwhole
      rw [hcut, ← hwhole, Nat.add_assoc]
      exact hnext
    · rw [if_neg hlt]
      obtain rfl : i = nr := by omega
      exact hdone h

theorem Elog.Fits.runes_eq (h : e.Fits) : e.runes = e.r ++ e.buflog.runes := by
  rw [Elog.runes]
  rcases h.type with ⟨ht, -⟩ | ⟨ht, hr⟩ | ht
  · rw [if_pos (.inl ht)]
  · rw [if_neg (by rw [ht]; decide), if_pos ht, hr, nil_append]
  · rw [if_pos (.inr ht)]

theorem Elog.Fits.length_runes (h : e.Fits) : e.runes.length = e.r.length + Buflogsize := by
  rw [h.runes_eq, length_append]
  rfl

theorem insertAt_deleteFrom_make (r : List Rune) (h : p0 ≤ p1) (h1 : p1 ≤ s.length) :
    insertAt p0 r (deleteFrom p0 p1 s) = (⟨p0, p1, r⟩ : Changes.Change Rune).make s := by
  have hfront : (s.take p0).length = p0 := length_take_of_le (Nat.le_trans h h1)
  rw [insertAt, deleteFrom, take_left' hfront, drop_left' hfront]
  rfl

/-- **A record** makes its change of the text. -/
theorem elogrecord_edited {rest : List Rune} {seq : UInt32} {mod : Bool} (hd : f.Logged k) (he : e.Fits)
    (h : Edited f k s (rest ++ e.runes) f' w) (hlen : e.change.q1 ≤ s.length) :
    Does (fun p w' => p.2 = rest.length ∧ Edited f k (e.change.make s) (rest ++ e.runes) p.1 w')
      (elogrecord k seq mod f' e.buflog (rest.length + e.r.length)) w := by
  have hend : (e.q0 + e.nd).toNat ≤ s.length := hlen
  have hle : e.q0.toNat ≤ (e.q0 + e.nd).toNat := by
    rw [he.end_eq]
    exact Nat.le_add_right _ _
  have hnr : e.buflog.nr.toNat = e.r.length := UInt32.toNat_ofNat_of_lt' (Nat.lt_of_le_of_lt he.room (by decide))
  have hdata : (((rest ++ e.runes).drop (rest.length + 0)).take (e.r.length - 0)) = e.r := by
    rw [Nat.add_zero, drop_left, he.runes_eq, Nat.sub_zero, take_left]
  have hroom : rest.length + e.r.length ≤ (rest ++ e.runes).length := by
    rw [length_append, he.length_runes]
    omega
  -- what is inserted at the start of the change
  have hcopy : ∀ {s : List Rune} {f' : File} {w : World}, Edited f k s (rest ++ e.runes) f' w → e.q0.toNat ≤ s.length →
      Does (fun p w' => p.2 = rest.length ∧ Edited f k (insertAt e.q0.toNat e.r s) (rest ++ e.runes) p.1 w') (do
        let f ← elogcopy k (rest.length + e.r.length - e.buflog.nr.toNat) e.buflog.nr.toNat e.q0.toNat e.buflog.nr.toNat 0 f'
        return (f, rest.length + e.r.length - e.buflog.nr.toNat)) w := by
    intro s f' w h hq
    rw [hnr, Nat.add_sub_cancel]
    have hall := elogcopy_edited hd hroom e.r.length h (Nat.zero_le _) hq le_rfl
    rw [hdata, Nat.add_zero] at hall
    refine Within.bind hall ?_
    intro f2 w2 _ h2
    exact Within.pure ⟨rfl, h2⟩
  have htype : e.buflog.type = e.type := rfl
  rw [elogrecord, htype]
  rcases he.type with ⟨ht, hnd⟩ | ⟨ht, hr⟩ | ht
  · rw [if_neg (by rw [ht]; decide), if_neg (by rw [ht]; decide), if_pos ht]
    refine Within.bind (filemark_edited hd h mod seq) ?_
    intro f1 w1 _ h1
    refine Within.bind (textconstrain_edited h1 (Nat.le_trans hle hend) (Nat.le_trans hle hend)) ?_
    rintro _ w2 - ⟨rfl, h2⟩
    have hmake : e.change.make s = insertAt e.q0.toNat e.r s := by
      rw [Elog.change, hnd, UInt32.add_zero]
      rfl
    rw [hmake]
    exact hcopy h2 (Nat.le_trans hle hend)
  · rw [if_neg (by rw [ht]; decide), if_pos ht]
    refine Within.bind (filemark_edited hd h mod seq) ?_
    intro f1 w1 _ h1
    refine Within.bind (textconstrain_edited h1 (Nat.le_trans hle hend) hend) ?_
    rintro _ w2 - ⟨rfl, h2⟩
    refine Within.bind (textdelete_edited hd h2 hle hend) ?_
    intro f3 w3 _ h3
    have hmake : e.change.make s = deleteFrom e.q0.toNat (e.q0 + e.nd).toNat s := by
      rw [Elog.change, hr, Changes.Change.make, append_nil]
      rfl
    rw [hmake, hr]
    exact Within.pure ⟨rfl, h3⟩
  · rw [if_pos ht]
    refine Within.bind (filemark_edited hd h mod seq) ?_
    intro f1 w1 _ h1
    refine Within.bind (textconstrain_edited h1 (Nat.le_trans hle hend) hend) ?_
    rintro _ w2 - ⟨rfl, h2⟩
    refine Within.bind (textdelete_edited hd h2 hle hend) ?_
    intro f3 w3 _ h3
    rw [Elog.change, ← insertAt_deleteFrom_make e.r hle hend]
    refine hcopy h3 ?_
    rw [deleteFrom, length_append, length_take_of_le (Nat.le_trans hle hend)]
    exact Nat.le_add_right _ _

/-- **The records**, the last one first. -/
theorem elogLoop_edited {seq : UInt32} (hd : f.Logged k) (s : List Rune) : ∀ (es : List Elog) {fuel n : Nat} {mod : Bool}
    {f' : File} {w : World} {x : List Rune}, (∀ e ∈ es, e.Fits) → InOrder (es.map Elog.change) n → n ≤ s.length →
    Edited f k (seg s 0 n ++ x) (logRunes es) f' w → es.length < fuel →
    Does (Edited f k (made s (es.map Elog.change) n ++ x) []) (elogLoop k seq fuel mod f') w := by
  intro es
  induction es with
  | nil =>
    intro fuel n mod f' w x _ _ _ h hfuel
    obtain ⟨fuel, rfl⟩ : ∃ m, fuel = m + 1 := ⟨fuel - 1, by omega⟩
    obtain ⟨hlike, t, ht, hbody, hlog⟩ := h
    refine Within.bind (nc_does ht k) ?_
    rintro m w' - ⟨rfl, rfl⟩
    rw [hlog, if_pos (show (logRunes []).length = 0 from rfl)]
    exact Within.pure ⟨hlike, t, ht, hbody, hlog⟩
  | cons e es ih =>
    intro fuel n mod f' w x hfits hin hn h hfuel
    obtain ⟨fuel, rfl⟩ : ∃ m, fuel = m + 1 := ⟨fuel - 1, by omega⟩
    obtain ⟨he, hfits⟩ := forall_mem_cons.1 hfits
    obtain ⟨hes, h0, h1⟩ := hin
    have hlen : (logRunes (e :: es)).length = (logRunes es).length + e.r.length + Buflogsize := by
      rw [logRunes, length_append, he.length_runes, Nat.add_assoc]
    have hpos : 0 < Buflogsize := by decide
    obtain ⟨hlike, t, ht, hbody, hlog⟩ := h
    refine Within.bind (nc_does ht k) ?_
    rintro m w' - ⟨rfl, rfl⟩
    rw [hlog, if_neg (by omega)]
    dsimp only
    refine Within.bind (read_does ht (by rw [hlog]; omega)) ?_
    rintro r w1 - ⟨hh, rfl⟩
    have hup : (logRunes (e :: es)).length - Buflogsize = (logRunes es).length + e.r.length := by omega
    have htop : ((t k).drop ((logRunes (e :: es)).length - Buflogsize)).take Buflogsize = e.buflog.runes := by
      rw [hlog, hup, logRunes, he.runes_eq, ← append_assoc, drop_left' (length_append ..)]
      exact take_of_length_le (Nat.le_of_eq rfl)
    rw [htop, hup, Buflog.ofRunes_runes]
    have hinside : e.change.q1 ≤ (seg s 0 n ++ x).length := by
      rw [length_append, seg, length_take, length_drop]
      omega
    refine Within.bind (elogrecord_edited hd he ⟨hlike, t, hh, hbody, hlog⟩ hinside) ?_
    rintro ⟨f2, _⟩ w2 - ⟨rfl, hlike2, t2, ht2, hbody2, hlog2⟩
    refine Within.bind (nc_does ht2 k) ?_
    rintro m w' - ⟨rfl, rfl⟩
    dsimp only
    have hle : (logRunes es).length ≤ (t2 k).length := by
      rw [hlog2, length_append]
      exact Nat.le_add_right _ _
    refine Within.bind (delete_does ht2 hle le_rfl) ?_
    rintro - w3 - h3
    have hrest : deleteFrom (logRunes es).length (t2 k).length (t2 k) = logRunes es := by
      rw [deleteFrom, drop_length, append_nil, hlog2, take_left]
    rw [hrest] at h3
    rw [map_cons, made, append_assoc, append_assoc]
    refine ih hfits hes (Nat.le_trans h0 (Nat.le_trans h1 hn)) ?_ (Nat.lt_of_succ_lt_succ hfuel)
    refine ⟨hlike2, _, h3, (update_of_ne hd.body ..).trans ?_, update_self ..⟩
    rw [hbody2, Changes.Change.make_seg h0 h1 hn]

end

theorem length_le_logRunes {es : List Elog} (h : ∀ e ∈ es, e.Fits) : es.length ≤ (logRunes es).length := by
  induction es with
  | nil => exact le_rfl
  | cons e es ih =>
    obtain ⟨he, hfits⟩ := forall_mem_cons.1 h
    have hpos : 0 < Buflogsize := by decide
    rw [logRunes, length_append, he.length_runes, length_cons]
    have := ih hfits
    omega

/-- **All changes at once**: what the calls leave of the text, however their changes were merged or split. -/
theorem edited_does {f : File} {k : Nat} {seq : UInt32} {calls : List Elogcall} {w : World} {t : Nat → List Rune}
    (hd : f.Logged k) (h : w.Has t) (hin : InOrder (calls.map Elogcall.change) (t f.body).length)
    (hacc : ∀ c ∈ calls, c.Accepted) :
    Does (fun _ w' => ∃ t', w'.Has t' ∧ t' f.body = made (t f.body) (calls.map Elogcall.change) (t f.body).length)
      (edited f k seq calls) w := by
  have hall : seg (t f.body) 0 (t f.body).length = t f.body := by simp [seg]
  refine Within.bind (logged_does hd.body h hin le_rfl hacc) ?_
  rintro l w1 - ⟨g, hg, h1⟩
  obtain ⟨es, hopened, hbody, hin', hmade⟩ := Elogs.logged_opened hin (fun c hc => (hacc c hc).length_lt) hg
  rw [← hmade _ le_rfl]
  obtain rfl := h1.log
  rw [allupdate]
  obtain ⟨ht, -, -, rfl⟩ | ⟨es', rfl, hwaits⟩ := hopened
  · obtain ⟨-, t1, ht1, hsame, -⟩ := h1
    rw [if_neg (by rw [ht]; decide), if_neg (not_not.2 ht)]
    exact Within.pure ⟨t1, ht1, by rw [hsame, hbody, map_nil, made, hall]⟩
  have hne := (hwaits.fits _ mem_cons_self).type_ne
  have hflush : Elogs.Flushed (Elogs.elogflush g) (g.elog :: es') := Elogs.Holds.elogflush (.inr ⟨es', rfl, hwaits⟩)
  rw [if_neg hne.1, if_pos hne.2]
  refine Within.bind (elogflush_does hd.body h1 hne.2) ?_
  rintro l2 w2 - ⟨rfl, t2, ht2, hsame, hlog⟩
  have hrunes : logRunes (g.elog :: es') = t2 k := by
    have := hlog (by rw [hflush.type]; decide)
    rw [hflush.elogbuf] at this
    exact Option.some.inj this
  refine Within.bind (nc_does ht2 k) ?_
  rintro m w' - ⟨rfl, rfl⟩
  have hsame' : t2 f.body = t f.body := hsame.trans hbody
  have hfuel : (g.elog :: es').length < (t2 k).length + 1 := by
    rw [← hrunes]
    exact Nat.lt_succ_of_le (length_le_logRunes hflush.fits)
  refine Within.bind (elogLoop_edited hd (t f.body) (g.elog :: es') (x := []) hflush.fits hin' le_rfl
    ⟨⟨rfl, rfl, rfl⟩, t2, ht2, by rw [hall, append_nil, hsame'], hrunes.symm⟩ hfuel) ?_
  rintro f3 w3 - ⟨hlike3, t3, ht3, hbody3, -⟩
  refine Within.bind (reset_does ht3 k) ?_
  rintro - w4 - h4
  refine Within.pure ⟨_, h4, (update_of_ne hd.body ..).trans ?_⟩
  rw [hbody3, append_nil]

/-- **All changes at once**: what the calls leave of a text among any buffers, as long as the temporary file does not
wrap. -/
theorem edited_changes {st : State} {f : File} {k : Nat} {seq : UInt32} {calls : List Elogcall}
    (h : Trans.Reachable State.Init State.FitStep st) (hd : f.Logged k)
    (hin : InOrder (calls.map Elogcall.change) (st.text f.body).length) (hacc : ∀ c ∈ calls, c.Accepted)
    (hfit : ((edited f k seq calls).run ⟨st.disk, st.buf⟩).2.disk.addr ≤ ADDRS) :
    ∃ l w, (edited f k seq calls).run ⟨st.disk, st.buf⟩ = (.ok l, w) ∧
      (w.buf f.body).string w.disk = made (st.text f.body) (calls.map Elogcall.change) (st.text f.body).length := by
  have hkept := State.reachable_kept h
  have hhas : World.Has ⟨st.disk, st.buf⟩ st.text := ⟨rfl, hkept.addr, hkept.holds, hkept.sound, hkept.laid⟩
  obtain ⟨l, hl, t, ht, htext⟩ := edited_does hd hhas hin hacc hfit
  exact ⟨l, _, Prod.ext hl rfl, ((State.Kept.holds ht f.body).string (State.Kept.addr ht)).trans htext⟩

/-- The text `abcde`. -/
def letters : State := State.start.exec (.insert 0 0 [97, 98, 99, 100, 101])

/-- A replacement is merged with the one before. -/
theorem edited_changes_merged : ∃ l w,
    (edited ⟨0, 1, 2, [], false, 0, false⟩ 3 1 [.delete 4 5, .replace 3 3 [122], .replace 1 2 [120, 121]]).run
      ⟨letters.disk, letters.buf⟩ = (.ok l, w) ∧ (w.buf 0).string w.disk = [97, 120, 121, 99, 122, 100] := by
  have hstep : State.FitStep State.start (.insert 0 0 [97, 98, 99, 100, 101]) letters :=
    ⟨⟨⟨le_rfl, by decide⟩, rfl⟩, by decide +kernel⟩
  have hreach : Trans.Reachable State.Init State.FitStep letters := .next (.start rfl) hstep
  refine @edited_changes letters ⟨0, 1, 2, [], false, 0, false⟩ 3 1
    [.delete 4 5, .replace 3 3 [122], .replace 1 2 [120, 121]] hreach ?_ ?_ ?_ (by decide +kernel)
  · exact ⟨⟨by decide, by decide, by decide⟩, by decide, by decide, by decide⟩
  · exact ⟨⟨⟨trivial, by decide, by decide⟩, by decide, by decide⟩, by decide, by decide⟩
  · simp [Elogcall.Accepted, RBUFSIZE, BUFSIZE, Maxblock]

/-! ### The file wraps -/

open State

/-- Two blocks, the second one as large as a block gets. -/
def typed : State := (filled (many - 66)).exec (.insert 0 1 full)

/-- The text `ac` in two blocks, of which the second one has room that it gives up when it is written. There are two
blocks of the file left, and then its addresses begin again, with the text's first block. -/
def crowded : State := typed.exec (.delete 0 2 (1 + Maxblock))

theorem exec_typed {n : Nat} {s : List Rune} (hn : 0 < n) (hs : s.length = Maxblock) :
    (filled n).exec (.insert 0 1 s) =
      { disk := { pwrite (filled n).disk [97] 0 with addr := 256 * n + Maxblock }
        buf := update (filled n).buf 0 ⟨1 + Maxblock, s, 1, true, 1, [⟨0, 1⟩, ⟨256 * n % ADDRS, Maxblock⟩]⟩
        text := update (filled n).text 0 (97 :: s)
        good := true } := by
  have hcall : Op.call (filled n).disk ((filled n).buf 0) (.insert 0 1 s) =
      .ok ({ pwrite (filled n).disk [97] 0 with addr := 256 * n + Maxblock },
        ⟨1 + Maxblock, s, 1, true, 1, [⟨0, 1⟩, ⟨256 * n % ADDRS, Maxblock⟩]⟩, []) := by
    rw [filled_buf hn]
    change (bufinsert ⟨256 * n, fun _ => [], fun _ => 0, 0⟩ _ 1 s >>= _) = _
    rw [insert_second _ _ _ _ _ _ hs]
    rfl
  have htext : insertAt 1 s ((filled n).text 0) = 97 :: s := by
    rw [filled_text hn]
    exact congrArg (cons 97) (append_nil s)
  rw [exec_ok _ _ hcall, ← htext]
  rfl

theorem exec_crowded {st : State} {ks : List Block} {x y : Rune} {s : List Rune} (hs : s.length = 16383)
    (hb : st.buf 0 = ⟨1 + Maxblock, x :: s, 1, true, 1, ks⟩) (ht : st.text 0 = y :: x :: s) :
    st.exec (.delete 0 2 (1 + Maxblock)) =
      { st with buf := update st.buf 0 ⟨2, [x], 1, true, 1, ks⟩, text := update st.text 0 [y, x] } := by
  have hdrop : s.drop 16383 = [] := drop_of_length_le (Nat.le_of_eq hs)
  have hcall : Op.call st.disk (st.buf 0) (.delete 0 2 (1 + Maxblock)) = .ok (st.disk, ⟨2, [x], 1, true, 1, ks⟩, []) := by
    simp [hb, Op.call, Maxblock, bufdelete, deleteLoop, deleteStep, setcache, Buffer.cnc, hs, hdrop, bind, Except.bind,
      pure, Except.pure]
  have htext : deleteFrom 2 16385 (st.text 0) = [y, x] := by
    rw [ht]
    exact congrArg ([y, x] ++ ·) hdrop
  rw [exec_ok _ _ hcall, ← htext]
  exact congrArg _ (Bool.and_true _)

theorem crowded_eq : crowded =
    { disk := { pwrite (filled (many - 66)).disk [97] 0 with addr := ADDRS - 512 }
      buf := update (filled (many - 66)).buf 0 ⟨2, [99], 1, true, 1, [⟨0, 1⟩, ⟨ADDRS - 16896, Maxblock⟩]⟩
      text := update (filled (many - 66)).text 0 [97, 99]
      good := true } := by
  have hfull : full = 99 :: replicate 16383 99 := replicate_succ
  rw [crowded, typed, exec_typed (by decide) length_full, hfull,
    exec_crowded length_replicate rfl rfl, update_idem, update_idem]
  rfl

theorem fit_exec {st : State} (op : Op) (h : Trans.Reachable Init FitStep st)
    (hop : op.InRange (st.text op.buf)) (haddr : (st.exec op).disk.addr ≤ ADDRS) :
    Trans.Reachable Init FitStep (st.exec op) :=
  h.next ⟨⟨hop, rfl⟩, haddr⟩

theorem crowded_reachable : Trans.Reachable Init FitStep crowded := by
  have hpos : 0 < many - 66 := by decide
  have htyped := exec_typed hpos length_full
  have hfirst : Trans.Reachable Init FitStep typed := by
    refine fit_exec _ (fit_filled (by decide)) ?_ (by rw [htyped]; decide)
    dsimp only [Op.buf, Op.InRange]
    rw [filled_text hpos, length_full]
    decide
  have haddr : crowded.disk.addr ≤ ADDRS := by rw [crowded_eq]; decide
  unfold crowded at haddr ⊢
  refine fit_exec _ hfirst ?_ haddr
  rw [typed, htyped]
  dsimp only [Op.buf, Op.InRange]
  rw [update_self, length_cons, length_full]
  decide

theorem crowded_run {l : Logging} {w : World}
    (h : (edited ⟨0, many - 66, many - 65, [], false, 0, false⟩ (many - 64) 1 [.insert 0 [100]]).run
      ⟨crowded.disk, crowded.buf⟩ = (.ok l, w)) : (w.buf 0).string w.disk = [100, 99, 99] := by
  obtain rfl := (Prod.ext_iff.1 h).2
  rw [crowded_eq]
  decide +kernel

/-- A rune is inserted before the first one, which is another then. -/
theorem edited_changes_wraps : ¬ ∀ (st : State) (f : File) (k : Nat) (seq : UInt32) (calls : List Elogcall),
    Trans.Reachable State.Init State.FitStep st → f.Logged k →
    InOrder (calls.map Elogcall.change) (st.text f.body).length → (∀ c ∈ calls, c.Accepted) →
    ∃ l w, (edited f k seq calls).run ⟨st.disk, st.buf⟩ = (.ok l, w) ∧
      (w.buf f.body).string w.disk = made (st.text f.body) (calls.map Elogcall.change) (st.text f.body).length := by
  intro h
  have hin : ∀ n, InOrder ([Elogcall.insert 0 [100]].map Elogcall.change) n := fun n => ⟨trivial, le_rfl, Nat.zero_le n⟩
  obtain ⟨l, w, hrun, htext⟩ := h crowded ⟨0, many - 66, many - 65, [], false, 0, false⟩ (many - 64) 1
    [.insert 0 [100]] crowded_reachable
    ⟨⟨by decide, by decide, by decide⟩, by decide, by decide, by decide⟩
    (hin _) (by simp [Elogcall.Accepted])
  have htext0 : crowded.text 0 = [97, 99] := by rw [crowded_eq]; rfl
  have hgot := crowded_run hrun
  have hwant : made [97, 99] ([Elogcall.insert 0 [100]].map Elogcall.change) 2 = [100, 97, 99] := by decide
  dsimp only at htext hgot
  rw [hgot, htext0] at htext
  exact absurd (htext.trans hwant) (by decide)

end Plan9.Acme
