/-
The server loop over whole runs: when no assertion fails, nothing is aborted and no nil
pointer is followed.

What goes wrong does so in one of these ways, and `Fits` is that none of them happens: a
message that is no request, which `respond` has no case for; a `Tversion` or `Tflush`
with a tag in use, whose error the functions for the two take for a botch; a `Tversion`
for another protocol or for less than its own reply, after which nothing can be written;
a reply that is too big for `msize`, which is not built; a pointer that is nil, in a fid
without a `uid` or an `rdir` or a file that has been removed (`Safe`); and a fid to close
that is gone, or an entry too big for its count, which is freed twice (`SafeEnd`).
-/
import Plan9.Lib9p.ServeFacts

namespace Plan9.Lib9p.Serve

open Function Libc List

namespace Pc

def responded : Pc → Bool
  | .flushing _ | .calling _ | .done => true
  | _ => false

/-- How many of the list the loop has called `respond` for. -/
def cursor : Pc → Nat
  | .flushing i => i
  | .calling i => i + 1
  | _ => 0

end Pc

/-! ## The condition -/

structure FitMessage (s : Srv) (t : Tree) (f : Fcall Ptr) : Prop where
  request : ∃ t : FType, f.type = t.code ∧ isRequest t = true
  dup : s.pool f.tag ≠ none → f.type ≠ FType.Tversion.code ∧ f.type ≠ FType.Tflush.code
  version : f.type = FType.Tversion.code → (str f.version).take 2 = ascii "9P" ∧ 19 ≤ f.msize.toNat
  safe : Safe t s.fids f

def Fits (s : Srv) : Act → Prop
  | .message t f => FitMessage s t f
  | .go r => s.pc r = .called → ∀ type : FType, (s.req r).ifcall.type = type.code → SafeEnd s.fids (s.req r).toCall type
  | .write r => (s.req r).ifcall.type ≠ FType.Tversion.code → room (s.req r).toCall ≤ s.msize.toNat
  | _ => True

/-- No assertion has failed, `abort` has not been called, no nil pointer has been followed, and no reply is larger than
`msize`. -/
structure Srv.Robust (s : Srv) : Prop where
  failed : s.failed = false
  out : ∀ p ∈ s.out, p.1.length ≤ p.2.toNat

/-! ## What is kept -/

structure Asked (f : Fcall Ptr) : Prop where
  request : ∃ t : FType, f.type = t.code ∧ isRequest t = true
  msize : f.type = FType.Tversion.code → 19 ≤ f.msize.toNat
  nwname : f.type = FType.Twalk.code → f.nwname.toNat ≤ MAXWELEM

/-- A request where it is. `srv` itself responds to a `Tversion`, and meanwhile there is no other. -/
structure At (loop : Option Nat) (msize : UInt32) (r : Nat) (q : Req) (p : Pc) : Prop where
  asked : p ≠ .unread → Asked q.ifcall
  given : p = .given → q.ifcall.type ≠ FType.Tversion.code ∧ Held q.toCall
  called : p = .called → Right q.toCall
  completed : p = .completed → Ready q.toCall
  loop : q.ifcall.type = FType.Tversion.code → p = .called ∨ p = .completed → loop = some r
  msize : q.ifcall.type = FType.Tversion.code → p = .completed → 19 ≤ msize.toNat
  parked : p = .parked → q.ifcall.type = FType.Tflush.code
  responded : q.responded = p.responded

/-- The flushes that wait for a request are parked, and on no other list. -/
structure Lists (req : Nat → Req) (pc : Nat → Pc) : Prop where
  queued : ∀ o f, f ∈ (req o).flush.drop (pc o).cursor → pc f = .parked ∧ (req f).oldreq = some o
  nodup : ∀ o, ((req o).flush.drop (pc o).cursor).Nodup

structure Srv.Kept (s : Srv) : Prop where
  robust : s.Robust
  wbuf : s.wbuf.length = s.msize.toNat
  unread : ∀ r, s.pc r = .unread ↔ s.n ≤ r
  each : ∀ r, At s.loop s.msize r (s.req r) (s.pc r)
  lists : Lists s.req s.pc

theorem Lists.put {req : Nat → Req} {pc : Nat → Pc} {r : Nat} {q : Req} {p : Pc} (h : Lists req pc)
    (hr : pc r ≠ .parked) (hsub : (q.flush.drop p.cursor).Sublist ((req r).flush.drop (pc r).cursor)) :
    Lists (update req r q) (update pc r p) := by
  have hlist : ∀ o, (((update req r q) o).flush.drop ((update pc r p) o).cursor).Sublist
      ((req o).flush.drop (pc o).cursor) := by
    intro o
    by_cases ho : o = r
    · rw [ho, update_self, update_self]
      exact hsub
    · rw [update_of_ne ho, update_of_ne ho]
  refine ⟨?_, fun o => (h.nodup o).sublist (hlist o)⟩
  intro o f hf
  obtain ⟨hp, hold⟩ := h.queued o f ((hlist o).subset hf)
  have hne : f ≠ r := fun he => hr (he ▸ hp)
  rw [update_of_ne hne, update_of_ne hne]
  exact ⟨hp, hold⟩

theorem At.back {r w : Nat} {q : Req} {p : Pc} {loop : Option Nat} {msize : UInt32} (h : At loop msize w q p)
    (hw : w ≠ r) : At (if loop = some r then none else loop) msize w q p := by
  refine ⟨h.asked, h.given, h.called, h.completed, ?_, h.msize, h.parked, h.responded⟩
  intro ht hp
  have hloop := h.loop ht hp
  rw [if_neg, hloop]
  rw [hloop]
  exact fun he => hw (Option.some.inj he)

namespace Srv

variable {s s' : Srv} {r : Nat} {q : Req} {p : Pc}

theorem Kept.put (h : s.Kept) (hr : s.pc r ≠ .parked) (hreq : s'.req = update s.req r q)
    (hpc : s'.pc = update s.pc r p) (hrobust : s'.Robust) (hwbuf : s'.wbuf.length = s'.msize.toNat)
    (hunread : ∀ w, s'.pc w = .unread ↔ s'.n ≤ w)
    (hsub : (q.flush.drop p.cursor).Sublist ((s.req r).flush.drop (s.pc r).cursor))
    (hat : At s'.loop s'.msize r q p)
    (hothers : ∀ w, w ≠ r → At s.loop s.msize w (s.req w) (s.pc w) → At s'.loop s'.msize w (s.req w) (s.pc w)) :
    s'.Kept := by
  refine ⟨hrobust, hwbuf, hunread, ?_, ?_⟩
  · intro w
    by_cases hw : w = r
    · rw [hw, hreq, hpc, update_self, update_self]
      exact hat
    · rw [hreq, hpc, update_of_ne hw, update_of_ne hw]
      exact hothers w hw (h.each w)
  · rw [hreq, hpc]
    exact h.lists.put hr hsub

theorem Kept.unread_goto (h : s.Kept) (hr : s.pc r ≠ .unread) (hp : p ≠ .unread) (w : Nat) :
    update s.pc r p w = .unread ↔ s.n ≤ w := by
  by_cases hw : w = r
  · rw [hw, update_self, ← h.unread r]
    exact ⟨fun h => absurd h hp, fun h => absurd h hr⟩
  · rw [update_of_ne hw, h.unread]

theorem Kept.respond (h : s.Kept) {e : Ptr} (hp : s.pc r = .read ∨ s.pc r = .given)
    (hright : Right { (s.req r).toCall with error := e })
    (hloop : (s.req r).ifcall.type = FType.Tversion.code → s.loop = some r) : (s.respond r e).Kept := by
  have hresp : (s.req r).responded = false := by
    rw [(h.each r).responded]
    rcases hp with hp | hp <;> rw [hp] <;> rfl
  have hread : s.pc r ≠ .unread := by rcases hp with hp | hp <;> rw [hp] <;> nofun
  have hcursor : (s.pc r).cursor = 0 := by rcases hp with hp | hp <;> rw [hp] <;> rfl
  rw [Srv.respond, if_neg (by rw [hresp]; nofun)]
  refine @Kept.put s _ r { s.req r with error := e } .called h ?_ rfl rfl ⟨h.robust.failed, h.robust.out⟩ h.wbuf
    (h.unread_goto hread nofun) ?_ ?_ (fun _ _ hw => hw)
  · rcases hp with hp | hp <;> rw [hp] <;> nofun
  · rw [hcursor]
    exact .refl _
  · exact ⟨fun _ => (h.each r).asked hread, nofun, fun _ => hright, nofun, fun ht _ => hloop ht, nofun, nofun, hresp⟩

theorem Kept.setCall (h : s.Kept) {F : Fids} {c : Call} (hp : s.pc r = .read ∨ s.pc r = .given)
    (htype : c.ifcall.type = (s.req r).ifcall.type) (hask : Asked c.ifcall) (hheld : s.pc r = .given → Held c) :
    ({ s with fids := F }.setCall r c).Kept := by
  have hresp := (h.each r).responded
  have hgiven := fun hp => ((h.each r).given hp).1
  refine @Kept.put s _ r { s.req r with toCall := c } (s.pc r) h ?_ rfl (update_eq_self r s.pc).symm
    ⟨h.robust.failed, h.robust.out⟩ h.wbuf h.unread (.refl _) ?_ (fun _ _ hw => hw)
  · rcases hp with hp | hp <;> rw [hp] <;> nofun
  rw [← htype] at hgiven
  rcases hp with hp | hp <;> rw [hp] at hresp hgiven hheld ⊢
  · exact ⟨fun _ => hask, nofun, nofun, nofun, fun _ => nofun, fun _ => nofun, nofun, hresp⟩
  · exact ⟨fun _ => hask, fun h => ⟨hgiven h, hheld h⟩, nofun, nofun, fun _ => nofun, fun _ => nofun, nofun, hresp⟩

theorem Kept.handler (h : s.Kept) (hp : s.pc r = .read)
    (hv : (s.req r).ifcall.type ≠ FType.Tversion.code ∧ Held (s.req r).toCall) :
    ((s.goto r .given).back r).Kept := by
  have hresp := (h.each r).responded
  rw [hp] at hresp
  refine @Kept.put s _ r (s.req r) .given h (by rw [hp]; nofun) (update_eq_self r s.req).symm rfl
    ⟨h.robust.failed, h.robust.out⟩ h.wbuf (h.unread_goto (by rw [hp]; nofun) nofun) ?_ ?_ (fun w hw hat => hat.back hw)
  · rw [hp]
    exact .refl _
  · exact ⟨fun _ => (h.each r).asked (by rw [hp]; nofun), fun _ => hv, nofun, nofun, fun _ => nofun, fun _ => nofun,
      nofun, hresp⟩

theorem Kept.settle (h : s.Kept) {v : Verdict} (hp : s.pc r = .read) (hloop : s.loop = some r)
    (hright : ∀ e, v = .respond e → Right { (s.req r).toCall with error := e })
    (hhandler : v = .handler → (s.req r).ifcall.type ≠ FType.Tversion.code ∧ Held (s.req r).toCall) (hfail : v ≠ .fail) :
    (s.settle r v).Kept := by
  cases v with
  | respond e => exact h.respond (.inl hp) (hright e rfl) fun _ => hloop
  | handler => exact h.handler hp (hhandler rfl)
  | sysfatal => exact h
  | fail => exact absurd rfl hfail

theorem right_none {c : Call} (hc : Fresh c) (hv : c.ifcall.type ≠ FType.Tversion.code) (hheld : Held c) :
    Right { c with error := none } := by
  refine ⟨short_none, fun _ => hheld.of rfl rfl rfl, fun _ => rfl, fun h => absurd h hv, ?_, ?_⟩
  · intro _
    rw [hc.nwqid]
    exact Nat.zero_le _
  · intro _ _
    rw [hc.count]
    exact Nat.zero_le _

theorem Kept.sflush (h : s.Kept) (hp : s.pc r = .read) (hloop : s.loop = some r) (hfresh : Fresh (s.req r).toCall)
    (htype : (s.req r).ifcall.type = FType.Tflush.code) : (s.sflush r).Kept := by
  have hheld : Held (s.req r).toCall := held_free (t := .Tflush) htype rfl
  have hv : (s.req r).ifcall.type ≠ FType.Tversion.code := by rw [htype]; decide
  have hresp := (h.each r).responded
  obtain ⟨o, ho⟩ : ∃ o, s.pool (s.req r).ifcall.oldtag = o := ⟨_, rfl⟩
  have hset : (s.setReq r { s.req r with oldreq := o }).Kept := by
    refine @Kept.put s _ r { s.req r with oldreq := o } (s.pc r) h (by rw [hp]; nofun) rfl
      (update_eq_self r s.pc).symm ⟨h.robust.failed, h.robust.out⟩ h.wbuf h.unread (.refl _) ?_ (fun _ _ hw => hw)
    rw [hp] at hresp ⊢
    exact ⟨fun _ => (h.each r).asked (by rw [hp]; nofun), nofun, nofun, nofun, fun _ => nofun, fun _ => nofun, nofun, hresp⟩
  have hreq : ((s.setReq r { s.req r with oldreq := o }).req r) = { s.req r with oldreq := o } :=
    update_self r _ s.req
  have hright : ∀ e, e = none → Right { ((s.setReq r { s.req r with oldreq := o }).req r).toCall with error := e } := by
    intro e he
    rw [he, hreq]
    exact right_none (c := { s.req r with oldreq := o }.toCall) hfresh hv hheld
  rw [Srv.sflush, ho]
  split
  · exact hset.respond (.inl hp) (hright none rfl) fun _ => hloop
  refine hset.settle hp hloop ?_ ?_ ?_
  · intro e he
    refine hright e ?_
    rw [handlerOr] at he
    split at he
    · cases he
    · cases he
      rfl
  · intro _
    rw [hreq]
    exact ⟨hv, hheld⟩
  · rw [handlerOr]
    split <;> nofun

theorem dispatch_serve {t : Tree} {type : FType} (hfake : ¬ (s.req r).fake = true)
    (htype : (s.req r).ifcall.type = type.code) (hflush : type ≠ .Tflush) {x : Served}
    (hx : serve s.conf t s.msize s.fids (s.req r).toCall type = x) :
    s.dispatch t r = ({ s with fids := x.1 }.setCall r x.2.1).settle r x.2.2 := by
  rw [Srv.dispatch, if_neg hfake, htype, ofCode_code, ← hx]
  cases type <;> first | rfl | exact absurd rfl hflush

/-- **A request is dispatched**, with a tag in use or not. -/
theorem Kept.dispatch {t : Tree} (h : s.Kept) (ht : t.Fits) (hp : s.pc r = .read) (hloop : s.loop = some r)
    (hfresh : Fresh (s.req r).toCall) (hversion : Versioned (s.req r).toCall)
    (hfake : (s.req r).fake = true → Plain (s.req r).toCall) (hsafe : Safe t s.fids (s.req r).ifcall) :
    (s.dispatch t r).Kept := by
  have hask := (h.each r).asked (by rw [hp]; nofun)
  obtain ⟨type, htype, hr⟩ := hask.request
  by_cases hf : (s.req r).fake = true
  · rw [Srv.dispatch, if_pos hf]
    refine h.respond (.inl hp) ?_ fun _ => hloop
    exact (ok_text (F := s.fids) hfresh (hfake hf) ⟨rfl, rfl, rfl, rfl, rfl⟩ (by decide)).respond _ rfl
  by_cases hflush : type = .Tflush
  · rw [hflush] at htype
    rw [Srv.dispatch, if_neg hf, htype, ofCode_code]
    exact h.sflush hp hloop hfresh htype
  have hok := serve_ok s.conf s.msize s.fids ht hfresh hversion htype hr hflush hsafe
  obtain ⟨⟨F, c, v⟩, hx⟩ : ∃ x, serve s.conf t s.msize s.fids (s.req r).toCall type = x := ⟨_, rfl⟩
  rw [hx] at hok
  rw [dispatch_serve hf htype hflush hx]
  obtain ⟨hctype, hcname, hcsize, hright, hhandler, hfail⟩ := hok
  have hcask : Asked c.ifcall := by
    refine ⟨⟨type, hctype.trans htype, hr⟩, ?_, ?_⟩
    · rw [hctype, hcsize]
      exact hask.msize
    · rw [hctype, hcname]
      exact hask.nwname
  have hset := h.setCall (F := F) (.inl hp) hctype hcask fun hgiven => by
    rw [hp] at hgiven
    cases hgiven
  have hreq : (({ s with fids := F }.setCall r c).req r).toCall = c := by
    change (update s.req r _ r).toCall = c
    rw [update_self]
  refine hset.settle hp hloop ?_ ?_ hfail
  · rw [hreq]
    exact hright
  · intro hv
    obtain ⟨hnot, hheld⟩ := hhandler hv
    rw [hreq, hctype]
    exact ⟨hnot, hheld⟩

theorem Kept.message {t : Tree} {buf buf' : List UInt8} {a : Place buf.length} {f0 f : Fcall Off} (h : s.Kept) (ht : t.Fits)
    (hconv : convM2S a.addr buf buf.length f0 = some (buf.length, f, buf')) (hfit : FitMessage s t (f.deref buf'))
    (hloop : s.loop = none) : ((s.getreq (f.deref buf')).dispatch t s.n).Kept := by
  obtain ⟨-, hnwname⟩ := convM2S_type hconv
  have hask : Asked (f.deref buf') := ⟨hfit.request, fun h => (hfit.version h).2, hnwname⟩
  have hnew : s.pc s.n = .unread := (h.unread s.n).2 le_rfl
  have hreq : (s.getreq (f.deref buf')).req s.n = newReq (f.deref buf') (s.pool f.tag).isSome :=
    update_self ..
  have hkept : (s.getreq (f.deref buf')).Kept := by
    refine @Kept.put s _ s.n (newReq (f.deref buf') (s.pool f.tag).isSome) .read h (by rw [hnew]; nofun) rfl rfl
      ⟨h.robust.failed, h.robust.out⟩ h.wbuf ?_ (nil_sublist _) ?_ ?_
    · intro w
      change update s.pc s.n .read w = .unread ↔ s.n + 1 ≤ w
      by_cases hw : w = s.n
      · rw [hw, update_self]
        exact ⟨nofun, fun h => absurd h (by omega)⟩
      · rw [update_of_ne hw, h.unread]
        omega
    · exact ⟨fun _ => hask, nofun, nofun, nofun, fun _ => nofun, fun _ => nofun, nofun, rfl⟩
    intro w _ hat
    refine ⟨hat.asked, hat.given, hat.called, hat.completed, ?_, hat.msize, hat.parked, hat.responded⟩
    intro htype hp
    have := hat.loop htype hp
    rw [hloop] at this
    cases this
  refine hkept.dispatch ht (update_self ..) rfl ?_ ?_ ?_ (hreq ▸ hfit.safe)
  · rw [hreq]
    exact ⟨rfl, rfl, hnwname⟩
  · rw [hreq]
    exact fun htype => (hfit.version htype).1
  rw [hreq]
  intro hfake
  exact hfit.dup fun hnone => by
    change s.pool f.tag = none at hnone
    rw [hnone] at hfake
    cases hfake

theorem Kept.answer (h : s.Kept) {c : Call} {fid : Nat → Fid} (hp : s.pc r = .given) (hans : Answers (s.req r).toCall c) :
    (({ s with fids := { s.fids with fid := fid } }.setCall r c).respond r c.error).Kept := by
  have hask := (h.each r).asked (by rw [hp]; nofun)
  obtain ⟨hv, hgiven⟩ := (h.each r).given hp
  have hheld : Held c := hgiven.of (congrArg Fcall.type hans.ifcall) hans.fid hans.newfid
  have hset := h.setCall (F := { s.fids with fid := fid }) (.inr hp) (congrArg Fcall.type hans.ifcall)
    (by rw [hans.ifcall]; exact hask) fun _ => hheld
  have hreq : (({ s with fids := { s.fids with fid := fid } }.setCall r c).req r).toCall = c := by
    change (update s.req r _ r).toCall = c
    rw [update_self]
  refine hset.respond (.inr hp) ?_ ?_
  · rw [hreq]
    have htype := congrArg Fcall.type hans.ifcall
    refine ⟨hans.error, fun _ => hheld.of rfl rfl rfl, fun h => hans.flush (htype.symm.trans h), fun h => absurd (htype.symm.trans h) hv, ?_, ?_⟩
    · intro h
      exact Nat.le_trans (hans.nwqid (htype.symm.trans h)) (hask.nwname (htype.symm.trans h))
    · intro h
      exact hans.data (htype.symm.trans h)
  · rw [hreq]
    exact fun h => absurd ((congrArg Fcall.type hans.ifcall).symm.trans h) hv

/-! ## Completing -/

theorem Kept.completed (h : s.Kept) {F : Fids} {q : Req} (hp : s.pc r = .called) (hready : Ready q.toCall)
    (hv : q.ifcall.type ≠ FType.Tversion.code) (hask : q.ifcall = (s.req r).ifcall)
    (hresp : q.responded = (s.req r).responded) (hflush : q.flush = (s.req r).flush) :
    (({ s with fids := F }.setReq r q).goto r .completed).Kept := by
  have hread : s.pc r ≠ .unread := by rw [hp]; nofun
  have hr := (h.each r).responded
  rw [hp, ← hresp] at hr
  refine @Kept.put s _ r q .completed h (by rw [hp]; nofun) rfl rfl ⟨h.robust.failed, h.robust.out⟩ h.wbuf
    (h.unread_goto hread nofun) ?_ ?_ (fun _ _ hw => hw)
  · rw [hp, hflush]
    exact .refl _
  · refine ⟨fun _ => ?_, nofun, nofun, fun _ => hready, fun h => absurd h hv, fun h => absurd h hv, nofun, hr⟩
    rw [hask]
    exact (h.each r).asked hread

/-- The reply to a `Tversion` is the first that `msize` is for. -/
theorem Kept.rversion (h : s.Kept) (hp : s.pc r = .called) (htype : (s.req r).ifcall.type = FType.Tversion.code) :
    (s.rversion r).Kept := by
  have hright := (h.each r).called hp
  obtain ⟨herror, -, hmsize⟩ := hright.version htype
  have hread : s.pc r ≠ .unread := by rw [hp]; nofun
  have hloop := (h.each r).loop htype (.inl hp)
  have hresp := (h.each r).responded
  rw [hp] at hresp
  rw [Srv.rversion, if_neg (not_not.2 herror), hmsize]
  obtain ⟨s', hs', hreq, hpc, hrobust, hn, hl, hm, hw⟩ : ∃ s', s.changemsize (s.req r).ifcall.msize = s' ∧
      s'.req = s.req ∧ s'.pc = s.pc ∧ s'.Robust ∧ s'.n = s.n ∧ s'.loop = s.loop ∧ s'.msize = (s.req r).ifcall.msize ∧
      s'.wbuf.length = s'.msize.toNat := by
    refine ⟨_, rfl, ?_⟩
    rw [Srv.changemsize]
    split
    · rename_i heq
      exact ⟨rfl, rfl, h.robust, rfl, rfl, heq, h.wbuf⟩
    · exact ⟨rfl, rfl, ⟨h.robust.failed, h.robust.out⟩, rfl, rfl, rfl, length_replicate⟩
  rw [hs']
  refine @Kept.put s _ r (s.req r) .completed h (by rw [hp]; nofun) ?_ (by rw [← hpc]; rfl)
    ⟨hrobust.failed, hrobust.out⟩ hw ?_ ?_ ?_ ?_
  · rw [update_eq_self]
    exact hreq
  · intro w
    change update s'.pc r .completed w = .unread ↔ s'.n ≤ w
    have hgoto := h.unread_goto (p := .completed) hread nofun w
    rw [hpc, hn]
    exact hgoto
  · rw [hp]
    exact .refl _
  · refine ⟨fun _ => (h.each r).asked hread, nofun, nofun, ?_, ?_, ?_, nofun, hresp⟩
    · exact fun _ => hright.ready (by rw [htype]; decide)
    · exact fun _ _ => hl.trans hloop
    intro _ _
    change 19 ≤ s'.msize.toNat
    rw [hm]
    exact ((h.each r).asked hread).msize htype
  intro w hw hat
  refine ⟨hat.asked, hat.given, hat.called, hat.completed, fun ht hp => hl.trans (hat.loop ht hp), ?_, hat.parked,
    hat.responded⟩
  intro ht hp
  have := hat.loop ht (.inr hp)
  rw [hloop] at this
  exact absurd (Option.some.inj this).symm hw

/-- A `Tflush` that is for a request with no reply yet, perhaps for itself, goes on the list there. -/
theorem Kept.park (h : s.Kept) {o : Nat} (hp : s.pc r = .called) (htype : (s.req r).ifcall.type = FType.Tflush.code)
    (hold : (s.req r).oldreq = some o) (ho : (s.req o).responded = false) :
    (((s.setReq o { s.req o with flush := (s.req o).flush ++ [r] }).goto r .parked).back r).Kept := by
  have hread : s.pc r ≠ .unread := by rw [hp]; nofun
  have hcursor : ∀ p : Pc, p.responded = false → p.cursor = 0 := by
    intro p hp
    cases p <;> first | rfl | cases hp
  have hzero : (s.pc o).cursor = 0 := hcursor _ ((h.each o).responded.symm.trans ho)
  have hnot : ∀ w, r ∉ (s.req w).flush.drop (s.pc w).cursor := by
    intro w hw
    have := (h.lists.queued w r hw).1
    rw [hp] at this
    cases this
  obtain ⟨req, hreq⟩ : ∃ req, req = update s.req o { s.req o with flush := (s.req o).flush ++ [r] } := ⟨_, rfl⟩
  obtain ⟨pc, hpc⟩ : ∃ pc, pc = update s.pc r .parked := ⟨_, rfl⟩
  have hcall : ∀ w, (req w).toCall = (s.req w).toCall ∧ (req w).responded = (s.req w).responded ∧
      (req w).oldreq = (s.req w).oldreq := by
    intro w
    rw [hreq]
    by_cases hw : w = o
    · rw [hw, update_self]
      exact ⟨rfl, rfl, rfl⟩
    · rw [update_of_ne hw]
      exact ⟨rfl, rfl, rfl⟩
  have hpcs : ∀ w, w ≠ r → pc w = s.pc w := by
    intro w hw
    rw [hpc, update_of_ne hw]
  have hcur : ∀ w, (pc w).cursor = (s.pc w).cursor := by
    intro w
    by_cases hw : w = r
    · rw [hw, hpc, update_self, hp]
      rfl
    · rw [hpcs w hw]
  have hlist : (req o).flush.drop (pc o).cursor = (s.req o).flush ++ [r] := by
    rw [hcur, hzero, hreq, update_self]
    rfl
  have hlists : ∀ w, w ≠ o → (req w).flush.drop (pc w).cursor = (s.req w).flush.drop (s.pc w).cursor := by
    intro w hw
    rw [hcur, hreq, update_of_ne hw]
  have hstay : ∀ w f, f ∈ (s.req w).flush.drop (s.pc w).cursor → pc f = .parked ∧ (req f).oldreq = some w := by
    intro w f hf
    obtain ⟨hpark, hof⟩ := h.lists.queued w f hf
    have hne : f ≠ r := fun he => hnot w (he ▸ hf)
    rw [hpcs f hne, (hcall f).2.2]
    exact ⟨hpark, hof⟩
  have hall : ∀ f, f ∈ (s.req o).flush ↔ f ∈ (s.req o).flush.drop (s.pc o).cursor := by
    intro f
    rw [hzero, drop_zero]
  have hgoal : (({ s with req := req, pc := pc } : Srv).back r).Kept := by
    refine ⟨⟨h.robust.failed, h.robust.out⟩, h.wbuf, ?_, ?_, ?_, ?_⟩
    · rw [hpc]
      exact h.unread_goto hread nofun
    · intro w
      obtain ⟨hc, hresp, -⟩ := hcall w
      change At (if s.loop = some r then none else s.loop) s.msize w (req w) (pc w)
      by_cases hw : w = r
      · subst hw
        have hr := (h.each w).responded
        have hask := (h.each w).asked hread
        have hpw : pc w = .parked := by rw [hpc, update_self]
        rw [hp] at hr
        rw [hpw]
        refine ⟨fun _ => ?_, nofun, nofun, nofun, fun _ => nofun, fun _ => nofun, fun _ => ?_, hresp.trans hr⟩
        · rw [hc]
          exact hask
        · rw [hc]
          exact htype
      have hat := (h.each w).back hw
      rw [hpcs w hw]
      refine ⟨?_, ?_, ?_, ?_, ?_, ?_, ?_, hresp.trans hat.responded⟩
      all_goals rw [hc]
      · exact hat.asked
      · exact hat.given
      · exact hat.called
      · exact hat.completed
      · exact hat.loop
      · exact hat.msize
      · exact hat.parked
    · intro w f hf
      change f ∈ (req w).flush.drop (pc w).cursor at hf
      by_cases hw : w = o
      · rw [hw, hlist, mem_append, mem_singleton] at hf
        rcases hf with hf | rfl
        · rw [hw]
          exact hstay o f ((hall f).1 hf)
        refine ⟨?_, ?_⟩
        · change pc f = .parked
          rw [hpc, update_self]
        · change (req f).oldreq = some w
          rw [(hcall f).2.2, hold, hw]
      · rw [hlists w hw] at hf
        exact hstay w f hf
    intro w
    change ((req w).flush.drop (pc w).cursor).Nodup
    by_cases hw : w = o
    · rw [hw, hlist]
      have hnd := h.lists.nodup o
      rw [hzero, drop_zero] at hnd
      rw [nodup_append]
      refine ⟨hnd, pairwise_singleton _ r, ?_⟩
      intro a ha b hb hab
      rw [mem_singleton] at hb
      exact hnot o ((hall r).1 (hb ▸ hab ▸ ha))
    · rw [hlists w hw]
      exact h.lists.nodup w
  rw [hreq, hpc] at hgoal
  exact hgoal

theorem Kept.rflush (h : s.Kept) (hp : s.pc r = .called) (htype : (s.req r).ifcall.type = FType.Tflush.code) :
    (s.rflush r).Kept := by
  have hright := (h.each r).called hp
  have hready := hright.ready (by rw [htype]; decide)
  have hv : (s.req r).ifcall.type ≠ FType.Tversion.code := by rw [htype]; decide
  rw [Srv.rflush, if_neg (not_not.2 (hright.flush htype))]
  cases hold : (s.req r).oldreq with
  | none =>
    have := h.completed (F := s.fids) (q := s.req r) hp hready hv rfl rfl rfl
    rw [Srv.setReq, update_eq_self] at this
    exact this
  | some o =>
    dsimp only
    split
    · exact h.completed (F := s.fids) (q := { s.req r with oldreq := none }) hp hready hv rfl rfl rfl
    · rename_i ho
      exact h.park hp htype hold (Bool.eq_false_iff.2 ho)

/-- **The function for the type of a request**: none fails. -/
theorem Kept.complete {t : Tree} (h : s.Kept) (hp : s.pc r = .called) (hfit : Fits s (.go r)) : (s.complete t r).Kept := by
  have hread : s.pc r ≠ .unread := by rw [hp]; nofun
  have hright := (h.each r).called hp
  obtain ⟨type, htype, hr⟩ := ((h.each r).asked hread).request
  by_cases hflush : type = .Tflush
  · rw [hflush] at htype
    rw [Srv.complete, htype, ofCode_code]
    exact h.rflush hp htype
  by_cases hversion : type = .Tversion
  · rw [hversion] at htype
    rw [Srv.complete, htype, ofCode_code]
    exact h.rversion hp htype
  obtain ⟨F, c, hx, hready, hc⟩ := finishCall_ready (t := t) (F := s.fids) hright htype hr hversion hflush
    (hfit hp type htype)
  have hcomplete : s.complete t r = ({ s with fids := F }.setCall r c).goto r .completed := by
    rw [Srv.complete, htype, ofCode_code]
    cases type <;> first | exact absurd rfl hflush | exact absurd rfl hversion | (dsimp only; rw [hx])
  rw [hcomplete]
  refine h.completed (q := { s.req r with toCall := c }) hp hready ?_ hc rfl rfl
  rw [hc, htype]
  exact fun he => hversion (code_inj he)

/-! ## Writing, and the flushes that wait -/

theorem room_ge (c : Call) : 7 ≤ room c := by
  rw [room]
  split
  · omega
  · split <;> omega

/-- **A reply that there is room for is written**; for a `Tversion` there is. -/
theorem Kept.write (h : s.Kept) (hp : s.pc r = .completed) (hfit : Fits s (.write r)) : (s.write r).Kept := by
  have hread : s.pc r ≠ .unread := by simp [hp]
  have hat := h.each r
  have hask := hat.asked hread
  have hresp := hat.responded
  rw [hp] at hresp
  obtain ⟨type, htype, hr⟩ := hask.request
  have hready := hat.completed hp
  have hroom : room (s.req r).toCall ≤ s.msize.toNat := by
    by_cases hv : (s.req r).ifcall.type = FType.Tversion.code
    · have hsize := hat.msize hv hp
      rw [room, (hready.version hv).1, hv, ofCode_code]
      exact hsize
    · exact hfit hv
  obtain ⟨buf, hconv, hlen⟩ := convS2M_reply hready htype hr h.wbuf hroom
  have hge := room_ge (s.req r).toCall
  rw [Srv.write, hconv]
  dsimp only
  rw [if_neg (by omega), if_neg (by omega)]
  refine @Kept.put s _ r (s.req r) .written h (by simp [hp]) (update_eq_self r s.req).symm rfl
    ⟨h.robust.failed, ?_⟩ (hlen.trans h.wbuf) (h.unread_goto hread (by simp)) ?_ ?_ (fun _ _ hw => hw)
  · intro p hmem
    rcases mem_append.1 hmem with hmem | hmem
    · exact h.robust.out p hmem
    rw [mem_singleton.1 hmem]
    change (buf.take _).length ≤ s.msize.toNat
    rw [length_take]
    omega
  · rw [hp]
    exact .refl _
  · refine ⟨fun _ => hask, ?_, ?_, ?_, ?_, ?_, ?_, hresp⟩ <;> simp

theorem Kept.mark (h : s.Kept) (hp : s.pc r = .written) : (s.mark r).Kept := by
  have hread : s.pc r ≠ .unread := by rw [hp]; nofun
  refine @Kept.put s _ r { s.req r with responded := true } (.flushing 0) h (by rw [hp]; nofun) rfl rfl
    ⟨h.robust.failed, h.robust.out⟩ h.wbuf (h.unread_goto hread nofun) ?_ ?_ (fun _ _ hw => hw)
  · rw [hp]
    exact .refl _
  · exact ⟨fun _ => (h.each r).asked hread, nofun, nofun, nofun, fun _ => nofun, fun _ => nofun, nofun, rfl⟩

theorem Kept.comeback (h : s.Kept) {i : Nat} (hp : s.pc r = .calling i) : (s.goto r (.flushing (i + 1))).Kept := by
  have hread : s.pc r ≠ .unread := by rw [hp]; nofun
  have hresp := (h.each r).responded
  rw [hp] at hresp
  refine @Kept.put s _ r (s.req r) (.flushing (i + 1)) h (by rw [hp]; nofun) (update_eq_self r s.req).symm rfl
    ⟨h.robust.failed, h.robust.out⟩ h.wbuf (h.unread_goto hread nofun) ?_ ?_ (fun _ _ hw => hw)
  · rw [hp]
    exact .refl _
  · exact ⟨fun _ => (h.each r).asked hread, nofun, nofun, nofun, fun _ => nofun, fun _ => nofun, nofun, hresp⟩

theorem Kept.finish (h : s.Kept) {i : Nat} (hp : s.pc r = .flushing i) : (s.finish r).Kept := by
  have hread : s.pc r ≠ .unread := by rw [hp]; nofun
  have hresp := (h.each r).responded
  rw [hp] at hresp
  refine @Kept.put s _ r { s.req r with flush := [] } .done h (by rw [hp]; nofun) rfl rfl
    ⟨h.robust.failed, h.robust.out⟩ h.wbuf (h.unread_goto hread nofun) (nil_sublist _) ?_ (fun w hw hat => hat.back hw)
  exact ⟨fun _ => (h.each r).asked hread, nofun, nofun, nofun, fun _ => nofun, fun _ => nofun, nofun, hresp⟩

theorem Kept.wake (h : s.Kept) {f : Nat} (hp : s.pc f = .parked)
    (hnot : ∀ o, f ∉ (s.req o).flush.drop (s.pc o).cursor) (hright : Right { (s.req f).toCall with error := none })
    (htype : (s.req f).ifcall.type = FType.Tflush.code) : (s.respond f none).Kept := by
  have hread : s.pc f ≠ .unread := by rw [hp]; nofun
  have hresp := (h.each f).responded
  rw [hp] at hresp
  have hv : (s.req f).ifcall.type ≠ FType.Tversion.code := by rw [htype]; decide
  obtain ⟨req, hreq⟩ : ∃ req, req = update s.req f { s.req f with error := none } := ⟨_, rfl⟩
  obtain ⟨pc, hpc⟩ : ∃ pc, pc = update s.pc f .called := ⟨_, rfl⟩
  have hlist : ∀ o, (req o).flush.drop (pc o).cursor = (s.req o).flush.drop (s.pc o).cursor := by
    intro o
    rw [hreq, hpc]
    by_cases ho : o = f
    · rw [ho, update_self, update_self, hp]
      rfl
    · rw [update_of_ne ho, update_of_ne ho]
  have hgoal : ({ s with req := req, pc := pc } : Srv).Kept := by
    refine ⟨⟨h.robust.failed, h.robust.out⟩, h.wbuf, ?_, ?_, ?_, ?_⟩
    · rw [hpc]
      exact h.unread_goto hread nofun
    · intro w
      change At s.loop s.msize w (req w) (pc w)
      rw [hreq, hpc]
      by_cases hw : w = f
      · rw [hw, update_self, update_self]
        exact ⟨fun _ => (h.each f).asked hread, nofun, fun _ => hright, nofun, fun h => absurd h hv, fun h => absurd h hv,
          nofun, hresp⟩
      · rw [update_of_ne hw, update_of_ne hw]
        exact h.each w
    · intro o w hw
      rw [hlist] at hw
      obtain ⟨hpw, how⟩ := h.lists.queued o w hw
      have hne : w ≠ f := fun he => hnot o (he ▸ hw)
      refine ⟨?_, ?_⟩
      · change pc w = .parked
        rw [hpc, update_of_ne hne, hpw]
      · change (req w).oldreq = some o
        rw [hreq, update_of_ne hne, how]
    · intro o
      rw [hlist]
      exact h.lists.nodup o
  rw [hreq, hpc] at hgoal
  rw [Srv.respond, if_neg (by rw [hresp]; nofun)]
  exact hgoal

/-- The next flush of the list is parked, and on no other list; `respond` is called for it with no error. -/
theorem Kept.next (h : s.Kept) {f i : Nat} (hp : s.pc r = .flushing i) (hf : (s.req r).flush[i]? = some f) :
    ((s.goto r (.calling i)).respond f none).Kept := by
  have hread : s.pc r ≠ .unread := by rw [hp]; nofun
  have hresp := (h.each r).responded
  rw [hp] at hresp
  have hdrop : (s.req r).flush.drop (s.pc r).cursor = f :: (s.req r).flush.drop (i + 1) := by
    rw [hp]
    obtain ⟨hi, hget⟩ := List.getElem?_eq_some_iff.1 hf
    exact (List.drop_eq_getElem_cons hi).trans (by rw [hget])
  obtain ⟨hpark, hold⟩ := h.lists.queued r f (by rw [hdrop]; exact List.mem_cons_self)
  have hnd := h.lists.nodup r
  rw [hdrop, List.nodup_cons] at hnd
  have hne : f ≠ r := by
    intro he
    rw [he, hp] at hpark
    cases hpark
  have hfat := h.each f
  have htype := hfat.parked hpark
  have hright : Right { (s.req f).toCall with error := none } :=
    ⟨short_none, fun _ => held_free (t := .Tflush) htype rfl, fun _ => rfl, fun h => absurd (htype.symm.trans h) (by decide),
      fun h => absurd (htype.symm.trans h) (by decide), fun h => absurd (htype.symm.trans h) (by decide)⟩
  -- off the list of `r` first
  have hcalling : (s.goto r (.calling i)).Kept := by
    refine @Kept.put s _ r (s.req r) (.calling i) h (by rw [hp]; nofun) (update_eq_self r s.req).symm rfl
      ⟨h.robust.failed, h.robust.out⟩ h.wbuf (h.unread_goto hread nofun) ?_ ?_ (fun _ _ hw => hw)
    · rw [hdrop]
      exact List.sublist_cons_self ..
    · exact ⟨fun _ => (h.each r).asked hread, nofun, nofun, nofun, fun _ => nofun, fun _ => nofun, nofun, hresp⟩
  have hnot : ∀ o, f ∉ ((s.goto r (.calling i)).req o).flush.drop ((s.goto r (.calling i)).pc o).cursor := by
    intro o ho
    have hoo := (hcalling.lists.queued o f ho).2
    obtain rfl : r = o := Option.some.inj (hold.symm.trans hoo)
    change f ∈ (s.req r).flush.drop (update s.pc r (.calling i) r).cursor at ho
    rw [update_self] at ho
    exact hnd.1 ho
  have hfpc : (s.goto r (.calling i)).pc f = .parked := (update_of_ne hne _ _).trans hpark
  exact hcalling.wake hfpc hnot hright htype

/-! ## Every run -/

theorem Init.kept (h : s.Init) : s.Kept := by
  refine ⟨⟨h.failed, ?_⟩, h.wbuf, ?_, ?_, ?_, ?_⟩
  · rw [h.out]
    nofun
  · intro r
    rw [h.pc, h.n]
    exact ⟨fun _ => Nat.zero_le r, fun _ => rfl⟩
  · intro r
    rw [h.pc]
    exact ⟨fun h => absurd rfl h, nofun, nofun, nofun, fun _ => nofun, fun _ => nofun, nofun, (h.req r).1⟩
  · intro o f hf
    rw [(h.req o).2, drop_nil] at hf
    cases hf
  · intro o
    rw [(h.req o).2, drop_nil]
    exact .nil

/-- A step that fits. -/
def FitStep (s : Srv) (a : Act) (s' : Srv) : Prop := Step s a s' ∧ Fits s a

theorem Kept.step {a : Act} (h : s.Kept) (hstep : FitStep s a s') : s'.Kept := by
  obtain ⟨hstep, hfit⟩ := hstep
  cases hstep with
  | message hloop ht _ hconv => exact h.message ht hconv hfit hloop
  | answer hp hans => exact h.answer hp hans
  | complete hp _ => exact h.complete hp hfit
  | write hp => exact h.write hp hfit
  | mark hp => exact h.mark hp
  | next hp hf => exact h.next hp hf
  | back hp _ _ => exact h.comeback hp
  | finish hp _ => exact h.finish hp

def noHandlers : Conf :=
  ⟨false, false, false, false, false, false, false, false, false, false, false, false, false, false, []⟩

def start : Srv :=
  { conf := noHandlers, msize := 8216, wbuf := List.replicate 8216 0, n := 0, req := fun _ => newReq (Fcall.zero none) false
    pc := fun _ => .unread, pool := fun _ => none, fids := ⟨0, fun _ => ⟨0, closed, none, none, ⟨0, 0, 0⟩, 0, false⟩, fun _ => none⟩
    loop := none, out := [], failed := false }

theorem start_init : start.Init :=
  ⟨rfl, length_replicate, fun _ => rfl, fun _ => ⟨rfl, rfl⟩, fun _ => rfl, rfl, rfl, rfl⟩

/-- There are no files. -/
def tree : Tree :=
  { root := 0, dir := fun _ => ⟨0, 0, ⟨0, 0, 0⟩, 0, 0, 0, 0, none, none, none, none⟩, parent := some
    child := fun _ _ => none, opendirfile := fun _ => false, readdirfile := fun _ _ => [], removefile := fun _ => none
    walk1 := fun _ _ => (none, ⟨0, 0, 0⟩), clone := fun _ _ => none }

def tclunk : Fcall Ptr := { Fcall.zero none with type := FType.Tclunk.code, tag := 1, fid := 5 }

def answered : Srv := (((start.getreq tclunk).dispatch tree 0).complete tree 0).write 0

end Srv

end Plan9.Lib9p.Serve
