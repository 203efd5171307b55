/-
What `ipoput4` sends of a datagram, and of its fragments on their way.

A fragment of a payload is a piece of it at an offset (`Piece`), with `IP_MF` set
unless it has the end. The pieces that come of a payload, or of one of its pieces,
lie one after the other (`Pieces`): `IP_MF` of a piece that is cut again is carried
above its offset, in bit 16, down to the last of its own pieces.
-/
import Plan9.Ip.Fragment

namespace Plan9.Ip

open List Option

/-! ## Cutting a chain -/

theorem copyup_spec {chunk : Nat} {xp : List (List UInt8)} (h : chunk ≤ xp.flatten.length) :
    ∃ xp', copyup chunk xp = some (xp.flatten.take chunk, xp') ∧ xp'.flatten = xp.flatten.drop chunk := by
  induction xp generalizing chunk with
  | nil =>
    obtain rfl : chunk = 0 := Nat.le_zero.1 h
    exact ⟨[], rfl, rfl⟩
  | cons b xp ih =>
    cases chunk with
    | zero => exact ⟨b :: xp, rfl, rfl⟩
    | succ chunk =>
      unfold copyup
      by_cases hb : b.length ≤ chunk + 1
      · rw [if_pos hb]
        rw [flatten_cons, length_append] at h
        obtain ⟨xp', hcopy, hflat⟩ := @ih (chunk + 1 - b.length) (by omega)
        refine ⟨xp', ?_, ?_⟩
        · rw [hcopy, flatten_cons, take_append, take_of_length_le hb]
        · rw [hflat, flatten_cons, drop_append, drop_of_length_le hb, nil_append]
      rw [if_neg hb]
      have hlt : chunk + 1 ≤ b.length := by omega
      refine ⟨b.drop (chunk + 1) :: xp, ?_, ?_⟩
      · rw [flatten_cons, take_append_of_le_length hlt]
      · rw [flatten_cons, flatten_cons, drop_append_of_le_length hlt]

/-! ## Pieces -/

/-- What the fragments of a datagram have in common. -/
structure Source where
  src : Nat
  dst : Nat
  id : Nat
  payload : List UInt8
  id_lt : id < 2 ^ 16
  short : payload.length ≤ 65535 - ip4hdr

variable {d : Source} {w : Packet} {ws : List Packet} {lo hi : Nat}

/-- The packet has the bytes of the payload from `lo` on. -/
structure Piece (d : Source) (w : Packet) (lo : Nat) : Prop where
  src : w.hdr.src = d.src
  dst : w.hdr.dst = d.dst
  id : w.hdr.id = d.id
  length : w.hdr.length = ip4hdr + w.data.length
  aligned : lo % 8 = 0
  within : lo + w.data.length ≤ d.payload.length
  data : w.data = (d.payload.drop lo).take w.data.length
  frag : w.hdr.frag = lo / 8 + if lo + w.data.length < d.payload.length then ipmf else 0
  nonempty : 0 < w.data.length ∨ d.payload = []

/-- Pieces one after the other. -/
def Pieces (d : Source) : Nat → Nat → List Packet → Prop
  | lo, hi, [] => lo = hi
  | lo, hi, w :: ws => Piece d w lo ∧ Pieces d (lo + w.data.length) hi ws

theorem Pieces.append {mid : Nat} {ws' : List Packet} (h : Pieces d lo mid ws) (h' : Pieces d mid hi ws') :
    Pieces d lo hi (ws ++ ws') := by
  induction ws generalizing lo with
  | nil =>
    obtain rfl := h
    exact h'
  | cons w ws ih => exact ⟨h.1, ih h.2⟩

theorem Pieces.le (h : Pieces d lo hi ws) : lo ≤ hi := by
  induction ws generalizing lo with
  | nil => exact Nat.le_of_eq h
  | cons w ws ih => exact Nat.le_trans (Nat.le_add_right _ _) (ih h.2)

theorem or_ipmf {n : Nat} (h : n < 2 ^ 13) (m : Nat) (hm : m = 0 ∨ m = 2 ^ 13) : (n + m) ||| ipmf = n + ipmf := by
  have hor : n ||| 2 ^ 13 = n + 2 ^ 13 := by
    have hadd := Nat.two_pow_add_eq_or_of_lt h 1
    rw [Nat.mul_one] at hadd
    rw [Nat.or_comm, ← hadd, Nat.add_comm]
  have hmf : ipmf = 2 ^ 13 := rfl
  rw [hmf]
  rcases hm with rfl | rfl
  · exact hor
  · rw [← hor, Nat.or_assoc, Nat.or_self]

/-- The loop cuts what is left of a piece, the bytes from `lo` to `hi`. -/
theorem sendfrags_spec {eh : Ip4hdr} {lid seglen turns m : Nat} {xp : List (List UInt8)} (hsrc : eh.src = d.src) (hdst : eh.dst = d.dst)
    (hid : lid % 2 ^ 16 = d.id) (hhi : hi ≤ d.payload.length)
    (hm : m = if hi < d.payload.length then 2 ^ 16 else 0) (hseg : seglen % 8 = 0) (hseg8 : 8 ≤ seglen) (hlo : lo ≤ hi)
    (halign : lo % 8 = 0) (hturns : hi - lo < turns) (hxp : xp.flatten = (d.payload.drop lo).take (hi - lo)) :
    ∃ ws, sendfrags eh lid (hi + m) seglen turns (lo + m) xp = (ws, true) ∧ Pieces d lo hi ws := by
  have hshort := d.short
  induction turns generalizing lo xp with
  | zero => exact absurd hturns (Nat.not_lt_zero _)
  | succ turns ih =>
    unfold sendfrags
    by_cases hmore : lo + m < hi + m
    · rw [if_pos hmore]
      have hxplen : xp.flatten.length = hi - lo := by
        rw [hxp, length_take, length_drop]
        omega
      have hlen16 : lo < 2 ^ 16 := by
        omega
      have hm' : m = 0 ∨ m = 2 ^ 16 := by
        rw [hm]
        split
        · exact .inr rfl
        · exact .inl rfl
      have hshift : (lo + m) >>> 3 = lo / 8 + m / 8 := by
        omega
      have hm8 : m / 8 = if hi < d.payload.length then ipmf else 0 := by
        rw [hm]
        split <;> rfl
      dsimp only
      by_cases hlast : lo + m + seglen ≥ hi + m
      · -- the rest, with the `IP_MF` that came with the piece
        rw [if_pos hlast, if_pos hlast]
        have hchunk : hi + m - (lo + m) = hi - lo := by omega
        obtain ⟨xp', hcopy, hflat⟩ := @copyup_spec (hi - lo) xp (Nat.le_of_eq hxplen.symm)
        rw [hchunk, hcopy, take_of_length_le (Nat.le_of_eq hxplen)]
        dsimp only
        have hend : ∀ turns xp, sendfrags eh lid (hi + m) seglen turns (lo + m + seglen) xp = ([], true) := by
          intro turns xp
          cases turns with
          | zero => rfl
          | succ turns =>
            unfold sendfrags
            rw [if_neg (Nat.not_lt.2 hlast)]
        rw [hend]
        refine ⟨_, rfl, ⟨hsrc, hdst, hid, ?_, halign, ?_, ?_, ?_, .inl ?_⟩, ?_⟩
        · change (hi - lo + ip4hdr) % 2 ^ 16 = ip4hdr + xp.flatten.length
          rw [hxplen, Nat.mod_eq_of_lt (by omega), Nat.add_comm]
        · change lo + xp.flatten.length ≤ _
          omega
        · rw [hxplen]
          exact hxp
        · rw [hshift, hm8]
          have heq : lo + xp.flatten.length = hi := by omega
          rw [heq]
          refine Nat.mod_eq_of_lt ?_
          omega
        · change 0 < xp.flatten.length
          omega
        · change lo + xp.flatten.length = hi
          omega
      rw [if_neg hlast, if_neg hlast]
      obtain ⟨xp', hcopy, hflat⟩ := @copyup_spec seglen xp (by omega)
      have htake : (xp.flatten.take seglen).length = seglen := by
        rw [length_take]
        omega
      rw [hcopy]
      dsimp only
      have hxp' : xp'.flatten = (d.payload.drop (lo + seglen)).take (hi - (lo + seglen)) := by
        rw [hflat, hxp, drop_take, drop_drop]
        congr 1
        omega
      obtain ⟨ws, hsend, hpieces⟩ := @ih (lo + seglen) xp' (by omega) (by omega) (by omega) hxp'
      have hnext : lo + m + seglen = lo + seglen + m := by omega
      rw [hnext, hsend]
      refine ⟨_, rfl, ⟨hsrc, hdst, hid, ?_, halign, ?_, ?_, ?_, .inl ?_⟩, ?_⟩
      · change (seglen + ip4hdr) % 2 ^ 16 = ip4hdr + (xp.flatten.take seglen).length
        rw [htake, Nat.mod_eq_of_lt (by omega), Nat.add_comm]
      · change lo + (xp.flatten.take seglen).length ≤ _
        omega
      · change xp.flatten.take seglen = (d.payload.drop lo).take (xp.flatten.take seglen).length
        rw [htake, hxp, take_take]
        congr 1
        omega
      · rw [hshift, or_ipmf (by omega) (m / 8) (by omega), htake, if_pos (by omega)]
        refine Nat.mod_eq_of_lt ?_
        unfold ipmf
        omega
      · change 0 < (xp.flatten.take seglen).length
        omega
      · rw [htake]
        exact hpieces
    rw [if_neg hmore]
    exact ⟨[], rfl, by
      change lo = hi
      omega⟩

theorem sendfrags_ttl {eh : Ip4hdr} {lid dlen seglen turns fragoff : Nat} {xp : List (List UInt8)} {all : Bool}
    (h : sendfrags eh lid dlen seglen turns fragoff xp = (ws, all)) : ∀ v ∈ ws, v.hdr.ttl = eh.ttl := by
  induction turns generalizing fragoff xp ws all with
  | zero =>
    cases h
    exact fun v hv => nomatch hv
  | succ turns ih =>
    unfold sendfrags at h
    split at h
    · dsimp only at h
      split at h
      · cases h
        exact fun v hv => nomatch hv
      cases h
      intro v hv
      rcases mem_cons.1 hv with rfl | hv
      · rfl
      · exact ih rfl v hv
    · cases h
      exact fun v hv => nomatch hv

/-! ## Hops -/

/-- What an interface can carry: a fragment of eight bytes, at least, or else all of it. -/
def Carries (medialen : Int) (len : Nat) : Prop := (len : Int) ≤ medialen ∨ 28 ≤ medialen

theorem and_ipdf {n : Nat} (h : n < 2 ^ 14) : n &&& ipdf = 0 := by
  have hand : ipdf = 2 ^ 14 := rfl
  rw [hand, Nat.and_two_pow]
  rw [Nat.testBit_lt_two_pow h]
  rfl

theorem Piece.frag_lt (h : Piece d w lo) : w.hdr.frag < 2 ^ 14 := by
  have hwithin := h.within
  have hshort := d.short
  rw [h.frag]
  have : (if lo + w.data.length < d.payload.length then ipmf else 0) ≤ 2 ^ 13 := by
    split
    · exact le_rfl
    · exact Nat.zero_le _
  omega

theorem Piece.gated (h : Piece d w lo) {medialen : Int} (ttl tos id4 : Nat)
    (hcarries : Carries medialen w.hdr.length) :
    ∃ ws, ipoput4 medialen true ttl tos id4 w.hdr [w.data] = .sent ws ∧ Pieces d lo (lo + w.data.length) ws ∧
      (d.payload = [] → ws.length = 1) ∧ ∀ v ∈ ws, v.hdr.ttl = ttl := by
  have hlen := h.length
  have hwithin := h.within
  have hshort := d.short
  have h16 : w.hdr.length < ipmax := by
    unfold ipmax
    unfold ip4hdr at hshort hlen
    omega
  have hblock : ip4hdr + ([w.data].map List.length).sum = w.hdr.length := by
    rw [hlen, map_singleton, sum_singleton]
  have hfraglt := h.frag_lt
  unfold ipoput4
  simp only [hblock, gt_iff_lt, Nat.lt_irrefl, and_false, if_false, if_true]
  rw [if_neg (Nat.not_le.2 h16)]
  by_cases hfits : (w.hdr.length : Int) ≤ medialen
  · rw [if_pos hfits]
    have hflat : [w.data].flatten = w.data := flatten_singleton
    refine ⟨_, rfl, ⟨⟨h.src, h.dst, h.id, ?_, h.aligned, ?_, ?_, ?_, ?_⟩, ?_⟩, fun _ => rfl, fun v hv => ?_⟩
    · rw [hflat]
      exact hlen
    · rw [hflat]
      exact hwithin
    · rw [hflat]
      exact h.data
    · rw [hflat]
      exact h.frag
    · rw [hflat]
      exact h.nonempty
    · change lo + [w.data].flatten.length = _
      rw [hflat]
    · obtain rfl := mem_singleton.1 hv
      rfl
  rw [if_neg hfits, if_neg (not_not_intro (and_ipdf hfraglt))]
  have hmin : (28 : Int) ≤ medialen := hcarries.resolve_left hfits
  have hseg : ¬ (medialen - (ip4hdr : Nat)) / 8 * 8 < 8 := by
    unfold ip4hdr
    omega
  rw [if_neg hseg]
  have hdatalen : w.hdr.length - ip4hdr = w.data.length := by omega
  have hshl : w.hdr.frag <<< 3 = lo + if lo + w.data.length < d.payload.length then 2 ^ 16 else 0 := by
    have haligned := h.aligned
    rw [h.frag, Nat.shiftLeft_eq]
    split
    · unfold ipmf
      omega
    · omega
  have hdlen : w.data.length + w.hdr.frag <<< 3 =
      lo + w.data.length + if lo + w.data.length < d.payload.length then 2 ^ 16 else 0 := by
    omega
  rw [hdatalen, hdlen, hshl]
  have hdata : [w.data].flatten = (d.payload.drop lo).take (lo + w.data.length - lo) := by
    rw [flatten_singleton, Nat.add_sub_cancel_left]
    exact h.data
  obtain ⟨ws, hsend, hpieces⟩ := @sendfrags_spec d lo (lo + w.data.length)
    { w.hdr with vihl := w.hdr.vihl, ttl := ttl, tos := w.hdr.tos } w.hdr.id ((medialen - (ip4hdr : Nat)) / 8 * 8).toNat
    (lo + w.data.length + (if lo + w.data.length < d.payload.length then 2 ^ 16 else 0) + 1) _ [w.data] h.src h.dst
    (by rw [h.id, Nat.mod_eq_of_lt d.id_lt]) hwithin rfl (by omega) (by omega) (Nat.le_add_right _ _) h.aligned (by omega) hdata
  refine ⟨ws, ?_, hpieces, fun hnil => ?_, ?_⟩
  · rw [hsend]
    rfl
  · rw [hnil] at hwithin
    exact absurd hwithin (by
      rw [length_nil]
      omega)
  · have httl := sendfrags_ttl hsend
    exact httl

theorem Piece.carried (h : Piece d w lo) {medialen : Int} {ttl tos id4 : Nat}
    (hsent : ipoput4 medialen true ttl tos id4 w.hdr [w.data] = .sent ws) :
    Pieces d lo (lo + w.data.length) ws ∧ (d.payload = [] → ws.length = 1) := by
  by_cases hcarries : Carries medialen w.hdr.length
  · obtain ⟨ws', hsent', hpieces, hone, -⟩ := h.gated ttl tos id4 hcarries
    obtain rfl := Output.sent.inj (hsent.symm.trans hsent')
    exact ⟨hpieces, hone⟩
  have hblock : ip4hdr + ([w.data].map List.length).sum = w.hdr.length := by
    rw [h.length, map_singleton, sum_singleton]
  have hbig : ¬ (w.hdr.length : Int) ≤ medialen := fun hle => hcarries (.inl hle)
  have hseg : (medialen - (ip4hdr : Nat)) / 8 * 8 < 8 := by
    have hsmall : ¬ (28 : Int) ≤ medialen := fun hle => hcarries (.inr hle)
    unfold ip4hdr
    omega
  unfold ipoput4 at hsent
  simp only [hblock, gt_iff_lt, Nat.lt_irrefl, and_false, if_false, if_true, hbig, hseg] at hsent
  split at hsent
  · exact nomatch hsent
  · split at hsent
    · exact nomatch hsent
    · exact nomatch hsent

theorem ipoput4_pieces {eh : Ip4hdr} {bp : List (List UInt8)} {medialen : Int} {ttl tos id4 : Nat} (hsrc : eh.src = d.src)
    (hdst : eh.dst = d.dst) (hid : id4 % 2 ^ 16 = d.id) (hpayload : bp.flatten = d.payload)
    (hsent : ipoput4 medialen false ttl tos id4 eh bp = .sent ws) :
    Pieces d 0 d.payload.length ws ∧ (d.payload = [] → ws.length = 1) ∧ ∀ v ∈ ws, v.hdr.ttl = ttl := by
  unfold ipoput4 at hsent
  simp only [Bool.false_eq_true, false_and, if_false, ← length_flatten, hpayload] at hsent
  by_cases hbig : ip4hdr + d.payload.length ≥ ipmax
  · rw [if_pos hbig] at hsent
    exact nomatch hsent
  rw [if_neg hbig] at hsent
  by_cases hfits : ((ip4hdr + d.payload.length : Nat) : Int) ≤ medialen
  · rw [if_pos hfits] at hsent
    have hws : ∃ h' : Ip4hdr, ws = [⟨h', d.payload⟩] ∧ h'.src = d.src ∧ h'.dst = d.dst ∧ h'.id = d.id ∧
        h'.length = ip4hdr + d.payload.length ∧ h'.frag = 0 ∧ h'.ttl = ttl := by
      split at hsent
      · exact nomatch hsent
      · obtain rfl := Output.sent.inj hsent
        rw [hpayload]
        exact ⟨_, rfl, hsrc, hdst, hid, rfl, rfl, rfl⟩
    obtain ⟨h', rfl, h1, h2, h3, h4, h5, h6⟩ := hws
    refine ⟨⟨⟨h1, h2, h3, h4, rfl, ?_, ?_, ?_, ?_⟩, ?_⟩, fun _ => rfl, fun v hv => ?_⟩
    · exact Nat.le_of_eq (Nat.zero_add _)
    · exact take_length.symm
    · rw [Nat.zero_add (length _), if_neg (Nat.lt_irrefl _)]
      exact h5
    · rcases Nat.eq_zero_or_pos d.payload.length with hnil | hpos
      · exact .inr (length_eq_zero_iff.1 hnil)
      · exact .inl hpos
    · exact Nat.zero_add _
    · obtain rfl := mem_singleton.1 hv
      exact h6
  rw [if_neg hfits] at hsent
  split at hsent
  · exact nomatch hsent
  split at hsent
  · exact nomatch hsent
  rename_i hseg
  unfold ip4hdr at hseg hfits
  rw [Nat.add_zero, Nat.add_sub_cancel_left] at hsent
  have hall : bp.flatten = (d.payload.drop 0).take (d.payload.length - 0) := hpayload.trans take_length.symm
  obtain ⟨ws', hsend, hpieces⟩ := @sendfrags_spec d 0 d.payload.length { eh with vihl := ipver4hlen4, ttl := ttl, tos := tos }
    id4 ((medialen - (ip4hdr : Nat)) / 8 * 8).toNat (d.payload.length + 1) 0 bp hsrc hdst hid le_rfl
    (if_neg (Nat.lt_irrefl _)).symm (by unfold ip4hdr; omega) (by unfold ip4hdr; omega) (Nat.zero_le _) rfl (by omega) hall
  have hws : ws' = ws := by
    rw [Nat.add_zero] at hsend
    rw [hsend] at hsent
    exact Output.sent.inj hsent
  subst hws
  refine ⟨hpieces, fun hnil => ?_, sendfrags_ttl hsend⟩
  rw [hnil, length_nil] at hfits
  omega

theorem ipoput4_sends {eh : Ip4hdr} {bp : List (List UInt8)} {medialen : Int} {ttl tos id4 : Nat} (hsrc : eh.src = d.src)
    (hdst : eh.dst = d.dst) (hid : id4 % 2 ^ 16 = d.id) (hpayload : bp.flatten = d.payload) (hdf : eh.frag &&& ipdf = 0)
    (hcarries : Carries medialen (ip4hdr + d.payload.length))
    (hone : (ip4hdr + d.payload.length : Nat) ≤ medialen → bp.length ≤ 1) :
    ∃ ws, ipoput4 medialen false ttl tos id4 eh bp = .sent ws := by
  have hshort := d.short
  unfold ipoput4
  simp only [Bool.false_eq_true, false_and, if_false, ← length_flatten, hpayload]
  have hsmall : ¬ ip4hdr + d.payload.length ≥ ipmax := by
    unfold ip4hdr at hshort ⊢
    unfold ipmax
    omega
  rw [if_neg hsmall]
  by_cases hfits : ((ip4hdr + d.payload.length : Nat) : Int) ≤ medialen
  · rw [if_pos hfits]
    have hblocks := hone hfits
    split
    · rw [length_cons, length_cons] at hblocks
      omega
    · exact ⟨_, rfl⟩
  rw [if_neg hfits, if_neg (not_not_intro hdf)]
  have hmin : (28 : Int) ≤ medialen := hcarries.resolve_left hfits
  have hseg : ¬ (medialen - (ip4hdr : Nat)) / 8 * 8 < 8 := by
    unfold ip4hdr
    omega
  rw [if_neg hseg]
  have hall : bp.flatten = (d.payload.drop 0).take (d.payload.length - 0) := hpayload.trans take_length.symm
  obtain ⟨ws, hsend, -⟩ := @sendfrags_spec d 0 d.payload.length { eh with vihl := ipver4hlen4, ttl := ttl, tos := tos }
    id4 ((medialen - (ip4hdr : Nat)) / 8 * 8).toNat (d.payload.length + 1) 0 bp hsrc hdst hid le_rfl
    (if_neg (Nat.lt_irrefl _)).symm (by unfold ip4hdr; omega) (by unfold ip4hdr; omega) (Nat.zero_le _) rfl (by omega) hall
  rw [Nat.add_zero] at hsend
  rw [Nat.add_zero, Nat.add_sub_cancel_left, hsend]
  exact ⟨ws, rfl⟩

/-! ## Paths -/

/-- What a router makes of the packets that pass through: none, if one of them is lost. -/
def forward (medialen : Int) : List Packet → Option (List Packet)
  | [] => some []
  | w :: ws =>
    if w.hdr.ttl < 1 then none
    else match ipoput4 medialen true (w.hdr.ttl - 1) w.hdr.tos 0 w.hdr [w.data], forward medialen ws with
      | .sent vs, some us => some (vs ++ us)
      | _, _ => none

/-- One router after the other. -/
def carry : List Int → List Packet → Option (List Packet)
  | [], ws => some ws
  | medialen :: path, ws => (forward medialen ws).bind (carry path)

theorem forward_pieces {medialen : Int} {us : List Packet} (h : Pieces d lo hi ws) (hforward : forward medialen ws = some us) :
    Pieces d lo hi us ∧ (d.payload = [] → us.length = ws.length) := by
  induction ws generalizing lo us with
  | nil =>
    cases hforward
    exact ⟨h, fun _ => rfl⟩
  | cons w ws ih =>
    unfold forward at hforward
    split at hforward
    · exact nomatch hforward
    split at hforward
    · rename_i vs us' hsent hrest
      cases hforward
      obtain ⟨hvs, hone⟩ := h.1.carried hsent
      obtain ⟨hus, hlen⟩ := ih h.2 hrest
      refine ⟨hvs.append hus, fun hnil => ?_⟩
      rw [length_append, length_cons, hone hnil, hlen hnil, Nat.add_comm]
    · exact nomatch hforward

theorem carry_pieces {path : List Int} {us : List Packet} (h : Pieces d lo hi ws) (hcarry : carry path ws = some us) :
    Pieces d lo hi us ∧ (d.payload = [] → us.length = ws.length) := by
  induction path generalizing ws with
  | nil =>
    cases hcarry
    exact ⟨h, fun _ => rfl⟩
  | cons medialen path ih =>
    obtain ⟨vs, hforward, hrest⟩ := bind_eq_some_iff.1 hcarry
    obtain ⟨hvs, hlen⟩ := forward_pieces h hforward
    obtain ⟨hus, hlen'⟩ := ih hvs hrest
    exact ⟨hus, fun hnil => (hlen' hnil).trans (hlen hnil)⟩

theorem exists_forward {medialen : Int} {ttl : Nat} (h : Pieces d lo hi ws) (hmin : 28 ≤ medialen)
    (httl : ∀ w ∈ ws, w.hdr.ttl = ttl + 1) : ∃ us, forward medialen ws = some us ∧ ∀ u ∈ us, u.hdr.ttl = ttl := by
  induction ws generalizing lo with
  | nil => exact ⟨[], rfl, fun u hu => nomatch hu⟩
  | cons w ws ih =>
    obtain ⟨us, hus, husttl⟩ := ih h.2 fun w hw => httl w (mem_cons_of_mem _ hw)
    have hw : w.hdr.ttl = ttl + 1 := httl w mem_cons_self
    obtain ⟨vs, hvs, -, -, hvsttl⟩ := h.1.gated (w.hdr.ttl - 1) w.hdr.tos 0 (.inr hmin)
    refine ⟨vs ++ us, ?_, fun u hu => ?_⟩
    · unfold forward
      rw [if_neg (by omega), hvs, hus]
    rcases mem_append.1 hu with hu | hu
    · have := hvsttl u hu
      omega
    · exact husttl u hu

theorem exists_carry {path : List Int} {ttl : Nat} (h : Pieces d lo hi ws) (hmin : ∀ medialen ∈ path, 28 ≤ medialen)
    (httl : ∀ w ∈ ws, w.hdr.ttl = ttl) (hhops : path.length ≤ ttl) : ∃ us, carry path ws = some us := by
  induction path generalizing ws ttl with
  | nil => exact ⟨ws, rfl⟩
  | cons medialen path ih =>
    rw [length_cons] at hhops
    obtain ⟨us, hus, husttl⟩ := @exists_forward d ws lo hi medialen (ttl - 1) h (hmin medialen mem_cons_self) fun w hw => by
      have := httl w hw
      omega
    obtain ⟨vs, hvs⟩ := ih (forward_pieces h hus).1 (fun medialen hm => hmin medialen (mem_cons_of_mem _ hm)) husttl (by omega)
    exact ⟨vs, by
      unfold carry
      rw [hus]
      exact hvs⟩

end Plan9.Ip
