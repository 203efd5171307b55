/-
`tm2sec` takes back what `gmtime` and `localtime` make of a time, and their fields are
those of a calendar day.

`gmtime` peels years and months off a number of days, `tm2sec` adds them up: both come to
`daysTo`, the days before a year, and to the prefix sums of the months. The zone goes by
its name, and GMT needs no table.
-/
import Plan9.Libc.Ctime

namespace Plan9.Libc

open List

/-! ## The calendar -/

/-- The days from 1970 to the year that is `n` years later. -/
def daysTo : Nat → Nat
  | 0 => 0
  | n + 1 => daysTo n + dysize (1970 + n)

def february (y : Nat) : Nat := if dysize y = 366 then 29 else 28

theorem dysize_cases (y : Nat) : dysize y = 365 ∨ dysize y = 366 := by
  rw [dysize]
  split
  · exact .inr rfl
  · exact .inl rfl

theorem sum_dmsize (y : Nat) : (dmsize (february y)).sum = dysize y := by
  rw [february]
  rcases dysize_cases y with h | h
  · rw [h]
    rfl
  · rw [h]
    rfl

/-- The fields are in their ranges, and say the same day: a day of a month of the year, the day of the year and the
day of the week, which was a Thursday when the count began. -/
structure Calendar (tm : Tm) (n m : Nat) : Prop where
  year : tm.year + 1900 = 1970 + n
  mon : tm.mon = m ∧ m < 12
  mday : 1 ≤ tm.mday ∧ tm.mday ≤ (dmsize (february (1970 + n))).getD m 0
  yday : tm.yday = ((dmsize (february (1970 + n))).take m).sum + tm.mday - 1 ∧ tm.yday < dysize (1970 + n)
  hour : 0 ≤ tm.hour ∧ tm.hour < 24
  min : 0 ≤ tm.min ∧ tm.min < 60
  sec : 0 ≤ tm.sec ∧ tm.sec < 60
  wday : tm.wday = (4 + daysTo n + tm.yday) % 7

theorem yearLoop_eq : ∀ (fuel n day : Nat), day ≤ fuel →
    ∃ k d, yearLoop fuel (1970 + n) day = (1970 + k, d) ∧ daysTo n + day = daysTo k + d ∧ d < dysize (1970 + k)
  | 0, n, day, h => by
    obtain rfl : day = 0 := by omega
    refine ⟨n, 0, rfl, rfl, ?_⟩
    have := dysize_cases (1970 + n)
    omega
  | fuel + 1, n, day, h => by
    have hsize := dysize_cases (1970 + n)
    rw [yearLoop]
    by_cases hge : day ≥ dysize (1970 + n)
    · obtain ⟨k, d, hrun, hsum, hlt⟩ := yearLoop_eq fuel (n + 1) (day - dysize (1970 + n)) (by omega)
      rw [if_pos hge]
      refine ⟨k, d, hrun, ?_, hlt⟩
      rw [← hsum, daysTo]
      omega
    · rw [if_neg hge]
      exact ⟨n, day, rfl, rfl, by omega⟩

theorem monthLoop_eq : ∀ (sizes : List Nat) (d1 d0 : Nat), d0 < sizes.sum →
    ∃ m r, monthLoop sizes d1 d0 = (d1 + m, r) ∧ m < sizes.length ∧ (sizes.take m).sum + r = d0 ∧ r < sizes.getD m 0
  | [], _, _, h => by
    rw [sum_nil] at h
    omega
  | size :: sizes, d1, d0, h => by
    rw [sum_cons] at h
    rw [monthLoop]
    by_cases hge : d0 ≥ size
    · obtain ⟨m, r, hrun, _, _, hr⟩ := monthLoop_eq sizes (d1 + 1) (d0 - size) (by omega)
      rw [if_pos hge, hrun]
      refine ⟨m + 1, r, by rw [Nat.add_assoc, Nat.add_comm 1 m], ?_, ?_, hr⟩
      · rw [length_cons]
        omega
      · rw [take_succ_cons, sum_cons]
        omega
    rw [if_neg hge]
    refine ⟨0, d0, rfl, ?_, ?_, ?_⟩
    · rw [length_cons]
      omega
    · rw [take_zero, sum_nil]
      omega
    · rw [getD_cons_zero]
      omega

/-- **What `gmtime` gives**: a calendar day and a time of day, that make up the seconds. -/
theorem gmtime_calendar (s : Statics) (t : UInt32) : ∃ n m, Calendar (gmtime s t) n m ∧ (gmtime s t).zone = gmt ∧
    (t.toNat : Int) = ((daysTo n + (gmtime s t).yday) * 24 + (gmtime s t).hour) * 3600 + (gmtime s t).min * 60 +
      (gmtime s t).sec := by
  obtain ⟨n, d, hyear, hdays, hd⟩ := yearLoop_eq (t.toNat / 86400) 0 (t.toNat / 86400) le_rfl
  rw [daysTo, Nat.zero_add] at hdays
  obtain ⟨m, r, hmonth, hm, _, _⟩ := monthLoop_eq (dmsize (february (1970 + n))) 0 d (by rw [sum_dmsize]; exact hd)
  rw [Nat.zero_add] at hmonth
  rw [february] at hmonth
  have hgm : gmtime s t = ⟨(t.toNat % 86400 % 60 : Nat), (t.toNat % 86400 / 60 % 60 : Nat), (t.toNat % 86400 / 60 / 60 : Nat),
      r + 1, m, ((1970 + n : Nat) : Int) - 1900, ((t.toNat / 86400 + 7340036) % 7 : Nat), d, gmt, s.tzoff⟩ := by
    rw [gmtime]
    dsimp only
    rw [hyear]
    rw [hmonth]
  rw [hgm]
  refine ⟨n, m, ⟨?_, ⟨rfl, hm⟩, ?_, ?_, ?_, ?_, ?_, ?_⟩, rfl, ?_⟩
  · dsimp only
    omega
  · dsimp only
    omega
  · dsimp only
    omega
  · dsimp only
    omega
  · dsimp only
    omega
  · dsimp only
    omega
  · dsimp only
    omega
  · dsimp only
    omega

/-! ## tm2sec of a calendar day -/

theorem ofInt_natCast (n : Nat) : UInt32.ofInt (n : Int) = UInt32.ofNat n := by
  apply UInt32.toNat_inj.1
  rw [UInt32.ofInt, UInt32.toNat_ofNat', UInt32.toNat_ofNat']
  omega

theorem yrsize_eq (n : Nat) : yrsize ((1970 + n : Nat) : Int) =
    ((dysize (1970 + n) :: dmsize (february (1970 + n))).map fun k : Nat => (k : Int)) := by
  have hleap : (((1970 + n : Nat) : Int) % 4 = 0 ∧ (((1970 + n : Nat) : Int) % 100 ≠ 0 ∨ ((1970 + n : Nat) : Int) % 400 = 0)) ↔
      ((1970 + n) % 4 = 0 ∧ ((1970 + n) % 100 ≠ 0 ∨ (1970 + n) % 400 = 0)) := by omega
  rw [yrsize, february, dysize]
  by_cases h : (1970 + n) % 4 = 0 ∧ ((1970 + n) % 100 ≠ 0 ∨ (1970 + n) % 400 = 0)
  · rw [if_pos (hleap.2 h), if_pos h]
    rfl
  · rw [if_neg (fun h' => h (hleap.1 h')), if_neg h]
    rfl

theorem yearsLoop_eq : ∀ (k n : Nat), yearsLoop k ((1970 + n : Nat) : Int) (UInt32.ofNat (daysTo n * 86400)) =
    UInt32.ofNat (daysTo (n + k) * 86400)
  | 0, _ => rfl
  | k + 1, n => by
    have hyear : UInt32.ofNat (daysTo n * 86400) + UInt32.ofInt ((yrsize ((1970 + n : Nat) : Int)).getD 0 0) * sec2day =
        UInt32.ofNat (daysTo (n + 1) * 86400) := by
      rw [yrsize_eq, map_cons, getD_cons_zero, ofInt_natCast, daysTo, Nat.add_mul, UInt32.ofNat_add,
        UInt32.ofNat_mul (dysize (1970 + n))]
      rfl
    have ih := yearsLoop_eq k (n + 1)
    rw [yearsLoop, hyear, show ((1970 + n : Nat) : Int) + 1 = ((1970 + (n + 1) : Nat) : Int) by omega, ih,
      show n + 1 + k = n + (k + 1) by omega]

theorem monthsLoop_eq (size : Nat) (sizes : List Nat) : ∀ (k i : Nat), i + k ≤ sizes.length →
    monthsLoop ((size :: sizes).map fun k : Nat => (k : Int)) k i ((sizes.take i).sum : Nat) = ((sizes.take (i + k)).sum : Nat)
  | 0, _, _ => rfl
  | k + 1, i, h => by
    have hget : ((size :: sizes).map fun k : Nat => (k : Int)).getD (i + 1) 0 = ((sizes.getD i 0 : Nat) : Int) := by
      rw [map_cons, getD_cons_succ, getD_eq_getElem?_getD, getElem?_map, getD_eq_getElem?_getD,
        getElem?_eq_getElem (by omega)]
      rfl
    have hnext : (sizes.take (i + 1)).sum = (sizes.take i).sum + sizes.getD i 0 := by
      rw [take_add_one, sum_append, getD_eq_getElem?_getD, getElem?_eq_getElem (by omega)]
      rfl
    have ih := monthsLoop_eq size sizes k (i + 1) (by omega)
    rw [monthsLoop, hget, ← Int.natCast_add, ← hnext, ih, show i + 1 + k = i + (k + 1) by omega]

variable {env : Timezone} {s : Statics} {tm : Tm}

/-- **The seconds of a calendar day.** -/
theorem tmSecs_calendar {n m : Nat} (h : Calendar tm n m) {t : UInt32}
    (ht : (t.toNat : Int) = ((daysTo n + tm.yday) * 24 + tm.hour) * 3600 + tm.min * 60 + tm.sec) : tmSecs tm = t := by
  obtain ⟨hyear, ⟨hmon, _⟩, ⟨_, _⟩, ⟨_, _⟩, ⟨_, _⟩, ⟨_, _⟩, ⟨_, _⟩, -⟩ := h
  obtain ⟨yd, _⟩ : ∃ yd : Nat, tm.yday = yd := ⟨tm.yday.toNat, by omega⟩
  obtain ⟨hour, hhour⟩ : ∃ k : Nat, tm.hour = k := ⟨tm.hour.toNat, by omega⟩
  obtain ⟨min, hmins⟩ : ∃ k : Nat, tm.min = k := ⟨tm.min.toNat, by omega⟩
  obtain ⟨sec, hsec⟩ : ∃ k : Nat, tm.sec = k := ⟨tm.sec.toNat, by omega⟩
  have hyears : yearsLoop (tm.year + 1900 - 1970).toNat 1970 0 = UInt32.ofNat (daysTo n * 86400) := by
    have hrun := yearsLoop_eq n 0
    rw [show (tm.year + 1900 - 1970).toNat = n by omega]
    rw [Nat.zero_add] at hrun
    exact hrun
  have hmonths : monthsLoop (yrsize (tm.year + 1900)) tm.mon.toNat 0 0 + (tm.mday - 1) = (yd : Int) := by
    have hrun := monthsLoop_eq (dysize (1970 + n)) (dmsize (february (1970 + n))) m 0
      (by rw [show (dmsize (february (1970 + n))).length = 12 from rfl]; omega)
    rw [take_zero, sum_nil, Nat.zero_add] at hrun
    rw [hyear, show (1970 : Int) + n = ((1970 + n : Nat) : Int) by omega, yrsize_eq, hmon, Int.toNat_natCast]
    change monthsLoop _ m 0 ((0 : Nat) : Int) + (tm.mday - 1) = yd
    omega
  have ht' : t.toNat = daysTo n * 86400 + yd * 86400 + hour * 3600 + min * 60 + sec := by omega
  rw [tmSecs, hyears, if_pos (show tm.mday ≠ 0 by omega), hmonths, hhour, hmins, hsec, ofInt_natCast, ofInt_natCast, ofInt_natCast,
    ofInt_natCast, ← UInt32.ofNat_toNat (x := t), ht', UInt32.ofNat_add, UInt32.ofNat_add, UInt32.ofNat_add, UInt32.ofNat_add,
    UInt32.ofNat_mul yd, UInt32.ofNat_mul hour, UInt32.ofNat_mul min]
  rfl

theorem tmSecs_gmtime (s : Statics) (t : UInt32) : tmSecs (gmtime s t) = t := by
  obtain ⟨n, m, hcal, -, ht⟩ := gmtime_calendar s t
  exact tmSecs_calendar hcal ht

/-! ## Zones -/

/-- A zone that the table calls GMT is GMT. -/
def GmtIsGmt (env : Timezone) : Prop := (env.stname = gmt → env.stdiff = 0) ∧ (env.dlname = gmt → env.dldiff = 0)

/-- Both tables have not been read, or have. -/
def Statics.Read (env : Timezone) (s : Statics) : Prop :=
  (s.ctime = .zero ∨ s.ctime = env) ∧ (s.tm2sec = .zero ∨ s.tm2sec = env)

theorem TimeReached.read (h : TimeReached env s) : s.Read env := by
  refine Trans.Reachable.invariant (Statics.Read env) ?_ ?_ h
  · rintro s rfl
    exact ⟨.inl rfl, .inl rfl⟩
  intro s a s' hs hstep
  cases hstep with
  | localtime t =>
    rw [localtime]
    split
    · exact ⟨.inr rfl, hs.2⟩
    · exact hs
  | tm2sec tm =>
    rw [tm2sec]
    split
    · exact ⟨hs.1, .inr rfl⟩
    · exact hs

theorem zero_toUInt32 : (0 : Int32).toUInt32 = 0 := rfl

/-- **A zone of the table is taken back.** -/
theorem tm2sec_zone (hs : s.tm2sec = .zero ∨ s.tm2sec = env) (hnames : env.stname ≠ env.dlname)
    (hgmt : GmtIsGmt env) {t : UInt32} {name : Zone} {diff : Int32}
    (hzone : name = env.stname ∧ diff = env.stdiff ∨ name = env.dlname ∧ diff = env.dldiff) (htm : tm.zone = name)
    (hsecs : tmSecs tm = t + diff.toUInt32) : (tm2sec env s tm).1 = t := by
  have hback : t + diff.toUInt32 - diff.toUInt32 = t := UInt32.add_sub_cancel t diff.toUInt32
  by_cases hread : s.tm2sec = env ∨ tm.zone ≠ gmt
  · have htable : (if tm.zone ≠ gmt ∧ s.tm2sec.stname = [] then { s with tm2sec := env } else s).tm2sec = env := by
      split
      · rfl
      rename_i hno
      rcases hread with h | h
      · exact h
      · rcases hs with h0 | h0
        · exact absurd ⟨h, by rw [h0]; rfl⟩ hno
        · exact h0
    rw [tm2sec]
    rw [htable, hsecs, htm]
    rcases hzone with ⟨rfl, rfl⟩ | ⟨rfl, rfl⟩
    · rw [if_pos rfl, hback]
    · rw [if_neg (Ne.symm hnames), if_pos rfl, hback]
  rw [not_or, not_not] at hread
  obtain ⟨hunread, hzgmt⟩ := hread
  have hzero : s.tm2sec = .zero := hs.resolve_right hunread
  have hdiff : diff = 0 := by
    rcases hzone with ⟨rfl, rfl⟩ | ⟨rfl, rfl⟩
    · exact hgmt.1 (htm.symm.trans hzgmt)
    · exact hgmt.2 (htm.symm.trans hzgmt)
  have htable : (if tm.zone ≠ gmt ∧ s.tm2sec.stname = [] then { s with tm2sec := env } else s) = s :=
    if_neg (fun h => h.1 hzgmt)
  rw [tm2sec]
  rw [htable, hzgmt, hzero, if_neg (by decide), if_neg (by decide), hsecs, hdiff, zero_toUInt32, UInt32.add_zero]

theorem tm2sec_gmt (hs : s.tm2sec = .zero ∨ s.tm2sec = env) (hgmt : GmtIsGmt env)
    (htm : tm.zone = gmt) : (tm2sec env s tm).1 = tmSecs tm := by
  have htable : (if tm.zone ≠ gmt ∧ s.tm2sec.stname = [] then { s with tm2sec := env } else s) = s :=
    if_neg (fun h => h.1 htm)
  rw [tm2sec]
  rw [htable, htm]
  rcases hs with h | h
  · rw [h, if_neg (by decide), if_neg (by decide)]
  rw [h]
  split
  · rename_i hname
    rw [hgmt.1 hname.symm, zero_toUInt32, UInt32.sub_zero]
  split
  · rename_i hname
    rw [hgmt.2 hname.symm, zero_toUInt32, UInt32.sub_zero]
  · rfl

theorem localtime_zone (hs : s.ctime = .zero ∨ s.ctime = env) (t : UInt32) :
    ∃ diff, tmSecs (localtime env s t).1 = t + diff.toUInt32 ∧
      ((localtime env s t).1.zone = env.stname ∧ diff = env.stdiff ∨ (localtime env s t).1.zone = env.dlname ∧ diff = env.dldiff) := by
  have htable : (if s.ctime.stname = [] then { s with ctime := env } else s).ctime = env := by
    split
    · rfl
    rename_i hno
    rcases hs with h | h
    · exact absurd (by rw [h]; rfl) hno
    · exact h
  have hsecs : ∀ (s : Statics) (t : UInt32) (zone : Zone) (tzoff : Int32),
      tmSecs { gmtime s t with zone := zone, tzoff := tzoff } = t := fun s t _ _ => tmSecs_gmtime s t
  rw [localtime]
  rw [hsecs, htable]
  cases daylight (t + env.stdiff.toUInt32) env.dlpairs with
  | true => exact ⟨_, rfl, .inr ⟨rfl, rfl⟩⟩
  | false => exact ⟨_, rfl, .inl ⟨rfl, rfl⟩⟩

/-- **The round trip.** Whatever was called before, `tm2sec` takes back what `gmtime` and `localtime` give, for all
times, exactly if a zone that is called GMT is GMT. -/
theorem time_round_trip {env : Timezone} (hnames : env.stname ≠ env.dlname) :
    (∀ s t, ∃ n m, Calendar (gmtime s t) n m) ∧
    ((∀ s s', TimeReached env s → TimeReached env s' → ∀ t,
        (tm2sec env s' (gmtime s t)).1 = t ∧ (tm2sec env s' (localtime env s t).1).1 = t) ↔ GmtIsGmt env) := by
  refine ⟨fun s t => ?_, fun h => ?_, fun hgmt s s' hs hs' t => ⟨?_, ?_⟩⟩
  · obtain ⟨n, m, hcal, -⟩ := gmtime_calendar s t
    exact ⟨n, m, hcal⟩
  · -- a call with another zone reads the table, and then GMT is looked up in it
    have hread : TimeReached env (tm2sec env .zero ⟨0, 0, 0, 1, 0, 70, 4, 0, [], 0⟩).2 := .next (.start rfl) (.tm2sec _ _)
    have hzero := (h .zero _ (.start rfl) hread 0).1
    have hunzone : (tm2sec env .zero ⟨0, 0, 0, 1, 0, 70, 4, 0, [], 0⟩).2.tm2sec = env := rfl
    have hzone : (gmtime .zero 0).zone = gmt := by
      obtain ⟨n, m, -, hz, -⟩ := gmtime_calendar .zero 0
      exact hz
    have htable : ∀ s : Statics, (if (gmtime .zero 0).zone ≠ gmt ∧ s.tm2sec.stname = [] then { s with tm2sec := env } else s) = s :=
      fun s => if_neg (fun h => h.1 hzone)
    rw [tm2sec] at hzero
    rw [htable, hunzone, hzone, tmSecs_gmtime] at hzero
    have hcancel : ∀ d : Int32, (0 : UInt32) - d.toUInt32 = 0 → d = 0 := by
      intro d hd
      have hd0 : d.toUInt32 = 0 := by
        rw [UInt32.zero_sub] at hd
        rw [← UInt32.neg_neg (a := d.toUInt32), hd, UInt32.neg_zero]
      have := congrArg UInt32.toInt32 hd0
      exact this
    refine ⟨fun hst => ?_, fun hdl => ?_⟩
    · rw [if_pos hst.symm] at hzero
      exact hcancel _ hzero
    · rw [if_neg (fun h => hnames (h.symm.trans hdl.symm)), if_pos hdl.symm] at hzero
      exact hcancel _ hzero
  · obtain ⟨n, m, -, hzone, -⟩ := gmtime_calendar s t
    rw [tm2sec_gmt hs'.read.2 hgmt hzone, tmSecs_gmtime]
  · obtain ⟨_, hsecs, hzone⟩ := localtime_zone hs.read.1 t
    exact tm2sec_zone hs'.read.2 hnames hgmt hzone rfl hsecs

/-- In London an hour is added in summer, here from 1000 to 100000. -/
theorem time_round_trip_london :
    let env : Timezone := ⟨gmt, [66, 83, 84], 0, 3600, [1000, 100000, 0]⟩
    (tm2sec env .zero (localtime env .zero 5000).1).1 = 5000 :=
  have hall := (@time_round_trip ⟨gmt, [66, 83, 84], 0, 3600, [1000, 100000, 0]⟩ (by decide)).2.2
    ⟨fun _ => rfl, fun h => absurd h (by decide)⟩
  (hall .zero .zero (.start rfl) (.start rfl) 5000).2

/-- Where the table gives GMT another offset, the answer is another after the table has been read than before. -/
theorem time_round_trip_gmt :
    let env : Timezone := ⟨gmt, [66, 83, 84], 3600, 7200, [0]⟩
    env.stname ≠ env.dlname ∧
    (tm2sec env (localtime env .zero 0).2 (localtime env .zero 0).1).1 = 3600 ∧
    ¬ ∀ s, TimeReached env s → ∀ t, (tm2sec env (localtime env s t).2 (localtime env s t).1).1 = t := by
  intro env
  have hhour : (tm2sec env (localtime env .zero 0).2 (localtime env .zero 0).1).1 = 3600 := by decide +kernel
  refine ⟨by decide, hhour, fun h => ?_⟩
  have h0 := h .zero (.start rfl) 0
  exact absurd h0 (by decide)

end Plan9.Libc
