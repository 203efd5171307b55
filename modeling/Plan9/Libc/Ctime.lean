/-
Times of `libc/9sys/ctime.c` and `tm2sec.c`: `gmtime` and `localtime`, and `tm2sec`,
which takes their result back to the seconds since 1970.

A `long` of seconds is taken for a `ulong` by all three, so it is one here, and what is
computed in `ulong`s wraps. Both files keep a table of the time zone, which they read
when it is needed first: `env` is what `readtimezone` makes of /env/timezone, in a table
that was zero. `int`s are of any size.
-/
import Plan9.Lib.Run

namespace Plan9.Libc

/-- A string, without the zero that ends it. -/
abbrev Zone := List UInt8

/-- `"GMT"` -/
def gmt : Zone := [71, 77, 84]

structure Tm where
  sec : Int
  min : Int
  hour : Int
  mday : Int
  mon : Int
  year : Int
  wday : Int
  yday : Int
  zone : Zone
  tzoff : Int32
deriving DecidableEq

structure Timezone where
  stname : Zone
  dlname : Zone
  stdiff : Int32
  dldiff : Int32
  dlpairs : List UInt32
deriving DecidableEq

/-- The table before it is read. -/
def Timezone.zero : Timezone := ⟨[], [], 0, 0, []⟩

/-- What is static: the tables of `ctime.c` and `tm2sec.c`, and `xtime.tzoff`, which `gmtime` does not set. -/
structure Statics where
  ctime : Timezone
  tm2sec : Timezone
  tzoff : Int32
deriving DecidableEq

def Statics.zero : Statics := ⟨.zero, .zero, 0⟩

/-! ## gmtime and localtime -/

def dysize (y : Nat) : Nat := if y % 4 = 0 ∧ (y % 100 ≠ 0 ∨ y % 400 = 0) then 366 else 365

/-- `dmsize`, with February as `gmtime` patches it. -/
def dmsize (feb : Nat) : List Nat := [31, feb, 31, 30, 31, 30, 31, 31, 30, 31, 30, 31]

/-- `for(d1 = 1970; day >= dysize(d1); d1++)`, for fewer rounds than there are days: the year and the day in it. -/
def yearLoop : Nat → Nat → Nat → Nat × Nat
  | 0, d1, day => (d1, day)
  | fuel + 1, d1, day => if day ≥ dysize d1 then yearLoop fuel (d1 + 1) (day - dysize d1) else (d1, day)

/-- `for(d1 = 0; d0 >= dmsize[d1]; d1++)`, with the part of the table from `d1` on. -/
def monthLoop : List Nat → Nat → Nat → Nat × Nat
  | [], d1, d0 => (d1, d0)
  | size :: sizes, d1, d0 => if d0 ≥ size then monthLoop sizes (d1 + 1) (d0 - size) else (d1, d0)

/-- `tim` is a `ulong`, so that neither `hms` nor `day` is negative and the branches for that are not taken. -/
def gmtime (s : Statics) (atim : UInt32) : Tm :=
  let tim := atim.toNat
  let hms := tim % 86400
  let day := tim / 86400
  let sec := hms % 60
  let d1 := hms / 60
  let min := d1 % 60
  let hour := d1 / 60
  let wday := (day + 7340036) % 7
  let (d1, day) := yearLoop day 1970 day
  let year := (d1 : Int) - 1900
  let yday := day
  let (mon, d0) := monthLoop (dmsize (if dysize d1 = 366 then 29 else 28)) 0 day
  ⟨sec, min, hour, d0 + 1, mon, year, wday, yday, gmt, s.tzoff⟩

/-- Whether `t` is between two of the `dlpairs`, which a zero ends. -/
def daylight (t : UInt32) : List UInt32 → Bool
  | p0 :: p1 :: ps => if p0 = 0 then false else if t ≥ p0 ∧ t < p1 then true else daylight t ps
  | _ => false

def localtime (env : Timezone) (s : Statics) (atim : UInt32) : Tm × Statics :=
  let s := if s.ctime.stname = [] then { s with ctime := env } else s
  let tz := s.ctime
  let dlflag := daylight (atim + tz.stdiff.toUInt32) tz.dlpairs
  let t := atim + (if dlflag then tz.dldiff else tz.stdiff).toUInt32
  let tzoff := if dlflag then tz.dldiff else tz.stdiff
  ({ gmtime s t with zone := if dlflag then tz.dlname else tz.stname, tzoff := tzoff }, { s with tzoff := tzoff })

/-! ## tm2sec -/

/-- `dmsize` and `ldmsize` of `tm2sec.c`: the days of the year, and of its months. -/
def yrsize (y : Int) : List Int :=
  if y % 4 = 0 ∧ (y % 100 ≠ 0 ∨ y % 400 = 0) then [366, 31, 29, 31, 30, 31, 30, 31, 31, 30, 31, 30, 31]
  else [365, 31, 28, 31, 30, 31, 30, 31, 31, 30, 31, 30, 31]

/-- `SEC2DAY` and `SEC2HOUR` and `SEC2MIN` -/
def sec2min : UInt32 := 60
def sec2hour : UInt32 := 60 * sec2min
def sec2day : UInt32 := 24 * sec2hour

/-- `for(i = 1970; i < year; i++)`, `n` rounds of it. -/
def yearsLoop : Nat → Int → UInt32 → UInt32
  | 0, _, secs => secs
  | n + 1, i, secs => yearsLoop n (i + 1) (secs + UInt32.ofInt ((yrsize i).getD 0 0) * sec2day)

/-- `for(i=0; i<tm->mon; i++)`, `n` rounds of it. -/
def monthsLoop (d2m : List Int) : Nat → Nat → Int → Int
  | 0, _, yday => yday
  | n + 1, i, yday => monthsLoop d2m n (i + 1) (yday + d2m.getD (i + 1) 0)

/-- The seconds, before the zone is looked at. -/
def tmSecs (tm : Tm) : UInt32 :=
  let year := tm.year + 1900
  let secs := yearsLoop (year - 1970).toNat 1970 0
  let yday := if tm.mday ≠ 0 then monthsLoop (yrsize year) tm.mon.toNat 0 0 + (tm.mday - 1) else tm.yday
  let secs := secs + UInt32.ofInt yday * sec2day
  let secs := secs + UInt32.ofInt tm.hour * sec2hour
  let secs := secs + UInt32.ofInt tm.min * sec2min
  secs + UInt32.ofInt tm.sec

def tm2sec (env : Timezone) (s : Statics) (tm : Tm) : UInt32 × Statics :=
  let s := if tm.zone ≠ gmt ∧ s.tm2sec.stname = [] then { s with tm2sec := env } else s
  let secs := tmSecs tm
  let secs :=
    if tm.zone = s.tm2sec.stname then secs - s.tm2sec.stdiff.toUInt32
    else if tm.zone = s.tm2sec.dlname then secs - s.tm2sec.dldiff.toUInt32
    else secs
  (secs, s)

/-! ## Runs -/

inductive TimeCall
  | localtime (t : UInt32)
  | tm2sec (tm : Tm)

/-- The calls that change what is static. -/
inductive TimeStep (env : Timezone) : Statics → TimeCall → Statics → Prop
  | localtime (s : Statics) (t : UInt32) : TimeStep env s (.localtime t) (localtime env s t).2
  | tm2sec (s : Statics) (tm : Tm) : TimeStep env s (.tm2sec tm) (tm2sec env s tm).2

/-- What is static after some calls. -/
def TimeReached (env : Timezone) : Statics → Prop := Trans.Reachable (· = Statics.zero) (TimeStep env)

end Plan9.Libc
