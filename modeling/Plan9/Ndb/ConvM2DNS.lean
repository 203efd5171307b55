/-
Unpacking of messages (`ndb/convM2DNS.c`).

Positions are offsets from `base`, and `ep` is the length of the message. `none` is a
fault: a read outside of the message, a write outside of a buffer, a nil pointer
dereferenced, or a loop that does not end. An error is kept without the `%R` of the
record; what is logged is left out.
-/
import Plan9.Ndb.Dns

namespace Plan9.Ndb

/-- `err`, as it is formatted. -/
inductive Err
  /-- `errneg` -/
  | negative (actual : Int)
  /-- `errtoolong` -/
  | tooLong (site : String) (remain need : Int)
  | text (s : String)
  deriving DecidableEq, Repr

structure Scan where
  p : Nat
  err : Option Err
  rcode : Nat
  stop : Bool
  trunc : Bool
  deriving DecidableEq, Repr

variable (msg : List UInt8)

/-- A full message that is too short is a truncated one. -/
def errtoolong (sp : Scan) (remain need : Int) (site : String) : Scan :=
  { sp with err := some (.tooLong site remain need), trunc := sp.trunc || decide (msg.length ≥ maxpayload) }

/-- So many bytes at `p`. -/
def bytesAt (p n : Nat) : Option (List UInt8) := if p + n ≤ msg.length then some ((msg.drop p).take n) else none

/-- `sp->ep - p` -/
def remain (p : Nat) : Int := msg.length - p

/-- A number of so many bytes. -/
def gnum (n : Nat) (site : String) (sp : Scan) : Option (Nat × Scan) :=
  if sp.err.isSome then some (0, sp)
  else if remain msg sp.p < n then some (0, errtoolong msg sp (remain msg sp.p) n site)
  else (bytesAt msg sp.p n).map fun bs => (beNat bs, { sp with p := sp.p + n })

def gchar (sp : Scan) : Option (Nat × Scan) := gnum msg 1 "gchar" sp

def gshort (sp : Scan) : Option (Nat × Scan) := gnum msg 2 "gshort" sp

def glong (sp : Scan) : Option (Nat × Scan) := gnum msg 4 "glong" sp

/-- An address of so many bytes, as text. -/
def gaddr (n : Nat) (fmt : List UInt8 → Str) (site : String) (sp : Scan) : Option (Option DN × Scan) :=
  if sp.err.isSome then some (none, sp)
  else if remain msg sp.p < n then some (none, errtoolong msg sp (remain msg sp.p) n site)
  else (bytesAt msg sp.p n).map fun bs => (some ⟨fmt bs, cin⟩, { sp with p := sp.p + n })

def gv4addr (env : Env) (sp : Scan) : Option (Option DN × Scan) := gaddr msg 4 env.fmtV "gv4addr" sp

def gv6addr (env : Env) (sp : Scan) : Option (Option DN × Scan) := gaddr msg 16 env.fmtI "gv6addr" sp

/-- A counted string, into a buffer of `Strlen+1`. -/
def gcounted (site long short : String) (sp : Scan) : Option (Option Str × Scan) :=
  if sp.err.isSome then some (none, sp)
  else
    (if sp.p < msg.length then (bytesAt msg sp.p 1).map fun bs => (beNat bs, { sp with p := sp.p + 1 }) else some (0, sp)).bind
      fun (n, sp) =>
        if remain msg sp.p < n then some (none, errtoolong msg sp (remain msg sp.p) n site)
        else if n > strlen then some (none, { sp with err := some (.text long) })
        else (bytesAt msg sp.p n).bind fun bs =>
          if n + 1 > strlen + 1 then none
          else
            -- `strncpy`, up to a NUL
            let sym := Bytes.cstr bs
            let sp := if sym.length ≠ n then { sp with err := some (.text short) } else sp
            some (some sym, { sp with p := sp.p + n })

def gsym (sp : Scan) : Option (Option DN × Scan) :=
  (gcounted msg "gsym" "illegal string (symbol)" "symbol shorter than declared length" sp).map
    fun (sym, sp) => (sym.map fun s => ⟨s, csym⟩, sp)

def gstr (sp : Scan) : Option (Option Str × Scan) := gcounted msg "gstr" "illegal string" "string shorter than declared length" sp

def gbytes (n : Int) (sp : Scan) : Option (Option (List UInt8) × Scan) :=
  if sp.err.isSome then some (none, sp)
  else if n < 0 then some (none, { sp with err := some (.negative n) })
  else if remain msg sp.p < n then some (none, errtoolong msg sp (remain msg sp.p) n "gbytes")
  else (bytesAt msg sp.p n.toNat).map fun bs => (some bs, { sp with p := sp.p + n.toNat })

/-- What is written at `to`, in a buffer of `Domlen+1`. -/
def putName (dst bs : Str) : Option Str := if dst.length + bs.length ≤ domlen + 1 then some (dst ++ bs) else none

/-- `p < sp->ep && *p`: whether there is more of the name. -/
def moreName (p : Nat) : Option Bool := if p < msg.length then (bytesAt msg p 1).map fun bs => decide (beNat bs ≠ 0) else some false

/-- The loop of `gname`, a number of turns: the name, empty where it goes to `err`. -/
def gnameLoop (sp : Scan) : Nat → Nat → Nat → Nat → Str → Option (Str × Scan)
  | 0, _, _, _, _ => none
  | turns + 1, p, len, pointer, dst =>
    (moreName msg p).bind fun more =>
      if more then
        (bytesAt msg p 1).bind fun bs =>
          let b := beNat bs
          match b / 64 with
          | 0 =>
            -- a normal label
            let n := b % 64
            let p := p + 1
            if remain msg p < n then some ([], errtoolong msg sp (remain msg p) n "label runs past the packet")
            else if len + n < domlen - 1 ∧ (n : Int) > domlen - dst.length then
              some ([], errtoolong msg sp (domlen - dst.length) n "name too long")
            else
              (if len + n < domlen - 1 then (bytesAt msg p n).bind (putName dst) else some dst).bind fun dst =>
                let p := p + n
                let len := if pointer = 0 then len + n + 1 else len
                (moreName msg p).bind fun more =>
                  if more then
                    if dst.length ≥ domlen then
                      some ([], errtoolong msg sp (domlen - dst.length) 2 "more name components but no bytes left")
                    else (putName dst [46]).bind fun dst => gnameLoop sp turns p len pointer dst
                  else gnameLoop sp turns p len pointer dst
          | 1 => some ([], { sp with stop := true })
          | 2 => some ([], { sp with err := some (.text "reserved-use label present") })
          | _ =>
            -- a pointer
            if pointer > 10 then some ([], { sp with err := some (.text "pointer loop") })
            else if remain msg p < 2 then some ([], errtoolong msg sp (remain msg p) 2 "pointer runs past the packet")
            else (bytesAt msg p 2).bind fun bs =>
              let p := beNat bs % 2 ^ 14
              if p ≥ msg.length then some ([], { sp with err := some (.text "bad pointer") })
              else gnameLoop sp turns p len (pointer + 1) dst
      else if p ≥ msg.length then some ([], { sp with err := some (.text "name runs past the packet") })
      else (putName dst [0]).map fun _ => (Bytes.cstr dst, { sp with p := sp.p + if pointer = 0 then len + 1 else len + 2 })

def gname (sp : Scan) : Option (Str × Scan) :=
  if sp.err.isSome ∨ sp.stop then some ([], sp)
  else gnameLoop msg sp (12 * (msg.length + 2)) sp.p 0 0 []

/-- "Ms windows 2000 seems to get the bytes backward in the type field" -/
def mstypehack (sp : Scan) (type : Nat) : Nat × Scan :=
  if type % 256 = 0 ∧ type / 256 ≠ 0 then (type / 256, if sp.rcode = rok then { sp with rcode := rformat } else sp)
  else (type, sp)

/-- The switch of `convM2RR`, less the default. -/
def scans (type : Nat) : Option (List Field) :=
  if type = thinfo then some [.symbol .cpu, .symbol .os]
  else if type = tcname ∨ type = tmb ∨ type = tmd ∨ type = tmf ∨ type = tns then some [.name .host]
  else if type = tmg ∨ type = tmr then some [.name .mb]
  else if type = tminfo then some [.name .rmb, .name .mb]
  else if type = tmx then some [.ushort .pref, .name .host]
  else if type = ta then some [.v4addr .ip]
  else if type = taaaa then some [.v6addr .ip]
  else if type = tptr then some [.name .ptr]
  else if type = tsoa then
    some [.name .host, .name .rmb, .ulong .serial, .ulong .refresh, .ulong .retry, .ulong .expire, .ulong .minttl]
  else if type = tsrv then some [.ushort .pri, .ushort .weight, .ushort .port, .name .host]
  else if type = ttxt then some [.txt]
  else if type = tnull then some [.bytes]
  else if type = trp then some [.name .rmb, .name .rp]
  else if type = tkey then some [.ushort .flags, .uchar .proto, .uchar .alg, .bytes]
  else if type = tsig then
    some [.ushort .type, .uchar .alg, .uchar .labels, .ulong .ttl, .ulong .exp, .ulong .incep, .ushort .tag, .name .signer, .bytes]
  else if type = tcert then some [.ushort .type, .ushort .tag, .uchar .alg, .bytes]
  else none

/-- The loop over the strings, a number of turns. `l` is nil where `t` was, in the turn before. -/
def gtxt (stop : Nat) : Nat → List Str → Bool → Scan → Option (List Str × Scan)
  | 0, _, _, _ => none
  | turns + 1, txt, good, sp =>
    if sp.p < stop then
      (gstr msg sp).bind fun (t, sp) =>
        -- `*l = t; l = &t->next`
        if good then
          match t with
          | some t => gtxt stop turns (txt ++ [t]) true sp
          | none => gtxt stop turns txt false sp
        else none
    else some (txt, sp)

/-- The data is at `data`, `len` bytes. -/
def scanField (env : Env) (data len : Nat) (f : Field) (rp : RR) (sp : Scan) : Option (RR × Scan) :=
  let setDn (x : DnPart) (r : Option DN × Scan) := ({ rp with dn := Function.update rp.dn x r.1 }, r.2)
  let setNum (x : NumPart) (r : Nat × Scan) := ({ rp with num := Function.update rp.num x r.1 }, r.2)
  match f with
  | .name x => (gname msg sp).map fun (dname, sp) => setDn x (some ⟨dname, cin⟩, sp)
  | .symbol x => (gsym msg sp).map (setDn x)
  | .string x => (gstr msg sp).map fun (s, sp) => setDn x (s.map (⟨·, csym⟩), sp)
  | .ushort x => (gshort msg sp).map (setNum x)
  | .uchar x => (gchar msg sp).map (setNum x)
  | .ulong x => (glong msg sp).map (setNum x)
  | .v4addr x => (gv4addr msg env sp).map (setDn x)
  | .v6addr x => (gv6addr msg env sp).map (setDn x)
  | .txt => (gtxt msg (data + len) (len + 2) [] true sp).map fun (txt, sp) => ({ rp with txt := txt }, sp)
  | .bytes => (gbytes msg (len - (sp.p - data : Int)) sp).map fun (bs, sp) => ({ rp with data := bs }, sp)

def scanFields (env : Env) (data len : Nat) : List Field → RR → Scan → Option (RR × Scan)
  | [], rp, sp => some (rp, sp)
  | f :: fs, rp, sp => (scanField msg env data len f rp sp).bind fun (rp, sp) => scanFields env data len fs rp sp

/-- With zeroes from `emalloc`. -/
def rralloc (type : Nat) : RR :=
  { owner := ⟨[], 0⟩, type := type, ttl := 0, db := false, dn := fun _ => none, num := fun _ => 0, txt := [], data := none }

/-- `sp->err || sp->rcode || sp->stop` -/
def Scan.failed (sp : Scan) : Bool := sp.err.isSome || decide (sp.rcode ≠ 0) || sp.stop

/-- `convM2RR` up to the data: the record, and the length of the data, as far as there is any. -/
def rrHeader (env : Env) (what : String) (sp : Scan) : Option ((RR × Nat) × Scan) := do
  let (dname, sp) ← gname msg sp
  let (type, sp) ← gshort msg sp
  let (cls, sp) ← gshort msg sp
  let (type, sp) := mstypehack sp type
  let (ttl, sp) ← glong msg sp
  let (len, sp) ← gshort msg sp
  let rp := { rralloc type with owner := ⟨dname, cls⟩, ttl := (ttl + env.now) % 2 ^ 32 }
  let left := remain msg sp.p
  let sp :=
    if (len : Int) > left ∧ ¬ (what = "hints" ∨ sp.p = msg.length + 1 ∧ what = "answers") then errtoolong msg sp left len "convM2RR"
    else sp
  -- "truncate length to fit data"
  some ((rp, if (len : Int) > left then left.toNat else len), sp)

/-- The next record, if no more are skipped than turns. -/
def convM2RR (env : Env) (what : String) : Nat → Scan → Option (Option RR × Scan)
  | 0, _ => none
  | turns + 1, sp =>
    (rrHeader msg env what sp).bind fun ((rp, len), sp) =>
      let data := sp.p
      if sp.failed then some (none, sp)
      else
        match scans rp.type with
        | none => convM2RR env what turns { sp with p := data + len }
        | some fields =>
          (scanFields msg env data len fields rp sp).map fun (rp, sp) =>
            let trunc := decide (rp.type = tmx) && (rp.dn .host).any env.newline
            let sp := { sp with trunc := sp.trunc || trunc }
            if (sp.p : Int) - data ≠ len ∧ ¬ (rp.type = tcname ∧ (sp.p : Int) - data = 2 ∧ len = 0) ∧ len > (sp.p : Int) - data then
              (none, sp)
            else (some rp, sp)

def convM2Q (sp : Scan) : Option (Option RR × Scan) := do
  let (dname, sp) ← gname msg sp
  let (type, sp) ← gshort msg sp
  let (cls, sp) ← gshort msg sp
  if sp.failed then some (none, sp)
  else
    let (type, sp) := mstypehack sp type
    some (some { rralloc type with owner := ⟨dname, cls⟩ }, sp)

/-- The loop of `rrloop`, `count` turns. -/
def scanLoop (env : Env) (what : String) (quest : Bool) : Nat → Scan → Option (List RR × Scan)
  | 0, sp => some ([], sp)
  | count + 1, sp =>
    (if quest then convM2Q msg sp else convM2RR msg env what (msg.length + 2) sp).bind fun (rp, sp) =>
      match rp with
      | none => some ([], sp)
      | some rp =>
        if sp.failed then some ([], sp)
        else (scanLoop env what quest count sp).map fun (rps, sp) => (rp :: rps, sp)

def rrloop (env : Env) (what : String) (count : Nat) (quest : Bool) (sp : Scan) : Option (List RR × Scan) :=
  if sp.failed then some ([], sp) else scanLoop msg env what quest count sp

/-- The header of a message, without its records. -/
def msgHeader : Option (DNSmsg × Scan) := do
  let (id, sp) ← gshort msg ⟨0, none, rok, false, false⟩
  let (flags, sp) ← gshort msg sp
  let (qdcount, sp) ← gshort msg sp
  let (ancount, sp) ← gshort msg sp
  let (nscount, sp) ← gshort msg sp
  let (arcount, sp) ← gshort msg sp
  some (⟨id, flags, qdcount, [], ancount, [], nscount, [], arcount, []⟩, sp)

/-- The error, the message and the response code. -/
def convM2DNS (env : Env) : Option (Option Err × DNSmsg × Nat) :=
  (msgHeader msg).bind fun (m, sp) =>
  (rrloop msg env "questions" m.qdcount true sp).bind fun (qd, sp) =>
  (rrloop msg env "answers" m.ancount false sp).bind fun (an, sp) =>
  (rrloop msg env "nameservers" m.nscount false sp).bind fun (ns, sp) =>
  let sp := if sp.stop then { sp with err := none } else sp
  let err := sp.err
  -- "live with bad ar's"
  (rrloop msg env "hints" m.arcount false sp).map fun (ar, sp) =>
    (err, { m with flags := if sp.trunc then m.flags ||| ftrunc else m.flags, qd := qd, an := an, ns := ns, ar := ar },
      if sp.stop then rok else sp.rcode)

end Plan9.Ndb
