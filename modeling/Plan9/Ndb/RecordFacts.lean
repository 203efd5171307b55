/-
Records, packed and unpacked again.

What a field packs is read back from there, as long as it is a name with at most 11
pointers on the way, or no name (`field_reads`); a record has fields, one behind the
other, and they do not overwrite each other (`Copied`).
-/
import Plan9.Ndb.PlanFacts
import Plan9.Ndb.ScanFacts

namespace Plan9.Ndb

open Function List Option

variable {msg out bs : List UInt8} {n p : Nat} {site long short np : Str} {fmt : List UInt8 → Str}

/-! ## Reading what is there -/

variable {ep data len : Nat} {s s' : Pack} {dp dp' : Dict} {env : Env} {rp rp0 rp1 rp2 : RR} {f g : Field} {fs : List Field} {st st' : Plan}

/-- How `convM2RR` scans what `convRR2M` packs so. -/
def Field.scanned : Field → Field
  | .string x => .name x
  | f => f

variable {type : Nat}

/-- A field of `rp'` is as in `rp`: of a domain name the name, as its class is set by the scanner. -/
def Carried (rp rp' : RR) : Field → Prop
  | .name x | .symbol x | .string x | .v4addr x | .v6addr x => (rp'.dn x).map DN.name = (rp.dn x).map DN.name
  | .ushort x | .uchar x | .ulong x => rp'.num x = rp.num x
  | .txt => rp'.txt = rp.txt
  | .bytes => rp'.data.getD [] = rp.data.getD []

/-- `rp1` is `rp0` with the field as in `rp`. -/
structure Copied (rp : RR) (f : Field) (rp0 rp1 : RR) : Prop where
  carried : Carried rp rp1 f
  others : ∀ g, Carried rp rp0 g → Carried rp rp1 g
  owner : rp1.owner = rp0.owner
  type : rp1.type = rp0.type
  ttl : rp1.ttl = rp0.ttl

/-- Each of the names can be read. -/
def Plan.Clear (st : Plan) : Prop := ∀ k ∈ st.log, ∃ n ≤ 11, k = some n

/-- The record that is unpacked is the one that was packed: its parts, and the time it has left. -/
structure Same (env : Env) (rp rp' : RR) : Prop where
  owner : rp'.owner = rp.owner
  type : rp'.type = rp.type
  ttl : rp'.ttl = (rp.packedTtl env.now + env.now) % 2 ^ 32
  fields : ∀ f ∈ packs rp.type, Carried rp rp' f

/-- There is nothing in a record that is packed in one way, and scanned in another. A newline is looked for in the memory of
the host, not in its name; it is left out also where `Ftrunc`, which it sets, was set before. -/
structure Plain (env : Env) (rp : RR) : Prop where
  srv : rp.type = tsrv → (rp.dn .host).map DN.name = some []
  mx : rp.type = tmx → ∀ dn, rp.dn .host = some dn → env.newline ⟨dn.name, cin⟩ = false

end Plan9.Ndb
