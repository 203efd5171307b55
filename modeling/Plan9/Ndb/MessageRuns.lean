/-
Messages, packed and unpacked again.

A section is read as it is packed, record after record; what is dropped is not read. The
header comes first, though it is packed last. So a message from which nothing is dropped
is read as it was, and so is the rest of one from which something is, as long as no name
leads to what was dropped. That a record is dropped is not told, though: `p` is never
behind `ep` when `convDNS2M` looks whether it is.
-/
import Plan9.Ndb.RecordFacts

namespace Plan9.Ndb

open List Option

variable {msg out out' : List UInt8} {ep count len : Nat} {dp dp' : Dict} {env : Env} {rp : RR} {rps : List RR} {quest : Bool} {st : Plan}
  {s s' : Pack} {np : Str} {f : Field} {fs : List Field}

/-! ## Sections -/

variable {m m' : DNSmsg}

/-- "Now pack the rest" -/
def msgHead (m m' : DNSmsg) : List UInt8 := [m.id, m.flags, m'.qdcount, m'.ancount, m'.nscount, m'.arcount].flatMap (beBytes 2)

/-- The sections follow each other behind the header, that could as well be there from the start. -/
structure Chain (env : Env) (len : Nat) (m m' : DNSmsg) (out out1 out2 out3 : List UInt8) (dp1 dp2 dp3 dp4 : Dict) : Prop where
  qd : packLoop env len true m.qd (msgHead m m') ⟨[], 0⟩ = some (out1, dp1, m'.qdcount)
  an : packLoop env len false m.an out1 dp1 = some (out2, dp2, m'.ancount)
  ns : packLoop env len false m.ns out2 dp2 = some (out3, dp3, m'.nscount)
  ar : packLoop env len false m.ar out3 dp3 = some (out, dp4, m'.arcount)

/-- Unpacked, the message has the records that are packed, and no error. -/
structure Decodes (env : Env) (m m' : DNSmsg) (out : List UInt8) (m'' : DNSmsg) : Prop where
  ok : convM2DNS out env = some (none, m'', rok)
  qdcount : m''.qdcount = m'.qdcount
  ancount : m''.ancount = m'.ancount
  nscount : m''.nscount = m'.nscount
  arcount : m''.arcount = m'.arcount
  qd : List.Forall₂ (fun rp rp' => rp'.owner = rp.owner ∧ rp'.type = rp.type) (m.qd.take m'.qdcount) m''.qd
  an : List.Forall₂ (Same env) (m.an.take m'.ancount) m''.an
  ns : List.Forall₂ (Same env) (m.ns.take m'.nscount) m''.ns
  ar : List.Forall₂ (Same env) (m.ar.take m'.arcount) m''.ar

/-- The message is unpacked as it was. -/
structure RoundTrip (env : Env) (m : DNSmsg) (out : List UInt8) (m'' : DNSmsg) : Prop where
  ok : convM2DNS out env = some (none, m'', rok)
  flags : m''.flags = m.flags
  qd : List.Forall₂ (fun rp rp' => rp'.owner = rp.owner ∧ rp'.type = rp.type) m.qd m''.qd
  an : List.Forall₂ (Same env) m.an m''.an
  ns : List.Forall₂ (Same env) m.ns m''.ns
  ar : List.Forall₂ (Same env) m.ar m''.ar

end Plan9.Ndb
