/-
# Fetch errors and cache lifetimes

`worktime/fetch.rs`: `FetchError`, `Lifetime`, and `lifetime`, which reads a
lifetime off the `Cache-Control` and `Age` headers of a response.

A header value is its list of bytes and an `Instant` is a natural number, so
`Instant::checked_add` does not fail.  Every number read is at most
`MAX_DELTA_SECONDS`, so the saturating `u64` arithmetic never saturates and is
that of the natural numbers.
-/

import Mathlib.Algebra.Ring.Nat
import Mathlib.Data.List.DropRight

namespace Lunar
namespace Fetch

/-- `FetchStatus`. -/
inductive FetchStatus
  | badRequest
  | badGateway
  deriving DecidableEq, Repr

/-- `FetchError`: the status a request is answered with, and its message. -/
structure FetchError where
  status : FetchStatus
  message : String
  deriving DecidableEq, Repr

/-- `FetchError::bad_gateway`. -/
def FetchError.badGateway (message : String) : FetchError := ⟨.badGateway, message⟩

/-- `Lifetime`: the limits up to which a value is fresh, and may be served
stale.  `lifetime` makes no other ones. -/
structure Lifetime where
  freshUntil : ℕ
  staleUntil : ℕ
  fresh_le_stale : freshUntil ≤ staleUntil
  deriving DecidableEq, Repr

abbrev Bytes := List UInt8

def ascii (s : String) : Bytes := s.toList.map fun c => c.toNat.toUInt8

/-- `u8::is_ascii_whitespace`. -/
def isAsciiWhitespace (b : UInt8) : Bool :=
  b == 0x20 || b == 0x09 || b == 0x0a || b == 0x0c || b == 0x0d

/-- `<[u8]>::trim_ascii`. -/
def trimAscii (s : Bytes) : Bytes :=
  (s.dropWhile isAsciiWhitespace).rdropWhile isAsciiWhitespace

/-- `u8::to_ascii_lowercase`. -/
def toAsciiLowercase (b : UInt8) : UInt8 := if 0x41 ≤ b ∧ b ≤ 0x5a then b + 0x20 else b

/-- `<[u8]>::eq_ignore_ascii_case`. -/
def eqIgnoreAsciiCase (a b : Bytes) : Bool :=
  a.map toAsciiLowercase == b.map toAsciiLowercase

def NO_STORE : Bytes := ascii "no-store"
def NO_CACHE : Bytes := ascii "no-cache"
def PRIVATE : Bytes := ascii "private"
def MAX_AGE : Bytes := ascii "max-age"
def S_MAXAGE : Bytes := ascii "s-maxage"
def STALE_WHILE_REVALIDATE : Bytes := ascii "stale-while-revalidate"
def MAX_DELTA_SECONDS : ℕ := 2 ^ 31

/-- `unquote`: a string between two quotation marks, or the argument itself. -/
def unquote (arg : Bytes) : Bytes :=
  match arg with
  | 0x22 :: rest =>
    if rest.getLast? = some 0x22 then rest.dropLast else arg
  | _ => arg

/-- The loop of `delta_seconds`. -/
def digits : Bytes → ℕ → Option ℕ
  | [], v => some v
  | d :: ds, v =>
    if 0x30 ≤ d ∧ d ≤ 0x39 then
      digits ds (min (v * 10 + (d.toNat - 0x30)) MAX_DELTA_SECONDS)
    else none

/-- `delta_seconds`. -/
def deltaSeconds (arg : Option Bytes) : Option ℕ :=
  match arg with
  | none => none
  | some [] => none
  | some ds => digits ds 0

/-- The variables of the loop of `lifetime`. -/
structure Directives where
  maxAge : Option ℕ := none
  sMaxage : Option ℕ := none
  swr : Option ℕ := none
  maxAgeSeen : Bool := false
  sMaxageSeen : Bool := false
  deriving DecidableEq, Repr

/-- The name and the argument of a directive. -/
def nameArg (directive : Bytes) : Bytes × Option Bytes :=
  let directive := trimAscii directive
  match directive.idxOf? 0x3d with
  | some i => (trimAscii (directive.take i), some (unquote (trimAscii (directive.drop (i + 1)))))
  | none => (directive, none)

/-- One turn of the inner loop of `lifetime`; `none` is its `return None`. -/
def directive (s : Directives) (d : Bytes) : Option Directives :=
  let (name, arg) := nameArg d
  if eqIgnoreAsciiCase name NO_STORE || eqIgnoreAsciiCase name NO_CACHE ||
      eqIgnoreAsciiCase name PRIVATE then none
  else if eqIgnoreAsciiCase name S_MAXAGE then
    if s.sMaxageSeen then some s
    else (deltaSeconds arg).map fun v => { s with sMaxageSeen := true, sMaxage := some v }
  else if eqIgnoreAsciiCase name MAX_AGE then
    if s.maxAgeSeen then some s
    else (deltaSeconds arg).map fun v => { s with maxAgeSeen := true, maxAge := some v }
  else if eqIgnoreAsciiCase name STALE_WHILE_REVALIDATE && s.swr.isNone then
    some { s with swr := deltaSeconds arg }
  else some s

/-- The limits that a time to live, a grace period and an age give.  A stale
limit in the past gives none. -/
def limits (received ttl swr age : ℕ) : Option Lifetime :=
  if ttl + swr ≤ age then none
  else some ⟨received + (ttl - age), received + (ttl + swr - age), by omega⟩

/-- `lifetime`: `control` are the `Cache-Control` values of the response in
order, `age` its `Age` value. -/
def lifetime (control : List Bytes) (age : Option Bytes) (received : ℕ) : Option Lifetime := do
  let s ← (control.flatMap (List.splitOn 0x2c)).foldlM directive {}
  let ttl ← s.sMaxage.or s.maxAge
  limits received ttl (s.swr.getD 0)
    ((age.bind fun v => deltaSeconds (some (trimAscii v))).getD 0)

/-- A lifetime ends after the response that carries it was received. -/
theorem received_lt_stale_until {control : List Bytes} {age : Option Bytes} {received : ℕ}
    {l : Lifetime} (h : lifetime control age received = some l) : received < l.staleUntil := by
  simp only [lifetime, Option.bind_eq_bind, Option.bind_eq_some_iff] at h
  obtain ⟨s, _, ttl, _, h⟩ := h
  unfold limits at h
  split at h
  · cases h
  · rename_i hage
    obtain rfl := Option.some.inj h
    exact Nat.lt_add_of_pos_right (Nat.sub_pos_of_lt (Nat.lt_of_not_le hage))

example : (lifetime [ascii "public, max-age=60", ascii "stale-while-revalidate=\"30\""]
    (some (ascii "10")) 1000).map (fun l => (l.freshUntil, l.staleUntil)) = some (1050, 1080) := by
  decide

end Fetch
end Lunar
