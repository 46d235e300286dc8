/-
# The proof of work and its answer

`worktime/encoder.rs`: `encode`, `threshold`, `solve_sub`, `chain`, `score`,
`compose_seed`, `seed_hex`, `write_u64`, `encode_cd`; and `wrap_payload` of
`routes/worktime.rs`.  A text is the list of its characters.  What `encode` takes from
outside is in `World`: the readings of the clock, the random bytes of the id and of the
duration.  The hash and the score of a digest are parameters.

The answers form a chain: each nonce is looked for against the hexadecimal digest that the
one before it left.
-/

import Lunar.Lib.Double.Exact
import Mathlib.Algebra.Ring.Nat

namespace Lunar
namespace Worktime
namespace Encoder

open Lib (Double)

/-! ## Constants -/

def TWO_POW_52 : Double := .ofNat (2 ^ 52)

def MAX_NONCE_PER_SUB : ℕ := 2 ^ 20

def HEX : List Char := "0123456789abcdef".toList

def SEED_TAG : List Char := "tp-v2-input".toList

def SEP : List Char := ", ".toList

def CT_PREFIX_LEN : ℕ := 16

def ID_BYTES : ℕ := 16

def INT_BUF_LEN : ℕ := 20

def J_WORK_TIME : List Char := "\x7b\"workTime\":".toList

def J_ID : List Char := ",\"id\":\"".toList

def J_ANSWERS : List Char := "\",\"answers\":[".toList

def J_DURATION : List Char := "],\"duration\":".toList

def J_D : List Char := ",\"d\":".toList

def J_ST : List Char := ",\"st\":".toList

def J_RST : List Char := ",\"rst\":".toList

def J_END : Char := '\x7d'

def PAYLOAD_PREFIX : List Char := "\x7b\"payload\":\"".toList

def PAYLOAD_SUFFIX : List Char := "\"\x7d".toList

def ESCAPED_QUOTE : List Char := "\\\"".toList

/-! ## Data -/

inductive EncoderError
  | subCountZero
  | difficulty (difficulty : Double)
  | unsatisfiable (threshold difficulty : Double) (subCount : UInt32)
  | nonceCap (threshold : Double) (sub : ℕ)
  | serverTime (st : Int64)
  | receiveTime (rst : Int64)
  | noAnswers
  | clock
  deriving DecidableEq

structure PowParams where
  ct : List Char
  seedPhrase : List Char
  difficulty : Double
  subCount : UInt32
  seedSuffix : List Char
  st : Int64
  rst : Int64

abbrev Digest := Vector UInt8 32

/-- What `encode` takes from outside: the two readings of the clock in milliseconds since
the epoch, none when the clock stands before it, and the random bytes. -/
structure World where
  now : Option ℕ
  later : Option ℕ
  raw : Vector UInt8 ID_BYTES
  byte : UInt8

/-! ## Printing -/

/-- The loop of `write_u64`, which fills the buffer from its end. -/
def writeLoop : ℕ → ℕ → List Char → List Char
  | 0, _, buf => buf
  | slots + 1, v, buf =>
    let buf := Char.ofNat ('0'.toNat + v % 10) :: buf
    if v / 10 = 0 then buf else writeLoop slots (v / 10) buf

def writeU64 (v : ℕ) : List Char := writeLoop INT_BUF_LEN v []

/-- `push_i64`. -/
def writeI64 (v : Int64) : List Char :=
  (if v < 0 then ['-'] else []) ++ writeU64 v.toInt.natAbs

def hexEncode (src : List UInt8) : List Char :=
  src.flatMap fun b => [HEX.getD (b.toNat / 16) '0', HEX.getD (b.toNat % 16) '0']

def asBytes (text : List Char) : List UInt8 := text.flatMap String.utf8EncodeChar

/-! ## The chain -/

section Chain

variable (hash : List UInt8 → Digest) (score : Digest → Double)

def chain (nonceDigits current : List Char) : Digest :=
  hash (asBytes nonceDigits ++ asBytes SEP ++ asBytes current)

/-- The loop of `solve_sub`: the nonce found, and the digest it leaves. -/
def solveFrom (threshold : Double) (current : List Char) : ℕ → ℕ → Option (UInt32 × List Char)
  | 0, _ => none
  | tries + 1, nonce =>
    let digest := chain hash (writeU64 nonce) current
    if (score digest).ge threshold then some (.ofNat nonce, hexEncode digest.toList)
    else solveFrom threshold current tries (nonce + 1)

def solveSub (current : List Char) (threshold : Double) : Option (UInt32 × List Char) :=
  solveFrom hash score threshold current MAX_NONCE_PER_SUB 1

def composeSeed (ct : List Char) (workTime : Int64) (id seedPhrase seedSuffix : List Char) :
    List UInt8 :=
  asBytes SEED_TAG ++ (asBytes ct).take CT_PREFIX_LEN ++ asBytes SEP ++
    asBytes (writeI64 workTime) ++ asBytes SEP ++ asBytes id ++
    (if seedPhrase = [] then [] else asBytes SEP ++ asBytes seedPhrase) ++
    (if seedSuffix = [] then [] else asBytes SEP ++ asBytes seedSuffix)

def seedHex (p : PowParams) (workTime : Int64) (id : List Char) : List Char :=
  hexEncode (hash (composeSeed p.ct workTime id p.seedPhrase p.seedSuffix)).toList

def threshold (p : PowParams) : Except EncoderError Double :=
  if p.subCount = 0 then .error .subCountZero
  else if !p.difficulty.gt .zero then .error (.difficulty p.difficulty)
  else
    let threshold := p.difficulty.div (.ofNat p.subCount.toNat)
    if threshold.gt TWO_POW_52 then
      .error (.unsatisfiable threshold p.difficulty p.subCount)
    else .ok threshold

/-- `now_ms`. -/
def nowMs (reading : Option ℕ) : Except EncoderError Int64 :=
  match reading with
  | none => .error .clock
  | some ms => if ms < 2 ^ 63 then .ok (.ofNat ms) else .error .clock

/-- `draw_duration_tenths`. -/
def drawDurationTenths (b : UInt8) : UInt32 :=
  let c0 := (HEX.getD (b.toNat / 16) '0').toNat
  let c1 := (HEX.getD (b.toNat % 16) '0').toNat
  .ofNat ((10 + c0 % 35) * 10 + c1 % 10)

/-- The answers with a comma before each but the first. -/
def pushAnswers : List UInt32 → List Char
  | [] => []
  | a :: answers => ',' :: writeU64 a.toNat ++ pushAnswers answers

def encodeCd (workTime : Int64) (id : List Char) (answers : List UInt32) (durationTenths : UInt32)
    (st rst : Int64) : Except EncoderError (List Char) :=
  if st ≤ 0 then .error (.serverTime st)
  else if rst ≤ 0 then .error (.receiveTime rst)
  else
    match answers with
    | [] => .error .noAnswers
    | answer :: answers =>
      let tenth := durationTenths.toNat % 10
      .ok (J_WORK_TIME ++ writeI64 workTime ++ J_ID ++ id ++ J_ANSWERS ++
        writeU64 answer.toNat ++ pushAnswers answers ++
        J_DURATION ++ writeU64 (durationTenths.toNat / 10) ++
        (if tenth ≠ 0 then ['.', Char.ofNat ('0'.toNat + tenth)] else []) ++
        J_D ++ writeI64 (rst - st) ++ J_ST ++ writeI64 st ++ J_RST ++ writeI64 rst ++ [J_END])

/-- The loop of `encode` over the sub-challenges left. -/
def solveAll (threshold : Double) :
    ℕ → ℕ → List Char → List UInt32 → Except EncoderError (List UInt32)
  | 0, _, _, answers => .ok answers
  | left + 1, sub, current, answers =>
    match solveSub hash score current threshold with
    | some (nonce, current) => solveAll threshold left (sub + 1) current (answers ++ [nonce])
    | none => .error (.nonceCap threshold sub)

/-- The id that `encode` draws. -/
def World.id (w : World) : List Char := hexEncode w.raw.toList

def encode (w : World) (p : PowParams) : Except EncoderError (List Char) := do
  if p.st ≤ 0 then throw (.serverTime p.st)
  let threshold ← threshold p
  let workTime ← nowMs w.now
  let current := seedHex hash p workTime w.id
  let answers ← solveAll hash score threshold p.subCount.toNat 0 current []
  let rst ← if 0 < p.rst then pure p.rst else nowMs w.later
  encodeCd workTime w.id answers (drawDurationTenths w.byte) p.st rst

end Chain

/-- `wrap_payload`: the segments between the quotes, with escaped quotes between them. -/
def wrapPayload (cd : List Char) : List Char :=
  PAYLOAD_PREFIX ++
    (match cd.splitOn '"' with
    | [] => []
    | first :: segments => first ++ segments.flatMap (ESCAPED_QUOTE ++ ·)) ++
    PAYLOAD_SUFFIX

end Encoder
end Worktime
end Lunar
