/-
# The blob of the payload script

`payload/blob.rs`: `packed`, `Table`, `parse`, `finish`, `codes`, and `decode` up to the
call of `run`.  A code is the 16 bits of a digit, `CONT` set when its number goes on.
`parse` sums a number in an `i64` as long as the weight of the next digit is less than
`EXACT` and leaves the rest of a longer number to `finish`, which goes on in the `i64` and
then in a double.

`finish` reads zeros past the end of the codes.  It would not come back if the zero went
on; `none` stands for that.
-/

import Lunar.Lib.Text
import Lunar.Lib.Varint
import Lunar.Payload.Fold

namespace Lunar
namespace Blob

open Lib (Double Table)
open Fold (toInt32)

def CONT : ℕ := 2 ^ 15

def DIGIT : ℕ := CONT - 1

def EXACT : ℕ := 2 ^ 40

def POW_CAP : ℕ := 16

/-- `i64::saturating_mul` of numbers that are not negative. -/
def saturatingMul (a b : ℕ) : ℕ := min (a * b) (2 ^ 63 - 1)

/-- `as i32`. -/
def asI32 (n : ℕ) : BitVec 32 := .ofNat 32 n

def packed (index radix : ℕ) : ℕ :=
  if index < radix then index % 2 ^ 16 else CONT ||| (index % radix + radix) % 2 ^ 16

/-- The slots of `pow` that are filled, from the weight `w` on; the last one is `kmax`. -/
def fillPow (base : ℕ) : ℕ → ℕ → List ℕ
  | 0, _ => []
  | slots + 1, w =>
    if EXACT ≤ w then [w] else w :: fillPow base slots (saturatingMul w base)

/-- The loop of `finish` over doubles. -/
def finishFloat (base zero : ℕ) : List ℕ → Double → Double → Option (BitVec 32 × List ℕ)
  | [], mf, wf =>
    if zero &&& CONT = 0 then some (toInt32 (mf.add (wf.mul (.ofNat zero))), []) else none
  | c :: cs, mf, wf =>
    if c &&& CONT = 0 then some (toInt32 (mf.add (wf.mul (.ofNat c))), cs)
    else finishFloat base zero cs (mf.add (wf.mul (.ofNat (c &&& DIGIT)))) (wf.mul (.ofNat base))

/-- `finish`: the value of the number, and the codes after it. -/
def finish (base zero : ℕ) : List ℕ → ℕ → ℕ → Option (BitVec 32 × List ℕ)
  | [], m, w =>
    if w < EXACT then
      if zero &&& CONT = 0 then some (asI32 (m + w * zero), []) else none
    else finishFloat base zero [] (.ofNat m) (.ofNat w)
  | c :: cs, m, w =>
    if w < EXACT then
      if c &&& CONT = 0 then some (asI32 (m + w * c), cs)
      else finish base zero cs (m + w * (c &&& DIGIT)) (w * base)
    else finishFloat base zero (c :: cs) (.ofNat m) (.ofNat w)

section Parse

variable (base zero : ℕ) (pow : List ℕ)

/-- The loop of `parse`: the codes left, the sum, the number of digits read of the number,
and the values so far.  Each turn reads one code at least, so as many turns as there are
codes are enough. -/
def parseLoop : ℕ → List ℕ → ℕ → ℕ → List (BitVec 32) → Option (List (BitVec 32))
  | _, [], m, k, out => some (if k ≠ 0 then out ++ [asI32 (m + pow.getD k 0 * zero)] else out)
  | 0, _ :: _, _, _, _ => none
  | fuel + 1, c :: cs, m, k, out =>
    let more := c &&& CONT ≠ 0
    let val := m + pow.getD k 0 * (c &&& DIGIT)
    let out := if more then out else out ++ [asI32 val]
    let m := if more then val else 0
    let k := if more then k + 1 else 0
    if pow.length - 1 ≤ k then do
      let (v, next) ← finish base zero cs m (pow.getD k 0)
      parseLoop fuel next 0 0 (out ++ [v])
    else parseLoop fuel cs m k out

end Parse

def parse (codes : List ℕ) (base zero : ℕ) : Option (List (BitVec 32)) :=
  parseLoop base zero (fillPow base POW_CAP 1) codes.length codes 0 0 []

/-- `codes`: the codes of a text from its bytes.  The byte at `k` counts as zero past the
end. -/
def codes (ascii wideCode : ℕ → ℕ) : ℕ → List ℕ → List ℕ
  | 0, _ | _, [] => []
  | fuel + 1, b0 :: bs =>
    if b0 < 0x80 then ascii b0 :: codes ascii wideCode fuel bs
    else
      let at_ (k : ℕ) : ℕ := (b0 :: bs).getD k 0 &&& 0x3f
      let (cp, n) :=
        if b0 < 0xe0 then (((b0 &&& 0x1f) <<< 6) ||| at_ 1, 2)
        else if b0 < 0xf0 then (((b0 &&& 0x0f) <<< 12) ||| (at_ 1 <<< 6) ||| at_ 2, 3)
        else (((b0 &&& 0x07) <<< 18) ||| (at_ 1 <<< 12) ||| (at_ 2 <<< 6) ||| at_ 3, 4)
      let rest := codes ascii wideCode fuel ((b0 :: bs).drop n)
      if cp < 0x10000 then wideCode cp :: rest
      else
        let v := cp - 0x10000
        wideCode (0xd800 ||| (v >>> 10) % 2 ^ 16) ::
          wideCode (0xdc00 ||| (v &&& 0x3ff) % 2 ^ 16) :: rest

/-- `as_bytes`. -/
def asBytes (text : String) : List ℕ :=
  text.toList.flatMap fun c => (String.utf8EncodeChar c).map UInt8.toNat

/-- `is_ascii`. -/
def isAscii (text : String) : Bool := (asBytes text).all (· < 0x80)

/-- The limit of the array of the table. -/
def ASCII : ℕ := 256

/-- The table of an alphabet. -/
def table (alpha : List ℕ) (radix : ℕ) : Table ℕ :=
  Table.build ASCII (packed 0 radix) (alpha.zipIdx.map fun e => (e.1, packed e.2 radix))

inductive BlobError
  | radix (radix : Double) (alphabet : ℕ)
  | noBucket (center : ℤ)
  deriving DecidableEq, Repr

/-- The words that `decode` hands to `run`. -/
def raw (blob alphabet : String) (radix : Double) : Except BlobError (Option (List (BitVec 32))) :=
  let alpha := Lib.Text.encodeUtf16 alphabet
  if !radix.fract.eq .zero || radix.le .zero || radix.ge (.ofNat alpha.length)
      || DIGIT ≤ alpha.length then
    .error (.radix radix alpha.length)
  else
    let radixU := radix.toU 32
    let base := alpha.length - radixU
    let zero := packed 0 radixU
    let table := table alpha radixU
    if isAscii blob then .ok (parse ((asBytes blob).map table.ascii) base zero)
    else
      let codes := codes table.ascii (table.lookup ASCII zero) (asBytes blob).length (asBytes blob)
      .ok (parse codes base zero)

end Blob
end Lunar
