/-
# Encryption of a payload

`payload/assemble.rs`: `xtea`, `read_block`, `encrypt`.  The part of the array `queue`
that is in use is a list, so that its length is `len`.
-/

import Mathlib.Data.Int.Notation
import Mathlib.Logic.Function.Iterate
import Lunar.Lib.Loop
import Mathlib.Algebra.Ring.Nat
import Mathlib.Algebra.Ring.Int.Defs

namespace Lunar
namespace Assemble

abbrev Byte := BitVec 8

abbrev Word := BitVec 32

abbrev Block := Word × Word

def FRAME : List Byte := [0x00, 0x02]

def BLOCK : ℕ := 8

def ROUNDS : ℕ := 32

def DELTA : Word := 0x9E3779B9

def QUEUE_CAP : ℕ := 5

abbrev Key := Vector Word 4

structure Keys where
  key : Key
  token : Vector Byte 8

/-- `u32::from_be_bytes`. -/
def fromBeBytes (a b c d : Byte) : Word :=
  BitVec.ofNat 32 (a.toNat * 2 ^ 24 + b.toNat * 2 ^ 16 + c.toNat * 2 ^ 8 + d.toNat)

/-- `u32::to_be_bytes`. -/
def toBeBytes (w : Word) : List Byte :=
  [.ofNat 8 (w.toNat / 2 ^ 24), .ofNat 8 (w.toNat / 2 ^ 16), .ofNat 8 (w.toNat / 2 ^ 8),
    .ofNat 8 w.toNat]

/-- The bytes of a block. -/
def Block.bytes (b : Block) : List Byte := toBeBytes b.1 ++ toBeBytes b.2

/-- The variables of `xtea`. -/
structure Rounds where
  v0 : Word
  v1 : Word
  sum : Word

/-- What a half of the block adds to the other one. -/
def mix (v : Word) : Word := ((v <<< 4) ^^^ v.sshiftRight 5) + v

/-- The word of the key at the last two bits. -/
def keyWord (k : Key) (i : Word) : Word := k.get (Fin.ofNat 4 (i &&& 3).toNat)

/-- A turn of the loop of `xtea`. -/
def round (k : Key) (s : Rounds) : Rounds :=
  let v0 := s.v0 + (mix s.v1 ^^^ (s.sum + keyWord k s.sum))
  let sum := s.sum + DELTA
  let v1 := s.v1 + (mix v0 ^^^ (sum + keyWord k (sum >>> 11)))
  ⟨v0, v1, sum⟩

def xtea (k : Key) (v : Block) : Block :=
  let s := (round k)^[ROUNDS] ⟨v.1, v.2, 0⟩
  (s.v0, s.v1)

/-- `read_block`. -/
def readBlock (b : List Byte) (blk : ℕ) : Block :=
  let o := blk * BLOCK
  let word (at_ : ℕ) : Word :=
    fromBeBytes (b.getD (o + at_ + 0) 0) (b.getD (o + at_ + 1) 0) (b.getD (o + at_ + 2) 0)
      (b.getD (o + at_ + 3) 0)
  (word 0, word 4)

/-- The variables of `encrypt` in its loops. -/
structure Progress where
  queue : List Block
  x : ℕ
  idx : ℤ
  s : Block
  out : List Byte

/-- A turn of the loop that fills the queue. -/
def fill (plain : List Byte) (g : ℕ) (p : Progress) : Option Progress :=
  if p.queue.length < QUEUE_CAP ∧ p.x < g then
    some { p with queue := p.queue ++ [readBlock plain p.x], x := p.x + 1 }
  else none

/-- A turn of the loop that empties the queue. -/
def turn (k : Key) (plain : List Byte) (g : ℕ) (p : Progress) : Option Progress :=
  if 0 < p.queue.length then
    let idx := (p.idx + p.s.1.toInt) % (p.queue.length : ℤ)
    let at_ := idx.toNat
    let h := p.queue.getD at_ (0, 0)
    let s := xtea k (h.1 ^^^ p.s.1, h.2 ^^^ p.s.2)
    let out := p.out ++ s.bytes
    if p.x < g then
      some ⟨p.queue.set at_ (readBlock plain p.x), p.x + 1, idx, s, out⟩
    else
      some ⟨p.queue.eraseIdx at_, p.x, idx, s, out⟩
  else none

/-- `encrypt`, if each loop ends within `n` turns. -/
def encrypt (plain : List Byte) (keys : Keys) (iv : Vector Byte 8) (n : ℕ) :
    Option (List Byte) := do
  let g := (plain.length + (BLOCK - 1)) / BLOCK
  let s := xtea keys.key
    (fromBeBytes iv[0] iv[1] iv[2] iv[3], fromBeBytes iv[4] iv[5] iv[6] iv[7])
  let p ← Lib.loop (fill plain g) n
    ⟨[(0, BitVec.ofNat 32 plain.length)], 0, 0, s, FRAME ++ keys.token.toList ++ s.bytes⟩
  let p ← Lib.loop (turn keys.key plain g) n p
  return p.out

/-- The first block of the ciphertext. -/
def firstBlock (keys : Keys) (iv : Vector Byte 8) : Block :=
  xtea keys.key (fromBeBytes iv[0] iv[1] iv[2] iv[3], fromBeBytes iv[4] iv[5] iv[6] iv[7])

end Assemble
end Lunar
