/-
# Decryption of a payload

The rounds of `xtea` can be undone one by one (`unxtea_xtea`), and the blocks of the
ciphertext alone say which place of the queue each of them came from, since the mask of a
pick is the block before it.  So the payload is a queue that is shuffled in the sense of
`Lib.Shuffle`, and its replay finds the plaintext (`encrypt_decrypts`).
-/

import Mathlib.Data.List.GetD
import Mathlib.Data.List.Nodup
import Lunar.Lib.Shuffle
import Lunar.Payload.Assemble

namespace Lunar
namespace Assemble

open Lib (Queue emit replay chained)

/-! ## The cipher -/

/-- A turn of `xtea` undone. -/
def unround (k : Key) (s : Rounds) : Rounds :=
  let v1 := s.v1 - (mix s.v0 ^^^ (s.sum + keyWord k (s.sum >>> 11)))
  let sum := s.sum - DELTA
  let v0 := s.v0 - (mix v1 ^^^ (sum + keyWord k sum))
  ⟨v0, v1, sum⟩

/-- The sum after all rounds. -/
def LAST_SUM : Word := (· + DELTA)^[ROUNDS] 0

/-- The inverse of `xtea`. -/
def unxtea (k : Key) (v : Block) : Block :=
  let s := (unround k)^[ROUNDS] ⟨v.1, v.2, LAST_SUM⟩
  (s.v0, s.v1)

theorem unround_round (k : Key) : Function.LeftInverse (unround k) (round k) := by
  intro s
  simp only [unround, round, BitVec.add_sub_cancel]

theorem sum_rounds (k : Key) (n : ℕ) (s : Rounds) :
    ((round k)^[n] s).sum = (· + DELTA)^[n] s.sum := by
  have hround : Function.Semiconj Rounds.sum (round k) (· + DELTA) := fun _ => rfl
  exact hround.iterate_right n s

/-- **`xtea` can be undone.** -/
theorem unxtea_xtea (k : Key) (v : Block) : unxtea k (xtea k v) = v := by
  have hsum : ((round k)^[ROUNDS] ⟨v.1, v.2, 0⟩).sum = LAST_SUM := sum_rounds k ROUNDS _
  have hstate : ∀ s : Rounds, s.sum = LAST_SUM → (⟨s.v0, s.v1, LAST_SUM⟩ : Rounds) = s :=
    fun s hs => hs ▸ rfl
  unfold unxtea xtea
  dsimp only
  rw [hstate _ hsum, (unround_round k).iterate ROUNDS]

/-- The next block of the ciphertext, from the one before it and the picked block. -/
def link (k : Key) (s h : Block) : Block := xtea k (h.1 ^^^ s.1, h.2 ^^^ s.2)

/-- The picked block, from the blocks of the ciphertext. -/
def unlink (k : Key) (s c : Block) : Block :=
  let h := unxtea k c
  (h.1 ^^^ s.1, h.2 ^^^ s.2)

theorem unlink_link (k : Key) (s h : Block) : unlink k s (link k s h) = h := by
  unfold unlink link
  rw [unxtea_xtea]
  dsimp only
  rw [BitVec.xor_assoc, BitVec.xor_assoc, BitVec.xor_self, BitVec.xor_self, BitVec.xor_zero,
    BitVec.xor_zero]

/-- The mask of a pick. -/
def maskOf (s : Block) : ℤ := s.1.toInt

/-! ## Bytes -/

theorem fromBeBytes_toBeBytes (w : Word) :
    fromBeBytes (.ofNat 8 (w.toNat / 2 ^ 24)) (.ofNat 8 (w.toNat / 2 ^ 16))
      (.ofNat 8 (w.toNat / 2 ^ 8)) (.ofNat 8 w.toNat) = w := by
  apply BitVec.eq_of_toNat_eq
  have hlt := w.isLt
  simp only [fromBeBytes, BitVec.toNat_ofNat]
  omega

theorem toBeBytes_fromBeBytes (a b c d : Byte) : toBeBytes (fromBeBytes a b c d) = [a, b, c, d] := by
  have ha := a.isLt
  have hb := b.isLt
  have hc := c.isLt
  have hd := d.isLt
  have hw : (fromBeBytes a b c d).toNat
      = a.toNat * 2 ^ 24 + b.toNat * 2 ^ 16 + c.toNat * 2 ^ 8 + d.toNat := by
    rw [fromBeBytes, BitVec.toNat_ofNat]
    omega
  have hbyte : ∀ (x : Byte) (n : ℕ), n % 2 ^ 8 = x.toNat → BitVec.ofNat 8 n = x := by
    intro x n h
    apply BitVec.eq_of_toNat_eq
    rw [BitVec.toNat_ofNat, h]
  unfold toBeBytes
  rw [hw, hbyte a _ (by omega), hbyte b _ (by omega), hbyte c _ (by omega), hbyte d _ (by omega)]

theorem bytes_length (b : Block) : b.bytes.length = BLOCK := rfl

theorem length_flatMap_bytes (cs : List Block) :
    (cs.flatMap Block.bytes).length = cs.length * BLOCK := by
  induction cs with
  | nil => exact (Nat.zero_mul BLOCK).symm
  | cons c cs ih =>
      rw [List.flatMap_cons, List.length_append, ih, bytes_length, List.length_cons, Nat.succ_mul,
        Nat.add_comm]

/-- The bytes of a read block are those of its place, and zeros after the end. -/
theorem bytes_readBlock (b : List Byte) (i : ℕ) :
    (readBlock b i).bytes = (List.range BLOCK).map fun j => b.getD (i * BLOCK + j) 0 := by
  unfold readBlock Block.bytes
  dsimp only
  rw [toBeBytes_fromBeBytes, toBeBytes_fromBeBytes]
  rfl

theorem readBlock_bytes (c : Block) (rest : List Byte) : readBlock (c.bytes ++ rest) 0 = c :=
  Prod.ext (fromBeBytes_toBeBytes c.1) (fromBeBytes_toBeBytes c.2)

theorem readBlock_succ (c : Block) (rest : List Byte) (i : ℕ) :
    readBlock (c.bytes ++ rest) (i + 1) = readBlock rest i := by
  have hget : ∀ j, (c.bytes ++ rest).getD ((i + 1) * BLOCK + j) 0 = rest.getD (i * BLOCK + j) 0 := by
    intro j
    have hplace : (i + 1) * BLOCK + j - c.bytes.length = i * BLOCK + j := by
      rw [bytes_length, Nat.succ_mul]
      omega
    rw [List.getD_append_right _ _ _ _ (by rw [bytes_length, Nat.succ_mul]; omega), hplace]
  unfold readBlock
  simp only [Nat.add_assoc, hget]

/-- The blocks of the bytes of blocks. -/
theorem map_readBlock (cs : List Block) :
    (List.range cs.length).map (readBlock (cs.flatMap Block.bytes)) = cs := by
  induction cs with
  | nil => rfl
  | cons c cs ih =>
      have htail : (List.range cs.length).map (readBlock (c.bytes ++ cs.flatMap Block.bytes) ∘ Nat.succ)
          = cs := by
        conv_rhs => rw [← ih]
        exact List.map_congr_left fun i _ => readBlock_succ c _ i
      rw [List.length_cons, List.range_succ_eq_map, List.map_cons, List.map_map, List.flatMap_cons,
        htail]
      exact congrArg (· :: cs) (readBlock_bytes c _)

/-- The bytes of the blocks of some bytes. -/
theorem flatMap_readBlock (b : List Byte) (g : ℕ) :
    (List.range g).flatMap (fun i => (readBlock b i).bytes)
      = (List.range (g * BLOCK)).map fun j => b.getD j 0 := by
  induction g with
  | zero => rw [Nat.zero_mul]; rfl
  | succ g ih =>
      rw [List.range_succ, List.flatMap_append, ih, Nat.succ_mul, List.range_add, List.map_append,
        List.map_map, List.flatMap_singleton, bytes_readBlock]
      rfl

theorem take_map_getD (b : List Byte) (m : ℕ) (h : b.length ≤ m) :
    ((List.range m).map fun j => b.getD j 0).take b.length = b := by
  apply List.ext_getElem
  · rw [List.length_take, List.length_map, List.length_range, Nat.min_eq_left h]
  · intro i hi hi'
    rw [List.getElem_take, List.getElem_map, List.getElem_range]
    exact List.getD_eq_getElem b 0 hi'

/-! ## The queue -/

/-- The number of blocks of a plaintext. -/
def blockCount (plain : List Byte) : ℕ := (plain.length + (BLOCK - 1)) / BLOCK

/-- The blocks by their numbers: the length of the plaintext, then its blocks. -/
def blockAt (plain : List Byte) : ℕ → Block
  | 0 => (0, BitVec.ofNat 32 plain.length)
  | i + 1 => readBlock plain i

/-- All blocks of a plaintext. -/
def blocksOf (plain : List Byte) : List Block :=
  (List.range (blockCount plain + 1)).map (blockAt plain)

/-- The queue of the first `n` numbers. -/
def numbers (n : ℕ) : Queue ℕ :=
  ⟨List.range (min n QUEUE_CAP), List.range' QUEUE_CAP (n - QUEUE_CAP), 0⟩

theorem values_numbers (n : ℕ) : (numbers n).values = List.range n := by
  unfold Queue.values numbers
  dsimp only
  rcases Nat.le_total n QUEUE_CAP with h | h
  · rw [Nat.min_eq_left h, Nat.sub_eq_zero_of_le h]
    exact List.append_nil _
  · rw [Nat.min_eq_right h, List.range_eq_range', List.range_eq_range']
    have happend := List.range'_append_1 (s := 0) (m := QUEUE_CAP) (n := n - QUEUE_CAP)
    rw [Nat.zero_add, Nat.add_sub_cancel' h] at happend
    exact happend

theorem fed_numbers (n : ℕ) : (numbers n).Fed := by
  intro hnil
  have hlen : (List.range (min n QUEUE_CAP)).length = 0 := List.length_eq_zero_iff.2 hnil
  rw [List.length_range] at hlen
  show List.range' QUEUE_CAP (n - QUEUE_CAP) = []
  have hcap : QUEUE_CAP = 5 := rfl
  rw [Nat.sub_eq_zero_of_le (by omega)]
  rfl

section Run

variable {k : Key} {plain : List Byte}

/-- The variables hold a queue: what is to come are the blocks from number `x` on. -/
structure Holds (plain : List Byte) (q : Queue Block) (p : Progress) : Prop where
  queue : p.queue = q.held
  rest : q.rest = (List.range' p.x (blockCount plain - p.x)).map (readBlock plain)
  idx : p.idx = q.idx

/-- A turn picks a block and puts out the next block of the ciphertext. -/
theorem turn_pick {q q' : Queue Block} {p : Progress} {h : Block} (hp : Holds plain q p)
    (hpick : q.pick (maskOf p.s) = some (h, q')) :
    ∃ p', turn k plain (blockCount plain) p = some p' ∧ Holds plain q' p' ∧
      p'.s = link k p.s h ∧ p'.out = p.out ++ (link k p.s h).bytes := by
  obtain ⟨hh, rfl⟩ := Queue.pick_some hpick
  have hplace : (p.idx + p.s.1.toInt) % (p.queue.length : ℤ) = q.place (maskOf p.s) := by
    rw [hp.queue, hp.idx]
    rfl
  have hget : p.queue.getD (q.place (maskOf p.s)).toNat (0, 0) = h := by
    rw [hp.queue, List.getD_eq_getElem?_getD, hh]
    rfl
  have hpos : 0 < p.queue.length := by
    rw [hp.queue]
    exact Nat.zero_lt_of_lt (List.getElem?_eq_some_iff.1 hh).1
  unfold turn
  rw [if_pos hpos]
  dsimp only
  rw [hplace, hget]
  by_cases hx : p.x < blockCount plain
  · rw [if_pos hx]
    refine ⟨_, rfl, ⟨?_, ?_, rfl⟩, rfl, rfl⟩
    all_goals
      obtain ⟨m, hm⟩ : ∃ m, blockCount plain - p.x = m + 1 := ⟨blockCount plain - p.x - 1, by omega⟩
      have hrest := hp.rest
      rw [hm, List.range'_succ, List.map_cons] at hrest
      unfold Queue.step
      rw [hrest]
    · show p.queue.set _ _ = _
      rw [hp.queue]
    · show (List.range' (p.x + 1) m).map _ = (List.range' (p.x + 1) (blockCount plain - (p.x + 1))).map _
      have heq : blockCount plain - (p.x + 1) = m := by omega
      rw [heq]
  · rw [if_neg hx]
    have hrest := hp.rest
    rw [Nat.sub_eq_zero_of_le (Nat.not_lt.1 hx)] at hrest
    refine ⟨_, rfl, ⟨?_, ?_, rfl⟩, rfl, rfl⟩
    all_goals
      unfold Queue.step
      rw [hrest]
    · show p.queue.eraseIdx _ = _
      rw [hp.queue]
      rfl
    · show _ = (List.range' p.x (blockCount plain - p.x)).map _
      rw [Nat.sub_eq_zero_of_le (Nat.not_lt.1 hx)]
      rfl

/-- Without a block to pick the loop ends. -/
theorem turn_none {q : Queue Block} {p : Progress} (hp : Holds plain q p)
    (hpick : q.pick (maskOf p.s) = none) : turn k plain (blockCount plain) p = none := by
  have hlen : ¬ 0 < p.queue.length := by
    rw [hp.queue, Queue.pick_none hpick]
    exact Nat.lt_irrefl 0
  unfold turn
  rw [if_neg hlen]

/-- The loop puts out the blocks that the queue emits. -/
theorem loop_turn_emit (n : ℕ) : ∀ {q : Queue Block} {p : Progress}, Holds plain q p →
    q.values.length ≤ n → ∃ p', Lib.loop (turn k plain (blockCount plain)) (n + 1) p = some p' ∧
      p'.out = p.out ++ ((emit (link k) maskOf n p.s q).map Prod.snd).flatMap Block.bytes := by
  induction n with
  | zero =>
      intro q p hp hn
      have hheld : q.held = [] :=
        (List.append_eq_nil_iff.1 (List.length_eq_zero_iff.1 (Nat.le_zero.1 hn))).1
      have hpick : q.pick (maskOf p.s) = none := by
        rw [Queue.pick, hheld]
        rfl
      exact ⟨p, Lib.loop_done (turn_none hp hpick) 0, (List.append_nil _).symm⟩
  | succ n ih =>
      intro q p hp hn
      rw [emit]
      cases hpick : q.pick (maskOf p.s) with
      | none => exact ⟨p, Lib.loop_done (turn_none hp hpick) _, (List.append_nil _).symm⟩
      | some r =>
          obtain ⟨h, q'⟩ := r
          obtain ⟨p', hturn, hp', hs, hout⟩ := turn_pick (k := k) hp hpick
          have hlen : q'.values.length ≤ n := by
            have := (Queue.pick_perm hpick).length_eq
            rw [List.length_cons] at this
            omega
          obtain ⟨p'', hloop, hout'⟩ := ih hp' hlen
          refine ⟨p'', (Lib.loop_turn hturn _).trans hloop, ?_⟩
          rw [hout', hout, hs, List.append_assoc]
          rfl

/-- The variables while the queue is filled. -/
structure Filling (plain : List Byte) (p₀ p : Progress) : Prop where
  queue : p.queue = (List.range (p.x + 1)).map (blockAt plain)
  le : p.x ≤ blockCount plain ∧ p.x + 1 ≤ QUEUE_CAP
  same : p.idx = p₀.idx ∧ p.s = p₀.s ∧ p.out = p₀.out

/-- The first loop fills the queue. -/
theorem fill_holds {p₀ : Progress} (hqueue : p₀.queue = [blockAt plain 0]) (hx : p₀.x = 0)
    (hidx : p₀.idx = 0) :
    ∃ p, Holds plain ((numbers (blockCount plain + 1)).map (blockAt plain)) p ∧ p.s = p₀.s ∧
      p.out = p₀.out ∧
      ∀ n, QUEUE_CAP < n → Lib.loop (fill plain (blockCount plain)) n p₀ = some p := by
  have hstart : Filling plain p₀ p₀ := by
    refine ⟨?_, ?_, rfl, rfl, rfl⟩
    · rw [hqueue, hx]
      rfl
    · rw [hx]
      exact ⟨Nat.zero_le _, by decide⟩
  have hstep : ∀ p p', Filling plain p₀ p → fill plain (blockCount plain) p = some p' →
      Filling plain p₀ p' ∧ QUEUE_CAP - p'.x < QUEUE_CAP - p.x := by
    intro p p' hp hfill
    unfold fill at hfill
    split at hfill
    · rename_i hroom
      cases hfill
      have hlen := hroom.1
      rw [hp.queue, List.length_map, List.length_range] at hlen
      refine ⟨⟨?_, ⟨hroom.2, hlen⟩, hp.same⟩, ?_⟩
      · show p.queue ++ [readBlock plain p.x] = (List.range (p.x + 1 + 1)).map _
        have hrange : List.range (p.x + 1 + 1) = List.range (p.x + 1) ++ [p.x + 1] := List.range_succ
        rw [hp.queue, hrange, List.map_append]
        rfl
      · show QUEUE_CAP - (p.x + 1) < QUEUE_CAP - p.x
        omega
    · cases hfill
  obtain ⟨p, hp, hend, hloop⟩ := Lib.loop_spec hstep hstart
  have hfull : p.x + 1 = min (blockCount plain + 1) QUEUE_CAP := by
    unfold fill at hend
    split at hend
    · cases hend
    · rename_i hroom
      have hle := hp.le
      rw [hp.queue, List.length_map, List.length_range] at hroom
      omega
  refine ⟨p, ⟨?_, ?_, ?_⟩, hp.same.2.1, hp.same.2.2, fun n hn => hloop n (by omega)⟩
  · rw [hp.queue, hfull]
    rfl
  · show (List.range' QUEUE_CAP (blockCount plain + 1 - QUEUE_CAP)).map (blockAt plain) = _
    rcases Nat.lt_or_ge (blockCount plain) QUEUE_CAP with hlt | hge
    · have hzero : blockCount plain + 1 - QUEUE_CAP = 0 := by omega
      have hzero' : blockCount plain - p.x = 0 := by omega
      rw [hzero, hzero', List.range'_zero, List.range'_zero, List.map_nil, List.map_nil]
    · have hx' : QUEUE_CAP = 1 + p.x := by omega
      have hcount : blockCount plain + 1 - QUEUE_CAP = blockCount plain - p.x := by omega
      rw [hcount, hx', ← List.map_add_range', List.map_map]
      refine List.map_congr_left fun i _ => ?_
      show blockAt plain (1 + i) = _
      rw [Nat.add_comm]
      rfl
  · rw [hp.same.1, hidx]
    rfl

end Run

/-! ## The plaintext -/

/-- Decryption: the blocks of the ciphertext after its frame and token are replayed, and
the bytes of the found blocks are cut to the length that the first of them holds. -/
def decrypt (k : Key) (out : List Byte) : List Byte :=
  let body := out.drop (FRAME.length + 8)
  match (List.range (body.length / BLOCK)).map (readBlock body) with
  | [] => []
  | s :: cs =>
    let found := replay (unlink k) maskOf cs s (numbers cs.length)
    let block (i : ℕ) : Block := (found.lookup i).getD (0, 0)
    ((List.range (cs.length - 1)).flatMap fun i => (block (i + 1)).bytes).take (block 0).2.toNat

/-- The bytes around blocks of a ciphertext. -/
def framed (keys : Keys) (cs : List Block) : List Byte :=
  FRAME ++ keys.token.toList ++ cs.flatMap Block.bytes

/-- The blocks of a ciphertext can be read from its bytes. -/
theorem read_framed (keys : Keys) (cs : List Block) :
    (List.range (((framed keys cs).drop (FRAME.length + 8)).length / BLOCK)).map
      (readBlock ((framed keys cs).drop (FRAME.length + 8))) = cs := by
  have hhead : (FRAME ++ keys.token.toList).length = FRAME.length + 8 := by
    rw [List.length_append, Vector.length_toList]
  have hbody : (framed keys cs).drop (FRAME.length + 8) = cs.flatMap Block.bytes := by
    rw [framed, ← hhead, List.drop_left]
  rw [hbody, length_flatMap_bytes, Nat.mul_div_cancel _ (by decide)]
  exact map_readBlock cs

/-- The decryption of the blocks that a queue of the numbers emits. -/
theorem decrypt_framed (keys : Keys) (s : Block) {plain : List Byte} (h : plain.length < 2 ^ 32)
    {cs : List Block} {is : List ℕ} (hcs : cs.length = blockCount plain + 1)
    (his : is.Perm (List.range (blockCount plain + 1)))
    (hreplay : replay (unlink keys.key) maskOf cs s (numbers cs.length)
      = is.map fun i => (i, blockAt plain i)) :
    decrypt keys.key (framed keys (s :: cs)) = plain := by
  have hblock : ∀ i, i < blockCount plain + 1 →
      ((replay (unlink keys.key) maskOf cs s (numbers cs.length)).lookup i).getD (0, 0)
        = blockAt plain i := by
    intro i hi
    rw [hreplay, List.lookup_graph (blockAt plain) (his.mem_iff.2 (List.mem_range.2 hi))]
    rfl
  have hlength : (blockAt plain 0).2.toNat = plain.length := by
    show plain.length % 2 ^ 32 = _
    exact Nat.mod_eq_of_lt h
  have hcount : plain.length ≤ blockCount plain * BLOCK := by
    have hdiv := Nat.div_add_mod (plain.length + 7) 8
    show plain.length ≤ (plain.length + 7) / 8 * 8
    omega
  unfold decrypt
  dsimp only
  rw [read_framed]
  dsimp only
  rw [hblock 0 (Nat.succ_pos _), hlength, hcs, Nat.add_sub_cancel]
  have hblocks : ((List.range (blockCount plain)).flatMap fun i =>
      (((replay (unlink keys.key) maskOf cs s (numbers (blockCount plain + 1))).lookup
        (i + 1)).getD (0, 0)).bytes)
        = (List.range (blockCount plain)).flatMap fun i => (readBlock plain i).bytes := by
    refine List.flatMap_congr fun i hi => ?_
    rw [← hcs, hblock (i + 1) (Nat.succ_lt_succ (List.mem_range.1 hi))]
    rfl
  rw [hblocks, flatMap_readBlock]
  exact take_map_getD plain _ hcount

theorem encrypt_eq (plain : List Byte) (keys : Keys) (iv : Vector Byte 8) (n : ℕ) :
    encrypt plain keys iv n = (Lib.loop (fill plain (blockCount plain)) n
      ⟨[blockAt plain 0], 0, 0, firstBlock keys iv,
        FRAME ++ keys.token.toList ++ (firstBlock keys iv).bytes⟩).bind fun p =>
          (Lib.loop (turn keys.key plain (blockCount plain)) n p).bind fun p => some p.out :=
  rfl

/-- **Encryption loses nothing**: it ends with the frame, the token and one block for the
prefix and for each block of the plaintext, in an order that the ciphertext determines, and
the plaintext can be decrypted. -/
theorem encrypt_decrypts (keys : Keys) (iv : Vector Byte 8) (plain : List Byte)
    (h : plain.length < 2 ^ 32) :
    ∃ out, (∃ n, ∀ m, n < m → encrypt plain keys iv m = some out) ∧
      (∃ picked : List Block, picked.Perm (blocksOf plain) ∧ out = framed keys
        (firstBlock keys iv :: chained (link keys.key) (firstBlock keys iv) picked)) ∧
      decrypt keys.key out = plain := by
  let start : Progress := ⟨[blockAt plain 0], 0, 0, firstBlock keys iv,
    FRAME ++ keys.token.toList ++ (firstBlock keys iv).bytes⟩
  have hqueue : start.queue = [blockAt plain 0] := rfl
  obtain ⟨p, hp, hs, hout, hfill⟩ := fill_holds hqueue rfl rfl
  have hvalues := values_numbers (blockCount plain + 1)
  have hlen : (numbers (blockCount plain + 1)).values.length = blockCount plain + 1 := by
    rw [hvalues, List.length_range]
  have hsize : ((numbers (blockCount plain + 1)).map (blockAt plain)).values.length
      ≤ blockCount plain + 1 := by
    rw [Queue.values, Queue.map, ← List.map_append, List.length_map]
    exact Nat.le_of_eq hlen
  obtain ⟨p', hturn, hout'⟩ := loop_turn_emit (k := keys.key) (blockCount plain + 1) hp hsize
  obtain ⟨is, his, hfst, hreplay⟩ := Lib.replay_emit (link keys.key) (unlink keys.key) maskOf
    (unlink_link keys.key) (blockAt plain) (blockCount plain + 1) (firstBlock keys iv)
    (numbers (blockCount plain + 1)) (fed_numbers _) (Nat.le_of_eq hlen)
  have hsnd := Lib.snd_emit (link keys.key) maskOf (blockCount plain + 1) (firstBlock keys iv)
    ((numbers (blockCount plain + 1)).map (blockAt plain))
  rw [hfst] at hsnd
  rw [hs, hout, hsnd] at hout'
  rw [hsnd] at hreplay
  have hcount : (chained (link keys.key) (firstBlock keys iv) (is.map (blockAt plain))).length
      = blockCount plain + 1 := by
    rw [Lib.length_chained, List.length_map, his.length_eq, hlen]
  have hframed : p'.out = framed keys (firstBlock keys iv ::
      chained (link keys.key) (firstBlock keys iv) (is.map (blockAt plain))) := by
    rw [hout', framed, List.flatMap_cons, List.append_assoc]
  rw [hvalues] at his
  refine ⟨p'.out, ⟨blockCount plain + 1 + QUEUE_CAP, fun m hm => ?_⟩,
    ⟨is.map (blockAt plain), his.map _, hframed⟩, ?_⟩
  · have hloop := Lib.loop_mono hturn (Nat.succ_le_of_lt (by omega : blockCount plain + 1 < m))
    rw [encrypt_eq, hfill m (by omega), Option.bind_some, hloop]
    rfl
  · rw [hframed]
    exact decrypt_framed keys _ h hcount his (hcount ▸ hreplay)

/-- Three bytes under the key of zeros. -/
theorem encrypt_decrypts_three :
    ∃ out, (∃ n, ∀ m, n < m → encrypt [1, 2, 3] ⟨⟨#[0, 0, 0, 0], rfl⟩, Vector.replicate 8 0⟩
        (Vector.replicate 8 0) m = some out) ∧
      decrypt ⟨#[0, 0, 0, 0], rfl⟩ out = [1, 2, 3] := by
  obtain ⟨out, hrun, -, hdecrypt⟩ := encrypt_decrypts ⟨⟨#[0, 0, 0, 0], rfl⟩, Vector.replicate 8 0⟩
    (Vector.replicate 8 0) [1, 2, 3] (by decide)
  exact ⟨out, hrun, hdecrypt⟩

end Assemble
end Lunar
