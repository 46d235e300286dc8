/-
# The chain of answers

`encode` looks for one nonce after the other, each against the digest that the nonces
before it left.  `Link` says that a nonce is the least one that clears the threshold,
`Chained` that every answer is one against the digest after the answers before it.
`solveAll_eq` says that the loop of `encode` finds a chain of the length asked for, or
stops at the first link that has no nonce.
-/

import Lunar.Lib.Loop
import Lunar.Worktime.Encoder.Body

namespace Lunar
namespace Worktime
namespace Encoder

open Lib (Double Json)

section Chain

variable (hash : List UInt8 → Digest) (score : Digest → Double) (threshold : Double)

/-- The digest that a nonce leaves, in hexadecimal. -/
def next (current : List Char) (nonce : UInt32) : List Char :=
  hexEncode (chain hash (writeU64 nonce.toNat) current).toList

/-- The score of a nonce reaches the threshold. -/
def Clears (current : List Char) (nonce : ℕ) : Prop :=
  (score (chain hash (writeU64 nonce) current)).ge threshold = true

/-- A nonce within the bound is the least one that clears the threshold. -/
structure Link (current : List Char) (nonce : UInt32) : Prop where
  pos : 1 ≤ nonce.toNat
  le_max : nonce.toNat ≤ MAX_NONCE_PER_SUB
  clears : Clears hash score threshold current nonce.toNat
  least : ∀ n, 1 ≤ n → n < nonce.toNat → ¬ Clears hash score threshold current n

/-- No nonce within the bound clears the threshold. -/
def NoNonce (current : List Char) : Prop :=
  ∀ n, 1 ≤ n → n ≤ MAX_NONCE_PER_SUB → ¬ Clears hash score threshold current n

/-- The digest chained from a first one through some answers. -/
def digestAfter (seed : List Char) (answers : List UInt32) : List Char :=
  answers.foldl (next hash) seed

/-- Every answer is the least nonce against the digest after the answers before it. -/
def Chained (seed : List Char) (answers : List UInt32) : Prop :=
  ∀ i (h : i < answers.length),
    Link hash score threshold (digestAfter hash seed (answers.take i)) answers[i]

variable {hash score threshold}

/-! ## One link -/

theorem solveFrom_eq {current : List Char} {tries nonce : ℕ}
    (hend : nonce + tries = MAX_NONCE_PER_SUB + 1) (hpos : 1 ≤ nonce)
    (hleast : ∀ n, 1 ≤ n → n < nonce → ¬ Clears hash score threshold current n) :
    match solveFrom hash score threshold current tries nonce with
    | some (a, after) => Link hash score threshold current a ∧ after = next hash current a
    | none => NoNonce hash score threshold current := by
  induction tries generalizing nonce with
  | zero =>
      rw [solveFrom]
      intro n hn hle
      exact hleast n hn (by omega)
  | succ tries ih =>
      rw [solveFrom]
      by_cases hclears : (score (chain hash (writeU64 nonce) current)).ge threshold = true
      · have hnonce : (UInt32.ofNat nonce).toNat = nonce := by
          rw [MAX_NONCE_PER_SUB] at hend
          exact UInt32.toNat_ofNat_of_lt' (by show nonce < 2 ^ 32; omega)
        rw [if_pos hclears]
        refine ⟨⟨?_, ?_, ?_, ?_⟩, by rw [next, hnonce]⟩
        · rw [hnonce]
          exact hpos
        · rw [hnonce]
          omega
        · rw [hnonce]
          exact hclears
        · rw [hnonce]
          exact hleast
      · rw [if_neg hclears]
        refine ih (by omega) (by omega) fun n hn hlt => ?_
        rcases Nat.lt_succ_iff_lt_or_eq.1 hlt with hlt | rfl
        · exact hleast n hn hlt
        · exact hclears

/-- **`solve_sub` finds the least nonce**, if there is one within the bound. -/
theorem solveSub_eq (current : List Char) :
    match solveSub hash score current threshold with
    | some (a, after) => Link hash score threshold current a ∧ after = next hash current a
    | none => NoNonce hash score threshold current :=
  solveFrom_eq (Nat.add_comm _ _) (Nat.le_refl 1) fun _ hn hlt => absurd hn (Nat.not_le.2 hlt)

/-! ## The whole chain -/

theorem Chained.concat {seed : List Char} {answers : List UInt32} {a : UInt32}
    (h : Chained hash score threshold seed answers)
    (ha : Link hash score threshold (digestAfter hash seed answers) a) :
    Chained hash score threshold seed (answers ++ [a]) := by
  intro i hi
  rw [List.length_append, List.length_singleton] at hi
  rcases Nat.lt_succ_iff_lt_or_eq.1 hi with hlt | rfl
  · rw [List.take_append_of_le_length hlt.le, List.getElem_append_left hlt]
    exact h i hlt
  · rw [List.take_left, List.getElem_concat_length rfl]
    exact ha

/-- A chain that cannot go on, shorter than `n`. -/
def Stuck (hash : List UInt8 → Digest) (score : Digest → Double) (threshold : Double)
    (seed : List Char) (n : ℕ) : Prop :=
  ∃ answers : List UInt32, answers.length < n ∧ Chained hash score threshold seed answers ∧
    NoNonce hash score threshold (digestAfter hash seed answers)

/-- **The loop of `encode` finds the chain**, or one that cannot go on. -/
theorem solveAll_eq {seed : List Char} {left sub : ℕ} {answers : List UInt32}
    (h : Chained hash score threshold seed answers) :
    match solveAll hash score threshold left sub (digestAfter hash seed answers) answers with
    | .ok all => all.length = answers.length + left ∧ Chained hash score threshold seed all
    | .error _ => Stuck hash score threshold seed (answers.length + left) := by
  induction left generalizing sub answers with
  | zero => exact ⟨rfl, h⟩
  | succ left ih =>
      have hsub := @solveSub_eq hash score threshold (digestAfter hash seed answers)
      rw [solveAll]
      rcases heq : solveSub hash score (digestAfter hash seed answers) threshold with _ | ⟨a, after⟩
      · rw [heq] at hsub
        exact ⟨answers, Nat.lt_add_of_pos_right (Nat.succ_pos left), h, hsub⟩
      · rw [heq] at hsub
        obtain ⟨hlink, rfl⟩ := hsub
        have hafter : next hash (digestAfter hash seed answers) a =
            digestAfter hash seed (answers ++ [a]) := by
          rw [digestAfter, digestAfter, List.foldl_append]
          rfl
        have hrest := @ih (sub + 1) _ (h.concat hlink)
        rw [List.length_append, List.length_singleton, Nat.add_right_comm] at hrest
        dsimp only
        rw [hafter]
        exact hrest

theorem Link.unique {current : List Char} {a b : UInt32}
    (ha : Link hash score threshold current a) (hb : Link hash score threshold current b) :
    a = b := by
  refine UInt32.toNat_inj.1 ?_
  rcases Nat.lt_trichotomy a.toNat b.toNat with h | h | h
  · exact absurd ha.clears (hb.least _ ha.pos h)
  · exact h
  · exact absurd hb.clears (ha.least _ hb.pos h)

/-- Two chains from one seed agree as far as both go. -/
theorem Chained.take_eq {seed : List Char} {xs ys : List UInt32}
    (hx : Chained hash score threshold seed xs) (hy : Chained hash score threshold seed ys)
    {n : ℕ} (hxn : n ≤ xs.length) (hyn : n ≤ ys.length) : xs.take n = ys.take n := by
  induction n with
  | zero => rw [List.take_zero, List.take_zero]
  | succ n ih =>
      have htake := ih (Nat.le_of_succ_le hxn) (Nat.le_of_succ_le hyn)
      have hlink := hx n hxn
      rw [htake] at hlink
      rw [List.take_add_one, List.take_add_one, htake, List.getElem?_eq_getElem hxn,
        List.getElem?_eq_getElem hyn, hlink.unique (hy n hyn)]

/-- A chain of a length and one that is stuck before it do not go together. -/
theorem Chained.not_stuck {seed : List Char} {answers : List UInt32}
    (h : Chained hash score threshold seed answers) :
    ¬ Stuck hash score threshold seed answers.length := by
  rintro ⟨stuck, hlt, hstuck, hno⟩
  have hlink := h stuck.length hlt
  rw [h.take_eq hstuck hlt.le (Nat.le_refl _), List.take_length] at hlink
  exact hno _ hlink.pos hlink.le_max hlink.clears

theorem threshold_eq {p : PowParams} (hdiff : p.difficulty.gt .zero = true)
    (hcount : p.subCount ≠ 0) :
    Encoder.threshold p =
      if (p.difficulty.div (.ofNat p.subCount.toNat)).gt TWO_POW_52 then
        .error (.unsatisfiable (p.difficulty.div (.ofNat p.subCount.toNat)) p.difficulty p.subCount)
      else .ok (p.difficulty.div (.ofNat p.subCount.toNat)) := by
  rw [Encoder.threshold, if_neg hcount, hdiff, Bool.not_true, if_neg Bool.false_ne_true]

/-- The receive time that the body carries. -/
def receiveTime (p : PowParams) (later : ℕ) : Int64 := if 0 < p.rst then p.rst else .ofNat later

/-- `encode` when nothing but the threshold, the chain and the times can fail. -/
theorem encode_eq {w : World} {p : PowParams} {now later : ℕ} {q : Double}
    (hdiff : p.difficulty.gt .zero = true) (hcount : p.subCount ≠ 0) (hst : 0 < p.st)
    (hnow : w.now = some now) (hlater : w.later = some later) (hnow' : now < 2 ^ 63)
    (hlater' : later < 2 ^ 63) (hq : q = p.difficulty.div (.ofNat p.subCount.toNat)) :
    encode hash score w p =
      if q.gt TWO_POW_52 then .error (.unsatisfiable q p.difficulty p.subCount)
      else solveAll hash score q p.subCount.toNat 0 (seedHex hash p (.ofNat now) w.id) [] >>=
        fun answers => encodeCd (.ofNat now) w.id answers (drawDurationTenths w.byte) p.st
          (receiveTime p later) := by
  have hno : ¬ p.st ≤ 0 := Int64.not_le.2 hst
  have hthreshold := threshold_eq hdiff hcount
  rw [← hq] at hthreshold
  rw [encode, if_neg hno, hthreshold, hnow, hlater, nowMs, if_pos hnow', receiveTime]
  split
  · rfl
  · have hlast (answers : List UInt32) :
        (if 0 < p.rst then encodeCd (.ofNat now) w.id answers (drawDurationTenths w.byte) p.st p.rst
        else nowMs (some later) >>= fun rst =>
          encodeCd (.ofNat now) w.id answers (drawDurationTenths w.byte) p.st rst) =
        encodeCd (.ofNat now) w.id answers (drawDurationTenths w.byte) p.st
          (if 0 < p.rst then p.rst else .ofNat later) := by
      split
      · rfl
      · rw [nowMs, if_pos hlater']
        rfl
    rw [← funext hlast]
    rfl

/-- **`encode` carries the chain, and fails only for want of one.**  With a positive
difficulty, count and server time and a clock that reads `now` and later `later`, a body
reads as fields whose answers are the chain of the length asked for, and there is no body
exactly when the threshold is above the maximum score, a link has no nonce within the
bound, or the receive time is not positive. -/
theorem encode_spec (hash : List UInt8 → Digest) (score : Digest → Double) (w : World)
    (p : PowParams) (now later : ℕ) (q : Double) (seed : List Char)
    (hdiff : p.difficulty.gt .zero = true) (hcount : p.subCount ≠ 0) (hst : 0 < p.st)
    (hnow : w.now = some now) (hlater : w.later = some later) (hnow' : now < 2 ^ 63)
    (hlater' : later < 2 ^ 63) (hq : q = p.difficulty.div (.ofNat p.subCount.toNat))
    (hseed : seed = seedHex hash p (.ofNat now) w.id) :
    (∀ body, encode hash score w p = .ok body →
      ∃ answers, answers.length = p.subCount.toNat ∧ Chained hash score q seed answers ∧
        Json.parse body = some (fields (.ofNat now) w.id answers (drawDurationTenths w.byte) p.st
          (receiveTime p later))) ∧
    ((∃ e, encode hash score w p = .error e) ↔
      q.gt TWO_POW_52 = true ∨ Stuck hash score q seed p.subCount.toNat ∨
        receiveTime p later ≤ 0) := by
  have hencode := @encode_eq hash score w p now later q hdiff hcount hst hnow hlater hnow' hlater' hq
  rw [← hseed] at hencode
  have hnil : Chained hash score q seed [] := fun i h => absurd h (Nat.not_lt_zero i)
  have hsolve := @solveAll_eq hash score q seed p.subCount.toNat 0 [] hnil
  rw [List.length_nil, Nat.zero_add] at hsolve
  have hcount' : p.subCount.toNat ≠ 0 := fun h => hcount (UInt32.toNat_inj.1 h)
  by_cases hq' : q.gt TWO_POW_52 = true
  · rw [if_pos hq'] at hencode
    rw [hencode]
    exact ⟨fun _ h => (by cases h), iff_of_true ⟨_, rfl⟩ (.inl hq')⟩
  rw [if_neg hq'] at hencode
  change encode hash score w p = solveAll hash score q p.subCount.toNat 0
    (digestAfter hash seed []) [] >>= _ at hencode
  rcases hall : solveAll hash score q p.subCount.toNat 0 (digestAfter hash seed []) [] with e | all
  · rw [hall] at hencode hsolve
    rw [hencode]
    exact ⟨fun _ h => (by cases h), iff_of_true ⟨e, rfl⟩ (.inr (.inl hsolve))⟩
  rw [hall] at hencode hsolve
  obtain ⟨hlen, hchained⟩ := hsolve
  have hstuck : ¬ Stuck hash score q seed p.subCount.toNat := hlen ▸ hchained.not_stuck
  have hencode' : encode hash score w p = encodeCd (.ofNat now) w.id all
    (drawDurationTenths w.byte) p.st (receiveTime p later) := hencode
  by_cases hrst : receiveTime p later ≤ 0
  · have hfail : encode hash score w p = .error (.receiveTime (receiveTime p later)) := by
      rw [hencode', encodeCd.eq_def, if_neg (Int64.not_le.2 hst), if_pos hrst]
    rw [hfail]
    exact ⟨fun _ h => (by cases h), iff_of_true ⟨_, rfl⟩ (.inr (.inr hrst))⟩
  · obtain ⟨answer, answers, hcons⟩ : ∃ a as, all = a :: as :=
      List.exists_cons_of_ne_nil fun h => hcount' (by rw [← hlen, h]; rfl)
    rw [hcons] at hencode' hlen hchained
    obtain ⟨cd, hcd, hwrites⟩ := @encodeCd_writes (.ofNat now) _ _ _ answer answers
      (drawDurationTenths w.byte) (hexEncode_plain w.raw.toList) hst
      (Int64.not_le.1 hrst)
    have hok : encode hash score w p = .ok cd := hencode'.trans hcd
    rw [hok]
    refine ⟨fun body h => ?_, iff_of_false (fun h => ?_) ?_⟩
    · rw [← Except.ok.inj h]
      exact ⟨answer :: answers, hlen, hchained, Lib.Json.parse_of_writes hwrites⟩
    · obtain ⟨e, he⟩ := h
      cases he
    · rintro (h | h | h)
      · exact hq' h
      · exact hstuck h
      · exact hrst h

end Chain

/-! ## A challenge that every nonce solves -/

def easyHash (_ : List UInt8) : Digest := Vector.replicate 32 0

def easyScore (_ : Digest) : Double := .ofNat 2

def easyParams : PowParams where
  ct := []
  seedPhrase := []
  difficulty := .ofNat 1
  subCount := 1
  seedSuffix := []
  st := 1
  rst := 0

def easyWorld (later : ℕ) : World where
  now := some 5
  later := some later
  raw := Vector.replicate ID_BYTES 0
  byte := 0

theorem encode_spec_easy :
    (∃ e, encode easyHash easyScore (easyWorld 7) easyParams = .error e) ↔
      (easyParams.difficulty.div (.ofNat easyParams.subCount.toNat)).gt TWO_POW_52 = true ∨
        Stuck easyHash easyScore (easyParams.difficulty.div (.ofNat easyParams.subCount.toNat))
          (seedHex easyHash easyParams (.ofNat 5) (easyWorld 7).id) easyParams.subCount.toNat ∨
        receiveTime easyParams 7 ≤ 0 :=
  (encode_spec easyHash easyScore (easyWorld 7) easyParams 5 7 _ _ (by decide +kernel) (by decide)
    (by decide) rfl rfl (by omega) (by omega) rfl rfl).2

/-- The clock reads zero when the answers are ready: the threshold is low, every link has a
nonce, and there is no body. -/
theorem encode_epoch :
    encode easyHash easyScore (easyWorld 0) easyParams = .error (.receiveTime 0) ∧
      (easyParams.difficulty.div (.ofNat easyParams.subCount.toNat)).gt TWO_POW_52 = false ∧
      ∀ seed, ¬ Stuck easyHash easyScore
        (easyParams.difficulty.div (.ofNat easyParams.subCount.toNat)) seed
        easyParams.subCount.toNat := by
  refine ⟨by decide +kernel, by decide +kernel, fun seed => ?_⟩
  rintro ⟨answers, -, -, hno⟩
  have hclears : (Double.ofNat 2).ge
      (easyParams.difficulty.div (.ofNat easyParams.subCount.toNat)) = true := by decide +kernel
  exact hno 1 (Nat.le_refl 1) (by decide) hclears

end Encoder
end Worktime
end Lunar
