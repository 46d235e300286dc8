/-
# Extracted parameters are solvable

What `extract` and `apply` hand to the encoder has a finite positive difficulty and a count
of at least one that is the number of the literal or of the document (`solvable`).  The
numbers of a literal are integers because `numeric` lets nothing else through, and this is
kept through `params_of`, `scan_tree` and the choice of a literal; the bounds are those
that `extract` checks at its end.
-/

import Lunar.Worktime.Config
import Lunar.Worktime.Encoder.Chain
import Lunar.Worktime.Fc.Apply

namespace Lunar
namespace Worktime
namespace Config

open Lib (Double bind_ok bind_error)

/-! ## Numbers of a literal -/

/-- A number of a literal: finite, and an integer. -/
def Numeric (x : Double) : Prop := x.isFinite = true ∧ x.isInt = true

theorem numeric_ok {v : Val} {x : Double} (h : numeric v = some x) : Numeric x := by
  cases v with
  | int i =>
      rw [← Option.some_inj.1 h]
      exact ⟨rfl, Double.isInt_ofInt i⟩
  | dbl d =>
      rw [numeric] at h
      split at h
      · next hd =>
          rw [← Option.some_inj.1 h]
          exact Bool.and_eq_true_iff.1 hd
      · cases h
  | str | bool | null | undef | node => cases h

theorem field_numeric {s s' : Found} {field : Key × Val} (h : s.field field = some s')
    (hs : ∀ n ∈ s.nums, Numeric n.2) : ∀ n ∈ s'.nums, Numeric n.2 := by
  have hnum (k : PoolRef) (v : Val) (h : (do
      let x ← numeric v
      if s.nums.length = 2 then none else some { s with nums := s.nums ++ [(k, x)] }) = some s') :
      ∀ n ∈ s'.nums, Numeric n.2 := by
    obtain ⟨x, hx, h⟩ := Option.bind_eq_some_iff.1 h
    split at h
    · cases h
    · rw [← Option.some_inj.1 h]
      refine List.forall_mem_append.2 ⟨hs, ?_⟩
      rw [List.forall_mem_singleton]
      exact numeric_ok hx
  obtain ⟨_ | _, v⟩ := field
  · cases v with
    | str r =>
        rw [Found.field] at h
        split at h
        · cases h
        · rw [← Option.some_inj.1 h]
          exact hs
    | int | dbl | bool | null | undef | node => exact hnum _ _ h
  · cases h

theorem fields_numeric {fields : List (Key × Val)} {s s' : Found}
    (h : fields.foldlM Found.field s = some s') (hs : ∀ n ∈ s.nums, Numeric n.2) :
    ∀ n ∈ s'.nums, Numeric n.2 := by
  induction fields generalizing s with
  | nil =>
      rw [← Option.some_inj.1 h]
      exact hs
  | cons field fields ih =>
      rw [List.foldlM_cons] at h
      obtain ⟨t, ht, h⟩ := Option.bind_eq_some_iff.1 h
      exact ih h (field_numeric ht hs)

/-- Parameters both numbers of which are numbers of a literal. -/
def Params.Numeric (p : Params) : Prop := Config.Numeric p.num0.2 ∧ Config.Numeric p.num1.2

theorem paramsOf_numeric {node : Node} {p : Params} (h : paramsOf node = some p) : p.Numeric := by
  rw [paramsOf] at h
  split at h
  · cases h
  · obtain ⟨s, hs, h⟩ := Option.bind_eq_some_iff.1 h
    have hnums := fields_numeric hs fun _ hn => absurd hn List.not_mem_nil
    split at h
    · next n0 n1 heq =>
        obtain ⟨suffix, -, h⟩ := Option.bind_eq_some_iff.1 h
        rw [← Option.some_inj.1 h]
        rw [heq] at hnums
        exact ⟨hnums n0 List.mem_cons_self, hnums n1 (List.mem_cons_of_mem _ List.mem_cons_self)⟩
    · cases h

/-! ## The scan -/

/-- The node of the proof of work that a scan has found holds numbers of a literal. -/
def Scan.Numeric (s : Scan) : Prop := ∀ pow, s.pow = some pow → pow.params.Numeric

theorem powOf_numeric {arena : List Node} {node : Node} {g : Gathered} {pow : Pow}
    (h : powOf arena node g = some pow) : pow.params.Numeric := by
  rw [powOf] at h
  split at h
  · obtain ⟨hex, -, h⟩ := Option.bind_eq_some_iff.1 h
    obtain ⟨c, -, h⟩ := Option.bind_eq_some_iff.1 h
    obtain ⟨child, -, h⟩ := Option.bind_eq_some_iff.1 h
    obtain ⟨params, hparams, h⟩ := Option.bind_eq_some_iff.1 h
    rw [← Option.some_inj.1 h]
    exact paramsOf_numeric hparams
  · cases h

/-- Fields of a node do not change the node found. -/
theorem field_pow (arena : List Node) (pool : List ℕ) (parent : Option PoolRef) (g : Gathered)
    (field : Key × Val) : (g.field arena pool parent field).scan.pow = g.scan.pow := by
  obtain ⟨key, v⟩ := field
  cases v with
  | str r =>
      simp only [Gathered.field]
      split
      · rfl
      · cases key with
        | str k =>
            dsimp only
            split
            · rfl
            · rfl
        | idx i => rfl
  | node c =>
      simp only [Gathered.field]
      split_ifs
      all_goals rfl
  | int | dbl | bool | null | undef => rfl

theorem fields_pow (arena : List Node) (pool : List ℕ) (parent : Option PoolRef)
    (fields : List (Key × Val)) (g : Gathered) :
    (fields.foldl (Gathered.field arena pool parent) g).scan.pow = g.scan.pow := by
  induction fields generalizing g with
  | nil => rfl
  | cons field fields ih => rw [List.foldl_cons, ih, field_pow]

theorem scanLoop_numeric {arena : List Node} {pool : List ℕ} {turns : ℕ} {scan : Scan}
    {visited : List ℕ} {stack : List (ℕ × Option PoolRef)} (h : scan.Numeric) :
    (scanLoop arena pool turns scan visited stack).1.Numeric := by
  induction turns generalizing scan visited stack with
  | zero => exact h
  | succ turns ih =>
      cases stack with
      | nil => exact h
      | cons top stack =>
          obtain ⟨id, parent⟩ := top
          rw [scanLoop]
          split
          · exact h
          · next node _ =>
              refine ih ?_
              have hpow := fields_pow arena pool parent node.fields
                ⟨scan, visited, stack, 0, none, 0, none⟩
              intro pow heq
              split at heq
              · next found hfound =>
                  rw [← Option.some_inj.1 heq]
                  exact powOf_numeric hfound
              · exact h pow (hpow.symm.trans heq)

theorem scanTree_numeric (arena : List Node) (pool : List ℕ) (root : ℕ) (visited : List ℕ) :
    (scanTree arena pool root visited).1.Numeric :=
  scanLoop_numeric fun _ h => nomatch h

theorem configs_numeric (arena : List Node) (pool : List ℕ) (blocks : List Block) {s : Configs}
    (h : ∀ f, s.found = some f → f.2.Numeric) :
    ∀ f, (blocks.foldl (Configs.step arena pool) s).found = some f → f.2.Numeric := by
  induction blocks generalizing s with
  | nil => exact h
  | cons b blocks ih =>
      refine ih fun f hf => ?_
      rw [Configs.step] at hf
      dsimp only at hf
      split at hf
      · rcases hfound : s.found with _ | old
        · rw [hfound] at hf
          rw [← Option.some_inj.1 hf]
          exact scanTree_numeric arena pool b.root s.visited
        · rw [hfound] at hf
          exact h f (hfound.trans hf)
      · exact h f hf

/-! ## The choice -/

/-- What `extract` has chosen: numbers of a literal, within the bounds it checks. -/
structure Choice.Good (c : Choice) : Prop where
  num_finite : c.num.2.isFinite = true
  num_pos : c.num.2.gt .zero = true
  den_int : c.den.2.isInt = true
  den_pos : c.den.2.ge .one = true
  den_le : c.den.2.le U32_MAX = true

theorem onlyConfig_ok {s : Configs} {f : Block × Scan} (h : onlyConfig s = .ok f) :
    s.found = some f := by
  rw [onlyConfig] at h
  split at h
  · next heq => rw [heq, Except.ok.inj h]
  all_goals cases h

theorem onlyPow_ok {scan : Scan} {pow : Pow} (h : onlyPow scan = .ok pow) :
    scan.pow = some pow := by
  rw [onlyPow] at h
  split_ifs at h
  split at h
  · next heq => rw [heq, Except.ok.inj h]
  · cases h

theorem checkBounds_ok {num den : Double} (h : checkBounds num den = .ok ()) :
    num.gt .zero = true ∧ den.ge .one = true ∧ den.le U32_MAX = true := by
  rw [checkBounds] at h
  split_ifs at h with hnum hden
  simp only [Bool.not_eq_true', Bool.not_eq_false, Bool.and_eq_true] at hnum hden
  exact ⟨hnum, hden⟩

theorem choose_good {instrs : List Instr} {pool : List ℕ} {c : Choice}
    (h : choose instrs pool = .ok c) : c.Good := by
  obtain ⟨f, hf, h⟩ := bind_ok h
  obtain ⟨pow, hpow, h⟩ := bind_ok h
  obtain ⟨first, -, h⟩ := bind_ok h
  obtain ⟨⟨⟩, hbounds, h⟩ := bind_ok h
  obtain ⟨⟨⟩, -, h⟩ := bind_ok h
  obtain ⟨hnum, hone, hmax⟩ := checkBounds_ok hbounds
  have hnumeric := configs_numeric (s := ⟨[], 0, none⟩) _ _ _ (fun _ h => nomatch h) f (onlyConfig_ok hf) pow
    (onlyPow_ok hpow)
  rw [← Except.ok.inj h]
  cases first with
  | true => exact ⟨hnumeric.1.1, hnum, hnumeric.2.2, hone, hmax⟩
  | false => exact ⟨hnumeric.2.1, hnum, hnumeric.1.2, hone, hmax⟩

/-- The count of the configuration is the denominator chosen, and not cut off. -/
theorem extract_ok {instrs : List Instr} {pool : List ℕ} {config : PowConfig}
    (h : extract instrs pool = .ok config) :
    config.difficulty.isFinite = true ∧ config.difficulty.gt .zero = true ∧
      1 ≤ config.subCount.toNat ∧
      ∃ c, choose instrs pool = .ok c ∧ c.den.2 = .ofNat config.subCount.toNat := by
  obtain ⟨c, hc, h⟩ := bind_ok h
  have hgood := choose_good hc
  obtain ⟨k, hpos, hle, hk⟩ :=
    Double.exists_ofNat hgood.den_int hgood.den_pos hgood.den_le (by omega)
  have hcount : config.subCount.toNat = k := by
    rw [← Except.ok.inj h, hk, Double.toU_ofNat (by omega) (by omega)]
    exact UInt32.toNat_ofNat_of_lt' (by show k < 2 ^ 32; omega)
  refine ⟨?_, ?_, hcount ▸ hpos, c, hc, hcount ▸ hk⟩
  · rw [← Except.ok.inj h]
    exact hgood.num_finite
  · rw [← Except.ok.inj h]
    exact hgood.num_pos

/-! ## The parameters of the encoder -/

open Encoder (PowParams EncoderError threshold encode)

/-- `params` of `routes/worktime.rs`. -/
def powParams (config : PowConfig) (values : Fc.FcValues) (ct : String) (st rst : Int64) :
    PowParams where
  ct := ct.toList
  seedPhrase := (values.seedPhrase.getD config.seedPhrase).toList
  difficulty := values.difficulty.getD config.difficulty
  subCount := values.subCount.getD config.subCount
  seedSuffix := (values.seedSuffix.getD config.seedSuffix).toList
  st := st
  rst := rst

/-- The errors that do not come from the parameters of the challenge: it has no solution
within the bounds, or a time is not one. -/
inductive OfTimesOrSearch : EncoderError → Prop
  | unsatisfiable (t d : Double) (n : UInt32) : OfTimesOrSearch (.unsatisfiable t d n)
  | nonceCap (t : Double) (sub : ℕ) : OfTimesOrSearch (.nonceCap t sub)
  | serverTime (st : Int64) : OfTimesOrSearch (.serverTime st)
  | receiveTime (rst : Int64) : OfTimesOrSearch (.receiveTime rst)
  | clock : OfTimesOrSearch .clock

theorem threshold_error {p : PowParams} {e : EncoderError} (hdiff : p.difficulty.gt .zero = true)
    (hcount : p.subCount ≠ 0) (h : threshold p = .error e) :
    ∃ t, e = .unsatisfiable t p.difficulty p.subCount := by
  rw [Encoder.threshold_eq hdiff hcount] at h
  split at h
  · exact ⟨_, (Except.error.inj h).symm⟩
  · cases h

theorem nowMs_error {reading : Option ℕ} {e : EncoderError} (h : Encoder.nowMs reading = .error e) :
    e = .clock := by
  rw [Encoder.nowMs.eq_def] at h
  split at h
  · exact (Except.error.inj h).symm
  · split at h
    · cases h
    · exact (Except.error.inj h).symm

theorem solveAll_error {hash : List UInt8 → Encoder.Digest} {score : Encoder.Digest → Double}
    {t : Double} {left sub : ℕ} {current : List Char} {answers : List UInt32} {e : EncoderError}
    (h : Encoder.solveAll hash score t left sub current answers = .error e) :
    ∃ sub, e = .nonceCap t sub := by
  induction left generalizing sub current answers with
  | zero => cases h
  | succ left ih =>
      rw [Encoder.solveAll] at h
      split at h
      · exact ih h
      · exact ⟨sub, (Except.error.inj h).symm⟩

theorem encodeCd_error {workTime st rst : Int64} {id : List Char} {answers : List UInt32}
    {tenths : UInt32} {e : EncoderError} (hanswers : answers ≠ [])
    (h : Encoder.encodeCd workTime id answers tenths st rst = .error e) : OfTimesOrSearch e := by
  rw [Encoder.encodeCd.eq_def] at h
  split at h
  · rw [← Except.error.inj h]
    exact .serverTime st
  split at h
  · rw [← Except.error.inj h]
    exact .receiveTime rst
  cases answers with
  | nil => exact absurd rfl hanswers
  | cons answer answers => cases h

theorem encode_error {hash : List UInt8 → Encoder.Digest} {score : Encoder.Digest → Double}
    {w : Encoder.World} {p : PowParams} {e : EncoderError} (hdiff : p.difficulty.gt .zero = true)
    (hcount : p.subCount ≠ 0) (h : encode hash score w p = .error e) : OfTimesOrSearch e := by
  rw [encode] at h
  by_cases hst : p.st ≤ 0
  · rw [if_pos hst] at h
    rw [← Except.error.inj h]
    exact .serverTime p.st
  rw [if_neg hst] at h
  rcases bind_error h with h | ⟨t, -, h⟩
  · obtain ⟨t, rfl⟩ := threshold_error hdiff hcount h
    exact .unsatisfiable t _ _
  rcases bind_error h with h | ⟨workTime, -, h⟩
  · rw [nowMs_error h]
    exact .clock
  rcases bind_error h with h | ⟨answers, hsolve, h⟩
  · obtain ⟨sub, rfl⟩ := solveAll_error h
    exact .nonceCap t sub
  have hanswers : answers ≠ [] := by
    rintro rfl
    have hchain := @Encoder.solveAll_eq hash score t (Encoder.seedHex hash p workTime w.id)
      p.subCount.toNat 0 [] fun i h => absurd h (Nat.not_lt_zero i)
    rw [Encoder.digestAfter, List.foldl_nil, hsolve] at hchain
    have hzero : p.subCount.toNat = 0 := by
      have hlen := hchain.1
      rw [List.length_nil] at hlen
      omega
    exact hcount (UInt32.toNat_inj.1 hzero)
  by_cases hrst : 0 < p.rst
  · rw [if_pos hrst] at h
    exact encodeCd_error hanswers h
  · rw [if_neg hrst] at h
    rcases bind_error h with h | ⟨rst, -, h⟩
    · rw [nowMs_error h]
      exact .clock
    · exact encodeCd_error hanswers h

/-- A first link without a nonce fails `encode`. -/
theorem encode_noNonce {hash : List UInt8 → Encoder.Digest} {score : Encoder.Digest → Double}
    {w : Encoder.World} {p : PowParams} {now later : ℕ} {q : Double}
    (hdiff : p.difficulty.gt .zero = true) (hcount : p.subCount ≠ 0) (hst : 0 < p.st)
    (hnow : w.now = some now) (hlater : w.later = some later) (hnow' : now < 2 ^ 63)
    (hlater' : later < 2 ^ 63) (hq : q = p.difficulty.div (.ofNat p.subCount.toNat))
    (hlow : q.gt Encoder.TWO_POW_52 = false)
    (hno : Encoder.NoNonce hash score q (Encoder.seedHex hash p (.ofNat now) w.id)) :
    encode hash score w p = .error (.nonceCap q 0) := by
  obtain ⟨left, hleft⟩ := Nat.exists_eq_succ_of_ne_zero fun h => hcount (UInt32.toNat_inj.1 h)
  rw [Encoder.encode_eq hdiff hcount hst hnow hlater hnow' hlater' hq, hlow,
    if_neg Bool.false_ne_true, hleft, Encoder.solveAll]
  have hsub := @Encoder.solveSub_eq hash score q (Encoder.seedHex hash p (.ofNat now) w.id)
  rcases heq : Encoder.solveSub hash score (Encoder.seedHex hash p (.ofNat now) w.id) q with
    _ | ⟨a, after⟩
  · rfl
  · rw [heq] at hsub
    exact absurd hsub.1.clears (hno _ hsub.1.pos hsub.1.le_max)

/-- The values of the constraints: none without a document. -/
def fcValues {Bytes : Type} (decode : String → Except String Bytes)
    (fromSlice : Bytes → Except String Fc.Value) (overrides : Fc.FcOverrides) :
    Option String → Except Fc.FcApplyError Fc.FcValues
  | none => .ok .default
  | some fc => Fc.apply decode fromSlice fc overrides

/-- **Extracted parameters are solvable.**  Whatever the bytecode and the response document,
the parameters handed to the encoder have a finite positive difficulty and a count of at
least one, which is the number in the literal or in the document; `threshold` fails only
because the threshold is above the maximum score, and `encode` only for that, for want of
a nonce, or because a time is not one. -/
theorem solvable {Bytes : Type} (decode : String → Except String Bytes)
    (fromSlice : Bytes → Except String Fc.Value) (instrs : List Instr) (pool : List ℕ)
    (config : PowConfig) (overrides : Fc.FcOverrides) (fc : Option String) (values : Fc.FcValues)
    (ct : String) (st rst : Int64) (p : PowParams) (hconfig : extract instrs pool = .ok config)
    (hvalues : fcValues decode fromSlice overrides fc = .ok values)
    (hp : p = powParams config values ct st rst) :
    p.difficulty.isFinite = true ∧ p.difficulty.gt .zero = true ∧ 1 ≤ p.subCount.toNat ∧
      ((∃ c, choose instrs pool = .ok c ∧ c.den.2 = .ofNat p.subCount.toNat) ∨
        ∃ text, fc = some text ∧
          Fc.CountOf decode fromSlice text overrides p.subCount.toNat) ∧
      (∀ e, threshold p = .error e → ∃ t, e = .unsatisfiable t p.difficulty p.subCount) ∧
      ∀ hash score w e, encode hash score w p = .error e → OfTimesOrSearch e := by
  obtain ⟨hfinite, hpos, hcount, c, hc, hden⟩ := extract_ok hconfig
  have happly : (∀ v, values.difficulty = some v → v.isFinite = true ∧ v.gt .zero = true) ∧
      ∀ v, values.subCount = some v → 1 ≤ v.toNat ∧
        ∃ text, fc = some text ∧ Fc.CountOf decode fromSlice text overrides v.toNat := by
    cases fc with
    | none =>
        rw [← Except.ok.inj hvalues]
        exact ⟨fun _ h => (nomatch h), fun _ h => (nomatch h)⟩
    | some text =>
        obtain ⟨hdifficulty, hread⟩ := Fc.apply_ok hvalues
        exact ⟨hdifficulty, fun v hv => ⟨(hread v hv).1, text, rfl, (hread v hv).2⟩⟩
  have hdiff : p.difficulty.isFinite = true ∧ p.difficulty.gt .zero = true := by
    rw [hp, powParams]
    rcases hv : values.difficulty with _ | v
    · exact ⟨hfinite, hpos⟩
    · exact happly.1 v hv
  have hsub : 1 ≤ p.subCount.toNat ∧
      ((∃ c, choose instrs pool = .ok c ∧ c.den.2 = .ofNat p.subCount.toNat) ∨
        ∃ text, fc = some text ∧
          Fc.CountOf decode fromSlice text overrides p.subCount.toNat) := by
    rw [hp, powParams]
    rcases hv : values.subCount with _ | v
    · exact ⟨hcount, .inl ⟨c, hc, hden⟩⟩
    · obtain ⟨hone, hread⟩ := happly.2 v hv
      exact ⟨hone, .inr hread⟩
  have hne : p.subCount ≠ 0 := by
    intro hzero
    have hone := hsub.1
    rw [hzero] at hone
    exact absurd hone (by decide)
  exact ⟨hdiff.1, hdiff.2, hsub.1, hsub.2, fun _ h => threshold_error hdiff.2 hne h,
    fun _ _ _ _ h => encode_error hdiff.2 hne h⟩

/-! ## A literal with its uses -/

/-- The strings of the pool, one after the other. -/
def frozenPool : List ℕ :=
  ("Objectfreezeabxsufs" ++ "0123456789abcdef0123456789abcdef0123456789abcdef0123456789abcdef" ++
    "pvj-1.2.3n").toList.map Char.toNat

/-- `Object.freeze({ v: "j-1.2.3", n: { s: <hex>, p: { a: 10, b: 2, x: "suf" } } })`, a read of
the suffix, one of the seed, and the division of `a` by `b`. -/
def frozenInstrs : List Instr :=
  [ ⟨0, .global, [.str ⟨0, 6⟩], some 3⟩,
    ⟨1, .getProp, [.reg 3, .str ⟨6, 6⟩], some 4⟩,
    ⟨2, .newArrN, [.int 1], some 5⟩,
    ⟨3, .newObj, [], some 6⟩,
    ⟨4, .newObj, [], some 7⟩,
    ⟨5, .newObj, [], some 8⟩,
    ⟨6, .setProp, [.reg 8, .str ⟨12, 1⟩, .int 10], none⟩,
    ⟨7, .setProp, [.reg 8, .str ⟨13, 1⟩, .int 2], none⟩,
    ⟨8, .setProp, [.reg 8, .str ⟨14, 1⟩, .str ⟨15, 3⟩], none⟩,
    ⟨9, .setProp, [.reg 7, .str ⟨18, 1⟩, .str ⟨19, 64⟩], none⟩,
    ⟨10, .setProp, [.reg 7, .str ⟨83, 1⟩, .reg 8], none⟩,
    ⟨11, .setProp, [.reg 6, .str ⟨84, 1⟩, .str ⟨85, 7⟩], none⟩,
    ⟨12, .setProp, [.reg 6, .str ⟨92, 1⟩, .reg 7], none⟩,
    ⟨13, .setProp, [.reg 5, .int 0, .reg 6], none⟩,
    ⟨14, .callM, [.reg 3, .reg 4, .reg 5], none⟩,
    ⟨15, .getProp, [.reg 20, .str ⟨14, 1⟩], some 21⟩,
    ⟨16, .getProp, [.reg 20, .str ⟨92, 1⟩], some 22⟩,
    ⟨17, .getProp, [.reg 22, .str ⟨18, 1⟩], some 23⟩,
    ⟨18, .getProp, [.reg 22, .str ⟨12, 1⟩], some 24⟩,
    ⟨19, .getProp, [.reg 22, .str ⟨13, 1⟩], some 25⟩,
    ⟨20, .divRR, [.reg 24, .reg 25], some 26⟩ ]

def frozenConfig : PowConfig where
  difficulty := .ofNat 10
  subCount := 2
  seedSuffix := "suf"
  seedPhrase := "0123456789abcdef0123456789abcdef0123456789abcdef0123456789abcdef"
  keys := ⟨⟨12, 1⟩, ⟨13, 1⟩, ⟨14, 1⟩, ⟨18, 1⟩⟩

theorem extract_frozen : extract frozenInstrs frozenPool = .ok frozenConfig := by
  have h : (extract frozenInstrs frozenPool).toOption = some frozenConfig := by decide +kernel
  rcases hrun : extract frozenInstrs frozenPool with e | config
  · rw [hrun] at h
    cases h
  · rw [hrun] at h
    rw [← Option.some_inj.1 h]

/-- The response has no document. -/
def noOverrides : Fc.FcOverrides := ⟨none, none, none, none⟩

def refuse {α β : Type} (_ : α) : Except String β := .error ""

theorem solvable_frozen :
    (powParams frozenConfig .default "" 1 1).difficulty.isFinite = true ∧
      ∀ hash score w e,
        encode hash score w (powParams frozenConfig .default "" 1 1) = .error e →
          OfTimesOrSearch e :=
  have h := solvable (refuse : String → Except String Unit) refuse frozenInstrs frozenPool
    frozenConfig noOverrides none .default "" 1 1 _ extract_frozen rfl rfl
  ⟨h.1, h.2.2.2.2.2⟩

/-- The clock stands before the epoch. -/
def brokenWorld : Encoder.World := { Encoder.easyWorld 7 with now := none }

/-- The parameters of a literal are handed over with a server time of zero, with a clock
that stands before the epoch, and with a hash no score of which is above zero: there is no
body, and no error says that the challenge is unsatisfiable. -/
theorem encode_frozen :
    extract frozenInstrs frozenPool = .ok frozenConfig ∧
      encode Encoder.easyHash Encoder.easyScore (Encoder.easyWorld 7)
        (powParams frozenConfig .default "" 0 0) = .error (.serverTime 0) ∧
      encode Encoder.easyHash Encoder.easyScore brokenWorld
        (powParams frozenConfig .default "" 1 1) = .error .clock ∧
      ∃ t, encode Encoder.easyHash (fun _ => .zero) (Encoder.easyWorld 7)
        (powParams frozenConfig .default "" 1 1) = .error (.nonceCap t 0) := by
  have hlow : Double.zero.ge ((powParams frozenConfig .default "" 1 1).difficulty.div
      (.ofNat (powParams frozenConfig .default "" 1 1).subCount.toNat)) = false := by
    decide +kernel
  refine ⟨extract_frozen, by decide +kernel, by decide +kernel, ?_⟩
  exact ⟨_, encode_noNonce (by decide +kernel) (by decide) (by decide) rfl rfl (by omega) (by omega)
    rfl (by decide +kernel) fun _ _ _ h => absurd h (Bool.eq_false_iff.1 hlow)⟩

end Config
end Worktime
end Lunar
