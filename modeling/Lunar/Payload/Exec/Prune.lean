/-
# Dead stores and fusions together

What the branches of the code may do is a condition on the code alone: an array
that an `Apply` takes its arguments from must not be needed where a branch between
the two leads.  Under it, and under the condition on throws, the code that
`dead_stores` and `fuse_apply` leave runs in lockstep with the code they get.
-/

import Lunar.Payload.Exec.FuseApply

namespace Lunar
namespace Exec

variable {R : Realm}

namespace Code

variable (c : Code)

/-- An `Apply` whose arguments come from two array ops in a row of code that nothing
else enters, with both arrays dead behind it. -/
structure Links (u : Fusion) : Prop where
  lt₁₂ : u.i1 < u.i2
  lt₂₃ : u.i2 < u.i3
  op₁ : c.ops[u.i1]? = some (.array u.rb u.lb u.nb)
  op₂ : ∃ la, c.ops[u.i2]? = some (.array u.ra la 2) ∧ slice c.lists la 2 = [u.th, u.rb]
  op₃ : c.ops[u.i3]? = some (.apply u.d u.f u.t u.ra)
  alive : ¬c.Dead u.i1 ∧ ¬c.Dead u.i2 ∧ ¬c.Dead u.i3
  unnamed : ∀ j, u.i1 < j → j ≤ u.i3 → ¬c.Named j
  ra_ne : u.ra ≠ u.rb
  th_ne : u.th ≠ u.ra ∧ u.th ≠ u.rb
  f_ne : u.f ≠ u.ra ∧ u.f ≠ u.rb
  t_ne : u.t ≠ u.ra ∧ u.t ≠ u.rb
  elems_ne : ∀ r ∈ u.elems c.lists, r ≠ u.ra ∧ r ≠ u.rb
  after : ∀ r, c.Live (u.i3 + 1) r → r ≠ u.ra ∧ r ≠ u.rb
  handlers : ∀ q ∈ c.pcs.map (·.2), ∀ r, c.Live q r → r ≠ u.ra ∧ r ≠ u.rb

/-- Op `op` at `j` leaves the arrays and the operands of a fusion alone. -/
def Quiet (u : Fusion) (j : ℕ) (op : Op) : Prop :=
  (∀ r ∈ (shape c.lists op).uses, r ≠ u.ra ∧ r ≠ u.rb) ∧
    ∀ r, opDef op = some r → r ≠ u.ra ∧ r ≠ u.rb ∧ r ∉ u.elems c.lists ∧ (u.i2 < j → r ≠ u.th)

/-- The `Apply` takes its arguments from the arrays and nothing between them minds,
where the ops of an earlier such `Apply` do not count. -/
structure Feeds (u : Fusion) : Prop where
  links : c.Links u
  quiet : ∀ j op, u.i1 < j → j < u.i3 → j ≠ u.i2 → ¬c.Dead j → c.ops[j]? = some op →
    (∀ v, c.Links v → v.i3 < u.i3 → j ≠ v.i1 ∧ j ≠ v.i2 ∧ j ≠ v.i3) → c.Quiet u j op

/-- The op at `i` must not branch to `t`: it stands between an array and the
`Apply` that takes it, and the array is live at `t`. -/
def BadBranch (i t : ℕ) : Prop :=
  ∃ u op, c.Feeds u ∧ u.i1 < i ∧ i < u.i3 ∧ c.ops[i]? = some op ∧
    t ∈ (shape c.lists op).targets ∧ (c.Live t u.rb ∨ (u.i2 < i ∧ c.Live t u.ra))

/-- **The steps that the optimiser is right about**: nothing is thrown to a handler
where the destination of the op is live and may be stale, and no branch leaves the
ops of a fused call for a place where one of its arrays is live. -/
def Sound (s : State R) : Prop :=
  (c.next s).2.Spared c.BadThrow c.pcs s.ip ∧ (c.next s).2.Avoids c.BadBranch s.ip

end Code

/-! ### What the checks say -/

theorem disjoint_masks {a b : Mask} (h : ((a &&& b) == 0) = true) {r : ℕ}
    (ha : a.getLsbD r = true) : b.getLsbD r = false := by
  have hz := congrArg (fun m : Mask => m.getLsbD r) (eq_of_beq h)
  simpa [ha] using hz

theorem defBefore_spec {ops : List Op} {keep target : List Bool} {reg j i : ℕ}
    (h : defBefore ops keep target reg j = some i) :
    i < j ∧ keep.getD i false = true ∧ (∃ op, ops[i]? = some op ∧ opDef op = some reg) ∧
      ∀ k, i < k → k ≤ j → target.getD k false = false := by
  induction j with
  | zero => cases h
  | succ j ih =>
      rw [defBefore] at h
      split at h
      · cases h
      · next ht =>
          have ht : target.getD (j + 1) false = false := by simpa using ht
          have hrec : defBefore ops keep target reg j = some i → i < j + 1 ∧
              keep.getD i false = true ∧ (∃ op, ops[i]? = some op ∧ opDef op = some reg) ∧
              ∀ k, i < k → k ≤ j + 1 → target.getD k false = false := by
            intro h
            obtain ⟨hlt, hk, hop, hbetween⟩ := ih h
            refine ⟨by omega, hk, hop, fun k hik hkj => ?_⟩
            rcases Nat.le_succ_iff.1 hkj with hkj | rfl
            · exact hbetween k hik hkj
            · exact ht
          split at h
          · exact hrec h
          · next hk =>
              split at h
              · next hop =>
                  obtain rfl : j = i := Option.some.inj h
                  obtain ⟨op, hop, hd⟩ := Option.bind_eq_some_iff.1 hop
                  refine ⟨by omega, by simpa using hk, ⟨op, hop, hd⟩, fun k hik hkj => ?_⟩
                  obtain rfl : k = j + 1 := by omega
                  exact ht
              · exact hrec h

theorem targetsOf_named {c : Code} {t : ℕ} (ht : t ≤ c.ops.length)
    (h : (targetsOf c.ops c.pcs c.entryIp).getD t false = false) : ¬c.Named t := by
  have aux : ∀ (l : List ℕ) (marks : List Bool), t < marks.length →
      ((l.foldl (fun t x => t.set x true) marks).getD t false = false) →
      t ∉ l ∧ marks.getD t false = false := by
    intro l
    induction l with
    | nil => exact fun marks _ h => ⟨List.not_mem_nil, h⟩
    | cons x l ih =>
        intro marks hlen h
        obtain ⟨hl, hm⟩ := ih (marks.set x true) (by rw [List.length_set]; exact hlen) h
        rw [getD_set] at hm
        split at hm
        · cases hm
        · next hne =>
            refine ⟨fun hmem => ?_, hm⟩
            rcases List.mem_cons.1 hmem with rfl | hmem
            · exact hne ⟨rfl, hlen⟩
            · exact hl hmem
  have hmem := (aux _ _ (by rw [List.length_replicate]; omega) h).1
  rintro (⟨op, hop, hop'⟩ | hpc | rfl)
  · exact hmem (by simp only [List.mem_append, List.mem_flatMap]; exact .inl (.inl ⟨op, hop, hop'⟩))
  · exact hmem (by simp only [List.mem_append]; exact .inl (.inr hpc))
  · exact hmem (by simp)

/-- The arrays that `fuse_apply` finds. -/
theorem arraysOf_spec {ops : List Op} {lists : List ℕ} {keep target : List Bool} {i3 : ℕ}
    {u : Fusion} (h : arraysOf ops lists keep target i3 = some u) :
    u.i3 = i3 ∧ ops[i3]? = some (.apply u.d u.f u.t u.ra) ∧
      defBefore ops keep target u.ra i3 = some u.i2 ∧
      (∃ x la, ops[u.i2]? = some (.array x la 2) ∧ lists[la]? = some u.th ∧
        lists[la + 1]? = some u.rb) ∧
      defBefore ops keep target u.rb u.i2 = some u.i1 ∧
      ∃ x, ops[u.i1]? = some (.array x u.lb u.nb) := by
  obtain ⟨op₃, hop₃, h⟩ := Option.bind_eq_some_iff.1 h
  split at h
  · next d f t ra =>
      obtain ⟨i2, hi2, h⟩ := Option.bind_eq_some_iff.1 h
      obtain ⟨op₂, hop₂, h⟩ := Option.bind_eq_some_iff.1 h
      split at h
      · next x la =>
          obtain ⟨th, hth, h⟩ := Option.bind_eq_some_iff.1 h
          obtain ⟨rb, hrb, h⟩ := Option.bind_eq_some_iff.1 h
          obtain ⟨i1, hi1, h⟩ := Option.bind_eq_some_iff.1 h
          obtain ⟨op₁, hop₁, h⟩ := Option.bind_eq_some_iff.1 h
          split at h
          · next y lb nb =>
              obtain rfl := Option.some.inj h
              exact ⟨rfl, hop₃, hi2, ⟨x, la, hop₂, hth, hrb⟩, hi1, y, hop₁⟩
          · cases h
      · cases h
  · cases h

theorem slice_two {lists : List ℕ} {la x y : ℕ} (hx : lists[la]? = some x)
    (hy : lists[la + 1]? = some y) : slice lists la 2 = [x, y] := by
  obtain ⟨hla, rfl⟩ := List.getElem?_eq_some_iff.1 hx
  obtain ⟨hla', rfl⟩ := List.getElem?_eq_some_iff.1 hy
  rw [slice, List.drop_eq_getElem_cons hla, List.drop_eq_getElem_cons hla']
  rfl

/-- The registers of a fusion are told apart. -/
structure Apart (u : Fusion) (lists : List ℕ) (out : Mask) : Prop where
  lt : u.ra < 128 ∧ u.rb < 128 ∧ u.th < 128
  ra_ne : u.ra ≠ u.rb
  th_ne : u.th ≠ u.ra ∧ u.th ≠ u.rb
  f_ne : u.f ≠ u.ra ∧ u.f ≠ u.rb
  t_ne : u.t ≠ u.ra ∧ u.t ≠ u.rb
  elems : ∀ r ∈ u.elems lists, r < 128 ∧ r ≠ u.ra ∧ r ≠ u.rb
  out : ∀ r, out.getLsbD r = true → r ≠ u.ra ∧ r ≠ u.rb

theorem bits_ne {m : Mask} {ra rb r : ℕ} (ha : ra < 128) (hb : rb < 128)
    (h : ((m &&& (bit ra ||| bit rb)) == 0) = true) (hr : m.getLsbD r = true) :
    r ≠ ra ∧ r ≠ rb := by
  have hz := disjoint_masks h hr
  rw [BitVec.getLsbD_or, Bool.or_eq_false_iff] at hz
  constructor
  · rintro rfl
    simp [getLsbD_bit ha] at hz
  · rintro rfl
    simp [getLsbD_bit hb] at hz

theorem Fusion.apart_spec {u : Fusion} {lists : List ℕ} {out : Mask}
    (h : u.apart lists out = true) : Apart u lists out := by
  simp only [Fusion.apart, Bool.and_eq_true, decide_eq_true_eq, bne_iff_ne, List.all_eq_true] at h
  obtain ⟨⟨⟨⟨⟨⟨⟨⟨⟨⟨⟨ha, hb⟩, hab⟩, hta⟩, htb⟩, hfa⟩, hta'⟩, hfb⟩, htb'⟩, hout⟩, hel⟩, hth⟩ := h
  exact ⟨⟨ha, hb, hth⟩, hab, ⟨hta, htb⟩, ⟨hfa, hfb⟩, ⟨hta', htb'⟩,
    fun r hr => ⟨(hel r hr).1.1, (hel r hr).1.2, (hel r hr).2⟩, fun r hr => bits_ne ha hb hout hr⟩

theorem Fusion.quiet_spec {u : Fusion} {ops : List Op} {c : Code} {keep : List Bool} {j : ℕ}
    {out : Mask} (ha : Apart u c.lists out) (h : u.quiet ops c.lists keep j = true)
    (hk : keep.getD j false = true) (hj : j ≠ u.i2) {op : Op} (hop : ops[j]? = some op) :
    c.Quiet u j op := by
  simp only [Fusion.quiet, hk, hop, Bool.not_true, Bool.false_or, Bool.or_eq_true, beq_iff_eq,
    hj, false_or, Bool.and_eq_true] at h
  obtain ⟨huse, hdef⟩ := h
  constructor
  · intro r hr
    by_cases hr128 : r < 128
    · exact bits_ne ha.lt.1 ha.lt.2.1 (by simpa using huse) ((getLsbD_opUses hr128).2 hr)
    · exact ⟨fun h => hr128 (h ▸ ha.lt.1), fun h => hr128 (h ▸ ha.lt.2.1)⟩
  · intro r hr
    by_cases hr128 : r < 128
    · rw [hr] at hdef
      have hbit : (bit r).getLsbD r = true := by simp [getLsbD_bit hr128]
      have hz := disjoint_masks (by simpa using hdef) (r := r) hbit
      have hbad : ∀ {q : ℕ}, (bit q).getLsbD r = false → r ≠ q := by
        rintro q hq rfl
        simp [hbit] at hq
      have helems : (maskOf (u.elems c.lists)).getLsbD r = false → r ∉ u.elems c.lists :=
        fun hm hmem => by simp [(getLsbD_maskOf hr128).2 hmem] at hm
      split at hz
      · simp only [BitVec.getLsbD_or, Bool.or_eq_false_iff] at hz
        exact ⟨hbad hz.1.1.1, hbad hz.1.1.2, helems hz.1.2, fun _ => hbad hz.2⟩
      · next hlt =>
          simp only [BitVec.getLsbD_or, Bool.or_eq_false_iff] at hz
          exact ⟨hbad hz.1.1, hbad hz.1.2, helems hz.2, fun h => absurd h hlt⟩
    · exact ⟨fun h => hr128 (h ▸ ha.lt.1), fun h => hr128 (h ▸ ha.lt.2.1),
        fun h => hr128 (ha.elems r h).1, fun _ h => hr128 (h ▸ ha.lt.2.2)⟩

/-- What one turn of `fuse_apply` has found and checked. -/
structure Found (c : Code) (ops : List Op) (keep : List Bool) (out : Mask) (k : ℕ) (u : Fusion) :
    Prop where
  i3 : u.i3 = k
  lt₁₂ : u.i1 < u.i2
  lt₂₃ : u.i2 < u.i3
  op₁ : ops[u.i1]? = some (.array u.rb u.lb u.nb)
  op₂ : ∃ la, ops[u.i2]? = some (.array u.ra la 2) ∧ slice c.lists la 2 = [u.th, u.rb]
  op₃ : ops[u.i3]? = some (.apply u.d u.f u.t u.ra)
  keep₁ : keep.getD u.i1 false = true
  keep₂ : keep.getD u.i2 false = true
  keep₃ : keep.getD u.i3 false = true
  unnamed : ∀ j, u.i1 < j → j ≤ u.i3 → j ≤ c.ops.length → ¬c.Named j
  apart : Apart u c.lists out
  quiet : ∀ j, u.i1 < j → j < u.i3 → u.quiet ops c.lists keep j = true

theorem fusionAt_spec {c : Code} {live : List Mask} {hl : Mask} {ops : List Op} {keep : List Bool}
    {k : ℕ} {u : Fusion}
    (h : fusionAt c.lists live hl (targetsOf c.ops c.pcs c.entryIp) ops keep k = some u) :
    Found c ops keep (live.getD (k + 1) 0 ||| hl) k u := by
  rw [fusionAt] at h
  split at h
  · cases h
  · next hk =>
      obtain ⟨v, harr, h⟩ := Option.bind_eq_some_iff.1 h
      split at h
      · next hchk =>
          obtain rfl := Option.some.inj h
          rw [Bool.and_eq_true, List.all_eq_true] at hchk
          obtain ⟨rfl, hop₃, hi2, ⟨x, la, hop₂, hth, hrb⟩, hi1, y, hop₁⟩ := arraysOf_spec harr
          obtain ⟨h₂₃, hk₂, ⟨op₂, hop₂', hd₂⟩, hbet₂⟩ := defBefore_spec hi2
          obtain ⟨h₁₂, hk₁, ⟨op₁, hop₁', hd₁⟩, hbet₁⟩ := defBefore_spec hi1
          obtain rfl : op₂ = .array x la 2 := Option.some.inj (hop₂'.symm.trans hop₂)
          obtain rfl : op₁ = .array y v.lb v.nb := Option.some.inj (hop₁'.symm.trans hop₁)
          obtain rfl : x = v.ra := Option.some.inj hd₂
          obtain rfl : y = v.rb := Option.some.inj hd₁
          refine ⟨rfl, h₁₂, h₂₃, hop₁, ⟨la, hop₂, slice_two hth hrb⟩, hop₃, hk₁, hk₂,
            by simpa using hk, fun j hj hj' hjn => targetsOf_named hjn ?_,
            Fusion.apart_spec hchk.1, fun j hj hj' => hchk.2 j ?_⟩
          · by_cases hj₂ : j ≤ v.i2
            · exact hbet₁ j hj hj₂
            · exact hbet₂ j (by omega) hj'
          · rw [List.mem_range'_1]
            omega
      · cases h

/-! ### The loop of `fuse_apply` -/

/-- Masked code that behaves as the code does on sound steps. -/
def Simulated (R : Realm) (c : Code) (m : Masked) : Prop :=
  ∃ rel : State R → State R → Prop,
    Lib.Machine.Lockstep (c.step R) c.Sound (m.step R)
      (fun s => (m.next s).2.Avoids c.BadBranch s.ip) SameEvent End.Same rel ∧
    (∀ i regs w, c.Named i → Valid regs w → rel ⟨i, regs, w⟩ ⟨i, regs, w⟩) ∧
    ∀ s t, rel s t → s.ip = t.ip ∧
      (c.Named s.ip → Agree (c.Live s.ip) s.regs s.w t.regs t.w)

def Op.isApplyL : Op → Bool
  | .applyL _ _ _ _ _ _ => true
  | _ => false

theorem targets_of_isApplyL {lists : List ℕ} {op : Op} (h : op.isApplyL = true) :
    (shape lists op).targets = [] := by
  cases op <;> first | rfl | cases h

/-- The ops and marks before the turn of `fuse_apply` at `k`. -/
structure Pruned (R : Realm) (c : Code) (k : ℕ) (s : List Op × List Bool) : Prop where
  length : s.1.length = c.ops.length
  length' : s.2.length = c.ops.length
  op : ∀ {i op}, s.1[i]? = some op → c.ops[i]? = some op ∨
    (op.isApplyL = true ∧ ∃ u, c.Links u ∧ u.i3 < k ∧ i = u.i3)
  alive : ∀ {i}, s.2.getD i false = true → ¬c.Dead i
  gone : ∀ {i}, i < c.ops.length → s.2.getD i false = false →
    c.Dead i ∨ ∃ u, c.Links u ∧ u.i3 < k ∧ (i = u.i1 ∨ i = u.i2)
  annot : ∃ T, Annot ⟨{ c with ops := s.1 }, s.2⟩ c.BadBranch T ∧
    (∀ t r, c.Named t → (T t r ↔ c.Live t r)) ∧ ∀ i r, k ≤ i → (T i r ↔ c.Live i r)
  simulated : Simulated R c ⟨{ c with ops := s.1 }, s.2⟩

section Loop

variable {c : Code} {live : List Mask} {hl : Mask} {k : ℕ} {s : List Op × List Bool}

/-- An op that is no call of an earlier fusion is an op of the code. -/
theorem Pruned.original (hP : Pruned R c k s) {i : ℕ} {op : Op} (hop : s.1[i]? = some op)
    (hne : op.isApplyL = false) : c.ops[i]? = some op :=
  (hP.op hop).resolve_right fun h => by
    rw [hne] at h
    cases h.1

/-- The fusion of a turn links an `Apply` of the code to its arrays. -/
theorem Pruned.links (hP : Pruned R c k s) (hk : k < c.ops.length)
    (hlive : ∀ i r, c.Live i r → (live.getD i 0).getLsbD r = true)
    (hhl : ∀ r, HandlerLive c r → hl.getLsbD r = true) {u : Fusion}
    (hu : Found c s.1 s.2 (live.getD (k + 1) 0 ||| hl) k u) : c.Links u := by
  obtain ⟨la, hop₂, hla⟩ := hu.op₂
  have hk₃ := hu.i3
  refine {
    lt₁₂ := hu.lt₁₂
    lt₂₃ := hu.lt₂₃
    op₁ := hP.original hu.op₁ rfl
    op₂ := ⟨la, hP.original hop₂ rfl, hla⟩
    op₃ := hP.original hu.op₃ rfl
    alive := ⟨hP.alive hu.keep₁, hP.alive hu.keep₂, hP.alive hu.keep₃⟩
    unnamed := fun j hj hj' => hu.unnamed j hj hj' (by omega)
    ra_ne := hu.apart.ra_ne
    th_ne := hu.apart.th_ne
    f_ne := hu.apart.f_ne
    t_ne := hu.apart.t_ne
    elems_ne := fun r hr => (hu.apart.elems r hr).2
    after := fun r hr => hu.apart.out r ?_
    handlers := fun q hq r hr => hu.apart.out r ?_ }
  · rw [BitVec.getLsbD_or, ← hk₃, hlive _ _ hr, Bool.true_or]
  · rw [BitVec.getLsbD_or, hhl r ⟨q, hq, hr⟩, Bool.or_true]

/-- The code feeds the call of a turn. -/
theorem Pruned.feeds (hP : Pruned R c k s) {u : Fusion} {out : Mask} (hl : c.Links u)
    (hu : Found c s.1 s.2 out k u) : c.Feeds u := by
  refine ⟨hl, fun j op hj hj' hj₂ hd hop hno => ?_⟩
  have hk₃ := hu.i3
  have hjlen := (List.getElem?_eq_some_iff.1 hop).1
  have hkeep : s.2.getD j false = true := by
    by_contra hk
    rcases hP.gone hjlen (by simpa using hk) with hdead | ⟨v, hv, hvk, hj⟩
    · exact hd hdead
    · have := hno v hv (by omega)
      exact hj.elim this.1 this.2.1
  have hop' : s.1[j]? = some op := by
    have hlen : j < s.1.length := hP.length ▸ hjlen
    rcases hP.op (List.getElem?_eq_getElem hlen) with h | ⟨-, v, hv, hvk, hj⟩
    · rw [List.getElem?_eq_getElem hlen, ← h, hop]
    · exact absurd hj (hno v hv (by omega)).2.2
  exact Fusion.quiet_spec hu.apart (hu.quiet j hj hj') hkeep hj₂ hop'

/-- The checks of a turn, for the code as the turn finds it. -/
theorem Pruned.fits (hP : Pruned R c k s) {u : Fusion} {out : Mask} (hl : c.Links u)
    (hu : Found c s.1 s.2 out k u) {T : ℕ → ℕ → Prop}
    (hn : ∀ t r, c.Named t → (T t r ↔ c.Live t r)) (hlater : ∀ i r, k ≤ i → (T i r ↔ c.Live i r)) :
    u.Fits ⟨{ c with ops := s.1 }, s.2⟩ c.BadBranch T := by
  have hk₃ := hu.i3
  have hnamed : ∀ j, u.i1 < j → j ≤ u.i3 → ¬Code.Named { c with ops := s.1 } j := by
    rintro j hj hj' (⟨op, hop, ht⟩ | hpc | hentry)
    · obtain ⟨i, hi, rfl⟩ := List.mem_iff_getElem.1 hop
      rcases hP.op (List.getElem?_eq_getElem hi) with hop' | ⟨hap, -⟩
      · exact hl.unnamed j hj hj' (.inl ⟨_, List.mem_of_getElem? hop', ht⟩)
      · rw [opTargets_eq c.lists, targets_of_isApplyL hap] at ht
        cases ht
    · exact hl.unnamed j hj hj' (.inr (.inl hpc))
    · exact hl.unnamed j hj hj' (.inr (.inr hentry))
  refine {
    lt₁₂ := hu.lt₁₂
    lt₂₃ := hu.lt₂₃
    op₁ := hu.op₁
    op₂ := hu.op₂
    op₃ := hu.op₃
    keep₁ := hu.keep₁
    keep₂ := hu.keep₂
    keep₃ := hu.keep₃
    unnamed := hnamed
    ra_ne := hl.ra_ne
    th_ne := hl.th_ne
    f_ne := hl.f_ne
    t_ne := hl.t_ne
    elems_ne := hl.elems_ne
    after := fun r hr => hl.after r ((hlater _ r (by omega)).1 hr)
    handlers := fun q hq r hr => hl.handlers q hq r ((hn q r (.inr (.inl hq))).1 hr)
    quiet := fun j op hj hj' hj₂ hk hop => Fusion.quiet_spec hu.apart (hu.quiet j hj hj') hk hj₂ hop
    leave := fun j op t hj hj' hop ht hT => ?_ }
  rcases hP.op hop with hop' | ⟨hap, -⟩
  · have hc : c.Named t := .inl ⟨op, List.mem_of_getElem? hop', by
      rw [opTargets_eq c.lists]
      exact ht⟩
    exact ⟨u, op, hP.feeds hl hu, hj, hj', hop', ht,
      hT.imp (hn t _ hc).1 (And.imp_right (hn t _ hc).1)⟩
  · rw [targets_of_isApplyL hap] at ht
    cases ht

/-- One turn of the loop. -/
theorem Pruned.turn (hP : Pruned R c k s) (hk : k < c.ops.length)
    (hlive : ∀ i r, c.Live i r → (live.getD i 0).getLsbD r = true)
    (hhl : ∀ r, HandlerLive c r → hl.getLsbD r = true) :
    Pruned R c (k + 1) (fuseTurn c.lists live hl (targetsOf c.ops c.pcs c.entryIp) s k) := by
  obtain ⟨T, hT, hn, hlater⟩ := hP.annot
  rw [fuseTurn]
  cases hu : fusionAt c.lists live hl (targetsOf c.ops c.pcs c.entryIp) s.1 s.2 k with
  | none =>
      refine ⟨hP.length, hP.length', fun hop => (hP.op hop).imp id ?_, hP.alive, fun hi hk => ?_,
        ⟨T, hT, hn, fun i r hi => hlater i r (by omega)⟩, hP.simulated⟩
      · exact fun ⟨he, v, hv, hvk, hi⟩ => ⟨he, v, hv, by omega, hi⟩
      · exact (hP.gone hi hk).imp id fun ⟨v, hv, hvk, hi⟩ => ⟨v, hv, by omega, hi⟩
  | some u =>
      change Pruned R c (k + 1) (u.fuse s)
      have hu := fusionAt_spec hu
      have hlk := hP.links hk hlive hhl hu
      have hfits := hP.fits hlk hu hn hlater
      obtain ⟨rel, hsim, hstart, hend⟩ := hP.simulated
      have hk₃ := hu.i3
      have hout : ∀ {t}, c.Named t → ¬(u.i1 < t ∧ t ≤ u.i3) := fun ht h =>
        hlk.unnamed _ h.1 h.2 ht
      refine ⟨List.length_set.trans hP.length,
        List.length_set.trans (List.length_set.trans hP.length'), fun {i op} hop => ?_,
        fun {i} hk => ?_, fun {i} hi hk => ?_, ⟨_, hfits.annot hT, fun t r ht => ?_, fun i r hi => ?_⟩,
        Relation.Comp rel (FuseRel u c.lists T),
        hsim.comp (fuse_lockstep hfits hT) SameEvent.trans End.Same.trans, ?_, ?_⟩
      · by_cases hi : i = u.i3
        · subst hi
          have hself := List.getElem?_set_self (a := Op.applyL u.d u.f u.t u.th u.lb u.nb)
            (List.getElem?_eq_some_iff.1 hu.op₃).1
          obtain rfl := Option.some.inj (hop.symm.trans hself)
          exact .inr ⟨rfl, u, hlk, by omega, rfl⟩
        · have hop : s.1[i]? = some op := (List.getElem?_set_ne (Ne.symm hi)).symm.trans hop
          exact (hP.op hop).imp id fun ⟨he, v, hv, hvk, hi⟩ => ⟨he, v, hv, by omega, hi⟩
      · refine hP.alive (i := i) ?_
        by_contra hk'
        have hdrop : ((s.2.set u.i1 false).set u.i2 false).getD i false = false := by
          rw [getD_set, getD_set]
          split
          · rfl
          · split
            · rfl
            · simpa using hk'
        rw [Fusion.fuse, hdrop] at hk
        cases hk
      · by_cases hi₁ : i = u.i1 ∨ i = u.i2
        · exact .inr ⟨u, hlk, by omega, hi₁⟩
        · have hk' : s.2.getD i false = false :=
            (Fusion.fused_keep (m := ⟨c, s.2⟩) (fun h => hi₁ (.inl h))
              fun h => hi₁ (.inr h)).symm.trans hk
          exact (hP.gone hi hk').imp id fun ⟨v, hv, hvk, hi⟩ => ⟨v, hv, by omega, hi⟩
      · exact (hfits.annot_outside (hout ht)).trans (hn t r ht)
      · exact (hfits.annot_outside (by omega)).trans (hlater i r (by omega))
      · intro i regs w hi hv
        refine ⟨_, hstart i regs w hi hv, .enter (m := ⟨c, s.2⟩) ?_ hv hv.agree⟩
        exact (Fusion.plan_outside _ (hout hi) hlk.lt₁₂ hlk.lt₂₃).1
      · rintro x z ⟨y, hxy, hyz⟩
        obtain ⟨hip, hag⟩ := hend x y hxy
        refine ⟨hip.trans hyz.ip, fun hx => (hag hx).trans ?_⟩
        obtain ⟨-, -, regs₁, w₁, hp, hag'⟩ := hyz
        rw [← hip, (Fusion.plan_outside c.lists (hout hx) hlk.lt₁₂ hlk.lt₂₃).1] at hp hag'
        cases hp
        exact hag'.mono fun r hr => .inr (.inl ((hn _ r hx).2 hr))

/-- The loop from its start. -/
theorem Pruned.loop (h₀ : Pruned R c 0 s)
    (hlive : ∀ i r, c.Live i r → (live.getD i 0).getLsbD r = true)
    (hhl : ∀ r, HandlerLive c r → hl.getLsbD r = true) (k : ℕ) (hk : k ≤ c.ops.length) :
    Pruned R c k
      ((List.range k).foldl (fuseTurn c.lists live hl (targetsOf c.ops c.pcs c.entryIp)) s) := by
  induction k with
  | zero => exact h₀
  | succ k ih =>
      rw [List.range_succ, List.foldl_append]
      exact (ih (by omega)).turn hk hlive hhl

end Loop

end Exec
end Lunar
