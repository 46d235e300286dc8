/-
# The order of the stamps

Every gap of a timeline is a number of ticks, and rounding to ticks keeps the order of the
durations (`ticks_fin`, `tickOf_mono`); so a draw of a few milliseconds is a bounded gap, and a
full collection is longer than the one `lite` puts in its place.  With that the stamps of a
timeline are in order (`measured_ordered`, `synthetic_ordered`), and `lite` keeps them so.
-/

import Lunar.Payload.Timing
import Mathlib.Tactic.Linarith

namespace Lunar
namespace Timing

open Lib Double

/-! ## Ticks -/

/-- The ticks of a magnitude. -/
def tickOf (m : ℕ) : ℕ := halfUp (round53 (round53 (m * 1000) 1) 100) ONE

theorem tickOf_mono {m n : ℕ} (h : m ≤ n) : tickOf m ≤ tickOf n := by
  have hmul : round53 (m * 1000) 1 ≤ round53 (n * 1000) 1 :=
    round53_mono Nat.one_pos Nat.one_pos (by omega)
  have hdiv : round53 (round53 (m * 1000) 1) 100 ≤ round53 (round53 (n * 1000) 1) 100 :=
    round53_mono (by omega) (by omega) (Nat.mul_le_mul_right _ hmul)
  exact Nat.div_le_div_right (by omega)

/-- Half a millisecond is five ticks. -/
theorem tickOf_half {k : ℕ} (hk : k ≤ 2 ^ 42) : tickOf (k * 2 ^ 1073) = 5 * k := by
  have hone : ONE = 2 * 2 ^ 1073 := by rw [ONE, Nat.pow_succ, Nat.mul_comm]
  have hmul : k * 2 ^ 1073 * 1000 = k * 500 * 2 ^ 1074 * 1 := by
    rw [← ONE, hone]
    generalize 2 ^ 1073 = u
    ring
  have hdiv : k * 500 * 2 ^ 1074 = 5 * k * 2 ^ 1074 * 100 := by
    generalize 2 ^ 1074 = u
    ring
  rw [tickOf, hmul, round53_exact (by omega) Nat.one_pos, hdiv,
    round53_exact (by omega) (by omega), ← ONE, halfUp_eq_iff ONE_pos]
  have hpos := ONE_pos
  omega

/-- The ticks of a duration up to `2 ^ 41` milliseconds. -/
theorem ticks_fin {m : ℕ} (h : m ≤ 2 ^ 41 * ONE) :
    ticks (.fin false m) = some (tickOf m * TICK_US) := by
  have hmul : round53 (m * 1000) 1 ≤ 2 ^ 41 * 1000 * ONE :=
    round53_le_whole Nat.one_pos (by omega) (by
      rw [Nat.mul_one, Nat.mul_right_comm]
      exact Nat.mul_le_mul_right _ h)
  have hdiv : round53 (round53 (m * 1000) 1) 100 ≤ 2 ^ 41 * 10 * ONE :=
    round53_le_whole (by omega) (by omega) (by
      refine hmul.trans (le_of_eq ?_)
      generalize ONE = one
      ring)
  have hticks : tickOf m ≤ 2 ^ 42 * 10 := by
    have hhalf := (halfUp_bounds (round53 (round53 (m * 1000) 1) 100) ONE_pos).1
    rw [← tickOf] at hhalf
    have hpos := ONE_pos
    generalize ONE = one at *
    by_contra hlt
    have := Nat.mul_le_mul_right one (Nat.lt_of_not_le hlt)
    omega
  rw [ticks, fmax_fin, ofNat_exact (by omega), ofNat_exact (by rw [TICK_US]; omega)]
  have hone := ofQuot_mul_right false (m * 1000) 1 ONE_pos
  have hhundred := ofQuot_mul_right false (round53 (m * 1000) 1) 100 ONE_pos
  rw [Nat.one_mul] at hone
  have hne : TICK_US * ONE ≠ 0 := Nat.mul_ne_zero (by decide) ONE_pos.ne'
  rw [mul, ← Nat.mul_assoc, bne_self_eq_false, hone,
    ofQuot_lt (hmul.trans_lt (whole_lt_huge (by omega))), div, if_neg hne, bne_self_eq_false,
    TICK_US, hhundred, ofQuot_lt (hdiv.trans_lt (whole_lt_huge (by omega))), roundAway, ← tickOf,
    toU, Double.cast, Nat.mul_div_cancel _ ONE_pos, signed, if_neg Bool.false_ne_true]
  have hcast : (Max.max 0 (min (2 ^ 64 - 1) (tickOf m : ℤ))).toNat = tickOf m := by omega
  rw [hcast, Checked.mul_of_lt (by omega)]

theorem ticks_neg (m : ℕ) : ticks (.fin true m) = some 0 := by
  have hzero := ticks_fin (m := 0) (Nat.zero_le _)
  have h := tickOf_half (k := 0) (by omega)
  rw [Nat.zero_mul] at h
  rw [ticks, fmax_fin, h] at hzero
  rw [ticks, fmax_neg]
  exact hzero

/-- **A gap is bounded by what bounds its duration.** -/
theorem ticks_bounds {x : Double} (hfin : x.isFinite = true) {K : ℕ} (hK : K ≤ 2 ^ 40)
    (h : x.le (.ofNat K) = true) {k : ℕ} (hk : k = 0 ∨ (fin false (k * 2 ^ 1073)).le x = true) :
    ∃ n, ticks x = some n ∧ 500 * k ≤ n ∧ n ≤ 1000 * K := by
  obtain ⟨neg, m, rfl⟩ : ∃ neg m, x = .fin neg m := by
    cases x with
    | nan => cases hfin
    | inf _ => cases hfin
    | fin neg m => exact ⟨neg, m, rfl⟩
  rw [ofNat_exact (by omega), le_fin, decide_eq_true_iff] at h
  rw [le_fin, decide_eq_true_iff] at hk
  have hone : ONE = 2 * 2 ^ 1073 := by rw [ONE, Nat.pow_succ, Nat.mul_comm]
  cases neg with
  | true =>
      refine ⟨0, ticks_neg m, ?_, Nat.zero_le _⟩
      have hpos := Nat.two_pow_pos 1073
      rcases hk with rfl | hk
      · exact Nat.le_refl _
      · simp only [signed, if_true, Bool.false_eq_true, if_false] at hk
        generalize 2 ^ 1073 = u at hk hpos
        have hzero : k * u = 0 := by omega
        obtain rfl : k = 0 := (Nat.mul_eq_zero.1 hzero).resolve_right (by omega)
        exact Nat.le_refl _
  | false =>
      simp only [signed, Bool.false_eq_true, if_false, Int.ofNat_le] at h hk
      have hhigh : m ≤ 2 * K * 2 ^ 1073 := by
        rw [hone] at h
        generalize 2 ^ 1073 = u at *
        linarith
      have hlow : k * 2 ^ 1073 ≤ m := by
        rcases hk with rfl | hk
        · rw [Nat.zero_mul]
          exact Nat.zero_le m
        · exact hk
      have hticks := tickOf_mono hhigh
      rw [tickOf_half (by omega)] at hticks
      have hk' : k ≤ 2 ^ 42 := by
        have := (Nat.mul_le_mul_right_iff (Nat.two_pow_pos 1073)).1 (hlow.trans hhigh)
        omega
      have hticks' := tickOf_mono hlow
      rw [tickOf_half hk'] at hticks'
      have hm : m ≤ 2 ^ 41 * ONE := h.trans (Nat.mul_le_mul_right _ (by omega))
      exact ⟨_, ticks_fin hm, by rw [TICK_US]; omega, by rw [TICK_US]; omega⟩

/-! ## Draws -/

/-- A number of tenths, and what is below and above it. -/
theorem tenth_fin {n k K : ℕ} (hk : 5 * k ≤ n) (hK : n ≤ 10 * K) (hK' : K ≤ 2 ^ 40) :
    ∃ m, Double.ofDecimal false n (-1) = .fin false m ∧ k * 2 ^ 1073 ≤ m ∧ m ≤ K * ONE := by
  have hone : ONE = 2 * 2 ^ 1073 := by rw [ONE, Nat.pow_succ, Nat.mul_comm]
  have hhigh : round53 (n * ONE) 10 ≤ K * ONE :=
    round53_le_whole (by omega) (by omega) (by
      rw [Nat.mul_right_comm]
      exact Nat.mul_le_mul_right _ (by omega))
  have hlow : k * 2 ^ 1073 ≤ round53 (n * ONE) 10 := by
    have hexact := round53_exact (m := k) (j := 1073) (d := 10) (by omega) (by omega)
    refine hexact.ge.trans (round53_mono (by omega) (by omega) (Nat.mul_le_mul_right _ ?_))
    rw [hone]
    generalize 2 ^ 1073 = u
    calc k * u * 10 = 5 * k * (2 * u) := by ring
      _ ≤ n * (2 * u) := Nat.mul_le_mul_right _ hk
  refine ⟨_, ?_, hlow, hhigh⟩
  have hdown : (-1 : ℤ).toNat = 0 := rfl
  have hup : (-(-1) : ℤ).toNat = 1 := rfl
  rw [ofDecimal, hdown, hup, Nat.pow_zero, Nat.mul_one, Nat.pow_one]
  exact ofQuot_lt (hhigh.trans_lt (whole_lt_huge (by omega)))

/-- **A gap drawn is bounded by the bounds of its draw.** -/
theorem ticks_draw {lo mode hi k K : ℕ} (d : Draw (tenths lo mode hi)) (hk : 5 * k ≤ lo)
    (hle : lo ≤ hi) (hK : hi ≤ 10 * K) (hK' : K ≤ 2 ^ 40) :
    ∃ n, ticks d.ms = some n ∧ 500 * k ≤ n ∧ n ≤ 1000 * K := by
  obtain ⟨m, hlo, hlow, -⟩ := tenth_fin hk (hle.trans hK) hK'
  obtain ⟨m', hhi, -, hhigh⟩ := tenth_fin (hk.trans hle) hK hK'
  have hge := d.ge
  have hle := d.le
  simp only [tenths, hlo, hhi] at hge hle
  have hfin := finite_of_between hge hle
  have hofNat : ofNat K = .fin false (K * ONE) := ofNat_exact (by omega)
  refine ticks_bounds hfin hK' (le_trans_fin hfin (by rw [hofNat]; rfl) hle ?_)
    (Or.inr (le_trans_fin rfl hfin ?_ hge))
  · rw [hofNat, le_fin, decide_eq_true_iff]
    exact Int.ofNat_le.2 hhigh
  · rw [le_fin, decide_eq_true_iff]
    exact Int.ofNat_le.2 hlow

/-- Every draw is below a second. -/
theorem ticks_upto {lo mode hi : ℕ} (d : Draw (tenths lo mode hi)) (h : lo ≤ hi ∧ hi ≤ 10000) :
    ∃ n ≤ 1000000, ticks d.ms = some n := by
  obtain ⟨n, hn, -, hle⟩ := ticks_draw (k := 0) (K := 1000) d (by omega) h.1 (by omega) (by omega)
  exact ⟨n, hle, hn⟩

/-! ## The order -/

/-- A millisecond stamp of 53 bits. -/
theorem ofNat_div_thousand {n : ℕ} (hn : n < 2 ^ 53) :
    (ofNat n).div (.ofNat 1000) = .fin false (round53 (n * ONE) 1000) := by
  have hle : round53 (n * ONE) 1000 ≤ n * ONE :=
    round53_le_whole (by omega) hn (Nat.le_mul_of_pos_right _ (by omega))
  have hne : 1000 * ONE ≠ 0 := Nat.mul_ne_zero (by omega) ONE_pos.ne'
  rw [ofNat_exact hn.le, ofNat_exact (by omega), div, if_neg hne, bne_self_eq_false,
    ofQuot_mul_right _ _ _ ONE_pos, ofQuot_lt (hle.trans_lt (whole_lt_huge hn.le))]

/-- **Half a millisecond shows in a span**, however late the stamps are. -/
theorem span_pos (t : Timeline) {a b : ℕ} (hab : a + 500 ≤ b) (hb : t.uptimeUs + b < 2 ^ 53) :
    (t.span a b).gt .zero = true := by
  rw [Timeline.span, Nat.mod_eq_of_lt (by omega), Nat.mod_eq_of_lt (by omega),
    ofNat_div_thousand hb, ofNat_div_thousand (by omega)]
  refine sub_gt_zero ?_
  -- between the two lie two eighths
  obtain ⟨c, hc, hc'⟩ : ∃ c, t.uptimeUs + a ≤ 125 * c ∧ 125 * (c + 1) ≤ t.uptimeUs + b :=
    ⟨(t.uptimeUs + a) / 125 + 1, by omega, by omega⟩
  have hone : ONE = 8 * 2 ^ 1071 := by
    rw [ONE, ← Nat.pow_add 2 3]
  have hexact (k : ℕ) (hk : k < 2 ^ 53) : round53 (k * 2 ^ 1071 * 1000) 1000 = k * 2 ^ 1071 :=
    round53_exact hk (by omega)
  have hlow : round53 ((t.uptimeUs + a) * ONE) 1000 ≤ c * 2 ^ 1071 := by
    rw [← hexact c (by omega), hone]
    refine round53_mono (by omega) (by omega) (Nat.mul_le_mul_right _ ?_)
    generalize 2 ^ 1071 = u
    calc (t.uptimeUs + a) * (8 * u) ≤ 125 * c * (8 * u) := Nat.mul_le_mul_right _ hc
      _ = c * u * 1000 := by ring
  have hhigh : (c + 1) * 2 ^ 1071 ≤ round53 ((t.uptimeUs + b) * ONE) 1000 := by
    rw [← hexact (c + 1) (by omega), hone]
    refine round53_mono (by omega) (by omega) (Nat.mul_le_mul_right _ ?_)
    generalize 2 ^ 1071 = u
    calc (c + 1) * u * 1000 = 125 * (c + 1) * (8 * u) := by ring
      _ ≤ (t.uptimeUs + b) * (8 * u) := Nat.mul_le_mul_right _ hc'
  have hlt : c * 2 ^ 1071 < (c + 1) * 2 ^ 1071 :=
    Nat.mul_lt_mul_of_pos_right (Nat.lt_succ_self c) (Nat.two_pow_pos 1071)
  exact hlow.trans_lt (hlt.trans_le hhigh)

/-- A timeline on which a full collection lies. -/
structure Full (t : Timeline) : Prop where
  collect : t.qbq + 220000 ≤ t.uxn
  late : t.jbp < 2 ^ 53

/-- A step that succeeds, and the rest. -/
theorem bind_eq_of_eq {α β : Type} {x : Option α} {f : α → Option β} {a : α} {b : β}
    (hx : x = some a) (hf : f a = some b) : (x >>= f) = some b := hx ▸ hf

/-- **What `build` makes of a page load is in order.** -/
theorem build_ordered (d : BuildDraws) {nav ips : Vector ℕ 4} (transfer : Double)
    (h : Loaded nav ips) :
    ∃ t, build d nav ips transfer = some t ∧ Ordered t ∧ Full t := by
  obtain ⟨hnav₁, hnav₂, hnav₃, hips₁, hips₂, hips₃, hnav, hips⟩ := h
  obtain ⟨inline_, hinline', hinline⟩ := ticks_upto d.inline_ (by omega)
  obtain ⟨compile, hcompile', hcompile⟩ := ticks_upto d.compile (by omega)
  obtain ⟨boot, hboot', hboot⟩ := ticks_upto d.boot (by omega)
  obtain ⟨setup, hsetup', hsetup⟩ := ticks_upto d.setup (by omega)
  obtain ⟨collect, hcollect, hcollect', hcollect''⟩ :=
    ticks_draw (k := 440) (K := 1000) d.collect (by omega) (by omega) (by omega) (by omega)
  obtain ⟨handoff, hhandoff', hhandoff⟩ := ticks_upto d.handoff (by omega)
  obtain ⟨settle, hsettle', hsettle⟩ := ticks_upto d.settle (by omega)
  obtain ⟨assemble, hassemble', hassemble⟩ := ticks_upto d.assemble (by omega)
  obtain ⟨sealGap, hsealGap', hsealGap⟩ := ticks_upto d.sealGap (by omega)
  obtain ⟨encrypt, hencrypt', hencrypt⟩ := ticks_upto d.encrypt (by omega)
  have huptime : d.uptime / TICK_US * TICK_US < 100000000000 :=
    (Nat.div_mul_le_self _ _).trans_lt d.uptime_lt
  obtain ⟨kjm, hkjm, hkjm'⟩ := Checked.exists_add (w := 64) (a := nav[3]) (b := inline_) (by omega)
  obtain ⟨rbp, hrbp'', hrbp'⟩ :=
    Checked.exists_add (w := 64) (a := max ips[3] kjm) (b := compile) (by omega)
  have hrbp : ips[3] ≤ rbp ∧ kjm ≤ rbp ∧ rbp ≤ 2 ^ 52 + 2 ^ 51 + 2000000 := by omega
  have hnavkjm : nav[3] ≤ kjm := by omega
  clear hrbp' hkjm'
  obtain ⟨jlm, hjlm, hjlm'⟩ := Checked.exists_add (w := 64) (a := rbp) (b := boot) (by omega)
  obtain ⟨qbq, hqbq, hqbq'⟩ := Checked.exists_add (w := 64) (a := jlm) (b := setup) (by omega)
  obtain ⟨uxn, huxn, huxn'⟩ := Checked.exists_add (w := 64) (a := qbq) (b := collect) (by omega)
  obtain ⟨rcj, hrcj, hrcj'⟩ := Checked.exists_add (w := 64) (a := uxn) (b := handoff) (by omega)
  obtain ⟨stl, hstl, hstl'⟩ := Checked.exists_add (w := 64) (a := rcj) (b := settle) (by omega)
  obtain ⟨gap, hgap, hgap'⟩ := Checked.exists_sub (a := stl) (b := rcj) (by omega)
  obtain ⟨least, hleast, hleast'⟩ :=
    Checked.exists_add (w := 64) (a := gap) (b := TICK_US) (by rw [TICK_US]; omega)
  obtain ⟨kkm, hkkm'', hkkm'⟩ :=
    Checked.exists_add (w := 64) (a := rcj) (b := max assemble least) (by rw [TICK_US] at *; omega)
  have hkkm : stl < kkm ∧ kkm ≤ rcj + 2000100 := by
    rw [TICK_US] at hleast'
    omega
  clear hkkm' hleast'
  obtain ⟨rqk, hrqk, hrqk'⟩ :=
    Checked.exists_add (w := 64) (a := kkm) (b := sealGap) (by omega)
  obtain ⟨jbp, hjbp, hjbp'⟩ :=
    Checked.exists_add (w := 64) (a := rqk) (b := encrypt) (by omega)
  refine ⟨_, bind_eq_of_eq hinline <| bind_eq_of_eq hkjm <| bind_eq_of_eq hcompile <|
    bind_eq_of_eq hrbp'' <| bind_eq_of_eq hboot <| bind_eq_of_eq hjlm <| bind_eq_of_eq hsetup <|
    bind_eq_of_eq hqbq <| bind_eq_of_eq hcollect <| bind_eq_of_eq huxn <| bind_eq_of_eq hhandoff <|
    bind_eq_of_eq hrcj <| bind_eq_of_eq hsettle <| bind_eq_of_eq hstl <| bind_eq_of_eq hgap <|
    bind_eq_of_eq hleast <| bind_eq_of_eq hassemble <| bind_eq_of_eq hkkm'' <|
    bind_eq_of_eq hsealGap <| bind_eq_of_eq hrqk <| bind_eq_of_eq hencrypt <|
    bind_eq_of_eq hjbp rfl, ⟨hnav₁, hnav₂, hnav₃, ?_, ?_, ?_, ?_, ?_, ?_, ?_, ?_, ?_, ?_, ?_, hips₂,
    hips₃, ?_, span_pos _ ?_ ?_⟩, ⟨?_, ?_⟩⟩
  all_goals dsimp only
  all_goals omega

/-- **A synthetic timeline is in order.** -/
theorem synthetic_ordered (d : SyntheticDraws) (size : Transfer) :
    ∃ t, synthetic d size = some t ∧ Ordered t ∧ Full t := by
  obtain ⟨navQueue, hnavQueue', hnavQueue⟩ := ticks_upto d.navQueue (by omega)
  obtain ⟨navTtfb, hnavTtfb', hnavTtfb⟩ := ticks_upto d.navTtfb (by omega)
  obtain ⟨navBody, hnavBody', hnavBody⟩ := ticks_upto d.navBody (by omega)
  obtain ⟨ipsLead, hipsLead', hipsLead⟩ := ticks_upto d.ipsLead (by omega)
  obtain ⟨ipsQueue, hipsQueue, hipsQueue', hipsQueue''⟩ :=
    ticks_draw (k := 1) (K := 1000) d.ipsQueue (by omega) (by omega) (by omega) (by omega)
  obtain ⟨ipsTtfb, hipsTtfb', hipsTtfb⟩ := ticks_upto d.ipsTtfb (by omega)
  obtain ⟨ipsBody, hipsBody', hipsBody⟩ := ticks_upto d.ipsBody (by omega)
  obtain ⟨navResp, hnavResp, hnavResp'⟩ :=
    Checked.exists_add (w := 64) (a := navQueue) (b := navTtfb) (by omega)
  obtain ⟨navEnd, hnavEnd, hnavEnd'⟩ :=
    Checked.exists_add (w := 64) (a := navResp) (b := max navBody TICK_US) (by rw [TICK_US]; omega)
  rw [TICK_US] at hnavEnd'
  obtain ⟨ipsReq, hipsReq, hipsReq'⟩ :=
    Checked.exists_add (w := 64) (a := max (navEnd - ipsLead) navResp) (b := ipsQueue) (by omega)
  obtain ⟨ipsResp, hipsResp, hipsResp'⟩ :=
    Checked.exists_add (w := 64) (a := ipsReq) (b := ipsTtfb) (by omega)
  obtain ⟨ipsEnd, hipsEnd, hipsEnd'⟩ :=
    Checked.exists_add (w := 64) (a := ipsResp) (b := ipsBody) (by omega)
  have hloaded : Loaded #v[0, navQueue, navResp, navEnd]
      #v[max (navEnd - ipsLead) navResp, ipsReq, ipsResp, ipsEnd] := by
    constructor
    all_goals simp only [Vector.getElem_mk, List.getElem_toArray, List.getElem_cons_zero,
      List.getElem_cons_succ]
    all_goals omega
  obtain ⟨t, ht, hordered, hfull⟩ := build_ordered d.build (transfer d.transfer size) hloaded
  exact ⟨t, bind_eq_of_eq hnavQueue <| bind_eq_of_eq hnavTtfb <| bind_eq_of_eq hnavResp <|
    bind_eq_of_eq hnavBody <| bind_eq_of_eq hnavEnd <| bind_eq_of_eq hipsLead <|
    bind_eq_of_eq hipsQueue <| bind_eq_of_eq hipsReq <| bind_eq_of_eq hipsTtfb <|
    bind_eq_of_eq hipsResp <| bind_eq_of_eq hipsBody <| bind_eq_of_eq hipsEnd ht, hordered, hfull⟩

/-- A measured duration: finite, below `2 ^ 40` milliseconds. -/
def IsMeasured (ms : Double) : Prop := ms.isFinite = true ∧ ms.lt (.ofNat (2 ^ 40)) = true

theorem IsMeasured.ticks {ms : Double} (h : IsMeasured ms) :
    ∃ n ≤ 1000 * 2 ^ 40, Timing.ticks ms = some n := by
  have hle : ms.le (.ofNat (2 ^ 40)) = true := by
    rw [le, ← lt, h.2]
    rfl
  obtain ⟨n, hn, -, hle⟩ := ticks_bounds h.1 le_rfl hle (Or.inl rfl)
  exact ⟨n, hle, hn⟩

/-- **A measured timeline is in order.** -/
theorem measured_ordered (d : MeasuredDraws) {nav ips : Fetch} (size : Transfer)
    (hnav : IsMeasured nav.ttfbMs ∧ IsMeasured nav.bodyMs)
    (hips : IsMeasured ips.startMs ∧ IsMeasured ips.ttfbMs ∧ IsMeasured ips.bodyMs) :
    ∃ t, measured d nav ips size = some t ∧ Ordered t ∧ Full t := by
  obtain ⟨navQueue, hnavQueue', hnavQueue⟩ := ticks_upto d.navQueue (by omega)
  obtain ⟨navTtfb, hnavTtfb', hnavTtfb⟩ := hnav.1.ticks
  obtain ⟨navBody, hnavBody', hnavBody⟩ := hnav.2.ticks
  obtain ⟨ipsStart, hipsStart', hipsStart⟩ := hips.1.ticks
  obtain ⟨ipsQueue, hipsQueue, hipsQueue', hipsQueue''⟩ :=
    ticks_draw (k := 1) (K := 1000) d.ipsQueue (by omega) (by omega) (by omega) (by omega)
  obtain ⟨ipsTtfb, hipsTtfb', hipsTtfb⟩ := hips.2.1.ticks
  obtain ⟨ipsBody, hipsBody', hipsBody⟩ := hips.2.2.ticks
  obtain ⟨navResp, hnavResp, hnavResp'⟩ :=
    Checked.exists_add (w := 64) (a := navQueue) (b := navTtfb) (by omega)
  obtain ⟨navEnd, hnavEnd, hnavEnd'⟩ :=
    Checked.exists_add (w := 64) (a := navResp) (b := max navBody TICK_US) (by rw [TICK_US]; omega)
  obtain ⟨ipsReq, hipsReq, hipsReq'⟩ :=
    Checked.exists_add (w := 64) (a := max ipsStart navEnd) (b := ipsQueue)
      (by rw [TICK_US] at hnavEnd'; omega)
  obtain ⟨ipsResp, hipsResp, hipsResp'⟩ :=
    Checked.exists_add (w := 64) (a := ipsReq) (b := ipsTtfb)
      (by rw [TICK_US] at hnavEnd'; omega)
  obtain ⟨ipsEnd, hipsEnd, hipsEnd'⟩ :=
    Checked.exists_add (w := 64) (a := ipsResp) (b := max ipsBody TICK_US)
      (by rw [TICK_US] at *; omega)
  rw [TICK_US] at hnavEnd' hipsEnd'
  have hloaded : Loaded #v[0, navQueue, navResp, navEnd]
      #v[max ipsStart navEnd, ipsReq, ipsResp, ipsEnd] := by
    constructor
    all_goals simp only [Vector.getElem_mk, List.getElem_toArray, List.getElem_cons_zero,
      List.getElem_cons_succ]
    all_goals omega
  obtain ⟨t, ht, hordered, hfull⟩ := build_ordered d.build (transfer d.transfer size) hloaded
  exact ⟨t, bind_eq_of_eq hnavQueue <| bind_eq_of_eq hnavTtfb <| bind_eq_of_eq hnavResp <|
    bind_eq_of_eq hnavBody <| bind_eq_of_eq hnavEnd <| bind_eq_of_eq hipsStart <|
    bind_eq_of_eq hipsQueue <| bind_eq_of_eq hipsReq <| bind_eq_of_eq hipsTtfb <|
    bind_eq_of_eq hipsResp <| bind_eq_of_eq hipsBody <| bind_eq_of_eq hipsEnd ht, hordered, hfull⟩

/-- **`lite` keeps the order**, and none of its differences is negative. -/
theorem lite_ordered (d : Draw LITE_COLLECT_MS) {t : Timeline} (h : Ordered t) (hfull : Full t) :
    ∃ t', lite t d = some t' ∧ Ordered t' := by
  obtain ⟨hcollect, hlate⟩ := hfull
  obtain ⟨n, hn, -, hle⟩ :=
    ticks_draw (k := 0) (K := 1) d (by omega) (by omega) (by omega) (by omega)
  have huxn := h.uxn
  have hrcj := h.rcj
  have hsettle := h.settle
  have hkkm := h.kkm
  have hrqk := h.rqk
  have hjbp := h.jbp
  obtain ⟨uxn, huxn'', huxn'⟩ :=
    Checked.exists_add (w := 64) (a := t.qbq) (b := max n TICK_US) (by rw [TICK_US]; omega)
  have hshort : t.qbq ≤ uxn ∧ uxn ≤ t.uxn := by
    rw [TICK_US] at huxn'
    omega
  clear huxn'
  obtain ⟨delta, hdelta, hdelta'⟩ := Checked.exists_sub (a := t.uxn) (b := uxn) (by omega)
  obtain ⟨rcj, hrcj'', hrcj'⟩ := Checked.exists_sub (a := t.rcj) (b := delta) (by omega)
  obtain ⟨settle, hsettle'', hsettle'⟩ := Checked.exists_sub (a := t.settle) (b := delta) (by omega)
  obtain ⟨kkm, hkkm'', hkkm'⟩ := Checked.exists_sub (a := t.kkm) (b := delta) (by omega)
  obtain ⟨rqk, hrqk'', hrqk'⟩ := Checked.exists_sub (a := t.rqk) (b := delta) (by omega)
  obtain ⟨jbp, hjbp'', hjbp'⟩ := Checked.exists_sub (a := t.jbp) (b := delta) (by omega)
  refine ⟨_, bind_eq_of_eq hn <| bind_eq_of_eq huxn'' <| bind_eq_of_eq hdelta <|
    bind_eq_of_eq hrcj'' <| bind_eq_of_eq hsettle'' <| bind_eq_of_eq hkkm'' <|
    bind_eq_of_eq hrqk'' <| bind_eq_of_eq hjbp'' rfl,
    { h with uxn := ?_, rcj := ?_, settle := ?_, kkm := ?_, rqk := ?_, jbp := ?_ }⟩
  all_goals dsimp only
  all_goals omega

/-- The timelines of a solve: what is drawn, and what was measured. -/
inductive Drawn : Option Timeline → Prop
  | synthetic (d : SyntheticDraws) (size : Transfer) : Drawn (synthetic d size)
  | measured (d : MeasuredDraws) {nav ips : Fetch} (size : Transfer)
      (nav_measurable : IsMeasured nav.ttfbMs ∧ IsMeasured nav.bodyMs)
      (ips_measurable : IsMeasured ips.startMs ∧ IsMeasured ips.ttfbMs ∧ IsMeasured ips.bodyMs) :
      Drawn (measured d nav ips size)

/-- **Every timeline is in order, and so is its lite one**; no sum and no difference wraps. -/
theorem drawn_ordered {o : Option Timeline} (h : Drawn o) (d : Draw LITE_COLLECT_MS) :
    ∃ t t', o = some t ∧ Ordered t ∧ lite t d = some t' ∧ Ordered t' := by
  obtain ⟨t, ht, hordered, hfull⟩ : ∃ t, o = some t ∧ Ordered t ∧ Full t := by
    cases h with
    | synthetic e size => exact synthetic_ordered e size
    | measured e size hnav hips => exact measured_ordered e size hnav hips
  obtain ⟨t', ht', hordered'⟩ := lite_ordered d hordered hfull
  exact ⟨t, t', ht, hordered, ht', hordered'⟩

/-- The least draw. -/
def least (b : Bounds) (h : b.lo.le b.lo && b.lo.le b.hi) : Draw b where
  ms := b.lo
  ge := (Bool.and_eq_true_iff.1 h).1
  le := (Bool.and_eq_true_iff.1 h).2

/-- The least draws. -/
def leastDraws : MeasuredDraws where
  navQueue := least _ (by decide +kernel)
  ipsQueue := least _ (by decide +kernel)
  transfer := ⟨least _ (by decide +kernel), least _ (by decide +kernel)⟩
  build := {
    inline_ := least _ (by decide +kernel)
    compile := least _ (by decide +kernel)
    boot := least _ (by decide +kernel)
    setup := least _ (by decide +kernel)
    collect := least _ (by decide +kernel)
    handoff := least _ (by decide +kernel)
    settle := least _ (by decide +kernel)
    assemble := least _ (by decide +kernel)
    sealGap := least _ (by decide +kernel)
    encrypt := least _ (by decide +kernel)
    uptime := 1000000000
    uptime_ge := le_rfl
    uptime_lt := by decide }

theorem drawn_ordered_least : ∃ t t',
    measured leastDraws ⟨.zero, .one, .zero⟩ ⟨.zero, .one, .zero⟩ ⟨none, 0, none⟩ = some t ∧
      Ordered t ∧ lite t (least _ (by decide +kernel)) = some t' ∧ Ordered t' :=
  have hzero : IsMeasured .zero := ⟨rfl, by decide +kernel⟩
  have hone : IsMeasured .one := ⟨rfl, by decide +kernel⟩
  drawn_ordered (.measured leastDraws _ ⟨hone, hzero⟩ ⟨hzero, hone, hzero⟩) _

end Timing
end Lunar
