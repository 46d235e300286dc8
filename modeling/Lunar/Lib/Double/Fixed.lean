/-
# Decimals with a fixed number of digits

A quotient is written with `d` digits behind the point by way of an integer: the closest one to
`10 ^ d` times the quotient.  Where two are as close, the runtime takes the even one (`nearest`)
and a script the larger one (`halfUp`); so they differ in the halfway cases over an even integer
and nowhere else (`nearest_eq_halfUp_iff`).  Rounding to more digits first is another rounding
(`halfUp_nearest_iff`).
-/

import Lunar.Lib.Double.Nearest
import Lunar.Lib.Numeral

namespace Lunar
namespace Lib
namespace Double

/-! ## Half up -/

/-- The distance of two numbers. -/
def dist (a b : ℕ) : ℕ := (a - b) + (b - a)

/-- `k` is an integer as close to `n / d` as any, and the larger one of two. -/
def Closest (n d k : ℕ) : Prop :=
  ∀ j, dist (k * d) n < dist (j * d) n ∨ dist (k * d) n = dist (j * d) n ∧ j ≤ k

/-- The integer nearest to `n / d`, of two the larger one. -/
def halfUp (n d : ℕ) : ℕ := (2 * n + d) / (2 * d)

theorem halfUp_eq_iff {n d k : ℕ} (hd : 0 < d) :
    halfUp n d = k ↔ 2 * (k * d) ≤ 2 * n + d ∧ 2 * n < 2 * (k * d) + d := by
  rw [halfUp, Nat.div_eq_iff (by omega), Nat.mul_comm k]
  have hk : d * k = k * d := Nat.mul_comm d k
  have hmul : 2 * d * k = 2 * (k * d) := by rw [Nat.mul_assoc, hk]
  have hmul' : k * (2 * d) = 2 * (k * d) := by rw [Nat.mul_comm, hmul]
  constructor <;> intro h <;> constructor <;> omega

theorem halfUp_bounds (n : ℕ) {d : ℕ} (hd : 0 < d) :
    2 * (halfUp n d * d) ≤ 2 * n + d ∧ 2 * n < 2 * (halfUp n d * d) + d :=
  (halfUp_eq_iff hd).1 rfl

/-- **Half up** is the closest integer. -/
theorem closest_iff {n d k : ℕ} (hd : 0 < d) : Closest n d k ↔ halfUp n d = k := by
  rw [halfUp_eq_iff hd]
  constructor
  · intro h
    have hnext := h (k + 1)
    have hback := h (k - 1)
    simp only [dist, Nat.add_mul, Nat.one_mul] at hnext
    rcases Nat.eq_zero_or_pos k with rfl | hk
    · omega
    · obtain ⟨j, rfl⟩ := Nat.exists_eq_succ_of_ne_zero hk.ne'
      simp only [dist, Nat.succ_sub_one, Nat.succ_mul] at hback hnext ⊢
      omega
  · rintro ⟨hle, hlt⟩ j
    rcases Nat.lt_trichotomy j k with hj | rfl | hj
    · have hmul : j * d + d ≤ k * d := by
        rw [← Nat.succ_mul]
        exact Nat.mul_le_mul_right d hj
      simp only [dist]
      omega
    · exact .inr ⟨rfl, le_refl j⟩
    · have hmul : k * d + d ≤ j * d := by
        rw [← Nat.succ_mul]
        exact Nat.mul_le_mul_right d hj
      simp only [dist]
      omega

/-- **The two ways to round** differ halfway above an even integer. -/
theorem nearest_eq_halfUp_iff {n d : ℕ} (hd : 0 < d) :
    nearest n d = halfUp n d ↔ ¬ ∃ k, k % 2 = 0 ∧ 2 * n = (2 * k + 1) * d := by
  obtain ⟨hle, hlt⟩ := halfUp_bounds n hd
  rw [nearest_eq_iff hd]
  constructor
  · rintro ⟨-, -, htie⟩ ⟨k, hk, heq⟩
    have hup : halfUp n d = k + 1 := by
      rw [halfUp_eq_iff hd, Nat.add_mul, Nat.one_mul]
      rw [Nat.add_mul, Nat.mul_assoc, Nat.one_mul] at heq
      omega
    rw [hup] at htie
    have := htie (.inl (by
      rw [Nat.add_mul, Nat.one_mul]
      rw [Nat.add_mul, Nat.mul_assoc, Nat.one_mul] at heq
      omega))
    omega
  · intro h
    refine ⟨hle, hlt.le, fun htie => ?_⟩
    have heq : 2 * (halfUp n d * d) = 2 * n + d := htie.resolve_right (by omega)
    by_contra hodd
    obtain ⟨k, hk⟩ : ∃ k, halfUp n d = k + 1 := ⟨halfUp n d - 1, by omega⟩
    refine h ⟨k, by omega, ?_⟩
    rw [hk, Nat.add_mul, Nat.one_mul] at heq
    rw [Nat.add_mul, Nat.mul_assoc, Nat.one_mul]
    omega

theorem le_nearest {n d a : ℕ} (hd : 0 < d) (h : a * d ≤ n) : a ≤ nearest n d := by
  obtain ⟨-, hge⟩ := nearest_bounds n hd
  by_contra hlt
  have hmul : nearest n d * d + d ≤ a * d := by
    rw [← Nat.succ_mul]
    exact Nat.mul_le_mul_right d (not_le.1 hlt)
  omega

theorem nearest_le {n d a : ℕ} (hd : 0 < d) (h : n ≤ a * d) : nearest n d ≤ a := by
  obtain ⟨hle, -⟩ := nearest_bounds n hd
  by_contra hlt
  have hmul : a * d + d ≤ nearest n d * d := by
    rw [← Nat.succ_mul]
    exact Nat.mul_le_mul_right d (not_le.1 hlt)
  omega

/-- **To round twice**, first to a unit of which `2 * p` are the number one and then half up, is
to round once, unless the first rounding reaches a halfway case from below. -/
theorem halfUp_nearest_iff {n d p : ℕ} (hd : 0 < d) (hp : 0 < p) :
    halfUp (nearest (n * (2 * p)) d) (2 * p) = halfUp n d ↔
      ¬ ∃ k, 2 * n < (2 * k + 1) * d ∧ nearest (n * (2 * p)) d = (2 * k + 1) * p := by
  obtain ⟨hle, hlt⟩ := halfUp_bounds n hd
  set k := halfUp n d with hk
  have hlow (j : ℕ) (hj : (2 * j + 1) * d ≤ 2 * n) :
      (2 * j + 1) * p ≤ nearest (n * (2 * p)) d := by
    refine le_nearest hd ?_
    calc (2 * j + 1) * p * d = (2 * j + 1) * d * p := Nat.mul_right_comm _ _ _
      _ ≤ 2 * n * p := Nat.mul_le_mul_right p hj
      _ = n * (2 * p) := by ring
  have hhigh : nearest (n * (2 * p)) d ≤ (2 * k + 1) * p := by
    refine nearest_le hd ?_
    have hsum : 2 * n ≤ (2 * k + 1) * d := by
      rw [Nat.add_mul, Nat.mul_assoc, Nat.one_mul]
      omega
    calc n * (2 * p) = 2 * n * p := by ring
      _ ≤ (2 * k + 1) * d * p := Nat.mul_le_mul_right p hsum
      _ = (2 * k + 1) * p * d := Nat.mul_right_comm _ _ _
  have hbelow : 2 * (k * (2 * p)) ≤ 2 * nearest (n * (2 * p)) d + 2 * p := by
    rcases Nat.eq_zero_or_pos k with h0 | hpos
    · rw [h0, Nat.zero_mul, Nat.mul_zero]
      exact Nat.zero_le _
    · obtain ⟨j, hj⟩ := Nat.exists_eq_succ_of_ne_zero hpos.ne'
      have hsucc : k * d = j * d + d := by rw [hj, Nat.succ_mul]
      have hstep := hlow j (by
        rw [Nat.add_mul, Nat.mul_assoc, Nat.one_mul]
        omega)
      rw [hj]
      calc 2 * ((j + 1) * (2 * p)) = 2 * ((2 * j + 1) * p) + 2 * p := by ring
        _ ≤ _ := Nat.add_le_add_right (Nat.mul_le_mul_left 2 hstep) _
  have hodd : (2 * k + 1) * p = k * (2 * p) + p := by ring
  rw [halfUp_eq_iff (show 0 < 2 * p by omega)]
  constructor
  · rintro ⟨-, hlt'⟩ ⟨j, hj, heq⟩
    have hkj : k ≤ j := by
      by_contra hjk
      have hmul : (2 * j + 2) * d ≤ 2 * k * d := Nat.mul_le_mul_right d (by omega)
      rw [Nat.mul_assoc 2 k] at hmul
      rw [Nat.add_mul, Nat.one_mul] at hj
      rw [Nat.add_mul] at hmul
      omega
    have hmul : (2 * k + 1) * p ≤ (2 * j + 1) * p := Nat.mul_le_mul_right p (by omega)
    omega
  · intro h
    refine ⟨hbelow, ?_⟩
    by_contra hge
    refine h ⟨k, ?_, by omega⟩
    rw [Nat.add_mul, Nat.mul_assoc, Nat.one_mul]
    omega

/-! ## Digits -/

/-- The integer `n` with a point before its last `d` digits. -/
def pointed (d n : ℕ) : List Char :=
  let m := Nat.toDigits 10 n
  let m := List.replicate (d + 1 - m.length) '0' ++ m
  if d = 0 then m else m.take (m.length - d) ++ '.' :: m.drop (m.length - d)

/-- The digits of `n`, the lowest first, at least `w`. -/
def low : ℕ → ℕ → List ℕ
  | 0, n => Nat.digits 10 n
  | w + 1, n => n % 10 :: low w (n / 10)

theorem low_eq (w n : ℕ) :
    low w n = Nat.digits 10 n ++ List.replicate (w - (Nat.digits 10 n).length) 0 := by
  induction w generalizing n with
  | zero => simp [low]
  | succ w ih =>
      rw [low, ih]
      rcases Nat.eq_zero_or_pos n with rfl | hn
      · simp [List.replicate_succ]
      · rw [Nat.digits_def' (by decide) hn, List.length_cons, List.cons_append,
          Nat.add_sub_add_right]

theorem low_length (w n : ℕ) : (low w n).length = max w (Nat.digits 10 n).length := by
  rw [low_eq, List.length_append, List.length_replicate]
  omega

theorem low_add (w k n : ℕ) : (low (k + w) n).drop k = low w (n / 10 ^ k) := by
  induction k generalizing n with
  | zero => simp
  | succ k ih =>
      rw [show k + 1 + w = k + w + 1 by omega, low, List.drop_succ_cons, ih, Nat.div_div_eq_div_mul,
        Nat.pow_succ']

theorem low_get {w n j : ℕ} (hj : j < w) : (low w n)[j]? = some (n / 10 ^ j % 10) := by
  induction w generalizing n j with
  | zero => omega
  | succ w ih =>
      rw [low]
      rcases j with _ | j
      · simp
      · rw [List.getElem?_cons_succ, ih (by omega), Nat.div_div_eq_div_mul, Nat.pow_succ']

theorem low_lt {w n x : ℕ} (hx : x ∈ low w n) : x < 10 := by
  rw [low_eq, List.mem_append] at hx
  rcases hx with hx | hx
  · exact Nat.digits_lt_base (by decide) hx
  · rw [List.eq_of_mem_replicate hx]
    decide

theorem ofDigits_low (w n : ℕ) : Nat.ofDigits 10 (low w n) = n := by
  rw [low_eq, Nat.ofDigits_append_replicate_zero, Nat.ofDigits_digits]

/-- The digits show the number. -/
theorem low_inj (w w' : ℕ) {n n' : ℕ}
    (h : (low w n).map Numeral.fromDigit = (low w' n').map Numeral.fromDigit) : n = n' := by
  have hmap (w n : ℕ) : ((low w n).map Numeral.fromDigit).map (Text.digit 10)
      = (low w n).map some := by
    rw [List.map_map]
    exact List.map_congr_left fun x hx => Numeral.digit_fromDigit (low_lt hx) (by decide)
  have hlow : low w n = low w' n' :=
    (Option.some_injective ℕ).list_map (by rw [← hmap, h, hmap])
  rw [← ofDigits_low w n, hlow, ofDigits_low]

/-- The digits that `pointed` parts. -/
theorem padded_eq (d n : ℕ) :
    List.replicate (d + 1 - (Nat.toDigits 10 n).length) '0' ++ Nat.toDigits 10 n
      = ((low (d + 1) n).map Numeral.fromDigit).reverse := by
  rw [Numeral.toDigits_eq, Numeral.numeral, low_eq]
  split
  · rename_i hn
    rw [hn, Nat.digits_zero, List.nil_append, List.map_replicate, List.reverse_replicate]
    exact (List.replicate_succ' ..).symm
  · rw [List.map_append, List.reverse_append, List.map_replicate, List.reverse_replicate,
      List.map_reverse, List.length_reverse, List.length_map]
    rfl

theorem pointed_eq (d n : ℕ) :
    pointed d n = (((low (d + 1) n).map Numeral.fromDigit).drop d).reverse
      ++ if d = 0 then [] else '.' :: (((low (d + 1) n).map Numeral.fromDigit).take d).reverse := by
  have hlen := low_length (d + 1) n
  rw [pointed, padded_eq]
  set ds := (low (d + 1) n).map Numeral.fromDigit with hds
  have hlen' : ds.length = max (d + 1) (Nat.digits 10 n).length := by
    rw [hds, List.length_map, hlen]
  have hsub : ds.length - (ds.length - d) = d := by omega
  simp only [List.length_reverse, List.take_reverse, List.drop_reverse, hsub]
  split
  · rename_i hd
    simp [hd]
  · rfl

/-- `format!("{x:.d$}")`. -/
def fixed (d : ℕ) : Double → List Char
  | .fin a m =>
    let body := pointed d (nearest (m * 10 ^ d) ONE)
    if a then '-' :: body else body
  | x => x.display.toList

/-- The decimal of a finite double with `d` digits behind the point, as a script writes it. -/
def ScriptFixed (x : Double) (d : ℕ) (s : String) : Prop :=
  ∃ a m k, x = .fin a m ∧ Closest (m * 10 ^ d) ONE k ∧
    s = String.ofList (if x.lt .zero then '-' :: pointed d k else pointed d k)

theorem lt_zero_iff (a : Bool) (m : ℕ) : (fin a m).lt zero = (a && decide (m ≠ 0)) := by
  by_cases hm : m = 0
  · subst hm
    cases a <;> rfl
  · rw [lt_zero_fin hm, decide_eq_true hm, Bool.and_true]

theorem scriptFixed_iff {a : Bool} {m d : ℕ} {s : String} :
    ScriptFixed (.fin a m) d s ↔ s = String.ofList (if a && decide (m ≠ 0) then
      '-' :: pointed d (halfUp (m * 10 ^ d) ONE) else pointed d (halfUp (m * 10 ^ d) ONE)) := by
  rw [ScriptFixed, lt_zero_iff]
  constructor
  · rintro ⟨a', m', k, heq, hk, rfl⟩
    obtain ⟨rfl, rfl⟩ := Double.fin.inj heq
    rw [(closest_iff ONE_pos).1 hk]
  · rintro rfl
    exact ⟨a, m, _, rfl, (closest_iff ONE_pos).2 rfl, rfl⟩

/-! ## Carries -/

/-- One more, in digits whose lowest is the first. -/
def bump : List Char → List Char
  | [] => ['1']
  | c :: cs => if c = '9' then '0' :: bump cs else Char.ofNat (c.toNat + 1) :: cs

theorem bump_cons {x : ℕ} (hx : x < 10) (cs : List Char) :
    bump (Numeral.fromDigit x :: cs)
      = if x = 9 then '0' :: bump cs else Numeral.fromDigit (x + 1) :: cs := by
  have hnine : ∀ x < 10, Numeral.fromDigit x = '9' ↔ x = 9 := by decide
  have hnext : ∀ x < 9, Char.ofNat ((Numeral.fromDigit x).toNat + 1) = Numeral.fromDigit (x + 1) := by
    decide
  rw [bump]
  by_cases h : x = 9
  · rw [if_pos ((hnine x hx).2 h), if_pos h]
  · rw [if_neg (mt (hnine x hx).1 h), if_neg h, hnext x (by omega)]

theorem bump_digits (n : ℕ) :
    bump ((Nat.digits 10 n).map Numeral.fromDigit)
      = (Nat.digits 10 (n + 1)).map Numeral.fromDigit := by
  induction n using Nat.strong_induction_on with
  | h n ih =>
      rw [Nat.digits_def' (by decide) (Nat.succ_pos n)]
      rcases Nat.eq_zero_or_pos n with rfl | hn
      · decide
      · rw [Nat.digits_def' (by decide) hn, List.map_cons, bump_cons (Nat.mod_lt n (by decide)),
          List.map_cons]
        by_cases h : n % 10 = 9
        · have hmod : (n + 1) % 10 = 0 := by omega
          have hdiv : (n + 1) / 10 = n / 10 + 1 := by omega
          rw [if_pos h, ih (n / 10) (by omega), hmod, hdiv]
          rfl
        · have hmod : (n + 1) % 10 = n % 10 + 1 := by omega
          have hdiv : (n + 1) / 10 = n / 10 := by omega
          rw [if_neg h, hmod, hdiv]

/-- **A carry** through the digits. -/
theorem bump_low (w n : ℕ) :
    bump ((low w n).map Numeral.fromDigit) = (low w (n + 1)).map Numeral.fromDigit := by
  induction w generalizing n with
  | zero => exact bump_digits n
  | succ w ih =>
      rw [low, low, List.map_cons, bump_cons (Nat.mod_lt n (by decide)), List.map_cons]
      by_cases h : n % 10 = 9
      · have hmod : (n + 1) % 10 = 0 := by omega
        have hdiv : (n + 1) / 10 = n / 10 + 1 := by omega
        rw [if_pos h, ih, hmod, hdiv]
        rfl
      · have hmod : (n + 1) % 10 = n % 10 + 1 := by omega
        have hdiv : (n + 1) / 10 = n / 10 := by omega
        rw [if_neg h, hmod, hdiv]

end Double
end Lib
end Lunar
