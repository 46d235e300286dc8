/-
# Runs of statements that fill a new array

`payload/exec.rs`: `array_run` and `lower_run`.

`array_run` looks at all statements from a place on, and `lower_run` at those of the run only, when
it looks for the runs inside of it.  They find the same runs: where a run ends can be told from its
own statements (`Fills.unique`), so one that is cut off is none.  Hence a run has an item for each
element of its array (`lowerItems_length`).
-/

import Lunar.Lib.Double.Bounds
import Lunar.Payload.Interp.Lower.Exprs

namespace Lunar
namespace Interp

open Lib (Double)
open Exec (Op opDef opTargets shape slice)
open Devirt (Expr Stmt)
open LowerM

/-! ## Where a run ends -/

/-- `Fills reg k stmts u`: the first `u` statements set the next `k` items of the array in `reg`,
among others that fill new arrays or do not matter. -/
inductive Fills : ℕ → ℕ → List Stmt → ℕ → Prop
  | done {reg l} : Fills reg 0 l 0
  | item {reg k obj key val l u} : isReg reg obj = true → Fills reg k l u →
      Fills reg (k + 1) (.setProp obj key val :: l) (u + 1)
  | one {reg k q val l u} : q ≠ reg → Fills reg (k + 1) l u →
      Fills reg (k + 1) (.setReg q val :: l) (u + 1)
  | nest {reg k q c args l m w u} : q ≠ reg → runLength c args = some (m + 1) →
      Fills q (m + 1) l w → Fills reg (k + 1) (l.drop w) u →
      Fills reg (k + 1) (.setReg q (.new c args) :: l) (w + 1 + u)

theorem Fills.le_length {reg k u : ℕ} {l : List Stmt} (h : Fills reg k l u) : u ≤ l.length := by
  induction h with
  | done => exact Nat.zero_le _
  | item _ _ ih => exact Nat.succ_le_succ ih
  | one _ _ ih => exact Nat.succ_le_succ ih
  | nest _ _ _ _ ih ih' =>
      rw [List.length_drop] at ih'
      rw [List.length_cons]
      omega

/-- A run does not depend on what stands behind it. -/
theorem Fills.append {reg k u : ℕ} {l : List Stmt} (h : Fills reg k l u) (l' : List Stmt) :
    Fills reg k (l ++ l') u := by
  induction h with
  | done => exact .done
  | item hreg _ ih => exact .item hreg ih
  | one hne _ ih => exact .one hne ih
  | nest hne hlen hin _ ih ih' =>
      refine .nest hne hlen ih ?_
      rw [List.append_eq, List.drop_append_of_le_length hin.le_length]
      exact ih'

theorem Fills.of_zero {reg u : ℕ} {l : List Stmt} (h : Fills reg 0 l u) : u = 0 := by
  cases h
  rfl

theorem isReg_unique {r r' : ℕ} {e : Expr} (h : isReg r e = true) (h' : isReg r' e = true) :
    r = r' := by
  cases e <;> simp_all [isReg]

/-- **The statements tell** which array they fill, and where its run ends. -/
theorem Fills.unique {reg reg' k k' u u' : ℕ} {l : List Stmt} (h : Fills reg (k + 1) l u)
    (h' : Fills reg' (k' + 1) l u') : reg = reg' ∧ (k = k' → u = u') := by
  induction hn : l.length using Nat.strong_induction_on generalizing reg reg' k k' u u' l with
  | _ n ih =>
    subst hn
    cases h with
    | @item _ _ obj key val l u hreg hin =>
        cases h' with
        | @item _ _ _ _ _ _ u' hreg' hin' =>
            refine ⟨isReg_unique hreg hreg', ?_⟩
            rintro rfl
            cases k with
            | zero => rw [hin.of_zero, hin'.of_zero]
            | succ k => rw [(ih l.length (by simp) hin hin' rfl).2 rfl]
    | @one _ _ q val l u hne hin =>
        cases h' with
        | @one _ _ _ _ _ u' hne' hin' =>
            obtain ⟨heq, hu⟩ := ih l.length (by simp) hin hin' rfl
            exact ⟨heq, fun hk => by rw [hu hk]⟩
        | @nest _ _ _ c args _ m w u' hne' hlen hrun hin' =>
            exact absurd (ih l.length (by simp) hrun hin rfl).1 hne
    | @nest _ _ q c args l m w u hne hlen hrun hin =>
        cases h' with
        | @one _ _ _ _ _ u' hne' hin' =>
            exact absurd (ih l.length (by simp) hrun hin' rfl).1 hne'
        | @nest _ _ _ _ _ _ m' w' u' hne' hlen' hrun' hin' =>
            obtain rfl : m = m' := by
              have := Option.some.inj (hlen.symm.trans hlen')
              omega
            obtain rfl := (ih l.length (by simp) hrun hrun' rfl).2 rfl
            have hlt : (l.drop w).length < (Stmt.setReg q (.new c args) :: l).length := by
              rw [List.length_drop, List.length_cons]
              omega
            obtain ⟨heq, hu⟩ := ih _ hlt hin hin' rfl
            exact ⟨heq, fun hk => by rw [hu hk]⟩

/-! ## The runs that are found -/

/-- A run at the head of a list. -/
def IsRun (l : List Stmt) (q m w : ℕ) : Prop :=
  ∃ c args rest w', l = .setReg q (.new c args) :: rest ∧ runLength c args = some (m + 1) ∧
    w = w' + 1 ∧ Fills q (m + 1) rest w'

/-- `nested` finds runs only. -/
def Finds (nested : List Stmt → Option (ℕ × ℕ × ℕ)) : Prop :=
  ∀ l q n w, nested l = some (q, n, w) → ∃ m, n = m + 1 ∧ IsRun l q m w

theorem span_pos {nested : List Stmt → Option (ℕ × ℕ × ℕ)} (hn : Finds nested) (q : ℕ)
    (l : List Stmt) : 0 < spanOf q (nested l) := by
  cases hnest : nested l with
  | none => exact Nat.one_pos
  | some r =>
      obtain ⟨q', m, w⟩ := r
      obtain ⟨_, -, _, _, _, w', -, -, rfl, -⟩ := hn _ _ _ _ hnest
      rw [spanOf]
      split
      · exact Nat.succ_pos _
      · exact Nat.one_pos

/-- What the loop does with a statement that sets a register. -/
theorem runLoop_setReg {nested : List Stmt → Option (ℕ × ℕ × ℕ)} (hn : Finds nested)
    {reg n fuel i used u q : ℕ} {l : List Stmt} {vals : List Expr} {val : Expr} (hi : i < n)
    (hat : l[used]? = some (.setReg q val))
    (h : runLoop nested reg n l (fuel + 1) i used vals = some u) :
    (∀ s ∈ (l.drop used).take (spanOf q (nested (l.drop used))), quietIn reg vals s = true) ∧
      runLoop nested reg n l fuel i (used + spanOf q (nested (l.drop used))) vals = some u ∧
      ∀ q' m w, nested (l.drop used) = some (q', m, w) →
        q' = q ∧ spanOf q (nested (l.drop used)) = w := by
  rw [runLoop, if_neg (Nat.not_le.2 hi)] at h
  split at h
  · cases h
  · rw [hat] at h
    dsimp only at h
    split at h
    · next hall =>
        refine ⟨List.all_eq_true.1 hall, h, fun q' m w hnest => ?_⟩
        obtain ⟨m', -, c, args, rest, w', heq, -⟩ := hn _ _ _ _ hnest
        rw [← List.cons_getElem_drop_succ (h := (List.getElem?_eq_some_iff.1 hat).1)] at heq
        have hhead := (List.cons.inj heq).1
        rw [(List.getElem?_eq_some_iff.1 hat).2] at hhead
        obtain rfl := (Stmt.setReg.inj hhead).1
        exact ⟨rfl, by rw [hnest, spanOf, if_pos rfl]⟩
    · cases h

/-- What the loop does with a statement that sets a property. -/
theorem runLoop_setProp {nested : List Stmt → Option (ℕ × ℕ × ℕ)} {reg n fuel i used u : ℕ}
    {l : List Stmt} {vals : List Expr} {obj key val : Expr} (hi : i < n)
    (hat : l[used]? = some (.setProp obj key val))
    (h : runLoop nested reg n l (fuel + 1) i used vals = some u) : isReg reg obj = true ∧
      runLoop nested reg n l fuel (i + 1) (used + 1) (vals ++ [val]) = some u := by
  rw [runLoop, if_neg (Nat.not_le.2 hi)] at h
  split at h
  · cases h
  · rw [hat] at h
    dsimp only at h
    split at h
    · next hcond =>
        simp only [Bool.and_eq_true] at hcond
        exact ⟨hcond.1.1, h⟩
    · cases h

/-- An array that a run fills is not empty. -/
theorem runLength_pos {c : Expr} {args : List Expr} {n : ℕ} (h : runLength c args = some n) :
    0 < n := by
  unfold runLength at h
  split at h
  · next x _ =>
      dsimp only at h
      split at h
      · next hcond =>
          cases h
          simp only [Bool.and_eq_true] at hcond
          obtain ⟨⟨hge, -⟩, hint⟩ := hcond
          generalize Double.ofBits x = d at hge hint
          cases d with
          | nan => cases hint
          | inf a => cases hint
          | fin a m =>
              rw [Double.one, Double.ge_fin, decide_eq_true_iff] at hge
              have hone := Double.ONE_pos
              cases a with
              | true =>
                  simp only [Double.signed, if_true, Bool.false_eq_true, if_false] at hge
                  omega
              | false =>
                  simp only [Double.signed, Bool.false_eq_true, if_false] at hge
                  have hdiv : 1 ≤ m / Double.ONE := (Nat.one_le_div_iff hone).2 (by omega)
                  simp only [Double.toU, Double.cast, Double.signed, Bool.false_eq_true, if_false]
                  omega
      · cases h
  · cases h

/-- What the loop takes is a run. -/
theorem fills_of_runLoop {nested : List Stmt → Option (ℕ × ℕ × ℕ)} (hn : Finds nested)
    {reg n fuel i used u : ℕ} {l : List Stmt} {vals : List Expr}
    (h : runLoop nested reg n l fuel i used vals = some u) :
    ∃ d, u = used + d ∧ Fills reg (n - i) (l.drop used) d := by
  induction fuel generalizing i used vals with
  | zero => cases h
  | succ fuel ih =>
      rcases Nat.lt_or_ge i n with hi | hi
      · obtain ⟨k, hk⟩ : ∃ k, n - i = k + 1 := ⟨n - i - 1, by omega⟩
        cases hat : l[used]? with
        | none =>
            rw [runLoop, if_neg (Nat.not_le.2 hi), hat] at h
            split at h <;> cases h
        | some s =>
            have hlt := (List.getElem?_eq_some_iff.1 hat).1
            have hdrop : l.drop used = s :: l.drop (used + 1) := by
              rw [← (List.getElem?_eq_some_iff.1 hat).2, List.getElem_cons_drop]
            cases s with
            | setProp obj key val =>
                obtain ⟨hreg, h⟩ := runLoop_setProp hi hat h
                obtain ⟨d, rfl, hfills⟩ := ih h
                refine ⟨d + 1, by omega, ?_⟩
                rw [hk, hdrop]
                have hk' : n - (i + 1) = k := by omega
                exact .item hreg (hk' ▸ hfills)
            | setReg q val =>
                obtain ⟨hquiet, h, hspan⟩ := runLoop_setReg hn hi hat h
                obtain ⟨d, rfl, hfills⟩ := ih h
                have hne : q ≠ reg := by
                  have hmem : Stmt.setReg q val ∈
                      (l.drop used).take (spanOf q (nested (l.drop used))) := by
                    obtain ⟨k', hk'⟩ := Nat.exists_eq_add_one.2 (span_pos hn q (l.drop used))
                    rw [hk', hdrop, List.take_succ_cons]
                    exact List.mem_cons_self
                  have := hquiet _ hmem
                  simp only [quietIn, Bool.and_eq_true, decide_eq_true_eq] at this
                  exact this.1.2
                cases hnest : nested (l.drop used) with
                | none =>
                    rw [hnest, spanOf] at hfills
                    refine ⟨d + 1, by simp only [spanOf]; omega, ?_⟩
                    rw [hk, hdrop]
                    exact .one hne (hk ▸ hfills)
                | some r =>
                    obtain ⟨q', m, w⟩ := r
                    obtain ⟨rfl, heq⟩ := hspan q' m w hnest
                    rw [heq] at hfills
                    obtain ⟨m', rfl, c, args, rest, w', hl, hlen, rfl, hrun⟩ := hn _ _ _ _ hnest
                    rw [hdrop] at hl
                    obtain ⟨hs, rfl⟩ := List.cons.inj hl
                    obtain ⟨-, rfl⟩ := Stmt.setReg.inj hs
                    refine ⟨w' + 1 + d, by simp only [spanOf, if_true]; omega, ?_⟩
                    rw [hk, hdrop]
                    refine .nest hne hlen hrun ?_
                    rw [List.drop_drop, ← hk]
                    have hsum : used + 1 + w' = used + (w' + 1) := by omega
                    rw [hsum]
                    exact hfills
            | _ =>
                rw [runLoop, if_neg (Nat.not_le.2 hi), hat] at h
                split at h <;> cases h
      · rw [runLoop, if_pos hi] at h
        cases h
        exact ⟨0, rfl, by rw [Nat.sub_eq_zero_of_le hi]; exact .done⟩

theorem arrayRun_finds (fuel : ℕ) : Finds (arrayRun fuel) := by
  induction fuel with
  | zero => exact fun l q n w h => by cases h
  | succ fuel ih =>
      intro l q n w h
      unfold arrayRun at h
      split at h
      · next fuel' reg c args rest heq =>
          cases heq
          obtain ⟨n', hlen, h⟩ := Option.bind_eq_some_iff.1 h
          obtain ⟨used, hloop, h⟩ := Option.bind_eq_some_iff.1 h
          cases h
          obtain ⟨m, rfl⟩ := Nat.exists_eq_add_one.2 (runLength_pos hlen)
          obtain ⟨d, rfl, hfills⟩ := fills_of_runLoop ih hloop
          exact ⟨m, rfl, c, args, rest, d, rfl, hlen, Nat.add_comm 1 d, hfills⟩
      · cases h

/-! ## The same runs in a part of the statements -/

/-- `fuel` finds in every part what it finds in the whole list, where the part holds it. -/
def Persists (fuel : ℕ) : Prop :=
  ∀ (l : List Stmt) (q n w k fuel' : ℕ), arrayRun fuel l = some (q, n, w) → w ≤ k →
    (l.take k).length ≤ fuel' → arrayRun fuel' (l.take k) = some (q, n, w)

/-- Inside of a run of the first `u` statements, the same runs are found in those statements. -/
theorem arrayRun_inside {fuel fuel' : ℕ} (hpersists : Persists fuel) {reg n steps i used u k q : ℕ}
    {l : List Stmt} {vals : List Expr} {val : Expr} (hi : i < n)
    (hat : l[used]? = some (.setReg q val)) (hk : u ≤ k)
    (h : runLoop (arrayRun fuel) reg n l (steps + 1) i used vals = some u)
    (hfuel : ((l.take k).drop used).length ≤ fuel') :
    arrayRun fuel' ((l.take k).drop used) = arrayRun fuel (l.drop used) := by
  have hfinds := arrayRun_finds fuel
  obtain ⟨hquiet, h, hspan⟩ := runLoop_setReg hfinds hi hat h
  obtain ⟨d, hu, hfills⟩ := fills_of_runLoop hfinds h
  have hlt := (List.getElem?_eq_some_iff.1 hat).1
  have hdrop : l.drop used = .setReg q val :: l.drop (used + 1) := by
    rw [← (List.getElem?_eq_some_iff.1 hat).2, List.getElem_cons_drop]
  rw [List.drop_take] at hfuel ⊢
  cases hnest : arrayRun fuel (l.drop used) with
  | some r =>
      obtain ⟨q', m, w⟩ := r
      obtain ⟨-, heq⟩ := hspan q' m w hnest
      exact hpersists _ q' m w (k - used) fuel' hnest (by omega) hfuel
  | none =>
      rw [hnest, spanOf] at hquiet hfills
      -- A run of the part would be one of the whole list, and the loop goes on to fill another
      -- array.
      cases hpart : arrayRun fuel' ((l.drop used).take (k - used)) with
      | none => rfl
      | some r =>
          obtain ⟨q', m, w⟩ := r
          obtain ⟨m', -, c, args, rest, w', hl, hlen, -, hrun⟩ :=
            arrayRun_finds fuel' _ _ _ _ hpart
          have hkpos : 0 < k - used := by
            by_contra hle
            rw [Nat.eq_zero_of_not_pos hle, List.take_zero] at hl
            cases hl
          obtain ⟨k', hk'⟩ := Nat.exists_eq_add_one.2 hkpos
          rw [hk', hdrop, List.take_succ_cons] at hl
          obtain ⟨hs, rfl⟩ := List.cons.inj hl
          obtain ⟨rfl, rfl⟩ := Stmt.setReg.inj hs
          obtain ⟨j, hj⟩ : ∃ j, n - i = j + 1 := ⟨n - i - 1, by omega⟩
          have hrun' := hrun.append ((l.drop (used + 1)).drop k')
          rw [List.take_append_drop] at hrun'
          rw [hj] at hfills
          have hne := hquiet (.setReg q (.new c args)) (by
            rw [hdrop, List.take_succ_cons]
            exact List.mem_cons_self)
          simp only [quietIn, Bool.and_eq_true, decide_eq_true_eq] at hne
          exact absurd (hrun'.unique hfills).1 hne.1.2

/-- The loop on a part of the statements that holds what it takes. -/
theorem runLoop_take {fuel fuel' : ℕ} (hpersists : Persists fuel)
    {reg n steps steps' i used u k : ℕ} {l : List Stmt} {vals : List Expr} (hk : u ≤ k)
    (hsteps : u < steps' + used)
    (hfuel : (l.take k).length ≤ fuel' + used)
    (h : runLoop (arrayRun fuel) reg n l steps i used vals = some u) :
    runLoop (arrayRun fuel') reg n (l.take k) steps' i used vals = some u := by
  have hfinds := arrayRun_finds fuel
  induction steps generalizing steps' i used vals with
  | zero => cases h
  | succ steps ih =>
      obtain ⟨d, hu, hfills⟩ := fills_of_runLoop hfinds h
      obtain ⟨steps', rfl⟩ : ∃ j, steps' = j + 1 := ⟨steps' - 1, by omega⟩
      rcases Nat.lt_or_ge i n with hi | hi
      · cases hat : l[used]? with
        | none =>
            rw [runLoop, if_neg (Nat.not_le.2 hi), hat] at h
            split at h <;> cases h
        | some s =>
            cases s with
            | setProp obj key val =>
                obtain ⟨-, h'⟩ := runLoop_setProp hi hat h
                obtain ⟨d', hu', -⟩ := fills_of_runLoop hfinds h'
                have hat' : (l.take k)[used]? = some (.setProp obj key val) := by
                  rw [List.getElem?_take_of_lt (by omega), hat]
                have hrec : runLoop (arrayRun fuel') reg n (l.take k) steps' (i + 1) (used + 1)
                    (vals ++ [val]) = some u := ih (by omega) (by omega) h'
                rw [runLoop, if_neg (Nat.not_le.2 hi)] at h ⊢
                split at h
                · cases h
                · next hspan =>
                    rw [if_neg hspan, hat']
                    rw [hat] at h
                    dsimp only at h ⊢
                    split at h
                    · next hcond => rw [if_pos hcond, hrec]
                    · cases h
            | setReg q val =>
                have hinside : arrayRun fuel' ((l.take k).drop used) =
                    arrayRun fuel (l.drop used) := by
                  refine arrayRun_inside hpersists hi hat hk h ?_
                  rw [List.length_drop]
                  omega
                obtain ⟨hquiet, h', -⟩ := runLoop_setReg hfinds hi hat h
                obtain ⟨d', hu', -⟩ := fills_of_runLoop hfinds h'
                have hspan := span_pos hfinds q (l.drop used)
                have hat' : (l.take k)[used]? = some (.setReg q val) := by
                  rw [List.getElem?_take_of_lt (by omega), hat]
                have htake : ((l.take k).drop used).take (spanOf q (arrayRun fuel (l.drop used))) =
                    (l.drop used).take (spanOf q (arrayRun fuel (l.drop used))) := by
                  rw [List.drop_take, List.take_take, Nat.min_eq_left (by omega)]
                have hrec : runLoop (arrayRun fuel') reg n (l.take k) steps' i
                    (used + spanOf q (arrayRun fuel (l.drop used))) vals = some u :=
                  ih (by omega) (by omega) h'
                rw [runLoop, if_neg (Nat.not_le.2 hi)] at h ⊢
                split at h
                · cases h
                · next hlimit =>
                    rw [if_neg hlimit, hat']
                    dsimp only
                    rw [hinside, htake, if_pos (List.all_eq_true.2 hquiet), hrec]
            | _ =>
                rw [runLoop, if_neg (Nat.not_le.2 hi), hat] at h
                split at h <;> cases h
      · rw [runLoop, if_pos hi] at h ⊢
        exact h

theorem persists (fuel : ℕ) : Persists fuel := by
  induction fuel with
  | zero => exact fun l q n w k fuel' h => by cases h
  | succ fuel ih =>
      intro l q n w k fuel' h hw hfuel
      obtain ⟨_, -, c, args, rest, w', rfl, -, rfl, hfills⟩ := arrayRun_finds _ _ _ _ _ h
      obtain ⟨k, rfl⟩ : ∃ j, k = j + 1 := ⟨k - 1, by omega⟩
      rw [List.take_succ_cons] at hfuel ⊢
      obtain ⟨fuel', rfl⟩ : ∃ j, fuel' = j + 1 :=
        ⟨fuel' - 1, by rw [List.length_cons] at hfuel; omega⟩
      rw [arrayRun] at h ⊢
      obtain ⟨n', hlen, h⟩ := Option.bind_eq_some_iff.1 h
      obtain ⟨used, hloop, h⟩ := Option.bind_eq_some_iff.1 h
      cases h
      refine Option.bind_eq_some_iff.2 ⟨n, hlen, Option.bind_eq_some_iff.2 ⟨w' + 1, ?_, rfl⟩⟩
      have htake : Stmt.setReg q (.new c args) :: rest.take k =
          (Stmt.setReg q (.new c args) :: rest).take (k + 1) := List.take_succ_cons.symm
      rw [htake] at hfuel ⊢
      refine runLoop_take ih hw ?_ hfuel hloop
      have hle := hfills.le_length
      rw [List.length_take, List.length_cons]
      omega

theorem runAt_finds : Finds runAt := fun l => arrayRun_finds l.length l

theorem lowerItems_skip (st : Site) (nested : List Stmt → ℕ → ℕ → LowerM Unit) (l : List Stmt)
    (skip : ℕ) : lowerItems st nested l skip = lowerItems st nested (l.drop skip) 0 := by
  induction skip generalizing l with
  | zero => rfl
  | succ skip ih =>
      cases l with
      | nil => rfl
      | cons s rest =>
          rw [lowerItems, ih, List.drop_succ_cons]

/-- What is lowered for a statement that sets a register: a run, or its value. -/
theorem lowerItems_setReg {st : Site} {nested : List Stmt → ℕ → ℕ → LowerM Unit} {q : ℕ}
    {val : Expr} {rest : List Stmt} {lw lw' : Lower} {regs : List ℕ}
    (h : lowerItems st nested (.setReg q val :: rest) 0 lw = .ok (regs, lw')) :
    ∃ lw₁, lowerItems st nested rest (spanOf q (runAt (.setReg q val :: rest)) - 1) lw₁ =
        .ok (regs, lw') ∧
      ((∃ n w, runAt (.setReg q val :: rest) = some (q, n, w) ∧
          nested ((Stmt.setReg q val :: rest).take w) q n lw = .ok ((), lw₁)) ∨
        ∃ r, lowerExpr st val (some q) lw = .ok (r, lw₁)) := by
  rw [lowerItems] at h
  cases hrun : runAt (.setReg q val :: rest) with
  | none =>
      rw [hrun] at h
      obtain ⟨r, lw₁, hr, h⟩ := lowerM_bind h
      exact ⟨lw₁, h, .inr ⟨r, hr⟩⟩
  | some x =>
      obtain ⟨q', n, w⟩ := x
      rw [hrun] at h
      dsimp only at h
      rw [spanOf]
      split at h
      · next heq =>
          subst heq
          obtain ⟨_, lw₁, hn, h⟩ := lowerM_bind h
          exact ⟨lw₁, by rw [if_pos rfl]; exact h, .inl ⟨n, w, rfl, hn⟩⟩
      · next hne =>
          obtain ⟨r, lw₁, hr, h⟩ := lowerM_bind h
          exact ⟨lw₁, by rw [if_neg hne]; exact h, .inr ⟨r, hr⟩⟩

/-- **A run has an item for each element** of its array. -/
theorem lowerItems_length {st : Site} {nested : List Stmt → ℕ → ℕ → LowerM Unit} {fuel : ℕ}
    {reg n steps i used u : ℕ} {l : List Stmt} {vals : List Expr}
    (h : runLoop (arrayRun fuel) reg n l steps i used vals = some u) {lw lw' : Lower}
    {regs : List ℕ} (hr : lowerItems st nested ((l.take u).drop used) 0 lw = .ok (regs, lw')) :
    n - i ≤ regs.length := by
  have hfinds := arrayRun_finds fuel
  induction steps generalizing i used vals lw regs with
  | zero => cases h
  | succ steps ih =>
      rcases Nat.lt_or_ge i n with hi | hi
      · cases hat : l[used]? with
        | none =>
            rw [runLoop, if_neg (Nat.not_le.2 hi), hat] at h
            split at h <;> cases h
        | some s =>
            have hlt := (List.getElem?_eq_some_iff.1 hat).1
            have hdrop (hu : used < u) :
                (l.take u).drop used = s :: (l.take u).drop (used + 1) := by
              have hat' : (l.take u)[used]? = some s := by rw [List.getElem?_take_of_lt hu, hat]
              rw [← (List.getElem?_eq_some_iff.1 hat').2, List.getElem_cons_drop]
            cases s with
            | setProp obj key val =>
                obtain ⟨-, h'⟩ := runLoop_setProp hi hat h
                obtain ⟨d', hu', -⟩ := fills_of_runLoop hfinds h'
                rw [hdrop (by omega), lowerItems] at hr
                obtain ⟨s, lw₁, hs, hr⟩ := lowerM_bind hr
                obtain ⟨rest, lw₂, hrest, hr⟩ := lowerM_bind hr
                cases hr
                have := ih h' hrest
                rw [List.length_cons]
                omega
            | setReg q val =>
                have hinside := arrayRun_inside (persists fuel) hi hat le_rfl h le_rfl
                obtain ⟨hquiet, h', hspan⟩ := runLoop_setReg hfinds hi hat h
                obtain ⟨d', hu', -⟩ := fills_of_runLoop hfinds h'
                have hpos := span_pos hfinds q (l.drop used)
                have hcut := hdrop (by omega)
                rw [← runAt, hcut] at hinside
                rw [hcut] at hr
                obtain ⟨lw₁, hr, -⟩ := lowerItems_setReg hr
                rw [hinside, lowerItems_skip, List.drop_drop] at hr
                have hsum : used + 1 + (spanOf q (arrayRun fuel (l.drop used)) - 1) =
                    used + spanOf q (arrayRun fuel (l.drop used)) := by omega
                rw [hsum] at hr
                exact ih h' hr
            | _ =>
                rw [runLoop, if_neg (Nat.not_le.2 hi), hat] at h
                split at h <;> cases h
      · omega

end Interp
end Lunar
