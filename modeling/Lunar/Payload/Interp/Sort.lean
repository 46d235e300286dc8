/-
# `sort` and `toSorted` of arrays

`payload/exec.rs`: `sort_compare`, `require_callable` and the branch of `method_call` for
`Nat::Sort` and `Nat::ToSorted`.  Elements that are `undefined` are not compared and come last; the
sort runs on a copy of the others, and the array is written once it has ended.

The comparison runs code of the script, which may do anything to the heap, throw, or answer as it
likes.  Whatever it does, the sort ends, loses and doubles no element and fails only with a
comparison (`sort_permutes`).  Where the comparison orders the elements, they are sorted, and those
that are equal stay in the order in which they were (`sort_stable`).
-/

import Lunar.Lib.Outcome
import Lunar.Payload.Evaluators.Reading
import Lunar.Payload.Interp.Store
import Lunar.Payload.Timsort.Stable

namespace Lunar
namespace Interp

open Lib (Double Prog)
open Lib.CallM (Follows Gives bind_done bind_error)
open Timsort (Sorting Rule Yields Orders)

variable {α β : Type}

/-! ## The built-in -/

section Host

variable (h : Host)

/-- `sort_compare`. -/
def sortCompare (cmp x y : Val) : MemM Double := do
  if cmp = .undef then
    let a ← onHeap fun heap => toStr heap h.stack x
    let b ← onHeap fun heap => toStr heap h.stack y
    return match textOrder a b with
      | .lt => Double.one.neg
      | .eq => Double.zero
      | .gt => Double.one
  else
    let r ← call h cmp .undef [x, y]
    let v ← numM h r
    return if v.isNan then .zero else v

/-- A program of the sort, with the comparison that it asks. -/
def asking (less : α → α → MemM Bool) : Sorting α β → MemM β
  | .pure b => pure b
  | .fail => throw .panic
  | .rd l _ => l.elim
  | .wr l _ _ => l.elim
  | .ask q k => do asking less (k (← less q.1 q.2))

/-- `timsort` on the interpreter.  Each element goes with its place, which nothing looks at. -/
def sorted (cmp : Val) (work : List Val) : MemM (List Val) := do
  let out ← asking (fun x y => do return (← sortCompare h cmp x.1 y.1).lt .zero)
    (Timsort.timsort work.zipIdx)
  return out.map Prod.fst

/-- The test of `require_callable`. -/
def callable (heap : List Obj) : Val → Res Bool
  | .obj id => do
    match ← cell heap id with
    | .closure .. | .bound .. | .opaque_ _ => return true
    | _ => return false
  | v => do return (← typeOf heap v) = "function"

/-- Whether a value may be given as a comparison. -/
def comparable (cmp : Val) : MemM Bool :=
  if cmp = .undef then pure true else onHeap fun heap => callable heap cmp

/-- `arr`. -/
def arrM (id : ℕ) : MemM (List Val) := do
  match ← cellM id with
  | .arr items => return items
  | _ => throw .panic

/-- The loop that writes the result from place `i` on. -/
def overwrite (a : List Val) (i : ℕ) : List Val → List Val
  | [] => a
  | v :: vs => overwrite (if i < a.length then a.set i v else a ++ [v]) (i + 1) vs

/-- `Nat::Sort`, and `Nat::ToSorted` with `copy`, on the array at `id`.  The error of
`require_callable` is made, and dropped. -/
def sortM (copy : Bool) (id : ℕ) (this : Val) (args : List Val) : MemM Val := do
  let cmp := args.head?.getD .undef
  if ← comparable cmp then
    let items ← arrM id
    let work ← sorted h cmp (items.filter (· ≠ .undef))
    let out := work ++ List.replicate (items.count .undef) .undef
    if copy then alloc (.arr out)
    else
      let a ← arrM id
      setCell id (.arr (overwrite a 0 out))
      return this
  else
    let _ ← alloc (.error "TypeError" "callback is not a function")
    typeError "The comparison function must be either a function or undefined"

end Host

/-! ## What it does -/

theorem overwrite_eq (a vs : List Val) (front : List Val) :
    overwrite (front ++ a) front.length vs = front ++ vs ++ a.drop vs.length := by
  induction vs generalizing a front with
  | nil => simp [overwrite]
  | cons v vs ih =>
      unfold overwrite
      cases a with
      | nil => simpa using ih [] (front ++ [v])
      | cons b a => simpa using ih a (front ++ [v])

section Asking

variable {R : Rule α} {less : α → α → MemM Bool} {p : Sorting α β} {P : β → Prop}
  {A : Mem → Mem → Prop} {E : Err → Prop}

/-- **A program that keeps to the rule** does not fail by itself, -/
theorem asking_gives (hless : ∀ x y, R.later x y →
      (less x y).Gives A (fun b => if b then R.before x y else R.before y x) E)
    (hp : Yields R p P) : (asking less p).Gives A P E := by
  induction p with
  | pure b => exact .pure hp
  | fail => exact absurd hp id
  | rd l k ih => exact l.elim
  | wr l v k ih => exact l.elim
  | ask q k ih => exact Gives.bind (hless q.1 q.2 hp.1) fun b hb => ih b (hp.2 b () hb)

/-- and what changes the state are the comparisons. -/
theorem asking_follows [IsPreorder Mem A] (hany : ∀ x y, R.before x y)
    (hless : ∀ x y, R.later x y → (less x y).Follows A) (hp : Yields R p P) :
    (asking less p).Follows A := by
  induction p with
  | pure b => exact .pure b
  | fail => exact .throw _
  | rd l k ih => exact l.elim
  | wr l v k ih => exact l.elim
  | ask q k ih =>
      refine Follows.bind (hless q.1 q.2 hp.1) fun b => ih b (hp.2 b () ?_)
      cases b <;> exact hany _ _

end Asking

/-- Where the result is: in a new array, or in the old one, of which `rest` has been added. -/
def Stored (copy : Bool) (id : ℕ) (this v : Val) (out : List Val) (m : Mem) : Prop :=
  if copy then ∃ n, v = .obj n ∧ m.heap[n]? = some (.arr out)
  else v = this ∧ ∃ rest, m.heap[id]? = some (.arr (out ++ rest))

section Ends

variable {h : Host} {copy : Bool} {id : ℕ} {this cmp : Val} {args items : List Val} {m : Mem}
  {A : Mem → Mem → Prop} {E : Err → Prop} {P : List Val → Prop}

theorem asked_gives {R : Rule (Val × ℕ)}
    (hcmp : ∀ p q, R.later p q → (sortCompare h cmp p.1 q.1).Gives A
      (fun d => if d.lt .zero then R.before p q else R.before q p) E)
    {work : List Val}
    (hp : Yields R (Timsort.timsort work.zipIdx) fun out => P (out.map Prod.fst)) :
    (sorted h cmp work).Gives A P E :=
  Gives.bind (asking_gives (fun p q hl => Gives.bind (hcmp p q hl) fun _ hd => .pure hd) hp)
    fun _ hout => .pure hout

theorem sorted_follows [IsPreorder Mem A] {work : List Val}
    (hcmp : ∀ x ∈ work, ∀ y ∈ work, (sortCompare h cmp x y).Follows A) :
    (sorted h cmp work).Follows A :=
  Follows.bind (asking_follows (R := Rule.any work) (fun _ _ => trivial)
    (fun p q hl => Follows.bind (hcmp p.1 hl.1 q.1 hl.2) fun _ => .pure _)
    (Timsort.yields_any work)) fun _ => .pure _

theorem arrM_arr (hid : m.heap[id]? = some (.arr items)) : arrM id m = .done m (.ok items) := by
  refine bind_done (a := Obj.arr items) ?_
  change Lib.Calls.done m (cell m.heap id) = _
  unfold cell
  rw [hid]
  rfl

theorem arrM_panic (hid : ∀ a, m.heap[id]? ≠ some (.arr a)) :
    arrM id m = .done m (.error .panic) := by
  have hcell : cellM id m = .done m (cell m.heap id) := rfl
  unfold cell at hcell
  cases ho : m.heap[id]? with
  | none =>
      rw [ho] at hcell
      exact bind_error hcell
  | some o =>
      rw [ho] at hcell
      refine (bind_done hcell).trans ?_
      cases o with
      | arr a => exact absurd ho (hid a)
      | _ => rfl

/-- What a failed sort leaves: what the comparisons have made of the state. -/
def Failed (A : Mem → Mem → Prop) (E : Err → Prop) (copy : Bool) (id : ℕ) (m m' : Mem) (e : Err) :
    Prop :=
  A m m' ∧ (E e ∨ copy = false ∧ e = .panic ∧ ∀ a, m'.heap[id]? ≠ some (.arr a))

/-- The array is read before and written after the sort. -/
theorem sortM_ends [IsPreorder Mem A] (hid : m.heap[id]? = some (.arr items))
    (hargs : args.head?.getD .undef = cmp)
    (hcall : cmp = .undef ∨ callable m.heap cmp = .ok true)
    (hfollows : (sorted h cmp (items.filter (· ≠ .undef))).Follows A)
    (hsorted : (sorted h cmp (items.filter (· ≠ .undef))).Gives A P E) :
    (sortM h copy id this args m).Ends A fun m' r =>
      (∀ v, r = .ok v → ∃ front, P front ∧
        Stored copy id this v (front ++ List.replicate (items.count .undef) .undef) m') ∧
      ∀ e, r = .error e → Failed A E copy id m m' e := by
  subst hargs
  have hok : comparable (args.head?.getD .undef) m = .done m (.ok true) := by
    unfold comparable
    split
    · rfl
    · change Lib.Calls.done m (callable m.heap _) = _
      rw [hcall.resolve_left ‹_›]
  have hends := (hsorted m).and (.of_follows (hfollows m) (refl_of A m))
  unfold sortM
  rw [bind_done hok]
  simp only [↓reduceIte]
  rw [bind_done (arrM_arr hid)]
  refine Lib.CallM.ends_bind hends (fun m' front hfront => ?_) fun m' e he =>
    ⟨fun v hv => (by cases hv), fun e' he' =>
      ⟨he.2, .inl (Except.error.inj he' ▸ he.1.2 e rfl)⟩⟩
  have hP := hfront.1.1 front rfl
  cases copy
  · by_cases harr : ∃ a, m'.heap[id]? = some (.arr a)
    · obtain ⟨a, ha⟩ := harr
      simp only [Bool.false_eq_true, ↓reduceIte]
      rw [bind_done (arrM_arr ha)]
      refine .done ⟨fun v hv => ⟨front, hP, ?_⟩, fun e he => by cases he⟩
      have hlt : id < m'.heap.length := (List.getElem?_eq_some_iff.1 ha).1
      have hwritten := overwrite_eq a (front ++ List.replicate (items.count .undef) Val.undef) []
      simp only [List.nil_append, List.length_nil] at hwritten
      have hget := List.getElem?_set_self (a := Obj.arr (overwrite a 0
        (front ++ List.replicate (items.count .undef) Val.undef))) hlt
      exact ⟨(Except.ok.inj hv).symm, _,
        hget.trans (congrArg (fun a => some (Obj.arr a)) hwritten)⟩
    · have hnone : ∀ a, m'.heap[id]? ≠ some (.arr a) := fun a ha => harr ⟨a, ha⟩
      simp only [Bool.false_eq_true, ↓reduceIte]
      rw [bind_error (arrM_panic hnone)]
      exact .done ⟨fun v hv => (by cases hv), fun e he =>
        ⟨hfront.2, .inr ⟨rfl, (Except.error.inj he).symm, hnone⟩⟩⟩
  · refine .done ⟨fun v hv => ⟨front, hP, ?_⟩, fun e he => by cases he⟩
    exact ⟨m'.heap.length, (Except.ok.inj hv).symm, by simp⟩

/-- The elements that have been sorted, with those that are `undefined` behind them, are those of
the array. -/
theorem perm_undefined_last {front : List Val} (h : front.Perm (items.filter (· ≠ .undef))) :
    (front ++ List.replicate (items.count .undef) Val.undef).Perm items ∧ Val.undef ∉ front := by
  constructor
  · rw [← List.filter_eq]
    refine (h.append_right _).trans ?_
    have hsplit := List.filter_append_perm (fun x => decide (x ≠ Val.undef)) items
    simpa using hsplit
  · intro hmem
    simpa using h.mem_iff.1 hmem

/-- **Whatever the comparison does, the sort permutes.**  It ends with the elements of the array,
those that are `undefined` last, or with an error of a comparison, and then the comparisons are all
that has changed anything.  An array that they have made something else is the one thing that the
sort does not stand. -/
theorem sort_permutes [IsPreorder Mem A] (hid : m.heap[id]? = some (.arr items))
    (hargs : args.head?.getD .undef = cmp)
    (hcall : cmp = .undef ∨ callable m.heap cmp = .ok true)
    (hcmp : ∀ x ∈ items.filter (· ≠ .undef), ∀ y ∈ items.filter (· ≠ .undef),
      (sortCompare h cmp x y).Follows A ∧ (sortCompare h cmp x y).Gives A (fun _ => True) E) :
    (sortM h copy id this args m).Ends A fun m' r =>
      (∀ v, r = .ok v → ∃ front n, (front ++ List.replicate n Val.undef).Perm items ∧
        Val.undef ∉ front ∧ Stored copy id this v (front ++ List.replicate n .undef) m') ∧
      ∀ e, r = .error e → Failed A E copy id m m' e := by
  have hsorted : (sorted h cmp (items.filter (· ≠ .undef))).Gives A
      (fun front => front.Perm (items.filter (· ≠ .undef))) E := by
    refine asked_gives (fun p q hl => ?_) (Timsort.yields_any _)
    refine (hcmp _ hl.1 _ hl.2).2.mono fun d _ => ?_
    split <;> trivial
  have hfollows := sorted_follows fun x hx y hy => (hcmp x hx y hy).1
  refine (sortM_ends hid hargs hcall hfollows hsorted).mono ?_
  rintro m' r ⟨hok, herr⟩
  refine ⟨fun v hv => ?_, herr⟩
  obtain ⟨front, hfront, hstored⟩ := hok v hv
  obtain ⟨hperm, hundef⟩ := perm_undefined_last hfront
  exact ⟨front, _, hperm, hundef, hstored⟩

/-- **Where the comparison orders the elements, the sort is stable.**  The elements that are not
`undefined` end in order, and of those every part of the array that was in order stays as it was. -/
theorem sort_stable [IsPreorder Mem A] {lt : Val → Val → Bool}
    (hid : m.heap[id]? = some (.arr items)) (hargs : args.head?.getD .undef = cmp)
    (hcall : cmp = .undef ∨ callable m.heap cmp = .ok true)
    (ho : Orders (fun x y => lt x y = true) (items.filter (· ≠ .undef)))
    (hcmp : ∀ x ∈ items.filter (· ≠ .undef), ∀ y ∈ items.filter (· ≠ .undef),
      (sortCompare h cmp x y).Follows A ∧
        (sortCompare h cmp x y).Gives A (fun d => d.lt .zero = lt x y) E) :
    (sortM h copy id this args m).Ends A fun m' r =>
      (∀ v, r = .ok v → ∃ front n, (front ++ List.replicate n Val.undef).Perm items ∧
        Val.undef ∉ front ∧ front.Pairwise (fun x y => lt y x = false) ∧
        (∀ c : List Val, c.Sublist (items.filter (· ≠ .undef)) →
          c.Pairwise (fun x y => lt y x = false) → c.Sublist front) ∧
        Stored copy id this v (front ++ List.replicate n .undef) m') ∧
      ∀ e, r = .error e → Failed A E copy id m m' e := by
  have hsorted : (sorted h cmp (items.filter (· ≠ .undef))).Gives A
      (fun front => front.Perm (items.filter (· ≠ .undef)) ∧
        front.Pairwise (fun x y => ¬ lt y x = true) ∧
        ∀ c : List Val, c.Sublist (items.filter (· ≠ .undef)) →
          c.Pairwise (fun x y => ¬ lt y x = true) → c.Sublist front) E := by
    refine asked_gives (fun p q hl => ?_) (Timsort.yields_stable ho)
    obtain ⟨hp, hq, hplace⟩ := hl
    refine (hcmp _ hp _ hq).2.mono fun d hd => ?_
    rw [hd]
    split
    · rename_i h
      exact ⟨hp, hq, .inl h⟩
    · rename_i h
      exact ⟨hq, hp, .inr ⟨h, hplace⟩⟩
  have hfollows := sorted_follows fun x hx y hy => (hcmp x hx y hy).1
  refine (sortM_ends hid hargs hcall hfollows hsorted).mono ?_
  rintro m' r ⟨hok, herr⟩
  refine ⟨fun v hv => ?_, herr⟩
  obtain ⟨front, ⟨hperm, hsort, hstable⟩, hstored⟩ := hok v hv
  obtain ⟨hperm, hundef⟩ := perm_undefined_last hperm
  simp only [Bool.not_eq_true] at hsort hstable
  exact ⟨front, _, hperm, hundef, hsort, hstable, hstored⟩

end Ends

/-! ## Texts -/

/-- The order of texts by their UTF-16 units. -/
def textLess : Val → Val → Bool
  | .str a, .str b => decide (Lib.Text.encodeUtf16 a < Lib.Text.encodeUtf16 b)
  | _, _ => false

theorem orders_textLess {work : List Val} (htext : ∀ x ∈ work, ∃ s, x = .str s) :
    Orders (fun x y => textLess x y = true) work where
  asymm x hx y hy h := by
    obtain ⟨a, rfl⟩ := htext x hx
    obtain ⟨b, rfl⟩ := htext y hy
    simp only [textLess, decide_eq_true_eq] at h ⊢
    exact lt_asymm h
  trans x hx y hy z hz h h' := by
    obtain ⟨a, rfl⟩ := htext x hx
    obtain ⟨b, rfl⟩ := htext y hy
    obtain ⟨c, rfl⟩ := htext z hz
    simp only [textLess, decide_eq_true_eq, not_lt] at h h' ⊢
    exact h.trans h'

theorem one_neg_lt_zero : Double.one.neg.lt .zero = true :=
  Double.lt_zero_fin Double.ONE_pos.ne'

theorem zero_lt_zero : Double.zero.lt .zero = false := by
  simp [Double.lt, Double.cmp, Double.zero]

theorem one_lt_zero : Double.one.lt .zero = false :=
  Double.lt_zero_fin Double.ONE_pos.ne'

/-- Without a comparison texts are compared, which neither fails nor changes anything. -/
theorem sortCompare_text (h : Host) (a b : String) (m : Mem) :
    ∃ d, sortCompare h .undef (.str a) (.str b) m = .done m (.ok d) ∧
      d.lt .zero = textLess (.str a) (.str b) := by
  have htext : ∀ s : String, onHeap (fun heap => toStr heap h.stack (.str s)) m =
      .done m (.ok s) := fun s => by
    change Lib.Calls.done m (toStr m.heap h.stack (.str s)) = _
    rw [toStr]
    rfl
  unfold sortCompare
  rw [if_pos rfl, bind_done (htext a), bind_done (htext b), Evaluators.textOrder_eq,
    Lib.Text.compare_eq]
  refine ⟨_, rfl, ?_⟩
  simp only [textLess]
  by_cases hlt : Lib.Text.encodeUtf16 a < Lib.Text.encodeUtf16 b
  · rw [if_pos hlt, decide_eq_true hlt]
    exact one_neg_lt_zero
  · rw [if_neg hlt, decide_eq_false hlt]
    by_cases hgt : Lib.Text.encodeUtf16 b < Lib.Text.encodeUtf16 a
    · rw [if_pos hgt]
      exact one_lt_zero
    · rw [if_neg hgt]
      exact zero_lt_zero

/-- An array of two texts and a hole. -/
def twoTexts : Mem := ⟨[.arr [.str "b", .undef, .str "a"]], [], [], []⟩

theorem twoTexts_text {x : Val} (hx : x ∈ [Val.str "b", .undef, .str "a"].filter (· ≠ .undef)) :
    ∃ s, x = .str s := by
  have hmem : x ∈ [Val.str "b", .str "a"] := hx
  rcases List.mem_cons.1 hmem with rfl | hmem
  · exact ⟨_, rfl⟩
  · exact ⟨_, List.mem_singleton.1 hmem⟩

theorem twoTexts_compare {x y : Val}
    (hx : x ∈ [Val.str "b", .undef, .str "a"].filter (· ≠ .undef))
    (hy : y ∈ [Val.str "b", .undef, .str "a"].filter (· ≠ .undef)) :
    (sortCompare failingHost .undef x y).Follows Eq ∧
      (sortCompare failingHost .undef x y).Gives Eq (fun d => d.lt .zero = textLess x y)
        fun _ => False := by
  obtain ⟨a, rfl⟩ := twoTexts_text hx
  obtain ⟨b, rfl⟩ := twoTexts_text hy
  constructor
  · intro m
    obtain ⟨d, hd, -⟩ := sortCompare_text failingHost a b m
    rw [hd]
    exact rfl
  · intro m
    obtain ⟨d, hd, hlt⟩ := sortCompare_text failingHost a b m
    rw [hd]
    exact .done (Lib.CallM.outcome_ok hlt)

/-- Two texts are sorted, and nothing fails. -/
theorem sort_permutes_texts :
    (sortM failingHost false 0 (.obj 0) [] twoTexts).Ends Eq fun m' r =>
      (∀ v, r = .ok v → ∃ front n,
        (front ++ List.replicate n Val.undef).Perm [.str "b", .undef, .str "a"] ∧
        Val.undef ∉ front ∧
        Stored false 0 (.obj 0) v (front ++ List.replicate n .undef) m') ∧
      ∀ e, r = .error e → Failed Eq (fun _ => False) false 0 twoTexts m' e :=
  sort_permutes rfl rfl (.inl rfl) fun _ hx _ hy =>
    ⟨(twoTexts_compare hx hy).1, (twoTexts_compare hx hy).2.mono fun _ _ => trivial⟩

/-- They come in the order of their units. -/
theorem sort_stable_texts :
    (sortM failingHost false 0 (.obj 0) [] twoTexts).Ends Eq fun m' r =>
      (∀ v, r = .ok v → ∃ front n,
        (front ++ List.replicate n Val.undef).Perm [.str "b", .undef, .str "a"] ∧
        Val.undef ∉ front ∧ front.Pairwise (fun x y => textLess y x = false) ∧
        (∀ c : List Val, c.Sublist ([Val.str "b", .undef, .str "a"].filter (· ≠ .undef)) →
          c.Pairwise (fun x y => textLess y x = false) → c.Sublist front) ∧
        Stored false 0 (.obj 0) v (front ++ List.replicate n .undef) m') ∧
      ∀ e, r = .error e → Failed Eq (fun _ => False) false 0 twoTexts m' e :=
  sort_stable rfl rfl (.inl rfl) (orders_textLess fun _ => twoTexts_text)
    fun _ hx _ hy => twoTexts_compare hx hy

end Interp
end Lunar
