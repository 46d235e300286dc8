/-
# The field analysis as a whole

`worktime/fc.rs`: `analyze` with `Solver::verdict`, over `Program::build` and the solver.  For every
list of instructions it ends with one answer, and nothing is out of range on the way
(`analyze_ends`): the build refuses, or nothing in the program can have a source, or the solver
empties its work list and the answer is read off what it has found (`Judges`).

That the paths of the answer can be rendered rests on three things that every turn of the solver
keeps (`Traced`): the path table is a trie, its keys are those of the program, and the query only
names paths of the table.
-/

import Lunar.Worktime.Fc.Build.Named
import Lunar.Worktime.Fc.Build.Preserve
import Lunar.Worktime.Fc.Termination
import Lunar.Worktime.Fc.Trie

namespace Lunar
namespace Fc

open Worktime (Instr Op Operand PoolRef PowKeys)

/-! ## The answer -/

inductive FcUsage
  | independent
  | dependent (overrides : FcOverrides)

/-- What `verdict` finds for parameter `j`.  On the way to the root the ids fall, so that the fuel
is enough. -/
def found (p : Program) (s : Facts) (j : ℕ) : ExceptT FcError Option (Option FcPath) :=
  if s.query j = .clean then return none
  else
    match (s.query j).split with
    | none => throw (.untrackable PARAMS[j]!)
    | some (id, derived) => do
      match ← (render p s.paths (id + 1) id : Option (Option (List String))) with
      | some steps => return some ⟨steps, derived⟩
      | none => throw (.untrackable PARAMS[j]!)

/-- `Solver::verdict`. -/
def verdict (p : Program) (s : Facts) : ExceptT FcError Option FcUsage :=
  if (List.range p.instrs.length).any s.fired then do
    let difficulty ← found p s 0
    let subCount ← found p s 1
    let seedSuffix ← found p s 2
    let seedPhrase ← found p s 3
    if [difficulty, subCount, seedSuffix, seedPhrase].all Option.isNone then return .independent
    else return .dependent ⟨difficulty, subCount, seedSuffix, seedPhrase⟩
  else return .independent

/-- `while solver.step() {}`, for at most `turns` turns, each with `fuel` for its run. -/
def solve (p : Program) (fuel : ℕ) : ℕ → Solver → Option Solver
  | 0, _ => none
  | turns + 1, s =>
    match s.queue with
    | [] => some s
    | _ => (s.step p fuel).bind (solve p fuel turns)

/-- `analyze`; `none` is an index out of range, or a run that is out of fuel. -/
def analyze (fuel : ℕ) (instrs : List Instr) (pool : List UInt16) (keys : PowKeys) :
    Option (Except FcError FcUsage) :=
  match build instrs pool keys with
  | .error e => some (.error e)
  | .ok built =>
    if built.seeded then
      (solve built.program fuel fuel (.new built.program)).bind fun s =>
        (verdict built.program s.facts).run
    else some (.ok .independent)

/-! ## What the answer says -/

/-- The override of parameter `j`. -/
def FcOverrides.at_ (o : FcOverrides) : ℕ → Option FcPath
  | 0 => o.difficulty
  | 1 => o.subCount
  | 2 => o.seedSuffix
  | _ => o.seedPhrase

/-- The parameter is read without a source, or from the path that is named, whose keys are all
known. -/
def Tracked (p : Program) (s : Facts) (j : ℕ) : Option FcPath → Prop
  | none => s.query j = .clean
  | some path => ∃ id keys, s.query j = .path id path.derived ∧ Keyed s.paths id keys ∧
      p.wild ∉ keys ∧ path.steps = keys.map p.text

/-- The parameter is read from something that is no path, or from a path with an unknown key. -/
def Untracked (p : Program) (s : Facts) (j : ℕ) : Prop :=
  s.query j = .lost ∨
    ∃ id derived keys, s.query j = .path id derived ∧ Keyed s.paths id keys ∧ p.wild ∈ keys

/-- What is answered from what the solver has found. -/
inductive Judges (p : Program) (s : Facts) : Except FcError FcUsage → Prop
  | unfired (h : ∀ i < p.instrs.length, s.fired i = false) : Judges p s (.ok .independent)
  | unread (h : ∀ j < 4, s.query j = .clean) : Judges p s (.ok .independent)
  | untrackable {i j : ℕ} (hi : i < p.instrs.length) (hfired : s.fired i = true) (hj : j < 4)
      (h : Untracked p s j) (hbefore : ∀ k < j, ¬Untracked p s k) :
      Judges p s (.error (.untrackable PARAMS[j]!))
  | dependent {i j : ℕ} {overrides : FcOverrides} (hi : i < p.instrs.length)
      (hfired : s.fired i = true) (h : ∀ k < 4, Tracked p s k (overrides.at_ k)) (hj : j < 4)
      (hsome : overrides.at_ j ≠ none) : Judges p s (.ok (.dependent overrides))

/-- What the analysis answers. -/
inductive Analyzes (instrs : List Instr) (pool : List UInt16) (keys : PowKeys) :
    Except FcError FcUsage → Prop
  | refused {e : FcError} (h : build instrs pool keys = .error e) :
      Analyzes instrs pool keys (.error e)
  | unseeded {built : Built} (h : build instrs pool keys = .ok built)
      (hseeded : built.seeded = false) : Analyzes instrs pool keys (.ok .independent)
  | solved {built : Built} {s : Solver} {r : Except FcError FcUsage}
      (h : build instrs pool keys = .ok built) (hseeded : built.seeded = true)
      (hs : (Solver.system built.program).Reachable s) (hq : s.queue = [])
      (hr : Judges built.program s.facts r) : Analyzes instrs pool keys r

/-! ## What every turn of the solver keeps -/

/-- Children are asked for of nodes of the table, at keys of the program. -/
def Rules.trie (p : Program) : Rules p where
  node g parent := parent < g.1
  child g parent key := parent < g.1 ∧ key ≤ p.wild
  query g t := t.Known g
  child_known h h' := ⟨h, h'⟩
  child_node h h' := ⟨h, h'⟩
  query_known h := h

namespace Solver

variable {p : Program} {s t : Solver}

/-- The path table is a trie, and the query names paths of it. -/
structure Traced (p : Program) (s : Solver) : Prop where
  trie : Trie p s.facts
  query : ∀ j, (s.facts.query j).Known (s.stage p)

theorem rd_facts (s : Solver) (l : Loc) : (s.rd l).2.facts = s.facts := by
  rw [Solver.rd]
  dsimp only
  split
  · split
    · rfl
    · rfl
  · rfl

theorem foldl_enqueue_facts (fs : List ℕ) (s : Solver) : (fs.foldl enqueue s).facts = s.facts := by
  induction fs generalizing s with
  | nil => rfl
  | cons f fs ih =>
      rw [List.foldl_cons, ih, enqueue]
      split
      · rfl
      · rfl

theorem wr_facts (s : Solver) (l : Loc) (v : Val) : (s.wr l v).facts = s.facts := by
  rw [Solver.wr]
  dsimp only
  split
  · rfl
  · split
    · rw [notify, foldl_enqueue_facts]
    · rfl

theorem Traced.of_facts (h : s.Traced p) (hfacts : t.facts = s.facts) : t.Traced p := by
  have hstage : t.stage p = s.stage p :=
    Subtype.ext (congrArg (fun facts => max _ (Facts.paths facts).length) hfacts)
  refine ⟨hfacts ▸ h.trie, fun j => ?_⟩
  rw [hstage, hfacts]
  exact h.query j

/-- A number of the table. -/
theorem Ready.lt_length (hs : s.Ready p) {id : ℕ} (hid : id < (s.stage p).1) :
    id < s.facts.paths.length := by
  have hlt : id < max (Facts.new p).2.2.paths.length s.facts.paths.length := hid
  have hpaths := hs.paths
  omega

/-- **The operations of a run** keep what the answer rests on. -/
theorem honours_traced (p : Program) : Lib.Honours handler (contract (.trie p)) (stage p)
    (fun s => s.Running p ∧ s.Traced p) fun _ _ => True where
  refl _ := trivial
  trans _ _ := trivial
  rd {s l} hs := by
    obtain ⟨hrun, hstage, -⟩ := hs.1.rd l
    exact ⟨hs.1.vals l, ⟨hrun, hs.2.of_facts (rd_facts s l)⟩, hstage, trivial⟩
  wr {s l v} hs hl hv := by
    obtain ⟨hrun, hstage, -⟩ := hs.1.wr hl hv
    exact ⟨⟨hrun, hs.2.of_facts (wr_facts s l v)⟩, hstage, trivial⟩
  ask {s q} hs hq := by
    obtain ⟨hrun, htraced⟩ := hs
    cases q with
    | node id =>
        have hid := hrun.lt_length hq
        refine ⟨s.facts.paths.get ⟨id, hid⟩, s, ?_, ⟨le_refl _, fun hroot => ?_⟩,
          ⟨hrun, htraced⟩, trivial⟩
        · simp only [handler, answer, List.getElem?_eq_getElem hid, Option.map_some]
          rfl
        · have hnode : s.facts.paths[id]? = some (s.facts.paths.get ⟨id, hid⟩) :=
            List.getElem?_eq_getElem hid
          exact Nat.lt_trans (htraced.trie.node hroot hnode).1 hq
    | child parent key derived =>
        obtain ⟨hparent, hkey⟩ := hq
        obtain ⟨hsane, hle, hpath⟩ := Facts.child_spec hrun.sane parent key derived
        obtain ⟨hrun', hstage⟩ := hrun.learn hsane hle
        refine ⟨_, _, rfl, ⟨hstage, fun id d ht => ?_⟩, ⟨hrun', ?_, fun j => ?_⟩, trivial⟩
        · exact Nat.lt_of_lt_of_le (hpath id d ht) (Nat.le_max_right ..)
        · exact htraced.trie.child (hrun.lt_length hparent) hkey derived
        · have hquery : (s.facts.child parent key derived).2.query = s.facts.query := by
            unfold Facts.child
            split
            · rfl
            · split
              · rfl
              · rfl
          exact hquery ▸ (htraced.query j).mono hstage
    | fire i =>
        refine ⟨_, _, rfl, ⟨le_refl _, trivial⟩, ⟨⟨?_, hrun.cur⟩, ?_⟩, trivial⟩
        · exact ⟨hrun.paths, hrun.sane, hrun.vals, hrun.queue, hrun.readers⟩
        · exact ⟨⟨htraced.trie.root, htraced.trie.node, htraced.trie.ids, htraced.trie.room⟩,
            htraced.query⟩
    | query j t =>
        refine ⟨_, _, rfl, ⟨le_refl _, trivial⟩, ⟨⟨?_, hrun.cur⟩, ?_, fun k => ?_⟩, trivial⟩
        · exact ⟨hrun.paths, hrun.sane, hrun.vals, hrun.queue, hrun.readers⟩
        · exact ⟨htraced.trie.root, htraced.trie.node, htraced.trie.ids, htraced.trie.room⟩
        · dsimp only
          split
          · exact (htraced.query j).sup hq
          · exact htraced.query k

/-- A new solver has a trie of at most two children of the root. -/
theorem traced_new (hp : p.Named) : (new p).Traced p := by
  have hchild {s : Facts} (hs : Trie p s) {key : ℕ} (hkey : key < p.wild) :
      Trie p (s.child ROOT key false).2 :=
    hs.child (List.getElem?_eq_some_iff.1 hs.root).1 hkey.le false
  have htrie : Trie p (Facts.new p).2.2 := by
    rw [Facts.new]
    cases hdyn : p.dynKey with
    | none =>
        cases hff : p.ffKey with
        | none => exact Trie.empty
        | some ff => exact hchild Trie.empty (hp.ff ff hff)
    | some dyn =>
        cases hff : p.ffKey with
        | none => exact hchild Trie.empty (hp.dyn dyn hdyn)
        | some ff => exact hchild (hchild Trie.empty (hp.dyn dyn hdyn)) (hp.ff ff hff)
  have hquery {s : Facts} (hs : ∀ j, s.query j = .clean) (key : ℕ) (j : ℕ) :
      (s.child ROOT key false).2.query j = .clean := by
    unfold Facts.child
    split
    · exact hs j
    · split
      · exact hs j
      · exact hs j
  have hclean (j : ℕ) : (Facts.new p).2.2.query j = .clean := by
    rw [Facts.new]
    cases p.dynKey with
    | none =>
        cases p.ffKey with
        | none => rfl
        | some ff => exact hquery (fun _ => rfl) ff j
    | some dyn =>
        cases p.ffKey with
        | none => exact hquery (fun _ => rfl) dyn j
        | some ff => exact hquery (hquery (fun _ => rfl) dyn) ff j
  exact ⟨htrie, fun j => (hclean j).symm ▸ Taint.known_clean⟩

/-- **A turn** keeps what the answer rests on. -/
theorem step_traced (hp : p.Wf) (hs : s.Ready p) (h : s.Traced p) {fuel : ℕ}
    (hstep : step p s fuel = some t) : t.Ready p ∧ t.Traced p := by
  have hq : s.queue ≠ [] := by
    intro hq
    rw [step, hq] at hstep
    cases hstep
  obtain ⟨f, rest, hq'⟩ := List.exists_cons_of_ne_nil hq
  obtain ⟨hrun, -⟩ := hs.pop hq'
  obtain ⟨func, hfunc⟩ : ∃ func, p.funcs[f]? = some func :=
    ⟨_, List.getElem?_eq_getElem hrun.cur⟩
  obtain ⟨st, u, hx, -, ⟨hrun', htraced⟩, -⟩ := (honours_traced p).exec
    (s := s.pop f rest) ⟨hrun, h.of_facts rfl⟩
    (gives_run (g := (s.pop f rest).stage p) ⟨hp, hfunc⟩)
  have hu : step p s func.fuel = some u := by
    rw [step, hq']
    dsimp only
    rw [hfunc, Option.bind_some, hx]
    rfl
  obtain ⟨_, _, -, -, -, huniq⟩ := step_spec hp hs hq
  rw [huniq fuel t hstep, ← huniq _ u hu]
  exact ⟨hrun'.toReady, htraced⟩

theorem reachable_traced (hp : p.Wf) (hn : p.Named) (hs : (system p).Reachable s) :
    s.Ready p ∧ s.Traced p :=
  hs.invariant ⟨ready_new p, traced_new hn⟩ fun _ _ _ _ h hstep => step_traced hp h.1 h.2 hstep

/-! ## The loop -/

theorem solve_some {fuel turns : ℕ} (h : solve p fuel turns s = some t) :
    (system p).Steps s t ∧ t.queue = [] := by
  induction turns generalizing s with
  | zero => cases h
  | succ turns ih =>
      rw [solve] at h
      split at h
      · next hq =>
          cases h
          exact ⟨.refl, hq⟩
      · obtain ⟨u, hu, h⟩ := Option.bind_eq_some_iff.1 h
        obtain ⟨hsteps, hq⟩ := ih h
        exact ⟨.trans (.tail .refl hu) hsteps, hq⟩

end Solver

/-! ## The answer of the analysis -/

section Answer

variable {p : Program} {s : Facts} {j : ℕ}

/-- A parameter is not both. -/
theorem Tracked.not_untracked {o : Option FcPath} (h : Tracked p s j o) : ¬Untracked p s j := by
  rintro (hlost | ⟨id, derived, keys, hpath, hkeyed, hwild⟩)
  · cases o with
    | none => cases hlost.symm.trans h
    | some path =>
        obtain ⟨id, keys, hquery, -⟩ := h
        cases hlost.symm.trans hquery
  · cases o with
    | none => cases hpath.symm.trans h
    | some path =>
        obtain ⟨id', keys', hquery, hkeyed', hknown, -⟩ := h
        cases hpath.symm.trans hquery
        exact hknown (hkeyed.keys_eq hkeyed' ▸ hwild)

/-- **What is found for a parameter**: its path, or that it has none. -/
theorem found_cases (hn : p.Named) (htrie : Trie p s)
    (hquery : ∀ id derived, s.query j = .path id derived → id < s.paths.length) :
    (∃ o, found p s j = pure o ∧ Tracked p s j o) ∨
      found p s j = throw (.untrackable PARAMS[j]!) ∧ Untracked p s j := by
  rw [found]
  cases ht : s.query j with
  | clean => exact .inl ⟨none, rfl, ht⟩
  | lost => exact .inr ⟨rfl, .inl ht⟩
  | path id derived =>
      obtain ⟨keys, hkeys⟩ := htrie.exists_keyed (hquery id derived ht)
      have hrender := hkeys.render hn.lit htrie (id + 1) [] (Nat.lt_succ_self id)
      rw [List.append_nil] at hrender
      rw [if_neg nofun]
      dsimp only [Taint.split]
      rw [render, hrender]
      by_cases hwild : p.wild ∈ keys
      · rw [if_pos hwild]
        exact .inr ⟨rfl, .inr ⟨id, derived, keys, ht, hkeys, hwild⟩⟩
      · rw [if_neg hwild]
        exact .inl ⟨_, rfl, id, keys, ht, hkeys, hwild, rfl⟩

/-- None of the parameters before `j` is without a path. -/
def Clear (p : Program) (s : Facts) (j : ℕ) : Prop := ∀ k < j, ¬Untracked p s k

theorem Clear.next (h : Clear p s j) {o : Option FcPath} (ho : Tracked p s j o) :
    Clear p s (j + 1) := by
  intro k hk
  rcases Nat.lt_succ_iff_lt_or_eq.1 hk with hlt | rfl
  · exact h k hlt
  · exact ho.not_untracked

/-- **One parameter** of the verdict: it has no path, which is the answer, or the next one is
looked for. -/
theorem judges_bind (hn : p.Named) (htrie : Trie p s)
    (hquery : ∀ j id derived, s.query j = .path id derived → id < s.paths.length) {i : ℕ}
    (hi : i < p.instrs.length) (hfired : s.fired i = true) (hj : j < 4) (hbefore : Clear p s j)
    {f : Option FcPath → ExceptT FcError Option FcUsage}
    (hf : ∀ o, Tracked p s j o → ∃ r, (f o).run = some r ∧ Judges p s r) :
    ∃ r, (found p s j >>= f).run = some r ∧ Judges p s r := by
  rcases found_cases hn htrie (hquery j) with ⟨o, ho, htracked⟩ | ⟨hlost, huntracked⟩
  · rw [ho]
    exact hf o htracked
  · rw [hlost]
    exact ⟨_, rfl, .untrackable hi hfired hj huntracked hbefore⟩

/-- The overrides of parameters that all have a path or no source. -/
theorem judges_overrides {i : ℕ} (hi : i < p.instrs.length) (hfired : s.fired i = true)
    {o : FcOverrides} (ho : ∀ k < 4, Tracked p s k (o.at_ k)) :
    Judges p s (.ok (if [o.difficulty, o.subCount, o.seedSuffix, o.seedPhrase].all Option.isNone
      then .independent else .dependent o)) := by
  have hall : [o.difficulty, o.subCount, o.seedSuffix, o.seedPhrase].all Option.isNone = true ↔
      ∀ k < 4, o.at_ k = none := by
    simp only [List.all_cons, List.all_nil, Bool.and_true, Bool.and_eq_true,
      Option.isNone_iff_eq_none]
    constructor
    · rintro ⟨h₀, h₁, h₂, h₃⟩ k hk
      obtain rfl | rfl | rfl | rfl : k = 0 ∨ k = 1 ∨ k = 2 ∨ k = 3 := by omega
      · exact h₀
      · exact h₁
      · exact h₂
      · exact h₃
    · exact fun h => ⟨h 0 (by decide), h 1 (by decide), h 2 (by decide), h 3 (by decide)⟩
  by_cases hnone : ∀ k < 4, o.at_ k = none
  · rw [if_pos (hall.2 hnone)]
    refine .unread fun k hk => ?_
    have htracked := ho k hk
    rw [hnone k hk] at htracked
    exact htracked
  · rw [if_neg (mt hall.1 hnone)]
    obtain ⟨k, hk⟩ := not_forall.1 hnone
    obtain ⟨hk, hsome⟩ := Classical.not_imp.1 hk
    exact .dependent hi hfired ho hk hsome

/-- **The verdict** is what the facts say. -/
theorem verdict_judges (hn : p.Named) (htrie : Trie p s)
    (hquery : ∀ j id derived, s.query j = .path id derived → id < s.paths.length) :
    ∃ r, (verdict p s).run = some r ∧ Judges p s r := by
  rw [verdict]
  by_cases hfired : (List.range p.instrs.length).any s.fired = true
  · rw [if_pos hfired]
    obtain ⟨i, hi, hfire⟩ := List.any_eq_true.1 hfired
    have hi := List.mem_range.1 hi
    have hclear : Clear p s 0 := fun k hk => absurd hk (Nat.not_lt_zero k)
    refine judges_bind hn htrie hquery hi hfire (by decide) hclear fun a ha => ?_
    have hclear := hclear.next ha
    refine judges_bind hn htrie hquery hi hfire (by decide) hclear fun b hb => ?_
    have hclear := hclear.next hb
    refine judges_bind hn htrie hquery hi hfire (by decide) hclear fun c hc => ?_
    refine judges_bind hn htrie hquery hi hfire (by decide) (hclear.next hc) fun d hd => ?_
    have htracked : ∀ k < 4, Tracked p s k ((⟨a, b, c, d⟩ : FcOverrides).at_ k) := by
      intro k hk
      obtain rfl | rfl | rfl | rfl : k = 0 ∨ k = 1 ∨ k = 2 ∨ k = 3 := by omega
      · exact ha
      · exact hb
      · exact hc
      · exact hd
    refine ⟨_, ?_, judges_overrides hi hfire htracked⟩
    split
    · rfl
    · rfl
  · rw [if_neg hfired]
    refine ⟨.ok .independent, rfl, .unfired fun i hi => ?_⟩
    exact Bool.eq_false_iff.2 fun hfire =>
      hfired (List.any_eq_true.2 ⟨i, List.mem_range.2 hi, hfire⟩)

end Answer

/-- The solver's end is judged. -/
theorem solved_judges {p : Program} (hp : p.Wf) (hn : p.Named) {s : Solver}
    (hs : (Solver.system p).Reachable s) :
    ∃ r, (verdict p s.facts).run = some r ∧ Judges p s.facts r := by
  obtain ⟨hready, htraced⟩ := Solver.reachable_traced hp hn hs
  exact verdict_judges hn htraced.trie fun j id derived hpath =>
    hready.lt_length (htraced.query j id derived hpath)

section Analysis

variable {instrs : List Instr} {pool : List UInt16} {keys : PowKeys} {fuel : ℕ}

theorem analyze_refused {e : FcError} (h : build instrs pool keys = .error e) :
    analyze fuel instrs pool keys = some (.error e) := by
  rw [analyze, h]

theorem analyze_unseeded {built : Built} (h : build instrs pool keys = .ok built)
    (hseeded : built.seeded = false) :
    analyze fuel instrs pool keys = some (.ok .independent) := by
  rw [analyze, h]
  dsimp only
  rw [hseeded, if_neg Bool.false_ne_true]

theorem analyze_seeded {built : Built} (h : build instrs pool keys = .ok built)
    (hseeded : built.seeded = true) : analyze fuel instrs pool keys =
      (solve built.program fuel fuel (.new built.program)).bind fun s =>
        (verdict built.program s.facts).run := by
  rw [analyze, h]
  dsimp only
  rw [hseeded, if_pos rfl]

theorem build_wf {built : Built} (h : build instrs pool keys = .ok built) : built.program.Wf := by
  obtain ⟨_, _, _, _, hst⟩ := build_stages h
  exact hst.wf

/-- **What the analysis answers.** -/
theorem analyzes_of_analyze {r : Except FcError FcUsage}
    (h : analyze fuel instrs pool keys = some r) : Analyzes instrs pool keys r := by
  cases hbuild : build instrs pool keys with
  | error e =>
      cases (analyze_refused hbuild).symm.trans h
      exact .refused hbuild
  | ok built =>
      cases hseeded : built.seeded with
      | false =>
          cases (analyze_unseeded hbuild hseeded).symm.trans h
          exact .unseeded hbuild hseeded
      | true =>
          rw [analyze_seeded hbuild hseeded] at h
          obtain ⟨s, hsolve, h⟩ := Option.bind_eq_some_iff.1 h
          obtain ⟨hs, hq⟩ := Solver.solve_some hsolve
          obtain ⟨r', hr, hjudges⟩ := solved_judges (build_wf hbuild) (build_named hbuild) hs
          cases hr.symm.trans h
          exact .solved hbuild hseeded hs hq hjudges

end Analysis

end Fc
end Lunar
