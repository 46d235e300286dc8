/-
# Scopes and slots of activations

`payload/exec.rs`: `run`, `exec` and `ops`.  The scope of a leaf function is dropped when its call
ends and it is the last one; every other scope stays.

`Sound` is what holds of a state while the activations of a list run, the innermost first: scopes
are in the order of their births and have slots of their own, the closures and the scopes inside
point to scopes that are older and not of leaf functions, and the register stack ends where the
innermost activation ends.  An op keeps it (`Sound.mild`), and so do compiling, the beginning of
a call and its end, so it holds in every configuration of every run (`Safe`).  What a scope is does
not change while it stands (`Kept`).
-/

import Lunar.Lib.Loop
import Lunar.Payload.Interp.Machine
import Lunar.Payload.Interp.Mild
import Lunar.Payload.Interp.Store

namespace Lunar
namespace Interp

open Devirt (Func)

/-! ## States -/

namespace State

variable (s : State)

/-- The end of the slots of a scope. -/
def extent (sc : Scope) : ℕ :=
  sc.base + ((sc.cf.bind fun id => s.cfuncs[id]?).map fun f => f.init.length).getD 0

/-- The end of the registers of the innermost activation. -/
def top : List Act → ℕ
  | [] => 0
  | a :: _ => a.fb + ((s.cfuncs[a.cf]?).map CFunc.nslots).getD 0

/-- Where a scope stands: those of the root and of the ghost are the first two, and another one is
inside an older scope, of the function that its own function is in. -/
def Linked (i : ℕ) (sc : Scope) : Prop :=
  sc.cf = none ∧ sc.parent = none ∧ i ≤ GHOST ∨
    GHOST < i ∧ ∃ id f q outer, sc.cf = some id ∧ s.cfuncs[id]? = some f ∧ sc.parent = some q ∧
      q < i ∧ s.scopes[q]? = some outer ∧ f.parent = outer.cf

/-- The scope has a function that may make closures. -/
def Lasting (sc : Scope) : Prop := ∃ id f, sc.cf = some id ∧ s.cfuncs[id]? = some f ∧ f.leaf = false

/-- A closure has the scope it was made for, and code that belongs there. -/
def Made (id scope : ℕ) (code : Option ℕ) : Prop :=
  ∃ sc, s.scopes[scope]? = some sc ∧ (GHOST < scope → sc.birth = s.born id ∧ s.Lasting sc) ∧
    ∀ c, code = some c → ∃ f, s.cfuncs[c]? = some f ∧ f.parent = sc.cf

/-- Activations within each other, the innermost first. -/
def Nested : List Act → Prop
  | [] => True
  | a :: rest =>
    (∃ sc f, s.scopes[a.scope]? = some sc ∧ sc.cf = some a.cf ∧ sc.base = a.base ∧
      s.cfuncs[a.cf]? = some f) ∧
    a.fb = s.top rest ∧ (∀ b ∈ rest, b.scope < a.scope) ∧ Nested rest

end State

/-- What holds of a state while activations run. -/
structure Sound (running : List Act) (s : State) : Prop where
  two : GHOST < s.scopes.length
  births : s.scopes.Pairwise fun x y => x.birth < y.birth
  clock : ∀ sc ∈ s.scopes, sc.birth < s.clock
  apart : s.scopes.Pairwise fun x y => s.extent x ≤ y.base
  inside : ∀ sc ∈ s.scopes, s.extent sc ≤ s.vals.length
  linked : ∀ i sc, s.scopes[i]? = some sc → s.Linked i sc
  closures : ∀ id entry scope code,
    closureAt s.mem.heap id = some (entry, scope, code) → s.Made id scope code
  compiled : ∀ key id, s.compiled key = some id → ∃ f, s.cfuncs[id]? = some f ∧ f.parent = key.2
  leaves : ∀ f ∈ s.cfuncs, f.leaf = true → ∀ op ∈ f.ops, captures op = false
  frames : s.frames.length = running.length
  sp : s.sp = s.top running
  nested : s.Nested running

/-- What scopes keep: one that stood is in its place, with its function, its slots, its parent and
its birth. -/
structure Kept (s s' : State) : Prop where
  clock : s.clock ≤ s'.clock
  cfuncs : s.cfuncs <+: s'.cfuncs
  scopes : ∀ (i : ℕ) (sc' : Scope), s'.scopes[i]? = some sc' → sc'.birth < s.clock →
    ∃ sc, s.scopes[i]? = some sc ∧ sc.shape = sc'.shape

theorem Scope.shape_birth {a b : Scope} (h : a.shape = b.shape) : a.birth = b.birth :=
  congrArg (·.2.2.2) h

theorem Scope.shape_cf {a b : Scope} (h : a.shape = b.shape) : a.cf = b.cf := congrArg (·.1) h

theorem Scope.shape_base {a b : Scope} (h : a.shape = b.shape) : a.base = b.base :=
  congrArg (·.2.1) h

theorem Scope.shape_parent {a b : Scope} (h : a.shape = b.shape) : a.parent = b.parent :=
  congrArg (·.2.2.1) h

instance : IsPreorder State Kept where
  refl s := ⟨le_rfl, List.prefix_rfl, fun _ sc h _ => ⟨sc, h, rfl⟩⟩
  trans s₁ s₂ s₃ h₁ h₂ := by
    refine ⟨h₁.clock.trans h₂.clock, h₁.cfuncs.trans h₂.cfuncs, fun i sc h hlt => ?_⟩
    obtain ⟨sc', hsc', hshape⟩ := h₂.scopes i sc h (hlt.trans_le h₁.clock)
    have hlt' : sc'.birth < s₁.clock := Scope.shape_birth hshape ▸ hlt
    obtain ⟨sc'', hsc'', hshape'⟩ := h₁.scopes i sc' hsc' hlt'
    exact ⟨sc'', hsc'', hshape'.trans hshape⟩

/-- A place that has a scope before and after has the same one. -/
def Steady (s s' : State) : Prop :=
  ∀ (i : ℕ) (sc sc' : Scope), s.scopes[i]? = some sc → s'.scopes[i]? = some sc' →
    sc.shape = sc'.shape

section State

variable {s s' : State} {running : List Act} {own : Option ℕ}

theorem steady_refl : Steady s s := by
  intro i sc sc' h h'
  cases h.symm.trans h'
  rfl

/-! ## Ops -/

theorem Mild.kept (h : Mild own s s') : Kept s s' where
  clock := h.clock.ge
  cfuncs := h.cfuncs ▸ List.prefix_rfl
  scopes _ _ hsc _ := h.scope hsc

theorem Mild.extent (h : Mild own s s') {a b : Scope} (hab : a.shape = b.shape) :
    s.extent a = s'.extent b := by
  rw [State.extent, State.extent, h.cfuncs, Scope.shape_cf hab, Scope.shape_base hab]

theorem Mild.top (h : Mild own s s') (running : List Act) : s.top running = s'.top running := by
  cases running with
  | nil => rfl
  | cons a rest => rw [State.top, State.top, h.cfuncs]

theorem Mild.symm_scope (h : Mild own s s') {i : ℕ} {sc : Scope} (hsc : s.scopes[i]? = some sc) :
    ∃ sc', s'.scopes[i]? = some sc' ∧ sc.shape = sc'.shape := by
  have hmap : (s'.scopes.map Scope.shape)[i]? = some sc.shape := by
    rw [h.scopes, List.getElem?_map, hsc]
    rfl
  rw [List.getElem?_map] at hmap
  obtain ⟨sc', hsc', hshape⟩ := Option.map_eq_some_iff.1 hmap
  exact ⟨sc', hsc', hshape.symm⟩

theorem Mild.steady (h : Mild own s s') {s₀ : State} (hs : Steady s₀ s) : Steady s₀ s' := by
  intro i sc sc' hsc hsc'
  obtain ⟨sc₁, hsc₁, hshape⟩ := h.scope hsc'
  exact (hs i sc sc₁ hsc hsc₁).trans hshape

/-- A relation of scopes that only looks at their shapes. -/
theorem Mild.pairwise (h : Mild own s s') {R R' : Scope → Scope → Prop}
    (hR : ∀ {a a' b b' : Scope}, a.shape = a'.shape → b.shape = b'.shape → R a b → R' a' b')
    (hs : s.scopes.Pairwise R) : s'.scopes.Pairwise R' := by
  have hlen : s'.scopes.length = s.scopes.length := by
    rw [← List.length_map Scope.shape, h.scopes, List.length_map]
  rw [List.pairwise_iff_getElem] at hs ⊢
  intro i j hi hj hij
  have hshape {k : ℕ} (hk : k < s.scopes.length) (hk' : k < s'.scopes.length) :
      (s.scopes[k]).shape = (s'.scopes[k]).shape := by
    obtain ⟨sc, hsc, heq⟩ := h.scope (List.getElem?_eq_getElem hk')
    rw [List.getElem?_eq_getElem hk] at hsc
    exact Option.some.inj hsc ▸ heq
  have hi' := hlen ▸ hi
  have hj' := hlen ▸ hj
  exact hR (hshape hi' hi) (hshape hj' hj) (hs i j hi' hj' hij)

theorem Mild.linked (h : Mild own s s') {i : ℕ} {a b : Scope} (hab : a.shape = b.shape)
    (ha : s.Linked i a) : s'.Linked i b := by
  rcases ha with ⟨hcf, hparent, hi⟩ | ⟨hi, id, f, q, outer, hcf, hf, hparent, hq, houter, hpar⟩
  · exact .inl ⟨Scope.shape_cf hab ▸ hcf, Scope.shape_parent hab ▸ hparent, hi⟩
  · obtain ⟨outer', houter', hshape⟩ := h.symm_scope houter
    refine .inr ⟨hi, id, f, q, outer', Scope.shape_cf hab ▸ hcf, ?_,
      Scope.shape_parent hab ▸ hparent, hq, houter', hpar.trans (Scope.shape_cf hshape)⟩
    rw [h.cfuncs, hf]

theorem Mild.lasting (h : Mild own s s') {a b : Scope} (hab : a.shape = b.shape)
    (ha : s.Lasting a) : s'.Lasting b := by
  obtain ⟨id, f, hcf, hf, hleaf⟩ := ha
  exact ⟨id, f, Scope.shape_cf hab ▸ hcf, by rw [h.cfuncs, hf], hleaf⟩

theorem Mild.nested (h : Mild own s s') (hs : s.Nested running) : s'.Nested running := by
  induction running with
  | nil => trivial
  | cons a rest ih =>
      obtain ⟨⟨sc, f, hsc, hcf, hbase, hf⟩, hfb, hlt, hrest⟩ := hs
      obtain ⟨sc', hsc', hshape⟩ := h.symm_scope hsc
      refine ⟨⟨sc', f, hsc', Scope.shape_cf hshape ▸ hcf, Scope.shape_base hshape ▸ hbase, ?_⟩,
        hfb.trans (h.top rest), hlt, ih hrest⟩
      rw [h.cfuncs, hf]

/-- The innermost activation may make the closures that it makes. -/
def Able (s : State) (running : List Act) (own : Option ℕ) : Prop :=
  ∀ scope, own = some scope → ∃ a rest f,
    running = a :: rest ∧ scope = a.scope ∧ s.cfuncs[a.cf]? = some f ∧ f.leaf = false

theorem able_none : Able s running none := fun _ h => nomatch h

theorem Able.grown (h : Able s running own) (hcfuncs : s.cfuncs <+: s'.cfuncs) :
    Able s' running own := by
  intro scope hown
  obtain ⟨a, rest, f, hrunning, hscope, hf, hleaf⟩ := h scope hown
  exact ⟨a, rest, f, hrunning, hscope, Lib.getElem?_of_prefix hcfuncs hf, hleaf⟩

/-- **An op** keeps the state sound. -/
theorem Sound.mild (hs : Sound running s) (hown : Able s running own) (h : Mild own s s') :
    Sound running s' where
  two := by
    rw [← List.length_map Scope.shape, h.scopes, List.length_map]
    exact hs.two
  births := h.pairwise (fun ha hb hlt => Scope.shape_birth ha ▸ Scope.shape_birth hb ▸ hlt) hs.births
  clock sc hsc := by
    obtain ⟨i, hi⟩ := List.mem_iff_getElem?.1 hsc
    obtain ⟨sc₀, hsc₀, hshape⟩ := h.scope hi
    rw [h.clock, ← Scope.shape_birth hshape]
    exact hs.clock sc₀ (List.mem_of_getElem? hsc₀)
  apart := h.pairwise (fun ha hb hle => (h.extent ha).symm.trans_le (Scope.shape_base hb ▸ hle))
    hs.apart
  inside sc hsc := by
    obtain ⟨i, hi⟩ := List.mem_iff_getElem?.1 hsc
    obtain ⟨sc₀, hsc₀, hshape⟩ := h.scope hi
    rw [h.vals, ← h.extent hshape]
    exact hs.inside sc₀ (List.mem_of_getElem? hsc₀)
  linked i sc hsc := by
    obtain ⟨sc₀, hsc₀, hshape⟩ := h.scope hsc
    exact h.linked hshape (hs.linked i sc₀ hsc₀)
  closures id entry scope code hc := by
    rcases h.closures id entry scope code hc with ⟨hc, hborn⟩ | ⟨hle, rfl⟩ | ⟨heq, rfl, sc, hsc, hborn⟩
    · obtain ⟨sc, hsc, hmade, hcode⟩ := hs.closures id entry scope code hc
      obtain ⟨sc', hsc', hshape⟩ := h.symm_scope hsc
      refine ⟨sc', hsc', fun hlt => ?_, fun c hc => ?_⟩
      · obtain ⟨hbirth, hlast⟩ := hmade hlt
        exact ⟨(Scope.shape_birth hshape).symm.trans (hbirth.trans hborn.symm),
          h.lasting hshape hlast⟩
      · obtain ⟨f, hf, hparent⟩ := hcode c hc
        exact ⟨f, by rw [h.cfuncs, hf], hparent.trans (Scope.shape_cf hshape)⟩
    · have hlt : scope < s.scopes.length := hle.trans_lt hs.two
      obtain ⟨sc', hsc', -⟩ := h.symm_scope (List.getElem?_eq_getElem hlt)
      exact ⟨sc', hsc', fun hlt => absurd hle (Nat.not_le.2 hlt), nofun⟩
    · obtain ⟨a, rest, f, rfl, rfl, hf, hleaf⟩ := hown scope heq
      obtain ⟨⟨sc₀, -, hsc₀, hcf, -⟩, -⟩ := hs.nested
      obtain rfl : sc₀ = sc := Option.some.inj (hsc₀.symm.trans hsc)
      obtain ⟨sc', hsc', hshape⟩ := h.symm_scope hsc
      refine ⟨sc', hsc', fun _ => ⟨(Scope.shape_birth hshape).symm.trans hborn.symm, ?_⟩, nofun⟩
      exact h.lasting hshape ⟨a.cf, f, hcf, hf, hleaf⟩
  compiled key id hid := by
    rw [h.compiled] at hid
    rw [h.cfuncs]
    exact hs.compiled key id hid
  leaves := by
    rw [h.cfuncs]
    exact hs.leaves
  frames := h.frames.trans hs.frames
  sp := h.sp.trans (hs.sp.trans (h.top _))
  nested := h.nested hs.nested

/-! ## Compiling -/

theorem finishFunc_leaf {g : CFunc} (h : (finishFunc g).leaf = true) :
    ∀ op ∈ (finishFunc g).ops, captures op = false := by
  have hany : (finishFunc g).ops.any captures = false := Eq.mp (Bool.not_eq_true' _) h
  exact fun op hop => Bool.eq_false_iff.2 (List.any_eq_false.1 hany op hop)

theorem compileFunc_ok {f : Func} {cfuncs : List CFunc} {parent : Option ℕ} {ids ids' : List String}
    {cf : CFunc} (h : compileFunc f cfuncs parent ids = .ok (cf, ids')) :
    ∃ g, cf = finishFunc g ∧ g.parent = parent := by
  unfold compileFunc at h
  dsimp only at h
  split at h
  · cases h
  · obtain ⟨lowered, -, h⟩ := Lib.bind_ok h
    obtain ⟨entryIp, -, h⟩ := Lib.bind_ok h
    cases h
    exact ⟨_, rfl, rfl⟩

theorem Sound.cfunc (hs : Sound running s) {i : ℕ} {sc : Scope} (hsc : s.scopes[i]? = some sc)
    {id : ℕ} (hid : sc.cf = some id) : ∃ f, s.cfuncs[id]? = some f := by
  rcases hs.linked i sc hsc with ⟨hcf, -⟩ | ⟨-, id', f, -, -, hcf, hf, -⟩
  · cases hcf.symm.trans hid
  · cases hcf.symm.trans hid
    exact ⟨f, hf⟩

/-- A state that only has more functions than another one. -/
structure Grown (s s' : State) : Prop where
  cfuncs : s.cfuncs <+: s'.cfuncs
  scopes : s'.scopes = s.scopes
  vals : s'.vals = s.vals
  frames : s'.frames = s.frames
  sp : s'.sp = s.sp
  clock : s'.clock = s.clock

theorem Grown.kept (h : Grown s s') : Kept s s' :=
  ⟨h.clock.ge, h.cfuncs, fun _ sc hsc _ => ⟨sc, h.scopes ▸ hsc, rfl⟩⟩

theorem Grown.steady (h : Grown s s') {s₂ : State} (hs : Steady s' s₂) : Steady s s₂ :=
  fun i sc sc' hsc hsc' => hs i sc sc' (h.scopes ▸ hsc) hsc'

theorem Grown.cfunc (h : Grown s s') {id : ℕ} {f : CFunc} (hf : s.cfuncs[id]? = some f) :
    s'.cfuncs[id]? = some f :=
  Lib.getElem?_of_prefix h.cfuncs hf

theorem Grown.extent (h : Grown s s') (hs : Sound running s) {i : ℕ} {sc : Scope}
    (hsc : s.scopes[i]? = some sc) : s'.extent sc = s.extent sc := by
  rw [State.extent, State.extent]
  cases hid : sc.cf with
  | none => rfl
  | some id =>
      obtain ⟨f, hf⟩ := hs.cfunc hsc hid
      rw [Option.bind_some, Option.bind_some, hf, h.cfunc hf]

theorem Grown.nested (h : Grown s s') (hs : s.Nested running) :
    s'.Nested running ∧ s'.top running = s.top running := by
  induction running with
  | nil => exact ⟨trivial, rfl⟩
  | cons a rest ih =>
      obtain ⟨⟨sc, f, hsc, hcf, hbase, hf⟩, hfb, hlt, hrest⟩ := hs
      obtain ⟨hrest', htop⟩ := ih hrest
      refine ⟨⟨⟨sc, f, h.scopes ▸ hsc, hcf, hbase, h.cfunc hf⟩, hfb.trans htop.symm, hlt, hrest'⟩, ?_⟩
      rw [State.top, State.top, hf, h.cfunc hf]

/-- A state stays sound when it only gets more functions, and closures that are well made. -/
theorem Sound.grown (hs : Sound running s) (h : Grown s s')
    (hclosures : ∀ id entry scope code,
      closureAt s'.mem.heap id = some (entry, scope, code) → s'.Made id scope code)
    (hcompiled : ∀ key id, s'.compiled key = some id →
      ∃ f, s'.cfuncs[id]? = some f ∧ f.parent = key.2)
    (hleaves : ∀ f ∈ s'.cfuncs, f.leaf = true → ∀ op ∈ f.ops, captures op = false) :
    Sound running s' where
  two := h.scopes ▸ hs.two
  births := h.scopes ▸ hs.births
  clock := by
    rw [h.scopes, h.clock]
    exact hs.clock
  apart := by
    rw [h.scopes]
    refine hs.apart.imp_of_mem fun hx _ hle => ?_
    obtain ⟨i, hi⟩ := List.mem_iff_getElem?.1 hx
    exact (h.extent hs hi).trans_le hle
  inside sc hsc := by
    rw [h.scopes] at hsc
    obtain ⟨i, hi⟩ := List.mem_iff_getElem?.1 hsc
    rw [h.vals, h.extent hs hi]
    exact hs.inside sc hsc
  linked i sc hsc := by
    rw [h.scopes] at hsc
    refine (hs.linked i sc hsc).imp_right ?_
    rintro ⟨hi, id, f, q, outer, hcf, hf, hparent, hq, houter, hpar⟩
    exact ⟨hi, id, f, q, outer, hcf, h.cfunc hf, hparent, hq, h.scopes ▸ houter, hpar⟩
  closures := hclosures
  compiled := hcompiled
  leaves := hleaves
  frames := by
    rw [h.frames]
    exact hs.frames
  sp := h.sp.trans (hs.sp.trans (h.nested hs.nested).2.symm)
  nested := (h.nested hs.nested).1

theorem State.Made.grown (h : Grown s s') {id scope : ℕ} {code : Option ℕ}
    (hborn : s'.born id = s.born id) (hm : s.Made id scope code) : s'.Made id scope code := by
  obtain ⟨sc, hsc, hmade, hcode⟩ := hm
  refine ⟨sc, h.scopes ▸ hsc, fun hlt => ?_, fun c hc => ?_⟩
  · obtain ⟨hbirth, id', f, hcf, hf, hleaf⟩ := hmade hlt
    exact ⟨hbirth.trans hborn.symm, id', f, hcf, h.cfunc hf, hleaf⟩
  · obtain ⟨f, hf, hparent⟩ := hcode c hc
    exact ⟨f, h.cfunc hf, hparent⟩

variable {p : Program}

/-- **Compiling** keeps the state sound, and gives a function that belongs to the parent. -/
theorem Sound.compile (hs : Sound running s) {entry id : ℕ} {parent : Option ℕ}
    (h : compile p s entry parent = .ok (id, s')) :
    Sound running s' ∧ Grown s s' ∧ s'.mem = s.mem ∧ s'.born = s.born ∧
      ∃ f, s'.cfuncs[id]? = some f ∧ f.parent = parent := by
  unfold Interp.compile at h
  split at h
  · next id' hid =>
      cases h
      exact ⟨hs, ⟨List.prefix_rfl, rfl, rfl, rfl, rfl, rfl⟩, rfl, rfl, hs.compiled _ _ hid⟩
  · split at h
    · cases h
    · obtain ⟨⟨cf, ids⟩, hcf, h⟩ := Lib.bind_ok h
      cases h
      obtain ⟨g, rfl, hparent⟩ := compileFunc_ok hcf
      have hgrown : Grown s { s with
          cfuncs := s.cfuncs ++ [finishFunc g]
          compiled := Function.update s.compiled (entry, parent) (some s.cfuncs.length)
          fieldIds := ids } := ⟨List.prefix_append _ _, rfl, rfl, rfl, rfl, rfl⟩
      have hnew : (s.cfuncs ++ [finishFunc g])[s.cfuncs.length]? = some (finishFunc g) :=
        List.getElem?_concat_length
      refine ⟨hs.grown hgrown (fun id entry scope code hc => ?_) (fun key id hid => ?_)
        fun f hf => ?_, hgrown, rfl, rfl, finishFunc g, hnew, hparent⟩
      · exact (hs.closures id entry scope code hc).grown hgrown rfl
      · by_cases hkey : key = (entry, parent)
        · subst hkey
          cases (Function.update_self (entry, parent) _ _).symm.trans hid
          exact ⟨_, hnew, hparent⟩
        · obtain ⟨f, hf, hpar⟩ :=
            hs.compiled key id ((Function.update_of_ne hkey _ _).symm.trans hid)
          exact ⟨f, hgrown.cfunc hf, hpar⟩
      · rcases List.mem_append.1 hf with hf | hf
        · exact hs.leaves f hf
        · rw [List.mem_singleton.1 hf]
          exact finishFunc_leaf

theorem Sound.noteCode (hs : Sound running s) {fn entry scope id : ℕ} {code : Option ℕ}
    (hfn : closureAt s.mem.heap fn = some (entry, scope, code)) {f : CFunc} {sc : Scope}
    (hsc : s.scopes[scope]? = some sc) (hf : s.cfuncs[id]? = some f) (hparent : f.parent = sc.cf) :
    Sound running (noteCode id s fn) ∧ Grown s (noteCode id s fn) := by
  obtain ⟨o, ho, hclosure⟩ := closureAt_iff.1 hfn
  cases o with
  | closure entry' scope' name arity code' =>
      cases hclosure
      have hgrown : Grown s { s with
          mem := { s.mem with heap := s.mem.heap.set fn (.closure entry scope name arity id) } } :=
        ⟨List.prefix_rfl, rfl, rfl, rfl, rfl, rfl⟩
      rw [Interp.noteCode, ho]
      refine ⟨hs.grown hgrown (fun i entry' scope' code' hc => ?_) hs.compiled hs.leaves, hgrown⟩
      obtain ⟨x, hx, hcx⟩ := closureAt_iff.1 hc
      rw [List.getElem?_set] at hx
      split at hx
      · next heq =>
          obtain ⟨-, hx⟩ := Option.ite_none_right_eq_some.1 hx
          subst heq
          cases hx
          cases hcx
          obtain ⟨sc', hsc', hmade, -⟩ := hs.closures _ _ _ _ hfn
          cases hsc.symm.trans hsc'
          refine ⟨sc, hsc, hmade, fun c hc => ?_⟩
          cases hc
          exact ⟨f, hf, hparent⟩
      · exact (hs.closures i _ _ _ (closureAt_iff.2 ⟨x, hx, hcx⟩)).grown hgrown rfl
  | _ => cases hclosure

/-- The code of a closure belongs to its scope. -/
theorem Sound.codeOf (hs : Sound running s) {fn entry scope id : ℕ} {code : Option ℕ}
    (hfn : closureAt s.mem.heap fn = some (entry, scope, code))
    (h : codeOf p s fn entry scope code = .ok (id, s')) :
    Sound running s' ∧ Grown s s' ∧ ∃ sc f, s'.scopes[scope]? = some sc ∧
      s'.cfuncs[id]? = some f ∧ f.parent = sc.cf := by
  obtain ⟨sc, hsc, -, hcode⟩ := hs.closures fn entry scope code hfn
  unfold Interp.codeOf at h
  split at h
  · cases h
    obtain ⟨f, hf, hparent⟩ := hcode _ rfl
    exact ⟨hs, ⟨List.prefix_rfl, rfl, rfl, rfl, rfl, rfl⟩, sc, f, hsc, hf, hparent⟩
  · obtain ⟨sc', hsc', h⟩ := Lib.bind_ok h
    obtain rfl : sc' = sc := by
      rw [index, hsc] at hsc'
      exact (Except.ok.inj hsc').symm
    obtain ⟨⟨id', s₁⟩, hcompile, h⟩ := Lib.bind_ok h
    cases h
    obtain ⟨hs₁, hgrown, hmem, -, f, hf, hparent⟩ := hs.compile hcompile
    have hsc₁ : s₁.scopes[scope]? = some sc' := hgrown.scopes ▸ hsc
    obtain ⟨hs₂, hgrown₂⟩ := hs₁.noteCode (hmem ▸ hfn) hsc₁ hf hparent
    refine ⟨hs₂, ⟨hgrown.cfuncs.trans hgrown₂.cfuncs, hgrown₂.scopes.trans hgrown.scopes,
      hgrown₂.vals.trans hgrown.vals, hgrown₂.frames.trans hgrown.frames,
      hgrown₂.sp.trans hgrown.sp, hgrown₂.clock.trans hgrown.clock⟩, sc', f, ?_, hgrown₂.cfunc hf,
      hparent⟩
    rw [hgrown₂.scopes, hsc₁]

/-! ## Calls -/

theorem Sound.at_ip {a : Act} (hs : Sound (a :: running) s) (ip : ℕ) :
    Sound ({ a with ip := ip } :: running) s :=
  ⟨hs.two, hs.births, hs.clock, hs.apart, hs.inside, hs.linked, hs.closures, hs.compiled,
    hs.leaves, hs.frames, hs.sp, hs.nested⟩

theorem Sound.nested_lt (hs : s.Nested running) : ∀ b ∈ running, b.scope < s.scopes.length := by
  induction running with
  | nil => exact List.forall_mem_nil _
  | cons a rest ih =>
      obtain ⟨⟨sc, f, hsc, -⟩, -, -, hrest⟩ := hs
      exact List.forall_mem_cons.2 ⟨Lib.lt_of_getElem? hsc, ih hrest⟩

theorem State.Nested.of_scopes (hscopes : ∀ b ∈ running, ∀ sc,
      s.scopes[b.scope]? = some sc → s'.scopes[b.scope]? = some sc)
    (hcfuncs : s'.cfuncs = s.cfuncs) (hs : s.Nested running) :
    s'.Nested running ∧ s'.top running = s.top running := by
  induction running with
  | nil => exact ⟨trivial, rfl⟩
  | cons a rest ih =>
      obtain ⟨⟨sc, f, hsc, hcf, hbase, hf⟩, hfb, hlt, hrest⟩ := hs
      obtain ⟨ha, hb⟩ := List.forall_mem_cons.1 hscopes
      obtain ⟨hrest', htop⟩ := ih hb hrest
      refine ⟨⟨⟨sc, f, ha sc hsc, hcf, hbase, hcfuncs ▸ hf⟩, hfb.trans htop.symm, hlt, hrest'⟩, ?_⟩
      rw [State.top, State.top, hcfuncs]

/-- The state of a call before the array of its arguments is made. -/
def entered (s : State) (f : CFunc) (id parent : ℕ) (q : Request) : State :=
  { s with
    scopes := s.scopes ++ [newScope s id parent q]
    vals := s.vals ++ f.init
    frames := [] :: s.frames
    stack := argRegs f s.sp q.args s.stack
    sp := s.sp + f.nslots
    clock := s.clock + 1 }

theorem mild_argArray (f : CFunc) (fb : ℕ) (args : List Val) :
    Mild own s (argArray f fb args s) := by
  rw [argArray]
  split
  · exact IsTrans.trans _ _ _ (mild_setReg _ _) (mild_mem (tame_concat s.mem rfl))
  · exact refl_of (Mild own) s

/-- **A call** starts with a scope and with slots of its own. -/
theorem Sound.entered (hs : Sound running s) {f : CFunc} {id parent : ℕ} {outer : Scope}
    (houter : s.scopes[parent]? = some outer) (hf : s.cfuncs[id]? = some f)
    (hparent : f.parent = outer.cf) (q : Request) :
    Sound (newAct s f id :: running) (entered s f id parent q) := by
  have hnew {i : ℕ} {sc : Scope} (h : (Interp.entered s f id parent q).scopes[i]? = some sc) :
      s.scopes[i]? = some sc ∨ i = s.scopes.length ∧ newScope s id parent q = sc :=
    Lib.getElem?_concat.1 h
  have hold {i : ℕ} {sc : Scope} (h : s.scopes[i]? = some sc) :
      (Interp.entered s f id parent q).scopes[i]? = some sc :=
    Lib.getElem?_concat.2 (.inl h)
  have hfirst : (Interp.entered s f id parent q).scopes[s.scopes.length]? =
      some (newScope s id parent q) :=
    Lib.getElem?_concat.2 (.inr ⟨rfl, rfl⟩)
  have hextent : (Interp.entered s f id parent q).extent (newScope s id parent q) =
      s.vals.length + f.init.length := by
    rw [State.extent]
    show _ + ((s.cfuncs[id]?).map _).getD 0 = _
    rw [hf]
    rfl
  refine ⟨?_, ?_, fun sc hsc => ?_, ?_, fun sc hsc => ?_, fun i sc hsc => ?_,
    fun i entry scope code hc => ?_, hs.compiled, hs.leaves, congrArg Nat.succ hs.frames, ?_, ?_⟩
  · exact hs.two.trans_le (List.length_append ▸ Nat.le_add_right _ _)
  · refine List.pairwise_append.2 ⟨hs.births, List.pairwise_singleton _ _, fun x hx y hy => ?_⟩
    rw [List.mem_singleton.1 hy]
    exact hs.clock x hx
  · rcases List.mem_append.1 hsc with hsc | hsc
    · exact (hs.clock sc hsc).trans (Nat.lt_succ_self _)
    · rw [List.mem_singleton.1 hsc]
      exact Nat.lt_succ_self _
  · refine List.pairwise_append.2 ⟨hs.apart, List.pairwise_singleton _ _, fun x hx y hy => ?_⟩
    rw [List.mem_singleton.1 hy]
    exact hs.inside x hx
  · rw [Interp.entered, List.length_append]
    rcases List.mem_append.1 hsc with hsc | hsc
    · exact (hs.inside sc hsc).trans (Nat.le_add_right _ _)
    · rw [List.mem_singleton.1 hsc]
      exact hextent.le
  · rcases hnew hsc with hsc | ⟨rfl, rfl⟩
    · refine (hs.linked i sc hsc).imp_right ?_
      rintro ⟨hi, id', f', q', outer', hcf, hf', hpar, hq, houter', hparent'⟩
      exact ⟨hi, id', f', q', outer', hcf, hf', hpar, hq, hold houter', hparent'⟩
    · exact .inr ⟨hs.two, id, f, parent, outer, rfl, hf, rfl, Lib.lt_of_getElem? houter,
        hold houter, hparent⟩
  · obtain ⟨sc, hsc, hmade, hcode⟩ := hs.closures i entry scope code hc
    exact ⟨sc, hold hsc, hmade, hcode⟩
  · show s.sp + f.nslots = s.sp + ((s.cfuncs[id]?).map CFunc.nslots).getD 0
    rw [hf]
    rfl
  · obtain ⟨hnested, htop⟩ : (Interp.entered s f id parent q).Nested running ∧
        (Interp.entered s f id parent q).top running = s.top running :=
      hs.nested.of_scopes (fun _ _ _ hsc => hold hsc) rfl
    exact ⟨⟨_, f, hfirst, rfl, rfl, hf⟩, hs.sp.trans htop.symm, Sound.nested_lt hs.nested, hnested⟩

theorem kept_entered (f : CFunc) (id parent : ℕ) (q : Request) :
    Kept s (entered s f id parent q) where
  clock := Nat.le_succ _
  cfuncs := List.prefix_rfl
  scopes i sc hsc hlt := by
    rcases Lib.getElem?_concat.1 hsc with hsc | ⟨-, rfl⟩
    · exact ⟨sc, hsc, rfl⟩
    · exact absurd hlt (Nat.lt_irrefl _)

theorem Sound.pushed (hs : Sound running s) {f : CFunc} {id parent : ℕ} {outer : Scope}
    (houter : s.scopes[parent]? = some outer) (hf : s.cfuncs[id]? = some f)
    (hparent : f.parent = outer.cf) (q : Request) :
    Sound (newAct s f id :: running) (pushed s f id parent q) ∧
      Kept s (pushed s f id parent q) ∧ Steady s (pushed s f id parent q) := by
  have hmild : Mild none (Interp.entered s f id parent q) (Interp.pushed s f id parent q) :=
    mild_argArray f s.sp q.args
  have hsteady : Steady s (Interp.entered s f id parent q) := by
    intro i sc sc' hsc hsc'
    cases (Lib.getElem?_concat.2 (.inl hsc)).symm.trans hsc'
    rfl
  exact ⟨(hs.entered houter hf hparent q).mild able_none hmild,
    IsTrans.trans _ _ _ (kept_entered f id parent q) hmild.kept, hmild.steady hsteady⟩

/-- The state after a call whose scope is dropped. -/
def popped (s : State) (a : Act) : State :=
  { s with
    frames := s.frames.tail, sp := a.fb
    scopes := s.scopes.dropLast, vals := s.vals.take a.base }

theorem Sound.popped {a : Act} (hs : Sound (a :: running) s) {f : CFunc}
    (hf : s.cfuncs[a.cf]? = some f) (hleaf : f.leaf = true)
    (hlen : s.scopes.length = a.scope + 1) : Sound running (popped s a) := by
  obtain ⟨⟨sc, f', hsc, hcf, hbase, hf'⟩, hfb, hlt, hnested⟩ := hs.nested
  obtain rfl : f = f' := Option.some.inj (hf.symm.trans hf')
  have hdrop {i : ℕ} (hi : i < a.scope) : s.scopes.dropLast[i]? = s.scopes[i]? := by
    rw [List.getElem?_dropLast, if_pos (by omega)]
  have hmem {i : ℕ} {x : Scope} (h : s.scopes.dropLast[i]? = some x) :
      i < a.scope ∧ s.scopes[i]? = some x := by
    have hi := Lib.lt_of_getElem? h
    rw [List.length_dropLast] at hi
    have hi' : i < a.scope := by omega
    exact ⟨hi', hdrop hi' ▸ h⟩
  have hghost : GHOST < a.scope := by
    rcases hs.linked a.scope sc hsc with ⟨hnone, -⟩ | ⟨hlt, -⟩
    · cases hcf.symm.trans hnone
    · exact hlt
  have hsub : s.scopes.dropLast.Sublist s.scopes := List.dropLast_sublist _
  have hsame : (Interp.popped s a).Nested running ∧
      (Interp.popped s a).top running = s.top running :=
    hnested.of_scopes (fun b hb x hx => (hdrop (hlt b hb)).trans hx) rfl
  refine ⟨?_, hs.births.sublist hsub, fun x hx => hs.clock x (hsub.subset hx),
    hs.apart.sublist hsub, fun x hx => ?_, fun i x hx => ?_, fun id entry scope code hc => ?_,
    hs.compiled, hs.leaves, ?_, ?_, ?_⟩
  · show GHOST < s.scopes.dropLast.length
    rw [List.length_dropLast]
    omega
  · obtain ⟨i, hi⟩ := List.mem_iff_getElem?.1 hx
    obtain ⟨hlt, hi⟩ := hmem hi
    have hapart : s.extent x ≤ a.base := by
      obtain ⟨hi', rfl⟩ := List.getElem?_eq_some_iff.1 hi
      obtain ⟨ha', rfl⟩ := List.getElem?_eq_some_iff.1 hsc
      exact hbase ▸ List.pairwise_iff_getElem.1 hs.apart i a.scope hi' ha' hlt
    have hinside := hs.inside x (List.mem_of_getElem? hi)
    show s.extent x ≤ (s.vals.take a.base).length
    rw [List.length_take]
    exact le_min hapart hinside
  · obtain ⟨hlt, hi⟩ := hmem hx
    refine (hs.linked i x hi).imp_right ?_
    rintro ⟨hi, id', f', q', outer', hcf, hf', hpar, hq, houter', hparent'⟩
    exact ⟨hi, id', f', q', outer', hcf, hf', hpar, hq, (hdrop (hq.trans hlt)).trans houter',
      hparent'⟩
  · obtain ⟨x, hx, hmade, hcode⟩ := hs.closures id entry scope code hc
    have hle : scope < a.scope + 1 := hlen ▸ Lib.lt_of_getElem? hx
    have hne : scope ≠ a.scope := by
      rintro rfl
      obtain ⟨-, c, g, hc, hg, hgleaf⟩ := hmade hghost
      obtain rfl : sc = x := Option.some.inj (hsc.symm.trans hx)
      obtain rfl : a.cf = c := Option.some.inj (hcf.symm.trans hc)
      obtain rfl : f = g := Option.some.inj (hf.symm.trans hg)
      cases hleaf.symm.trans hgleaf
    exact ⟨x, (hdrop (by omega)).trans hx, hmade, hcode⟩
  · show s.frames.tail.length = running.length
    rw [List.length_tail, hs.frames]
    rfl
  · exact hfb.trans hsame.2.symm
  · exact hsame.1

/-- **A call ends**: its frame and its registers are dropped, and the scope of a leaf function,
which nothing points to, when it is the last one. -/
theorem Sound.leave {a : Act} (hs : Sound (a :: running) s) {f : CFunc}
    (hf : s.cfuncs[a.cf]? = some f) :
    Sound running (leave s f a) ∧ Kept s (leave s f a) ∧ Steady s (leave s f a) := by
  rw [Interp.leave]
  split
  · next hleaf =>
      have hold {i : ℕ} {sc : Scope} (hsc : s.scopes.dropLast[i]? = some sc) :
          s.scopes[i]? = some sc := by
        rw [List.getElem?_dropLast] at hsc
        exact (Option.ite_none_right_eq_some.1 hsc).2
      refine ⟨hs.popped hf hleaf.1 hleaf.2,
        ⟨le_rfl, List.prefix_rfl, fun i sc hsc _ => ⟨sc, hold hsc, rfl⟩⟩,
        fun i sc sc' hsc hsc' => ?_⟩
      cases hsc.symm.trans (hold hsc')
      rfl
  · obtain ⟨-, hfb, -, hnested⟩ := hs.nested
    have hsame : State.Nested { s with frames := s.frames.tail, sp := a.fb } running ∧
        State.top { s with frames := s.frames.tail, sp := a.fb } running = s.top running :=
      hnested.of_scopes (fun _ _ _ hsc => hsc) rfl
    refine ⟨⟨hs.two, hs.births, hs.clock, hs.apart, hs.inside, hs.linked, hs.closures, hs.compiled,
      hs.leaves, ?_, hfb.trans hsame.2.symm, hsame.1⟩, ⟨le_rfl, List.prefix_rfl,
      fun i sc hsc _ => ⟨sc, hsc, rfl⟩⟩, steady_refl⟩
    show s.frames.tail.length = running.length
    rw [List.length_tail, hs.frames]
    rfl

end State

/-! ## Runs -/

/-- The activations that wait for a call. -/
def active (tasks : List Task) : List Act := tasks.filterMap Task.who

/-- What waits goes on mildly when its call has come back, and the host waits for all else. -/
def Waits (s : State) : List Task → Prop
  | [] => True
  | t :: rest => (t.who = none → rest = []) ∧
    (∃ own, Able s (active (t :: rest)) own ∧ ∀ u r, (t.k u r).Follows (Mild own) u) ∧ Waits s rest

/-- The state of a computation that has ended or calls. -/
def Tree.state : Tree → State
  | .done s _ => s
  | .call s _ _ => s

/-- The state of a configuration, unless it has crashed. -/
def Config.state (c : Config) : Option State :=
  match c.ctl with
  | .idle s _ | .ops s _ | .back s _ => some s
  | .eval _ t => some (Tree.state t)
  | .crash => none

/-- The activations of a configuration, the innermost first. -/
def Config.running (c : Config) : List Act :=
  match c.ctl with
  | .ops _ a => a :: active c.tasks
  | .eval who _ => who.toList ++ active c.tasks
  | _ => active c.tasks

/-- What holds of every configuration of a run. -/
inductive Safe : Config → Prop
  | idle {s : State} {r : Res Next} (hs : Sound [] s) : Safe ⟨.idle s r, []⟩
  | ops {s : State} {a : Act} {tasks : List Task} (hs : Sound (a :: active tasks) s)
      (hw : Waits s tasks) : Safe ⟨.ops s a, tasks⟩
  | eval {s : State} {who : Option Act} {t : Tree} {tasks : List Task} {own : Option ℕ}
      (hs : Sound (who.toList ++ active tasks) s) (hown : Able s (who.toList ++ active tasks) own)
      (ht : t.Follows (Mild own) s) (hhost : who = none → tasks = []) (hw : Waits s tasks) :
      Safe ⟨.eval who t, tasks⟩
  | back {s : State} {r : Res Val} {tasks : List Task} (hs : Sound (active tasks) s)
      (hw : Waits s tasks) : Safe ⟨.back s r, tasks⟩
  | crash {tasks : List Task} : Safe ⟨.crash, tasks⟩

/-- A configuration that is safe, and what has been kept in the step to it. -/
def Onward (s : State) (c : Config) : Prop :=
  Safe c ∧ ∀ s', c.state = some s' → Kept s s' ∧ Steady s s'

section Machine

variable {p : Program} {s s' : State} {tasks : List Task} {c c' : Config}

theorem Waits.kept (h : Kept s s') (hw : Waits s tasks) : Waits s' tasks := by
  induction tasks with
  | nil => trivial
  | cons t rest ih =>
      obtain ⟨hhost, ⟨own, hown, hk⟩, hrest⟩ := hw
      exact ⟨hhost, ⟨own, hown.grown h.cfuncs, hk⟩, ih hrest⟩

theorem onward_back (hs : Sound (active tasks) s') (hw : Waits s tasks)
    (h : Kept s s' ∧ Steady s s') (r : Res Val) : Onward s ⟨.back s' r, tasks⟩ :=
  ⟨.back hs (hw.kept h.1), fun _ heq => Option.some.inj heq ▸ h⟩

theorem onward_ops {a : Act} (hs : Sound (a :: active tasks) s') (hw : Waits s tasks)
    (h : Kept s s' ∧ Steady s s') : Onward s ⟨.ops s' a, tasks⟩ :=
  ⟨.ops hs (hw.kept h.1), fun _ heq => Option.some.inj heq ▸ h⟩

theorem kept_refl (s : State) : Kept s s ∧ Steady s s := ⟨refl_of Kept s, steady_refl⟩

theorem Mild.onward {own : Option ℕ} (h : Mild own s s') : Kept s s' ∧ Steady s s' :=
  ⟨h.kept, h.steady steady_refl⟩

theorem onward_crash : Onward s ⟨.crash, tasks⟩ := ⟨.crash, nofun⟩

theorem onward_eval {who : Option Act} {t : Tree} {own : Option ℕ}
    (hs : Sound (who.toList ++ active tasks) s) (hown : Able s (who.toList ++ active tasks) own)
    (ht : t.Follows (Mild own) s) (hhost : who = none → tasks = []) (hw : Waits s tasks) :
    Onward s ⟨.eval who t, tasks⟩ := by
  refine ⟨.eval hs hown ht hhost hw, fun s' heq => ?_⟩
  obtain rfl := Option.some.inj heq
  cases t with
  | done t r => exact Mild.onward ht
  | call t q k => exact ht.1.onward

/-- **The beginning of a call.** -/
theorem enter_onward (hs : Sound (active tasks) s) (hw : Waits s tasks) (q : Request) :
    Onward s ⟨enter p s q, tasks⟩ := by
  unfold enter
  split
  · exact onward_crash
  · next entry scope code hfn =>
      split
      · exact onward_back hs hw (kept_refl s) _
      · split
        · next e _ =>
            cases e with
            | panic => exact onward_crash
            | _ => exact onward_back hs hw (kept_refl s) _
        · next id s₁ hcode =>
            obtain ⟨hs₁, hgrown, outer, f, houter, hf, hparent⟩ := hs.codeOf hfn hcode
            rw [hf]
            dsimp only
            split
            · exact onward_back hs₁ hw ⟨hgrown.kept, hgrown.steady steady_refl⟩ _
            · obtain ⟨hpushed, hkept, hsteady⟩ := hs₁.pushed houter hf hparent q
              exact onward_ops hpushed hw
                ⟨IsTrans.trans _ _ _ hgrown.kept hkept, hgrown.steady hsteady⟩

theorem noteExc_mild (v : Val) : Mild none s (noteExc p s v) :=
  IsTrans.trans _ _ _ (mild_mem (tame_concat s.mem rfl)) (mild_setFrameField _ _)

/-- **The end of an op.** -/
theorem finished_onward {a : Act} {f : CFunc} (hs : Sound (a :: active tasks) s)
    (hw : Waits s tasks) (hf : s.cfuncs[a.cf]? = some f) (r : Res Next) :
    Onward s ⟨finished p s f a r, tasks⟩ := by
  obtain ⟨hleave, hkept⟩ := hs.leave hf
  have hleft (r : Res Val) : Onward s ⟨.back (leave s f a) r, tasks⟩ :=
    onward_back hleave hw hkept r
  have hcaught (v : Val) : Onward s ⟨caught p s f a v, tasks⟩ := by
    have hmild : Mild none s (noteExc p s v) := noteExc_mild v
    unfold caught
    split
    · exact onward_crash
    · exact hleft _
    · exact hleft _
    · exact onward_ops ((hs.mild able_none hmild).at_ip _) hw hmild.onward
  match r with
  | .ok (.go ip) => exact onward_ops (hs.at_ip ip) hw (kept_refl s)
  | .ok (.ret v) => exact hleft _
  | .error (.throw v) => exact hcaught v
  | .error .panic => exact onward_crash
  | .error (.fault e) => exact hleft _

/-- **A step** of the machine. -/
theorem next_onward (hc : Safe c) (h : c.next p = some c') :
    ∃ s, c.state = some s ∧ Onward s c' := by
  cases hc with
  | idle hs => cases h
  | crash => cases h
  | @ops s a tasks hs hw =>
      obtain ⟨⟨sc, f, -, -, -, hf⟩, -⟩ := hs.nested
      refine ⟨s, rfl, ?_⟩
      rw [Config.next] at h
      dsimp only at h
      rw [hf] at h
      dsimp only at h
      split at h
      · cases h
        exact onward_crash
      · next op hop =>
          cases h
          have hown : Able s (a :: active tasks) (if captures op then some a.scope else none) := by
            intro scope hscope
            obtain ⟨hcaptures, hscope⟩ := Option.ite_none_right_eq_some.1 hscope
            refine ⟨a, active tasks, f, rfl, (Option.some.inj hscope).symm, hf, ?_⟩
            by_contra hleaf
            rw [Bool.not_eq_false] at hleaf
            have hno := hs.leaves f (List.mem_of_getElem? hf) hleaf op (List.mem_of_getElem? hop)
            cases hno.symm.trans hcaptures
          exact onward_eval hs hown (execOp_mild p f a op s) nofun hw
  | @eval s who t tasks own hs hown ht hhost hw =>
      cases t with
      | call t q k =>
          obtain ⟨hmild, hk⟩ := ht
          refine ⟨t, rfl, ?_⟩
          have ht : Sound (active (⟨who, k⟩ :: tasks)) t := by
            have hsound := hs.mild hown hmild
            cases who <;> exact hsound
          have hable : Able t (active (⟨who, k⟩ :: tasks)) own := by
            have hgrown := hown.grown hmild.kept.cfuncs
            cases who <;> exact hgrown
          obtain rfl : (⟨enter p t q, ⟨who, k⟩ :: tasks⟩ : Config) = c' := by
            cases who <;> exact Option.some.inj h
          exact enter_onward ht ⟨hhost, ⟨own, hable, hk⟩, hw.kept hmild.kept⟩ q
      | done t r =>
          have hsound := hs.mild hown ht
          refine ⟨t, rfl, ?_⟩
          cases who with
          | none =>
              obtain rfl := hhost rfl
              cases h
              exact ⟨.idle hsound, fun _ heq => Option.some.inj heq ▸ kept_refl t⟩
          | some a =>
              obtain ⟨⟨sc, f, -, -, -, hf⟩, -⟩ := hsound.nested
              rw [Config.next] at h
              dsimp only at h
              rw [hf] at h
              cases h
              exact finished_onward hsound (hw.kept (Mild.kept ht)) hf r
  | @back s r tasks hs hw =>
      refine ⟨s, rfl, ?_⟩
      cases tasks with
      | nil => cases h
      | cons task rest =>
          obtain ⟨hhost, ⟨own, hown, hk⟩, hrest⟩ := hw
          obtain ⟨who, k⟩ := task
          cases h
          have hs' : Sound (who.toList ++ active rest) s := by
            cases who <;> exact hs
          have hown' : Able s (who.toList ++ active rest) own := by
            cases who <;> exact hown
          exact onward_eval hs' hown' (hk s r) hhost hrest

theorem init_sound : Sound [] (State.init p) where
  two := Nat.lt_succ_self 1
  births := List.pairwise_pair.2 Nat.zero_lt_one
  clock := by simp [State.init, emptyScope]
  apart := List.pairwise_pair.2 (Nat.le_refl 0)
  inside := by simp [State.init, State.extent, emptyScope]
  linked i sc hsc := by
    match i with
    | 0 => cases hsc; exact .inl ⟨rfl, rfl, Nat.zero_le 1⟩
    | 1 => cases hsc; exact .inl ⟨rfl, rfl, Nat.le_refl 1⟩
    | i + 2 => cases hsc
  closures id entry scope code h := by cases h
  compiled key id h := by cases h
  leaves := List.forall_mem_nil _
  frames := rfl
  sp := rfl
  nested := trivial

/-- **One step**, of the machine or of the host. -/
theorem step_onward {act : Action} (hc : Safe c) (h : (interp p).step c act = some c') :
    ∃ s, c.state = some s ∧ Onward s c' := by
  cases act with
  | step => exact next_onward hc h
  | host x tame =>
      cases hc with
      | idle hs =>
          cases h
          refine ⟨_, rfl, onward_eval hs able_none ?_ (fun _ => rfl) trivial⟩
          exact Lib.CallM.Follows.map (onMem_mild tame) _ _
      | ops | eval | back | crash => cases h

/-- Along a run the configurations are safe, and scopes keep what they are. -/
theorem steps_onward (h : (interp p).Steps c c') (hc : Safe c) :
    Safe c' ∧ ∀ s s', c.state = some s → c'.state = some s' → Kept s s' := by
  induction h with
  | refl =>
      refine ⟨hc, fun s s' hs hs' => ?_⟩
      cases hs.symm.trans hs'
      exact refl_of Kept s
  | tail _ hstep ih =>
      obtain ⟨hsafe, hkept⟩ := ih
      obtain ⟨s₁, hs₁, hsafe', hkept'⟩ := step_onward hsafe hstep
      exact ⟨hsafe', fun s s' hs hs' => IsTrans.trans _ _ _ (hkept s s₁ hs hs₁) (hkept' s' hs').1⟩

theorem reachable_safe (h : (interp p).Reachable c) : Safe c :=
  (steps_onward h (.idle init_sound)).1

theorem Safe.sound (hc : Safe c) (hs : c.state = some s) : Sound c.running s := by
  cases hc with
  | idle h => exact Option.some.inj hs ▸ h
  | ops h => exact Option.some.inj hs ▸ h
  | @eval s₀ who t tasks own h hown ht =>
      obtain rfl := Option.some.inj hs
      cases t with
      | done t r => exact h.mild hown ht
      | call t q k => exact h.mild hown ht.1
  | back h => exact Option.some.inj hs ▸ h
  | crash => cases hs

/-- What holds of the scopes of a state. -/
structure Stands (running : List Act) (s : State) : Prop where
  /-- A closure has a scope that stands, and it is that of the activation that made it. -/
  closures : ∀ id entry scope code, closureAt s.mem.heap id = some (entry, scope, code) →
    ∃ sc, s.scopes[scope]? = some sc ∧ (GHOST < scope → sc.birth = s.born id)
  parents : ∀ (i : ℕ) (sc : Scope) (q : ℕ), s.scopes[i]? = some sc → sc.parent = some q → q < i
  births : s.scopes.Pairwise fun x y => x.birth < y.birth
  frames : ∀ a ∈ running, ∃ sc,
    s.scopes[a.scope]? = some sc ∧ sc.cf = some a.cf ∧ sc.base = a.base
  own : running.Pairwise fun a b => b.scope < a.scope
  inside : ∀ sc ∈ s.scopes, s.extent sc ≤ s.vals.length
  apart : s.scopes.Pairwise fun x y => s.extent x ≤ y.base
  depth : s.frames.length = running.length
  sp : s.sp = s.top running

theorem Sound.stands {running : List Act} (hs : Sound running s) : Stands running s where
  closures id entry scope code hc := by
    obtain ⟨sc, hsc, hmade, -⟩ := hs.closures id entry scope code hc
    exact ⟨sc, hsc, fun hlt => (hmade hlt).1⟩
  parents i sc q hsc hq := by
    rcases hs.linked i sc hsc with ⟨-, hnone, -⟩ | ⟨-, _, _, q', _, -, -, hq', hlt, -⟩
    · cases hq.symm.trans hnone
    · cases hq.symm.trans hq'
      exact hlt
  births := hs.births
  frames := by
    have h := hs.nested
    clear hs
    induction running with
    | nil => exact List.forall_mem_nil _
    | cons a rest ih =>
        obtain ⟨⟨sc, f, hsc, hcf, hbase, -⟩, -, -, hrest⟩ := h
        exact List.forall_mem_cons.2 ⟨⟨sc, hsc, hcf, hbase⟩, ih hrest⟩
  own := by
    have h := hs.nested
    clear hs
    induction running with
    | nil => exact .nil
    | cons a rest ih => exact .cons h.2.2.1 (ih h.2.2.2)
  inside := hs.inside
  apart := hs.apart
  depth := hs.frames
  sp := hs.sp

/-- A run during which `waiting` waits. -/
inductive During (p : Program) (waiting : List Task) (c : Config) : Config → Prop
  | refl : During p waiting c c
  | tail {c₁ c₂ : Config} {act : Action} (h : During p waiting c c₁)
      (hstep : (interp p).step c₁ act = some c₂) (hw : waiting <:+ c₂.tasks) :
      During p waiting c c₂

/-- The scope of an activation that waits is there. -/
theorem Safe.waiting {waiting : List Task} (hc : Safe c) (hs : c.state = some s)
    (hw : waiting <:+ c.tasks) {a : Act} (ha : a ∈ active waiting) :
    ∃ sc, s.scopes[a.scope]? = some sc := by
  have hactive : a ∈ active c.tasks := ((hw.filterMap _).subset) ha
  have hrunning : a ∈ c.running := by
    rw [Config.running]
    split
    · exact List.mem_cons_of_mem _ hactive
    · exact List.mem_append_right _ hactive
    · exact hactive
  obtain ⟨sc, hsc, -⟩ := (hc.sound hs).stands.frames a hrunning
  exact ⟨sc, hsc⟩

/-- **While an activation waits** its scope stays what it is. -/
theorem during_steady {waiting : List Task} (hc : Safe c) (hw : waiting <:+ c.tasks)
    (h : During p waiting c c') {a : Act} (ha : a ∈ active waiting) (hs : c.state = some s)
    (hs' : c'.state = some s') : ∃ sc sc', s.scopes[a.scope]? = some sc ∧
      s'.scopes[a.scope]? = some sc' ∧ sc.shape = sc'.shape := by
  suffices hboth : (interp p).Steps c c' ∧ waiting <:+ c'.tasks ∧ ∀ s', c'.state = some s' →
      ∃ sc sc', s.scopes[a.scope]? = some sc ∧ s'.scopes[a.scope]? = some sc' ∧
        sc.shape = sc'.shape from hboth.2.2 s' hs'
  clear hs'
  induction h with
  | refl =>
      refine ⟨.refl, hw, fun s' hs' => ?_⟩
      cases hs.symm.trans hs'
      obtain ⟨sc, hsc⟩ := hc.waiting hs hw ha
      exact ⟨sc, sc, hsc, hsc, rfl⟩
  | tail _ hstep hw₂ ih =>
      obtain ⟨hsteps, -, hsame⟩ := ih
      obtain ⟨s₁, hs₁, hsafe₂, hkept⟩ := step_onward (steps_onward hsteps hc).1 hstep
      refine ⟨hsteps.tail hstep, hw₂, fun s₂ hs₂ => ?_⟩
      obtain ⟨sc, sc₁, hsc, hsc₁, hshape⟩ := hsame s₁ hs₁
      obtain ⟨sc₂, hsc₂⟩ := hsafe₂.waiting hs₂ hw₂ ha
      exact ⟨sc, sc₂, hsc, hsc₂, hshape.trans ((hkept s₂ hs₂).2 _ _ _ hsc₁ hsc₂)⟩

/-- **Scopes and stacks are safe** in every run of every program: what `Stands` says holds of every
state; a scope that stands keeps its function, its slots, its parent and its birth; the scope of an
activation stays while it waits for a call; and when a call comes back, with a value, a throw or a
fault, the stack pointer and the depth of the frames are those it started with. -/
theorem scopes_stand (p : Program) (c c' : Config) (hc : (interp p).Reachable c)
    (h : (interp p).Steps c c') :
    (∀ s', c'.state = some s' → Stands c'.running s') ∧
    (∀ s s', c.state = some s → c'.state = some s' → Kept s s') ∧
    (∀ waiting, waiting <:+ c.tasks → During p waiting c c' → ∀ a ∈ active waiting, ∀ s s',
      c.state = some s → c'.state = some s' → ∃ sc sc', s.scopes[a.scope]? = some sc ∧
        s'.scopes[a.scope]? = some sc' ∧ sc.shape = sc'.shape) ∧
    ∀ who s q k s' r, c.ctl = .eval who (.call s q k) → c'.ctl = .back s' r →
      c'.tasks = ⟨who, k⟩ :: c.tasks → s'.sp = s.sp ∧ s'.frames.length = s.frames.length := by
  have hsafe := reachable_safe hc
  obtain ⟨hsafe', hkept⟩ := steps_onward h hsafe
  refine ⟨fun s' hs' => (hsafe'.sound hs').stands, hkept,
    fun waiting hw hduring a ha s s' hs hs' => during_steady hsafe hw hduring ha hs hs',
    fun who s q k s' r hctl hctl' htasks => ?_⟩
  have hs : c.state = some s := by rw [Config.state, hctl]; rfl
  have hs' : c'.state = some s' := by rw [Config.state, hctl']
  have hrunning : c'.running = c.running := by
    rw [Config.running, Config.running, hctl, hctl', htasks]
    cases who <;> rfl
  have hsound := hsafe.sound hs
  have hsound' := hsafe'.sound hs'
  rw [hrunning] at hsound'
  refine ⟨?_, hsound'.frames.trans hsound.frames.symm⟩
  rw [hsound.sp, hsound'.sp]
  -- the function of the innermost activation is compiled already
  cases hrun : c.running with
  | nil => rfl
  | cons a rest =>
      rw [hrun] at hsound
      obtain ⟨⟨sc, f, -, -, -, hf⟩, -⟩ := hsound.nested
      rw [State.top, State.top, hf, Lib.getElem?_of_prefix (hkept s s' hs hs').cfuncs hf]

end Machine

/-- A program of one function, which does nothing. -/
def idling : Program where
  funcs := [⟨0, 0, [⟨0, [], .exit, true⟩]⟩]
  names := ⟨"catch", "finally", "exc", "value", "ret", "result", []⟩
  statics _ := none
  host := failingHost

/-- The host makes a closure of the function and calls it. -/
def callOnce : MemM Val := do
  let _ ← alloc (.closure 0 ROOT .undef .undef none)
  Lib.CallM.request ⟨0, .undef, []⟩

theorem callOnce_tame : callOnce.Follows Tame :=
  .bind (alloc_root_tame 0 (Nat.zero_le 1)) fun _ => .request _

/-- While the function runs it has a scope, which is gone afterwards. -/
theorem scopes_stand_idling : ∃ c, (interp idling).Reachable c ∧
    c.state.any (fun s => s.scopes.length = 3) = true ∧
    ∀ s, c.state = some s → Stands c.running s := by
  obtain ⟨c, hc, hlen⟩ := Lib.System.exists_reachable (m := interp idling)
    [.host callOnce callOnce_tame, .step, .step]
    (P := fun c => c.state.any (fun s => s.scopes.length = 3) = true) (by decide +kernel)
  exact ⟨c, hc, hlen, (scopes_stand idling c c hc .refl).1⟩

end Interp
end Lunar
