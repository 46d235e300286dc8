/-
# Runs stay inside the program

`Program::build` of `worktime/fc.rs` promises that the tables of a program fit
together (`Program.Wf`).  Then a run of a function never reads out of range: the
paths of the values that it meets are in the path table, their callees are
functions and their arrays are sites (`Val.Known`), and it writes only to the
finitely many locations of the program (`Program.HasLoc`).
-/

import Lunar.Lib.Contract
import Lunar.Worktime.Fc.Solver

namespace Lunar
namespace Fc

open Lib (Prog Contract)
open Worktime (Instr Operand)

/-! ## Well-formed programs -/

/-- What `Program::build` promises of its tables. -/
structure Program.Wf (p : Program) : Prop where
  aux : p.aux.length = p.instrs.length
  key : ∀ {a : Aux} {k : ℕ}, a ∈ p.aux → a.key = some k → k < p.names.length
  closure : ∀ {i : ℕ} {ins : Instr} {a : Aux}, p.instrs[i]? = some ins → p.aux[i]? = some a →
    ins.op = .closure → a.site < p.funcs.length
  array : ∀ {i : ℕ} {ins : Instr} {a : Aux}, p.instrs[i]? = some ins → p.aux[i]? = some a →
    ins.op = .newArr ∨ ins.op = .newArrN → a.site < p.nallocs
  blocks : ∀ {b : Block}, b ∈ p.blocks → b.stop ≤ p.instrs.length
  fblocks : ∀ {b : ℕ}, b ∈ p.fblocks → b < p.blocks.length
  fsucc : p.fsucc.length = p.fblocks.length
  funcs : ∀ {func : Func}, func ∈ p.funcs → func.first + func.count ≤ p.fblocks.length
  entry : ∀ {func : Func}, func ∈ p.funcs → func.entry < func.count
  succ : ∀ {func : Func} {b : ℕ} {s : Option ℕ × Option ℕ}, func ∈ p.funcs → b < func.count →
    p.fsucc[func.first + b]? = some s → ∀ k, s.1 = some k ∨ s.2 = some k → k < func.count
  varItems : ∀ {f : ℕ}, f ∈ p.varItems → f < p.funcs.length
  methodItems : ∀ {f : ℕ}, f ∈ p.methodItems → f < p.funcs.length

namespace Program

variable (p : Program)

/-- The sites of the program and the argument arrays of its functions. -/
def nsites : ℕ := p.nallocs + p.funcs.length

/-- The locations of `vals`. -/
def HasLoc : Loc → Prop
  | .var id => id < p.nvars
  | .field k => k < p.names.length
  | .any | .exc => True
  | .ret f | .this f => f < p.funcs.length
  | .sum s => s < p.nsites
  | .elem s i => s < p.nsites ∧ i ≤ p.elemLen s

/-- The number of paths of a solver: at least those of a new one. -/
abbrev Stage : Type := {n : ℕ // (Facts.new p).2.2.paths.length ≤ n}

end Program

variable {p : Program} {g g' : p.Stage}

/-- The path is in the table. -/
def Taint.Known (g : p.Stage) (t : Taint) : Prop := ∀ id d, t = .path id d → id < g.1

/-- The path is in the table, the callees are functions, and the array is a site. -/
structure Val.Known (g : p.Stage) (v : Val) : Prop where
  path : v.t.Known g
  callee : ∀ f ∈ p.targets v.c, f < p.funcs.length
  site : ∀ s, v.a.get = some s → s < p.nsites

theorem Taint.Known.mono {t : Taint} (h : t.Known g) (hg : g ≤ g') : t.Known g' :=
  fun id d ht => Nat.lt_of_lt_of_le (h id d ht) hg

theorem Val.Known.mono {v : Val} (h : v.Known g) (hg : g ≤ g') : v.Known g' :=
  ⟨h.path.mono hg, h.callee, h.site⟩

theorem Taint.known_clean : Taint.clean.Known g := nofun

theorem Taint.known_lost : Taint.lost.Known g := nofun

theorem Taint.Known.sup {t u : Taint} (ht : t.Known g) (hu : u.Known g) : (t ⊔ u).Known g := by
  intro id d h
  rw [Taint.sup_def] at h
  cases t with
  | clean =>
      cases u with
      | clean => cases h
      | path j y => exact hu id d h
      | lost => cases h
  | path i x =>
      cases u with
      | clean => exact ht id d h
      | path j y =>
          simp only [Taint.join] at h
          split at h
          · cases h
            exact ht _ _ rfl
          · cases h
      | lost => cases h
  | lost => cases u <;> cases h

theorem Taint.Known.derive {t : Taint} (h : t.Known g) : t.derive.Known g := by
  intro id d hd
  cases t with
  | clean => cases hd
  | path i x =>
      cases hd
      exact h _ _ rfl
  | lost => cases hd

/-- A tag with the join of two tags is one of them, or it names nothing. -/
theorem Tag.join_get {α : Type} [DecidableEq α] (a b : Tag α) :
    (a ⊔ b = a ∨ a ⊔ b = b) ∨ (a ⊔ b).get = none := by
  change (a.join b = a ∨ a.join b = b) ∨ (a.join b).get = none
  cases a <;> cases b <;> simp [Tag.join, Tag.get]
  split <;> simp_all

theorem Program.targets_of_get {c : Tag Callee} (h : c.get = none) : p.targets c = [] := by
  rw [Program.targets, h]

theorem Val.Known.sup {v w : Val} (hv : v.Known g) (hw : w.Known g) : (v ⊔ w).Known g := by
  refine ⟨hv.path.sup hw.path, ?_, ?_⟩
  · change ∀ f ∈ p.targets (v.c ⊔ w.c), _
    rcases Tag.join_get v.c w.c with (h | h) | h
    · rw [h]
      exact hv.callee
    · rw [h]
      exact hw.callee
    · rw [Program.targets_of_get h]
      exact fun f hf => absurd hf List.not_mem_nil
  · change ∀ s, (v.a ⊔ w.a).get = some s → _
    rcases Tag.join_get v.a w.a with (h | h) | h
    · rw [h]
      exact hv.site
    · rw [h]
      exact hw.site
    · rw [h]
      exact nofun

theorem Tag.get_live {α : Type} (c : Tag α) : c.live.get = c.get := by cases c <;> rfl

theorem Program.targets_live (c : Tag Callee) : p.targets c.live = p.targets c := by
  rw [Program.targets, Program.targets, Tag.get_live]

theorem Val.Known.live {v : Val} (h : v.Known g) : v.live.Known g where
  path := h.path
  callee := by
    change ∀ f ∈ p.targets v.c.live, _
    rw [Program.targets_live]
    exact h.callee
  site := by
    change ∀ s, v.a.live.get = some s → _
    rw [Tag.get_live]
    exact h.site

theorem Val.known_taint {t : Taint} (h : t.Known g) : (Val.taint t).Known g :=
  ⟨h, fun _ h => absurd h List.not_mem_nil, nofun⟩

theorem Val.known_field {t : Taint} (h : t.Known g) : (Val.field t).Known g :=
  ⟨h, fun _ h => absurd h List.not_mem_nil, nofun⟩

theorem known_bottom : BOTTOM.Known g := Val.known_field Taint.known_clean

theorem known_plain : PLAIN.Known g := Val.known_taint Taint.known_clean

/-! ## The path table -/

/-- The numbers of paths are below the length of the table. -/
def Facts.Sane (s : Facts) : Prop :=
  ∀ parent key id, s.pathIds parent key = some id → id < s.paths.length

theorem Facts.child_spec {s : Facts} (hs : s.Sane) (parent key : ℕ) (derived : Bool) :
    (s.child parent key derived).2.Sane ∧
      s.paths.length ≤ (s.child parent key derived).2.paths.length ∧
      ∀ id d, (s.child parent key derived).1 = .path id d →
        id < (s.child parent key derived).2.paths.length := by
  unfold child
  split
  · next id hid =>
      refine ⟨hs, Nat.le_refl _, fun i d h => ?_⟩
      cases h
      exact hs _ _ _ hid
  · split
    · exact ⟨hs, Nat.le_refl _, fun _ _ h => by cases h⟩
    · refine ⟨fun a b id h => ?_, ?_, fun i d h => ?_⟩
      · dsimp only at h ⊢
        rw [List.length_append, List.length_singleton]
        split at h
        · cases h
          exact Nat.lt_succ_self _
        · exact Nat.lt_succ_of_lt (hs _ _ _ h)
      · dsimp only
        rw [List.length_append]
        exact Nat.le_add_right ..
      · cases h
        dsimp only
        rw [List.length_append]
        exact Nat.lt_succ_self _

theorem Facts.new_spec (p : Program) :
    (Facts.new p).2.2.Sane ∧ 0 < (Facts.new p).2.2.paths.length ∧
      (∀ id d, (Facts.new p).1 = .path id d → id < (Facts.new p).2.2.paths.length) ∧
      ∀ id d, (Facts.new p).2.1 = .path id d → id < (Facts.new p).2.2.paths.length := by
  have h₀ : Facts.Sane ⟨[(NONE, NONE)], fun _ _ => none, fun _ => false, fun _ => .clean⟩ := nofun
  have hpos : 0 < [(NONE, NONE)].length := Nat.one_pos
  have hle : ∀ {n m : ℕ} {t : Taint}, (∀ id d, t = .path id d → id < n) → n ≤ m →
      ∀ id d, t = .path id d → id < m := fun h hnm id d ht => Nat.lt_of_lt_of_le (h id d ht) hnm
  rw [Facts.new]
  cases p.dynKey with
  | none =>
      cases p.ffKey with
      | none => exact ⟨h₀, hpos, nofun, nofun⟩
      | some ff =>
          obtain ⟨hs, hl, hp⟩ := Facts.child_spec h₀ ROOT ff false
          exact ⟨hs, Nat.lt_of_lt_of_le hpos hl, nofun, hp⟩
  | some dyn =>
      obtain ⟨hs, hl, hp⟩ := Facts.child_spec h₀ ROOT dyn false
      cases p.ffKey with
      | none => exact ⟨hs, Nat.lt_of_lt_of_le hpos hl, hp, nofun⟩
      | some ff =>
          obtain ⟨hs', hl', hp'⟩ := Facts.child_spec hs ROOT ff false
          exact ⟨hs', Nat.lt_of_lt_of_le hpos (Nat.le_trans hl hl'), hle hp hl', hp'⟩

theorem known_root : (Taint.path ROOT false).Known g := by
  intro id d h
  cases h
  exact Nat.lt_of_lt_of_le (Facts.new_spec p).2.1 g.2

theorem known_dynPath : (dynPath p).Known g := fun id d h =>
  Nat.lt_of_lt_of_le ((Facts.new_spec p).2.2.1 id d h) g.2

theorem known_ffPath : (ffPath p).Known g := fun id d h =>
  Nat.lt_of_lt_of_le ((Facts.new_spec p).2.2.2 id d h) g.2

/-! ## The contract of a run -/

/-- What a run may ask of the path table and of the query, and what it is told of a node: it asks
for children of nodes that it knows, at the keys of the program. -/
structure Rules (p : Program) where
  node : p.Stage → ℕ → Prop
  child : p.Stage → ℕ → ℕ → Prop
  query : p.Stage → Taint → Prop
  child_known : ∀ {g parent key}, parent < g.1 → key ≤ p.wild → child g parent key
  child_node : ∀ {g parent key}, node g parent → key ≤ p.wild → child g parent key
  query_known : ∀ {g t}, Taint.Known g t → query g t

/-- No rules. -/
def Rules.any (p : Program) : Rules p where
  node _ _ := True
  child _ _ _ := True
  query _ _ := True
  child_known _ _ := trivial
  child_node _ _ := trivial
  query_known _ := trivial

/-- What an answer promises. -/
def Answered (R : Rules p) (g : p.Stage) : (q : Query) → Answer q → Prop
  | .child _ _ _, t => Taint.Known g t
  | .node id, node => id ≠ ROOT → R.node g node.1
  | .fire _, _ | .query _ _, _ => True

/-- A run reads and writes known values, writes to locations of the program, and
asks for nodes of the path table only. -/
def contract (R : Rules p) : Contract Loc Val Answer p.Stage where
  holds := Val.Known
  place := p.HasLoc
  asks g
    | .node id => id < g.1
    | .child parent key _ => R.child g parent key
    | .query _ t => R.query g t
    | .fire _ => True
  answers g q a g' := g ≤ g' ∧ Answered R g' q a

variable {R : Rules p}

/-- From stage `g` on, `x` keeps the contract and ends with `P`. -/
abbrev Gives {α : Type} (R : Rules p) (x : M α) (g : p.Stage) (P : p.Stage → α → Prop) : Prop :=
  x.Ensures (contract R) g P

/-- Nothing is said of the result. -/
abbrev Done {α : Type} (_ : p.Stage) (_ : α) : Prop := True

theorem gives_rd (l : Loc) : Gives R (rd l) g Val.Known := Prog.ensures_read fun _ hv => hv

theorem gives_rdTaint (l : Loc) : Gives R (rdTaint l) g Taint.Known :=
  Prog.Ensures.bind (gives_rd l) fun _ _ _ hv => Prog.ensures_pure hv.path

theorem gives_wr {l : Loc} {v : Val} (hl : p.HasLoc l) (hv : v.Known g) :
    Gives R (wr l v) g Done := Prog.ensures_write hl hv trivial

theorem gives_fire (i : ℕ) : Gives R (fire i) g Done :=
  Prog.ensures_query trivial fun _ _ h => ⟨h.1, trivial⟩

theorem gives_child {parent key : ℕ} (h : R.child g parent key) (derived : Bool) :
    Gives R (child parent key derived) g Taint.Known :=
  Prog.ensures_query h fun _ _ h => h

theorem gives_index {α : Type} {xs : List α} {i : ℕ} (hi : i < xs.length) :
    Gives R (index xs i) g fun _ a => xs[i]? = some a := by
  rw [index, List.getElem?_eq_getElem hi]
  exact Prog.ensures_pure rfl

theorem Taint.split_path {t : Taint} {id : ℕ} {derived : Bool}
    (h : t.split = some (id, derived)) : t = .path id derived := by
  cases t with
  | path i d =>
      cases h
      rfl
  | clean | lost => cases h

theorem gives_ext {t : Taint} (ht : t.Known g) {key : ℕ} (hkey : key ≤ p.wild) :
    Gives R (ext t key) g Taint.Known := by
  rw [ext]
  split
  · next id derived hs =>
      exact gives_child (R.child_known (ht _ _ (Taint.split_path hs)) hkey) _
  · exact Prog.ensures_pure ht

theorem gives_fromAny {any : Taint} (h : any.Known g) {key : ℕ} (hkey : key ≤ p.wild) :
    Gives R (fromAny p any key) g Taint.Known := by
  rw [fromAny]
  split
  · next id derived hs =>
      split
      · exact Prog.ensures_pure h
      · next hroot =>
          have hnode : Gives R (ask (.node id)) g fun g' node => R.node g' node.1 :=
            Prog.ensures_query (h _ _ (Taint.split_path hs)) fun _ _ h => ⟨h.1, h.2 hroot⟩
          refine Prog.Ensures.bind hnode fun g' node hg hnode => ?_
          dsimp only
          split
          · exact gives_child (R.child_node hnode hkey) _
          · exact Prog.ensures_pure (h.mono hg)
  · exact Prog.ensures_pure h

/-! ## Arrays and calls -/

theorem hasLoc_find {site : ℕ} (h : site < p.nsites) (idx : Int) : p.HasLoc (find p site idx) := by
  rw [find]
  split
  · next hi => exact ⟨h, by omega⟩
  · exact ⟨h, Nat.le_refl _⟩

theorem gives_wrElem {site : ℕ} {v : Val} (h : site < p.nsites) (idx : Int) (hv : v.Known g) :
    Gives R (wrElem p site idx v) g Done :=
  Prog.Ensures.bind (gives_wr (hasLoc_find h idx) hv) fun _ _ hg _ => gives_wr h (hv.mono hg)

theorem gives_sumOf (v : Val) : Gives R (sumOf v) g Taint.Known := by
  rw [sumOf]
  split
  · exact gives_rdTaint _
  · exact Prog.ensures_pure Taint.known_clean

theorem gives_spread {v : Val} (hv : v.Known g) : Gives R (spread v) g Taint.Known :=
  Prog.Ensures.bind (gives_sumOf v) fun _ _ hg ht =>
    Prog.ensures_pure ((hv.path.mono hg).sup ht)

/-- The argument array of a function. -/
theorem args_site {f : ℕ} (h : f < p.funcs.length) : p.nallocs + f < p.nsites :=
  Nat.add_lt_add_left h _

theorem gives_invoke {c : Tag Callee} {input : Taint} (hc : ∀ f ∈ p.targets c, f < p.funcs.length)
    (hi : input.Known g) : Gives R (invoke p c input) g Taint.Known := by
  refine Prog.ensures_foldlM Taint.known_clean fun g₁ out f hf hg hout => ?_
  have hin : (Val.taint input).Known g₁ := Val.known_taint (hi.mono hg)
  refine Prog.Ensures.bind (gives_wrElem (args_site (hc f hf)) ANY hin) fun g₂ _ hg _ => ?_
  refine Prog.Ensures.bind (gives_rd (.ret f)) fun g₃ r hg' hr => ?_
  exact Prog.ensures_pure ((hout.mono (le_trans hg hg')).sup hr.path.derive)

theorem gives_callback {v : Val} {input : Taint} (hv : v.Known g) (hi : input.Known g) :
    Gives R (callback p v input) g Taint.Known := by
  refine Prog.Ensures.bind (gives_invoke hv.callee hi) fun g₁ out hg hout => ?_
  split
  · refine Prog.ensures_foldlM hout fun g₂ out i _ hg' hout => ?_
    refine Prog.Ensures.bind (gives_rd _) fun g₃ e hg₃ he => ?_
    have hin : input.Known g₃ := hi.mono (le_trans hg (le_trans hg' hg₃))
    refine Prog.Ensures.bind (gives_invoke he.callee hin) fun g₄ r hg₄ hr => ?_
    exact Prog.ensures_pure ((hout.mono (le_trans hg₃ hg₄)).sup hr)
  · exact Prog.ensures_pure hout

/-- What is known of the values that a call hands over. -/
def KnownArgs (g : p.Stage) (args : List Val) : Prop := ∀ v ∈ args, v.Known g

def KnownThis (g : p.Stage) (thisv : Option Val) : Prop := ∀ v, thisv = some v → v.Known g

theorem KnownArgs.mono {args : List Val} (h : KnownArgs g args) (hg : g ≤ g') :
    KnownArgs g' args := fun v hv => (h v hv).mono hg

theorem KnownThis.mono {thisv : Option Val} (h : KnownThis g thisv) (hg : g ≤ g') :
    KnownThis g' thisv := fun v hv => (h v hv).mono hg

theorem gives_activate {f : ℕ} {thisv : Option Val} {args : List Val} {rest : Val}
    (hf : f < p.funcs.length) (ht : KnownThis g thisv) (ha : KnownArgs g args)
    (hr : rest.Known g) : Gives R (activate p f thisv args rest) g Val.Known := by
  have hargs : Gives R
      (args.zipIdx.forM fun a => wrElem p (p.nallocs + f) a.2 a.1) g Done := by
    refine Prog.ensures_forM fun g₁ a ha' hg => gives_wrElem (args_site hf) _ ?_
    exact (ha _ (List.fst_mem_of_mem_zipIdx ha')).mono hg
  refine Prog.Ensures.bind hargs fun g₁ _ hg₁ _ => ?_
  have hrest : Gives R (passRest p (p.nallocs + f) rest) g₁ Done := by
    rw [passRest]
    split
    · exact gives_wrElem (args_site hf) _ (hr.mono hg₁)
    · exact Prog.ensures_pure trivial
  refine Prog.Ensures.bind hrest fun g₂ _ hg₂ _ => ?_
  have hthis : Gives R (passThis f thisv) g₂ Done := by
    cases thisv with
    | none => exact Prog.ensures_pure trivial
    | some th => exact gives_wr hf (Val.known_field ((ht th rfl).path.mono (le_trans hg₁ hg₂)))
  exact Prog.Ensures.bind hthis fun _ _ _ _ => gives_rd _

theorem gives_nativeThis {fnv : Val} {thisv : Option Val} (hf : fnv.Known g)
    (ht : KnownThis g thisv) : Gives R (nativeThis fnv thisv) g Taint.Known := by
  cases thisv with
  | none => exact Prog.ensures_pure hf.path
  | some th =>
      refine Prog.Ensures.bind (gives_spread (ht th rfl)) fun g₁ t hg h => ?_
      refine Prog.ensures_pure (Taint.Known.sup ?_ h)
      split
      · exact Taint.known_clean
      · exact hf.path.mono hg

theorem gives_callbackThis {t : Taint} {thisv : Option Val} (ht : t.Known g)
    (hth : KnownThis g thisv) : Gives R (callbackThis p t thisv) g Taint.Known := by
  cases thisv with
  | none => exact Prog.ensures_pure ht
  | some th =>
      have hv := hth th rfl
      refine Prog.Ensures.bind (gives_callback hv ht) fun g₁ r hg hr => ?_
      have hw : Gives R (writeBack p th t) g₁ Done := by
        rw [writeBack]
        split
        · next s hs => exact gives_wrElem (hv.site s hs) _ (Val.known_taint (ht.mono hg))
        · exact Prog.ensures_pure trivial
      refine Prog.Ensures.bind hw fun g₂ _ hg' _ => Prog.ensures_pure ?_
      exact ((ht.mono (le_trans hg hg')).sup (hr.mono hg'))

theorem gives_native {fnv : Val} {thisv : Option Val} {args : List Val} {rest : Val}
    (hf : fnv.Known g) (ht : KnownThis g thisv) (ha : KnownArgs g args) (hr : rest.Known g) :
    Gives R (native p fnv thisv args rest) g Taint.Known := by
  refine Prog.Ensures.bind (gives_nativeThis hf ht) fun g₁ t hg₁ h₁ => ?_
  have hargs : Gives R
      (args.foldlM (fun t a => do return t ⊔ (← spread a)) t) g₁ Taint.Known := by
    refine Prog.ensures_foldlM h₁ fun g₂ t a hmem hg h => ?_
    refine Prog.Ensures.bind (gives_spread ((ha a hmem).mono (le_trans hg₁ hg)))
      fun g₃ u hg' hu => ?_
    exact Prog.ensures_pure ((h.mono hg').sup hu)
  refine Prog.Ensures.bind hargs fun g₂ t hg₂ h₂ => ?_
  have hr₂ : rest.Known g₂ := hr.mono (le_trans hg₁ hg₂)
  refine Prog.Ensures.bind (gives_spread hr₂) fun g₃ u hg₃ hu => ?_
  have hsaw : (t ⊔ u).derive.Known g₃ := ((h₂.mono hg₃).sup hu).derive
  have hg₁₃ := le_trans hg₁ (le_trans hg₂ hg₃)
  refine Prog.Ensures.bind (gives_callbackThis hsaw (ht.mono hg₁₃)) fun g₄ r hg₄ hr₄ => ?_
  have hback : Gives R (args.foldlM (fun r a => do
      return r ⊔ (← callback p a (t ⊔ u).derive)) r) g₄ Taint.Known := by
    refine Prog.ensures_foldlM hr₄ fun g₅ r a hmem hg h => ?_
    have hg₁₅ := le_trans hg₁₃ (le_trans hg₄ hg)
    refine Prog.Ensures.bind (gives_callback ((ha a hmem).mono hg₁₅)
      (hsaw.mono (le_trans hg₄ hg))) fun g₆ u hg' hu => ?_
    exact Prog.ensures_pure ((h.mono hg').sup hu)
  refine Prog.Ensures.bind hback fun g₅ r hg₅ hr₅ => ?_
  refine Prog.Ensures.bind (gives_callback (hr₂.mono (le_trans hg₃ (le_trans hg₄ hg₅)))
    (hsaw.mono (le_trans hg₄ hg₅))) fun g₆ u hg' hu => ?_
  exact Prog.ensures_pure ((hr₅.mono hg').sup hu)

theorem Val.Known.withTaint {v : Val} {t : Taint} (h : v.Known g) (ht : t.Known g) :
    ({ v with t } : Val).Known g := ⟨ht, h.callee, h.site⟩

theorem Val.Known.withCallee {v : Val} {c : Tag Callee} (h : v.Known g)
    (hc : ∀ f ∈ p.targets c, f < p.funcs.length) : ({ v with c } : Val).Known g :=
  ⟨h.path, hc, h.site⟩

theorem Val.Known.withArray {v : Val} {s : ℕ} (h : v.Known g) (hs : s < p.nsites) :
    ({ v with a := .of s } : Val).Known g :=
  ⟨h.path, h.callee, fun _ h => Option.some.inj h ▸ hs⟩

theorem gives_result {fnv : Val} {thisv : Option Val} {args : List Val} {rest out : Val}
    (hf : fnv.Known g) (ht : KnownThis g thisv) (ha : KnownArgs g args) (hr : rest.Known g)
    (ho : out.Known g) : Gives R (result p fnv thisv args rest out) g Val.Known := by
  rw [result]
  split
  · refine Prog.Ensures.bind (gives_native hf ht ha hr) fun g₁ r hg h => Prog.ensures_pure ?_
    split
    · exact Val.known_taint h
    · exact (ho.mono hg).withTaint ((ho.path.mono hg).sup h)
  · exact Prog.ensures_pure ho

theorem gives_header {i : ℕ} {args : List Val} {rest out : Val} (ho : out.Known g) :
    Gives R (header i args rest out) g Val.Known := by
  rw [header]
  split
  · refine Prog.Ensures.bind (gives_fire i) fun g₁ _ hg _ => Prog.ensures_pure ?_
    exact (ho.mono hg).withTaint ((ho.path.mono hg).sup known_root)
  · exact Prog.ensures_pure ho

/-- **A call keeps the contract.** -/
theorem gives_call {i : ℕ} {fnv : Val} {thisv : Option Val} {args : List Val} {rest : Val}
    (hf : fnv.Known g) (ht : KnownThis g thisv) (ha : KnownArgs g args) (hr : rest.Known g) :
    Gives R (call p i fnv thisv args rest) g Val.Known := by
  have htargets : Gives R ((p.targets fnv.c).foldlM (fun out g => do
      return out ⊔ (← activate p g thisv args rest)) BOTTOM) g Val.Known := by
    refine Prog.ensures_foldlM known_bottom fun g₁ out f hmem hg hout => ?_
    refine Prog.Ensures.bind (gives_activate (hf.callee f hmem) (ht.mono hg) (ha.mono hg)
      (hr.mono hg)) fun g₂ r hg' h => ?_
    exact Prog.ensures_pure ((hout.mono hg').sup h)
  refine Prog.Ensures.bind htargets fun g₁ out hg₁ ho => ?_
  refine Prog.Ensures.bind (gives_result (hf.mono hg₁) (ht.mono hg₁) (ha.mono hg₁) (hr.mono hg₁)
    ho.live) fun g₂ out hg₂ ho => ?_
  exact gives_header ho

theorem gives_expand {arr : Val} (h : arr.Known g) :
    Gives R (expand p arr) g fun g' r => KnownArgs g' r.1 ∧ r.2.Known g' := by
  rw [expand]
  split
  · refine Prog.Ensures.bind (Prog.ensures_mapM (R := Val.Known) (fun hg hv => Val.Known.mono hv hg)
      fun g₁ i _ _ => gives_rd _) fun g₁ buf hg hbuf => ?_
    refine Prog.Ensures.bind (gives_rd _) fun g₂ rest hg' hrest => ?_
    exact Prog.ensures_pure ⟨KnownArgs.mono hbuf hg', hrest⟩
  · exact Prog.ensures_pure ⟨fun _ hv => absurd hv List.not_mem_nil, Val.known_taint h.path⟩

/-! ## Instructions -/

variable {n : ℕ}

def Regs.Known (g : p.Stage) (regs : Regs n) : Prop := ∀ r, (regs r).Known g

theorem Regs.Known.mono {regs : Regs n} (h : regs.Known g) (hg : g ≤ g') : regs.Known g' :=
  fun r => (h r).mono hg

theorem Regs.Known.get {regs : Regs n} (h : regs.Known g) (r : ℕ) : (regs.get r).Known g := by
  rw [Regs.get]
  split
  · exact h _
  · exact known_bottom

theorem Regs.Known.set {regs : Regs n} {v : Val} (h : regs.Known g) (hv : v.Known g) (r : ℕ) :
    (regs.set r v).Known g := by
  intro k
  rw [Regs.set]
  split
  · exact hv
  · exact h k

theorem Regs.Known.opv {regs : Regs n} (h : regs.Known g) (op : Operand) (hdr : Bool) :
    (regs.opv op hdr).Known g := by
  cases op with
  | reg r => exact h.get r
  | _ => exact ⟨Taint.known_clean, fun _ h => absurd h List.not_mem_nil, nofun⟩

theorem Regs.Known.setDest {regs : Regs n} {v : Val} (h : regs.Known g) (hv : v.Known g)
    (ins : Instr) : (setDest ins regs v).Known g := by
  rw [Fc.setDest]
  split
  · exact h.set hv _
  · exact h

theorem mem_of_mem_slice {off items : List ℕ} {k f : ℕ} (h : f ∈ Program.slice off items k) :
    f ∈ items := List.mem_of_mem_take (List.mem_of_mem_drop h)

/-- A tag of functions that the program names. -/
structure Callee.Known (p : Program) (c : Callee) : Prop where
  targets : ∀ f ∈ p.targets (.of c), f < p.funcs.length

theorem known_method (hp : p.Wf) (kid : ℕ) : (Callee.method kid).Known p :=
  ⟨fun _ hf => hp.methodItems (mem_of_mem_slice hf)⟩

theorem known_var (hp : p.Wf) (id : ℕ) : (Callee.var id).Known p :=
  ⟨fun _ hf => hp.varItems (mem_of_mem_slice hf)⟩

theorem known_entry {f : ℕ} (h : f < p.funcs.length) : (Callee.entry f).Known p :=
  ⟨fun _ hf => List.mem_singleton.1 hf ▸ h⟩

theorem gives_getAny {i : ℕ} {ins : Instr} {regs : Regs n} {o : Val} {any : Taint}
    (ho : o.Known g) (ha : any.Known g) : Gives R (getAny p i ins regs o any) g Val.Known := by
  refine Prog.Ensures.bind (gives_ext ho.path le_rfl) fun g₁ t hg₁ ht => ?_
  refine Prog.Ensures.bind (gives_sumOf o) fun g₂ u hg₂ hu => ?_
  have hall : (t ⊔ any ⊔ u).Known g₂ := ((ht.sup (ha.mono hg₁)).mono hg₂).sup hu
  dsimp only
  split
  · refine Prog.Ensures.bind (gives_fire i) fun g₃ _ hg₃ _ => Prog.ensures_pure ?_
    exact Val.known_taint ((hall.mono hg₃).sup known_root)
  · exact Prog.ensures_pure (Val.known_taint hall)

theorem gives_fieldOf {base : Taint} (kid : ℕ) (hb : base.Known g) :
    Gives R (do return .taint (base ⊔ (← rdTaint (.field kid)))) g Val.Known :=
  Prog.Ensures.bind (gives_rdTaint _) fun _ _ hg ht =>
    Prog.ensures_pure (Val.known_taint ((hb.mono hg).sup ht))

theorem gives_getNamed (hp : p.Wf) {o : Val} {base : Taint} {kid : ℕ} (hb : base.Known g) :
    ∀ name, Gives R (getNamed p o base kid name) g Val.Known
  | .index ix => by
      rw [getNamed]
      split
      · split
        · refine Prog.Ensures.bind (gives_rd _) fun g₁ e hg₁ he => ?_
          refine Prog.Ensures.bind (gives_rd _) fun g₂ e' hg₂ he' => Prog.ensures_pure ?_
          have hall : (e ⊔ e').live.Known g₂ := ((he.mono hg₂).sup he').live
          exact hall.withTaint ((hb.mono (le_trans hg₁ hg₂)).sup hall.path)
        · exact gives_fieldOf kid hb
      · exact gives_fieldOf kid hb
  | .units _ | .lit _ =>
      Prog.Ensures.bind (gives_rdTaint _) fun _ _ hg ht =>
        Prog.ensures_pure ⟨(hb.mono hg).sup ht, (known_method hp kid).targets, nofun⟩

theorem gives_seedWith {i : ℕ} {v : Val} {t : Taint} (hv : v.Known g)
    (ht : ∀ {g' : p.Stage}, t.Known g') :
    Gives R (do fire i; return { v with t := v.t ⊔ t }) g Val.Known :=
  Prog.Ensures.bind (gives_fire i) fun _ _ hg _ =>
    Prog.ensures_pure ((hv.mono hg).withTaint ((hv.path.mono hg).sup ht))

theorem gives_seed {i kid : ℕ} {v : Val} (hv : v.Known g) :
    Gives R (seed p i kid v) g Val.Known := by
  rw [seed]
  split
  · exact gives_seedWith hv known_dynPath
  · split
    · exact gives_seedWith hv known_ffPath
    · split
      · exact gives_seedWith hv known_root
      · exact Prog.ensures_pure hv

theorem gives_observe (kid : ℕ) {t : Taint} (ht : t.Known g) :
    Gives R (observe p kid t) g Done := by
  refine Prog.ensures_forM fun g₁ j _ hg => ?_
  split
  · exact Prog.ensures_query (R.query_known (ht.mono hg)) fun _ _ h => ⟨h.1, trivial⟩
  · exact Prog.ensures_pure trivial

theorem gives_name {kid : ℕ} (h : kid < p.names.length) :
    Gives R (index p.names kid) g Done := (gives_index h).mono fun _ _ _ _ => trivial

theorem gives_getProp (hp : p.Wf) {i : ℕ} {ins : Instr} {aux : Aux} {regs : Regs n}
    (hr : regs.Known g) (haux : aux ∈ p.aux) : Gives R (getProp p i ins aux regs) g Val.Known := by
  refine Prog.Ensures.bind (gives_rdTaint _) fun g₁ any hg₁ hany => ?_
  have ho := (hr.mono hg₁).opv (ins.arg 0) false
  cases hkey : aux.key with
  | none => exact gives_getAny ho hany
  | some kid =>
      have hread : ∀ {x : M Taint}, Gives R x g₁ Taint.Known → Gives R (do
          let base ← x
          let v ← getNamed p (regs.opv (ins.arg 0) false) base kid (← index p.names kid)
          let v ← seed p i kid v
          observe p kid v.t
          return v) g₁ Val.Known := by
        intro x hx
        refine Prog.Ensures.bind hx fun g₂ base hg₂ hb => ?_
        refine Prog.Ensures.bind (gives_name (hp.key haux hkey)) fun g₃ name hg₃ _ => ?_
        refine Prog.Ensures.bind (gives_getNamed hp (hb.mono hg₃) name) fun g₄ v hg₄ hv => ?_
        refine Prog.Ensures.bind (gives_seed hv) fun g₅ v hg₅ hv => ?_
        refine Prog.Ensures.bind (gives_observe kid hv.path) fun g₆ _ hg₆ _ => ?_
        exact Prog.ensures_pure (hv.mono hg₆)
      dsimp only
      split
      · exact hread (gives_fromAny hany (hp.key haux hkey).le)
      · exact hread (gives_ext ho.path (hp.key haux hkey).le)

theorem gives_setField {v : Val} {kid : ℕ} (h : kid < p.names.length) (hv : v.Known g) :
    Gives R (wr (.field kid) (.field v.t)) g Done := gives_wr h (Val.known_field hv.path)

theorem gives_setNamed {o v : Val} {kid : ℕ} (h : kid < p.names.length) (ho : o.Known g)
    (hv : v.Known g) : ∀ name, Gives R (setNamed p o v kid name) g Done
  | .index ix => by
      rw [setNamed]
      split
      · next s hs =>
          split
          · exact gives_wrElem (ho.site s hs) ix hv
          · exact gives_setField h hv
      · exact gives_setField h hv
  | .units _ | .lit _ => gives_setField h hv

theorem gives_setProp (hp : p.Wf) {ins : Instr} {aux : Aux} {regs : Regs n}
    (hr : regs.Known g) (haux : aux ∈ p.aux) : Gives R (setProp p ins aux regs) g Done := by
  have ho := hr.opv (ins.arg 0) false
  have hv := hr.opv (ins.arg 2) (bit aux.hdr 2)
  rw [setProp]
  cases hkey : aux.key with
  | none =>
      dsimp only
      split
      · next s hs => exact gives_wrElem (ho.site s hs) ANY hv
      · exact gives_wr trivial (Val.known_field hv.path)
  | some kid =>
      have hkid := hp.key haux hkey
      refine Prog.Ensures.bind (gives_name hkid) fun g₁ name hg _ => ?_
      exact gives_setNamed hkid (ho.mono hg) (hv.mono hg) name

theorem var_lt {op : Operand} {id : ℕ} (h : p.var op = some id) : id < p.nvars := by
  cases op with
  | int i =>
      rw [Program.var] at h
      split at h
      · next hi =>
          obtain rfl := Option.some.inj h
          omega
      · cases h
  | _ => cases h

theorem known_args {regs : Regs n} (h : regs.Known g) (ins : Instr) (hdr : ℕ) :
    KnownArgs g (((ins.args.zipIdx).drop 1).map fun a => regs.opv a.1 (bit hdr a.2)) := by
  intro v hv
  obtain ⟨a, _, rfl⟩ := List.mem_map.1 hv
  exact h.opv _ _

/-- **An instruction keeps the contract.** -/
theorem gives_transfer (hp : p.Wf) {f i : ℕ} {regs : Regs n} (hf : f < p.funcs.length)
    (hi : i < p.instrs.length) (hr : regs.Known g) :
    Gives R (transfer p f i regs) g Regs.Known := by
  refine Prog.Ensures.bind (gives_index hi) fun g₁ ins hg₁ hins => ?_
  refine Prog.Ensures.bind (gives_index (hp.aux ▸ hi)) fun g₂ aux hg₂ haux => ?_
  have hmem : aux ∈ p.aux := List.mem_of_getElem? haux
  have hr₂ : regs.Known g₂ := hr.mono (le_trans hg₁ hg₂)
  have hdest : ∀ {x : M Val}, Gives R x g₂ Val.Known →
      Gives R (do return setDest ins regs (← x)) g₂ Regs.Known := fun hx =>
    Prog.Ensures.bind hx fun _ _ hg hv => Prog.ensures_pure ((hr₂.mono hg).setDest hv ins)
  have hwr : ∀ {x : M Unit}, Gives R x g₂ Done →
      Gives R (do x; return regs) g₂ Regs.Known := fun hx =>
    Prog.Ensures.bind hx fun _ _ hg _ => Prog.ensures_pure (hr₂.mono hg)
  dsimp only
  split
  -- one case per branch of the match on the opcode
  · exact Prog.ensures_pure (hr₂.setDest (hr₂.opv _ _) ins)
  · split
    · refine Prog.Ensures.bind (Prog.Ensures.bind (gives_rd _) fun _ _ _ h =>
        Prog.ensures_pure h.live) fun g₃ s hg hs => Prog.ensures_pure ?_
      refine (hr₂.mono hg).setDest (hs.withCallee ?_) ins
      split
      · exact hs.callee
      · exact (known_var hp _).targets
    · exact Prog.ensures_pure (hr₂.setDest known_plain ins)
  · split
    · next id hid => exact hwr (gives_wr (var_lt hid) (hr₂.opv _ _))
    · exact Prog.ensures_pure hr₂
  · split
    · next id hid => exact hwr (gives_wr (var_lt hid) (hr₂.opv _ _))
    · exact Prog.ensures_pure hr₂
  · split
    · next id hid =>
        refine Prog.Ensures.bind (gives_rdTaint _) fun g₃ t hg ht => ?_
        refine Prog.Ensures.bind (gives_wr (var_lt hid) (Val.known_taint ht)) fun _ _ hg' _ => ?_
        exact Prog.ensures_pure (hr₂.mono (le_trans hg hg'))
    · exact Prog.ensures_pure hr₂
  · refine Prog.Ensures.bind (gives_rdTaint _) fun g₃ t hg ht => ?_
    exact Prog.ensures_pure ((hr₂.mono hg).setDest (Val.known_taint ht) ins)
  · exact hwr (gives_wr trivial (Val.known_field (hr₂.opv _ _).path))
  · exact hwr (gives_wr hf (hr₂.opv _ _))
  · exact hdest (Prog.Ensures.bind (gives_rdTaint _) fun _ _ _ ht =>
      Prog.ensures_pure (Val.known_taint ht))
  · next hop =>
      have hsite := hp.closure hins haux hop
      exact Prog.ensures_pure (hr₂.setDest (known_plain.withCallee (known_entry hsite).targets) ins)
  · next hop =>
      have hsite := hp.array hins haux (.inl hop)
      exact Prog.ensures_pure (hr₂.setDest (known_plain.withArray (Nat.lt_add_right _ hsite)) ins)
  · next hop =>
      have hsite := hp.array hins haux (.inr hop)
      exact Prog.ensures_pure (hr₂.setDest (known_plain.withArray (Nat.lt_add_right _ hsite)) ins)
  · exact Prog.ensures_pure (hr₂.setDest known_plain ins)
  · exact Prog.ensures_pure (hr₂.setDest known_plain ins)
  · exact Prog.ensures_pure (hr₂.setDest known_plain ins)
  · exact Prog.ensures_pure (hr₂.setDest known_plain ins)
  · exact hdest (gives_getProp hp hr₂ hmem)
  · exact hwr (gives_setProp hp hr₂ hmem)
  · exact hdest (gives_call (hr₂.opv _ _) (fun _ h => by cases h) (known_args hr₂ ins _) known_bottom)
  · exact hdest (gives_call (hr₂.opv _ _) (fun _ h => by cases h) (known_args hr₂ ins _) known_bottom)
  · exact hdest (gives_call (hr₂.opv _ _) (fun _ h => by cases h) (known_args hr₂ ins _) known_bottom)
  · exact hdest (gives_call (hr₂.opv _ _) (fun _ h => by cases h) (known_args hr₂ ins _) known_bottom)
  · refine Prog.Ensures.bind (gives_expand (hr₂.opv _ _)) fun g₃ r hg hargs => ?_
    have hr₃ := hr₂.mono hg
    refine Prog.Ensures.bind (gives_call (hr₃.opv _ _) ?_ hargs.1 hargs.2) fun g₄ v hg' hv => ?_
    · intro v hv
      exact Option.some.inj hv ▸ hr₃.opv _ _
    · exact Prog.ensures_pure ((hr₃.mono hg').set hv _)
  · refine Prog.Ensures.bind (gives_expand (hr₂.opv _ _)) fun g₃ r hg hargs => ?_
    have hr₃ := hr₂.mono hg
    refine Prog.Ensures.bind (gives_call (hr₃.opv _ _) (fun _ h => by cases h) hargs.1 hargs.2) fun g₄ v hg' hv => ?_
    exact Prog.ensures_pure ((hr₃.mono hg').setDest hv ins)
  · split
    · exact Prog.ensures_pure hr₂
    · refine Prog.ensures_pure (hr₂.setDest (Val.known_taint (Taint.Known.derive ?_)) ins)
      exact List.foldlRecOn ins.args _ Taint.known_clean fun t ht op _ =>
        ht.sup (hr₂.opv op false).path

end Fc
end Lunar
