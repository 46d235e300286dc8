/-
# What a literal block builds

A script that runs the instructions of a literal block creates objects and sets their
properties, and a property is named by a text, which an integer is turned into.  The
evaluator keeps integers and strings apart as keys.  As long as no object is given an integer
and its spelling, the nodes that it returns are the script's objects, field by field in the
order of their creation (`evalBlock_builds`); booleans are one value to it.

The script's run (`jsRun`) has own data properties only.  `sets` is a ghost: the keys that
each object was given.
-/

import Mathlib.Data.List.Forall2
import Lunar.Lib.Decimal
import Lunar.Worktime.Config.Literal

namespace Lunar
namespace Worktime
namespace Config

open Lib (Double)
open Lib.Decimal (spell spell_inj)

/-! ## The script -/

inductive JsVal
  | num (x : Double)
  | str (units : List ℕ)
  | bool (b : Bool)
  | null
  | undef
  | obj (id : ℕ)
  /-- The functions `Object` and `Object.freeze`. -/
  | object
  | freeze
  deriving DecidableEq

/-- An object with its properties in the order of their creation. -/
structure JsObj where
  kind : Kind
  props : List (List ℕ × JsVal)
  deriving DecidableEq

structure JsState where
  heap : List JsObj
  regs : ℕ → JsVal
  sets : List (ℕ × Key)

/-- The name of the property that a key stands for. -/
def Key.name (pool : List ℕ) : Key → List ℕ
  | .str r => r.units pool
  | .idx i => spell i

/-- A property is overwritten where it is, or created behind the others. -/
def jsSet (name : List ℕ) (v : JsVal) : List (List ℕ × JsVal) → List (List ℕ × JsVal)
  | [] => [(name, v)]
  | (n, w) :: props => if n = name then (n, v) :: props else (n, w) :: jsSet name v props

def JsObj.set (name : List ℕ) (v : JsVal) (o : JsObj) : JsObj :=
  { o with props := jsSet name v o.props }

def JsState.start : JsState := ⟨[], fun _ => .undef, []⟩

def JsState.operand (pool : List ℕ) (t : JsState) : Operand → JsVal
  | .int i => .num (.ofInt i)
  | .dbl b => .num (.ofBits b)
  | .str r => .str (r.units pool)
  | .true => .bool Bool.true
  | .false => .bool Bool.false
  | .null => .null
  | .undef => .undef
  | .reg r => t.regs r

def JsState.bind (t : JsState) (reg : ℕ) (v : JsVal) : JsState :=
  { t with regs := Function.update t.regs reg v }

def JsState.create (t : JsState) (kind : Kind) (dest : ℕ) : JsState :=
  { t with
    heap := t.heap ++ [⟨kind, []⟩]
    regs := Function.update t.regs dest (.obj t.heap.length) }

/-- An instruction of the block, or `none` if it is not one of those that blocks are made
of. -/
def jsStep (pool : List ℕ) (t : JsState) (ins : Instr) : Option JsState :=
  match ins.op with
  | .newObj => do return t.create .obj (← ins.dest)
  | .newArr => do return t.create .arr (← ins.dest)
  | .newArrN =>
    match ins.arg 0 with
    | .int len => if len < 0 then none else do return t.create .arr (← ins.dest)
    | _ => none
  | .global => do
    let .str r := ins.arg 0 | none
    if eqAscii (r.units pool) OBJECT then return t.bind (← ins.dest) .object
    else if eqAscii (r.units pool) UNDEFINED then return t.bind (← ins.dest) .undef
    else none
  | .getProp => do
    let .str r := ins.arg 1 | none
    if t.operand pool (ins.arg 0) = .object ∧ eqAscii (r.units pool) FREEZE then
      return t.bind (← ins.dest) .freeze
    else none
  | .mov => do return t.bind (← ins.dest) (t.operand pool (ins.arg 0))
  | .setProp => do
    let .obj id := t.operand pool (ins.arg 0) | none
    let key ← keyOf (ins.arg 1)
    let v := t.operand pool (ins.arg 2)
    return { t with
      heap := t.heap.modify id (JsObj.set (key.name pool) v)
      sets := t.sets ++ [(id, key)] }
  | _ => none

/-- The instructions up to the call. -/
def jsBody (pool : List ℕ) : JsState → List Instr → Option (JsState × Instr)
  | _, [] => none
  | t, ins :: rest =>
    if ins.op = .callM then some (t, ins)
    else do
      let t ← jsStep pool t ins
      jsBody pool t rest

/-- The object that the call of `Object.freeze` with an array of arguments returns. -/
def jsFrozen (pool : List ℕ) (t : JsState) (ins : Instr) : Option ℕ := do
  let .obj a := t.operand pool (ins.arg 2) | none
  if t.operand pool (ins.arg 0) = .object ∧ t.operand pool (ins.arg 1) = .freeze then
    let args ← t.heap[a]?
    let .obj root ← args.props.lookup (spell 0) | none
    return root
  else none

/-- The run of a block: the object that it returns, and the state at its end. -/
def jsRun (pool : List ℕ) (instrs : List Instr) : Option (ℕ × JsState) := do
  let (t, ins) ← jsBody pool .start instrs
  return (← jsFrozen pool t ins, t)

/-- No object was given an integer and a string that spells it. -/
def Unmixed (pool : List ℕ) (sets : List (ℕ × Key)) : Prop :=
  ∀ o r i, (o, Key.str r) ∈ sets → (o, Key.idx i) ∈ sets → r.units pool ≠ spell i

/-! ## Nodes and objects -/

/-- The value is that of the script.  The nodes are numbered from the mark on. -/
def Val.Denotes (pool : List ℕ) (mark : ℕ) : Val → JsVal → Prop
  | .int i, .num x => x = .ofInt i
  | .dbl d, .num x => x = d
  | .str r, .str u => u = r.units pool
  | .bool, .bool _ => True
  | .null, .null => True
  | .undef, .undef => True
  | .node id, .obj o => id = mark + o
  | _, _ => False

def Bound.Denotes (pool : List ℕ) (mark : ℕ) : Bound → JsVal → Prop
  | .lit v, w => v.Denotes pool mark w
  | .object, w => w = .object
  | .freeze, w => w = .freeze

/-- The node is the object: the same fields in the same order. -/
structure Node.Denotes (pool : List ℕ) (mark : ℕ) (node : Node) (o : JsObj) : Prop where
  kind : node.kind = o.kind
  fields : List.Forall₂ (fun f p => f.1.name pool = p.1 ∧ Val.Denotes pool mark f.2 p.2)
    node.fields o.props

/-! ## The same fields -/

variable {pool : List ℕ} {mark : ℕ}

/-- The evaluator finds the field that the script overwrites, when keys of the same name are
the same to it. -/
theorem setField_denotes {key : Key} {val : Val} {v : JsVal} {fields : List (Key × Val)}
    {props : List (List ℕ × JsVal)}
    (h : List.Forall₂ (fun f p => f.1.name pool = p.1 ∧ Val.Denotes pool mark f.2 p.2) fields props)
    (hval : val.Denotes pool mark v)
    (hkey : ∀ f ∈ fields, keyEq pool f.1 key = true ↔ f.1.name pool = key.name pool) :
    List.Forall₂ (fun f p => f.1.name pool = p.1 ∧ Val.Denotes pool mark f.2 p.2)
      (setField pool key val fields) (jsSet (key.name pool) v props) := by
  induction h with
  | nil => exact .cons ⟨rfl, hval⟩ .nil
  | @cons f p fields props hfield _ ih =>
      have hhead := hkey f List.mem_cons_self
      rw [setField, jsSet]
      by_cases hname : p.1 = key.name pool
      · rw [if_pos (hhead.2 (hfield.1.trans hname)), if_pos hname]
        exact .cons ⟨hfield.1, hval⟩ ‹_›
      · rw [if_neg (mt hhead.1 (hfield.1 ▸ hname)), if_neg hname]
        exact .cons hfield (ih fun f' hf' => hkey f' (List.mem_cons_of_mem _ hf'))

theorem keyEq_iff {sets : List (ℕ × Key)} (h : Unmixed pool sets) {o : ℕ} {k key : Key}
    (hk : (o, k) ∈ sets) (hkey : (o, key) ∈ sets) :
    keyEq pool k key = true ↔ k.name pool = key.name pool := by
  rcases k with r | i
  · rcases key with r' | i'
    · rw [keyEq, Bool.or_eq_true, decide_eq_true_iff, decide_eq_true_iff, Key.name, Key.name]
      exact or_iff_right_of_imp fun heq => heq ▸ rfl
    · exact iff_of_false Bool.false_ne_true (h o r i' hk hkey)
  · rcases key with r' | i'
    · exact iff_of_false Bool.false_ne_true (h o r' i hkey hk).symm
    · rw [keyEq, decide_eq_true_iff, Key.name, Key.name, spell_inj]

theorem key_setField {key : Key} {val : Val} {fields : List (Key × Val)} {f : Key × Val}
    (hf : f ∈ setField pool key val fields) : f.1 = key ∨ ∃ f' ∈ fields, f'.1 = f.1 := by
  induction fields with
  | nil =>
      rw [setField, List.mem_singleton] at hf
      exact .inl (congrArg Prod.fst hf)
  | cons f' fields ih =>
      rw [setField] at hf
      split at hf
      · rcases List.mem_cons.1 hf with rfl | hf
        · exact .inr ⟨f', List.mem_cons_self, rfl⟩
        · exact .inr ⟨f, List.mem_cons_of_mem _ hf, rfl⟩
      · rcases List.mem_cons.1 hf with rfl | hf
        · exact .inr ⟨f', List.mem_cons_self, rfl⟩
        · rcases ih hf with heq | ⟨g, hg, heq⟩
          · exact .inl heq
          · exact .inr ⟨g, List.mem_cons_of_mem _ hg, heq⟩

theorem names_jsSet {name : List ℕ} {v : JsVal} (props : List (List ℕ × JsVal)) :
    (jsSet name v props).map Prod.fst = props.map Prod.fst
      ∨ name ∉ props.map Prod.fst ∧ (jsSet name v props).map Prod.fst = props.map Prod.fst ++ [name]
    := by
  induction props with
  | nil => exact .inr ⟨List.not_mem_nil, rfl⟩
  | cons p props ih =>
      rw [jsSet]
      by_cases hname : p.1 = name
      · rw [if_pos hname]
        exact .inl rfl
      · rw [if_neg hname]
        rcases ih with ih | ⟨hnew, ih⟩
        · exact .inl (congrArg (p.1 :: ·) ih)
        · refine .inr ⟨fun hmem => ?_, congrArg (p.1 :: ·) ih⟩
          rcases List.mem_cons.1 hmem with heq | hmem
          · exact hname heq.symm
          · exact hnew hmem

theorem nodup_jsSet {name : List ℕ} {v : JsVal} {props : List (List ℕ × JsVal)}
    (h : (props.map Prod.fst).Nodup) : ((jsSet name v props).map Prod.fst).Nodup := by
  rcases names_jsSet (v := v) props with heq | ⟨hnew, heq⟩
  · rwa [heq]
  · rw [heq]
    exact h.append (List.nodup_singleton name) fun n hn hname =>
      hnew (List.mem_singleton.1 hname ▸ hn)

/-! ## The same values -/

/-- The registers hold the script's values, and there is a node for every object. -/
structure RegsRel (pool : List ℕ) (mark : ℕ) (s : Run) (t : JsState) : Prop where
  len : s.arena.length = mark + t.heap.length
  regs : ∀ r b, get s.regs r = some b → Bound.Denotes pool mark b (t.regs r)

/-- The nodes are the script's objects. -/
def NodesRel (pool : List ℕ) (mark : ℕ) (s : Run) (t : JsState) : Prop :=
  ∀ k o, t.heap[k]? = some o → (o.props.map Prod.fst).Nodup
    ∧ ∃ node, s.arena[mark + k]? = some node ∧ node.Denotes pool mark o
      ∧ ∀ f ∈ node.fields, (k, f.1) ∈ t.sets

theorem literal_denotes {op : Operand} {v : Val} (h : literal op = some v) (t : JsState) :
    v.Denotes pool mark (t.operand pool op) := by
  cases op with
  | reg r => cases h
  | int _ | dbl _ | str _ =>
      rw [← Option.some.inj h]
      exact rfl
  | _ =>
      rw [← Option.some.inj h]
      exact trivial

theorem valueOf_denotes {s : Run} {t : JsState} (h : RegsRel pool mark s t) {op : Operand} {v : Val}
    (hv : valueOf s.regs op = some v) : v.Denotes pool mark (t.operand pool op) := by
  unfold valueOf at hv
  split at hv
  · next r =>
      split at hv
      · next hget =>
          rw [← Option.some.inj hv]
          exact h.regs r _ hget
      · cases hv
  · exact literal_denotes hv t

/-! ## Turns -/

/-- A state of the script that follows a state of the block. -/
def Follows (pool : List ℕ) (mark : ℕ) (s s' : Run) (t t' : JsState) : Prop :=
  RegsRel pool mark s' t' ∧ t.sets ⊆ t'.sets
    ∧ (Unmixed pool t'.sets → NodesRel pool mark s t → NodesRel pool mark s' t')

theorem follows_bind {s : Run} {t : JsState} (h : RegsRel pool mark s t) (reg : ℕ) {b : Bound}
    {v : JsVal} (hb : b.Denotes pool mark v) :
    Follows pool mark s { s with regs := Config.bind s.regs reg b } t (t.bind reg v) := by
  refine ⟨⟨h.len, fun r b' hr => ?_⟩, List.Subset.refl _, fun _ hnodes => hnodes⟩
  rw [get_bind] at hr
  show Bound.Denotes pool mark b' (Function.update t.regs reg v r)
  rw [Function.update_apply]
  split at hr
  · next heq =>
      rw [if_pos heq, ← Option.some.inj hr]
      exact hb
  · next hne =>
      rw [if_neg hne]
      exact h.regs r b' hr

theorem follows_create {s : Run} {t : JsState} (h : RegsRel pool mark s t) (kind : Kind) (reg : ℕ) :
    Follows pool mark s
      ⟨s.arena ++ [⟨kind, []⟩], Config.bind s.regs reg (.lit (.node s.arena.length))⟩
      t (t.create kind reg) := by
  refine ⟨⟨?_, fun r b' hr => ?_⟩, List.Subset.refl _, fun _ hnodes k o ho => ?_⟩
  · rw [JsState.create, List.length_append, List.length_append, h.len, Nat.add_assoc]
    rfl
  · rw [get_bind] at hr
    show Bound.Denotes pool mark b' (Function.update t.regs reg (.obj t.heap.length) r)
    rw [Function.update_apply]
    split at hr
    · next heq =>
        rw [if_pos heq, ← Option.some.inj hr]
        exact h.len
    · next hne =>
        rw [if_neg hne]
        exact h.regs r b' hr
  · rw [JsState.create, List.getElem?_append] at ho
    split at ho
    · next hlt =>
        obtain ⟨hnodup, node, hnode, hdenotes⟩ := hnodes k o ho
        refine ⟨hnodup, node, ?_, hdenotes⟩
        rw [List.getElem?_append_left (List.getElem?_eq_some_iff.1 hnode).1]
        exact hnode
    · next hge =>
        obtain ⟨hk, rfl⟩ : k = t.heap.length ∧ o = ⟨kind, []⟩ := by
          rw [List.getElem?_eq_some_iff] at ho
          obtain ⟨hlt, ho⟩ := ho
          rw [List.length_singleton] at hlt
          refine ⟨by omega, ?_⟩
          rw [← ho, List.getElem_singleton]
        refine ⟨List.nodup_nil, ⟨kind, []⟩, ?_, ⟨rfl, .nil⟩, nofun⟩
        rw [hk, ← h.len, List.getElem?_concat_length]

theorem follows_set {s : Run} {t : JsState} (h : RegsRel pool mark s t) {o : ℕ} {key : Key}
    {val : Val} {v : JsVal} (hval : val.Denotes pool mark v) :
    Follows pool mark s { s with arena := s.arena.modify (mark + o) (Node.set pool key val) } t
      { t with
        heap := t.heap.modify o (JsObj.set (key.name pool) v)
        sets := t.sets ++ [(o, key)] } := by
  refine ⟨⟨?_, h.regs⟩, List.subset_append_left _ _, fun hunmixed hnodes k obj hobj => ?_⟩
  · rw [List.length_modify, List.length_modify, h.len]
  · rw [List.getElem?_modify] at hobj
    obtain ⟨old, hold, hobj⟩ := Option.map_eq_some_iff.1 hobj
    obtain ⟨hnodup, node, hnode, hdenotes, hsets⟩ := hnodes k old hold
    by_cases heq : o = k
    · rw [if_pos heq] at hobj
      rw [← hobj, ← heq]
      rw [← heq] at hnode hsets
      refine ⟨nodup_jsSet hnodup, node.set pool key val, ?_, ⟨hdenotes.kind, ?_⟩, fun f hf => ?_⟩
      · rw [List.getElem?_modify_eq, hnode]
        rfl
      · refine setField_denotes hdenotes.fields hval fun f hf => ?_
        exact keyEq_iff hunmixed (List.mem_append_left _ (hsets f hf))
          (List.mem_append_right _ (List.mem_singleton_self _))
      · rcases key_setField hf with hkey | ⟨f', hf', hkey⟩
        · rw [hkey]
          exact List.mem_append_right _ (List.mem_singleton_self _)
        · rw [← hkey]
          exact List.mem_append_left _ (hsets f' hf')
    · rw [if_neg heq] at hobj
      rw [← hobj]
      refine ⟨hnodup, node, ?_, hdenotes, fun f hf => List.mem_append_left _ (hsets f hf)⟩
      rw [List.getElem?_modify_ne _ _ (by omega)]
      exact hnode

theorem denotes_node {id : ℕ} {w : JsVal} (h : Val.Denotes pool mark (.node id) w) :
    ∃ o, w = .obj o ∧ id = mark + o := by
  cases w with
  | obj o => exact ⟨o, rfl, h⟩
  | _ => exact h.elim

theorem need_ok {α : Type} {s : Run} {o : Option α} {a : α} (h : s.need o = .ok a) :
    o = some a := by
  rcases o with _ | a'
  · cases h
  · exact congrArg some (Except.ok.inj h)

theorem alloc_follows {s s' : Run} {t : JsState} (h : RegsRel pool mark s t) {kind : Kind}
    {dest : Option ℕ} (halloc : s.alloc kind dest = .ok s') :
    ∃ reg, dest = some reg ∧ Follows pool mark s s' t (t.create kind reg) := by
  rcases dest with _ | reg
  · cases halloc
  · rw [← Except.ok.inj halloc]
    exact ⟨reg, rfl, follows_create h kind reg⟩

/-- **A turn of the block is a step of the script.** -/
theorem turn_follows {s s' : Run} {t : JsState} (h : RegsRel pool mark s t) {ins : Instr}
    (hturn : turn pool s ins = .ok s') :
    ∃ t', jsStep pool t ins = some t' ∧ Follows pool mark s s' t t' := by
  unfold turn at hturn
  unfold jsStep
  split at hturn
  · next hop =>
      obtain ⟨reg, hdest, hfollows⟩ := alloc_follows h hturn
      rw [hop, hdest]
      exact ⟨_, rfl, hfollows⟩
  · next hop =>
      obtain ⟨reg, hdest, hfollows⟩ := alloc_follows h hturn
      rw [hop, hdest]
      exact ⟨_, rfl, hfollows⟩
  · next hop =>
      rw [hop]
      split at hturn
      · next len harg =>
          split at hturn
          · cases hturn
          · next hlen =>
              obtain ⟨reg, hdest, hfollows⟩ := alloc_follows h hturn
              rw [harg, hdest]
              dsimp only
              rw [if_neg hlen]
              exact ⟨_, rfl, hfollows⟩
      · cases hturn
  · next hop =>
      have hturn := need_ok hturn
      rw [hop]
      split at hturn
      · next r harg =>
          split at hturn
          · next hundef =>
              obtain ⟨reg, hdest, hturn⟩ := Option.bind_eq_some_iff.1 hturn
              have hobject : eqAscii (r.units pool) OBJECT = false := by
                rw [eqAscii, beq_iff_eq] at hundef
                rw [hundef]
                decide
              rw [harg, hdest, ← Option.some.inj hturn]
              dsimp only
              rw [hobject, if_neg Bool.false_ne_true, if_pos hundef]
              exact ⟨_, rfl, follows_bind h reg trivial⟩
          · cases hturn
      · cases hturn
  · next hop =>
      obtain ⟨reg, hdest, hturn⟩ := Option.bind_eq_some_iff.1 (need_ok hturn)
      obtain ⟨v, hv, hturn⟩ := Option.bind_eq_some_iff.1 hturn
      rw [hop, hdest, ← Option.some.inj hturn]
      exact ⟨_, rfl, follows_bind h reg (literal_denotes hv t)⟩
  · next hop =>
      obtain ⟨⟨id, key, val⟩, hset, hturn⟩ := Option.bind_eq_some_iff.1 (need_ok hturn)
      obtain ⟨⟨r, hreg, hget⟩, hkey, hval⟩ := propSet_node hset
      obtain ⟨o, ho, rfl⟩ := denotes_node (h.regs r _ hget)
      have hobj : t.operand pool (.reg r) = .obj o := ho
      rw [hop, hreg, hkey, hobj, ← Option.some.inj hturn]
      exact ⟨_, rfl, follows_set h (valueOf_denotes h hval)⟩
  · cases hturn

/-! ## Blocks -/

theorem Follows.trans {s s' s'' : Run} {t t' t'' : JsState} (h : Follows pool mark s s' t t')
    (h' : Follows pool mark s' s'' t' t'') : Follows pool mark s s'' t t'' := by
  obtain ⟨-, hsets, hnodes⟩ := h
  obtain ⟨hregs', hsets', hnodes'⟩ := h'
  refine ⟨hregs', fun x hx => hsets' (hsets hx), fun hunmixed hrel => ?_⟩
  have hbefore : Unmixed pool t'.sets := fun o r i hr hi => hunmixed o r i (hsets' hr) (hsets' hi)
  exact hnodes' hunmixed (hnodes hbefore hrel)

/-- The instructions up to the call. -/
theorem runBlock_follows {s : Run} {t : JsState} (h : RegsRel pool mark s t) {argsNode j : ℕ}
    {instrs : List Instr} {stop root : ℕ} {arena : List Node}
    (hrun : runBlock pool argsNode j s instrs = .ok (stop, root, arena)) :
    ∃ s' t' ins, jsBody pool t instrs = some (t', ins) ∧ s'.arena = arena
      ∧ frozen s' argsNode ins = some root ∧ Follows pool mark s s' t t' := by
  induction instrs generalizing j s t with
  | nil => cases hrun
  | cons ins rest ih =>
      rw [runBlock] at hrun
      rw [jsBody]
      split at hrun
      · next hcall =>
          obtain ⟨root', hroot, hrun⟩ := Lib.bind_ok hrun
          injection hrun with hrun
          injection hrun with hstop hrun
          injection hrun with hroot' harena
          rw [if_pos hcall]
          refine ⟨s, t, ins, rfl, harena, ?_, h, List.Subset.refl _, fun _ hnodes => hnodes⟩
          rw [← hroot']
          exact need_ok hroot
      · next hcall =>
          obtain ⟨s', hturn, hrun⟩ := Lib.bind_ok hrun
          obtain ⟨t', hstep, hfollows⟩ := turn_follows h hturn
          obtain ⟨s'', t'', call, hbody, harena, hroot, hfollows'⟩ := ih hfollows.1 hrun
          rw [if_neg hcall, hstep]
          exact ⟨s'', t'', call, hbody, harena, hroot, hfollows.trans hfollows'⟩

theorem lookup_of_mem {name : List ℕ} {v : JsVal} {props : List (List ℕ × JsVal)}
    (hnodup : (props.map Prod.fst).Nodup) (hmem : (name, v) ∈ props) :
    props.lookup name = some v := by
  induction props with
  | nil => cases hmem
  | cons p props ih =>
      rw [List.map_cons, List.nodup_cons] at hnodup
      obtain ⟨n, w⟩ := p
      rcases List.mem_cons.1 hmem with heq | hmem
      · obtain ⟨rfl, rfl⟩ := Prod.mk.inj heq
        exact List.lookup_cons_self
      · have hne : (name == n) = false := by
          refine beq_eq_false_iff_ne.2 fun heq => hnodup.1 ?_
          rw [← heq]
          exact List.mem_map.2 ⟨(name, v), hmem, rfl⟩
        rw [List.lookup_cons, hne]
        exact ih hnodup.2 hmem

theorem exists_of_forall₂ {α β : Type} {R : α → β → Prop} {as : List α} {bs : List β} {a : α}
    (h : List.Forall₂ R as bs) (ha : a ∈ as) : ∃ b ∈ bs, R a b := by
  induction h with
  | nil => cases ha
  | cons hab _ ih =>
      rcases List.mem_cons.1 ha with rfl | ha
      · exact ⟨_, List.mem_cons_self, hab⟩
      · obtain ⟨b, hb, hR⟩ := ih ha
        exact ⟨b, List.mem_cons_of_mem _ hb, hR⟩

/-- The call returns the same object. -/
theorem frozen_follows {s : Run} {t : JsState} (h : RegsRel pool mark s t)
    (hnodes : NodesRel pool mark s t) {ins : Instr} {root : ℕ}
    (hroot : frozen s mark ins = some root) :
    ∃ o, jsFrozen pool t ins = some o ∧ root = mark + o := by
  obtain ⟨⟨o, f, a, ho, hf, ha, hobject, hfreeze, hargs⟩, node, hnode, hfield⟩ := frozen_node hroot
  have hobject' : t.operand pool (.reg o) = .object := h.regs o _ hobject
  have hfreeze' : t.operand pool (.reg f) = .freeze := h.regs f _ hfreeze
  obtain ⟨args, hargs', hmark⟩ := denotes_node (h.regs a _ hargs)
  have hargs'' : t.operand pool (.reg a) = .obj args := hargs'
  have hzero : args = 0 := by omega
  have hlt : 0 < t.heap.length := by
    have hlen := h.len
    have hin := (List.getElem?_eq_some_iff.1 hnode).1
    omega
  obtain ⟨hnodup, node', hnode', hdenotes, -⟩ := hnodes 0 _ (List.getElem?_eq_getElem hlt)
  rw [Nat.add_zero, hnode] at hnode'
  obtain rfl := Option.some.inj hnode'
  obtain ⟨p, hp, hname, hval⟩ := exists_of_forall₂ hdenotes.fields hfield
  obtain ⟨r, hr, rfl⟩ := denotes_node hval
  have hlookup : t.heap[0].props.lookup (spell 0) = some (.obj r) := by
    refine lookup_of_mem hnodup ?_
    rw [show spell 0 = p.1 from hname, ← hr]
    exact hp
  refine ⟨r, ?_, rfl⟩
  unfold jsFrozen
  rw [ho, hf, ha, hargs'', hobject', hfreeze', hzero]
  dsimp only
  rw [if_pos ⟨rfl, rfl⟩, List.getElem?_eq_getElem hlt]
  simp [hlookup]

/-- The instructions that open a block. -/
theorem opening_eq {g f n : Instr} {rObj rFrz rArr : ℕ}
    (h : opening pool g f n = some (rObj, rFrz, rArr)) :
    g.op = .global ∧ f.op = .getProp ∧ n.op = .newArrN
      ∧ g.dest = some rObj ∧ f.dest = some rFrz ∧ n.dest = some rArr
      ∧ (∃ obj, g.arg 0 = .str obj ∧ eqAscii (obj.units pool) OBJECT = true)
      ∧ (∃ frz, f.arg 1 = .str frz ∧ eqAscii (frz.units pool) FREEZE = true)
      ∧ f.arg 0 = .reg rObj ∧ n.arg 0 = .int 1 := by
  unfold opening at h
  split at h
  · next hop =>
      obtain ⟨hg, hf, hn⟩ := hop
      split at h
      · next obj hobj =>
          obtain ⟨rObj', hrObj, h⟩ := Option.bind_eq_some_iff.1 h
          split at h
          · next frz hfrz =>
              obtain ⟨rFrz', hrFrz, h⟩ := Option.bind_eq_some_iff.1 h
              obtain ⟨rArr', hrArr, h⟩ := Option.bind_eq_some_iff.1 h
              split at h
              · next hcond =>
                  injection h with h
                  injection h with h₁ h
                  injection h with h₂ h₃
                  subst h₁ h₂ h₃
                  exact ⟨hg, hf, hn, hrObj, hrFrz, hrArr, ⟨obj, hobj, hcond.1⟩,
                    ⟨frz, hfrz, hcond.2.1⟩, hcond.2.2⟩
              · cases h
          · cases h
      · cases h
  · cases h

/-- The script gets to the state in which the instructions of a block begin. -/
theorem opened_follows (arena : List Node) {g f n : Instr} {rObj rFrz rArr : ℕ} (rest : List Instr)
    (h : opening pool g f n = some (rObj, rFrz, rArr)) :
    ∃ t, jsBody pool .start (g :: f :: n :: rest) = jsBody pool t rest
      ∧ RegsRel pool arena.length (opened arena rObj rFrz rArr) t
      ∧ (Unmixed pool t.sets → NodesRel pool arena.length (opened arena rObj rFrz rArr) t) := by
  obtain ⟨hg, hf, hn, hrObj, hrFrz, hrArr, ⟨obj, hobj, hobject⟩, ⟨frz, hfrz, hfreeze⟩, hreg,
    hone⟩ := opening_eq h
  have hstart : RegsRel pool arena.length ⟨arena, []⟩ .start :=
    ⟨rfl, fun r b hr => by rw [get_nil] at hr; cases hr⟩
  have h₁ : Follows pool arena.length _ _ .start (JsState.start.bind rObj .object) :=
    follows_bind hstart rObj (b := .object) rfl
  have h₂ : Follows pool arena.length _ _ _ ((JsState.start.bind rObj .object).bind rFrz .freeze) :=
    follows_bind h₁.1 rFrz (b := .freeze) rfl
  have h₃ := follows_create h₂.1 .arr rArr
  refine ⟨_, ?_, h₃.1, fun hunmixed => (h₁.trans (h₂.trans h₃)).2.2 hunmixed nofun⟩
  have hstep₁ : jsStep pool .start g = some (JsState.start.bind rObj .object) := by
    unfold jsStep
    rw [hg, hobj, hrObj]
    exact if_pos hobject
  have hreg' : (JsState.start.bind rObj .object).operand pool (.reg rObj) = .object :=
    Function.update_self ..
  have hstep₂ : jsStep pool (JsState.start.bind rObj .object) f
      = some ((JsState.start.bind rObj .object).bind rFrz .freeze) := by
    unfold jsStep
    rw [hf, hfrz, hreg, hrFrz, hreg']
    exact if_pos ⟨rfl, hfreeze⟩
  have hstep₃ : jsStep pool ((JsState.start.bind rObj .object).bind rFrz .freeze) n
      = some (((JsState.start.bind rObj .object).bind rFrz .freeze).create .arr rArr) := by
    unfold jsStep
    rw [hn, hone, hrArr]
    rfl
  rw [jsBody, if_neg (by rw [hg]; decide), hstep₁]
  change jsBody pool _ (f :: n :: rest) = _
  rw [jsBody, if_neg (by rw [hf]; decide), hstep₂]
  change jsBody pool _ (n :: rest) = _
  rw [jsBody, if_neg (by rw [hn]; decide), hstep₃]
  rfl

/-- **A literal block builds what the script builds.**  The nodes of an accepted block that
gives no object an integer and its spelling are the objects that the script creates, and the
root is the one that it returns.  A refused block leaves the arena as it was. -/
theorem evalBlock_builds (instrs : List Instr) (pool : List ℕ) (at_ : ℕ) (arena : List Node) :
    ((evalBlock instrs pool at_ arena).1 = none → (evalBlock instrs pool at_ arena).2 = arena)
    ∧ ∀ b, (evalBlock instrs pool at_ arena).1 = some b →
      (∀ t ins, jsBody pool .start (instrs.drop at_) = some (t, ins) → Unmixed pool t.sets) →
      ∃ root t nodes, jsRun pool (instrs.drop at_) = some (root, t)
        ∧ b.root = arena.length + root
        ∧ (evalBlock instrs pool at_ arena).2 = arena ++ nodes
        ∧ List.Forall₂ (Node.Denotes pool arena.length) nodes t.heap := by
  refine ⟨fun hnone => (evalBlock_spec rfl).2 hnone, fun b hb hkeys => ?_⟩
  have happ : Appended arena (evalBlock instrs pool at_ arena).2 b.root :=
    (evalBlock_spec rfl).1 b hb
  rcases evalBlock_cases instrs pool at_ arena with
    hnone | ⟨g, f, n, rest, rObj, rFrz, rArr, hdrop, hopen, heval⟩
  · rw [hnone] at hb
    cases hb
  rw [heval] at hb happ ⊢
  rw [hdrop] at hkeys ⊢
  rcases hrun : runBlock pool arena.length (at_ + 3) (opened arena rObj rFrz rArr) rest with
    refused | ⟨stop, root, arena'⟩
  · rw [hrun] at hb
    cases hb
  rw [hrun] at hb happ
  obtain ⟨t, hbody, hregs, hnodes⟩ := opened_follows arena rest hopen
  obtain ⟨s', t', ins, hbody', harena, hroot, hregs', hsets, hnodes'⟩ :=
    runBlock_follows hregs hrun
  have hbody' := hbody.trans hbody'
  have hunmixed' := hkeys t' ins hbody'
  have hunmixed : Unmixed pool t.sets := fun o r i hr hi => hunmixed' o r i (hsets hr) (hsets hi)
  have hrel := hnodes' hunmixed' (hnodes hunmixed)
  obtain ⟨o, ho, hmark⟩ := frozen_follows hregs' hrel hroot
  refine ⟨o, t', arena'.drop arena.length, ?_, ?_, ?_, ?_⟩
  · rw [jsRun, hbody']
    simp [ho]
  · rw [← Option.some.inj hb]
    exact hmark
  · have hkept : arena'.take arena.length = arena := happ.kept
    show arena' = _
    conv_lhs => rw [← List.take_append_drop arena.length arena', hkept]
  · rw [List.forall₂_iff_get]
    have hlen : arena'.length = arena.length + t'.heap.length := harena ▸ hregs'.len
    refine ⟨by rw [List.length_drop]; omega, fun i h₁ h₂ => ?_⟩
    obtain ⟨-, node, hnode, hdenotes, -⟩ := hrel i _ (List.getElem?_eq_getElem h₂)
    obtain ⟨hlt, hnode⟩ := List.getElem?_eq_some_iff.1 hnode
    simp only [List.get_eq_getElem, List.getElem_drop]
    simp only [harena] at hnode
    rw [hnode]
    exact hdenotes

/-- The strings `Object`, `freeze` and `5`. -/
def fivePool : List ℕ := "Objectfreeze5".toList.map Char.toNat

/-- `Object.freeze` of an object that is given some properties. -/
def fiveBlock (props : List (Operand × Operand)) : List Instr :=
  [⟨0, .global, [.str ⟨0, 6⟩], some 1⟩, ⟨5, .getProp, [.reg 1, .str ⟨6, 6⟩], some 3⟩,
    ⟨11, .newArrN, [.int 1], some 4⟩, ⟨14, .newObj, [], some 5⟩,
    ⟨16, .setProp, [.reg 4, .int 0, .reg 5], none⟩]
  ++ props.map (fun p => ⟨20, .setProp, [.reg 5, p.1, p.2], none⟩)
  ++ [⟨38, .callM, [.reg 1, .reg 3, .reg 4], none⟩]

/-- The objects of a script's run and the one that it returns. -/
def jsResult (pool : List ℕ) (instrs : List Instr) : Option (ℕ × List JsObj) :=
  (jsRun pool instrs).map fun r => (r.1, r.2.heap)

theorem evalBlock_builds_five :
    ∃ root t nodes, jsRun fivePool (fiveBlock [(.int 5, .true)]) = some (root, t)
      ∧ 1 = 0 + root
      ∧ (evalBlock (fiveBlock [(.int 5, .true)]) fivePool 0 []).2 = [] ++ nodes
      ∧ List.Forall₂ (Node.Denotes fivePool 0) nodes t.heap := by
  have heval : (evalBlock (fiveBlock [(.int 5, .true)]) fivePool 0 []).1 = some ⟨0, 6, 1⟩ := by
    decide +kernel
  have hsets : (jsBody fivePool .start (fiveBlock [(.int 5, .true)])).map (fun r => r.1.sets)
      = some [(0, .idx 0), (1, .idx 5)] := by
    decide +kernel
  refine (evalBlock_builds (fiveBlock [(.int 5, .true)]) fivePool 0 []).2 ⟨0, 6, 1⟩ heval ?_
  intro t ins hbody o r i hr hi
  rw [List.drop_zero] at hbody
  rw [hbody, Option.map_some, Option.some.injEq] at hsets
  rw [hsets] at hr
  simp at hr

/-- Under `5` and under `"5"` there are two fields and one property, and `true` is the same
value as `false`. -/
theorem evalBlock_differs :
    evalBlock (fiveBlock [(.int 5, .int 1), (.str ⟨12, 1⟩, .int 2)]) fivePool 0 []
        = (some ⟨0, 7, 1⟩,
          [⟨.arr, [(.idx 0, .node 1)]⟩, ⟨.obj, [(.idx 5, .int 1), (.str ⟨12, 1⟩, .int 2)]⟩])
      ∧ jsResult fivePool (fiveBlock [(.int 5, .int 1), (.str ⟨12, 1⟩, .int 2)])
        = some (1, [⟨.arr, [([48], .obj 1)]⟩, ⟨.obj, [([53], .num (.ofInt 2))]⟩])
      ∧ evalBlock (fiveBlock [(.int 5, .true)]) fivePool 0 []
        = evalBlock (fiveBlock [(.int 5, .false)]) fivePool 0 []
      ∧ jsResult fivePool (fiveBlock [(.int 5, .true)])
        ≠ jsResult fivePool (fiveBlock [(.int 5, .false)]) := by
  decide +kernel

end Config
end Worktime
end Lunar
