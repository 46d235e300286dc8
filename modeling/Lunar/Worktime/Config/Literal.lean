/-
# The nodes of a literal block

A block that `eval_block` accepts has appended its nodes to the arena; the root is one of
them, and they lead to each other alone (`evalBlock_spec`).  A block that it refuses leaves
the arena as it was: whatever its instructions did lies above the mark (`Run.Sealed`), and is
cut off again.
-/

import Mathlib.Data.List.Basic
import Lunar.Lib.Loop
import Lunar.Worktime.Config

namespace Lunar
namespace Worktime
namespace Config

/-! ## Registers -/

theorem get_bind (regs : Regs) (reg r : ℕ) (b : Bound) :
    get (bind regs reg b) r = if r = reg then some b else get regs r := by
  have hlen : reg < (regs ++ List.replicate (reg + 1 - regs.length) none).length := by
    rw [List.length_append, List.length_replicate]
    omega
  unfold get bind
  rw [List.getElem?_set]
  by_cases heq : reg = r
  · rw [if_pos heq, if_pos hlen, if_pos heq.symm, Option.join_some]
  · rw [if_neg heq, if_neg (Ne.symm heq), List.getElem?_append]
    split
    · rfl
    · next hge =>
        rw [List.getElem?_eq_none (Nat.le_of_not_lt hge), List.getElem?_replicate]
        split <;> rfl

theorem get_nil (r : ℕ) : get [] r = none := rfl

/-! ## What the turns keep -/

/-- The nodes from the mark on lead to each other alone, and so do the registers. -/
structure Run.Sealed (mark : ℕ) (s : Run) : Prop where
  le : mark ≤ s.arena.length
  regs : ∀ r id, get s.regs r = some (.lit (.node id)) → mark ≤ id ∧ id < s.arena.length
  nodes : ∀ k node, s.arena[k]? = some node → mark ≤ k → ∀ key id, (key, .node id) ∈ node.fields →
    mark ≤ id ∧ id < s.arena.length

/-- A new register binding that is no node outside. -/
theorem Run.Sealed.bind {mark : ℕ} {s : Run} (h : s.Sealed mark) (reg : ℕ) {b : Bound}
    (hb : ∀ id, b = .lit (.node id) → mark ≤ id ∧ id < s.arena.length) :
    Run.Sealed mark ⟨s.arena, Config.bind s.regs reg b⟩ where
  le := h.le
  regs r id hr := by
    rw [get_bind] at hr
    split at hr
    · exact hb id (Option.some.inj hr)
    · exact h.regs r id hr
  nodes := h.nodes

theorem Run.Sealed.push {mark : ℕ} {s : Run} (h : s.Sealed mark) (kind : Kind) (reg : ℕ) :
    Run.Sealed mark ⟨s.arena ++ [⟨kind, []⟩],
      Config.bind s.regs reg (.lit (.node s.arena.length))⟩ := by
  have hlen : (s.arena ++ [(⟨kind, []⟩ : Node)]).length = s.arena.length + 1 := List.length_append
  have hle := h.le
  refine ⟨by dsimp only; omega, fun r id hr => ?_, fun k node hk hmark key id hfield => ?_⟩
  · dsimp only at hr ⊢
    rw [get_bind] at hr
    split at hr
    · injection hr with hr
      injection hr with hr
      injection hr with hr
      omega
    · have := h.regs r id hr
      omega
  · dsimp only at hk ⊢
    rw [List.getElem?_append] at hk
    split at hk
    · have := h.nodes k node hk hmark key id hfield
      omega
    · rw [List.mem_singleton.1 (List.mem_of_getElem? hk)] at hfield
      cases hfield

theorem mem_setField {pool : List ℕ} {key key' : Key} {val val' : Val}
    {fields : List (Key × Val)} (h : (key', val') ∈ setField pool key val fields) :
    val' = val ∨ (key', val') ∈ fields := by
  induction fields with
  | nil =>
      rw [setField, List.mem_singleton] at h
      exact .inl (Prod.mk.inj h).2
  | cons f fields ih =>
      rw [setField] at h
      split at h
      · rcases List.mem_cons.1 h with h | h
        · exact .inl (Prod.mk.inj h).2
        · exact .inr (List.mem_cons_of_mem _ h)
      · rcases List.mem_cons.1 h with h | h
        · exact .inr (h ▸ List.mem_cons_self)
        · exact (ih h).imp_right (List.mem_cons_of_mem _)

theorem valueOf_node {mark : ℕ} {s : Run} (h : s.Sealed mark) {op : Operand} {id : ℕ}
    (hval : valueOf s.regs op = some (.node id)) : mark ≤ id ∧ id < s.arena.length := by
  unfold valueOf at hval
  split at hval
  · split at hval
    · next hget =>
        rw [Option.some.inj hval] at hget
        exact h.regs _ id hget
    · cases hval
  · unfold literal at hval
    split at hval <;> cases hval

theorem propSet_node {regs : Regs} {ins : Instr} {id : ℕ} {key : Key} {val : Val}
    (h : propSet regs ins = some (id, key, val)) :
    (∃ r, ins.arg 0 = .reg r ∧ get regs r = some (.lit (.node id)))
      ∧ keyOf (ins.arg 1) = some key ∧ valueOf regs (ins.arg 2) = some val := by
  unfold propSet at h
  split at h
  · next r hreg =>
      split at h
      · next hget =>
          obtain ⟨key', hkey, h⟩ := Option.bind_eq_some_iff.1 h
          obtain ⟨val', hval, h⟩ := Option.bind_eq_some_iff.1 h
          injection h with h
          injection h with hid h
          injection h with hkey' hval'
          exact ⟨⟨r, hreg, hid ▸ hget⟩, hkey' ▸ hkey, hval' ▸ hval⟩
      · cases h
  · cases h

theorem Run.Sealed.set {mark : ℕ} {s : Run} (h : s.Sealed mark) (pool : List ℕ) {ins : Instr}
    {id : ℕ} {key : Key} {val : Val} (hset : propSet s.regs ins = some (id, key, val)) :
    Run.Sealed mark ⟨s.arena.modify id (Node.set pool key val), s.regs⟩ := by
  obtain ⟨-, -, hval⟩ := propSet_node hset
  have hlen : (s.arena.modify id (Node.set pool key val)).length = s.arena.length :=
    List.length_modify ..
  refine ⟨by rw [hlen]; exact h.le, fun r c hr => by rw [hlen]; exact h.regs r c hr, ?_⟩
  intro k node hk hmark key' c hfield
  rw [hlen]
  rw [List.getElem?_modify] at hk
  obtain ⟨old, hold, rfl⟩ := Option.map_eq_some_iff.1 hk
  split at hfield
  · rcases mem_setField hfield with hc | hfield
    · exact valueOf_node h (hc ▸ hval)
    · exact h.nodes k old hold hmark key' c hfield
  · exact h.nodes k old hold hmark key' c hfield

/-- What the turns from some state may lead to: the nodes below the mark stay. -/
def After (mark : ℕ) (s : Run) : Except (List Node) Run → Prop
  | .ok s' => s'.Sealed mark ∧ s'.arena.take mark = s.arena.take mark
  | .error arena => arena.take mark = s.arena.take mark

theorem after_need {mark : ℕ} {s : Run} {o : Option Run}
    (h : ∀ s', o = some s' → s'.Sealed mark ∧ s'.arena.take mark = s.arena.take mark) :
    After mark s (s.need o) := by
  rcases o with _ | s'
  · rfl
  · exact h s' rfl

theorem after_alloc {mark : ℕ} {s : Run} (h : s.Sealed mark) (kind : Kind) (dest : Option ℕ) :
    After mark s (s.alloc kind dest) := by
  have htake : (s.arena ++ [(⟨kind, []⟩ : Node)]).take mark = s.arena.take mark :=
    List.take_append_of_le_length h.le
  rcases dest with _ | reg
  · exact htake
  · exact ⟨h.push kind reg, htake⟩

/-- **A turn stays above the mark**, also when it refuses the block. -/
theorem after_turn {mark : ℕ} {s : Run} (h : s.Sealed mark) (pool : List ℕ) (ins : Instr) :
    After mark s (turn pool s ins) := by
  unfold turn
  split
  · exact after_alloc h .obj ins.dest
  · exact after_alloc h .arr ins.dest
  · split
    · split
      · rfl
      · exact after_alloc h .arr ins.dest
    · rfl
  · refine after_need fun s' hs' => ?_
    split at hs'
    · split at hs'
      · obtain ⟨reg, -, hs'⟩ := Option.bind_eq_some_iff.1 hs'
        rw [← Option.some.inj hs']
        exact ⟨h.bind reg nofun, rfl⟩
      · cases hs'
    · cases hs'
  · refine after_need fun s' hs' => ?_
    obtain ⟨reg, -, hs'⟩ := Option.bind_eq_some_iff.1 hs'
    obtain ⟨v, hv, hs'⟩ := Option.bind_eq_some_iff.1 hs'
    rw [← Option.some.inj hs']
    refine ⟨h.bind reg fun id hid => ?_, rfl⟩
    injection hid with hid
    rw [hid] at hv
    unfold literal at hv
    split at hv <;> cases hv
  · refine after_need fun s' hs' => ?_
    obtain ⟨⟨id, key, val⟩, hset, hs'⟩ := Option.bind_eq_some_iff.1 hs'
    obtain ⟨⟨r, -, hr⟩, -⟩ := propSet_node hset
    rw [← Option.some.inj hs']
    refine ⟨h.set pool hset, ?_⟩
    have hid := (h.regs r id hr).1
    refine List.ext_getElem? fun k => ?_
    rw [List.getElem?_take, List.getElem?_take]
    split
    · dsimp only
      rw [List.getElem?_modify_ne _ _ (by omega)]
    · rfl
  · rfl

/-- The call that ends a block: its registers, and the root in the array. -/
theorem frozen_node {s : Run} {argsNode root : ℕ} {ins : Instr}
    (h : frozen s argsNode ins = some root) :
    (∃ o f a, ins.arg 0 = .reg o ∧ ins.arg 1 = .reg f ∧ ins.arg 2 = .reg a
      ∧ get s.regs o = some .object ∧ get s.regs f = some .freeze
      ∧ get s.regs a = some (.lit (.node argsNode)))
    ∧ ∃ args, s.arena[argsNode]? = some args ∧ (Key.idx 0, Val.node root) ∈ args.fields := by
  unfold frozen at h
  split at h
  · next o ho =>
      split at h
      · next f hf =>
          split at h
          · next a ha =>
              split at h
              · next hregs =>
                  refine ⟨⟨o, f, a, ho, hf, ha, hregs⟩, ?_⟩
                  obtain ⟨args, hargs, h⟩ := Option.bind_eq_some_iff.1 h
                  obtain ⟨r, hr, h⟩ := Option.bind_eq_some_iff.1 h
                  obtain ⟨node, -, h⟩ := Option.bind_eq_some_iff.1 h
                  split at h
                  · obtain ⟨field, hmem, hfield⟩ := List.exists_of_findSome?_eq_some hr
                    split at hfield
                    · refine ⟨args, hargs, ?_⟩
                      rw [← Option.some.inj h, ← Option.some.inj hfield]
                      exact hmem
                    · cases hfield
                  · cases h
              · cases h
          · cases h
      · cases h
  · cases h

/-- A block has appended its nodes to the arena, the root among them, and they lead to each
other alone. -/
structure Appended (arena arena' : List Node) (root : ℕ) : Prop where
  kept : arena'.take arena.length = arena
  root : arena.length ≤ root ∧ root < arena'.length
  nodes : ∀ k node, arena'[k]? = some node → arena.length ≤ k →
    ∀ key id, (key, .node id) ∈ node.fields → arena.length ≤ id ∧ id < arena'.length

/-- The end of a block that began with an arena. -/
def Ended (arena : List Node) : Except (List Node) (ℕ × ℕ × List Node) → Prop
  | .ok (_, root, arena') => Appended arena arena' root
  | .error arena' => arena'.take arena.length = arena

theorem runBlock_spec {arena : List Node} {s : Run} (h : s.Sealed arena.length)
    (hkept : s.arena.take arena.length = arena) (pool : List ℕ) (j : ℕ) (instrs : List Instr) :
    Ended arena (runBlock pool arena.length j s instrs) := by
  induction instrs generalizing j s with
  | nil => exact hkept
  | cons ins rest ih =>
      rw [runBlock]
      split
      · rcases hroot : frozen s arena.length ins with _ | root
        · exact hkept
        · obtain ⟨-, args, hargs, hfield⟩ := frozen_node hroot
          exact ⟨hkept, h.nodes _ args hargs (Nat.le_refl _) _ root hfield, h.nodes⟩
      · have hafter := after_turn h pool ins
        rcases hturn : turn pool s ins with refused | s'
        · rw [hturn] at hafter
          exact Eq.trans hafter hkept
        · rw [hturn] at hafter
          exact ih hafter.1 (hafter.2.trans hkept) (j + 1)

/-- The state in which the instructions of a block begin. -/
def opened (arena : List Node) (rObj rFrz rArr : ℕ) : Run :=
  ⟨arena ++ [⟨.arr, []⟩],
    bind (bind (bind [] rObj .object) rFrz .freeze) rArr (.lit (.node arena.length))⟩

theorem opened_sealed (arena : List Node) (rObj rFrz rArr : ℕ)
    : (opened arena rObj rFrz rArr).Sealed arena.length := by
  have hlen : (arena ++ [(⟨.arr, []⟩ : Node)]).length = arena.length + 1 := List.length_append
  refine ⟨by rw [opened, hlen]; omega, fun r id hr => ?_, fun k node hk hmark key id hfield => ?_⟩
  · rw [opened] at hr ⊢
    rw [get_bind] at hr
    split at hr
    · injection hr with hr
      injection hr with hr
      injection hr with hr
      rw [hlen, ← hr]
      omega
    · rw [get_bind] at hr
      split at hr
      · cases hr
      · rw [get_bind] at hr
        split at hr <;> cases hr
  · rw [opened, List.getElem?_append_right hmark] at hk
    rw [List.mem_singleton.1 (List.mem_of_getElem? hk)] at hfield
    cases hfield

/-- A block is refused at once, or its instructions run. -/
theorem evalBlock_cases (instrs : List Instr) (pool : List ℕ) (at_ : ℕ) (arena : List Node) :
    evalBlock instrs pool at_ arena = (none, arena)
      ∨ ∃ g f n rest rObj rFrz rArr, instrs.drop at_ = g :: f :: n :: rest
        ∧ opening pool g f n = some (rObj, rFrz, rArr)
        ∧ evalBlock instrs pool at_ arena =
          match runBlock pool arena.length (at_ + 3) (opened arena rObj rFrz rArr) rest with
          | .ok (stop, root, arena') => (some ⟨at_, stop, root⟩, arena')
          | .error arena' => (none, arena'.take arena.length) := by
  unfold evalBlock
  split
  · next g f n rest heq =>
      rcases hopen : opening pool g f n with _ | ⟨rObj, rFrz, rArr⟩
      · exact .inl rfl
      · exact .inr ⟨g, f, n, rest, rObj, rFrz, rArr, heq, hopen, rfl⟩
  · exact .inl rfl

/-- **A literal block and the arena**: an accepted block has appended its nodes, and a refused
block leaves the arena as it was. -/
theorem evalBlock_spec {instrs : List Instr} {pool : List ℕ} {at_ : ℕ} {arena arena' : List Node}
    {r : Option Block} (h : evalBlock instrs pool at_ arena = (r, arena')) :
    (∀ b, r = some b → Appended arena arena' b.root) ∧ (r = none → arena' = arena) := by
  rcases evalBlock_cases instrs pool at_ arena with
    hnone | ⟨g, f, n, rest, rObj, rFrz, rArr, -, -, heval⟩
  · rw [hnone] at h
    injection h with hr harena
    exact ⟨fun b hb => (by rw [← hr] at hb; cases hb), fun _ => harena.symm⟩
  · have hspec := runBlock_spec (opened_sealed arena rObj rFrz rArr) List.take_left pool
      (at_ + 3) rest
    rw [heval] at h
    rcases hrun : runBlock pool arena.length (at_ + 3) (opened arena rObj rFrz rArr) rest with
      refused | ⟨stop, root, arena''⟩
    · rw [hrun] at h hspec
      injection h with hr harena
      exact ⟨fun b hb => (by rw [← hr] at hb; cases hb), fun _ => harena.symm.trans hspec⟩
    · rw [hrun] at h hspec
      injection h with hr harena
      refine ⟨fun b hb => ?_, fun hno => by rw [← hr] at hno; cases hno⟩
      rw [← hr] at hb
      rw [← Option.some.inj hb, ← harena]
      exact hspec

end Config
end Worktime
end Lunar
