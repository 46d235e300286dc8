/-
# Summaries stand for their calls

`payload/exec.rs`: `summarize`, and `run` on a function that has a summary.

A function with a summary is not run, a call of it gives what the summary makes of the first
argument.  Here its body is run after all.  `Fits` is what `Av` says of a value, and `Tracks` that
the loop of `summarize_case` describes a state of the machine: it knows the registers that the code
still reads and the variables of the function.  An op keeps it (`turn`), so the body comes back with
a value that fits the one of the loop (`symRun_fits`), and nothing outside has changed (`Unseen`).

The two runs of `summarize_case` may end in zeros of different sign, which `===` does not tell
apart: a summary has the sign of the first.
-/

import Lunar.Lib.Double.Exact
import Lunar.Lib.Ending
import Lunar.Lib.Loop
import Lunar.Payload.Exec.Liveness
import Lunar.Payload.Interp.Scopes

namespace Lunar
namespace Interp

open Lib (Double Comes)
open Exec (Op UnaryOperator BinaryOperator F64 opDef opPure shape)
open Fold (toInt32 ofI32)
open Lib.CallM (bind_done bind_error)

/-! ## Integers -/

theorem toInt32_ofI32 (z : BitVec 32) : toInt32 (ofI32 z) = z := by
  have hlo : -2 ^ 31 ≤ z.toInt := BitVec.le_toInt z
  have hhi : z.toInt < 2 ^ 31 := BitVec.toInt_lt
  have hfin : (Double.ofInt z.toInt).isFinite = true := rfl
  have habs : (Double.ofInt z.toInt).abs = .ofInt z.toInt.natAbs := by
    rw [Double.ofInt, Double.ofInt, Double.abs, Int.natAbs_natCast,
      decide_eq_false (Int.natCast_nonneg _).not_gt]
  have hlt : (Double.ofInt z.toInt).abs.lt (.ofInt (2 ^ 63)) = true := by
    rw [habs]
    exact Double.lt_ofInt (by omega)
  have hclamp : max (-2 ^ (64 - 1)) (min (2 ^ (64 - 1) - 1) z.toInt) = z.toInt := by omega
  rw [toInt32, ofI32, hfin, hlt, Bool.and_self, if_pos rfl, Double.toI, Double.cast_ofInt, hclamp,
    BitVec.ofInt_toInt]

theorem eq_ofI32 (a b : BitVec 32) : (ofI32 a).eq (ofI32 b) = (a == b) := by
  rw [ofI32, ofI32, Double.eq_ofInt, Bool.eq_iff_iff, decide_eq_true_iff, beq_iff_eq,
    BitVec.toInt_inj]

/-! ## Values -/

section Values

variable (h : Host) (heap : List Obj) (args : List Val)

/-- An argument as an integer of 32 bits; it counts where it is read as a number. -/
def argInt (i : ℕ) : BitVec 32 :=
  match toNum heap h.stack (args.getD i .undef) with
  | .ok n => toInt32 n
  | .error _ => 0

/-- The exclusive or of arguments. -/
def xorOf (atoms : List ℕ) : BitVec 32 := atoms.foldr (fun i z => argInt h heap args i ^^^ z) 0

/-- What `Av` says of a value. -/
def Fits : Av → Val → Prop
  | .c v, w => w = v
  | .arg i, w => w = args.getD i .undef
  | .x atoms k, w => w = .num (ofI32 (xorOf h heap args atoms ^^^ k))
  | .unk, _ => True

/-- `Op::Binary`, which only reads the heap. -/
def arith (op : BinaryOperator) (l r : Val) : Res Val :=
  match l, r with
  | .num x, .num y =>
      match numBinary op x y with
      | some v => .ok v
      | none => binary heap h.stack h.pow (has heap) op l r
  | _, _ => binary heap h.stack h.pow (has heap) op l r

variable {h heap args}

theorem xor_cancel_left (x y z : BitVec 32) : (x ^^^ y) ^^^ (x ^^^ z) = y ^^^ z := by
  rw [BitVec.xor_comm x y, BitVec.xor_assoc, ← BitVec.xor_assoc x x, BitVec.xor_self,
    BitVec.zero_xor]

theorem xor_left_swap (x y z : BitVec 32) : x ^^^ (y ^^^ z) = y ^^^ (x ^^^ z) := by
  rw [← BitVec.xor_assoc, BitVec.xor_comm x y, BitVec.xor_assoc]

@[simp]
theorem xorOf_nil : xorOf h heap args [] = 0#32 := rfl

@[simp]
theorem xorOf_cons (i : ℕ) (atoms : List ℕ) :
    xorOf h heap args (i :: atoms) = argInt h heap args i ^^^ xorOf h heap args atoms := rfl

/-- **Arguments that are in both lists** cancel. -/
theorem xorOf_xorAtoms (as bs : List ℕ) :
    xorOf h heap args (xorAtoms as bs) = xorOf h heap args as ^^^ xorOf h heap args bs := by
  fun_induction xorAtoms as bs with
  | case1 bs => simp
  | case2 as => simp
  | case3 a as bs ih => rw [ih, xorOf_cons, xorOf_cons, xor_cancel_left]
  | case4 a as b bs hne hlt ih => rw [xorOf_cons, ih, xorOf_cons a as, BitVec.xor_assoc]
  | case5 a as b bs hne hlt ih => rw [xorOf_cons, ih, xorOf_cons b bs, xor_left_swap]

theorem avNum_fits {v : Av} {w : Val} {n : Double} (hn : avNum v = some n)
    (hv : Fits h heap args v w) : w = .num n := by
  rcases v with (_ | _ | _ | n' | _) | _ | _ | _ <;> cases hn
  exact hv

/-- **An integer of 32 bits** that is known of a value is that of the value as a number. -/
theorem avInt_fits {v : Av} {w : Val} {atoms : List ℕ} {k : BitVec 32} {n : Double}
    (hi : avInt v = some (atoms, k)) (hv : Fits h heap args v w)
    (hn : toNum heap h.stack w = .ok n) : toInt32 n = xorOf h heap args atoms ^^^ k := by
  rcases v with (_ | _ | _ | n' | _) | i | ⟨as, j⟩ | _ <;> cases hi
  · cases hv
    cases hn
    simp [primNum]
  · cases hv
    have hint : argInt h heap args i = toInt32 n := by rw [argInt, hn]
    simp [hint]
  · cases hv
    cases hn
    exact toInt32_ofI32 _

theorem isZero_fits {v : Av} {w : Val} (hz : isZero v = true) (hv : Fits h heap args v w) :
    ∃ z, w = .num z ∧ toInt32 z = 0 := by
  obtain ⟨z, hn, hz⟩ := (Option.any_eq_true ..).1 hz
  refine ⟨z, avNum_fits hn hv, ?_⟩
  rcases z with - | - | ⟨a, m⟩
  · rfl
  · rfl
  · rw [Double.eq_zero_fin, decide_eq_true_iff] at hz
    subst hz
    cases a <;> decide +kernel

theorem toNum_num (n : Double) : toNum heap h.stack (.num n) = .ok n := rfl

/-- What the operators on two integers give. -/
theorem arith_int {op : BinaryOperator} {g : BitVec 32 → BitVec 32 → BitVec 32} {l r v : Val}
    (hop : ∀ x y, numBinary op x y = some (.num (ofI32 (g (toInt32 x) (toInt32 y)))))
    (hbin : binary heap h.stack h.pow (has heap) op l r = (do
      let x ← toNum heap h.stack l
      return .num (ofI32 (g (toInt32 x) (toInt32 (← toNum heap h.stack r))))))
    (hv : arith h heap op l r = .ok v) : ∃ x y, toNum heap h.stack l = .ok x ∧
      toNum heap h.stack r = .ok y ∧ v = .num (ofI32 (g (toInt32 x) (toInt32 y))) := by
  unfold arith at hv
  split at hv
  · next x y =>
      rw [hop] at hv
      cases hv
      exact ⟨x, y, rfl, rfl, rfl⟩
  · rw [hbin] at hv
    obtain ⟨x, hx, hv⟩ := Lib.bind_ok hv
    obtain ⟨y, hy, hv⟩ := Lib.bind_ok hv
    cases hv
    exact ⟨x, y, hx, hy, rfl⟩

theorem arith_strict {op : BinaryOperator} {g : Bool → Bool} {l r v : Val}
    (hop : ∀ x y, numBinary op x y = some (.bool (g (x.eq y))))
    (hbin : ∀ l r, binary heap h.stack h.pow (has heap) op l r = .ok (.bool (g (strictEq l r))))
    (hv : arith h heap op l r = .ok v) : v = .bool (g (strictEq l r)) := by
  unfold arith at hv
  split at hv
  · rw [hop] at hv
    cases hv
    rfl
  · rw [hbin] at hv
    cases hv
    rfl

theorem avEq_fits {want : Bool} {a b : Av} {l r : Val} (ha : Fits h heap args a l)
    (hb : Fits h heap args b r) :
    Fits h heap args (avEq want a b) (.bool (strictEq l r == want)) := by
  unfold avEq
  split
  · next as j bs k =>
      split
      · next hsame =>
          subst hsame
          cases ha
          cases hb
          have hbeq (z : BitVec 32) : (z ^^^ j == z ^^^ k) = (j == k) := by
            rw [Bool.eq_iff_iff, beq_iff_eq, beq_iff_eq, BitVec.xor_right_inj]
          rw [strictEq, eq_ofI32, hbeq]
          rfl
      · trivial
  · trivial

/-- **What is known of a result** fits it. -/
theorem avBinary_fits {op : BinaryOperator} {a b : Av} {l r v : Val} (ha : Fits h heap args a l)
    (hb : Fits h heap args b r) (hv : arith h heap op l r = .ok v) :
    Fits h heap args (avBinary op a b) v := by
  unfold avBinary
  split
  · next x y hx hy =>
      cases avNum_fits hx ha
      cases avNum_fits hy hb
      rw [arith] at hv
      cases hn : numBinary op x y with
      | none => trivial
      | some w =>
          rw [hn] at hv
          cases hv
          rfl
  · cases op with
    | bitwiseOR =>
        obtain ⟨x, y, hx, hy, rfl⟩ := arith_int (g := (· ||| ·)) (fun _ _ => rfl) rfl hv
        dsimp only
        unfold avOr
        split
        · next atoms k hi hz =>
            obtain ⟨z, rfl, hz⟩ := isZero_fits hz hb
            cases hy
            simp [Fits, avInt_fits hi ha hx, primNum, hz]
        · split
          · next atoms k hz hi =>
              obtain ⟨z, rfl, hz⟩ := isZero_fits hz ha
              cases hx
              simp [Fits, avInt_fits hi hb hy, primNum, hz]
          · trivial
    | bitwiseXOR =>
        obtain ⟨x, y, hx, hy, rfl⟩ := arith_int (g := (· ^^^ ·)) (fun _ _ => rfl) rfl hv
        dsimp only
        unfold avXor
        split
        · next as j bs k hi hj =>
            have hxor : toInt32 x ^^^ toInt32 y =
                xorOf h heap args (xorAtoms as bs) ^^^ (j ^^^ k) := by
              rw [avInt_fits hi ha hx, avInt_fits hj hb hy, xorOf_xorAtoms]
              ac_rfl
            dsimp only
            split
            · next hnil =>
                rw [hnil, xorOf_nil, BitVec.zero_xor] at hxor
                exact congrArg (fun z => Val.num (ofI32 z)) hxor
            · exact congrArg (fun z => Val.num (ofI32 z)) hxor
        · trivial
    | strictEquality =>
        obtain rfl := arith_strict (g := (· == true)) (by simp [numBinary])
          (by simp [binary, pure, Except.pure]) hv
        exact avEq_fits ha hb
    | strictInequality =>
        obtain rfl := arith_strict (g := (· == false)) (by simp [numBinary])
          (by simp [binary, pure, Except.pure]) hv
        exact avEq_fits ha hb
    | _ => trivial

theorem avTruth_fits {v : Av} {w : Val} {assume t : Bool} (ht : avTruth v assume = some t)
    (hv : Fits h heap args v w) (hfirst : truthy (args.getD 0 .undef) = assume) : truthy w = t := by
  rcases v with c | (_ | i) | _ | _ <;> cases ht
  · exact congrArg truthy hv
  · cases hv
    exact hfirst

theorem avUnary_fits {op : UnaryOperator} {v : Av} {w r : Val} {assume : Bool} {m m' : Mem}
    (hv : Fits h heap args v w) (hfirst : truthy (args.getD 0 .undef) = assume)
    (hr : unaryM h op w m = .done m' (.ok r)) : Fits h heap args (avUnary op v assume) r := by
  unfold avUnary
  split
  · cases hr
    cases ht : avTruth v assume with
    | none => trivial
    | some t =>
        rw [avTruth_fits ht hv hfirst]
        rfl
  · cases hv
    cases hr
    rfl
  · trivial

end Values

/-! ## Calls -/

/-- The code of a function as the optimiser sees it. -/
def CFunc.code (f : CFunc) : Exec.Code := ⟨f.ops, f.lists, f.nslots, f.pcs, f.entryIp⟩

/-- The slot of its own function that an op takes for a variable, if it is declared. -/
def ownSlot : Op → Option ℕ
  | .varS _ 0 slot _ | .setVarS 0 slot _ _ | .setVarK 0 slot _ _ => some slot
  | _ => none

/-- What the code of a summary relies on: the variables of the function that it names are declared
from the start, and it reads no register that a call does not clear before it writes it. -/
structure Settled (f : CFunc) : Prop where
  declared : ∀ op ∈ f.ops, ∀ slot, ownSlot op = some slot → ∃ v, f.init[slot]? = some (some v)
  fresh : ∀ r, f.nregs ≤ r → ¬f.code.Live f.entryIp r

/-- Nothing has changed but counters, and the registers from the stack pointer on. -/
structure Unseen (s s' : State) : Prop where
  mem : s'.mem = s.mem
  scopes : s'.scopes = s.scopes
  vals : s'.vals = s.vals
  frames : s'.frames = s.frames
  below : ∀ r < s.sp, s'.stack r = s.stack r
  sp : s'.sp = s.sp
  cfuncs : s'.cfuncs = s.cfuncs
  compiled : s'.compiled = s.compiled
  fieldIds : s'.fieldIds = s.fieldIds
  ic : s'.ic = s.ic
  born : s'.born = s.born
  steps : s.steps ≤ s'.steps
  clock : s.clock ≤ s'.clock

section Call

variable (p : Program) (s₀ : State) (f : CFunc) (id parent : ℕ) (q : Request)

/-- The activation of the call at a place of its code. -/
def actAt (ip : ℕ) : Act := ⟨id, s₀.sp, s₀.scopes.length, s₀.vals.length, ip⟩

/-- A state while the call runs. -/
structure Inside (s : State) : Prop where
  mem : s.mem = s₀.mem
  scopes : s.scopes = s₀.scopes ++ [newScope s₀ id parent q]
  frames : s.frames = [] :: s₀.frames
  below : ∀ r < s₀.sp, s.stack r = s₀.stack r
  cfuncs : s.cfuncs = s₀.cfuncs
  compiled : s.compiled = s₀.compiled
  fieldIds : s.fieldIds = s₀.fieldIds
  ic : s.ic = s₀.ic
  born : s.born = s₀.born
  steps : s₀.steps ≤ s.steps
  clock : s₀.clock ≤ s.clock
  older : s.vals.take s₀.vals.length = s₀.vals
  length : s.vals.length = s₀.vals.length + f.init.length

/-- A variable of the call. -/
def local? (s : State) (slot : ℕ) : Option (Option Val) := s.vals[s₀.vals.length + slot]?

/-- A state of the loop of `summarize_case` describes one of the machine. -/
structure Tracks (sym : Sym) (s : State) : Prop extends Inside s₀ f id parent q s where
  regs : ∀ r, f.code.Live sym.ip r →
    Fits p.host s₀.mem.heap q.args (sym.regs r) (s.stack (s₀.sp + r))
  slots : sym.locals.length = f.init.length
  vars : ∀ slot v, sym.locals[slot]? = some v →
    v = .unk ∨ ∃ w, local? s₀ s slot = some (some w) ∧ Fits p.host s₀.mem.heap q.args v w
  declared : ∀ slot w, f.init[slot]? = some (some w) → ∃ w', local? s₀ s slot = some (some w')

/-- How an op ends where the loop goes on with a state, or has a value. -/
inductive Turned : Sym ⊕ Av → Next → State → Prop
  | go {sym s} : Tracks p s₀ f id parent q sym s → Turned (.inl sym) (.go sym.ip) s
  | ret {v w s} : Inside s₀ f id parent q s → Fits p.host s₀.mem.heap q.args v w →
      Turned (.inr v) (.ret w) s

/-- The op ends as the loop does, or with an error. -/
def Agrees (next : Sym ⊕ Av) (t : Tree) : Prop :=
  ∃ s r, t = .done s r ∧ Inside s₀ f id parent q s ∧
    ∀ n, r = .ok n → Turned p s₀ f id parent q next n s

variable {p s₀ f id parent q} {sym : Sym} {s : State} {op : Op} {assume : Bool}

theorem Inside.setReg (h : Inside s₀ f id parent q s) (d : ℕ) (w : Val) :
    Inside s₀ f id parent q (s.setReg (s₀.sp + d) w) :=
  { h with
    below := fun r hr => by
      have hne : r ≠ s₀.sp + d := by omega
      exact (Function.update_of_ne hne _ _).trans (h.below r hr) }

section Registers

variable (hop : f.ops[sym.ip]? = some op)

include hop

theorem live_use (hpure : opPure op = false) {r : ℕ} (hr : r ∈ (shape f.lists op).uses) :
    f.code.Live sym.ip r :=
  .read hop hpure hr

/-- What is live at the next place, and is not written here, is live here. -/
theorem live_pass {j r : ℕ} (hj : f.code.Flows sym.ip j) (hd : opDef op ≠ some r)
    (hr : f.code.Live j r) : f.code.Live sym.ip r :=
  .pass hop (.inl hj) hd hr

theorem flows_next (hfalls : (shape f.lists op).falls = true) : f.code.Flows sym.ip (sym.ip + 1) :=
  ⟨op, hop, .inl ⟨hfalls, rfl⟩⟩

theorem flows_target {j : ℕ} (hj : j ∈ (shape f.lists op).targets) : f.code.Flows sym.ip j :=
  ⟨op, hop, .inr hj⟩

/-- **A register** written. -/
theorem Tracks.write (h : Tracks p s₀ f id parent q sym s) {d : ℕ} (hd : opDef op = some d) {v : Av}
    {w : Val} (hv : f.code.Live (sym.ip + 1) d → Fits p.host s₀.mem.heap q.args v w) :
    Tracks p s₀ f id parent q ((sym.goto (sym.ip + 1)).setReg d v) (s.setReg (s₀.sp + d) w) where
  toInside := h.toInside.setReg d w
  regs r hr := by
    rcases eq_or_ne r d with rfl | hne
    · simpa [Sym.setReg, State.setReg] using hv hr
    · have hne' : s₀.sp + r ≠ s₀.sp + d := by omega
      have hlive := live_pass hop (flows_next hop (Exec.falls_of_dest f.lists hd).1)
        (fun h => hne (Option.some.inj (hd.symm.trans h)).symm) hr
      simpa [Sym.setReg, Sym.goto, State.setReg, hne] using h.regs r hlive
  slots := h.slots
  vars := h.vars
  declared := h.declared

/-- **Another place** of the code. -/
theorem Tracks.goto (h : Tracks p s₀ f id parent q sym s) {j : ℕ} (hj : f.code.Flows sym.ip j)
    (hd : opDef op = none) : Tracks p s₀ f id parent q (sym.goto j) s where
  toInside := h.toInside
  regs r hr := h.regs r (live_pass hop hj (by simp [hd]) hr)
  slots := h.slots
  vars := h.vars
  declared := h.declared

end Registers

/-! ### What an op does -/

theorem execOp_reads {a : Act} {d : ℕ} {v : Val} (h : reads p f a s op = some (d, .ok v)) :
    execOp p f a op s = .done (s.setReg (a.fb + d) v) (.ok (.go (a.ip + 1))) := by
  have hget : (get : OpM State) s = .done s (.ok s) := rfl
  rw [execOp, bind_done hget, h]
  rfl

theorem execOp_computes {a : Act} {d : ℕ} {x : MemM Val} {r : Res Val}
    (hreads : reads p f a s op = none)
    (h : computes p f s (fun r => s.stack (a.fb + r)) op = some (d, x))
    (hx : x s.mem = .done s.mem r) : execOp p f a op s = match r with
      | .ok v => .done (s.setReg (a.fb + d) v) (.ok (.go (a.ip + 1)))
      | .error e => .done s (.error e) := by
  have hmem : onMem x s = .done s r := by
    rw [onMem, Lib.CallM.zoom, hx]
    rfl
  have hget : (get : OpM State) s = .done s (.ok s) := rfl
  rw [execOp, bind_done hget, hreads]
  dsimp only
  rw [h]
  cases r with
  | ok v => exact bind_done hmem
  | error e => exact bind_error hmem

theorem execOp_acts {a : Act} (hreads : reads p f a s op = none)
    (h : computes p f s (fun r => s.stack (a.fb + r)) op = none) :
    execOp p f a op s = acts p f a op s := by
  have hget : (get : OpM State) s = .done s (.ok s) := rfl
  rw [execOp, bind_done hget, hreads]
  dsimp only
  rw [h]

theorem arithM_done (o : BinaryOperator) (l r : Val) (m : Mem) :
    arithM p.host o l r m = .done m (arith p.host m.heap o l r) := by
  cases l with
  | num x =>
      cases r with
      | num y =>
          unfold arithM arith
          dsimp only
          cases numBinary o x y <;> rfl
      | _ => rfl
  | _ => rfl

theorem unaryM_done (o : UnaryOperator) (v : Val) (m : Mem) :
    ∃ r, unaryM p.host o v m = .done m r := by
  have hbind {α : Type} {g : List Obj → Res α} {k : α → MemM Val}
      (hk : ∀ a, ∃ r, k a m = .done m r) : ∃ r, (onHeap g >>= k) m = .done m r := by
    cases hg : g m.heap with
    | ok a =>
        obtain ⟨r, hr⟩ := hk a
        exact ⟨r, (bind_done (congrArg (Lib.Calls.done m) hg)).trans hr⟩
    | error e => exact ⟨.error e, bind_error (congrArg (Lib.Calls.done m) hg)⟩
  cases o with
  | logicalNot | void => exact ⟨_, rfl⟩
  | delete => exact ⟨_, rfl⟩
  | _ => exact hbind fun a => ⟨_, rfl⟩

/-! ### Turns -/

theorem Inside.scope (h : Inside s₀ f id parent q s) :
    index s.scopes s₀.scopes.length = .ok (newScope s₀ id parent q) := by
  rw [index, h.scopes, List.getElem?_concat_length]
  rfl

theorem Inside.index_vals (h : Inside s₀ f id parent q s) {slot : ℕ}
    (hslot : slot < f.init.length) :
    ∃ v, local? s₀ s slot = some v ∧ index s.vals (s₀.vals.length + slot) = .ok v := by
  have hlt : s₀.vals.length + slot < s.vals.length := by
    rw [h.length]
    omega
  exact ⟨_, List.getElem?_eq_getElem hlt, by rw [index, List.getElem?_eq_getElem hlt]; rfl⟩

theorem Inside.ticked (h : Inside s₀ f id parent q s) :
    Inside s₀ f id parent q { s with steps := s.steps + 1 } :=
  { h with steps := h.steps.trans (Nat.le_succ _) }

theorem Tracks.ticked (h : Tracks p s₀ f id parent q sym s) :
    Tracks p s₀ f id parent q sym { s with steps := s.steps + 1 } :=
  { h with toInside := h.toInside.ticked }

/-- **A variable** written. -/
theorem Tracks.setVal (h : Tracks p s₀ f id parent q sym s) {slot : ℕ} {v : Av} {w : Val}
    (hslot : slot < sym.locals.length) (hv : Fits p.host s₀.mem.heap q.args v w) :
    Tracks p s₀ f id parent q { sym with locals := sym.locals.set slot v }
      (s.setVal (s₀.vals.length + slot) w) := by
  have hself : local? s₀ (s.setVal (s₀.vals.length + slot) w) slot = some (some w) := by
    have hlt : s₀.vals.length + slot < s.vals.length := by
      rw [h.length, ← h.slots]
      omega
    exact List.getElem?_set_self hlt
  have hother {i : ℕ} (hi : slot ≠ i) :
      local? s₀ (s.setVal (s₀.vals.length + slot) w) i = local? s₀ s i :=
    List.getElem?_set_ne (by omega)
  constructor
  case toInside =>
    refine { h.toInside with older := ?_, length := List.length_set.trans h.length }
    exact (List.take_set_of_le (Nat.le_add_right _ _)).trans h.older
  case regs => exact h.regs
  case slots => exact List.length_set.trans h.slots
  case vars =>
    intro i u hu
    rcases eq_or_ne slot i with rfl | hi
    · rw [List.getElem?_set_self hslot] at hu
      cases hu
      exact .inr ⟨w, hself, hv⟩
    · rw [List.getElem?_set_ne hi] at hu
      rw [hother hi]
      exact h.vars i u hu
  case declared =>
    intro i u hu
    rcases eq_or_ne slot i with rfl | hi
    · exact ⟨w, hself⟩
    · rw [hother hi]
      exact h.declared i u hu

section Turn

variable (h : Tracks p s₀ f id parent q sym s) (hop : f.ops[sym.ip]? = some op)

include h hop

/-- The op writes a register. -/
theorem agrees_write {d : ℕ} (hd : opDef op = some d) {v : Av} {w : Val}
    (hexec : execOp p f (actAt s₀ id sym.ip) op s =
      .done (s.setReg (s₀.sp + d) w) (.ok (.go (sym.ip + 1))))
    (hv : f.code.Live (sym.ip + 1) d → Fits p.host s₀.mem.heap q.args v w) :
    Agrees p s₀ f id parent q (.inl ((sym.goto (sym.ip + 1)).setReg d v))
      (execOp p f (actAt s₀ id sym.ip) op s) := by
  have hwrite := h.write hop hd hv
  refine ⟨_, _, hexec, hwrite.toInside, fun n hn => ?_⟩
  cases hn
  exact .go hwrite

/-- The op computes on the heap. -/
theorem agrees_computes {d : ℕ} (hd : opDef op = some d) {v : Av} {x : MemM Val} {r : Res Val}
    (hreads : reads p f (actAt s₀ id sym.ip) s op = none)
    (hcomp : computes p f s (fun r => s.stack (s₀.sp + r)) op = some (d, x))
    (hx : x s.mem = .done s.mem r)
    (hv : ∀ w, r = .ok w → Fits p.host s₀.mem.heap q.args v w) :
    Agrees p s₀ f id parent q (.inl ((sym.goto (sym.ip + 1)).setReg d v))
      (execOp p f (actAt s₀ id sym.ip) op s) := by
  have hexec := execOp_computes hreads hcomp hx
  cases r with
  | ok w => exact agrees_write h hop hd hexec fun _ => hv w rfl
  | error e => exact ⟨s, _, hexec, h.toInside, fun n hn => by cases hn⟩

/-- The op only goes on to another place. -/
theorem agrees_goto {j : ℕ} (hj : f.code.Flows sym.ip j) (hd : opDef op = none)
    (hexec : execOp p f (actAt s₀ id sym.ip) op s = .done s (.ok (.go j))) :
    Agrees p s₀ f id parent q (.inl (sym.goto j)) (execOp p f (actAt s₀ id sym.ip) op s) := by
  refine ⟨_, _, hexec, h.toInside, fun n hn => ?_⟩
  cases hn
  exact .go (h.goto hop hj hd)

/-- The op counts a step and goes on to another place. -/
theorem agrees_tick {x : Unit → OpM Next} {j : ℕ} (hj : f.code.Flows sym.ip j)
    (hd : opDef op = none)
    (hexec : execOp p f (actAt s₀ id sym.ip) op s = (tick >>= x) s)
    (hx : x () { s with steps := s.steps + 1 } =
      .done { s with steps := s.steps + 1 } (.ok (.go j))) :
    Agrees p s₀ f id parent q (.inl (sym.goto j)) (execOp p f (actAt s₀ id sym.ip) op s) := by
  have hticked := h.ticked
  by_cases hmax : MAX_STEPS < s.steps + 1
  · have htick : tick s = .done { s with steps := s.steps + 1 } (.error (.fault .budget)) :=
      congrArg _ (if_pos hmax)
    exact ⟨_, _, hexec.trans (bind_error htick), hticked.toInside, fun n hn => by cases hn⟩
  · have htick : tick s = .done { s with steps := s.steps + 1 } (.ok ()) :=
      congrArg _ (if_neg hmax)
    refine ⟨_, _, hexec.trans ((bind_done htick).trans hx), hticked.toInside, fun n hn => ?_⟩
    cases hn
    exact .go (hticked.goto hop hj hd)

/-- The op writes a variable. -/
theorem agrees_setVal (hd : opDef op = none) (hfalls : (shape f.lists op).falls = true) {slot : ℕ}
    {v : Av} {w : Val} {sym' : Sym}
    (hlocal : (sym.goto (sym.ip + 1)).setLocal slot v = some sym')
    (hexec : slot < f.init.length → execOp p f (actAt s₀ id sym.ip) op s =
      .done (s.setVal (s₀.vals.length + slot) w) (.ok (.go (sym.ip + 1))))
    (hv : Fits p.host s₀.mem.heap q.args v w) :
    Agrees p s₀ f id parent q (.inl sym') (execOp p f (actAt s₀ id sym.ip) op s) := by
  obtain ⟨hslot, hsym⟩ := Option.ite_none_right_eq_some.1 hlocal
  cases hsym
  have hset := (h.goto hop (flows_next hop hfalls) hd).setVal hslot hv
  refine ⟨_, _, hexec (h.slots ▸ hslot), hset.toInside, fun n hn => ?_⟩
  cases hn
  exact .go hset

end Turn

theorem staticLoc_own (h : Tracks p s₀ f id parent q sym s) {slot : ℕ} {w : Val}
    (hw : local? s₀ s slot = some (some w)) :
    s.staticLoc s₀.scopes.length 0 slot = .ok (some (.slot (s₀.vals.length + slot))) := by
  have hslot : s.staticSlot s₀.scopes.length 0 slot = .ok (s₀.vals.length + slot) := by
    change (do return (← index s.scopes s₀.scopes.length).base + slot : Res ℕ) = _
    rw [h.scope]
    rfl
  have hindex : index s.vals (s₀.vals.length + slot) = .ok (some w) := by
    rw [index, show s.vals[s₀.vals.length + slot]? = _ from hw]
    rfl
  change (do
    let at_ ← s.staticSlot s₀.scopes.length 0 slot
    return if (← index s.vals at_).isSome then some (Loc.slot at_) else none : Res (Option Loc)) = _
  rw [hslot]
  change (do
    return if (← index s.vals (s₀.vals.length + slot)).isSome then
      some (Loc.slot (s₀.vals.length + slot)) else none : Res (Option Loc)) = _
  rw [hindex]
  rfl

theorem locGet_own {slot : ℕ} {w : Val} (hw : local? s₀ s slot = some (some w)) :
    s.locGet (.slot (s₀.vals.length + slot)) = .ok w := by
  have hindex : index s.vals (s₀.vals.length + slot) = .ok (some w) := by
    rw [index, show s.vals[s₀.vals.length + slot]? = _ from hw]
    rfl
  change (do return (← index s.vals (s₀.vals.length + slot)).getD .undef : Res Val) = _
  rw [hindex]
  rfl

/-- A variable that is declared is found at its slot. -/
theorem varLoc_own (h : Tracks p s₀ f id parent q sym s) {slot key : ℕ} {w : Val}
    (hw : local? s₀ s slot = some (some w)) :
    varLoc p s₀.scopes.length 0 slot key s = .done s (.ok (.slot (s₀.vals.length + slot))) := by
  have hask : ask (fun s => s.staticLoc s₀.scopes.length 0 slot) s =
      .done s (.ok (some (.slot (s₀.vals.length + slot)))) :=
    congrArg (Lib.Calls.done s) (staticLoc_own h hw)
  rw [varLoc, bind_done hask]
  rfl

theorem getStatic_own (h : Tracks p s₀ f id parent q sym s) {slot key : ℕ} {w : Val}
    (hw : local? s₀ s slot = some (some w)) :
    getStatic p s₀.scopes.length 0 slot key s = .done s (.ok w) := by
  rw [getStatic, bind_done (varLoc_own h hw)]
  exact congrArg (Lib.Calls.done s) (locGet_own hw)

theorem setStatic_own (h : Tracks p s₀ f id parent q sym s) {slot key : ℕ} {w : Val} (v : Val)
    (hw : local? s₀ s slot = some (some w)) :
    setStatic p s₀.scopes.length 0 slot key v s =
      .done (s.setVal (s₀.vals.length + slot) v) (.ok ()) := by
  rw [setStatic, bind_done (varLoc_own h hw)]
  rfl

/-- **A turn** of the loop of `summarize_case`, and the op. -/
theorem turn (hs : Settled f) (hfirst : truthy (q.args.getD 0 .undef) = assume)
    (h : Tracks p s₀ f id parent q sym s) (hop : f.ops[sym.ip]? = some op) {next : Sym ⊕ Av}
    (hturn : symTurn f assume (sym.goto (sym.ip + 1)) op = some next) :
    Agrees p s₀ f id parent q next (execOp p f (actAt s₀ id sym.ip) op s) := by
  have hown {slot : ℕ} (hslot : ownSlot op = some slot) :
      ∃ w, local? s₀ s slot = some (some w) := by
    obtain ⟨v, hv⟩ := hs.declared op (List.mem_of_getElem? hop) slot hslot
    exact h.declared slot v hv
  have huse {r : ℕ} (hpure : opPure op = false) (hr : r ∈ (shape f.lists op).uses) :
      Fits p.host s₀.mem.heap q.args (sym.regs r) (s.stack (s₀.sp + r)) :=
    h.regs r (live_use hop hpure hr)
  cases op with
  | num d n =>
      cases hturn
      exact agrees_write h hop rfl (execOp_reads rfl) fun _ => rfl
  | const d c =>
      obtain ⟨v, hv, hnext⟩ := Option.map_eq_some_iff.1 hturn
      cases hnext
      refine agrees_write h hop rfl (w := v) (execOp_reads ?_) fun _ => rfl
      rw [reads, index, hv]
      rfl
  | move d r =>
      cases hturn
      exact agrees_write h hop rfl (execOp_reads rfl) fun hd =>
        h.regs r (.feed hop rfl hd (List.mem_singleton_self r))
  | localS d slot =>
      obtain ⟨v, hv, hnext⟩ := Option.map_eq_some_iff.1 hturn
      cases hnext
      obtain ⟨u, hu, hindex⟩ := h.toInside.index_vals (h.slots ▸ Lib.lt_of_getElem? hv)
      refine agrees_write h hop rfl (w := u.getD .undef) (execOp_reads ?_) fun _ => ?_
      · have hread : (do
            let sc ← index s.scopes s₀.scopes.length
            return (← index s.vals (sc.base + slot)).getD .undef : Res Val) =
              .ok (u.getD .undef) := by
          rw [h.scope]
          change (do return (← index s.vals (s₀.vals.length + slot)).getD .undef : Res Val) = _
          rw [hindex]
          rfl
        exact congrArg (fun x => some (d, x)) hread
      · rcases h.vars slot v hv with rfl | ⟨w, hw, hfits⟩
        · trivial
        · cases hu.symm.trans hw
          exact hfits
  | varS d hops slot key =>
      cases hops with
      | succ hops => cases hturn
      | zero =>
          obtain ⟨v, hv, hnext⟩ := Option.map_eq_some_iff.1 hturn
          cases hnext
          obtain ⟨w, hw⟩ := hown rfl
          refine agrees_write h hop rfl (w := w) ?_ fun _ => ?_
          · rw [execOp_acts rfl rfl, acts]
            exact bind_done (getStatic_own h hw)
          · rcases h.vars slot v hv with rfl | ⟨w', hw', hfits⟩
            · trivial
            · cases hw.symm.trans hw'
              exact hfits
  | decl slot v =>
      obtain ⟨sym', hsym, hnext⟩ := Option.map_eq_some_iff.1 hturn
      cases hnext
      refine agrees_setVal h hop rfl rfl hsym (fun hslot => ?_)
        (huse rfl (List.mem_singleton_self v))
      obtain ⟨u, -, hindex⟩ := h.toInside.index_vals hslot
      have hsc : ask (fun s => index s.scopes s₀.scopes.length) s =
          .done s (.ok (newScope s₀ id parent q)) := congrArg (Lib.Calls.done s) h.scope
      have hval : ask (fun s => index s.vals (s₀.vals.length + slot)) s = .done s (.ok u) :=
        congrArg (Lib.Calls.done s) hindex
      have hreg : reg (actAt s₀ id sym.ip) v s = .done s (.ok (s.stack (s₀.sp + v))) := rfl
      rw [execOp_acts rfl rfl, acts, bind_done hreg]
      refine (bind_done hsc).trans ((bind_done hval).trans ?_)
      rfl
  | setVarS hops slot key v =>
      cases hops with
      | succ hops => cases hturn
      | zero =>
          obtain ⟨sym', hsym, hnext⟩ := Option.map_eq_some_iff.1 hturn
          cases hnext
          obtain ⟨w, hw⟩ := hown rfl
          refine agrees_setVal h hop rfl rfl hsym (fun _ => ?_)
            (huse rfl (List.mem_singleton_self v))
          have hreg : reg (actAt s₀ id sym.ip) v s = .done s (.ok (s.stack (s₀.sp + v))) := rfl
          rw [execOp_acts rfl rfl, acts, bind_done hreg]
          exact bind_done (setStatic_own h _ hw)
  | setVarK hops slot key n =>
      cases hops with
      | succ hops => cases hturn
      | zero =>
          obtain ⟨sym', hsym, hnext⟩ := Option.map_eq_some_iff.1 hturn
          cases hnext
          obtain ⟨w, hw⟩ := hown rfl
          refine agrees_setVal h hop rfl rfl hsym (fun _ => ?_) rfl
          rw [execOp_acts rfl rfl, acts]
          exact bind_done (setStatic_own h _ hw)
  | unary d o x =>
      cases hturn
      obtain ⟨r, hr⟩ := unaryM_done (p := p) o (s.stack (s₀.sp + x)) s.mem
      refine agrees_computes h hop rfl rfl rfl hr fun w hw => ?_
      rw [hw] at hr
      exact avUnary_fits (huse rfl (List.mem_singleton_self x)) hfirst hr
  | binary d o x y =>
      cases hturn
      refine agrees_computes h hop rfl rfl rfl (arithM_done o _ _ _) fun w hw => ?_
      rw [h.mem] at hw
      exact avBinary_fits (huse rfl (List.mem_cons_self ..))
        (huse rfl (List.mem_cons_of_mem _ (List.mem_singleton_self y))) hw
  | binK d o x n =>
      cases hturn
      refine agrees_computes h hop rfl rfl rfl (arithM_done o _ _ _) fun w hw => ?_
      rw [h.mem] at hw
      exact avBinary_fits (huse rfl (List.mem_singleton_self x)) rfl hw
  | kBin d o n y =>
      cases hturn
      refine agrees_computes h hop rfl rfl rfl (arithM_done o _ _ _) fun w hw => ?_
      rw [h.mem] at hw
      exact avBinary_fits rfl (huse rfl (List.mem_singleton_self y)) hw
  | br c when thn els =>
      obtain ⟨t, ht, hnext⟩ := Option.map_eq_some_iff.1 hturn
      cases hnext
      have htruth := avTruth_fits ht (huse rfl (List.mem_singleton_self c)) hfirst
      refine agrees_tick h hop (flows_target hop ?_) rfl (execOp_acts rfl rfl) ?_
      · by_cases hw : t = when <;> simp [hw, shape, Exec.Shape.targets]
      · rw [← htruth]
        rfl
  | brK x o n when thn els =>
      obtain ⟨m, hm, hnext⟩ := Option.map_eq_some_iff.1 hturn
      cases hnext
      have hnum := avNum_fits hm (huse rfl (List.mem_singleton_self x))
      refine agrees_tick h hop (flows_target hop ?_) rfl (execOp_acts rfl rfl) ?_
      · by_cases hw : numCmp o m (.ofBits n) = when <;> simp [hw, shape, Exec.Shape.targets]
      · have hreg : reg (actAt s₀ id sym.ip) x { s with steps := s.steps + 1 } =
            .done { s with steps := s.steps + 1 } (.ok (.num m)) := by
          rw [← hnum]
          rfl
        exact bind_done hreg
  | brVarK hops slot key o n when thn els =>
      cases hops with
      | succ hops => cases hturn
      | zero =>
          obtain ⟨m, hm, hnext⟩ := Option.map_eq_some_iff.1 hturn
          cases hnext
          obtain ⟨v, hv, hm⟩ := Option.bind_eq_some_iff.1 hm
          obtain ⟨w, hw, hfits⟩ : ∃ w, local? s₀ s slot = some (some w) ∧ w = .num m := by
            rcases h.vars slot v hv with rfl | ⟨w, hw, hfits⟩
            · cases hm
            · exact ⟨w, hw, avNum_fits hm hfits⟩
          subst hfits
          have hticked := h.ticked
          refine agrees_tick h hop (flows_target hop ?_) rfl (execOp_acts rfl rfl) ?_
          · by_cases hw : numCmp o m (.ofBits n) = when <;> simp [hw, shape, Exec.Shape.targets]
          · have hloc : ask (fun s => s.staticLoc s₀.scopes.length 0 slot)
                { s with steps := s.steps + 1 } = .done { s with steps := s.steps + 1 }
                  (.ok (some (.slot (s₀.vals.length + slot)))) :=
              congrArg (Lib.Calls.done _) (staticLoc_own hticked hw)
            have hget : ask (fun s => s.locGet (.slot (s₀.vals.length + slot)))
                { s with steps := s.steps + 1 } =
                  .done { s with steps := s.steps + 1 } (.ok (.num m)) :=
              congrArg (Lib.Calls.done _) (locGet_own (s := { s with steps := s.steps + 1 }) hw)
            have htest : testVar p s₀.scopes.length 0 slot key o n
                { s with steps := s.steps + 1 } =
                  .done { s with steps := s.steps + 1 } (.ok (numCmp o m (.ofBits n))) := by
              rw [testVar, bind_done hloc]
              exact bind_done hget
            exact bind_done htest
  | jf c tgt =>
      obtain ⟨t, ht, hnext⟩ := Option.map_eq_some_iff.1 hturn
      have htruth := avTruth_fits ht (huse rfl (List.mem_singleton_self c)) hfirst
      have hexec : execOp p f (actAt s₀ id sym.ip) (.jf c tgt) s =
          .done s (.ok (.go (if !t then tgt else sym.ip + 1))) := by
        rw [execOp_acts rfl rfl, ← htruth]
        rfl
      cases t with
      | false =>
          cases hnext
          exact agrees_goto h hop (flows_target hop (List.mem_singleton_self tgt)) rfl hexec
      | true =>
          cases hnext
          exact agrees_goto h hop (flows_next hop rfl) rfl hexec
  | jt c tgt =>
      obtain ⟨t, ht, hnext⟩ := Option.map_eq_some_iff.1 hturn
      have htruth := avTruth_fits ht (huse rfl (List.mem_singleton_self c)) hfirst
      have hexec : execOp p f (actAt s₀ id sym.ip) (.jt c tgt) s =
          .done s (.ok (.go (if t then tgt else sym.ip + 1))) := by
        rw [execOp_acts rfl rfl, ← htruth]
        rfl
      cases t with
      | false =>
          cases hnext
          exact agrees_goto h hop (flows_next hop rfl) rfl hexec
      | true =>
          cases hnext
          exact agrees_goto h hop (flows_target hop (List.mem_singleton_self tgt)) rfl hexec
  | j tgt =>
      cases hturn
      exact agrees_tick h hop (flows_target hop (List.mem_singleton_self tgt)) rfl
        (execOp_acts rfl rfl) rfl
  | callee d =>
      cases hturn
      refine agrees_write h hop rfl (w := .obj q.fn) (execOp_reads ?_) fun _ => trivial
      exact congrArg (fun sc : Res Scope => some (d, do return (← sc).callee)) h.scope
  | this d =>
      cases hturn
      refine agrees_write h hop rfl (w := q.this) (execOp_reads ?_) fun _ => trivial
      exact congrArg (fun sc : Res Scope => some (d, do return (← sc).this)) h.scope
  | global d =>
      cases hturn
      exact agrees_write h hop rfl (execOp_reads rfl) fun _ => trivial
  | ret v =>
      cases hturn
      have hsc : ask (fun s => index s.scopes s₀.scopes.length) s =
          .done s (.ok (newScope s₀ id parent q)) := congrArg (Lib.Calls.done s) h.scope
      have hexec : execOp p f (actAt s₀ id sym.ip) (.ret v) s =
          .done (s.setReg (s₀.sp + v) .undef) (.ok (.ret (s.stack (s₀.sp + v)))) := by
        rw [execOp_acts rfl rfl]
        exact bind_done hsc
      refine ⟨_, _, hexec, ?_, fun n hn => ?_⟩
      · exact h.toInside.setReg v .undef
      · cases hn
        exact .ret (h.toInside.setReg v .undef) (huse rfl (List.mem_singleton_self v))
  | _ => cases hturn

/-! ### Runs -/

/-- The call has come back, with nothing changed outside, and its value fits; a panic leaves
nothing to come back to. -/
def Left (p : Program) (s₀ : State) (q : Request) (tasks : List Task) (v : Av)
    (c : Config) : Prop :=
  c = ⟨.crash, tasks⟩ ∨ ∃ s r, c = ⟨.back s r, tasks⟩ ∧ Unseen s₀ s ∧
    ∀ w, r = .ok w → Fits p.host s₀.mem.heap q.args v w

/-- **The end of the call** drops what it has made. -/
theorem Inside.leave (h : Inside s₀ f id parent q s) (hleaf : f.leaf = true) (ip : ℕ) :
    Unseen s₀ (leave s f (actAt s₀ id ip)) := by
  have hlen : s.scopes.length = s₀.scopes.length + 1 := by
    rw [h.scopes, List.length_append, List.length_singleton]
  have hscopes : s.scopes.dropLast = s₀.scopes := by rw [h.scopes, List.dropLast_concat]
  rw [Interp.leave, if_pos ⟨hleaf, hlen⟩]
  exact ⟨h.mem, hscopes, h.older, congrArg List.tail h.frames, h.below, rfl, h.cfuncs, h.compiled,
    h.fieldIds, h.ic, h.born, h.steps, h.clock⟩

/-- No handler is set while the call runs. -/
theorem Inside.handlerOf (h : Inside s₀ f id parent q s) (ip : ℕ) :
    handlerOf p s f (actAt s₀ id ip) = .ok none := by
  change (index s.scopes s₀.scopes.length >>= fun sc => _) = _
  rw [h.scope]
  rfl

/-- The end of an op of the call. -/
theorem Inside.finished (h : Inside s₀ f id parent q s) (hleaf : f.leaf = true) (ip : ℕ) (e : Err)
    (tasks : List Task) (v : Av) :
    Left p s₀ q tasks v ⟨finished p s f (actAt s₀ id ip) (.error e), tasks⟩ := by
  have hback (e : Err) :
      Left p s₀ q tasks v ⟨.back (Interp.leave s f (actAt s₀ id ip)) (.error e), tasks⟩ :=
    .inr ⟨_, _, rfl, h.leave hleaf ip, fun w hw => by cases hw⟩
  cases e with
  | panic => exact .inl rfl
  | fault e => exact hback _
  | throw u =>
      have hcaught : caught p s f (actAt s₀ id ip) u =
          .back (Interp.leave s f (actAt s₀ id ip)) (.error (.throw u)) := by
        rw [caught, h.handlerOf]
      have hend := hback (.throw u)
      rw [← hcaught] at hend
      exact hend

/-- **The loop of `summarize_case`**, and the run of the body. -/
theorem symRun_fits (hs : Settled f) (hleaf : f.leaf = true) (hf : s₀.cfuncs[id]? = some f)
    (hfirst : truthy (q.args.getD 0 .undef) = assume) {tasks : List Task} {v : Av} {n : ℕ}
    (h : Tracks p s₀ f id parent q sym s) (hrun : symRun f assume n sym = some v) :
    ∃ c, Comes (Config.next p) ⟨.ops s (actAt s₀ id sym.ip), tasks⟩ c ∧ Left p s₀ q tasks v c := by
  induction n generalizing sym s with
  | zero => cases hrun
  | succ n ih =>
      obtain ⟨op, hop, hrun⟩ := Option.bind_eq_some_iff.1 hrun
      obtain ⟨next, hturn, hrun⟩ := Option.bind_eq_some_iff.1 hrun
      obtain ⟨s', r, hexec, hinside, hturned⟩ := turn hs hfirst h hop hturn
      have hfirstStep : Config.next p ⟨.ops s (actAt s₀ id sym.ip), tasks⟩ =
          some ⟨.eval (some (actAt s₀ id sym.ip)) (.done s' r), tasks⟩ := by
        have hcf : s.cfuncs[(actAt s₀ id sym.ip).cf]? = some f := h.cfuncs ▸ hf
        have hat : f.ops[(actAt s₀ id sym.ip).ip]? = some op := hop
        rw [Config.next]
        dsimp only
        rw [hcf]
        dsimp only
        rw [hat]
        dsimp only
        rw [hexec]
      have hsecond : Config.next p ⟨.eval (some (actAt s₀ id sym.ip)) (.done s' r), tasks⟩ =
          some ⟨finished p s' f (actAt s₀ id sym.ip) r, tasks⟩ := by
        have hcf : s'.cfuncs[(actAt s₀ id sym.ip).cf]? = some f := hinside.cfuncs ▸ hf
        rw [Config.next]
        dsimp only
        rw [hcf]
      suffices hrest : ∃ c, Comes (Config.next p)
          ⟨finished p s' f (actAt s₀ id sym.ip) r, tasks⟩ c ∧ Left p s₀ q tasks v c by
        obtain ⟨c, hcomes, hleft⟩ := hrest
        exact ⟨c, .head hfirstStep (.head hsecond hcomes), hleft⟩
      cases r with
      | error e => exact ⟨_, .refl, hinside.finished hleaf sym.ip e tasks v⟩
      | ok m =>
          cases hturned m rfl with
          | go htracks => exact ih htracks hrun
          | ret _ hfits =>
              cases hrun
              refine ⟨_, .refl, .inr ⟨_, _, rfl, hinside.leave hleaf sym.ip, fun w hw => ?_⟩⟩
              cases hw
              exact hfits

/-- **The start of the call.** -/
theorem tracks_start (hs : Settled f) (hargs : f.usesArgs = false) :
    Tracks p s₀ f id parent q (symStart f) (pushed s₀ f id parent q) := by
  have hpushed : argArray f s₀.sp q.args { s₀ with
      scopes := s₀.scopes ++ [newScope s₀ id parent q]
      vals := s₀.vals ++ f.init
      frames := [] :: s₀.frames
      stack := argRegs f s₀.sp q.args s₀.stack
      sp := s₀.sp + f.nslots
      clock := s₀.clock + 1 } = pushed s₀ f id parent q := rfl
  rw [argArray, hargs] at hpushed
  rw [← hpushed]
  constructor
  case toInside =>
    refine ⟨rfl, rfl, rfl, fun r hr => ?_, rfl, rfl, rfl, rfl, rfl, le_rfl, Nat.le_succ _, ?_, ?_⟩
    · exact if_neg fun h => absurd h.1 (Nat.not_le.2 hr)
    · exact List.take_left
    · exact List.length_append
  case regs =>
    intro r hr
    have hlt : r < f.nregs := Nat.lt_of_not_le fun hle => hs.fresh r hle hr
    have hin : s₀.sp ≤ s₀.sp + r ∧ s₀.sp + r < s₀.sp + f.nregs := by omega
    change Fits p.host s₀.mem.heap q.args (if 4 ≤ r ∧ r < f.nregs then .arg (r - 4) else .c .undef)
      (argRegs f s₀.sp q.args s₀.stack (s₀.sp + r))
    rw [argRegs, if_pos hin]
    by_cases h4 : 4 ≤ r
    · have hsub : s₀.sp + r - (s₀.sp + 4) = r - 4 := by omega
      rw [if_pos ⟨h4, hlt⟩, if_pos (by omega), hsub]
      rfl
    · rw [if_neg fun h => h4 h.1, if_neg (by omega)]
      rfl
  case slots => exact List.length_map _
  case vars =>
    intro slot v hv
    obtain ⟨u, hu, hv⟩ := Option.map_eq_some_iff.1 ((List.getElem?_map ..).symm.trans hv)
    cases u with
    | none => exact .inl hv.symm
    | some w =>
        refine .inr ⟨w, ?_, hv ▸ rfl⟩
        exact (List.getElem?_append_right (Nat.le_add_right _ _)).trans (by simpa using hu)
  case declared =>
    intro slot w hw
    exact ⟨w, (List.getElem?_append_right (Nat.le_add_right _ _)).trans (by simpa using hw)⟩

end Call

/-! ## Summaries -/

/-- The same value, or zeros of different sign. -/
def Alike (v w : Val) : Prop := v = w ∨ ∃ a b, v = .num (.fin a 0) ∧ w = .num (.fin b 0)

theorem eq_or_zeros {x y : Double} (h : x.eq y = true) :
    x = y ∨ ∃ a b, x = .fin a 0 ∧ y = .fin b 0 := by
  rcases x with - | a | ⟨a, m⟩ <;> rcases y with - | b | ⟨b, n⟩
  · cases h
  · cases h
  · cases h
  · cases h
  · cases a <;> cases b <;> first | exact .inl rfl | cases h
  · cases a <;> cases h
  · cases h
  · cases b <;> cases h
  · rw [Double.eq, Double.cmp_fin, beq_iff_eq, Option.some_inj, Int.compare_eq_eq] at h
    rcases eq_or_ne a b with rfl | hne
    · exact .inl (congrArg _ (Double.signed_inj.1 h))
    · have hzero : m = 0 ∧ n = 0 := by
        cases a <;> cases b <;> first | exact absurd rfl hne | skip
        all_goals
          simp only [Double.signed, Bool.false_eq_true, if_false, if_true] at h
          omega
      exact .inr ⟨a, b, by rw [hzero.1], by rw [hzero.2]⟩

/-- `===` only confuses the zeros. -/
theorem alike_of_strictEq {v w : Val} (h : strictEq v w = true) : Alike v w := by
  cases v <;> cases w <;> first
    | exact .inl rfl
    | cases h
    | exact .inl (congrArg _ (of_decide_eq_true h))
    | skip
  rcases eq_or_zeros h with rfl | ⟨a, b, rfl, rfl⟩
  · exact .inl rfl
  · exact .inr ⟨a, b, rfl, rfl⟩

theorem Alike.symm {v w : Val} (h : Alike v w) : Alike w v :=
  h.imp Eq.symm fun ⟨a, b, hv, hw⟩ => ⟨b, a, hw, hv⟩

/-- **What the two runs agree on** is what the summary gives. -/
theorem summaryOf_apply {t f : Av} {sm : Summary} (hsm : summaryOf t f = some sm) {h : Host}
    {heap : List Obj} {args : List Val} {w : Val}
    (hw : Fits h heap args (if truthy (args.getD 0 .undef) then t else f) w) :
    Alike w (sm.apply (args.getD 0 .undef)) := by
  unfold summaryOf at hsm
  split at hsm
  · cases hsm
    refine .inl ?_
    rw [Summary.apply]
    cases ht : truthy (args.getD 0 .undef) <;> rw [ht] at hw <;> exact hw
  · cases hsm
    refine .inl ?_
    rw [Summary.apply]
    cases ht : truthy (args.getD 0 .undef) <;> rw [ht] at hw <;> exact hw
  · next a b =>
      obtain ⟨heq, hsm⟩ := Option.ite_none_right_eq_some.1 hsm
      cases hsm
      cases ht : truthy (args.getD 0 .undef) <;> rw [ht] at hw <;> cases hw
      · exact (alike_of_strictEq heq).symm
      · exact .inl rfl
  · cases hsm
    refine .inl ?_
    cases ht : truthy (args.getD 0 .undef) <;> rw [ht] at hw <;> exact hw
  · cases hsm

theorem symRun_summary (f : CFunc) (sm : Option Summary) (assume : Bool) (n : ℕ) (s : Sym) :
    symRun { f with summary := sm } assume n s = symRun f assume n s := by
  induction n generalizing s with
  | zero => rfl
  | succ n ih =>
      rw [symRun, symRun]
      simp only [ih]
      rfl

theorem summarize_summary (f : CFunc) (sm : Option Summary) :
    summarize { f with summary := sm } = summarize f := by
  have hstart : symStart { f with summary := sm } = symStart f := rfl
  simp only [summarize, summarizeCase, symRun_summary, hstart]

/-- A compiled function has the summary of its code. -/
theorem finishFunc_summary (f : CFunc) : (finishFunc f).summary = summarize (finishFunc f) :=
  (summarize_summary _ _).symm

/-- **A summary stands for the call.**  Where `run` answers with the summary of a function, the
run of its body would have come back with the same value, up to the sign of a zero, and with nothing
changed that anything else can see; or it would have thrown, met a fault, or panicked. -/
theorem summary_stands (p : Program) (s : State) (f : CFunc) (id entry scope : ℕ) (q : Request)
    (sm : Summary) (tasks : List Task)
    (hfn : closureAt s.mem.heap q.fn = some (entry, scope, some id))
    (hdepth : s.frames.length < MAX_DEPTH) (hf : s.cfuncs[id]? = some f)
    (hsum : f.summary = summarize f) (hsm : f.summary = some sm) (hs : Settled f) :
    enter p s q = .back s (.ok (sm.apply (q.args.head?.getD .undef))) ∧
    ∃ c, Comes (Config.next p) ⟨enterBody s f id scope q, tasks⟩ c ∧
      (c = ⟨.crash, tasks⟩ ∨ ∃ s' r, c = ⟨.back s' r, tasks⟩ ∧ Unseen s s' ∧
        ∀ w, r = .ok w → Alike w (sm.apply (q.args.head?.getD .undef))) := by
  have hfirst : q.args.head?.getD .undef = q.args.getD 0 .undef := by cases q.args <;> rfl
  constructor
  · rw [enter, hfn]
    dsimp only
    have hcode : codeOf p s q.fn entry scope (some id) = .ok (id, s) := rfl
    rw [if_neg (Nat.not_le.2 hdepth), hcode]
    dsimp only
    rw [hf]
    dsimp only
    rw [hsm]
  · rw [hfirst]
    rw [hsum] at hsm
    unfold summarize at hsm
    split at hsm
    · cases hsm
    · next hleaf =>
        obtain ⟨hargs, hleaf⟩ := Bool.or_eq_false_iff.1 (Bool.eq_false_iff.2 hleaf)
        rw [Bool.not_eq_false'] at hleaf
        obtain ⟨t, ht, hsm⟩ := Option.bind_eq_some_iff.1 hsm
        obtain ⟨e, he, hsm⟩ := Option.bind_eq_some_iff.1 hsm
        have hstart : Tracks p s f id scope q (symStart f) (pushed s f id scope q) :=
          tracks_start hs hargs
        obtain ⟨c, hcomes, hleft⟩ : ∃ c, Comes (Config.next p) ⟨enterBody s f id scope q, tasks⟩ c ∧
            Left p s q tasks (if truthy (q.args.getD 0 .undef) then t else e) c := by
          cases hb : truthy (q.args.getD 0 .undef) with
          | true => exact symRun_fits hs hleaf hf hb hstart ht
          | false => exact symRun_fits hs hleaf hf hb hstart he
        refine ⟨c, hcomes, hleft.imp_right ?_⟩
        rintro ⟨s', r, hc, hunseen, hfits⟩
        exact ⟨s', r, hc, hunseen, fun w hw => summaryOf_apply hsm (hfits w hw)⟩

/-- The code of a function that negates its argument. -/
def negating : CFunc where
  init := []
  sorted := []
  parent := none
  nregs := 5
  nslots := 6
  usesArgs := false
  ops := [.unary 5 .logicalNot 4, .ret 5]
  consts := []
  lists := []
  pcs := []
  entryIp := 0
  leaf := true
  summary := some .not

theorem negating_settled : Settled negating where
  declared op hop slot hslot := by
    rcases List.mem_pair.1 hop with rfl | rfl <;> cases hslot
  fresh r hr h := by
    have hr : 5 ≤ r := hr
    have hdest : ¬negating.code.Live 1 r ∨ r = 5 := by
      by_cases h5 : r = 5
      · exact .inr h5
      · refine .inl fun h => ?_
        cases h with
        | read hop _ hmem =>
            cases hop
            exact h5 (List.mem_singleton.1 hmem)
        | feed hop hd =>
            cases hop
            cases hd
        | pass hop hj =>
            cases hop
            rcases hj with ⟨op, hop, ⟨hfalls, -⟩ | htgt⟩ | ⟨op, -, -, hpc⟩
            · cases hop
              cases hfalls
            · cases hop
              cases htgt
            · cases hpc
    cases h with
    | read hop _ hmem =>
        cases hop
        have h4 : r = 4 := List.mem_singleton.1 hmem
        omega
    | feed hop _ _ hmem =>
        cases hop
        have h4 : r = 4 := List.mem_singleton.1 hmem
        omega
    | pass hop hj hd hlive =>
        cases hop
        rcases hj with ⟨op, hop, ⟨-, rfl⟩ | htgt⟩ | ⟨op, -, -, hpc⟩
        · rcases hdest with hdead | rfl
          · exact hdead hlive
          · exact hd rfl
        · cases hop
          cases htgt
        · cases hpc

/-- A state with a closure of the function. -/
def called : State :=
  { State.init idling with
    mem := ⟨[.closure 0 ROOT .undef .undef (some 0)], [], [], []⟩
    cfuncs := [negating] }

theorem summary_stands_negating :
    ∃ c, Comes (Config.next idling)
        ⟨enterBody called negating 0 ROOT ⟨0, .undef, [.bool true]⟩, []⟩ c ∧
      (c = ⟨.crash, []⟩ ∨ ∃ s' r, c = ⟨.back s' r, []⟩ ∧ Unseen called s' ∧
        ∀ w, r = .ok w → Alike w (.bool false)) :=
  (summary_stands idling called negating 0 0 ROOT ⟨0, .undef, [.bool true]⟩ .not [] rfl (by decide)
    rfl (by decide +kernel) rfl negating_settled).2

end Interp
end Lunar
