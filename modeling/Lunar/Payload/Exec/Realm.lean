/-
# What the register code acts on

An op does one of three things: it performs an act on values, scopes and heap
(`Act`), it tests a register, or it leaves.  `shape` reads an op so.  The values,
the scopes, the heap and everything that a call may do are a parameter, `Realm`:
the code only sees outcomes of acts.  `Same` compares two heaps as far as given
roots can tell, up to the names of objects and up to objects that the roots do not
reach; the laws say that acts respect it, that a pure op leaves nothing behind but
its result, that an array can be allocated later if nothing has seen it, and that
`ApplyL` is an `Apply` to the two arrays it did not make.
-/

import Mathlib.Logic.Function.Basic
import Lunar.Payload.Exec.Optimize

namespace Lunar
namespace Exec

/-- What an op does apart from the registers it names. -/
inductive Act
  | num (n : F64)
  | const (c : ℕ)
  | move
  | varS (hops slot key : ℕ)
  | varD (key : ℕ)
  | localS (slot : ℕ)
  | localD (key : ℕ)
  | this
  | callee
  | scopeRef
  | excRec
  | exc
  | global
  | runtime (r : Runtime)
  | name (c : ℕ)
  | frameField (id : ℕ)
  | scopeField (id : ℕ)
  | member
  | memberK (c : ℕ)
  | call (this : Bool)
  | new
  | apply
  | applyL
  | construct
  | unary (op : UnaryOperator)
  | binary (op : BinaryOperator)
  | binK (op : BinaryOperator) (n : F64)
  | kBin (op : BinaryOperator) (n : F64)
  | array
  | object
  | closure (entry : ℕ)
  | keys
  | setProp
  | setVarS (hops slot key : ℕ)
  | setVarD (key : ℕ)
  | decl (slot : ℕ)
  | setFrameField (id : ℕ)
  | setScopeField (id : ℕ)
  | setCatch
  | setFinally
  | setVarK (hops slot key : ℕ) (n : F64)
  | cmpK (op : BinaryOperator) (n : F64)
  | cmpVarK (hops slot key : ℕ) (op : BinaryOperator) (n : F64)
  deriving DecidableEq, Repr

/-- The acts of the ops that `op_pure` names. -/
def Act.pure : Act → Bool
  | .num _ | .const _ | .move | .this | .callee | .localS _ | .scopeRef | .excRec
  | .frameField _ | .global | .array => true
  | _ => false

/-- The acts of the ops that `op_safe` names. -/
def Act.safe (a : Act) : Bool :=
  a.pure || match a with
    | .localD _ | .scopeField _ | .closure _ | .decl _ | .setFrameField _ | .setScopeField _
    | .setCatch | .setFinally => true
    | _ => false

/-- How `Jf`, `Jt` and `Jn` look at a register. -/
inductive Test
  | falsy | truthy | present
  deriving DecidableEq, Repr

/-- An op read as what it does: the registers of an act in order, and its
destination. -/
inductive Shape
  | act (a : Act) (args : List ℕ) (d : Option ℕ)
  | test (t : Test) (c tgt : ℕ)
  | goto (tgt : ℕ)
  | br (c : ℕ) (when : Bool) (thn els : ℕ)
  | cmp (a : Act) (args : List ℕ) (when : Bool) (thn els : ℕ)
  | jump (v : ℕ)
  | ret (v : ℕ)
  | throw (v : ℕ)
  | fail (why pc : ℕ)
  deriving DecidableEq, Repr

def shape (lists : List ℕ) : Op → Shape
  | .num d n => .act (.num n) [] d
  | .const d c => .act (.const c) [] d
  | .move d s => .act .move [s] d
  | .varS d hops slot key => .act (.varS hops slot key) [] d
  | .varD d key => .act (.varD key) [] d
  | .localS d slot => .act (.localS slot) [] d
  | .localD d key => .act (.localD key) [] d
  | .this d => .act .this [] d
  | .callee d => .act .callee [] d
  | .scopeRef d => .act .scopeRef [] d
  | .excRec d => .act .excRec [] d
  | .exc d => .act .exc [] d
  | .global d => .act .global [] d
  | .runtime d r => .act (.runtime r) [] d
  | .name d c => .act (.name c) [] d
  | .frameField d id => .act (.frameField id) [] d
  | .scopeField d id => .act (.scopeField id) [] d
  | .member d o k => .act .member [o, k] d
  | .memberK d o c => .act (.memberK c) [o] d
  | .call d f this a n =>
      if this = NOSLOT then .act (.call false) (f :: slice lists a n) d
      else .act (.call true) (f :: this :: slice lists a n) d
  | .new d f a n => .act .new (f :: slice lists a n) d
  | .apply d f t a => .act .apply [f, t, a] d
  | .applyL d f t th a n => .act .applyL (f :: t :: th :: slice lists a n) d
  | .construct d f a => .act .construct [f, a] d
  | .unary d op a => .act (.unary op) [a] d
  | .binary d op a b => .act (.binary op) [a, b] d
  | .binK d op a n => .act (.binK op n) [a] d
  | .kBin d op n b => .act (.kBin op n) [b] d
  | .array d a n => .act .array (slice lists a n) d
  | .object d a n => .act .object (slice lists a n) d
  | .closure d entry name arity => .act (.closure entry) [name, arity] d
  | .keys d a => .act .keys [a] d
  | .jf c tgt => .test .falsy c tgt
  | .jt c tgt => .test .truthy c tgt
  | .jn c tgt => .test .present c tgt
  | .j tgt => .goto tgt
  | .setProp o k v => .act .setProp [o, k, v] none
  | .setVarS hops slot key v => .act (.setVarS hops slot key) [v] none
  | .setVarD key v => .act (.setVarD key) [v] none
  | .decl slot v => .act (.decl slot) [v] none
  | .setFrameField id v => .act (.setFrameField id) [v] none
  | .setScopeField id v => .act (.setScopeField id) [v] none
  | .setCatch v => .act .setCatch [v] none
  | .setFinally v => .act .setFinally [v] none
  | .jump v => .jump v
  | .ret v => .ret v
  | .throw v => .throw v
  | .br c w thn els => .br c w thn els
  | .brK a op n w thn els => .cmp (.cmpK op n) [a] w thn els
  | .brVarK hops slot key op n w thn els => .cmp (.cmpVarK hops slot key op n) [] w thn els
  | .setVarK hops slot key n => .act (.setVarK hops slot key n) [] none
  | .fail why pc => .fail why pc

/-- The outcome of an act: a result, a thrown value or a fault. -/
inductive Out (V W E : Type)
  | ok (v : V) (w : W)
  | throw (v : V) (w : W)
  | fault (e : E)

/-- What a throw or a return comes to: a place named by a pc, or the end. -/
inductive Unwind (V W E : Type)
  | goto (pc : ℕ) (w : W)
  | leave (v : V) (w : W)
  | fault (e : E)

section Relations

variable {V W E : Type} (P Q : V → W → V → W → Prop) (T : W → W → Prop)

/-- Outcomes of one kind, with related results. -/
inductive Out.Rel : Out V W E → Out V W E → Prop
  | ok {v w v' w'} : P v w v' w' → Out.Rel (.ok v w) (.ok v' w')
  | throw {v w v' w'} : Q v w v' w' → Out.Rel (.throw v w) (.throw v' w')
  | fault (e) : Out.Rel (.fault e) (.fault e)

inductive Unwind.Rel : Unwind V W E → Unwind V W E → Prop
  | goto {w w'} (pc) : T w w' → Unwind.Rel (.goto pc w) (.goto pc w')
  | leave {v w v' w'} : P v w v' w' → Unwind.Rel (.leave v w) (.leave v' w')
  | fault (e) : Unwind.Rel (.fault e) (.fault e)

end Relations

/-- One more root. -/
def adjoin {ι : Type} {V : Type} (v : V) (ρ : ι → V) : Option ι → V
  | none => v
  | some i => ρ i

/-- Values, scopes and heap, and what they promise.  `raise` is what the catch
field of the scope makes of a thrown value, `ret` what the finally field makes of
a returned one; `pcOf` is the address that a value stands for. -/
structure Realm where
  V : Type
  W : Type
  E : Type
  act : Act → List V → W → Out V W E
  truthy : V → Bool
  nullish : V → Bool
  pcOf : V → Option ℕ
  raise : V → W → Unwind V W E
  ret : V → W → Unwind V W E
  /-- The roots `ρ` in heap `w` and `ρ'` in `w'` cannot be told apart. -/
  Same : {ι : Type} → (ι → V) → W → (ι → V) → W → Prop
  reindex : ∀ {ι κ : Type} {ρ ρ' : ι → V} {w w'} (f : κ → ι),
    Same ρ w ρ' w' → Same (fun k => ρ (f k)) w (fun k => ρ' (f k)) w'
  symm : ∀ {ι : Type} {ρ ρ' : ι → V} {w w'}, Same ρ w ρ' w' → Same ρ' w' ρ w
  trans : ∀ {ι : Type} {ρ ρ' ρ'' : ι → V} {w w' w''},
    Same ρ w ρ' w' → Same ρ' w' ρ'' w'' → Same ρ w ρ'' w''
  truthy_congr : ∀ {ι : Type} {ρ ρ' : ι → V} {w w'}, Same ρ w ρ' w' →
    ∀ i, truthy (ρ i) = truthy (ρ' i)
  nullish_congr : ∀ {ι : Type} {ρ ρ' : ι → V} {w w'}, Same ρ w ρ' w' →
    ∀ i, nullish (ρ i) = nullish (ρ' i)
  pcOf_congr : ∀ {ι : Type} {ρ ρ' : ι → V} {w w'}, Same ρ w ρ' w' →
    ∀ i, pcOf (ρ i) = pcOf (ρ' i)
  raise_congr : ∀ {ι : Type} {ρ ρ' : ι → V} {w w'}, Same ρ w ρ' w' → ∀ i,
    Unwind.Rel (fun v w v' w' => Same (adjoin v ρ) w (adjoin v' ρ') w')
      (fun w w' => Same ρ w ρ' w') (raise (ρ i) w) (raise (ρ' i) w')
  ret_congr : ∀ {ι : Type} {ρ ρ' : ι → V} {w w'}, Same ρ w ρ' w' → ∀ i,
    Unwind.Rel (fun v w v' w' => Same (adjoin v ρ) w (adjoin v' ρ') w')
      (fun w w' => Same ρ w ρ' w') (ret (ρ i) w) (ret (ρ' i) w')
  act_congr : ∀ {ι : Type} {ρ ρ' : ι → V} {w w'}, Same ρ w ρ' w' → ∀ a (is : List ι),
    Out.Rel (fun v w v' w' => Same (adjoin v ρ) w (adjoin v' ρ') w')
      (fun v w v' w' => Same (adjoin v ρ) w (adjoin v' ρ') w')
      (act a (is.map ρ) w) (act a (is.map ρ') w')
  /-- A pure act has a result, and without it the heap is as before. -/
  act_pure : ∀ {ι : Type} {ρ : ι → V} {w}, Same ρ w ρ w → ∀ {a : Act}, a.pure = true →
    ∀ is : List ι, ∃ v w', act a (is.map ρ) w = .ok v w' ∧ Same ρ w' ρ w
  act_safe : ∀ {a : Act} {vs w v w'}, a.safe = true → act a vs w ≠ .throw v w'
  /-- An act that is not given a fresh array does the same before it is made; where
  the act throws, the array is lost. -/
  delay : ∀ {ι : Type} {ρ : ι → V} {w}, Same ρ w ρ w → ∀ (is : List ι) {v w₁},
    act .array (is.map ρ) w = .ok v w₁ → ∀ a (js : List ι),
    Out.Rel (fun u w₂ u' w₂' => ∃ v' w₃, act .array (is.map ρ) w₂ = .ok v' w₃ ∧
        Same (adjoin u (adjoin v' ρ)) w₃ (adjoin u' (adjoin v ρ)) w₂')
      (fun u w₂ u' w₂' => Same (adjoin u ρ) w₂ (adjoin u' ρ) w₂')
      (act a (js.map ρ) w) (act a (js.map ρ) w₁)
  /-- `ApplyL` does what `Apply` does with the arrays it stands for. -/
  applyL : ∀ {ι : Type} {ρ : ι → V} {w}, Same ρ w ρ w → ∀ (f t th : ι) (is : List ι) {v w₁ o w₂},
    act .array (is.map ρ) w = .ok v w₁ → act .array [ρ th, v] w₁ = .ok o w₂ →
    Out.Rel (fun u w u' w' => Same (adjoin u ρ) w (adjoin u' ρ) w')
      (fun u w u' w' => Same (adjoin u ρ) w (adjoin u' ρ) w')
      (act .applyL (ρ f :: ρ t :: ρ th :: is.map ρ) w) (act .apply [ρ f, ρ t, o] w₂)

variable (R : Realm)

/-- An effect: an act with its operands in the heap where it is performed. -/
structure Event where
  act : Act
  args : List R.V
  w : R.W

/-- Why a run ends without a value. -/
inductive Fault (E : Type)
  | realm (e : E)
  | badJump (pc : ℕ)
  | nonAddress
  | fail (why pc : ℕ)
  | offCode
  deriving DecidableEq, Repr

/-- How a run ends. -/
inductive End
  | returned (v : R.V) (w : R.W)
  | thrown (v : R.V) (w : R.W)
  | fault (e : Fault R.E)

structure State where
  ip : ℕ
  regs : ℕ → R.V
  w : R.W

/-- Where an op goes: on, to a target, to the place of a pc (of the handler after a
throw or by a jump), or to an end. -/
inductive Next
  | fall (regs : ℕ → R.V) (w : R.W)
  | branch (t : ℕ) (regs : ℕ → R.V) (w : R.W)
  | caught (pc : ℕ) (regs : ℕ → R.V) (w : R.W)
  | jump (pc : ℕ) (regs : ℕ → R.V) (w : R.W)
  | done (o : End R)

variable {R}

/-- A write to the destination of an op, if it has one. -/
def store {V : Type} (d : Option ℕ) (v : V) (regs : ℕ → V) : ℕ → V :=
  match d with
  | some d => Function.update regs d v
  | none => regs

/-- An act is an effect unless it is pure. -/
def emit (a : Act) (args : List R.V) (w : R.W) : List (Event R) :=
  if a.pure then [] else [⟨a, args, w⟩]

def Test.holds (R : Realm) : Test → R.V → Bool
  | .falsy, v => !R.truthy v
  | .truthy, v => R.truthy v
  | .present, v => !R.nullish v

def unwind (fin : R.V → R.W → End R) (next : ℕ → R.W → Next R) : Unwind R.V R.W R.E → Next R
  | .goto pc w => next pc w
  | .leave v w => .done (fin v w)
  | .fault e => .done (.fault (.realm e))

/-- The loop of `exec` on a thrown value. -/
def throwNext (regs : ℕ → R.V) (v : R.V) (w : R.W) : Next R :=
  unwind .thrown (fun pc w => .caught pc regs w) (R.raise v w)

/-- One turn of the loop of `ops`, without the counter of steps. -/
def perform (sh : Shape) (regs : ℕ → R.V) (w : R.W) : List (Event R) × Next R :=
  match sh with
  | .act a args d =>
      (emit a (args.map regs) w, match R.act a (args.map regs) w with
        | .ok v w => .fall (store d v regs) w
        | .throw v w => throwNext regs v w
        | .fault e => .done (.fault (.realm e)))
  | .test t c tgt => ([], if t.holds R (regs c) then .branch tgt regs w else .fall regs w)
  | .goto tgt => ([], .branch tgt regs w)
  | .br c when thn els => ([], .branch (if R.truthy (regs c) = when then thn else els) regs w)
  | .cmp a args when thn els =>
      (emit a (args.map regs) w, match R.act a (args.map regs) w with
        | .ok v w => .branch (if R.truthy v = when then thn else els) regs w
        | .throw v w => throwNext regs v w
        | .fault e => .done (.fault (.realm e)))
  | .jump v => ([], match R.pcOf (regs v) with
      | some pc => .jump pc regs w
      | none => .done (.fault .nonAddress))
  | .ret v => ([], unwind .returned (fun pc w => .jump pc regs w) (R.ret (regs v) w))
  | .throw v => ([], throwNext regs (regs v) w)
  | .fail why pc => ([], .done (.fault (.fail why pc)))

/-- `ip_of`: the place of a pc.  The pcs of a function are distinct. -/
def ipOf (pcs : List (ℕ × ℕ)) (pc : ℕ) : Option ℕ :=
  (pcs.find? fun x => x.1 = pc).map (·.2)

def enter (pcs : List (ℕ × ℕ)) (pc : ℕ) (regs : ℕ → R.V) (w : R.W) : State R ⊕ End R :=
  match ipOf pcs pc with
  | some ip => .inl ⟨ip, regs, w⟩
  | none => .inr (.fault (.badJump pc))

def Next.settle (pcs : List (ℕ × ℕ)) (ip : ℕ) : Next R → State R ⊕ End R
  | .fall regs w => .inl ⟨ip + 1, regs, w⟩
  | .branch t regs w => .inl ⟨t, regs, w⟩
  | .caught pc regs w => enter pcs pc regs w
  | .jump pc regs w => enter pcs pc regs w
  | .done o => .inr o

/-- What the code does at a state. -/
def Code.next (c : Code) (s : State R) : List (Event R) × Next R :=
  match c.ops[s.ip]? with
  | none => ([], .done (.fault .offCode))
  | some op => perform (shape c.lists op) s.regs s.w

/-- `Interp::exec`, one op at a time. -/
def Code.step (R : Realm) (c : Code) (s : State R) : List (Event R) × (State R ⊕ End R) :=
  ((c.next s).1, (c.next s).2.settle c.pcs s.ip)

end Exec
end Lunar
