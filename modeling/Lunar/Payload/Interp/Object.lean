/-
# Objects

`payload/exec.rs`: what the interpreter does with the heap: `get`, `set`, `has`, `keys`,
`list_of`, `construct`, `call` and `runtime_value`.  A property may have a getter, and
most built-ins call their arguments, so these are computations that call out: a call
asks for the function of a closure to be run.

The built-ins themselves are a parameter (`Host`).  They act on the heap and on what
stands beside it, and they run functions only by calling them; the one closures they make
are those of the root and of the ghost scope (`Tame`).  A chain of bound functions is
followed to the depth `stack`.
-/

import Lunar.Lib.Calls
import Lunar.Payload.Interp.Code
import Lunar.Payload.Interp.Names

namespace Lunar
namespace Interp

open Lib (Double)
open Exec (Runtime UnaryOperator BinaryOperator)
open Fold (toInt32 ofI32)

/-- The scope of closures that no function has made. -/
def ROOT : ℕ := 0

/-- The scope of the variables that nothing declares. -/
def GHOST : ℕ := 1

/-- `Traced`: a call of an opaque value. -/
structure Traced where
  callee : ℕ
  this : Val
  args : List Val
  result : ℕ
  deriving DecidableEq, Repr

/-- The part of `Interp` that is not about running functions. -/
structure Mem where
  heap : List Obj
  trace : List Traced
  runtime : List (ℕ × Val)
  globals : List (String × Val)
  deriving DecidableEq, Repr

/-- A call of the function of the closure `fn`. -/
structure Request where
  fn : ℕ
  this : Val
  args : List Val
  deriving DecidableEq, Repr

abbrev MemM := Lib.CallM Mem Request (Res Val) Err

/-- The entry, the scope and the code of the closure at `id`. -/
def closureAt (heap : List Obj) (id : ℕ) : Option (ℕ × ℕ × Option ℕ) :=
  match heap[id]? with
  | some (.closure entry scope _ _ code) => some (entry, scope, code)
  | _ => none

/-- Every closure of the second memory is one of the first, or one of the root or of the
ghost scope that has not run. -/
def Tame (m m' : Mem) : Prop :=
  ∀ id c, closureAt m'.heap id = some c →
    closureAt m.heap id = some c ∨ c.2.1 ≤ GHOST ∧ c.2.2 = none

instance : IsPreorder Mem Tame where
  refl _ _ _ h := .inl h
  trans a b c hab hbc id x h := by
    rcases hbc id x h with h | h
    · exact hab id x h
    · exact .inr h

/-- What the interpreter is given: its settings, the power of the library, and the
built-ins. -/
structure Host where
  stack : ℕ
  lenient : Bool
  pow : Double → Double → Double
  /-- `{n:?}` of a built-in. -/
  debug : Nat → String
  /-- `native`. -/
  native : Nat → Val → List Val → MemM Val
  /-- `construct` of `RegExp` and of `Promise`. -/
  build : Nat → List Val → MemM Val
  native_tame : ∀ n this args, (native n this args).Follows Tame
  build_tame : ∀ n args, (build n args).Follows Tame

/-! ## Cells -/

/-- `alloc`. -/
def alloc (o : Obj) : MemM Val :=
  modifyGet fun m => (.obj m.heap.length, { m with heap := m.heap ++ [o] })

/-- A cell in place of the one at `id`. -/
def setCell (id : ℕ) (o : Obj) : MemM Unit := modify fun m => { m with heap := m.heap.set id o }

/-- `opaque`. -/
def opaqueObj : MemM Val := alloc (.opaque_ [])

def onHeap {α : Type} (f : List Obj → Res α) : MemM α := Lib.CallM.reading fun m => f m.heap

/-- `self.heap[id]`. -/
def cellM (id : ℕ) : MemM Obj := onHeap fun heap => cell heap id

def failWith {α : Type} (what : String) : MemM α := throw (.fault (.unsupported what))

/-- `type_error`. -/
def typeError {α : Type} (msg : String) : MemM α := do
  let v ← alloc (.error "TypeError" msg)
  throw (.throw v)

/-- The value of a key in a list. -/
def lookup {κ : Type} [DecidableEq κ] (key : κ) (list : List (κ × Val)) : Option Val :=
  (list.find? (·.1 = key)).map (·.2)

/-- `put_field`, and the same on properties. -/
def put {κ : Type} [DecidableEq κ] (key : κ) (v : Val) : List (κ × Val) → List (κ × Val)
  | [] => [(key, v)]
  | (k, x) :: rest => if k = key then (k, v) :: rest else (k, x) :: put key v rest

/-- `host_global`. -/
def hostGlobal (name : String) : MemM Val := do
  let m ← get
  match lookup name m.globals with
  | some v => return v
  | none => do
    let v ← opaqueObj
    modify fun m => { m with globals := m.globals ++ [(name, v)] }
    return v

/-! ## Keys -/

/-- A key of decimal digits, without leading zeros, below `2 ^ 32 - 1`. -/
def indexOfStr (s : String) : Option ℕ :=
  let cs := s.toList
  if cs = [] || 10 < cs.length || (1 < cs.length && cs.head? = some '0') ||
      !cs.all Double.isDigit then none
  else if Double.ofDigits cs < 4294967295 then some (Double.ofDigits cs) else none

/-- `index_of_key`. -/
def indexOfKey : Val → Option ℕ
  | .num n => if isIndex n && n.lt (.ofNat 4294967295) then some (n.toU 64) else none
  | .str s => indexOfStr s
  | _ => none

section Host

variable (h : Host)

def keyM (k : Val) : MemM String := onHeap fun heap => keyStr heap h.stack k

def numM (v : Val) : MemM Double := onHeap fun heap => toNum heap h.stack v

/-- `key_str(k).unwrap_or("?")`. -/
def keyName (k : Val) : MemM String := onHeap fun heap =>
  match keyStr heap h.stack k with
  | .error .panic => .error .panic
  | r => .ok (r.toOption.getD "?")

/-! ## Calls -/

/-- `call`; the depth is that of bound functions. -/
def callTo : ℕ → Val → Val → List Val → MemM Val
  | 0, _, _, _ => throw .panic
  | stack + 1, .obj id, this, args => do
    match ← cellM id with
    | .closure .. => Lib.CallM.request ⟨id, if this.nullish then .global else this, args⟩
    | .bound target bt ba => callTo stack target bt (ba ++ args)
    | .opaque_ _ => do
      let m ← get
      let result ← opaqueObj
      modify fun m' =>
        { m' with trace := m'.trace ++ [⟨id, this, args, m.heap.length⟩] }
      return result
    | _ => typeError "value is not a function"
  | _ + 1, .nat n, this, args => h.native n this args
  | _ + 1, _, _, _ => typeError "value is not a function"

/-- `call`, and `call_args` on arguments that have been collected. -/
def call (f this : Val) (args : List Val) : MemM Val := callTo h h.stack f this args

/-! ## Reading properties -/

/-- `get` on a plain object. -/
def getPlain (o : Val) (props : List (String × Val)) (ks : String) : MemM Val := do
  match lookup ks props with
  | some (.obj aid) => do
    match ← cellM aid with
    | .accessor g _ => if g = .undef then return .undef else call h g o []
    | _ => return .obj aid
  | some v => return v
  | none =>
      return match ks with
        | "hasOwnProperty" => .nat .hasOwn
        | "toString" => .nat .toString
        | "valueOf" => .nat .valueOf
        | _ => Val.undef

/-- `get` on an opaque object: a property that is not there is made. -/
def getOpaque (id : ℕ) (props : List (String × Val)) (ks : String) : MemM Val := do
  if ks = "then" then return .undef
  else
    match lookup ks props with
    | some v => return v
    | none => do
      let child ← opaqueObj
      setCell id (.opaque_ (props ++ [(ks, child)]))
      return child

/-- A property of an object whose properties are fixed. -/
def getFixed (o : Obj) (ks : String) : Val :=
  match o, ks with
  | .closure .., "apply" | .bound .., "apply" => .nat .apply
  | .closure .., "call" | .bound .., "call" => .nat .call
  | .closure .., "bind" | .bound .., "bind" => .nat .bind
  | .closure _ _ name _ _, "name" => name
  | .closure _ _ _ arity _, "length" => arity
  | .error _ message, "message" => .str message
  | .error name _, "name" => .str name
  | .error .., "toString" | .iter .., "toString" | .regex .., "toString" => .nat .toString
  | .iter .., "next" => .nat .iterNext
  | .promise .., "then" => .nat .then_
  | .promise .., "catch" => .nat .catch_
  | .generator .., "next" => .nat .genNext
  | .generator .., "@@iterator" => .nat .genIter
  | .regex source _ _, "source" => .str source
  | .regex _ flags _, "flags" => .str flags
  | .regex _ flags _, "global" => .bool (flags.contains 'g')
  | .regex _ flags _, "ignoreCase" => .bool (flags.contains 'i')
  | .regex _ flags _, "multiline" => .bool (flags.contains 'm')
  | .regex _ flags _, "sticky" => .bool (flags.contains 'y')
  | .regex _ _ lastIndex, "lastIndex" => .num lastIndex
  | .regex .., "test" => .nat .regexTest
  | .regex .., "exec" => .nat .regexExec
  | _, _ => Val.undef

/-- `get` on an object. -/
def getObj (id : ℕ) (k : Val) : MemM Val := do
  match ← cellM id with
  | .arr items =>
      match indexOfKey k with
      | some i => return items.getD i .undef
      | none => do
        let ks ← keyM h k
        return if ks = "length" then .num (.ofNat items.length) else methodVal ks
  | .plain props => do getPlain h (.obj id) props (← keyM h k)
  | .opaque_ props => do getOpaque id props (← keyM h k)
  | .accessor .. => return .undef
  | o => return getFixed o (← keyM h k)

/-- `get` on a string. -/
def getStr (s : String) (k : Val) : MemM Val := do
  let units := Lib.Text.encodeUtf16 s
  match indexOfKey k with
  | some i => return (units[i]?).elim .undef fun u => .str (Lib.Text.fromUtf16Lossy [u])
  | none => do
    let ks ← keyM h k
    return match ks with
      | "length" => .num (.ofNat units.length)
      | "search" => .nat .search
      | "match" => .nat .match_
      | "replace" => .nat .replace
      | "replaceAll" => .nat .replaceAll
      | _ => methodVal ks

/-- A name of the library, or with `lenient` an unknown value of the host. -/
def known (r : Res Val) (name : String) : MemM Val :=
  match r with
  | .ok v => pure v
  | .error e => if h.lenient then hostGlobal name else throw e

/-- The error of a property of `undefined` or `null`. -/
def nullishError {α : Type} (verb doing : String) (o k : Val) : MemM α := do
  let what := if o = .undef then "undefined" else "null"
  let ks ← keyName h k
  typeError ("Cannot " ++ verb ++ " properties of " ++ what ++ " (" ++ doing ++ " '" ++ ks ++ "')")

/-- `get`. -/
def getProp (o k : Val) : MemM Val := do
  match o with
  | .undef | .null => nullishError h "read" "reading" o k
  | .obj id => getObj h id k
  | .str s => getStr h s k
  | .num _ | .bool _ => do
    return match ← keyM h k with
      | "toString" => .nat .toString
      | "valueOf" => .nat .valueOf
      | "toFixed" => .nat .toFixed
      | _ => .undef
  | .global => do
    let ks ← keyM h k
    known h (global ks) ks
  | .nat n => do
    let ks ← keyM h k
    known h (nativeProp n ks) (h.debug n ++ "." ++ ks)
  | .scope _ => failWith "member read on scope"

/-! ## Writing properties -/

/-- The setter of an accessor among the properties, as `accessor_slot` finds it. -/
def setterOf (heap : List Obj) (o : Obj) (ks : String) : Res (Option Val) :=
  match o with
  | .plain props =>
      match lookup ks props with
      | some (.obj aid) => do
        match ← cell heap aid with
        | .accessor _ set => return some set
        | _ => return none
      | _ => pure none
  | _ => pure none

/-- A vector brought to a length. -/
def resize (items : List Val) (n : ℕ) : List Val :=
  items.take n ++ List.replicate (n - items.length) Val.undef

/-- `set` on an array. -/
def setArr (id : ℕ) (items : List Val) (idx : Option ℕ) (ks : String) (v : Val) : MemM Unit :=
  match idx with
  | some i =>
      if MAX_ARRAY ≤ i then failWith "array index beyond limit"
      else
        let items := if items.length ≤ i then resize items (i + 1) else items
        setCell id (.arr (items.set i v))
  | none =>
      if ks = "length" then
        match v with
        | .num n =>
            if isIndex n && n.toU 64 ≤ MAX_ARRAY then setCell id (.arr (resize items (n.toU 64)))
            else failWith "invalid array length"
        | _ => failWith "invalid array length"
      else failWith "named property on array"

/-- `set` on an object, with the index of the key or its text. -/
def setObj (id : ℕ) (idx : Option ℕ) (ks : String) (v : Val) : MemM Unit := do
  let o ← cellM id
  let name := idx.elim ks fun i => numToStr (.ofNat i)
  match o with
  | .arr items => setArr id items idx ks v
  | .plain props => setCell id (.plain (put name v props))
  | .opaque_ props => setCell id (.opaque_ (put name v props))
  | .error en _ =>
      if idx = none ∧ ks = "message" then
        match v with
        | .str s => setCell id (.error en s)
        | _ => failWith "non-string error message"
      else return ()
  | _ => failWith "property write on function or promise"

/-- `set`. -/
def setProp (o k v : Val) : MemM Unit := do
  match o with
  | .undef | .null => nullishError h "set" "setting" o k
  | .obj id =>
      match indexOfKey k with
      | some i => setObj id (some i) "" v
      | none => do
        let ks ← keyM h k
        let o' ← cellM id
        match ← onHeap fun heap => setterOf heap o' ks with
        | some setter =>
            if setter = .undef then return ()
            else do
              let _ ← call h setter o [v]
        | none => setObj id none ks v
  | .str _ | .num _ | .bool _ => return ()
  | _ => failWith "property write on host value"

/-! ## Other operations -/

/-- `has`. -/
def has (heap : List Obj) (o : Val) (k : String) : Res Bool :=
  match o with
  | .obj id => do
    match ← cell heap id with
    | .arr items =>
        return k = "length" || (indexOfStr k).any (· < items.length) || (method k).isSome
    | .plain props | .opaque_ props => return (lookup k props).isSome
    | _ => return false
  | .global => pure (global k).isOk
  | _ => unsupported "in operator on primitive"

/-- `binary`. -/
def binaryM (op : BinaryOperator) (l r : Val) : MemM Val :=
  onHeap fun heap => binary heap h.stack h.pow (has heap) op l r

/-- `type_of`. -/
def typeOf (heap : List Obj) : Val → Res String
  | .undef => pure "undefined"
  | .null | .global | .scope _ => pure "object"
  | .bool _ => pure "boolean"
  | .num _ => pure "number"
  | .str _ => pure "string"
  | .nat n =>
      pure <|
        if n ∈ [.mathNs, .reflectNs, .arrayProto, .stringProto, .objectProto, .numberProto,
            .regenNs] then "object"
        else "function"
  | .obj id => do
    match ← cell heap id with
    | .closure .. | .bound .. => return "function"
    | _ => return "object"

/-- `Op::Unary`. -/
def unaryM (op : UnaryOperator) (v : Val) : MemM Val :=
  match op with
  | .logicalNot => return .bool !truthy v
  | .unaryNegation => return .num (← numM h v).neg
  | .unaryPlus => return .num (← numM h v)
  | .bitwiseNot => return .num (ofI32 (~~~toInt32 (← numM h v)))
  | .void => return .undef
  | .typeof => do
    let t ← onHeap fun heap => typeOf heap v
    return .str t
  | .delete => failWith "delete"

/-- The text of an index, as a key of an object. -/
def indexText (i : ℕ) : Val := .str (numToStr (.ofNat i))

/-- The keys of an object in the order of a script: the indices, then the others. -/
def orderedKeys (props : List (String × Val)) : List Val :=
  let idx := props.filterMap fun p => (indexOfStr p.1).map fun i => (i, Val.str p.1)
  let named := props.filter fun p => (indexOfStr p.1).isNone
  (idx.mergeSort fun a b => a.1 ≤ b.1).map (·.2) ++ named.map fun p => .str p.1

/-- `keys`. -/
def keysOf (heap : List Obj) : Val → Res (List Val)
  | .obj id => do
    match ← cell heap id with
    | .arr items => return (List.range items.length).map indexText
    | .plain props => return orderedKeys props
    | _ => unsupported "key enumeration of host object"
  | .str s => pure ((List.range (Lib.Text.encodeUtf16 s).length).map indexText)
  | .undef | .null | .num _ | .bool _ => pure []
  | _ => unsupported "key enumeration of host object"

/-- `list_of`. -/
def listOf (v : Val) : MemM (List Val) := do
  match v with
  | .undef | .null => return []
  | .obj id => do
    match ← cellM id with
    | .arr items => return items
    | .plain props =>
        match lookup "length" props with
        | some (.num n) =>
            if isIndex n then
              (List.range (n.toU 64)).mapM fun i => getProp h v (.num (.ofNat i))
            else failWith "apply with non-array arguments"
        | _ => failWith "apply with non-array arguments"
    | _ => failWith "apply with non-array arguments"
  | _ => typeError "CreateListFromArrayLike called on non-object"

/-- The array that `new Array` makes. -/
def newArray : List Val → MemM Val
  | [.num n] =>
      if n.lt .zero || !n.isInt || MAX_ARRAY < n.toU 64 then failWith "invalid array length"
      else alloc (.arr (List.replicate (n.toU 64) .undef))
  | args => alloc (.arr args)

/-- The error that `new Error` and `new TypeError` make. -/
def newError (name : String) (args : List Val) : MemM Val := do
  match args.head? with
  | none | some .undef => alloc (.error name "")
  | some v => do
    let message ← onHeap fun heap => toStr heap h.stack v
    alloc (.error name message)

/-- `construct`. -/
def construct (f : Val) (args : List Val) : MemM Val := do
  match f with
  | .nat .array => newArray args
  | .nat .object => alloc (.plain [])
  | .nat .error => newError h "Error" args
  | .nat .typeError => newError h "TypeError" args
  | .nat .regExp => h.build .regExp args
  | .nat .promise => h.build .promise args
  | .nat .boolean | .nat .number | .nat .string | .nat .date =>
      failWith "boxed primitive construction"
  | .obj id => do
    match ← cellM id with
    | .closure .. => do
      let this ← alloc (.plain [])
      let r ← call h f this args
      return if r.isObj then r else this
    | .opaque_ _ => call h f .undef args
    | _ => typeError "value is not a constructor"
  | _ => typeError "value is not a constructor"

/-- The tag of a value of the virtual machine. -/
def runtimeTag : Runtime → ℕ
  | .global => 0
  | .code => 1
  | .dispatch => 2
  | .metaKey => 3
  | .regenerator => 4
  | .ctx i j => (5 + i * 16 + j) % 256

/-- `runtime_value`. -/
def runtimeValue (r : Runtime) : MemM Val := do
  if r = .regenerator then return .nat .regenNs
  else if !h.lenient then failWith "vm runtime value"
  else do
    let m ← get
    match lookup (runtimeTag r) m.runtime with
    | some v => return v
    | none => do
      let v ← opaqueObj
      modify fun m => { m with runtime := m.runtime ++ [(runtimeTag r, v)] }
      return v

/-- `Op::Name`. -/
def nameM (name : String) : MemM Val := known h (global name) name

/-- The properties of an object literal, from keys and values in turn. -/
def objectProps : List Val → List (String × Val) → MemM (List (String × Val))
  | k :: v :: rest, props => do
    let ks ← keyM h k
    objectProps rest (put ks v props)
  | _, props => pure props

end Host
end Interp
end Lunar
