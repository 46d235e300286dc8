/-
# Runs of the boot emulator

`payload/emulate.rs`: over a whole run of `run`, at the start of each turn the last
recorded permutation is the dispatch table, and the generation noted for an
instruction maps its opcode to the handler that was executed
(`generations_right`), as long as a generation fits its sixteen bits.  With one
generation for each instruction of a long boot script the number wraps around, and
an instruction is noted under the first generation again (`Wrap`).
-/

import Lunar.Payload.Emulate.Generations

namespace Lunar
namespace Emulate

open Lib (Double)
open Ir

section Machine

variable (p : Program)

/-! ## The first turn -/

theorem entry_ofInt {i : ℕ} (h : i < 65535) : entry (.num (.ofInt i)) = some i := by
  have hge := Double.ge_zero_ofInt (i := (i : ℤ)) (by omega)
  have hlt : (Double.ofInt (i : ℤ)).lt (.ofInt 65535) = true := Double.lt_ofInt (by omega)
  have hu : (Double.ofInt (i : ℤ)).toU 16 = i := Double.toU_ofInt (by omega) (by omega)
  rw [entry, hge, Double.isInt_ofInt, hlt, hu]
  rfl

theorem mapM_entry {xs : List ℕ} (h : ∀ i ∈ xs, i < 65535) :
    (xs.map fun (i : ℕ) => V.num (.ofInt i)).mapM entry = some xs := by
  induction xs with
  | nil => rfl
  | cons x xs ih =>
      obtain ⟨hx, hxs⟩ := List.forall_mem_cons.1 h
      rw [List.map_cons, List.mapM_cons, entry_ofInt hx, ih hxs]
      rfl

/-- The table at first: opcode `i` has handler `i`. -/
theorem snapshot_new (h : p.handlerCount < 2 ^ 16) :
    snapshot (State.new p).heap = some (List.range p.handlerCount) := by
  rw [snapshot_arr rfl]
  refine mapM_entry fun i hi => ?_
  have := List.mem_range.1 hi
  omega

theorem tracked_new (h : p.handlerCount < 2 ^ 16) : Tracked p (.new p) where
  table := ⟨_, rfl⟩
  clean := rfl
  recorded := by
    refine ⟨List.range p.handlerCount, ?_, snapshot_new p h⟩
    rw [Running.new, snapshot_new p h]
    rfl
  right e he := by cases he

/-! ## A run -/

/-- The variables of `run` after some turns. -/
def after : ℕ → Option Running
  | 0 => some (.new p)
  | n + 1 => (after n).bind fun r =>
    match turn p r with
    | .next r => some r
    | _ => none

/-- A run in which every turn fits. -/
def AllFit : Prop := ∀ n < MAX_STEPS, ∀ r, after p n = some r → Fits p r

theorem after_succ {n : ℕ} {r r' : Running} (h : after p n = some r)
    (ht : turn p r = .next r') : after p (n + 1) = some r' := by
  rw [after, h, Option.bind_some, ht]

/-- **The run lemma**: at the start of every turn the table is tracked. -/
theorem tracked_after (hcount : p.handlerCount < 2 ^ 16) (hfit : AllFit p) {n : ℕ}
    (hn : n ≤ MAX_STEPS) {r : Running} (h : after p n = some r) : Tracked p r := by
  induction n generalizing r with
  | zero =>
      obtain rfl := Option.some.inj h
      exact tracked_new p hcount
  | succ n ih =>
      obtain ⟨r₀, hr₀, h⟩ := Option.bind_eq_some_iff.1 h
      split at h
      · next r₁ hturn =>
          obtain rfl := Option.some.inj h
          exact turn_next p (ih (by omega) hr₀) (hfit n (by omega) r₀ hr₀) hturn
      · cases h

/-- The loop from turn `n` on has noted what is right when it stops. -/
theorem loop_right (hcount : p.handlerCount < 2 ^ 16) (hfit : AllFit p) {steps n : ℕ}
    (hn : n + steps = MAX_STEPS) {r r' : Running} {reason : String} (hr : after p n = some r)
    (h : loop p steps r = .stop reason r') : ∀ e ∈ r'.ran, Right p r' e.1 e.2 := by
  induction steps generalizing n r with
  | zero =>
      obtain ⟨-, rfl⟩ := Turn.stop.inj h
      exact (tracked_after p hcount hfit (by omega) hr).right
  | succ steps ih =>
      have htracked := tracked_after p hcount hfit (by omega) hr
      have hfits := hfit n (by omega) r hr
      rw [loop] at h
      split at h
      · next r₁ hturn => exact ih (by omega) (after_succ p hr hturn) h
      · exact turn_stop p htracked hfits h

/-- The variables of `run` after its last turn, for a run that returns `Ok`. -/
def Returns (boot : Boot) (r : Running) : Prop :=
  run p = some (.ok boot) ∧ (∃ reason, loop p MAX_STEPS (.new p) = .stop reason r) ∧
    boot = ⟨r.perms, r.genOf⟩

theorem exists_returns {boot : Boot} (h : run p = some (.ok boot)) : ∃ r, Returns p boot r := by
  have hrun := h
  rw [run] at h
  split at h
  · cases h
  · split at h
    · next reason r hloop =>
        split at h
        · cases h
        · exact ⟨r, hrun, ⟨reason, hloop⟩, (Except.ok.inj (Option.some.inj h)).symm⟩
    · cases h
    · cases h
    · cases h

/-! ## Turns of a program that is known -/

theorem fetch_eq {s : State} {v : V} {pc : ℕ} {raw : ℤ} {h : ℕ}
    (hr : (reg 0).run' s = .ok v) (hpc : pcOf p v = some pc)
    (hw : p.decoder.word pc = some raw)
    (hh : getProp s.heap .dispatch (.num (.ofInt raw)) = .ok (.handler h)) :
    fetch p s = .ok (pc, raw, h) := by
  rw [fetch, hr]
  simp only [bind, Except.bind, hpc, hw, hh]
  rfl

theorem record_dirty {r : Running} {s : State} {perm : List ℕ} (hd : s.permDirty = true)
    (hs : snapshot s.heap = some perm) :
    record r s =
      .next { r with emu := { s with permDirty := false }, perms := r.perms ++ [perm] } := by
  rw [record, if_pos hd]
  simp only [hs]

/-- The loop from the state after some turns on. -/
theorem loop_after {n k : ℕ} {r : Running} (h : after p k = some r) :
    loop p (n + k) (.new p) = loop p n r := by
  induction k generalizing n r with
  | zero =>
      obtain rfl := Option.some.inj h
      rfl
  | succ k ih =>
      obtain ⟨r₀, hr₀, h⟩ := Option.bind_eq_some_iff.1 h
      split at h
      · next r₁ hturn =>
          obtain rfl := Option.some.inj h
          have hn : n + (k + 1) = n + 1 + k := by omega
          rw [hn, ih hr₀, loop, hturn]
      · cases h

theorem turn_ok {r r' : Running} {s : State} {pc : ℕ} {raw : ℤ} {handler : ℕ}
    (hf : fetch p r.emu = .ok (pc, raw, handler)) (hn : note r pc raw handler = some r')
    (hi : (instr p pc handler).run r'.emu = .ok ((), s)) : turn p r = record r' s := by
  simp only [turn, hf, hn, hi]

theorem turn_error {r r' : Running} {reason : String} {pc : ℕ} {raw : ℤ} {handler : ℕ}
    (hf : fetch p r.emu = .ok (pc, raw, handler)) (hn : note r pc raw handler = some r')
    (hi : (instr p pc handler).run r'.emu = .error (.msg reason)) :
    turn p r = .stop reason r' := by
  simp only [turn, hf, hn, hi]

end Machine

/-! ## A program with a generation for each instruction -/

namespace Wrap

/-- `dispatch[1] = 2`. -/
def store : Template where
  reads := []
  seeks := []
  branch := none
  falls := true
  exprs := [.runtime .dispatch, .undef, .member 0 1, .num (.ofInt 1), .num (.ofInt 2)]
  args := []
  stmts := [.setProp 2 3 4]
  body := ⟨0, 1⟩

def halt : Template where
  reads := []
  seeks := []
  branch := none
  falls := false
  exprs := []
  args := []
  stmts := [.halt]
  body := ⟨0, 1⟩

def libm : Libm :=
  ⟨id, id, fun x _ => x, id, id, id, id, id, id, id, id, id, fun x _ => x⟩

def code : List (BitVec 32) := List.replicate 65536 0 ++ [1]

def prog : Program where
  decoder := ⟨code, ⟨0, 2, 4, 6, 8, 10⟩, 1, 1, 1, true, 0⟩
  templates := [.ok store, .ok halt, .ok halt]
  strings := []
  pool := []
  scopeReg := 1
  entry := 0
  handlerCount := 3
  stack := 4
  libm := libm

def heapWith (second : ℤ) : List Heap :=
  [.arr [.num (.ofInt 0), .num (.ofInt second), .num (.ofInt 2)],
    .scope ⟨fun _ => none, none, .global, .null, fun _ => none, .undef, .undef⟩]

def heapAt (k : ℕ) : List Heap := heapWith (if k = 0 then 1 else 2)

def stateAt (k : ℕ) : State where
  heap := heapAt k
  frames := [⟨[.num (.ofInt k), .obj 1, .undef, .undef, .undef, .undef, .undef, .undef],
    fun _ => none⟩]
  permDirty := false
  pending := none
  jump := none

def runAt (k : ℕ) : Running where
  emu := stateAt k
  genOf pc := if pc < k then pc else Disasm.NO_GEN
  perms := [0, 1, 2] :: List.replicate k [0, 2, 2]
  ran := (List.range k).reverse.map fun pc => (pc, 0)

theorem runAt_zero : runAt 0 = .new prog := by
  rw [runAt, Running.new, snapshot_new prog (by decide)]
  rfl

theorem code_length : code.length = 65537 := by
  rw [code, List.length_append, List.length_replicate]
  rfl

theorem decode_at {k : ℕ} (h : k < 65537) (tpl : Template) (hr : tpl.reads = [])
    (hs : tpl.seeks = []) (hb : tpl.branch = none) :
    prog.decoder.decode k tpl = some (⟨k + 1, none⟩, []) := by
  rw [Disasm.Decoder.decode, hr, hs, hb]
  have hlt : ¬ 2 ^ 32 ≤ k + 1 := by omega
  show (if 2 ^ 32 ≤ k + 1 then none else some ((⟨k + 1, none⟩ : Disasm.Decoder.Decoded), [])) = _
  rw [if_neg hlt]

/-- What the program computes with texts, with the table and with its handlers. -/
theorem closed_steps : Fold.numberToString (.ofInt 1) = "1" ∧ Lib.Text.parseUsize "1" = some 1 ∧
    (getProp (heapWith 1) .dispatch (.num (.ofInt 0))).toOption = some (.handler 0) ∧
    (getProp (heapWith 2) .dispatch (.num (.ofInt 0))).toOption = some (.handler 0) ∧
    (getProp (heapWith 2) .dispatch (.num (.ofInt 1))).toOption = some (.handler 2) ∧
    snapshot (heapWith 2) = some [0, 2, 2] := by decide +kernel

theorem keyText_one : keyText (.num (.ofInt 1)) = .ok "1" := by
  rw [keyText, closed_steps.1]
  rfl

theorem parseUsize_one : Lib.Text.parseUsize "1" = some 1 := closed_steps.2.1

theorem getProp_table {heap : List Heap} : getProp heap .dispatch .undef = .ok (.obj PERM_ID) := rfl

theorem eval_table (s : State) : (eval prog store [] 2).run s = .ok (.obj PERM_ID, s) := rfl

theorem eval_key (s : State) : (eval prog store [] 3).run s = .ok (.num (.ofInt 1), s) := rfl

theorem eval_value (s : State) : (eval prog store [] 4).run s = .ok (.num (.ofInt 2), s) := rfl

theorem run_bind {α β : Type} {x : M α} {f : α → M β} {s t : State} {a : α}
    {y : Res (β × State)} (h : x.run s = .ok (a, t)) (h' : (f a).run t = y) :
    (x >>= f).run s = y := by
  rw [StateT.run_bind, h]
  exact h'

theorem setProp_table {s : State} {a : List V} (h : s.heap[PERM_ID]? = some (.arr a)) (v : V) :
    (setProp (.obj PERM_ID) (.num (.ofInt 1)) v).run s =
      .ok ((), { s with heap := s.heap.set PERM_ID (.arr (put a 1 v)), permDirty := true }) := by
  have hkey : (keyM (.num (.ofInt 1))).run s = .ok ("1", s) := by
    show (keyText (.num (.ofInt 1))).map (·, s) = _
    rw [keyText_one]
    rfl
  have harr : setArr a "1" v = .ok (put a 1 v) := by
    unfold setArr
    rw [parseUsize_one]
    exact if_neg (by decide)
  have hcell : setCell (.arr a) "1" v = .ok (.arr (put a 1 v)) := by
    rw [setCell, harr]
    rfl
  have hread : cell s.heap PERM_ID = .ok (.arr a) := by rw [cell, h]; rfl
  refine run_bind hkey (run_bind (a := ()) (t := { s with permDirty := true }) rfl ?_)
  refine run_bind (a := .arr (put a 1 v)) (t := { s with permDirty := true }) ?_ rfl
  show (cell s.heap PERM_ID >>= fun h => setCell h "1" v).map (·, { s with permDirty := true }) = _
  rw [hread]
  show (setCell (.arr a) "1" v).map (·, { s with permDirty := true }) = _
  rw [hcell]
  rfl

theorem instr_store {k : ℕ} (h : k < 65537) :
    (instr prog k 0).run (stateAt k) = .ok ((), { stateAt (k + 1) with permDirty := true }) := by
  have hd := decode_at h store rfl rfl rfl
  have ht : prog.templates[0]? = some (.ok store) := rfl
  let s : State := { stateAt k with frames := (stateAt (k + 1)).frames }
  have hset : (setReg 0 (.num (.ofInt (k + 1)))).run (stateAt k) = .ok ((), s) := by
    rw [setReg, if_neg (by decide)]
    rfl
  have hexec : (execList store (exec prog store [] prog.stack) store.body).run s =
      .ok ((), { stateAt (k + 1) with permDirty := true }) := by
    refine run_bind (a := ()) (t := { stateAt (k + 1) with permDirty := true }) ?_ rfl
    refine run_bind (eval_table s) (run_bind (eval_key s) (run_bind (eval_value s) ?_))
    rw [setProp_table rfl]
    rfl
  rw [instr, ht]
  simp only [hd]
  refine run_bind hset (run_bind (a := ()) (t := s) rfl (run_bind (a := s) (t := s) rfl ?_))
  refine run_bind hexec ?_
  rfl

theorem prog_code : prog.decoder.code = code := rfl

theorem pcOf_at {k : ℕ} (hk : k < 65537) : pcOf prog (.num (.ofInt k)) = some k := by
  have h64 : (Double.ofInt (k : ℤ)).toU 64 = k := Double.toU_ofInt (by omega) (by omega)
  have h32 : (Double.ofInt (k : ℤ)).toU 32 = k := Double.toU_ofInt (by omega) (by omega)
  have hlt : decide (k < 65537) = true := decide_eq_true hk
  rw [pcOf, Double.ge_zero_ofInt (by omega), Double.isInt_ofInt, h64, h32, prog_code, code_length,
    hlt]
  exact if_pos rfl

theorem fetch_at {k : ℕ} {raw : ℤ} {h : ℕ} (hk : k < 65537)
    (hw : prog.decoder.word k = some raw)
    (hh : getProp (heapAt k) .dispatch (.num (.ofInt raw)) = .ok (.handler h)) :
    fetch prog (stateAt k) = .ok (k, raw, h) :=
  fetch_eq prog rfl (pcOf_at hk) hw hh

theorem heapAt_pos {k : ℕ} (h : 0 < k) : heapAt k = heapWith 2 := by
  rw [heapAt, if_neg h.ne']

theorem ok_of_toOption {α : Type} {x : Res α} {a : α} (h : x.toOption = some a) : x = .ok a := by
  cases x with
  | error e => cases h
  | ok b => exact congrArg Except.ok (Option.some.inj h)

theorem handler_zero (k : ℕ) :
    getProp (heapAt k) .dispatch (.num (.ofInt 0)) = .ok (.handler 0) := by
  refine ok_of_toOption ?_
  rw [heapAt]
  split
  · exact closed_steps.2.2.1
  · exact closed_steps.2.2.2.1

theorem handler_last : getProp (heapWith 2) .dispatch (.num (.ofInt 1)) = .ok (.handler 2) :=
  ok_of_toOption closed_steps.2.2.2.2.1

theorem snapshot_changed : snapshot (heapWith 2) = some [0, 2, 2] := closed_steps.2.2.2.2.2

theorem word_first {k : ℕ} (h : k < 65536) : prog.decoder.word k = some 0 := by
  show (code[k]?).map BitVec.toInt = some 0
  rw [code, List.getElem?_append_left (by rwa [List.length_replicate]), List.getElem?_replicate,
    if_pos h]
  rfl

theorem word_last {k : ℕ} (h : k = 65536) : prog.decoder.word k = some 1 := by
  show (code[k]?).map BitVec.toInt = some 1
  have hle : (List.replicate 65536 (0 : BitVec 32)).length ≤ k := by
    rw [List.length_replicate]
    omega
  rw [code, List.getElem?_append_right hle, List.length_replicate, h]
  rfl

theorem note_at {k : ℕ} (h : k < 65536) :
    note (runAt k) k 0 0 =
      some { runAt (k + 1) with emu := stateAt k, perms := (runAt k).perms } := by
  have hgen : ((runAt k).perms.length - 1) % 2 ^ 16 = k := by
    rw [runAt, List.length_cons, List.length_replicate]
    omega
  have hnone : (runAt k).genOf k = Disasm.NO_GEN := if_neg (lt_irrefl k)
  have hnew : Function.update (runAt k).genOf k k = (runAt (k + 1)).genOf := by
    funext pc
    rw [Function.update_apply]
    show (if pc = k then k else if pc < k then pc else Disasm.NO_GEN) =
      if pc < k + 1 then pc else Disasm.NO_GEN
    split
    · next heq => rw [heq, if_pos (Nat.lt_succ_self k)]
    · next hne =>
        have hiff : pc < k + 1 ↔ pc < k := by omega
        simp only [hiff]
  have hran : (k, 0) :: (runAt k).ran = (runAt (k + 1)).ran := by
    show _ = (List.range (k + 1)).reverse.map fun pc => (pc, 0)
    rw [List.range_succ, List.reverse_append]
    rfl
  rw [note, hgen]
  dsimp only
  rw [if_pos hnone, hnew, hran]
  rfl

theorem turn_at {k : ℕ} (h : k < 65536) : turn prog (runAt k) = .next (runAt (k + 1)) := by
  have hf : fetch prog (runAt k).emu = .ok (k, 0, 0) :=
    fetch_at (by omega) (word_first h) (handler_zero k)
  have hs : snapshot (heapAt (k + 1)) = some [0, 2, 2] := by
    rw [heapAt_pos (Nat.succ_pos k), snapshot_changed]
  have hperms : (runAt k).perms ++ [[0, 2, 2]] = (runAt (k + 1)).perms := by
    show [0, 1, 2] :: (List.replicate k [0, 2, 2] ++ [[0, 2, 2]]) = _
    rw [← List.replicate_succ']
    rfl
  rw [turn_ok prog hf (note_at h) (instr_store (by omega)),
    record_dirty (s := { stateAt (k + 1) with permDirty := true }) rfl hs, hperms]
  rfl

theorem after_at {k : ℕ} (h : k ≤ 65536) : after prog k = some (runAt k) := by
  induction k with
  | zero => exact congrArg some runAt_zero.symm
  | succ k ih => exact after_succ prog (ih (by omega)) (turn_at (by omega))

/-- The variables of `run` at the end. -/
def last (k : ℕ) : Running := { runAt k with
  genOf := Function.update (runAt k).genOf k 0
  ran := (k, 2) :: (runAt k).ran }

theorem genOf_last (k : ℕ) : (last k).genOf k = 0 := Function.update_self ..

theorem turn_last {k : ℕ} (hk : k = 65536) : turn prog (runAt k) = .stop "halt" (last k) := by
  have hh : getProp (heapAt k) .dispatch (.num (.ofInt 1)) = .ok (.handler 2) := by
    rw [heapAt_pos (by omega), handler_last]
  have hf : fetch prog (runAt k).emu = .ok (k, 1, 2) := fetch_at (by omega) (word_last hk) hh
  have hgen : ((runAt k).perms.length - 1) % 2 ^ 16 = 0 := by
    rw [runAt, List.length_cons, List.length_replicate]
    omega
  have hnone : (runAt k).genOf k = Disasm.NO_GEN := if_neg (lt_irrefl k)
  have hn : note (runAt k) k 1 2 = some (last k) := by
    rw [note, hgen]
    dsimp only
    rw [if_pos hnone]
    rfl
  have ht : prog.templates[2]? = some (.ok halt) := rfl
  have hd := decode_at (k := k) (by omega) halt rfl rfl rfl
  have hi : (instr prog k 2).run (last k).emu = .error (.msg "halt") := by
    rw [instr, ht]
    simp only [hd]
    rw [setReg, if_neg (by decide)]
    rfl
  exact turn_error prog hf hn hi

/-- `dispatch[1] = 2`, and the instruction with opcode 1. -/
def short : Program := { prog with decoder := { prog.decoder with code := [0, 1] } }

/-- The turns of `short`, and the run. -/
theorem short_runs :
    ((after short 0).all fun r => r.perms.length < 2 ^ 16) = true ∧
    ((after short 1).all fun r => r.perms.length < 2 ^ 16) = true ∧
    (after short 2).isNone = true ∧ ((run short).any Except.isOk) = true ∧
    (match loop short MAX_STEPS (.new short) with
      | .stop _ r => r.ran
      | _ => []) = [(1, 2), (0, 0)] := by decide +kernel

theorem short_word {pc : ℕ} {raw : ℤ} (h : short.decoder.word pc = some raw) : 0 ≤ raw := by
  match pc, h with
  | 0, h | 1, h => exact (Option.some.inj h) ▸ by decide

theorem short_opcode {s : State} {raw : ℤ} (h : opcode short s = some raw) : 0 ≤ raw := by
  obtain ⟨v, -, h⟩ := Option.bind_eq_some_iff.1 h
  obtain ⟨pc, -, h⟩ := Option.bind_eq_some_iff.1 h
  exact short_word h

theorem short_allFit : AllFit short := by
  have hnone (n : ℕ) : after short (n + 2) = none := by
    induction n with
    | zero => exact Option.isNone_iff_eq_none.1 short_runs.2.2.1
    | succ n ih => rw [after, ih]; rfl
  intro n _ r hr
  refine ⟨?_, fun raw => short_opcode⟩
  have hlen (h : ((after short n).all fun r => r.perms.length < 2 ^ 16) = true) :
      r.perms.length < 2 ^ 16 := by
    rw [hr] at h
    exact of_decide_eq_true h
  have hn : n = 0 ∨ n = 1 ∨ 2 ≤ n := by omega
  rcases hn with rfl | rfl | hn
  · exact hlen short_runs.1
  · exact hlen short_runs.2.1
  · obtain ⟨m, rfl⟩ := Nat.exists_eq_add_of_le' hn
    rw [hnone] at hr
    cases hr

end Wrap

/-! ## The main result -/

open Wrap

/-- **Generations are right**: in a run that returns `Ok` and in which every turn fits,
the last recorded permutation is the table at the start of each turn, and for each
instruction that was executed the permutation noted for it maps its opcode to the
handler that was executed. -/
theorem generations_right (p : Program) (hcount : p.handlerCount < 2 ^ 16) (hfit : AllFit p)
    {boot : Boot} (hrun : run p = some (.ok boot)) :
    (∀ n < MAX_STEPS, ∀ r, after p n = some r → Recorded r) ∧
      ∃ r, Returns p boot r ∧ ∀ e ∈ r.ran, Right p r e.1 e.2 := by
  refine ⟨fun n hn r hr => (tracked_after p hcount hfit hn.le hr).recorded, ?_⟩
  obtain ⟨r, hr⟩ := exists_returns p hrun
  obtain ⟨reason, hloop⟩ := hr.2.1
  exact ⟨r, hr, loop_right p hcount hfit (Nat.zero_add _) rfl hloop⟩

theorem generations_right_short : ∃ boot r, Returns short boot r ∧ r.ran = [(1, 2), (0, 0)] ∧
    ∀ e ∈ r.ran, Right short r e.1 e.2 := by
  obtain ⟨boot, hrun⟩ : ∃ boot, run short = some (.ok boot) := by
    match h : run short, short_runs.2.2.2.1 with
    | some (.ok boot), _ => exact ⟨boot, rfl⟩
  obtain ⟨r, hr, hright⟩ := (generations_right short (by decide) short_allFit hrun).2
  obtain ⟨reason, hloop⟩ := hr.2.1
  have hran := short_runs.2.2.2.2
  rw [hloop] at hran
  exact ⟨boot, r, hr, hran, hright⟩

/-- **A generation wraps around**: after 65536 changes of the table the next instruction
is noted under generation 0, whose permutation has another handler for it. -/
theorem generation_wraps : ∃ p boot r, p.handlerCount < 2 ^ 16 ∧ Returns p boot r ∧
    ∃ e ∈ r.ran, ¬ Right p r e.1 e.2 := by
  have hturn := turn_last (k := 65536) rfl
  have hloop : loop prog MAX_STEPS (.new prog) = .stop "halt" (last 65536) := by
    have hafter := after_at (le_refl 65536)
    rw [show MAX_STEPS = 334463 + 1 + 65536 from rfl, loop_after prog hafter, loop, hturn]
  have hrun : run prog = some (.ok ⟨(last 65536).perms, (last 65536).genOf⟩) := by
    have hlen : ¬ (last 65536).perms.length < 2 := by
      rw [last, runAt, List.length_cons, List.length_replicate]
      omega
    rw [run, if_neg (by decide), hloop]
    dsimp only
    rw [if_neg hlen]
  refine ⟨prog, _, last 65536, by decide, ⟨hrun, ⟨_, hloop⟩, rfl⟩, (65536, 2), ?_, ?_⟩
  · exact List.mem_cons_self
  rintro ⟨-, raw, perm, hw, hperm, hidx⟩
  rw [genOf_last] at hperm
  obtain rfl : [0, 1, 2] = perm := Option.some.inj hperm
  obtain rfl : 1 = raw := Option.some.inj ((word_last rfl).symm.trans hw)
  have h1 : rawIndex 1 = 1 := by decide
  rw [h1] at hidx
  cases hidx

end Emulate
end Lunar
