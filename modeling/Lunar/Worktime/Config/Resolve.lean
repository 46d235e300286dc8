/-
# The definition that a use sees

`resolve` walks back from a use to the instruction that defines its register, and gives up
at a leader: an instruction that a jump, a handler or a function's entry names.  What is not
a leader is reached from the instruction before it alone (`Path.back`), so every path to the
use ends with the instructions that `resolve` has walked over, and the definition that it
finds is the last write on each of them (`resolve_sound`).
-/

import Lunar.Worktime.Config

namespace Lunar
namespace Worktime

/-! ## Control flow -/

/-- The constant that an operand is, as a place in the bytecode. -/
def Instr.constant (ins : Instr) : Option ℕ :=
  match ins.arg 0 with
  | .int t => if 0 ≤ t then some t.toNat else none
  | _ => none

/-- The entry of the function that an instruction makes a closure of. -/
def Instr.entry (ins : Instr) : Option ℕ :=
  if ins.op = .closure then ins.constant else none

/-- The handler that an instruction sets. -/
def Instr.handler (ins : Instr) : Option ℕ :=
  if ins.op = .setCatch ∨ ins.op = .setFinally then ins.constant else none

/-- The instruction writes the register: as its destination, or as the result of a `CallM`. -/
def Instr.writes (reg : ℕ) (ins : Instr) : Bool :=
  ins.dest = some reg ∨ (ins.op = .callM ∧ reg = Config.CALL_RESULT_REG)

/-- The instruction names the place. -/
def Instr.Leads (ins : Instr) (t : ℕ) : Prop :=
  ins.target = some t ∨ ins.entry = some t ∨ ins.handler = some t

namespace Config

/-- The instruction at a place writes the register. -/
def writesAt (instrs : List Instr) (reg k : ℕ) : Bool := instrs[k]?.any (Instr.writes reg)

/-- Control is at a place, and has passed some places since the function was entered, the
last one first.  An instruction may raise an exception before it writes, and then any handler
of the bytecode may be next. -/
inductive Path (instrs : List Instr) : List ℕ → ℕ → Prop
  | main : Path instrs [] 0
  | call {ins : Instr} {t m : ℕ} (hmem : ins ∈ instrs) (hentry : ins.entry = some t)
      (hat : instrs[m]?.map Instr.pc = some t) : Path instrs [] m
  | fall {ps : List ℕ} {k : ℕ} {ins : Instr} (hpath : Path instrs ps k)
      (hins : instrs[k]? = some ins) (hjump : ins.op.flow ≠ .jump) (hexit : ins.op.flow ≠ .exit) :
      Path instrs (k :: ps) (k + 1)
  | jump {ps : List ℕ} {k t m : ℕ} {ins : Instr} (hpath : Path instrs ps k)
      (hins : instrs[k]? = some ins) (htarget : ins.target = some t)
      (hat : instrs[m]?.map Instr.pc = some t) : Path instrs (k :: ps) m
  | raise {ps : List ℕ} {k t m : ℕ} {ins : Instr} (hpath : Path instrs ps k)
      (hmem : ins ∈ instrs) (hhandler : ins.handler = some t)
      (hat : instrs[m]?.map Instr.pc = some t) : Path instrs ps m

/-! ## Leaders -/

theorem has_set (l : Leaders) (pc p : ℕ) :
    (l.set pc).has p = (l.has p || (p = pc && p / 64 < l.words)) := by
  unfold Leaders.set Leaders.has
  by_cases hin : pc / 64 < l.words
  · rw [if_pos hin, List.contains_cons, Bool.and_or_distrib_left, Bool.or_comm,
      Bool.and_comm _ (p == pc)]
    rfl
  · rw [if_neg hin]
    by_cases heq : p = pc
    · rw [heq, decide_eq_false hin, Bool.false_and, Bool.and_false, Bool.or_false]
    · rw [decide_eq_false heq, Bool.false_and, Bool.or_false]

theorem words_set (l : Leaders) (pc : ℕ) : (l.set pc).words = l.words := by
  unfold Leaders.set
  split <;> rfl

/-- The leaders only grow, in the same words. -/
structure Leaders.Grown (l l' : Leaders) : Prop where
  words : l'.words = l.words
  has : ∀ p, l.has p = true → l'.has p = true

theorem Leaders.Grown.refl (l : Leaders) : l.Grown l := ⟨rfl, fun _ h => h⟩

theorem Leaders.Grown.trans {l l' l'' : Leaders} (h : l.Grown l') (h' : l'.Grown l'') :
    l.Grown l'' :=
  ⟨h'.words.trans h.words, fun p hp => h'.has p (h.has p hp)⟩

theorem Leaders.grown_set (l : Leaders) (pc : ℕ) : l.Grown (l.set pc) := by
  refine ⟨words_set l pc, fun p hp => ?_⟩
  rw [has_set, hp, Bool.true_or]

theorem Leaders.set_self {l : Leaders} {pc : ℕ} (h : pc / 64 < l.words) :
    (l.set pc).has pc = true := by
  rw [has_set, decide_eq_true rfl, decide_eq_true h, Bool.and_self, Bool.or_true]

/-- The first loop of `extract`. -/
def firstPass (instrs : List Instr) (pool : List ℕ) : Blocks :=
  instrs.zipIdx.foldl (Blocks.step instrs pool)
    ⟨.new ((instrs.getLast?.map Instr.pc).getD 0), [], []⟩

def Leaders.note (l : Leaders) : Option ℕ → Leaders
  | some t => l.set t
  | none => l

theorem Leaders.grown_note (l : Leaders) (t : Option ℕ) : l.Grown (l.note t) := by
  rcases t with _ | t
  · exact .refl l
  · exact grown_set l t

theorem note_constant (ins : Instr) (s : Blocks) :
    (match ins.arg 0 with
      | .int t => if 0 ≤ t then { s with leaders := s.leaders.set t.toNat } else s
      | _ => s).leaders = s.leaders.note ins.constant := by
  unfold Instr.constant
  split
  · split <;> rfl
  · rfl

theorem step_eq (instrs : List Instr) (pool : List ℕ) (s : Blocks) (ins : Instr) (i : ℕ) :
    (Blocks.step instrs pool s (ins, i)).leaders
      = (s.leaders.note ins.target).note (ins.entry.or ins.handler) := by
  have htarget : (Blocks.mk (match ins.target with
      | some t => s.leaders.set t
      | none => s.leaders) s.arena s.blocks) = ⟨s.leaders.note ins.target, s.arena, s.blocks⟩ := by
    rcases ins.target with _ | t <;> rfl
  have hnoted := congrArg (fun s : Blocks => s.leaders.note ins.constant) htarget
  unfold Blocks.step
  dsimp only
  split
  · next hop =>
      rw [Instr.entry, if_pos hop, Instr.handler, if_neg (by rw [hop]; decide), Option.or_none]
      exact (note_constant ins _).trans hnoted
  · next hop =>
      rw [Instr.entry, if_neg (by rw [hop]; decide), Instr.handler, if_pos (.inl hop),
        Option.none_or]
      exact (note_constant ins _).trans hnoted
  · next hop =>
      rw [Instr.entry, if_neg (by rw [hop]; decide), Instr.handler, if_pos (.inr hop),
        Option.none_or]
      exact (note_constant ins _).trans hnoted
  · next hop =>
      rw [Instr.entry, if_neg (by rw [hop]; decide), Instr.handler,
        if_neg (by rw [hop]; decide), Option.none_or]
      split
      · exact congrArg Blocks.leaders htarget
      · exact congrArg Blocks.leaders htarget
  · next hclosure hcatch hfinally _ =>
      rw [Instr.entry, if_neg hclosure, Instr.handler, if_neg (not_or.2 ⟨hcatch, hfinally⟩),
        Option.none_or]
      exact congrArg Blocks.leaders htarget

/-- An instruction makes leaders of the places that it names. -/
theorem step_leaders (instrs : List Instr) (pool : List ℕ) (s : Blocks) (ins : Instr) (i : ℕ) :
    s.leaders.Grown (Blocks.step instrs pool s (ins, i)).leaders
      ∧ ∀ t, ins.Leads t → t / 64 < s.leaders.words →
        (Blocks.step instrs pool s (ins, i)).leaders.has t = true := by
  have hfirst := s.leaders.grown_note ins.target
  have hsecond := (s.leaders.note ins.target).grown_note (ins.entry.or ins.handler)
  rw [step_eq]
  refine ⟨hfirst.trans hsecond, ?_⟩
  rintro t (htarget | hentry | hhandler) hin
  · refine hsecond.has t ?_
    rw [htarget]
    exact Leaders.set_self hin
  · rw [hentry]
    exact Leaders.set_self (hfirst.words ▸ hin)
  · have hnone : ins.entry = none := by
      rw [Instr.handler] at hhandler
      split at hhandler
      · next hop =>
          refine if_neg fun hclosure => ?_
          rw [hclosure] at hop
          exact absurd hop (by decide)
      · cases hhandler
    rw [hnone, hhandler]
    exact Leaders.set_self (hfirst.words ▸ hin)

/-- The places that some instructions name are leaders after them. -/
theorem fold_leaders (instrs : List Instr) (pool : List ℕ) (es : List (Instr × ℕ)) (s : Blocks) :
    s.leaders.Grown (es.foldl (Blocks.step instrs pool) s).leaders
      ∧ ∀ e ∈ es, ∀ t, e.1.Leads t → t / 64 < s.leaders.words →
        (es.foldl (Blocks.step instrs pool) s).leaders.has t = true := by
  induction es generalizing s with
  | nil => exact ⟨.refl _, nofun⟩
  | cons e es ih =>
      obtain ⟨hgrown, hlead⟩ := step_leaders instrs pool s e.1 e.2
      obtain ⟨hgrown', hlead'⟩ := ih (Blocks.step instrs pool s e)
      refine ⟨hgrown.trans hgrown', fun e' he' t ht hin => ?_⟩
      rcases List.mem_cons.1 he' with rfl | he'
      · exact hgrown'.has t (hlead t ht hin)
      · exact hlead' e' he' t ht (hgrown.words ▸ hin)

/-- **Every place that an instruction names is a leader**, up to the last instruction. -/
theorem firstPass_leads (instrs : List Instr) (pool : List ℕ) {ins last : Instr} {t : ℕ}
    (hmem : ins ∈ instrs) (hlead : ins.Leads t) (hlast : instrs.getLast? = some last)
    (hle : t ≤ last.pc) : (firstPass instrs pool).leaders.has t = true := by
  obtain ⟨i, hi⟩ := List.getElem?_of_mem hmem
  have hi := List.mk_mem_zipIdx_iff_getElem?.2 hi
  refine (fold_leaders instrs pool _ _).2 _ hi t hlead ?_
  rw [hlast]
  show t / 64 < last.pc / 64 + 1
  omega

/-! ## Paths to a place -/

theorem pc_le_last {instrs : List Instr} (hsorted : (instrs.map Instr.pc).Pairwise (· < ·))
    {m : ℕ} {ins : Instr} (hm : instrs[m]? = some ins) :
    ∃ last, instrs.getLast? = some last ∧ ins.pc ≤ last.pc := by
  obtain ⟨hlt, rfl⟩ := List.getElem?_eq_some_iff.1 hm
  have hlast : instrs.length - 1 < instrs.length := by omega
  refine ⟨instrs[instrs.length - 1], ?_, ?_⟩
  · rw [List.getLast?_eq_getElem?, List.getElem?_eq_getElem hlast]
  · rcases Nat.lt_or_ge m (instrs.length - 1) with hm | hm
    · exact (List.pairwise_iff_getElem.1 (List.pairwise_map.1 hsorted) _ _ hlt hlast hm).le
    · have heq : instrs.length - 1 = m := by omega
      simp only [heq, le_refl]

/-- What is not a leader is reached from the instruction before it. -/
theorem Path.back {instrs : List Instr} {pool : List ℕ}
    (hsorted : (instrs.map Instr.pc).Pairwise (· < ·)) {ps : List ℕ} {j : ℕ} {here : Instr}
    (hhere : instrs[j + 1]? = some here)
    (hno : (firstPass instrs pool).leaders.has here.pc = false)
    (hpath : Path instrs ps (j + 1)) : ∃ ps', ps = j :: ps' ∧ Path instrs ps' j := by
  have hnamed {ins : Instr} {t : ℕ} (hmem : ins ∈ instrs) (hlead : ins.Leads t)
      (hat : instrs[j + 1]?.map Instr.pc = some t) : False := by
    rw [hhere] at hat
    obtain ⟨last, hlast, hle⟩ := pc_le_last hsorted hhere
    have hhas := firstPass_leads instrs pool hmem hlead hlast (Option.some.inj hat ▸ hle)
    rw [← Option.some.inj hat, hno] at hhas
    cases hhas
  cases hpath with
  | call hmem hentry hat => exact (hnamed hmem (.inr (.inl hentry)) hat).elim
  | fall hpath => exact ⟨_, rfl, hpath⟩
  | jump _ hins htarget hat =>
      exact (hnamed (List.mem_of_getElem? hins) (.inl htarget) hat).elim
  | raise _ hmem hhandler hat => exact (hnamed hmem (.inr (.inr hhandler)) hat).elim

/-- One step back of `resolve`. -/
theorem resolve_succ {instrs : List Instr} {leaders : Leaders} {reg j : ℕ} {d : Instr}
    (h : resolve instrs leaders reg (j + 1) = some d) :
    ∃ here ins, instrs[j + 1]? = some here ∧ leaders.has here.pc = false ∧ instrs[j]? = some ins
      ∧ (ins.writes reg = true ∧ ins = d
        ∨ ins.writes reg = false ∧ resolve instrs leaders reg j = some d) := by
  rw [resolve] at h
  obtain ⟨here, hhere, h⟩ := Option.bind_eq_some_iff.1 h
  rcases hleader : leaders.has here.pc with _ | _
  · rw [hleader, if_neg Bool.false_ne_true] at h
    obtain ⟨ins, hins, h⟩ := Option.bind_eq_some_iff.1 h
    refine ⟨here, ins, hhere, hleader, hins, ?_⟩
    split at h
    · cases h
    split at h
    · next hwrites => exact .inl ⟨decide_eq_true hwrites, Option.some.inj h⟩
    · next hwrites => exact .inr ⟨decide_eq_false hwrites, h⟩
  · rw [hleader, if_pos rfl] at h
    cases h

/-- **The definition that `resolve` finds is the last write on every path** from the entry of
the function to the use. -/
theorem resolve_sound {instrs : List Instr} (pool : List ℕ)
    (hsorted : (instrs.map Instr.pc).Pairwise (· < ·)) {reg i : ℕ} {d : Instr}
    (h : resolve instrs (firstPass instrs pool).leaders reg i = some d) :
    ∃ k, instrs[k]? = some d ∧ ∀ ps, Path instrs ps i →
      ps.find? (writesAt instrs reg) = some k := by
  induction i with
  | zero => cases h
  | succ j ih =>
      obtain ⟨here, ins, hhere, hno, hins, hcases⟩ := resolve_succ h
      have hat : writesAt instrs reg j = ins.writes reg := by
        rw [writesAt, hins, Option.any_some]
      rcases hcases with ⟨hwrites, rfl⟩ | ⟨hwrites, hrest⟩
      · refine ⟨j, hins, fun ps hpath => ?_⟩
        obtain ⟨ps', rfl, -⟩ := hpath.back hsorted hhere hno
        rw [List.find?_cons, hat, hwrites]
      · obtain ⟨k, hk, hall⟩ := ih hrest
        refine ⟨k, hk, fun ps hpath => ?_⟩
        obtain ⟨ps', rfl, hpath'⟩ := hpath.back hsorted hhere hno
        rw [List.find?_cons, hat, hwrites]
        exact hall ps' hpath'

/-- The number that the division reads, past an instruction in between. -/
def smallUse : List Instr :=
  [⟨1, .mov, [.int 7], some 4⟩, ⟨4, .newObj, [], some 5⟩, ⟨6, .divRO, [.reg 4, .int 2], some 6⟩]

theorem resolve_sound_small :
    (smallUse.map Instr.pc).Pairwise (· < ·)
      ∧ ∃ k, smallUse[k]? = some ⟨1, .mov, [.int 7], some 4⟩
        ∧ ∀ ps, Path smallUse ps 2 → ps.find? (writesAt smallUse 4) = some k :=
  ⟨by decide, resolve_sound [] (by decide) (by decide)⟩

end Config
end Worktime
end Lunar
