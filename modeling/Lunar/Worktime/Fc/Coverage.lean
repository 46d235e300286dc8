/-
# The reads that the answer speaks of

`worktime/fc.rs`: when the solver has emptied its work list, the query for a parameter is above the
source of every read of its key, in every block that a function reaches (`reads_le_query`).  So an
answer with overrides speaks of all of these reads: each has no source, or it reads the very path
that the override names, and a parameter without an override is read without a source
(`overrides_cover`).
-/

import Lunar.Worktime.Fc.Analyze
import Lunar.Worktime.Fc.PostFixpoint

namespace Lunar
namespace Fc

open Lib (Prog Mem)
open Worktime (Instr Op Operand PowKeys)

/-- A read of the key of parameter `j` from a source, in a solver that changes nothing any more: a
function is run once more, it reaches a block, and the instructions of the block before the read are
run from the registers at the block. -/
inductive Reads (p : Program) (s : Solver) (j : ℕ) : Taint → Prop
  | mk {f fuel b k i kid : ℕ} {func : Func} {st : Blocks func.nregs} {blk : Block}
      {regs : Regs func.nregs} {ins : Instr} {aux : Aux} {v : Val}
      (hfunc : p.funcs[f]? = some func) (hrun : Reruns s f (run p f func fuel) st)
      (hb : b < func.count) (hreached : st.reached b = true)
      (hk : p.fblocks[func.first + b]? = some k) (hblk : p.blocks[k]? = some blk)
      (hstart : blk.start ≤ i) (hstop : i < blk.stop)
      (hregs : Reruns s f ((List.range' blk.start (i - blk.start)).foldlM
        (fun regs i => transfer p f i regs) (st.states b)) regs)
      (hins : p.instrs[i]? = some ins) (hop : ins.op = .getProp) (haux : p.aux[i]? = some aux)
      (hkey : aux.key = some kid) (hpow : p.pow j = some kid)
      (hv : Reruns s f (getProp p i ins aux regs) v) : Reads p s j v.t

section Settled

variable {p : Program} {s : Solver} {m : Mem Loc Val Facts} {α : Type} {f j : ℕ}

theorem Reruns.unique {x : M α} {a b : α} (ha : Reruns s f x a) (hb : Reruns s f x b) : a = b := by
  obtain ⟨_, ha, -⟩ := ha
  obtain ⟨_, hb, -⟩ := hb
  exact congrArg Prod.fst (Option.some.inj (ha.symm.trans hb))

/-- The query already holds what it has been asked to hold. -/
theorem query_le_of_settles {t : Taint} (h : (ask (.query j t)).Settles oracle m ()) :
    t ≤ m.aux.query j := by
  have hanswer := Prog.settles_query.1 h
  have hfacts := congrArg (fun r => r.map fun r => r.2.query j) hanswer
  have hquery : (if j = j then m.aux.query j ⊔ t else m.aux.query j) = m.aux.query j :=
    Option.some.inj hfacts
  rw [if_pos rfl] at hquery
  exact sup_eq_left.1 hquery

theorem observe_le {kid : ℕ} {t : Taint} (hj : j < 4) (hpow : p.pow j = some kid)
    (h : (observe p kid t).Settles oracle m ()) : t ≤ m.aux.query j := by
  have hall : ∀ js : List ℕ, j ∈ js →
      (js.forM fun j => if p.pow j = some kid then ask (.query j t) else pure ()).Settles
        oracle m () → t ≤ m.aux.query j := by
    intro js hmem hjs
    induction js with
    | nil => cases hmem
    | cons k js ih =>
        obtain ⟨u, hk, hjs⟩ := Prog.settles_bind.1 hjs
        rcases List.mem_cons.1 hmem with rfl | hmem
        · dsimp only at hk
          rw [if_pos hpow] at hk
          exact query_le_of_settles hk
        · exact ih hmem hjs
  exact hall _ (List.mem_range.2 hj) h

/-- What a read of a parameter's key gives is below the query. -/
theorem getProp_le {n i kid : ℕ} {ins : Instr} {aux : Aux} {regs : Regs n} {v : Val} (hj : j < 4)
    (hkey : aux.key = some kid) (hpow : p.pow j = some kid)
    (h : (getProp p i ins aux regs).Settles oracle m v) : v.t ≤ m.aux.query j := by
  obtain ⟨any, -, h⟩ := Prog.settles_bind.1 h
  rw [hkey] at h
  have hrest {x : M Taint} (h : (do
      let base ← x
      let v ← getNamed p (regs.opv (ins.arg 0) false) base kid (← index p.names kid)
      let v ← seed p i kid v
      observe p kid v.t
      return v).Settles oracle m v) : v.t ≤ m.aux.query j := by
    obtain ⟨base, -, h⟩ := Prog.settles_bind.1 h
    obtain ⟨name, -, h⟩ := Prog.settles_bind.1 h
    obtain ⟨v₁, -, h⟩ := Prog.settles_bind.1 h
    obtain ⟨v₂, -, h⟩ := Prog.settles_bind.1 h
    obtain ⟨u, hobserve, h⟩ := Prog.settles_bind.1 h
    rw [Prog.settles_pure.1 h] at hobserve
    exact observe_le hj hpow hobserve
  dsimp only at h
  split at h
  · exact hrest h
  · exact hrest h

/-- **Every read of a parameter's key** is below the query, when the work list is empty. -/
theorem reads_le_query (hs : (Solver.system p).Reachable s) (hq : s.queue = []) (hj : j < 4)
    {t : Taint} (h : Reads p s j t) : t ≤ s.facts.query j := by
  obtain ⟨hfunc, hrun, hb, hreached, hk, hblk, hstart, hstop, hregs, hins, hop, haux, hkey, hpow,
    hv⟩ := h
  rename_i f fuel b k i kid func st blk regs ins aux v
  have inv := reachable_inv hs
  obtain ⟨fuel', st', hst'⟩ := inv.settles hq hfunc
  -- The run is the one that settles, so its blocks are closed.
  have hst : st = st' := by
    obtain ⟨s₁, h₁, -⟩ := hrun
    obtain ⟨s₂, h₂, -⟩ := inv.reruns hq f hst'
    have h₁ := exec_run_add h₁ fuel'
    have h₂ := exec_run_add h₂ fuel
    rw [Nat.add_comm fuel', h₁] at h₂
    exact congrArg Prod.fst (Option.some.inj h₂)
  obtain ⟨after, succ, hblock, -⟩ := (closed_of_settles hst').block b hb (hst ▸ hreached)
  rw [← hst] at hblock
  obtain ⟨k', hk', hblock⟩ := Prog.settles_bind.1 hblock
  cases (settles_index.1 hk').symm.trans hk
  obtain ⟨blk', hblk', hblock⟩ := Prog.settles_bind.1 hblock
  cases (settles_index.1 hblk').symm.trans hblk
  have hsplit : List.range' blk.start (blk.stop - blk.start) =
      List.range' blk.start (i - blk.start) ++ i :: List.range' (i + 1) (blk.stop - (i + 1)) := by
    rw [show i :: List.range' (i + 1) (blk.stop - (i + 1)) =
        List.range' i (blk.stop - i) by
      rw [show blk.stop - i = blk.stop - (i + 1) + 1 by omega, List.range'_succ]]
    rw [show List.range' i (blk.stop - i) =
        List.range' (blk.start + 1 * (i - blk.start)) (blk.stop - i) by
      rw [show blk.start + 1 * (i - blk.start) = i by omega]]
    rw [List.range'_append, show i - blk.start + (blk.stop - i) = blk.stop - blk.start by omega]
  rw [hsplit, List.foldlM_append] at hblock
  obtain ⟨regs', hregs', hblock⟩ := Prog.settles_bind.1 hblock
  obtain rfl := (inv.reruns hq f hregs').unique hregs
  obtain ⟨regs₂, htransfer, -⟩ := Prog.settles_bind.1 hblock
  obtain ⟨ins', hins', htransfer⟩ := Prog.settles_bind.1 htransfer
  cases (settles_index.1 hins').symm.trans hins
  obtain ⟨aux', haux', htransfer⟩ := Prog.settles_bind.1 htransfer
  cases (settles_index.1 haux').symm.trans haux
  rw [hop] at htransfer
  obtain ⟨v', hget, -⟩ := Prog.settles_bind.1 htransfer
  obtain rfl := (inv.reruns hq f hget).unique hv
  exact getProp_le hj hkey hpow hget

end Settled

/-- Below the path of an override there is nothing but the path, derived or not. -/
theorem Taint.le_path {t : Taint} {id : ℕ} {derived : Bool} (h : t ≤ .path id derived) :
    t = .clean ∨ ∃ d, t = .path id d ∧ (d = true → derived = true) := by
  have hsup : t.join (.path id derived) = .path id derived := sup_eq_right.2 h
  cases t with
  | clean => exact .inl rfl
  | lost => cases hsup
  | path i d =>
      rw [Taint.join] at hsup
      split at hsup
      · next heq =>
          cases heq
          have hor : (d || derived) = derived := (Taint.path.inj hsup).2
          exact .inr ⟨d, rfl, fun hd => by rw [← hor, hd, Bool.true_or]⟩
      · cases hsup

theorem Taint.eq_clean {t : Taint} (h : t ≤ .clean) : t = .clean := by
  have hsup : t.join .clean = .clean := sup_eq_right.2 h
  cases t with
  | clean => rfl
  | path | lost => cases hsup

/-- Every read of a parameter's key is without a source, or it reads the path that the override of
the parameter names, and it is derived only if that is. -/
def Covers (p : Program) (s : Solver) (o : FcOverrides) : Prop :=
  ∀ j < 4, ∀ t, Reads p s j t → t = .clean ∨
    ∃ path id derived keys, o.at_ j = some path ∧ t = .path id derived ∧
      (derived = true → path.derived = true) ∧ Keyed s.facts.paths id keys ∧
      p.wild ∉ keys ∧ path.steps = keys.map p.text

/-- **An answer with overrides speaks of every read** of a parameter's key that the solver has come
to when its work list is empty. -/
theorem overrides_cover {instrs : List Instr} {pool : List UInt16} {keys : PowKeys} {built : Built}
    {fuel : ℕ} {overrides : FcOverrides} (hbuild : build instrs pool keys = .ok built)
    (h : analyze fuel instrs pool keys = some (.ok (.dependent overrides))) :
    ∃ s, (Solver.system built.program).Reachable s ∧ s.queue = [] ∧
      Covers built.program s overrides := by
  cases analyzes_of_analyze h with
  | @solved built' s _ hbuild' _ hs hq hjudges =>
      cases hbuild.symm.trans hbuild'
      refine ⟨s, hs, hq, fun j hj t hreads => ?_⟩
      have hle := reads_le_query hs hq hj hreads
      cases hjudges with
      | dependent _ _ htracked =>
          have hj := htracked j hj
          cases ho : overrides.at_ j with
          | none =>
              rw [ho] at hj
              rw [hj] at hle
              exact .inl (Taint.eq_clean hle)
          | some path =>
              rw [ho] at hj
              obtain ⟨id, keys, hquery, hkeyed, hwild, hsteps⟩ := hj
              rw [hquery] at hle
              rcases Taint.le_path hle with hclean | ⟨d, ht, hderived⟩
              · exact .inl hclean
              · exact .inr ⟨path, id, d, keys, rfl, ht, hderived, hkeyed, hwild, hsteps⟩

/-- A function that reads a member of the dynamic configuration. -/
def readsDifficulty : List Instr :=
  [ ⟨0, .getProp, [.reg 0, .str ⟨0, 13⟩], some 4⟩,
    ⟨1, .getProp, [.reg 4, .str ⟨13, 1⟩], some 5⟩,
    ⟨2, .ret, [.reg 5], none⟩ ]

def difficultyPool : List UInt16 := "dynamicConfigd".toList.map fun c => c.toNat.toUInt16

def difficultyKeys : PowKeys := ⟨⟨13, 1⟩, ⟨0, 0⟩, ⟨0, 0⟩, ⟨0, 0⟩⟩

/-- The only override is that of the difficulty. -/
def OnlyDifficulty (o : FcOverrides) : Bool :=
  decide (o.difficulty = some ⟨["dynamicConfig", "d"], false⟩) && o.subCount.isNone &&
    o.seedSuffix.isNone && o.seedPhrase.isNone

def FcUsage.isOnlyDifficulty : FcUsage → Bool
  | .independent => false
  | .dependent o => OnlyDifficulty o

theorem overrides_cover_difficulty : ∃ built overrides, OnlyDifficulty overrides = true ∧
    build readsDifficulty difficultyPool difficultyKeys = .ok built ∧
    ∃ s, (Solver.system built.program).Reachable s ∧ s.queue = [] ∧
      Covers built.program s overrides := by
  have hanswer : (analyze 5 readsDifficulty difficultyPool difficultyKeys).any
      (fun r => r.toOption.any FcUsage.isOnlyDifficulty) = true := by decide +kernel
  obtain ⟨r, hr, hok⟩ := (Option.any_eq_true _ _).1 hanswer
  cases r with
  | error e => cases hok
  | ok usage =>
      cases usage with
      | independent => cases hok
      | dependent overrides =>
          cases hbuild : build readsDifficulty difficultyPool difficultyKeys with
          | error e => cases (analyze_refused hbuild).symm.trans hr
          | ok built => exact ⟨built, overrides, hok, rfl, overrides_cover hbuild hr⟩

end Fc
end Lunar
