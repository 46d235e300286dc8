/-
# The disassembler tiles the code and undoes its encoding

The instructions that come out of the code lie one after the other from the entry to the
key, each as wide as its words (`Tiled`), so their places increase and a place finds its
instruction by binary search.  The other way, the words of instructions that tile the code
come out as these instructions (`disassemble_tiles`).
-/

import Lunar.Worktime.Disassembler.Encode

namespace Lunar
namespace Worktime

open Lib (Double bind_ok)

/-- Instructions that lie one after the other from a place to a place. -/
def Tiled : ℕ → List Instr → ℕ → Prop
  | pc, [], key => pc = key
  | pc, ins :: instrs, key => ins.pc = pc ∧ Tiled (pc + ins.width) instrs key

theorem Tiled.append {pc mid key : ℕ} {a b : List Instr} (ha : Tiled pc a mid)
    (hb : Tiled mid b key) : Tiled pc (a ++ b) key := by
  induction a generalizing pc with
  | nil =>
      have hpc : pc = mid := ha
      rw [hpc]
      exact hb
  | cons ins a ih => exact ⟨ha.1, ih ha.2⟩

theorem Instr.width_pos (ins : Instr) : 0 < ins.width := by
  unfold Instr.width
  omega

theorem Tiled.pc_lt {pc key : ℕ} {instrs : List Instr} (h : Tiled pc instrs key) :
    ∀ ins ∈ instrs, pc ≤ ins.pc ∧ ins.pc < key := by
  induction instrs generalizing pc with
  | nil => exact nofun
  | cons ins instrs ih =>
      obtain ⟨rfl, hrest⟩ := h
      have hpos := ins.width_pos
      have hkey : ins.pc + ins.width ≤ key := by
        cases instrs with
        | nil => exact Nat.le_of_eq hrest
        | cons next instrs =>
            obtain ⟨hlow, hhigh⟩ := ih hrest next List.mem_cons_self
            omega
      intro i hi
      rcases List.mem_cons.1 hi with rfl | hi
      · omega
      · obtain ⟨hlow, hhigh⟩ := ih hrest i hi
        omega

/-- The places increase. -/
theorem Tiled.increasing {pc key : ℕ} {instrs : List Instr} (h : Tiled pc instrs key) :
    (instrs.map Instr.pc).Pairwise (· < ·) := by
  induction instrs generalizing pc with
  | nil => exact .nil
  | cons ins instrs ih =>
      obtain ⟨rfl, hrest⟩ := h
      refine List.pairwise_cons.2 ⟨fun p hp => ?_, ih hrest⟩
      obtain ⟨i, hi, rfl⟩ := List.mem_map.1 hp
      have hlow := (hrest.pc_lt i hi).1
      have hpos := ins.width_pos
      omega

/-- A place finds the instruction that starts there. -/
theorem instrIndex_eq_some {instrs : List Instr} (h : (instrs.map Instr.pc).Pairwise (· < ·))
    {pc i : ℕ} : instrIndex instrs pc = some i ↔ ∃ ins, instrs[i]? = some ins ∧ ins.pc = pc := by
  rw [instrIndex, Lib.binarySearch_eq_some h, List.getElem?_map, Option.map_eq_some_iff]

section Loop

variable {model : BuildModel} {decoded : Decoded} {key : ℕ}

/-- What the loop has at a place: instructions that tile the words before it, each of them
what the words at its place say, with its strings in the pool. -/
structure Swept (model : BuildModel) (decoded : Decoded) (instrs : List Instr) (pc : ℕ) :
    Prop where
  tiled : Tiled model.entryPc instrs pc
  read : ∀ ins ∈ instrs, instrAt model decoded ins.pc = .ok (ins, ins.pc + ins.width)
  pooled : ∀ ins ∈ instrs, Pooled decoded.pool.length ins.args

/-- `Swept` of a state of the loop. -/
def SweptState (model : BuildModel) (decoded : Decoded) :
    Except DisassembleError (ℕ × List Instr) → Prop
  | .error _ => True
  | .ok (pc, instrs) => Swept model decoded instrs pc

/-- The words before the key. -/
def todo (key : ℕ) : Except DisassembleError (ℕ × List Instr) → ℕ
  | .error _ => 0
  | .ok (pc, _) => key - pc + 1

/-- A turn keeps what the loop has, and comes nearer to the key. -/
theorem turn_swept (hkey : key < 2 ^ 32) {s s' : Except DisassembleError (ℕ × List Instr)}
    (hs : SweptState model decoded s) (h : turn model decoded key s = some s') :
    SweptState model decoded s' ∧ todo key s' < todo key s := by
  rcases s with e | ⟨pc, instrs⟩
  · cases h
  unfold turn at h
  dsimp only at h
  split at h
  · rename_i hlt
    obtain rfl := Option.some.inj h
    cases hins : instrAt model decoded pc with
    | error e =>
        refine ⟨trivial, ?_⟩
        show 0 < key - pc + 1
        omega
    | ok r =>
        obtain ⟨ins, next⟩ := r
        obtain ⟨hpc, rfl, hpool⟩ := instrAt_ok hins
        rw [Nat.mod_eq_of_lt (by omega)] at hpc
        obtain ⟨htiled, hread, hpooled⟩ := hs
        have hpos := ins.width_pos
        refine ⟨⟨htiled.append ⟨hpc, rfl⟩, fun i hi => ?_, fun i hi => ?_⟩, ?_⟩
        · rcases List.mem_append.1 hi with hi | hi
          · exact hread i hi
          · cases List.mem_singleton.1 hi
            rw [hpc]
            exact hins
        · rcases List.mem_append.1 hi with hi | hi
          · exact hpooled i hi
          · cases List.mem_singleton.1 hi
            exact hpool
        · show key - (pc + ins.width) + 1 < key - pc + 1
          omega
  · cases h

/-- The instructions of the code lie from the entry to the key. -/
theorem disassemble_swept {n : ℕ} {instrs : List Instr}
    (h : disassemble model decoded n = some (.ok instrs)) :
    Swept model decoded instrs (decoded.code.length - 1) := by
  unfold disassemble at h
  dsimp only at h
  split at h
  · cases h
  rename_i hlen
  split at h
  · cases h
  split at h
  · cases h
  obtain ⟨r, hr, hok⟩ := Option.map_eq_some_iff.1 h
  obtain ⟨⟨pc, instrs'⟩, rfl, hend⟩ := bind_ok hok
  split at hend
  · cases hend
  rename_i hpc
  cases hend
  have hstart : SweptState model decoded (.ok (model.entryPc, [])) := ⟨rfl, nofun, nofun⟩
  have hkey : decoded.code.length - 1 < 2 ^ 32 := by omega
  obtain ⟨t, ht, -, hloop⟩ := Lib.loop_spec (fun s s' => turn_swept hkey) hstart
  have hmax := Lib.loop_mono hr (Nat.le_max_left n (decoded.code.length + 1))
  have hbound :
      todo (decoded.code.length - 1) (.ok (model.entryPc, [])) < decoded.code.length + 1 := by
    show decoded.code.length - 1 - model.entryPc + 1 < decoded.code.length + 1
    omega
  rw [hloop _ (Nat.lt_of_lt_of_le hbound (Nat.le_max_right _ _))] at hmax
  obtain rfl := Option.some.inj hmax
  rw [← not_not.1 hpc]
  exact ht

/-- The loop over the words of instructions. -/
theorem loop_encode {rest : List Word} (htags : model.tags.Proper) (hkey : key < 2 ^ 32)
    {instrs : List Instr} {pc : ℕ} (acc : List Instr) (htiled : Tiled pc instrs key)
    (hins : ∀ ins ∈ instrs, Encodable model decoded.pool.length ins)
    (hshort : ∀ ins ∈ instrs, Short ins.args) (hdrop : decoded.code.drop pc = encode model instrs ++ rest) :
    Lib.loop (turn model decoded key) (instrs.length + 1) (.ok (pc, acc))
      = some (.ok (key, acc ++ instrs)) := by
  induction instrs generalizing pc acc with
  | nil =>
      have hpc : pc = key := htiled
      have hdone : turn model decoded key (.ok (pc, acc)) = none :=
        if_neg (Nat.not_lt.2 (Nat.le_of_eq hpc.symm))
      rw [Lib.loop_done hdone, hpc, List.append_nil]
  | cons ins instrs ih =>
      have hlt := (htiled.pc_lt ins List.mem_cons_self).2
      obtain ⟨rfl, hrest⟩ := htiled
      rw [encode, List.flatMap_cons, List.append_assoc] at hdrop
      have hnext := drop_append hdrop
      rw [length_encodeInstr] at hnext
      have hread := instrAt_encode htags (hins ins List.mem_cons_self)
        (hshort ins List.mem_cons_self) (by omega) hdrop
      have hturn : turn model decoded key (.ok (ins.pc, acc))
          = some (.ok (ins.pc + ins.width, acc ++ [ins])) := by
        unfold turn
        dsimp only
        rw [if_pos hlt, hread]
        rfl
      rw [List.length_cons, Lib.loop_turn hturn,
        ih _ hrest (fun i hi => hins i (List.mem_cons_of_mem _ hi))
          (fun i hi => hshort i (List.mem_cons_of_mem _ hi)) hnext, List.append_assoc]
      rfl

/-- Instructions that the words of a build can say, from its entry on. -/
structure Encodes (model : BuildModel) (pool : List (BitVec 16)) (before : List Word)
    (instrs : List Instr) : Prop where
  tags : model.tags.Proper
  entry : before.length = model.entryPc
  tiled : Tiled model.entryPc instrs (before ++ encode model instrs).length
  ins : ∀ ins ∈ instrs, Encodable model pool.length ins

/-- The words of instructions come out as the instructions. -/
theorem disassemble_encode {pool : List (BitVec 16)} {before : List Word} {instrs : List Instr}
    {last : Word} (h : Encodes model pool before instrs) (hshift : model.regShift < MAX_REG_SHIFT)
    (hshort : ∀ ins ∈ instrs, Short ins.args) (hlow : 1 ≤ (before ++ encode model instrs).length)
    (hhigh : (before ++ encode model instrs).length < 2 ^ 32 - 1) {n : ℕ}
    (hn : instrs.length < n) :
    disassemble model ⟨before ++ encode model instrs ++ [last], pool⟩ n = some (.ok instrs) := by
  obtain ⟨htags, hentry, htiled, hins⟩ := h
  have hlen : (before ++ encode model instrs ++ [last]).length
      = (before ++ encode model instrs).length + 1 := by
    rw [List.length_append, List.length_singleton]
  have hle : model.entryPc ≤ (before ++ encode model instrs).length := by
    rw [← hentry, List.length_append]
    exact Nat.le_add_right _ _
  have hdrop : (before ++ encode model instrs ++ [last]).drop model.entryPc
      = encode model instrs ++ [last] := by
    rw [List.append_assoc, ← hentry, List.drop_left]
  have hkey : (before ++ encode model instrs).length < 2 ^ 32 := by omega
  have hloop := @loop_encode model ⟨before ++ encode model instrs ++ [last], pool⟩ _ _ htags hkey
    instrs _ [] htiled hins hshort hdrop
  unfold disassemble
  dsimp only
  rw [hlen, Nat.add_sub_cancel, if_neg (by omega), if_neg (Nat.not_le.2 hshift),
    if_neg (Nat.not_lt.2 hle), Lib.loop_mono hloop hn]
  show some (if _ then _ else _) = _
  rw [if_neg (not_not.2 rfl)]
  rfl

end Loop

/-- **The disassembler tiles the code and undoes its encoding.**  The instructions that come
out lie from the entry to the key, each of them what the words at its place say; the places
increase, a place finds its instruction, and every string is in the pool.  Instructions
that the words of a build can say come out of their words, if the code has from 2 to
`u32::MAX` words, the shift is one of a word and the strings are short. -/
theorem disassemble_tiles (model : BuildModel) (pool : List (BitVec 16)) :
    (∀ code n instrs, disassemble model ⟨code, pool⟩ n = some (.ok instrs) →
      Tiled model.entryPc instrs (code.length - 1) ∧
      (∀ ins ∈ instrs,
        instrAt model ⟨code, pool⟩ ins.pc = .ok (ins, ins.pc + ins.width)) ∧
      (instrs.map Instr.pc).Pairwise (· < ·) ∧
      (∀ pc i, instrIndex instrs pc = some i ↔ ∃ ins, instrs[i]? = some ins ∧ ins.pc = pc) ∧
      ∀ ins ∈ instrs, ∀ r, .str r ∈ ins.args → r.off + r.len ≤ pool.length) ∧
    ∀ before instrs last, Encodes model pool before instrs → model.regShift < MAX_REG_SHIFT →
      (∀ ins ∈ instrs, Short ins.args) → 1 ≤ (before ++ encode model instrs).length →
      (before ++ encode model instrs).length < 2 ^ 32 - 1 → ∀ n, instrs.length < n →
      disassemble model ⟨before ++ encode model instrs ++ [last], pool⟩ n = some (.ok instrs) := by
  constructor
  · intro code n instrs h
    obtain ⟨htiled, hread, hpooled⟩ := disassemble_swept h
    have hincr := htiled.increasing
    exact ⟨htiled, hread, hincr, fun pc i => instrIndex_eq_some hincr, hpooled⟩
  · intro before instrs last h hshift hshort hlow hhigh n hn
    exact disassemble_encode h hshift hshort hlow hhigh hn

def smallTags : Tags := ⟨0, 2, 4, 6, 8, 10⟩

theorem smallTags_proper : smallTags.Proper := by
  constructor
  · show ([0, 2, 4, 6, 8, 10] : List Word).Nodup
    simp
  · show ∀ t ∈ ([0, 2, 4, 6, 8, 10] : List Word), t.toNat % 2 = 0
    simp

/-- A build with a few instructions. -/
def smallBuild (entryPc regShift : ℕ) : BuildModel where
  tags := smallTags
  ops := ⟨((Op.getProp :: Op.addRO :: List.replicate 84 .halt)).toArray, rfl⟩
  entryPc := entryPc
  regShift := regShift

/-- A property by its name, a sum with a double, and the end. -/
def smallCode : List Instr :=
  [⟨1, .getProp, [.reg 3, .str ⟨1, 2⟩], some 4⟩, ⟨7, .addRO, [.reg 4, .dbl 1], some 4⟩,
    ⟨13, .halt, [], none⟩]

theorem regFits_small {r : ℕ} (h : r < 6) : RegFits 4 r := by
  show r * 2 ^ 4 < 2 ^ 31
  omega

theorem smallCode_encodes : Encodes (smallBuild 1 4) [65, 66, 67] [7] smallCode := by
  refine ⟨smallTags_proper, rfl, ⟨rfl, rfl, rfl, rfl⟩, fun ins h => ?_⟩
  have hdest : ∀ d ∈ some 4, RegFits 4 d :=
    fun d hd => Option.mem_some.1 hd ▸ regFits_small (by decide)
  simp only [smallCode, List.mem_cons, List.not_mem_nil, or_false] at h
  rcases h with rfl | rfl | rfl
  · have htag : encodeReg 4 3 ∉ smallTags.words := by
      show (48 : Word) ∉ ([0, 2, 4, 6, 8, 10] : List Word)
      simp
    have hstr : OperandFits smallTags 4 3 (.str ⟨1, 2⟩) := Nat.le_refl 3
    exact ⟨by decide, .cons ⟨regFits_small (by decide), rfl, htag⟩ (.cons hstr .nil), rfl, hdest⟩
  · have hdouble : Double.ofBits 1 ≠ .nan := by decide
    exact ⟨by decide, .cons ⟨4, rfl, regFits_small (by decide)⟩ (.cons hdouble .nil), rfl, hdest⟩
  · exact ⟨by decide, .nil, rfl, nofun⟩

theorem smallCode_short : ∀ ins ∈ smallCode, Short ins.args := by
  intro ins h r hr
  simp only [smallCode, List.mem_cons, List.not_mem_nil, or_false] at h
  rcases h with rfl | rfl | rfl
  · simp only [List.mem_cons, List.not_mem_nil, or_false, reduceCtorEq, false_or,
      Operand.str.injEq] at hr
    rw [hr]
    dsimp only
    omega
  · simp at hr
  · simp at hr

theorem disassemble_tiles_small :
    disassemble (smallBuild 1 4) ⟨[7] ++ encode (smallBuild 1 4) smallCode ++ [9], [65, 66, 67]⟩ 4
      = some (.ok smallCode) ∧
    instrIndex smallCode 7 = some 1 := by
  have hlen : ([7] ++ encode (smallBuild 1 4) smallCode).length = 14 := rfl
  have hrun := (disassemble_tiles (smallBuild 1 4) [65, 66, 67]).2 [7] smallCode 9
    smallCode_encodes (by decide) smallCode_short (by omega) (by omega) 4 (by decide)
  have htiles := (disassemble_tiles (smallBuild 1 4) [65, 66, 67]).1 _ _ _ hrun
  exact ⟨hrun, (htiles.2.2.2.1 7 1).2 ⟨_, rfl, rfl⟩⟩

/-- A string that is as long as no word says. -/
def longCode : List Instr := [⟨0, .getProp, [.str ⟨0, 2 ^ 31⟩, .undef], some 0⟩]

/-- The words of the string read as a string that no pool holds. -/
theorem operand_long {s : Sweep} {pc : ℕ} {off : Word} {rest : List Word} (htags : s.tags.Proper)
    (hdrop : s.code.drop pc = s.tags.string :: .ofNat 32 (2 ^ 31) :: off :: rest)
    (r : Operand × ℕ) : s.operand pc ≠ .ok r := by
  intro h
  have heven : ¬ (s.tags.string &&& 1 ≠ 0) := by
    intro hodd
    have hmod := (and_one _).1 hodd
    have htag := htags.2 s.tags.string List.mem_cons_self
    omega
  have hneg : (BitVec.ofNat 32 (2 ^ 31) : Word).toInt < 0 := by decide
  unfold Sweep.operand at h
  rw [word_of_drop hdrop] at h
  obtain ⟨word, hword, h⟩ := bind_ok h
  cases hword
  rw [if_neg heven, if_pos rfl, word_of_drop (drop_succ hdrop),
    word_of_drop (drop_succ (drop_succ hdrop))] at h
  obtain ⟨len, hlen, h⟩ := bind_ok h
  obtain ⟨off', _, h⟩ := bind_ok h
  cases hlen
  rw [if_pos (.inl hneg)] at h
  cases h

/-- No instructions at all: the code is the key alone, which is too short.  A shift of a
whole word is refused.  A string of `2 ^ 31` units has a length that reads as negative. -/
theorem disassemble_not_encode :
    (Encodes (smallBuild 0 4) [] [] [] ∧
      ∀ n, disassemble (smallBuild 0 4) ⟨encode (smallBuild 0 4) [] ++ [0], []⟩ n
        ≠ some (.ok [])) ∧
    (Encodes (smallBuild 0 32) [] [] [⟨0, .halt, [], none⟩] ∧
      ∀ n, disassemble (smallBuild 0 32)
        ⟨encode (smallBuild 0 32) [⟨0, .halt, [], none⟩] ++ [0], []⟩ n
          ≠ some (.ok [⟨0, .halt, [], none⟩])) ∧
    Encodes (smallBuild 0 4) (.replicate (2 ^ 31) 0) [] longCode ∧
      ∀ n, disassemble (smallBuild 0 4)
        ⟨encode (smallBuild 0 4) longCode ++ [0], .replicate (2 ^ 31) 0⟩ n
          ≠ some (.ok longCode) := by
  refine ⟨⟨⟨smallTags_proper, rfl, rfl, nofun⟩, fun n h => ?_⟩,
    ⟨⟨smallTags_proper, rfl, ⟨rfl, rfl⟩, fun ins h => ?_⟩, fun n h => ?_⟩,
    ⟨smallTags_proper, rfl, ⟨rfl, rfl⟩, fun ins h => ?_⟩, fun n h => ?_⟩
  · cases h
  · obtain rfl := List.mem_singleton.1 h
    exact ⟨by decide, .nil, rfl, nofun⟩
  · cases h
  · obtain rfl := List.mem_singleton.1 h
    have hstr : OperandFits smallTags 4 (List.replicate (2 ^ 31) (0 : BitVec 16)).length
        (.str ⟨0, 2 ^ 31⟩) := by
      show 0 + 2 ^ 31 ≤ _
      rw [List.length_replicate, Nat.zero_add]
    have hdest : ∀ d ∈ some 0, RegFits 4 d :=
      fun d hd => Option.mem_some.1 hd ▸ regFits_small (by decide)
    exact ⟨by decide, .cons hstr (.cons trivial .nil), rfl, hdest⟩
  · have hread := (disassemble_swept h).read _ List.mem_cons_self
    obtain ⟨args, hargs, -⟩ := bind_ok hread
    obtain ⟨arg, harg, -⟩ := bind_ok hargs
    exact operand_long smallTags_proper rfl arg harg

end Worktime
end Lunar
