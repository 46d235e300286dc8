/-
# What the sweep reads

Whatever a sweep reads it reads word after word: the instruction at a place ends one word
after its last (`instrAt_ok`), and its strings are in the pool.  The words that a slot is
encoded by are read as the slot again (`slot_encode`), and so the words of an instruction
as the instruction (`instrAt_encode`).
-/

import Lunar.Worktime.Disassembler.Doubles

namespace Lunar
namespace Worktime

open Lib (Double bind_ok)
open Lib.Double (toNat_words)

/-! ## Widths -/

/-- The number of words of an operand. -/
def Operand.width : Operand → ℕ
  | .str _ | .dbl _ => 3
  | _ => 1

/-- The number of words of operands. -/
def argsWidth (args : List Operand) : ℕ := (args.map Operand.width).sum

/-- The number of words of an instruction. -/
def Instr.width (ins : Instr) : ℕ := 1 + argsWidth ins.args + if ins.dest.isSome then 1 else 0

/-- The strings of operands are in the pool. -/
def Pooled (poolLen : ℕ) (args : List Operand) : Prop :=
  ∀ r, .str r ∈ args → r.off + r.len ≤ poolLen

section Read

variable {s : Sweep} {pc next : ℕ}

theorem register_ok {r : ℕ} (h : s.register pc = .ok (r, next)) : next = pc + 1 := by
  obtain ⟨word, _, h⟩ := bind_ok h
  obtain ⟨r', _, h⟩ := bind_ok h
  cases h
  rfl

theorem operand_ok {arg : Operand} (h : s.operand pc = .ok (arg, next)) :
    next = pc + arg.width ∧ Pooled s.poolLen [arg] := by
  have hother : ∀ {a : Operand}, (∀ r, a ≠ .str r) → Pooled s.poolLen [a] :=
    fun ha r hr => absurd (List.mem_singleton.1 hr).symm (ha r)
  obtain ⟨word, _, h⟩ := bind_ok h
  split at h
  · cases h
    exact ⟨rfl, hother nofun⟩
  split at h
  · obtain ⟨len, _, h⟩ := bind_ok h
    obtain ⟨off, _, h⟩ := bind_ok h
    split at h
    · cases h
    · rename_i hpool
      cases h
      refine ⟨rfl, fun r hr => ?_⟩
      cases List.mem_singleton.1 hr
      show off.toNat + len.toNat ≤ s.poolLen
      omega
  split at h
  · cases h
    exact ⟨rfl, hother nofun⟩
  split at h
  · cases h
    exact ⟨rfl, hother nofun⟩
  split at h
  · cases h
    exact ⟨rfl, hother nofun⟩
  split at h
  · cases h
    exact ⟨rfl, hother nofun⟩
  split at h
  · obtain ⟨hi, _, h⟩ := bind_ok h
    obtain ⟨lo, _, h⟩ := bind_ok h
    cases h
    exact ⟨rfl, hother nofun⟩
  · obtain ⟨r, _, h⟩ := bind_ok h
    cases h
    exact ⟨rfl, hother nofun⟩

theorem slot_ok {slot : Slot} {arg : Operand} (h : s.slot pc slot = .ok (arg, next)) :
    next = pc + arg.width ∧ Pooled s.poolLen [arg] := by
  cases slot with
  | operand => exact operand_ok h
  | register =>
      obtain ⟨⟨r, pc'⟩, hr, h⟩ := bind_ok h
      cases h
      exact ⟨register_ok hr, fun r hr => nomatch List.mem_singleton.1 hr⟩

theorem args_ok {slots : List Slot} {args : List Operand} (h : s.args pc slots = .ok (args, next)) :
    next = pc + argsWidth args ∧ Pooled s.poolLen args := by
  induction slots generalizing pc args with
  | nil =>
      cases h
      exact ⟨rfl, nofun⟩
  | cons slot slots ih =>
      obtain ⟨⟨arg, pc'⟩, hslot, h⟩ := bind_ok h
      obtain ⟨⟨args', next'⟩, hargs, h⟩ := bind_ok h
      cases h
      obtain ⟨rfl, harg⟩ := slot_ok hslot
      obtain ⟨rfl, hpool⟩ := ih hargs
      refine ⟨?_, fun r hr => ?_⟩
      · rw [argsWidth, argsWidth, List.map_cons, List.sum_cons, Nat.add_assoc]
      · rcases List.mem_cons.1 hr with rfl | hr
        · exact harg r (List.mem_singleton.2 rfl)
        · exact hpool r hr

theorem dest_ok {has : Bool} {dest : Option ℕ} (h : s.dest pc has = .ok (dest, next)) :
    next = pc + if dest.isSome then 1 else 0 := by
  unfold Sweep.dest at h
  split at h
  · obtain ⟨⟨d, pc'⟩, hd, h⟩ := bind_ok h
    cases h
    exact register_ok hd
  · cases h
    rfl

end Read

/-- **The instruction at a place** ends where its words end, and its strings are in the
pool. -/
theorem instrAt_ok {model : BuildModel} {decoded : Decoded} {pc next : ℕ} {ins : Instr}
    (h : instrAt model decoded pc = .ok (ins, next)) :
    ins.pc = pc % 2 ^ 32 ∧ next = pc + ins.width ∧ Pooled decoded.pool.length ins.args := by
  unfold instrAt at h
  dsimp only at h
  split at h
  · cases h
  · obtain ⟨⟨args, mid⟩, hargs, h⟩ := bind_ok h
    obtain ⟨⟨dest, last⟩, hdest, h⟩ := bind_ok h
    cases h
    obtain ⟨rfl, hpool⟩ := args_ok hargs
    obtain rfl := dest_ok hdest
    refine ⟨rfl, ?_, hpool⟩
    rw [Instr.width]
    dsimp only
    omega

/-! ## Encoding -/

def Tags.words (tags : Tags) : List Word :=
  [tags.string, tags.double, tags.true_, tags.false_, tags.null, tags.undefined]

/-- The tags are even and no two are the same. -/
def Tags.Proper (tags : Tags) : Prop := tags.words.Nodup ∧ ∀ t ∈ tags.words, t.toNat % 2 = 0

/-- The word of a register. -/
def encodeReg (shift r : ℕ) : Word := .ofNat 32 (r * 2 ^ shift)

/-- The words of an operand. -/
def encodeOperand (tags : Tags) (shift : ℕ) : Operand → List Word
  | .int i => [.ofInt 32 (2 * i + 1)]
  | .str r => [tags.string, .ofNat 32 r.len, .ofNat 32 r.off]
  | .dbl bits => [tags.double, bits.extractLsb' 32 32, bits.extractLsb' 0 32]
  | .true => [tags.true_]
  | .false => [tags.false_]
  | .null => [tags.null]
  | .undef => [tags.undefined]
  | .reg r => [encodeReg shift r]

/-- The words of operands. -/
def encodeArgs (tags : Tags) (shift : ℕ) (args : List Operand) : List Word :=
  args.flatMap (encodeOperand tags shift)

/-- The words of an instruction. -/
def encodeInstr (model : BuildModel) (ins : Instr) : List Word :=
  .ofNat 32 (model.ops.toList.idxOf ins.op) ::
    (encodeArgs model.tags model.regShift ins.args ++
      ins.dest.toList.map (encodeReg model.regShift))

/-- The words of instructions. -/
def encode (model : BuildModel) (instrs : List Instr) : List Word :=
  instrs.flatMap (encodeInstr model)

/-- The word of a register is not negative. -/
def RegFits (shift r : ℕ) : Prop := r * 2 ^ shift < 2 ^ 31

/-- The offsets and lengths of strings fit in words that are not negative. -/
def Short (args : List Operand) : Prop := ∀ r, .str r ∈ args → r.off < 2 ^ 31 ∧ r.len < 2 ^ 31

/-- Operands that a tagged slot can hold. -/
def OperandFits (tags : Tags) (shift poolLen : ℕ) : Operand → Prop
  | .int i => -2 ^ 30 ≤ i ∧ i < 2 ^ 30
  | .str r => r.off + r.len ≤ poolLen
  | .dbl bits => Double.ofBits bits ≠ .nan
  | .reg r => RegFits shift r ∧ r * 2 ^ shift % 2 = 0 ∧ encodeReg shift r ∉ tags.words
  | _ => True

/-- Operands that a slot can hold. -/
def SlotFits (tags : Tags) (shift poolLen : ℕ) : Slot → Operand → Prop
  | .operand, arg => OperandFits tags shift poolLen arg
  | .register, arg => ∃ r, arg = .reg r ∧ RegFits shift r

/-- Instructions that the words of a build can say. -/
structure Encodable (model : BuildModel) (poolLen : ℕ) (ins : Instr) : Prop where
  op : ins.op ∈ model.ops.toList
  args : List.Forall₂ (SlotFits model.tags model.regShift poolLen) ins.op.shape.slots ins.args
  dest : ins.dest.isSome = ins.op.shape.dest
  fits : ∀ d ∈ ins.dest, RegFits model.regShift d

section Words

variable {s : Sweep} {pc : ℕ}

theorem drop_succ {α : Type} {l rest : List α} {x : α} {n : ℕ} (h : l.drop n = x :: rest) :
    l.drop (n + 1) = rest := by
  rw [← List.tail_drop, h, List.tail_cons]

theorem word_of_drop {w : Word} {rest : List Word} (h : s.code.drop pc = w :: rest) :
    s.word pc = .ok w := by
  have hget : s.code[pc]? = some w := by
    rw [← Nat.add_zero pc, ← List.getElem?_drop, h]
    rfl
  unfold Sweep.word
  rw [hget]

theorem and_one (w : Word) : w &&& 1 ≠ 0 ↔ w.toNat % 2 = 1 := by
  have hand : (w &&& 1).toNat = w.toNat % 2 := by
    rw [BitVec.toNat_and]
    exact Nat.and_one_is_mod w.toNat
  constructor
  · intro h
    by_contra hno
    refine h (BitVec.eq_of_toNat_eq ?_)
    rw [hand]
    show _ = 0
    omega
  · intro h hzero
    rw [hzero, h] at hand
    exact absurd hand (by decide)

theorem toNat_encodeReg {shift r : ℕ} (h : RegFits shift r) :
    (encodeReg shift r).toNat = r * 2 ^ shift := by
  have hlt : r * 2 ^ shift < 2 ^ 31 := h
  rw [encodeReg, BitVec.toNat_ofNat, Nat.mod_eq_of_lt (by omega)]

theorem reg_encode {r : ℕ} (h : RegFits s.shift r) : s.reg pc (encodeReg s.shift r) = .ok r := by
  have hlt : r * 2 ^ s.shift < 2 ^ 31 := h
  have hnat := toNat_encodeReg h
  have hint : (encodeReg s.shift r).toInt = (r * 2 ^ s.shift : ℕ) := by
    rw [BitVec.toInt_eq_toNat_of_lt (by omega), hnat]
  have hmsb : (encodeReg s.shift r).msb = false := by
    rw [BitVec.msb_eq_decide, hnat]
    exact decide_eq_false (by omega)
  unfold Sweep.reg
  rw [if_neg (by omega), BitVec.sshiftRight_eq_of_msb_false hmsb, BitVec.toNat_ushiftRight, hnat,
    Nat.shiftRight_eq_div_pow, Nat.mul_div_cancel _ (Nat.two_pow_pos _)]

theorem register_encode {r : ℕ} {rest : List Word} (h : RegFits s.shift r)
    (hdrop : s.code.drop pc = encodeReg s.shift r :: rest) :
    s.register pc = .ok (r, pc + 1) := by
  unfold Sweep.register
  rw [word_of_drop hdrop]
  show (s.reg pc (encodeReg s.shift r) >>= fun r => _) = _
  rw [reg_encode h]
  rfl

/-- The integer of 31 bits in a word. -/
theorem int_encode {i : ℤ} (hlow : -2 ^ 30 ≤ i) (hhigh : i < 2 ^ 30) :
    (BitVec.ofInt 32 (2 * i + 1) : Word) &&& 1 ≠ 0 ∧
      ((BitVec.ofInt 32 (2 * i + 1) : Word).sshiftRight 1).toInt = i := by
  have hint : (BitVec.ofInt 32 (2 * i + 1) : Word).toInt = 2 * i + 1 := by
    rw [BitVec.toInt_ofInt, Int.bmod_eq_of_le (by omega) (by omega)]
  constructor
  · rw [and_one, BitVec.toNat_ofInt]
    omega
  · rw [BitVec.toInt_sshiftRight, hint, Int.shiftRight_eq_div_pow]
    omega

theorem ofNat_toInt {n : ℕ} (h : n < 2 ^ 31) : (BitVec.ofNat 32 n : Word).toInt = n := by
  have hnat : (BitVec.ofNat 32 n : Word).toNat = n := by
    rw [BitVec.toNat_ofNat, Nat.mod_eq_of_lt (by omega)]
  rw [BitVec.toInt_eq_toNat_of_lt (by omega), hnat]

/-- The double of the words of a double. -/
theorem dbl_encode {bits : BitVec 64} (h : Double.ofBits bits ≠ .nan) :
    (double (bits.extractLsb' 32 32) (bits.extractLsb' 0 32)).toBits = bits := by
  have hwords : bits.extractLsb' 32 32 ++ bits.extractLsb' 0 32 = bits := by
    apply BitVec.eq_of_toNat_eq
    rw [toNat_words, BitVec.extractLsb'_toNat, BitVec.extractLsb'_toNat, Nat.shiftRight_eq_div_pow,
      Nat.shiftRight_zero]
    have hlt := bits.isLt
    omega
  rw [double_eq, hwords, Double.toBits_ofBits h]

/-- **The words of an operand are read as the operand**, by tags that differ. -/
theorem operand_encode {arg : Operand} {rest : List Word} (htags : s.tags.Proper)
    (harg : OperandFits s.tags s.shift s.poolLen arg) (hshort : Short [arg])
    (hdrop : s.code.drop pc = encodeOperand s.tags s.shift arg ++ rest) :
    s.operand pc = .ok (arg, pc + arg.width) := by
  obtain ⟨hnodup, heven⟩ := htags
  have hword : ∀ {w : Word}, w.toNat % 2 = 0 → ¬ (w &&& 1 ≠ 0) := by
    intro w hw hodd
    have hmod := (and_one w).1 hodd
    omega
  simp only [Tags.words, List.mem_cons, List.not_mem_nil, or_false, forall_eq_or_imp, forall_eq,
    List.nodup_cons, not_or, List.nodup_nil, not_false_eq_true, and_true] at hnodup heven
  obtain ⟨⟨hsd, hst, hsf, hsn, hsu⟩, ⟨hdt, hdf, hdn, hdu⟩, ⟨htf, htn, htu⟩, ⟨hfn, hfu⟩, hnu⟩ :=
    hnodup
  obtain ⟨hs, hd, ht, hf, hn, hu⟩ := heven
  unfold Sweep.operand
  cases arg with
  | int i =>
      obtain ⟨hodd, hint⟩ := int_encode harg.1 harg.2
      rw [word_of_drop hdrop]
      show (if _ then _ else _) = _
      rw [if_pos hodd]
      show Except.ok (Operand.int _, _) = _
      rw [hint]
      rfl
  | str r =>
      have hpool : r.off + r.len ≤ s.poolLen := harg
      obtain ⟨hoff, hlen⟩ := hshort r (List.mem_singleton.2 rfl)
      rw [word_of_drop hdrop]
      show (if _ then _ else _) = _
      rw [if_neg (hword hs), if_pos rfl, word_of_drop (drop_succ hdrop),
        word_of_drop (drop_succ (drop_succ hdrop))]
      show (if _ then _ else _) = _
      rw [ofNat_toInt hoff, ofNat_toInt hlen, BitVec.toNat_ofNat, BitVec.toNat_ofNat,
        Nat.mod_eq_of_lt (by omega), Nat.mod_eq_of_lt (by omega), if_neg (by omega)]
      rfl
  | dbl bits =>
      rw [word_of_drop hdrop]
      show (if _ then _ else _) = _
      rw [if_neg (hword hd), if_neg (Ne.symm hsd), if_neg hdt, if_neg hdn, if_neg hdf, if_neg hdu,
        if_pos rfl, word_of_drop (drop_succ hdrop), word_of_drop (drop_succ (drop_succ hdrop))]
      show Except.ok (Operand.dbl _, _) = _
      rw [dbl_encode harg]
      rfl
  | true =>
      rw [word_of_drop hdrop]
      show (if _ then _ else _) = _
      rw [if_neg (hword ht), if_neg (Ne.symm hst), if_pos rfl]
      rfl
  | false =>
      rw [word_of_drop hdrop]
      show (if _ then _ else _) = _
      rw [if_neg (hword hf), if_neg (Ne.symm hsf), if_neg (Ne.symm htf), if_neg hfn, if_pos rfl]
      rfl
  | null =>
      rw [word_of_drop hdrop]
      show (if _ then _ else _) = _
      rw [if_neg (hword hn), if_neg (Ne.symm hsn), if_neg (Ne.symm htn), if_pos rfl]
      rfl
  | undef =>
      rw [word_of_drop hdrop]
      show (if _ then _ else _) = _
      rw [if_neg (hword hu), if_neg (Ne.symm hsu), if_neg (Ne.symm htu), if_neg (Ne.symm hnu),
        if_neg (Ne.symm hfu), if_pos rfl]
      rfl
  | reg r =>
      obtain ⟨hfits, hreven, htag⟩ := harg
      simp only [Tags.words, List.mem_cons, List.not_mem_nil, or_false, not_or] at htag
      obtain ⟨hrs, hrd, hrt, hrf, hrn, hru⟩ := htag
      rw [word_of_drop hdrop]
      show (if _ then _ else _) = _
      rw [if_neg (hword (by rw [toNat_encodeReg hfits]; exact hreven)), if_neg hrs, if_neg hrt,
        if_neg hrn, if_neg hrf, if_neg hru, if_neg hrd, reg_encode hfits]
      rfl

theorem slot_encode {slot : Slot} {arg : Operand} {rest : List Word} (htags : s.tags.Proper)
    (harg : SlotFits s.tags s.shift s.poolLen slot arg) (hshort : Short [arg])
    (hdrop : s.code.drop pc = encodeOperand s.tags s.shift arg ++ rest) :
    s.slot pc slot = .ok (arg, pc + arg.width) := by
  cases slot with
  | operand => exact operand_encode htags harg hshort hdrop
  | register =>
      obtain ⟨r, rfl, hfits⟩ := harg
      rw [Sweep.slot, register_encode hfits hdrop]
      rfl

theorem length_encodeOperand (tags : Tags) (shift : ℕ) (arg : Operand) :
    (encodeOperand tags shift arg).length = arg.width := by
  cases arg with
  | int | str | dbl | true | false | null | undef | reg => rfl

/-- What follows the words of an operand. -/
theorem drop_append {α : Type} {l ws rest : List α} {n : ℕ} (h : l.drop n = ws ++ rest) :
    l.drop (n + ws.length) = rest := by
  rw [← List.drop_drop, h, List.drop_left]

theorem args_encode {slots : List Slot} {args : List Operand} {rest : List Word}
    (htags : s.tags.Proper) (hargs : List.Forall₂ (SlotFits s.tags s.shift s.poolLen) slots args)
    (hshort : Short args) (hdrop : s.code.drop pc = encodeArgs s.tags s.shift args ++ rest) :
    s.args pc slots = .ok (args, pc + argsWidth args) := by
  induction hargs generalizing pc with
  | nil => rfl
  | @cons slot arg slots args harg _ ih =>
      have hfirst : Short [arg] := fun r hr =>
        hshort r (List.mem_cons.2 (.inl (List.mem_singleton.1 hr)))
      have hothers : Short args := fun r hr => hshort r (List.mem_cons_of_mem _ hr)
      rw [encodeArgs, List.flatMap_cons, List.append_assoc] at hdrop
      have hrest := drop_append hdrop
      rw [length_encodeOperand] at hrest
      rw [Sweep.args, slot_encode htags harg hfirst hdrop]
      show (s.args (pc + arg.width) slots >>= fun p => _) = _
      rw [ih hothers hrest, argsWidth, argsWidth, List.map_cons, List.sum_cons, ← Nat.add_assoc]
      rfl

theorem dest_encode {has : Bool} {dest : Option ℕ} {rest : List Word} (hhas : dest.isSome = has)
    (hfits : ∀ d ∈ dest, RegFits s.shift d)
    (hdrop : s.code.drop pc = dest.toList.map (encodeReg s.shift) ++ rest) :
    s.dest pc has = .ok (dest, pc + if dest.isSome then 1 else 0) := by
  subst hhas
  cases dest with
  | none => rfl
  | some d =>
      have hreg : s.register pc = .ok (d, pc + 1) := register_encode (hfits d rfl) hdrop
      show (s.register pc >>= fun p => _) = _
      rw [hreg]
      rfl

end Words

theorem length_encodeArgs (tags : Tags) (shift : ℕ) (args : List Operand) :
    (encodeArgs tags shift args).length = argsWidth args := by
  unfold encodeArgs argsWidth
  rw [List.length_flatMap]
  simp only [length_encodeOperand]

theorem length_encodeInstr (model : BuildModel) (ins : Instr) :
    (encodeInstr model ins).length = ins.width := by
  rw [encodeInstr, List.length_cons, List.length_append, length_encodeArgs, List.length_map,
    Option.length_toList, Instr.width, Nat.add_comm, Nat.add_assoc]

/-- **The words of an instruction are read as the instruction.** -/
theorem instrAt_encode {model : BuildModel} {decoded : Decoded} {ins : Instr} {rest : List Word}
    (htags : model.tags.Proper) (hins : Encodable model decoded.pool.length ins)
    (hshort : Short ins.args) (hpc : ins.pc < 2 ^ 32) (hdrop : decoded.code.drop ins.pc = encodeInstr model ins ++ rest) :
    instrAt model decoded ins.pc = .ok (ins, ins.pc + ins.width) := by
  obtain ⟨pc, op, args, dest⟩ := ins
  obtain ⟨hop, hargs, hdest, hfits⟩ := hins
  dsimp only at hop hargs hdest hfits hshort hpc hdrop ⊢
  have hidx := List.idxOf_lt_length_iff.2 hop
  have hlen : model.ops.toList.length = 86 := Vector.length_toList
  have hget : decoded.code[pc]? = some (.ofNat 32 (model.ops.toList.idxOf op)) := by
    rw [← Nat.add_zero pc, ← List.getElem?_drop, hdrop]
    rfl
  have hraw : (BitVec.ofNat 32 (model.ops.toList.idxOf op) : Word).toNat
      = model.ops.toList.idxOf op := by
    rw [BitVec.toNat_ofNat, Nat.mod_eq_of_lt (by omega)]
  have hargsDrop : (sweepAt model decoded pc).code.drop (pc + 1)
      = encodeArgs model.tags model.regShift args ++
        (dest.toList.map (encodeReg model.regShift) ++ rest) := by
    rw [← List.append_assoc]
    exact drop_succ hdrop
  have hdestDrop := drop_append hargsDrop
  rw [length_encodeArgs] at hdestDrop
  unfold instrAt
  dsimp only
  rw [List.getD_eq_getElem?_getD, hget, Option.getD_some, hraw, List.getElem?_idxOf hop]
  dsimp only
  rw [args_encode htags hargs hshort hargsDrop]
  show ((sweepAt model decoded pc).dest (pc + 1 + argsWidth args) op.shape.dest >>= fun p => _) = _
  rw [dest_encode hdest hfits hdestDrop]
  show Except.ok _ = _
  rw [Nat.mod_eq_of_lt hpc, Instr.width, Nat.add_assoc, Nat.add_assoc, Nat.add_assoc]

end Worktime
end Lunar
