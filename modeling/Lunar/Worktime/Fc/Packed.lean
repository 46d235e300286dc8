/-
# Packed taints and tags

`worktime/fc.rs`: `Taint` and `Tag` as the source keeps them, one `u32` each.  A path takes the
words from 1 on, two for each of its ids, and 0 and `u32::MAX` are no path; a tag takes the words
from 2 on.  Every word stands for one taint and for one tag (`Taint.stands`, `Tag.stands`), and a
join of words stands for the join of what they stand for, so the words are semilattices like the
sums of `Domain`.
-/

import Lunar.Worktime.Fc.Solver

namespace Lunar
namespace Fc

/-- A join that does not depend on order or repetition, with an identity and a top. -/
structure JoinLaws {α : Type} (join : α → α → α) (bottom top : α) : Prop where
  assoc : ∀ a b c, join (join a b) c = join a (join b c)
  comm : ∀ a b, join a b = join b a
  idem : ∀ a, join a a = a
  bottom : ∀ a, join bottom a = a
  top : ∀ a, join top a = top

/-- **Laws of what is stood for** are laws of what stands for it. -/
theorem JoinLaws.of_injective {α β : Type} {join : α → α → α} {join' : β → β → β} {bottom top : α}
    {bottom' top' : β} (stands : α → β) (hinj : Function.Injective stands)
    (hjoin : ∀ a b, stands (join a b) = join' (stands a) (stands b))
    (hbottom : stands bottom = bottom') (htop : stands top = top')
    (h : JoinLaws join' bottom' top') : JoinLaws join bottom top where
  assoc a b c := hinj (by rw [hjoin, hjoin, hjoin, hjoin, h.assoc])
  comm a b := hinj (by rw [hjoin, hjoin, h.comm])
  idem a := hinj (by rw [hjoin, h.idem])
  bottom a := hinj (by rw [hjoin, hbottom, h.bottom])
  top a := hinj (by rw [hjoin, htop, h.top])

theorem Taint.joinLaws : JoinLaws Taint.join .clean .lost where
  assoc := Taint.join_assoc
  comm := Taint.join_comm
  idem := Taint.join_self
  bottom a := by cases a <;> rfl
  top a := by cases a <;> rfl

theorem Tag.joinLaws {α : Type} [DecidableEq α] :
    JoinLaws (Tag.join (α := α)) .bottom .conflict where
  assoc := Tag.join_assoc
  comm := Tag.join_comm
  idem := Tag.join_self
  bottom a := by cases a <;> rfl
  top a := by cases a <;> rfl

/-- Tags that do not agree are joined to a conflict. -/
theorem Tag.join_of_ne {α : Type} [DecidableEq α] {a b : Tag α} (h : a ≠ b) (ha : a ≠ .bottom)
    (hb : b ≠ .bottom) : a.join b = .conflict := by
  cases a <;> cases b <;> simp_all [Tag.join]

namespace Packed

/-! ## Taints -/

/-- `Taint`. -/
structure Taint where
  word : BitVec 32
  deriving DecidableEq, Repr

namespace Taint

def CLEAN : Taint := ⟨0⟩

def OPAQUE : Taint := ⟨BitVec.allOnes 32⟩

/-- `Taint::path`. -/
def path (id : BitVec 32) (derived : Bool) : Taint :=
  ⟨(id <<< 1 ||| (BitVec.ofBool derived).setWidth 32) + 1⟩

/-- `Taint::split`. -/
def split (t : Taint) : Option (BitVec 32 × Bool) :=
  if t.word = 0 ∨ t.word = BitVec.allOnes 32 then none
  else
    let v := t.word - 1
    some (v >>> 1, v &&& 1 == 1)

/-- `Taint::join`. -/
def join (t o : Taint) : Taint :=
  if t.word = o.word ∨ o.word = 0 then t
  else if t.word = 0 then o
  else match t.split, o.split with
    | some (a, x), some (b, y) => if a = b then path a (x || y) else OPAQUE
    | _, _ => OPAQUE

/-- `Taint::derive`. -/
def derive (t : Taint) : Taint :=
  match t.split with
  | some (id, _) => path id true
  | none => t

/-- What a word stands for. -/
def stands (t : Taint) : Fc.Taint :=
  match t.split with
  | some (id, derived) => .path id.toNat derived
  | none => if t.word = 0 then .clean else .lost

/-- The ids that a word has room for. -/
def Fits (id : BitVec 32) : Prop := id.toNat < 2 ^ 31 - 1

/-- The word of a path is one more than twice its id, and the flag. -/
theorem toNat_path {id : BitVec 32} (h : Fits id) (derived : Bool) :
    (path id derived).word.toNat = 2 * id.toNat + derived.toNat + 1 := by
  have hid : id.toNat < 2 ^ 31 - 1 := h
  have hd : derived.toNat < 2 ^ 1 := Bool.toNat_lt derived
  have hflag : ((BitVec.ofBool derived).setWidth 32).toNat = derived.toNat := by
    rw [BitVec.toNat_setWidth, BitVec.toNat_ofBool]
    omega
  have hshift : (id <<< 1).toNat = id.toNat <<< 1 := by
    rw [BitVec.toNat_shiftLeft, Nat.shiftLeft_eq]
    omega
  have hor : id.toNat <<< 1 ||| derived.toNat = 2 * id.toNat + derived.toNat := by
    rw [← Nat.shiftLeft_add_eq_or_of_lt hd, Nat.shiftLeft_eq]
    omega
  have hone : (1 : BitVec 32).toNat = 1 := rfl
  rw [path, BitVec.toNat_add, BitVec.toNat_or, hshift, hflag, hor, hone]
  omega

theorem path_ne {id : BitVec 32} (h : Fits id) (derived : Bool) :
    path id derived ≠ CLEAN ∧ path id derived ≠ OPAQUE := by
  have hid : id.toNat < 2 ^ 31 - 1 := h
  have hd : derived.toNat < 2 ^ 1 := Bool.toNat_lt derived
  have hword := toNat_path h derived
  constructor
  · intro heq
    have hzero : (path id derived).word.toNat = 0 := congrArg (fun t => t.word.toNat) heq
    omega
  · intro heq
    have hmax : (path id derived).word.toNat = 2 ^ 32 - 1 := congrArg (fun t => t.word.toNat) heq
    omega

/-- **A path is taken apart** into its id and its flag. -/
theorem split_path {id : BitVec 32} (h : Fits id) (derived : Bool) :
    (path id derived).split = some (id, derived) := by
  obtain ⟨hclean, hopaque⟩ := path_ne h derived
  have hd : derived.toNat < 2 := Bool.toNat_lt derived
  have hword := toNat_path h derived
  have hv : ((path id derived).word - 1).toNat = 2 * id.toNat + derived.toNat := by
    rw [BitVec.toNat_sub_of_le (by rw [BitVec.le_def, hword]; exact Nat.le_add_left ..), hword]
    rfl
  have hid : ((path id derived).word - 1) >>> 1 = id := by
    refine BitVec.eq_of_toNat_eq ?_
    rw [BitVec.toNat_ushiftRight, hv, Nat.shiftRight_eq_div_pow]
    omega
  have hflag : (((path id derived).word - 1) &&& 1 == 1) = derived := by
    have hand : (((path id derived).word - 1) &&& 1).toNat = derived.toNat := by
      rw [BitVec.toNat_and, hv]
      show _ &&& 1 = _
      rw [Nat.and_one_is_mod]
      omega
    cases derived with
    | true => exact beq_iff_eq.2 (BitVec.eq_of_toNat_eq hand)
    | false =>
        refine beq_eq_false_iff_ne.2 fun heq => ?_
        rw [heq] at hand
        exact absurd hand (by decide)
  rw [split, if_neg]
  · simp only [hid, hflag]
  · rintro (heq | heq)
    · exact hclean (congrArg Taint.mk heq)
    · exact hopaque (congrArg Taint.mk heq)

/-- Every word that is no path is `CLEAN` or `OPAQUE`. -/
theorem split_none {t : Taint} : t.split = none ↔ t = CLEAN ∨ t = OPAQUE := by
  obtain ⟨w⟩ := t
  rw [split, CLEAN, OPAQUE, Taint.mk.injEq, Taint.mk.injEq]
  split <;> simp_all

/-- **Every other word is a path.** -/
theorem of_split {t : Taint} {id : BitVec 32} {derived : Bool} (h : t.split = some (id, derived)) :
    Fits id ∧ t = path id derived := by
  have hnone : ¬(t.word = 0 ∨ t.word = BitVec.allOnes 32) := fun hor => by
    rw [split, if_pos hor] at h
    cases h
  rw [split, if_neg hnone, Option.some.injEq, Prod.mk.injEq] at h
  obtain ⟨hzero, hmax⟩ := not_or.1 hnone
  have hlt := t.word.isLt
  have hpos : t.word.toNat ≠ 0 := fun heq => hzero (BitVec.eq_of_toNat_eq heq)
  have hne : t.word.toNat ≠ 2 ^ 32 - 1 := fun heq => hmax (BitVec.eq_of_toNat_eq heq)
  have hv : (t.word - 1).toNat = t.word.toNat - 1 :=
    BitVec.toNat_sub_of_le (BitVec.le_def.2 (Nat.one_le_iff_ne_zero.2 hpos))
  have hid : id.toNat = (t.word.toNat - 1) / 2 := by
    rw [← h.1, BitVec.toNat_ushiftRight, hv, Nat.shiftRight_eq_div_pow, Nat.pow_one]
  have hfits : Fits id := by
    show id.toNat < 2 ^ 31 - 1
    omega
  have hflag : derived.toNat = (t.word.toNat - 1) % 2 := by
    have hand : ((t.word - 1) &&& 1).toNat = (t.word.toNat - 1) % 2 := by
      rw [BitVec.toNat_and, hv]
      exact Nat.and_one_is_mod _
    rw [← h.2, ← hand]
    have hle : ((t.word - 1) &&& 1).toNat < 2 := hand ▸ Nat.mod_lt _ (by decide)
    by_cases hone : (t.word - 1) &&& 1 = 1
    · rw [hone]
      rfl
    · have hzero : ((t.word - 1) &&& 1).toNat ≠ 1 := fun heq => hone (BitVec.eq_of_toNat_eq heq)
      rw [beq_eq_false_iff_ne.2 hone]
      show 0 = _
      omega
  refine ⟨hfits, ?_⟩
  have hword : t.word = (path id derived).word := by
    refine BitVec.eq_of_toNat_eq ?_
    rw [toNat_path hfits]
    omega
  exact congrArg Taint.mk hword

/-- A word is one of the two that are no path, or a path. -/
theorem cases (t : Taint) :
    t = CLEAN ∨ t = OPAQUE ∨ ∃ id derived, Fits id ∧ t = path id derived := by
  cases hsplit : t.split with
  | none => exact (split_none.1 hsplit).imp_right .inl
  | some part => exact .inr (.inr ⟨part.1, part.2, of_split hsplit⟩)

@[simp] theorem stands_clean : CLEAN.stands = .clean := rfl

@[simp] theorem stands_top : OPAQUE.stands = .lost := rfl

theorem stands_path {id : BitVec 32} (h : Fits id) (derived : Bool) :
    (path id derived).stands = .path id.toNat derived := by
  rw [stands, split_path h]

/-- The word of a taint. -/
def pack : Fc.Taint → Taint
  | .clean => CLEAN
  | .path id derived => path (BitVec.ofNat 32 id) derived
  | .lost => OPAQUE

/-- **A word is that of what it stands for.** -/
theorem pack_stands : Function.LeftInverse pack stands := by
  intro t
  rcases t.cases with rfl | rfl | ⟨id, derived, hid, rfl⟩
  · rfl
  · rfl
  · rw [stands_path hid, pack, BitVec.ofNat_toNat, BitVec.setWidth_eq]

/-- **A taint is what its word stands for**, if the id fits. -/
theorem stands_pack {t : Fc.Taint} (h : ∀ id derived, t = .path id derived → id < 2 ^ 31 - 1) :
    (pack t).stands = t := by
  cases t with
  | clean => rfl
  | lost => rfl
  | path id derived =>
      have hid := h id derived rfl
      have hnat : (BitVec.ofNat 32 id).toNat = id := by
        rw [BitVec.toNat_ofNat]
        omega
      have hfits : Fits (BitVec.ofNat 32 id) := lt_of_eq_of_lt hnat hid
      rw [pack, stands_path hfits, hnat]

/-- Paths with the same id are joined to it, with either flag. -/
theorem join_path {a b : BitVec 32} (ha : Fits a) (hb : Fits b) (x y : Bool) :
    (path a x).join (path b y) = if a = b then path a (x || y) else OPAQUE := by
  have hword {c : BitVec 32} {z : Bool} (hc : Fits c) : (path c z).word ≠ 0 := fun heq =>
    (path_ne hc z).1 (congrArg Taint.mk heq)
  rw [join, split_path ha, split_path hb]
  by_cases heq : (path a x).word = (path b y).word
  · have hsplit := (congrArg split (congrArg Taint.mk heq)).symm.trans (split_path ha x)
    obtain ⟨rfl, rfl⟩ := Prod.mk.inj (Option.some.inj ((split_path hb y).symm.trans hsplit))
    rw [if_pos (.inl heq), if_pos rfl, Bool.or_self]
  · rw [if_neg (not_or.2 ⟨heq, hword hb⟩), if_neg (hword ha)]

theorem join_clean (t : Taint) : t.join CLEAN = t := if_pos (.inr rfl)

theorem clean_join (t : Taint) : CLEAN.join t = t := by
  rw [join]
  split
  · next h =>
      rcases h with h | h
      · exact congrArg Taint.mk h
      · exact (congrArg Taint.mk h).symm
  · exact if_pos rfl

theorem join_top {t : Taint} (h : t ≠ CLEAN) : t.join OPAQUE = OPAQUE := by
  have hzero : t.word ≠ 0 := fun heq => h (congrArg Taint.mk heq)
  have hopaque : OPAQUE.word ≠ 0 := by decide
  by_cases heq : t.word = OPAQUE.word
  · rw [join, if_pos (.inl heq)]
    exact congrArg Taint.mk heq
  · rw [join, if_neg (not_or.2 ⟨heq, hopaque⟩), if_neg hzero]
    cases t.split <;> rfl

theorem top_join (t : Taint) : OPAQUE.join t = OPAQUE := by
  have hopaque : OPAQUE.word ≠ 0 := by decide
  by_cases h : OPAQUE.word = t.word ∨ t.word = 0
  · exact if_pos h
  · rw [join, if_neg h, if_neg hopaque]
    rfl

/-- **A join of words** stands for the join. -/
theorem stands_join (t o : Taint) : (t.join o).stands = t.stands.join o.stands := by
  rcases t.cases with rfl | rfl | ⟨a, x, ha, rfl⟩
  · rw [clean_join, stands_clean, Taint.joinLaws.bottom]
  · rw [top_join, stands_top, Taint.joinLaws.top]
  · rcases o.cases with rfl | rfl | ⟨b, y, hb, rfl⟩
    · rw [join_clean, stands_clean, Fc.Taint.join_comm, Taint.joinLaws.bottom]
    · rw [join_top (path_ne ha x).1, stands_top, Fc.Taint.join_comm, Taint.joinLaws.top]
    · rw [join_path ha hb, stands_path ha, stands_path hb, Fc.Taint.join]
      by_cases h : a = b
      · rw [if_pos h, if_pos (congrArg BitVec.toNat h), stands_path ha]
      · rw [if_neg h, if_neg fun heq => h (BitVec.eq_of_toNat_eq heq), stands_top]

theorem stands_derive (t : Taint) : t.derive.stands = t.stands.derive := by
  rcases t.cases with rfl | rfl | ⟨id, d, hid, rfl⟩
  · rfl
  · rfl
  · rw [derive, split_path hid]
    exact (stands_path hid true).trans (by rw [stands_path hid, Fc.Taint.derive])

/-- **Joins of taints do not depend on the order**, whatever the words. -/
theorem joinLaws : JoinLaws join CLEAN OPAQUE :=
  .of_injective stands pack_stands.injective stands_join stands_clean stands_top
    Fc.Taint.joinLaws

end Taint

/-! ## Tags -/

def ENTRY : BitVec 32 := 0

def VAR : BitVec 32 := 1

def METHOD : BitVec 32 := 2

/-- `Tag`. -/
structure Tag where
  word : BitVec 32
  deriving DecidableEq, Repr

namespace Tag

def BOTTOM : Tag := ⟨0⟩

def CONFLICT : Tag := ⟨1⟩

def YES : Tag := ⟨2⟩

/-- `Tag::of`. -/
def of (v : BitVec 32) : Tag := ⟨v + 2⟩

/-- `Tag::callee`. -/
def callee (kind payload : BitVec 32) : Tag := ⟨(payload <<< 2 ||| kind) + 2⟩

/-- `Tag::get`. -/
def get (t : Tag) : Option (BitVec 32) := if 2 ≤ t.word then some (t.word - 2) else none

/-- `Tag::is_method`. -/
def isMethod (t : Tag) : Bool := t.get.any fun v => v &&& 3 == METHOD

/-- `Tag::join`. -/
def join (t o : Tag) : Tag :=
  if t.word = o.word ∨ o.word = 0 then t
  else if t.word = 0 then o
  else CONFLICT

/-- `Tag::live`. -/
def live (t : Tag) : Tag := if t.word = 0 then CONFLICT else t

/-- What a word stands for. -/
def stands (t : Tag) : Fc.Tag (BitVec 32) :=
  match t.get with
  | some v => .of v
  | none => if t.word = 0 then .bottom else .conflict

/-- The values that a word has room for. -/
def Fits (v : BitVec 32) : Prop := v.toNat < 2 ^ 32 - 2

theorem toNat_of {v : BitVec 32} (h : Fits v) : (of v).word.toNat = v.toNat + 2 := by
  have hv : v.toNat < 2 ^ 32 - 2 := h
  have htwo : (2 : BitVec 32).toNat = 2 := rfl
  rw [of, BitVec.toNat_add, htwo]
  omega

theorem get_of {v : BitVec 32} (h : Fits v) : (of v).get = some v := by
  have hle : 2 ≤ (of v).word := BitVec.le_def.2 (toNat_of h ▸ Nat.le_add_left ..)
  have hsub : (of v).word - 2 = v := BitVec.add_sub_cancel v 2
  rw [get, if_pos hle, hsub]

/-- A word is one of the two that hold no value, or holds one. -/
theorem cases (t : Tag) : t = BOTTOM ∨ t = CONFLICT ∨ ∃ v, Fits v ∧ t = of v := by
  have hlt := t.word.isLt
  by_cases hle : 2 ≤ t.word.toNat
  · have hsub : (t.word - 2).toNat = t.word.toNat - 2 :=
      BitVec.toNat_sub_of_le (BitVec.le_def.2 hle)
    refine .inr (.inr ⟨t.word - 2, ?_, congrArg Tag.mk (BitVec.sub_add_cancel t.word 2).symm⟩)
    show (t.word - 2).toNat < 2 ^ 32 - 2
    omega
  · have hword : t.word.toNat = 0 ∨ t.word.toNat = 1 := by omega
    rcases hword with h | h
    · exact .inl (congrArg Tag.mk (BitVec.eq_of_toNat_eq h))
    · exact .inr (.inl (congrArg Tag.mk (BitVec.eq_of_toNat_eq h)))

@[simp] theorem stands_bottom : BOTTOM.stands = .bottom := rfl

@[simp] theorem stands_conflict : CONFLICT.stands = .conflict := rfl

theorem stands_of {v : BitVec 32} (h : Fits v) : (of v).stands = .of v := by
  rw [stands, get_of h]

/-- **Different words stand for different tags.** -/
theorem stands_injective : Function.Injective stands := by
  intro t o h
  rcases t.cases with rfl | rfl | ⟨v, hv, rfl⟩ <;> rcases o.cases with rfl | rfl | ⟨w, hw, rfl⟩ <;>
    simp_all [stands_of]

theorem word_eq_zero {t : Tag} : t.word = 0 ↔ t = BOTTOM := ⟨congrArg Tag.mk, congrArg word⟩

theorem join_self (t : Tag) : t.join t = t := if_pos (.inl rfl)

theorem join_bottom (t : Tag) : t.join BOTTOM = t := if_pos (.inr rfl)

theorem bottom_join (t : Tag) : BOTTOM.join t = t := by
  by_cases h : BOTTOM.word = t.word ∨ t.word = 0
  · rw [join, if_pos h]
    exact h.elim (congrArg Tag.mk) fun hzero => (word_eq_zero.1 hzero).symm
  · rw [join, if_neg h]
    exact if_pos rfl

/-- Words that do not agree are joined to a conflict. -/
theorem join_of_ne {t o : Tag} (h : t ≠ o) (ht : t ≠ BOTTOM) (ho : o ≠ BOTTOM) :
    t.join o = CONFLICT := by
  have hword : t.word ≠ o.word := fun heq => h (congrArg Tag.mk heq)
  rw [join, if_neg (not_or.2 ⟨hword, word_eq_zero.not.2 ho⟩), if_neg (word_eq_zero.not.2 ht)]

/-- **A join of words** stands for the join. -/
theorem stands_join (t o : Tag) : (t.join o).stands = t.stands.join o.stands := by
  have hstands {t : Tag} (h : t ≠ BOTTOM) : t.stands ≠ .bottom := fun heq =>
    h (stands_injective heq)
  by_cases heq : t = o
  · rw [heq, join_self, Fc.Tag.join_self]
  by_cases ho : o = BOTTOM
  · rw [ho, join_bottom, stands_bottom, Fc.Tag.join_comm, Fc.Tag.joinLaws.bottom]
  by_cases ht : t = BOTTOM
  · rw [ht, bottom_join, stands_bottom, Fc.Tag.joinLaws.bottom]
  · rw [join_of_ne heq ht ho, Fc.Tag.join_of_ne (stands_injective.ne heq) (hstands ht) (hstands ho),
      stands_conflict]

/-- **Joins of tags do not depend on the order**, whatever the words. -/
theorem joinLaws : JoinLaws join BOTTOM CONFLICT :=
  .of_injective stands stands_injective stands_join rfl rfl Fc.Tag.joinLaws

/-- The word of a callee is two more than four times its payload, and its kind. -/
theorem callee_eq {kind payload : BitVec 32} (hkind : kind.toNat < 4)
    (hpayload : payload.toNat < 2 ^ 30) :
    (payload <<< 2 ||| kind).toNat = 4 * payload.toNat + kind.toNat := by
  have hshift : (payload <<< 2).toNat = payload.toNat <<< 2 := by
    rw [BitVec.toNat_shiftLeft, Nat.shiftLeft_eq]
    omega
  rw [BitVec.toNat_or, hshift, ← Nat.shiftLeft_add_eq_or_of_lt (i := 2) hkind, Nat.shiftLeft_eq]
  omega

/-- **A callee is taken apart** into its payload and its kind. -/
theorem get_callee {kind payload : BitVec 32} (hkind : kind.toNat < 4)
    (hpayload : payload.toNat < 2 ^ 30 - 1) :
    ∃ v, (callee kind payload).get = some v ∧ v &&& 3 = kind ∧ v >>> 2 = payload := by
  have hv := callee_eq hkind (hpayload.trans (by decide))
  have hfits : Fits (payload <<< 2 ||| kind) := by
    show _ < _
    omega
  refine ⟨payload <<< 2 ||| kind, get_of hfits, BitVec.eq_of_toNat_eq ?_,
    BitVec.eq_of_toNat_eq ?_⟩
  · have hthree : (3 : BitVec 32).toNat = 2 ^ 2 - 1 := rfl
    rw [BitVec.toNat_and, hv, hthree, Nat.and_two_pow_sub_one_eq_mod]
    omega
  · rw [BitVec.toNat_ushiftRight, hv, Nat.shiftRight_eq_div_pow]
    omega

theorem stands_live (t : Tag) : t.live.stands = t.stands.live := by
  rcases t.cases with rfl | rfl | ⟨v, hv, rfl⟩
  · rfl
  · rfl
  · have hne : of v ≠ BOTTOM := fun heq => by
      have hstands := stands_of hv
      rw [heq] at hstands
      cases hstands
    rw [live, if_neg (word_eq_zero.not.2 hne), stands_of hv]
    rfl

/-- The kind of a callee. -/
def kind : Callee → BitVec 32
  | .entry _ => ENTRY
  | .var _ => VAR
  | .method _ => METHOD

/-- What a callee is the number of. -/
def payload : Callee → ℕ
  | .entry f => f
  | .var id => id
  | .method key => key

/-- The word of a tag. -/
def pack : Fc.Tag Callee → Tag
  | .bottom => BOTTOM
  | .conflict => CONFLICT
  | .of c => callee (kind c) (BitVec.ofNat 32 (payload c))

/-- The callees of a tag have payloads that a word has room for. -/
def Small (t : Fc.Tag Callee) : Prop := ∀ c, t = .of c → payload c < 2 ^ 30 - 1

theorem get_pack {c : Callee} (h : payload c < 2 ^ 30 - 1) :
    ∃ v, (pack (.of c)).get = some v ∧ v &&& 3 = kind c ∧ (v >>> 2).toNat = payload c := by
  have hpayload : (BitVec.ofNat 32 (payload c)).toNat = payload c := by
    rw [BitVec.toNat_ofNat]
    omega
  have hkind : (kind c).toNat < 4 := by
    cases c <;> exact of_decide_eq_true rfl
  obtain ⟨v, hget, hand, hshift⟩ := get_callee hkind (lt_of_eq_of_lt hpayload h)
  exact ⟨v, hget, hand, hshift ▸ hpayload⟩

theorem callee_ext {c d : Callee} (hkind : kind c = kind d) (hpayload : payload c = payload d) :
    c = d := by
  have hne : ENTRY ≠ VAR ∧ ENTRY ≠ METHOD ∧ VAR ≠ METHOD := by decide
  cases c <;> cases d <;> simp_all [kind, payload, eq_comm]

/-- **Different callees have different words.** -/
theorem pack_inj {a b : Fc.Tag Callee} (ha : Small a) (hb : Small b) (heq : pack a = pack b) :
    a = b := by
  have hget {c : Callee} {t : Tag} (h : payload c < 2 ^ 30 - 1) (ht : t.get = none) :
      pack (.of c) ≠ t := by
    obtain ⟨v, hv, -, -⟩ := get_pack h
    rintro rfl
    rw [hv] at ht
    cases ht
  rcases a with _ | _ | c <;> rcases b with _ | _ | d
  · rfl
  · cases heq
  · exact absurd heq.symm (hget (hb d rfl) rfl)
  · cases heq
  · rfl
  · exact absurd heq.symm (hget (hb d rfl) rfl)
  · exact absurd heq (hget (ha c rfl) rfl)
  · exact absurd heq (hget (ha c rfl) rfl)
  · obtain ⟨v, hv, hkind, hpayload⟩ := get_pack (ha c rfl)
    obtain ⟨w, hw, hkind', hpayload'⟩ := get_pack (hb d rfl)
    obtain rfl := Option.some.inj ((heq ▸ hv).symm.trans hw)
    exact congrArg Fc.Tag.of
      (callee_ext (hkind.symm.trans hkind') (hpayload.symm.trans hpayload'))

/-- **A join of callees** is the join of their words. -/
theorem pack_join {a b : Fc.Tag Callee} (ha : Small a) (hb : Small b) :
    pack (a.join b) = (pack a).join (pack b) := by
  have hpack {t : Fc.Tag Callee} (ht : Small t) (h : t ≠ .bottom) : pack t ≠ BOTTOM := fun heq =>
    h (pack_inj ht (b := .bottom) nofun heq)
  by_cases heq : a = b
  · rw [heq, join_self, Fc.Tag.join_self]
  by_cases hb' : b = .bottom
  · rw [hb', Fc.Tag.join_comm, Fc.Tag.joinLaws.bottom]
    exact (join_bottom _).symm
  by_cases ha' : a = .bottom
  · rw [ha', Fc.Tag.joinLaws.bottom]
    exact (bottom_join _).symm
  · rw [Fc.Tag.join_of_ne heq ha' hb',
      join_of_ne (fun h => heq (pack_inj ha hb h)) (hpack ha ha') (hpack hb hb')]
    rfl

theorem isMethod_pack {t : Fc.Tag Callee} (h : Small t) : (pack t).isMethod = t.isMethod := by
  rcases t with _ | _ | c
  · rfl
  · rfl
  · obtain ⟨v, hv, hkind, -⟩ := get_pack (h c rfl)
    rw [isMethod, hv, Option.any_some, hkind]
    cases c <;> rfl

end Tag
end Packed
end Fc
end Lunar
