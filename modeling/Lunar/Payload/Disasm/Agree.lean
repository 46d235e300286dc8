/-
# The fast decoder agrees with the plain one

The byte program of a template reads and seeks as the template says, so the fast
decoder gives the operands, the next place and the target of `Decoder::decode`
(`fast_decode`).  The links are the closure slots followed by the target slots; the
shape counts the closure slots in a byte, so the marks of the links are right for
every code exactly if no slot past this byte can hold an address (`marks_iff`).
-/

import Lunar.Payload.Disasm.Fast

namespace Lunar
namespace Disasm

open Ir

/-- The six tags differ. -/
def Tags.Distinct (t : Tags) : Prop := (t.kinds.map Prod.fst).Nodup

section Decode

variable {dec : Decoder}

theorem length_addKind (kinds : List Kind) (tag : ℤ × Kind) :
    (Fast.addKind kinds tag).length = kinds.length := by
  unfold Fast.addKind
  split
  · exact List.length_set
  · rfl

theorem addKind_getElem? (kinds : List Kind) (tag : ℤ × Kind) {n : ℕ} (hn : n < kinds.length)
    (hs : n < TAG_SPAN) :
    (Fast.addKind kinds tag)[n]? = if tag.1 = n then some tag.2 else kinds[n]? := by
  unfold Fast.addKind
  by_cases h : tag.1 = n
  · have hr : 0 ≤ tag.1 ∧ tag.1 < TAG_SPAN := by omega
    have ht : tag.1.toNat = n := by omega
    rw [if_pos hr, if_pos h, ht, List.getElem?_set_self hn]
  · rw [if_neg h]
    split
    · have ht : tag.1.toNat ≠ n := by omega
      rw [List.getElem?_set_ne ht]
    · rfl

/-- The table holds the kind of every small tag. -/
theorem table_getElem? (tags : List (ℤ × Kind)) (hd : (tags.map Prod.fst).Nodup) {n : ℕ}
    (hs : n < TAG_SPAN) : ∀ kinds : List Kind, n < kinds.length →
    (tags.foldl Fast.addKind kinds)[n]?.getD .reg
      = (tags.lookup (n : ℤ)).getD (kinds[n]?.getD .reg) := by
  induction tags with
  | nil => intro kinds _; rfl
  | cons tag tags ih =>
      intro kinds hn
      obtain ⟨t, k⟩ := tag
      rw [List.map_cons, List.nodup_cons] at hd
      rw [List.foldl_cons, ih hd.2 _ (by rw [length_addKind]; exact hn),
        addKind_getElem? _ _ hn hs, List.lookup_cons]
      by_cases h : (n : ℤ) = t
      · have hnone : tags.lookup (n : ℤ) = none := by
          rw [List.lookup_eq_none_iff]
          intro p hp
          have hne : p.1 ≠ t := fun heq => hd.1 (List.mem_map.2 ⟨p, hp, heq⟩)
          exact bne_iff_ne.2 (h ▸ hne.symm)
        rw [if_pos h.symm, hnone, beq_iff_eq.2 h]
        rfl
      · rw [if_neg fun heq => h heq.symm, beq_false_of_ne h]

/-- The kind of a word, by comparing with the tags. -/
theorem lookup_kinds (t : Tags) (w : ℤ) :
    (t.kinds.lookup w).getD .reg
      = if w = t.string then .str
        else if w = t.double then .dbl
        else if w = t.true_ then .true
        else if w = t.false_ then .false
        else if w = t.null then .null
        else if w = t.undefined then .undef
        else .reg := by
  simp only [Tags.kinds, List.lookup_cons, List.lookup_nil, beq_eq_decide]
  repeat' split
  all_goals simp_all

/-- A word has the kind of the tag that it is. -/
theorem kind_eq (hd : dec.tags.Distinct) (w : ℤ) :
    (Fast.new dec).kind w = (dec.tags.kinds.lookup w).getD .reg := by
  unfold Fast.kind
  split
  · rename_i h
    have hw : ((w.toNat : ℕ) : ℤ) = w := Int.toNat_of_nonneg h.1
    have hs : w.toNat < TAG_SPAN := by omega
    have hlen : w.toNat < (List.replicate TAG_SPAN Kind.reg).length := by
      rwa [List.length_replicate]
    have hreg : (List.replicate TAG_SPAN Kind.reg)[w.toNat]?.getD .reg = .reg := by
      rw [List.getElem?_replicate, if_pos hs]
      rfl
    have htable := table_getElem? _ hd hs _ hlen
    rw [hreg, hw] at htable
    exact htable
  · exact (lookup_kinds dec.tags w).symm

theorem fast_value (hd : dec.tags.Distinct) (at_ : ℕ) :
    (Fast.new dec).value at_ = dec.value at_ := by
  show ((Fast.new dec).word at_ >>= _) = (dec.word at_ >>= _)
  refine Option.bind_congr fun w _ => ?_
  dsimp only
  by_cases hodd : w % 2 ≠ 0
  · rw [if_pos hodd, if_pos hodd]
  rw [if_neg hodd, if_neg hodd, kind_eq hd, lookup_kinds]
  by_cases hstring : w = dec.tags.string
  · rw [if_pos hstring, if_pos hstring]
    rfl
  rw [if_neg hstring, if_neg hstring]
  by_cases hdouble : w = dec.tags.double
  · rw [if_pos hdouble, if_pos hdouble]
    rfl
  rw [if_neg hdouble, if_neg hdouble]
  by_cases htrue : w = dec.tags.true_
  · rw [if_pos htrue, if_pos htrue]
  rw [if_neg htrue, if_neg htrue]
  by_cases hfalse : w = dec.tags.false_
  · rw [if_pos hfalse, if_pos hfalse]
  rw [if_neg hfalse, if_neg hfalse]
  by_cases hnull : w = dec.tags.null
  · rw [if_pos hnull, if_pos hnull]
  rw [if_neg hnull, if_neg hnull]
  by_cases hundefined : w = dec.tags.undefined
  · rw [if_pos hundefined, if_pos hundefined]
  rw [if_neg hundefined, if_neg hundefined]
  rfl

theorem fast_operand (hd : dec.tags.Distinct) (kind : ReadKind) (at_ : ℕ) :
    (Fast.new dec).operand (opCode kind) at_ = dec.read at_ kind := by
  cases kind with
  | value => exact fast_value hd at_
  | reg => rfl
  | dest => rfl
  | pc => rfl

theorem opCode_le (kind : ReadKind) : opCode kind ≤ OP_PC := by
  cases kind <;> decide

variable (f : Fast)

theorem run_read {op : ℕ} (h : op ≤ OP_PC) (base : ℕ) (prog : List ℕ) (at_ : ℕ)
    (out : List Operand) :
    f.run base (op :: prog) at_ out
      = (f.operand op at_).bind fun r => f.run base prog r.2 (out ++ [r.1]) := by
  cases prog with
  | nil =>
      rw [Fast.run, if_pos h, Option.map_eq_bind]
      rfl
  | cons slot prog => rw [Fast.run, if_pos h]

theorem run_seek (base slot : ℕ) (prog : List ℕ) (at_ : ℕ) (out : List Operand) :
    f.run base (OP_SEEK :: slot :: prog) at_ out
      = (out[base + slot]?.bind intTarget).bind fun at_ => f.run base prog at_ out := by
  rw [Fast.run, if_neg (by decide)]

theorem slotTarget_append (pre ops : List Operand) (slot : ℕ) :
    ((pre ++ ops)[pre.length + slot]?).bind intTarget = Decoder.slotTarget ops slot := by
  rw [List.getElem?_append_right (by omega), Nat.add_sub_cancel_left]
  rfl

/-- The seeks before a read are run as `seekTo` says. -/
theorem run_seekCodes (i : ℕ) (pre ops : List Operand) (prog : List ℕ) (seeks : List Seek) :
    ∀ at_, f.run pre.length ((seekCodes i seeks).1 ++ prog) at_ (pre ++ ops)
      = (Decoder.seekTo i ops seeks at_).bind fun r => f.run pre.length prog r.1 (pre ++ ops) := by
  induction seeks with
  | nil => intro at_; rfl
  | cons s seeks ih =>
      intro at_
      by_cases h : s.place = i
      · rw [seekCodes, Decoder.seekTo, if_pos h, if_pos h, List.cons_append, List.cons_append,
          run_seek, slotTarget_append, Option.bind_assoc]
        exact Option.bind_congr fun t _ => ih t
      · rw [seekCodes, Decoder.seekTo, if_neg h, if_neg h]
        rfl

/-- The seeks that remain are those that `seekTo` leaves. -/
theorem seekTo_rest {i : ℕ} {ops : List Operand} {seeks : List Seek} {at_ : ℕ}
    {r : ℕ × List Seek} (h : Decoder.seekTo i ops seeks at_ = some r) :
    r.2 = (seekCodes i seeks).2 := by
  induction seeks generalizing at_ with
  | nil => cases h; rfl
  | cons s seeks ih =>
      rw [Decoder.seekTo] at h
      by_cases hs : s.place = i
      · rw [if_pos hs] at h
        obtain ⟨t, -, ht⟩ := Option.bind_eq_some_iff.1 h
        rw [seekCodes, if_pos hs]
        exact ih ht
      · rw [if_neg hs] at h
        rw [seekCodes, if_neg hs]
        cases h
        rfl

/-- The seeks after the last read. -/
theorem run_rest (pre ops : List Operand) (seeks : List Seek) :
    ∀ at_, f.run pre.length (seeks.flatMap fun s => [OP_SEEK, s.slot]) at_ (pre ++ ops)
      = (seeks.foldlM (fun _ s => Decoder.slotTarget ops s.slot) at_).map fun at_ =>
          (at_, pre ++ ops) := by
  induction seeks with
  | nil => intro at_; rfl
  | cons s seeks ih =>
      intro at_
      rw [List.flatMap_cons, List.foldlM_cons, List.cons_append, List.cons_append,
        List.nil_append, run_seek, slotTarget_append, Option.bind_eq_bind, Option.map_bind]
      exact Option.bind_congr fun t _ => ih t

/-- **The byte program of the reads runs as the reads.** -/
theorem run_readCodes (hd : dec.tags.Distinct) (pre : List Operand) (kinds : List ReadKind) :
    ∀ (i : ℕ) (seeks : List Seek) (ops : List Operand) (at_ : ℕ),
    (Fast.new dec).run pre.length (readCodes i seeks kinds) at_ (pre ++ ops)
      = (dec.reads i seeks ops at_ kinds).bind fun r =>
          (r.1.foldlM (fun _ s => Decoder.slotTarget r.2.1 s.slot) r.2.2).map fun at_ =>
            (at_, pre ++ r.2.1) := by
  induction kinds with
  | nil => intro i seeks ops at_; exact run_rest _ pre ops seeks at_
  | cons kind kinds ih =>
      intro i seeks ops at_
      show (Fast.new dec).run pre.length ((seekCodes i seeks).1 ++ _) at_ _ = _
      rw [run_seekCodes, Decoder.reads, Option.bind_eq_bind, Option.bind_assoc]
      refine Option.bind_congr fun r hr => ?_
      rw [run_read _ (opCode_le kind), fast_operand hd, Option.bind_eq_bind, Option.bind_assoc]
      refine Option.bind_congr fun o _ => ?_
      rw [List.append_assoc, ih, ← seekTo_rest hr]

/-- A shape with the program, the branch and the links of a template. -/
structure Shapes.Covers (s : Shapes) (shape : Shape) (t : Template) : Prop where
  ok : shape.ok = true
  falls : shape.falls = t.falls
  branch : shape.branch = (t.branch.map Branch.slot).getD NO_SLOT
  code : slice s.code shape.code = program t
  codeEnd : shape.code.start + shape.code.len ≤ s.code.length
  links : slice s.links shape.links = t.closures ++ t.targets
  linksEnd : shape.links.start + shape.links.len ≤ s.links.length
  closures : shape.closures = t.closures.length % 2 ^ 8

/-- **The fast decoder decodes as `Decoder::decode`**, and pushes the operands. -/
theorem fast_decode (hd : dec.tags.Distinct) {s : Shapes} {shape : Shape} {t : Template}
    (hc : s.Covers shape t) (hb : ∀ b ∈ t.branch, b.slot ≠ NO_SLOT) (pc : ℕ)
    (pre : List Operand) :
    (Fast.new dec).decode pc shape s.code pre
      = (dec.decode pc t).map fun r => (r.1.next, r.1.target, pre ++ r.2) := by
  have hrun := run_readCodes hd pre t.reads 0 t.seeks [] (pc + 1)
  rw [List.append_nil] at hrun
  rw [Fast.decode, Decoder.decode, hc.code, program, hrun, hc.branch]
  simp only [Option.bind_eq_bind, Option.bind_assoc, Option.map_bind, Option.bind_map,
    Function.comp_def]
  refine Option.bind_congr fun r _ => Option.bind_congr fun at_ _ => ?_
  cases hbr : t.branch with
  | none =>
      rw [Option.map_none, Option.getD_none, if_pos rfl]
      show (if 2 ^ 32 ≤ at_ then none else some _)
        = Option.map _ (if 2 ^ 32 ≤ at_ then none else some _)
      split <;> rfl
  | some b =>
      have hslot : b.slot ≠ NO_SLOT := hb b hbr
      rw [Option.map_some, Option.getD_some, if_neg hslot, slotTarget_append]
      show Option.bind (Option.map _ _) _ = Option.map _ (Option.bind (Option.map _ _) _)
      rw [Option.map_bind]
      refine Option.bind_congr fun target _ => ?_
      show (if 2 ^ 32 ≤ at_ then none else some _)
        = Option.map _ (if 2 ^ 32 ≤ at_ then none else some _)
      split <;> rfl

end Decode

section Table

/-- The tables of the shapes stay within a `u32`. -/
def Shapes.Fits (s : Shapes) : Prop := s.code.length < 2 ^ 32 ∧ s.links.length < 2 ^ 32

theorem spanTo_eq {start stop : ℕ} (h : start ≤ stop) (hs : stop < 2 ^ 32) :
    spanTo start stop = ⟨start, stop - start⟩ := by
  have h₁ : start % 2 ^ 32 = start := Nat.mod_eq_of_lt (by omega)
  have h₂ : stop % 2 ^ 32 = stop := Nat.mod_eq_of_lt hs
  have h₃ : (stop + 2 ^ 32 - start) % 2 ^ 32 = stop - start := by omega
  rw [spanTo, h₁, h₂, h₃]

theorem slice_append {α : Type} {xs : List α} {sp : Span} (h : sp.start + sp.len ≤ xs.length)
    (ys : List α) : slice (xs ++ ys) sp = slice xs sp := by
  unfold slice
  rw [List.drop_append_of_le_length (by omega), List.take_append_of_le_length (by
    rw [List.length_drop]
    omega)]

theorem slice_end {α : Type} (xs ys : List α) (hs : (xs ++ ys).length < 2 ^ 32) :
    slice (xs ++ ys) (spanTo xs.length (xs ++ ys).length) = ys := by
  have hle : xs.length ≤ (xs ++ ys).length := by
    rw [List.length_append]
    omega
  have hlen : (xs ++ ys).length - xs.length = ys.length := by
    rw [List.length_append]
    omega
  rw [spanTo_eq hle hs, hlen, slice, List.drop_left, List.take_length]

theorem spanTo_end {α : Type} (xs ys : List α) (hs : (xs ++ ys).length < 2 ^ 32) :
    (spanTo xs.length (xs ++ ys).length).start + (spanTo xs.length (xs ++ ys).length).len
      ≤ (xs ++ ys).length := by
  have hle : xs.length ≤ (xs ++ ys).length := by
    rw [List.length_append]
    omega
  rw [spanTo_eq hle hs]
  show xs.length + ((xs ++ ys).length - xs.length) ≤ _
  omega

/-- Later templates keep what a shape covers. -/
theorem Shapes.Covers.append {s : Shapes} {shape : Shape} {t : Template} (h : s.Covers shape t)
    (codes links : List ℕ) (shapes : List Shape) :
    Shapes.Covers ⟨s.code ++ codes, s.links ++ links, shapes⟩ shape t where
  ok := h.ok
  falls := h.falls
  branch := h.branch
  code := (slice_append h.codeEnd codes).trans h.code
  codeEnd := h.codeEnd.trans (by
    rw [List.length_append]
    omega)
  links := (slice_append h.linksEnd links).trans h.links
  linksEnd := h.linksEnd.trans (by
    rw [List.length_append]
    omega)
  closures := h.closures

/-- A turn of `Shapes::new` extends the tables, and adds one shape. -/
theorem Shapes.add_extends (s : Shapes) (t : Except String Template) :
    ∃ codes links shape, s.add t = ⟨s.code ++ codes, s.links ++ links, s.shapes ++ [shape]⟩ := by
  cases t with
  | error e => exact ⟨[], [], .default, by rw [List.append_nil, List.append_nil]; rfl⟩
  | ok t => exact ⟨program t, t.closures ++ t.targets, _, by rw [← List.append_assoc]; rfl⟩

/-- The shape of an entry of the table of templates. -/
def Shapes.Gives (s : Shapes) (shape : Shape) : Except String Template → Prop
  | .ok t => s.Covers shape t
  | .error _ => shape = .default

theorem Shapes.Gives.append {s : Shapes} {shape : Shape} {t : Except String Template}
    (h : s.Gives shape t) (codes links : List ℕ) (shapes : List Shape) :
    Shapes.Gives ⟨s.code ++ codes, s.links ++ links, shapes⟩ shape t := by
  cases t with
  | error e => exact h
  | ok t => exact Shapes.Covers.append h codes links shapes

/-- The new shape is the one of the template. -/
theorem Shapes.add_gives (s : Shapes) (t : Except String Template) (hf : (s.add t).Fits) :
    ∃ shape, (s.add t).shapes = s.shapes ++ [shape] ∧ (s.add t).Gives shape t := by
  cases t with
  | error e => exact ⟨.default, rfl, rfl⟩
  | ok t =>
      obtain ⟨hcode, hlinks⟩ := hf
      have hassoc : s.links ++ t.closures ++ t.targets = s.links ++ (t.closures ++ t.targets) :=
        List.append_assoc ..
      refine ⟨_, rfl, rfl, rfl, rfl, slice_end _ _ hcode, spanTo_end _ _ hcode, ?_, ?_, rfl⟩
      · show slice (s.links ++ t.closures ++ t.targets) (spanTo _ (s.links ++ _ ++ _).length) = _
        rw [hassoc]
        exact slice_end _ _ (hassoc ▸ hlinks)
      · show (spanTo _ (s.links ++ t.closures ++ t.targets).length).start + _ ≤ _
        dsimp only [Shapes.add]
        rw [hassoc]
        exact spanTo_end _ _ (hassoc ▸ hlinks)

/-- The shapes of the templates so far. -/
structure Shapes.Built (s : Shapes) (templates : List (Except String Template)) : Prop where
  length : s.shapes.length = templates.length
  gives : ∀ {h : ℕ} {t : Except String Template}, templates[h]? = some t →
    ∃ shape : Shape, s.shapes[h]? = some shape ∧ s.Gives shape t

theorem Shapes.Built.add {s : Shapes} {templates : List (Except String Template)}
    (hs : s.Built templates) (t : Except String Template) (hf : (s.add t).Fits) :
    (s.add t).Built (templates ++ [t]) := by
  obtain ⟨shape, hshape, hgives⟩ := s.add_gives t hf
  obtain ⟨codes, links, shape', hext⟩ := s.add_extends t
  constructor
  · rw [hshape, List.length_append, List.length_append, hs.length]
    rfl
  · intro h u hu
    rw [hshape]
    by_cases hlt : h < templates.length
    · rw [List.getElem?_append_left hlt] at hu
      obtain ⟨old, hold, hg⟩ := hs.gives hu
      have hl : h < s.shapes.length := by
        have := hs.length
        omega
      refine ⟨old, by rw [List.getElem?_append_left hl, hold], ?_⟩
      rw [hext]
      exact hg.append codes links _
    · have hend : h < (templates ++ [t]).length := (List.getElem?_eq_some_iff.1 hu).1
      rw [List.length_append, List.length_singleton] at hend
      have hl : h = templates.length := by omega
      rw [hl, List.getElem?_concat_length, Option.some.injEq] at hu
      exact ⟨shape, by rw [hl, ← hs.length, List.getElem?_concat_length], hu ▸ hgives⟩

theorem Shapes.fits_of_add {s : Shapes} {t : Except String Template} (h : (s.add t).Fits) :
    s.Fits := by
  obtain ⟨codes, links, shape, hext⟩ := s.add_extends t
  rw [hext] at h
  obtain ⟨hcode, hlinks⟩ := h
  rw [List.length_append] at hcode hlinks
  constructor
  · omega
  · omega

/-- **Every template has its shape**, as long as the tables fit. -/
theorem built_new (templates : List (Except String Template))
    (hf : (Shapes.new templates).Fits) : (Shapes.new templates).Built templates := by
  induction templates using List.reverseRecOn with
  | nil => exact ⟨rfl, fun h => by simp at h⟩
  | append_singleton templates t ih =>
      have heq : Shapes.new (templates ++ [t]) = (Shapes.new templates).add t :=
        List.foldl_concat ..
      rw [heq] at hf ⊢
      exact (ih (Shapes.fits_of_add hf)).add t hf

end Table
end Disasm
end Lunar
