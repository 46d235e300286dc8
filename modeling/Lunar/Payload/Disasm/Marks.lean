/-
# The links of an instruction

The links of an instruction are the addresses in the closure slots and in the target
slots of its template; at the first a function starts.  The shape of a template counts
the closure slots in a byte, so a template with 256 of them or more loses the marks of
those past the count.  `readings_agree_iff` says for which tables the fast decoder gives
the links that the templates name: those where no template that can be decoded has an
address in a slot past the count.
-/

import Lunar.Payload.Disasm.Agree

namespace Lunar
namespace Disasm

open Ir

/-- The most slots of a template (`lift.rs`). -/
def MAX_SLOTS : ℕ := 255

/-- What `lift` keeps: the slots are bounded, and every slot named is one of a read
made before. -/
structure Lifted (t : Template) : Prop where
  reads : t.reads.length ≤ MAX_SLOTS
  seeks : ∀ s ∈ t.seeks, s.slot < s.place ∧ s.place ≤ t.reads.length
  branch : ∀ b ∈ t.branch, b.slot < t.reads.length
  closures : ∀ s ∈ t.closures, s < t.reads.length
  targets : ∀ s ∈ t.targets, s < t.reads.length

/-- What an instruction gives: the buffer with its operands, the place after it, its
target and its links, those to a function marked. -/
structure Reading where
  buffer : List Operand
  next : ℕ
  target : Option ℕ
  links : List (ℕ × Bool)
  deriving DecidableEq

/-- The reading of the plain decoder, with the links that the template names. -/
def plainReading (dec : Decoder) (templates : List (Except String Template)) (handler pc : ℕ)
    (buffer : List Operand) : Option Reading :=
  match templates[handler]? with
  | some (.ok t) => (dec.decode pc t).map fun (d, ops) =>
    ⟨buffer ++ ops, d.next, d.target, linksOf (t.closures ++ t.targets) t.closures.length 0 ops⟩
  | _ => none

/-- The reading of the fast decoder, with the links that the shape names. -/
def fastReading (dec : Decoder) (templates : List (Except String Template)) (handler pc : ℕ)
    (buffer : List Operand) : Option Reading :=
  let shapes := Shapes.new templates
  let shape := (shapes.shapes[handler]?).getD .default
  if shape.ok then
    ((Fast.new dec).decode pc shape shapes.code buffer).map fun (next, target, out) =>
      ⟨out, next, target, shapes.linked shape buffer.length out⟩
  else none

/-! ## The marks -/

theorem linksOf_append (xs ys : List ℕ) (start : ℕ) (ops : List Operand) :
    linksOf (xs ++ ys) xs.length start ops
      = ((xs.filterMap fun s => ops[start + s]?.bind intTarget).map (·, true))
        ++ ((ys.filterMap fun s => ops[start + s]?.bind intTarget).map (·, false)) := by
  have hpart : ∀ (zs : List ℕ) (b : Bool) (k : ℕ),
      (∀ i < zs.length, decide (k + i < xs.length) = b) →
      (zs.zipIdx k).filterMap (fun q => (ops[start + q.1]?.bind intTarget).map fun t =>
          (t, decide (q.2 < xs.length)))
        = (zs.filterMap fun s => ops[start + s]?.bind intTarget).map (·, b) := by
    intro zs b
    induction zs with
    | nil => intro k _; rfl
    | cons z zs ih =>
        intro k hk
        have hz : decide (k < xs.length) = b := hk 0 (Nat.zero_lt_succ _)
        have htail := ih (k + 1) fun i hi => by
          have h := hk (i + 1) (Nat.succ_lt_succ hi)
          rwa [show k + (i + 1) = k + 1 + i by omega] at h
        rw [List.zipIdx_cons, List.filterMap_cons, List.filterMap_cons, htail]
        dsimp only
        rw [hz]
        cases ops[start + z]?.bind intTarget with
        | none => rfl
        | some t => rfl
  rw [linksOf_eq, List.zipIdx_append, List.filterMap_append, hpart xs true 0, hpart ys false]
  · intro i _
    exact decide_eq_false (by omega)
  · intro i hi
    exact decide_eq_true (by omega)

/-- The marks of a shorter count are those of the whole exactly if no slot between
holds an address. -/
theorem linksOf_eq_iff (xs ys zs : List ℕ) (start : ℕ) (ops : List Operand) :
    linksOf (xs ++ ys ++ zs) xs.length start ops = linksOf (xs ++ ys ++ zs) (xs ++ ys).length start ops
      ↔ ∀ s ∈ ys, ops[start + s]?.bind intTarget = none := by
  rw [linksOf_append (xs ++ ys) zs, List.append_assoc xs ys zs, linksOf_append xs (ys ++ zs),
    List.filterMap_append, List.filterMap_append, List.map_append, List.map_append,
    List.append_assoc, List.append_cancel_left_eq, List.append_cancel_right_eq,
    ← List.filterMap_eq_nil_iff]
  constructor
  · intro h
    cases hl : ys.filterMap fun s => ops[start + s]?.bind intTarget with
    | nil => rfl
    | cons t ts =>
        rw [hl] at h
        simp at h
  · intro h
    rw [h]
    rfl

/-! ## Which templates decode -/

/-- A read whose operand can be an address. -/
def Addressable (t : Template) (slot : ℕ) : Prop :=
  t.reads[slot]? = some .value ∨ t.reads[slot]? = some .pc

/-- Every slot that the cursor or the branch goes to can be an address. -/
def Decodable (t : Template) : Prop :=
  (∀ s ∈ t.seeks, Addressable t s.slot) ∧ ∀ b ∈ t.branch, Addressable t b.slot

/-- The closure slots that the count of a shape leaves out. -/
def unmarked (t : Template) : List ℕ := t.closures.drop (t.closures.length % 2 ^ 8)

/-- If the template decodes, no closure slot that the count leaves out can be an address. -/
def Marked (t : Template) : Prop := Decodable t → ∀ s ∈ unmarked t, ¬ Addressable t s

instance (t : Template) (slot : ℕ) : Decidable (Addressable t slot) :=
  inferInstanceAs (Decidable (_ ∨ _))

instance (t : Template) : Decidable (Decodable t) := inferInstanceAs (Decidable (_ ∧ _))

instance (t : Template) : Decidable (Marked t) := inferInstanceAs (Decidable (_ → _))

/-- Fewer than 256 closure slots are all counted. -/
theorem marked_of_lt {t : Template} (h : t.closures.length < 2 ^ 8) : Marked t := by
  intro _ s hs
  rw [unmarked, Nat.mod_eq_of_lt h, List.drop_length] at hs
  cases hs

/-- The target of an instruction with these operands. -/
def branchTarget (t : Template) (ops : List Operand) : Option (Option ℕ) :=
  match t.branch with
  | some b => (Decoder.slotTarget ops b.slot).map some
  | none => some none

theorem decode_eq (dec : Decoder) (pc : ℕ) (t : Template) :
    dec.decode pc t
      = (dec.reads 0 t.seeks [] (pc + 1) t.reads).bind fun x =>
          (x.1.foldlM (fun _ s => Decoder.slotTarget x.2.1 s.slot) x.2.2).bind fun at_ =>
            (branchTarget t x.2.1).bind fun target =>
              if 2 ^ 32 ≤ at_ then none else some (⟨at_, target⟩, x.2.1) := by
  unfold Decoder.decode branchTarget
  cases t.branch with
  | none => rfl
  | some b => rfl

section Sound

variable {dec : Decoder} {t : Template}

/-- Only the operands of addressable reads are addresses. -/
def Sound (t : Template) (ops : List Operand) : Prop :=
  ∀ s a, Decoder.slotTarget ops s = some a → Addressable t s

theorem Sound.push {ops : List Operand} (h : Sound t ops) {kind : ReadKind} {at_ : ℕ}
    {r : Operand × ℕ} (hk : t.reads[ops.length]? = some kind) (hr : dec.read at_ kind = some r) :
    Sound t (ops ++ [r.1]) := by
  intro s a ha
  by_cases hlt : s < ops.length
  · refine h s a ?_
    rwa [Decoder.slotTarget, List.getElem?_append_left hlt] at ha
  · obtain ⟨op, hop, hint⟩ := Option.bind_eq_some_iff.1 ha
    have hend := (List.getElem?_eq_some_iff.1 hop).1
    rw [List.length_append, List.length_singleton] at hend
    have hs : s = ops.length := by omega
    rw [hs, List.getElem?_concat_length, Option.some.injEq] at hop
    rw [hs, Addressable, hk]
    cases kind with
    | value => exact .inl rfl
    | pc => exact .inr rfl
    | reg =>
        obtain ⟨w, -, hw⟩ := Option.bind_eq_some_iff.1 hr
        cases hw
        rw [← hop] at hint
        cases hint
    | dest =>
        obtain ⟨w, -, hw⟩ := Option.bind_eq_some_iff.1 hr
        dsimp only at hw
        split at hw
        · cases hw
        · cases hw
          rw [← hop] at hint
          cases hint

theorem seekTo_sound {ops : List Operand} (h : Sound t ops) {i : ℕ} {seeks : List Seek} {at_ : ℕ}
    {r : ℕ × List Seek} (hs : Decoder.seekTo i ops seeks at_ = some r) :
    ∀ s ∈ seeks, s ∈ r.2 ∨ Addressable t s.slot := by
  induction seeks generalizing at_ with
  | nil => intro s hmem; cases hmem
  | cons x seeks ih =>
      intro s hmem
      rw [Decoder.seekTo] at hs
      by_cases hx : x.place = i
      · rw [if_pos hx] at hs
        obtain ⟨a, ha, hrest⟩ := Option.bind_eq_some_iff.1 hs
        rcases List.mem_cons.1 hmem with rfl | hmem
        · exact .inr (h _ _ ha)
        · exact ih hrest s hmem
      · rw [if_neg hx] at hs
        cases hs
        exact .inl hmem

/-- What the reads leave: sound operands, and seeks that are left or were addressable. -/
theorem reads_sound (kinds : List ReadKind) : ∀ {i : ℕ} {seeks : List Seek} {ops : List Operand}
    {at_ : ℕ} {r : List Seek × List Operand × ℕ}, Sound t ops → ops.length = i →
    t.reads.drop i = kinds → dec.reads i seeks ops at_ kinds = some r →
    Sound t r.2.1 ∧ ∀ s ∈ seeks, s ∈ r.1 ∨ Addressable t s.slot := by
  induction kinds with
  | nil =>
      intro i seeks ops at_ r hops _ _ h
      cases h
      exact ⟨hops, fun s hs => .inl hs⟩
  | cons kind kinds ih =>
      intro i seeks ops at_ r hops hlen hdrop h
      obtain ⟨x, hx, h⟩ := Option.bind_eq_some_iff.1 h
      obtain ⟨o, ho, h⟩ := Option.bind_eq_some_iff.1 h
      have hkind : t.reads[ops.length]? = some kind := by
        rw [hlen, ← List.head?_drop, hdrop]
        rfl
      have hnext : t.reads.drop (i + 1) = kinds := by
        rw [← List.tail_drop, hdrop]
        rfl
      obtain ⟨hsound, hleft⟩ := ih (hops.push hkind ho) (by
        rw [List.length_append, hlen]
        rfl) hnext h
      refine ⟨hsound, fun s hs => ?_⟩
      rcases seekTo_sound hops hx s hs with hs | hs
      · exact hleft s hs
      · exact .inr hs

theorem rest_sound {ops : List Operand} (h : Sound t ops) {seeks : List Seek} {at_ a : ℕ}
    (hs : seeks.foldlM (fun _ s => Decoder.slotTarget ops s.slot) at_ = some a) :
    ∀ s ∈ seeks, Addressable t s.slot := by
  induction seeks generalizing at_ with
  | nil => intro s hmem; cases hmem
  | cons x seeks ih =>
      intro s hmem
      rw [List.foldlM_cons] at hs
      obtain ⟨b, hb, hrest⟩ := Option.bind_eq_some_iff.1 hs
      rcases List.mem_cons.1 hmem with rfl | hmem
      · exact h _ _ hb
      · exact ih hrest s hmem

/-- **What decodes is decodable**, and only addressable operands are addresses. -/
theorem decode_sound {pc : ℕ} {r : Decoder.Decoded × List Operand}
    (h : dec.decode pc t = some r) : Decodable t ∧ Sound t r.2 := by
  rw [decode_eq] at h
  obtain ⟨x, hx, h⟩ := Option.bind_eq_some_iff.1 h
  obtain ⟨at_, hat, h⟩ := Option.bind_eq_some_iff.1 h
  obtain ⟨target, htarget, h⟩ := Option.bind_eq_some_iff.1 h
  have hstart : Sound t [] := fun s a ha => by cases ha
  obtain ⟨hsound, hseeks⟩ := reads_sound t.reads hstart rfl (List.drop_zero) hx
  have hops : r.2 = x.2.1 := by
    split at h
    · cases h
    · cases h
      rfl
  rw [hops]
  refine ⟨⟨fun s hs => ?_, fun b hb => ?_⟩, hsound⟩
  · rcases hseeks s hs with hs | hs
    · exact rest_sound hsound hat s hs
    · exact hs
  · rw [branchTarget, hb] at htarget
    obtain ⟨a, ha, -⟩ := Option.map_eq_some_iff.1 htarget
    exact hsound _ _ ha

end Sound

section Ones

/-- A code of words `1`: every value read is the integer `0`. -/
def ones (n : ℕ) : Decoder where
  code := List.replicate n 1
  tags := ⟨0, 2, 4, 6, 8, 10⟩
  valueShift := 0
  regShift := 0
  destShift := 0
  lenFirst := true
  poolLen := 0

theorem ones_distinct (n : ℕ) : (ones n).tags.Distinct := by
  show ([0, 2, 4, 6, 8, 10] : List ℤ).Nodup
  decide

variable {n : ℕ} {t : Template}

theorem ones_word {at_ : ℕ} (h : at_ < n) : (ones n).word at_ = some 1 := by
  show ((List.replicate n (1 : BitVec 32))[at_]?).map BitVec.toInt = some 1
  rw [List.getElem?_replicate, if_pos h]
  rfl

theorem ones_read {at_ : ℕ} (h : at_ < n) (kind : ReadKind) :
    ∃ op, (ones n).read at_ kind = some (op, at_ + 1) ∧
      (kind = .value ∨ kind = .pc → ∃ a ≤ at_, intTarget op = some a) := by
  cases kind with
  | value =>
      refine ⟨.int 0, ?_, fun _ => ⟨0, Nat.zero_le _, rfl⟩⟩
      rw [Decoder.read, Decoder.value, ones_word h]
      rfl
  | reg =>
      refine ⟨.reg 1, ?_, by simp⟩
      rw [Decoder.read, ones_word h]
      rfl
  | dest =>
      refine ⟨.dest 1, ?_, by simp⟩
      rw [Decoder.read, ones_word h]
      rfl
  | pc => exact ⟨.pc (at_ % 2 ^ 32), rfl, fun _ => ⟨at_ % 2 ^ 32, Nat.mod_le _ _, rfl⟩⟩

/-- Every addressable operand is an address, not past the reads so far. -/
def Open (t : Template) (ops : List Operand) : Prop :=
  ∀ s < ops.length, Addressable t s → ∃ a ≤ ops.length, Decoder.slotTarget ops s = some a

theorem Open.push {ops : List Operand} (h : Open t ops) {kind : ReadKind} {op : Operand}
    (hk : t.reads[ops.length]? = some kind)
    (hop : kind = .value ∨ kind = .pc → ∃ a ≤ ops.length + 1, intTarget op = some a) :
    Open t (ops ++ [op]) := by
  intro s hs hadd
  rw [List.length_append, List.length_singleton] at hs ⊢
  by_cases hlt : s < ops.length
  · obtain ⟨a, ha, htarget⟩ := h s hlt hadd
    refine ⟨a, by omega, ?_⟩
    rw [Decoder.slotTarget, List.getElem?_append_left hlt]
    exact htarget
  · have heq : s = ops.length := by omega
    rw [heq, Addressable, hk, Option.some.injEq, Option.some.injEq] at hadd
    obtain ⟨a, ha, htarget⟩ := hop hadd
    refine ⟨a, ha, ?_⟩
    rw [Decoder.slotTarget, heq, List.getElem?_concat_length]
    exact htarget

theorem seekTo_open {ops : List Operand} (h : Open t ops) {seeks : List Seek}
    (hs : ∀ s ∈ seeks, s.slot < s.place ∧ Addressable t s.slot) :
    ∀ at_ : ℕ, at_ ≤ ops.length + 1 → ∃ a rest, a ≤ ops.length + 1 ∧ rest ⊆ seeks ∧
      Decoder.seekTo ops.length ops seeks at_ = some (a, rest) := by
  induction seeks with
  | nil => exact fun at_ hle => ⟨at_, [], hle, List.Subset.refl _, rfl⟩
  | cons x seeks ih =>
      intro at_ hle
      rw [Decoder.seekTo]
      by_cases hx : x.place = ops.length
      · obtain ⟨hslot, hadd⟩ := hs x List.mem_cons_self
        obtain ⟨b, hb, htarget⟩ := h x.slot (hx ▸ hslot) hadd
        obtain ⟨a, rest, ha, hsub, hseek⟩ :=
          ih (fun s hmem => hs s (List.mem_cons_of_mem x hmem)) b (by omega)
        refine ⟨a, rest, ha, fun s hmem => List.mem_cons_of_mem x (hsub hmem), ?_⟩
        rw [if_pos hx, htarget]
        exact hseek
      · exact ⟨at_, x :: seeks, hle, List.Subset.refl _, if_neg hx⟩

/-- All reads of a code of ones succeed. -/
theorem reads_open (kinds : List ReadKind) : ∀ (seeks : List Seek) (ops : List Operand) (at_ : ℕ),
    Open t ops → (∀ s ∈ seeks, s.slot < s.place ∧ Addressable t s.slot) →
    t.reads.drop ops.length = kinds → at_ ≤ ops.length + 1 → ops.length + kinds.length < n →
    ∃ rest ops' a, Open t ops' ∧ rest ⊆ seeks ∧ ops'.length = ops.length + kinds.length ∧
      a ≤ ops'.length + 1 ∧
      (ones n).reads ops.length seeks ops at_ kinds = some (rest, ops', a) := by
  induction kinds with
  | nil =>
      intro seeks ops at_ hops _ _ hle _
      exact ⟨seeks, ops, at_, hops, List.Subset.refl _, rfl, hle, rfl⟩
  | cons kind kinds ih =>
      intro seeks ops at_ hops hseeks hdrop hle hn
      rw [List.length_cons] at hn
      obtain ⟨b, left, hb, hleft, hseek⟩ := seekTo_open hops hseeks at_ hle
      have hlt : b < n := by omega
      obtain ⟨op, hread, hop⟩ := ones_read hlt kind
      have hkind : t.reads[ops.length]? = some kind := by
        rw [← List.head?_drop, hdrop]
        rfl
      have hlen : (ops ++ [op]).length = ops.length + 1 := by
        rw [List.length_append]
        rfl
      have hnext : t.reads.drop (ops ++ [op]).length = kinds := by
        rw [hlen, ← List.tail_drop, hdrop]
        rfl
      have hpush : Open t (ops ++ [op]) := hops.push hkind fun hk => by
        obtain ⟨a, ha, htarget⟩ := hop hk
        exact ⟨a, by omega, htarget⟩
      obtain ⟨rest, ops', a, hopen, hrest, hlen', ha, hreads⟩ :=
        ih left (ops ++ [op]) (b + 1) hpush (fun s hs => hseeks s (hleft hs)) hnext
          (by omega) (by omega)
      refine ⟨rest, ops', a, hopen, fun s hs => hleft (hrest hs), ?_, ha, ?_⟩
      · rw [hlen', hlen, List.length_cons]
        omega
      · rw [Decoder.reads, hseek]
        dsimp only [Option.bind_eq_bind, Option.bind_some]
        rw [hread]
        dsimp only [Option.bind_eq_bind, Option.bind_some]
        rw [← hlen]
        exact hreads

theorem rest_open {ops : List Operand} (h : Open t ops) {seeks : List Seek}
    (hs : ∀ s ∈ seeks, s.slot < ops.length ∧ Addressable t s.slot) :
    ∀ at_ : ℕ, at_ ≤ ops.length + 1 → ∃ a ≤ ops.length + 1,
      seeks.foldlM (fun _ s => Decoder.slotTarget ops s.slot) at_ = some a := by
  induction seeks with
  | nil => exact fun at_ hle => ⟨at_, hle, rfl⟩
  | cons x seeks ih =>
      intro at_ _
      obtain ⟨hslot, hadd⟩ := hs x List.mem_cons_self
      obtain ⟨b, hb, htarget⟩ := h x.slot hslot hadd
      obtain ⟨a, ha, hrest⟩ :=
        ih (fun s hmem => hs s (List.mem_cons_of_mem x hmem)) b (by omega)
      refine ⟨a, ha, ?_⟩
      rw [List.foldlM_cons, htarget]
      exact hrest

/-- **A decodable template decodes from a code of ones**, and every addressable operand
is an address there. -/
theorem decode_ones (hl : Lifted t) (hd : Decodable t) :
    ∃ r, (ones (t.reads.length + 1)).decode 0 t = some r ∧
      ∀ s, Addressable t s → ∃ a, Decoder.slotTarget r.2 s = some a := by
  have hreads : t.reads.length ≤ 255 := hl.reads
  have hstart : Open t [] := fun s hs => absurd hs (Nat.not_lt_zero s)
  obtain ⟨rest, ops, a, hopen, hrest, hlen, ha, hread⟩ :=
    reads_open (n := t.reads.length + 1) t.reads t.seeks [] 1 hstart
      (fun s hs => ⟨(hl.seeks s hs).1, hd.1 s hs⟩) List.drop_zero (le_refl 1) (by simp)
  rw [List.length_nil, Nat.zero_add] at hlen
  obtain ⟨b, hb, hfold⟩ := rest_open hopen (fun s hs => by
    obtain ⟨hslot, hplace⟩ := hl.seeks s (hrest hs)
    exact ⟨by omega, hd.1 s (hrest hs)⟩) a ha
  have htarget : ∃ target, branchTarget t ops = some target := by
    unfold branchTarget
    cases hbr : t.branch with
    | none => exact ⟨none, rfl⟩
    | some br =>
        obtain ⟨c, -, hc⟩ := hopen br.slot (hlen ▸ hl.branch br hbr) (hd.2 br hbr)
        refine ⟨some c, ?_⟩
        show Option.map some (Decoder.slotTarget ops br.slot) = _
        rw [hc]
        rfl
  obtain ⟨target, htarget⟩ := htarget
  have hlt : ¬ 2 ^ 32 ≤ b := by omega
  refine ⟨(⟨b, target⟩, ops), ?_, fun s hs => ?_⟩
  · rw [decode_eq, Nat.zero_add]
    rw [List.length_nil] at hread
    rw [hread, Option.bind_some]
    dsimp only
    rw [hfold, Option.bind_some, htarget, Option.bind_some, if_neg hlt]
  · have hslot : s < ops.length := by
      rw [hlen]
      rcases hs with hs | hs
      · exact (List.getElem?_eq_some_iff.1 hs).1
      · exact (List.getElem?_eq_some_iff.1 hs).1
    obtain ⟨c, -, hc⟩ := hopen s hslot hs
    exact ⟨c, hc⟩

end Ones

/-! ## The readings -/

section Readings

variable {dec : Decoder} {templates : List (Except String Template)} {handler : ℕ}

theorem linksOf_shift (links : List ℕ) (k : ℕ) (buffer ops : List Operand) :
    linksOf links k buffer.length (buffer ++ ops) = linksOf links k 0 ops := by
  unfold linksOf
  congr 1
  funext ⟨s, i⟩
  dsimp only
  rw [slotTarget_append, Nat.zero_add]
  rfl

/-- The fast reading is the plain one, with the marks up to the count in a byte. -/
theorem fastReading_ok (hd : dec.tags.Distinct) (hf : (Shapes.new templates).Fits) {t : Template}
    (ht : templates[handler]? = some (.ok t)) (hl : Lifted t) (pc : ℕ) (buffer : List Operand) :
    fastReading dec templates handler pc buffer
      = (dec.decode pc t).map fun r => ⟨buffer ++ r.2, r.1.next, r.1.target,
          linksOf (t.closures ++ t.targets) (t.closures.length % 2 ^ 8) 0 r.2⟩ := by
  obtain ⟨shape, hshape, hgives⟩ := (built_new templates hf).gives ht
  have hcovers : (Shapes.new templates).Covers shape t := hgives
  have hslots : ∀ b ∈ t.branch, b.slot ≠ NO_SLOT := by
    intro b hb
    have hlt := hl.branch b hb
    have hmax : t.reads.length ≤ 255 := hl.reads
    show b.slot ≠ 255
    omega
  unfold fastReading
  dsimp only
  rw [hshape, Option.getD_some, if_pos hcovers.ok, fast_decode hd hcovers hslots, Option.map_map]
  congr 1
  funext r
  dsimp only [Function.comp_def]
  rw [Shapes.linked, hcovers.links, hcovers.closures, linksOf_shift]

theorem fastReading_none (hf : (Shapes.new templates).Fits)
    (ht : ∀ t, templates[handler]? ≠ some (.ok t)) (pc : ℕ) (buffer : List Operand) :
    fastReading dec templates handler pc buffer = none := by
  have hbuilt := built_new templates hf
  have hshape : ((Shapes.new templates).shapes[handler]?).getD .default = .default := by
    cases h : templates[handler]? with
    | none =>
        have hlen := List.getElem?_eq_none_iff.1 h
        rw [← hbuilt.length] at hlen
        rw [List.getElem?_eq_none_iff.2 hlen]
        rfl
    | some t =>
        cases t with
        | ok t => exact absurd h (ht t)
        | error e =>
            obtain ⟨shape, hshape, hgives⟩ := hbuilt.gives h
            rw [hshape]
            exact hgives
  unfold fastReading
  dsimp only
  rw [hshape]
  rfl

theorem plainReading_ok {t : Template} (ht : templates[handler]? = some (.ok t)) (pc : ℕ)
    (buffer : List Operand) :
    plainReading dec templates handler pc buffer
      = (dec.decode pc t).map fun r => ⟨buffer ++ r.2, r.1.next, r.1.target,
          linksOf (t.closures ++ t.targets) t.closures.length 0 r.2⟩ := by
  rw [plainReading, ht]

/-- The links of a template with the count in a byte are those of the template exactly if
no slot left out holds an address. -/
theorem links_eq_iff (t : Template) (ops : List Operand) :
    linksOf (t.closures ++ t.targets) (t.closures.length % 2 ^ 8) 0 ops
        = linksOf (t.closures ++ t.targets) t.closures.length 0 ops
      ↔ ∀ s ∈ unmarked t, Decoder.slotTarget ops s = none := by
  have hsplit : t.closures.take (t.closures.length % 2 ^ 8) ++ unmarked t = t.closures :=
    List.take_append_drop _ _
  have hlen : (t.closures.take (t.closures.length % 2 ^ 8)).length = t.closures.length % 2 ^ 8 := by
    rw [List.length_take, Nat.min_eq_left (Nat.mod_le _ _)]
  have h := linksOf_eq_iff (t.closures.take (t.closures.length % 2 ^ 8)) (unmarked t) t.targets 0 ops
  rw [hsplit, hlen] at h
  rw [h]
  simp only [Nat.zero_add, Decoder.slotTarget]

/-- **The fast decoder reads every instruction as the plain one exactly if every template
is marked**: no template that can be decoded has an address in a closure slot that the
byte with their number leaves out. -/
theorem readings_agree_iff (templates : List (Except String Template))
    (hl : ∀ t, .ok t ∈ templates → Lifted t) (hf : (Shapes.new templates).Fits) :
    (∀ dec : Decoder, dec.tags.Distinct → ∀ handler pc buffer,
        fastReading dec templates handler pc buffer = plainReading dec templates handler pc buffer)
      ↔ ∀ t, .ok t ∈ templates → Marked t := by
  constructor
  · intro h t hmem hdec s hs hadd
    obtain ⟨handler, hlt, ht⟩ := List.mem_iff_getElem.1 hmem
    have hget : templates[handler]? = some (.ok t) := List.getElem?_eq_some_iff.2 ⟨hlt, ht⟩
    have hlift := hl t hmem
    obtain ⟨r, hr, hopen⟩ := decode_ones hlift hdec
    have heq := h _ (ones_distinct (t.reads.length + 1)) handler 0 []
    rw [fastReading_ok (ones_distinct _) hf hget hlift, plainReading_ok hget, hr, Option.map_some,
      Option.map_some, Option.some.injEq, Reading.mk.injEq] at heq
    obtain ⟨a, ha⟩ := hopen s hadd
    have hnone := (links_eq_iff t r.2).1 heq.2.2.2 s hs
    rw [ha] at hnone
    cases hnone
  · intro h dec hd handler pc buffer
    by_cases hok : ∃ t, templates[handler]? = some (.ok t)
    · obtain ⟨t, ht⟩ := hok
      have hmem : .ok t ∈ templates := List.mem_of_getElem? ht
      rw [fastReading_ok hd hf ht (hl t hmem), plainReading_ok ht]
      cases hr : dec.decode pc t with
      | none => rfl
      | some r =>
          obtain ⟨hdec, hsound⟩ := decode_sound hr
          have hlinks := (links_eq_iff t r.2).2 fun s hs => by
            cases htarget : Decoder.slotTarget r.2 s with
            | none => rfl
            | some a => exact absurd (hsound s a htarget) (h t hmem hdec s hs)
          rw [Option.map_some, Option.map_some, hlinks]
    · have hne : ∀ t, templates[handler]? ≠ some (.ok t) := fun t ht => hok ⟨t, ht⟩
      rw [fastReading_none hf hne, plainReading]
      split
      · rename_i t ht
        exact absurd ht (hne t)
      · rfl

/-- A template that creates `k` functions at the address in its one slot. -/
def creates (k : ℕ) : Template where
  reads := [.value]
  seeks := []
  branch := none
  falls := false
  closures := List.replicate k 0
  exprs := []
  args := []
  stmts := []
  body := ⟨0, 0⟩

theorem lifted_creates (k : ℕ) : Lifted (creates k) where
  reads := by
    show 1 ≤ 255
    decide
  seeks := fun s hs => by cases hs
  branch := fun b hb => by cases hb
  closures := fun s hs => by
    rw [List.eq_of_mem_replicate hs]
    exact Nat.one_pos
  targets := fun s hs => by cases hs

theorem fits_creates {k : ℕ} (h : k < 2 ^ 32) : (Shapes.new [.ok (creates k)]).Fits := by
  constructor
  · show 1 < 2 ^ 32
    decide
  · show ([] ++ List.replicate k 0 ++ []).length < 2 ^ 32
    rw [List.append_nil, List.nil_append, List.length_replicate]
    exact h

/-- The decoders agree on an instruction that creates three functions. -/
theorem readings_agree_iff_three :
    fastReading (ones 2) [.ok (creates 3)] 0 0 [] = plainReading (ones 2) [.ok (creates 3)] 0 0 [] :=
  (readings_agree_iff [.ok (creates 3)]
    (fun t ht => by
      cases List.mem_singleton.1 ht
      exact lifted_creates 3)
    (fits_creates (by decide))).2
    (fun t ht => by
      cases List.mem_singleton.1 ht
      exact marked_of_lt (by decide))
    (ones 2) (ones_distinct 2) 0 0 []

/-- **A handler that creates 256 functions loses its links to them**: the byte with their
number is `0`. -/
theorem readings_differ : ¬ ∀ templates : List (Except String Template),
    (∀ t, .ok t ∈ templates → Lifted t) → (Shapes.new templates).Fits →
    ∀ dec : Decoder, dec.tags.Distinct → ∀ handler pc buffer,
      fastReading dec templates handler pc buffer
        = plainReading dec templates handler pc buffer := by
  intro h
  have heq := h [.ok (creates 256)]
    (fun t ht => by
      cases List.mem_singleton.1 ht
      exact lifted_creates 256)
    (fits_creates (by decide)) (ones 2) (ones_distinct 2) 0 0 []
  revert heq
  decide +kernel

end Readings

end Disasm
end Lunar
