/-
# The table of access paths

`worktime/fc.rs` (`child`, `ext`, `render`) with the words that it hands out (`Packed`).  The table
is a trie: an id is a parent and a key, and every call leaves it one (`Trie`).  Parents come before
their children, so a path is rendered to its end, and an id is known by its keys (`Keyed`).

Its keys are not always known by their texts: `x[true]` and `x["true"]` have different keys, and
their paths are rendered alike.  So different ids of every table have different steps exactly when
no two keys of the program have the same text (`trie_laws`).
-/

import Lunar.Worktime.Fc.Packed
import Lunar.Worktime.Fc.Paths

namespace Lunar
namespace Fc

/-- The facts of a solver before its first path. -/
def Facts.empty : Facts := ⟨[(NONE, NONE)], fun _ _ => none, fun _ => false, fun _ => .clean⟩

/-- `Solver::ext`, as it changes the facts. -/
def Facts.ext (s : Facts) (t : Taint) (key : ℕ) : Taint × Facts :=
  match t.split with
  | some (parent, derived) => s.child parent key (derived && parent != ROOT)
  | none => (t, s)

/-- The id of a taint is one of the table. -/
def Facts.holds (s : Facts) (t : Taint) : Bool :=
  t.split.all fun (id, _) => decide (id < s.paths.length)

/-- A new child is the last node of the table. -/
theorem Facts.child_paths {s : Facts} {parent key : ℕ} (hnone : s.pathIds parent key = none)
    (hroom : s.paths.length < MAX_PATHS) (derived : Bool) :
    (s.child parent key derived).2.paths = s.paths ++ [(parent, key)] := by
  rw [child, hnone]
  dsimp only
  rw [if_neg (Nat.not_le_of_lt hroom)]

/-- Calls of the table. -/
inductive TrieCall
  | child (parent key : ℕ) (derived : Bool)
  | ext (t : Taint) (key : ℕ)

/-- Any calls, with the ids of the table and the keys of the program. -/
def trie (p : Program) : Lib.System Facts TrieCall where
  init := .empty
  step s
    | .child parent key derived =>
      if parent < s.paths.length ∧ key ≤ p.wild then some (s.child parent key derived).2 else none
    | .ext t key => if s.holds t ∧ key ≤ p.wild then some (s.ext t key).2 else none

/-- The table is a trie. -/
structure Trie (p : Program) (s : Facts) : Prop where
  root : s.paths[ROOT]? = some (NONE, NONE)
  node : ∀ {id parent key : ℕ}, id ≠ ROOT → s.paths[id]? = some (parent, key) →
    parent < id ∧ key ≤ p.wild
  ids : ∀ {parent key id : ℕ}, s.pathIds parent key = some id ↔
    id ≠ ROOT ∧ s.paths[id]? = some (parent, key)
  room : s.paths.length ≤ MAX_PATHS

theorem getElem?_concat {α : Type} {xs : List α} {a b : α} {i : ℕ} :
    (xs ++ [a])[i]? = some b ↔ xs[i]? = some b ∨ i = xs.length ∧ a = b := by
  rcases Nat.lt_trichotomy i xs.length with hlt | rfl | hlt
  · rw [List.getElem?_append_left hlt, or_iff_left fun h => hlt.ne h.1]
  · simp
  · rw [List.getElem?_eq_none (by simpa using hlt), List.getElem?_eq_none hlt.le]
    exact iff_of_false nofun fun h => h.elim nofun fun h => hlt.ne' h.1

namespace Trie

variable {p : Program} {s : Facts}

theorem empty : Trie p .empty where
  root := rfl
  node {id parent key} hid h := by
    have hlt := (List.getElem?_eq_some_iff.1 h).1
    exact absurd (Nat.lt_one_iff.1 hlt) hid
  ids {parent key id} := by
    refine iff_of_false nofun fun h => ?_
    have hlt := (List.getElem?_eq_some_iff.1 h.2).1
    exact h.1 (Nat.lt_one_iff.1 hlt)
  room := by decide

/-- **A new node leaves a trie**, when its parent has a place and its key is new there. -/
theorem push (h : Trie p s) {parent key : ℕ} (hparent : parent < s.paths.length)
    (hkey : key ≤ p.wild) (hnone : s.pathIds parent key = none)
    (hroom : s.paths.length < MAX_PATHS) :
    Trie p { s with
      paths := s.paths ++ [(parent, key)]
      pathIds := fun a b =>
        if a = parent ∧ b = key then some s.paths.length else s.pathIds a b } where
  root := (List.getElem?_append_left (Nat.zero_lt_of_lt hparent)).trans h.root
  node {id a b} hne hnode := by
    rcases getElem?_concat.1 hnode with hold | ⟨rfl, hnew⟩
    · exact h.node hne hold
    · cases hnew
      exact ⟨hparent, hkey⟩
  ids {a b id} := by
    dsimp only
    rw [getElem?_concat, Prod.mk.injEq]
    by_cases hab : a = parent ∧ b = key
    · obtain ⟨rfl, rfl⟩ := hab
      have hfresh : ¬(id ≠ ROOT ∧ s.paths[id]? = some (a, b)) := fun hold => by
        rw [h.ids.2 hold] at hnone
        cases hnone
      have hpos : s.paths.length ≠ ROOT := (Nat.zero_lt_of_lt hparent).ne'
      rw [if_pos ⟨rfl, rfl⟩, Option.some.injEq]
      constructor
      · rintro rfl
        exact ⟨hpos, .inr ⟨rfl, rfl, rfl⟩⟩
      · rintro ⟨hne, hold | ⟨hid, -⟩⟩
        · exact absurd ⟨hne, hold⟩ hfresh
        · exact hid.symm
    · have hother : ¬(id = s.paths.length ∧ parent = a ∧ key = b) := fun heq =>
        hab ⟨heq.2.1.symm, heq.2.2.symm⟩
      rw [if_neg hab, h.ids, or_iff_left hother]
  room := by
    rw [List.length_append, List.length_singleton]
    exact hroom

/-- **A call of `child` leaves a trie.** -/
theorem child (h : Trie p s) {parent key : ℕ} (hparent : parent < s.paths.length)
    (hkey : key ≤ p.wild) (derived : Bool) : Trie p (s.child parent key derived).2 := by
  unfold Facts.child
  cases hid : s.pathIds parent key with
  | some id => exact h
  | none =>
      by_cases hfull : MAX_PATHS ≤ s.paths.length
      · simpa only [if_pos hfull] using h
      · simpa only [if_neg hfull] using h.push hparent hkey hid (Nat.lt_of_not_le hfull)

/-- A call of `ext` leaves a trie. -/
theorem ext (h : Trie p s) {t : Taint} {key : ℕ} (ht : s.holds t = true) (hkey : key ≤ p.wild) :
    Trie p (s.ext t key).2 := by
  unfold Facts.ext
  cases hsplit : t.split with
  | none => exact h
  | some part =>
      rw [Facts.holds, hsplit, Option.all_some] at ht
      exact h.child (of_decide_eq_true ht) hkey _

/-- **Every run of calls leaves a trie.** -/
theorem of_reachable (h : (trie p).Reachable s) : Trie p s := by
  refine h.invariant empty fun s call s' _ hs hstep => ?_
  cases call with
  | child parent key derived =>
      obtain ⟨⟨hparent, hkey⟩, heq⟩ := Option.ite_none_right_eq_some.1 hstep
      exact Option.some.inj heq ▸ hs.child hparent hkey derived
  | ext t key =>
      obtain ⟨⟨ht, hkey⟩, heq⟩ := Option.ite_none_right_eq_some.1 hstep
      exact Option.some.inj heq ▸ hs.ext ht hkey

end Trie

/-! ## Keys and steps -/

/-- The keys of an id, from the root on. -/
inductive Keyed (paths : List (ℕ × ℕ)) : ℕ → List ℕ → Prop
  | root : Keyed paths ROOT []
  | child {id parent key : ℕ} {keys : List ℕ} (hid : id ≠ ROOT)
      (hnode : paths[id]? = some (parent, key)) (h : Keyed paths parent keys) :
      Keyed paths id (keys ++ [key])

/-- The text of a key. -/
def Program.text (p : Program) (key : ℕ) : String := ((p.names[key]?).map KeyName.step).getD ""

/-- An id of the table is rendered as these steps. -/
def Shows (p : Program) (paths : List (ℕ × ℕ)) (id : ℕ) (steps : List String) : Prop :=
  id < paths.length ∧ ∀ fuel, id < fuel → render p paths fuel id = some (some steps)

section Keyed

variable {p : Program} {s : Facts} {id id' : ℕ} {keys keys' : List ℕ}

/-- **Every id has keys**: the walk to the root goes down. -/
theorem Trie.exists_keyed (h : Trie p s) (hid : id < s.paths.length) :
    ∃ keys, Keyed s.paths id keys := by
  induction id using Nat.strong_induction_on with
  | h id ih =>
      by_cases hroot : id = ROOT
      · exact ⟨[], hroot ▸ .root⟩
      · obtain ⟨⟨parent, key⟩, hnode⟩ : ∃ node, s.paths[id]? = some node :=
          ⟨_, List.getElem?_eq_getElem hid⟩
        have hlt := (h.node hroot hnode).1
        obtain ⟨keys, hkeys⟩ := ih parent hlt (hlt.trans hid)
        exact ⟨keys ++ [key], .child hroot hnode hkeys⟩

/-- An id has its keys only. -/
theorem Keyed.keys_eq {paths : List (ℕ × ℕ)} (h : Keyed paths id keys) (h' : Keyed paths id keys') :
    keys = keys' := by
  induction h generalizing keys' with
  | root =>
      cases h' with
      | root => rfl
      | child hid => exact absurd rfl hid
  | child hid hnode h ih =>
      cases h' with
      | root => exact absurd rfl hid
      | child hid' hnode' h' =>
          obtain ⟨rfl, rfl⟩ := Prod.mk.inj (Option.some.inj (hnode.symm.trans hnode'))
          rw [ih h']

/-- **No other id has its keys.** -/
theorem Trie.keyed_inj (htrie : Trie p s) (h : Keyed s.paths id keys)
    (h' : Keyed s.paths id' keys) : id = id' := by
  induction h generalizing id' with
  | root =>
      generalize hnil : ([] : List ℕ) = all at h'
      cases h' with
      | root => rfl
      | child => exact absurd hnil (by simp)
  | @child id parent key keys hid hnode h ih =>
      generalize hall : keys ++ [key] = all at h'
      cases h' with
      | root => exact absurd hall (by simp)
      | child hid' hnode' h' =>
          obtain ⟨rfl, hkey⟩ := List.append_inj' hall rfl
          obtain rfl := (List.cons.inj hkey).1
          obtain rfl := ih h'
          exact Option.some.inj ((htrie.ids.2 ⟨hid, hnode⟩).symm.trans (htrie.ids.2 ⟨hid', hnode'⟩))

theorem Keyed.le_wild (htrie : Trie p s) (h : Keyed s.paths id keys) :
    ∀ key ∈ keys, key ≤ p.wild := by
  induction h with
  | root => exact List.forall_mem_nil _
  | child hid hnode h ih =>
      rintro key hkey
      rcases List.mem_append.1 hkey with hkey | hkey
      · exact ih key hkey
      · exact List.mem_singleton.1 hkey ▸ (htrie.node hid hnode).2

/-- The text of a key that is not unknown. -/
theorem Program.render_name (hlit : ∀ l, .lit l ∈ p.names → l < 4) {key : ℕ} (hkey : key < p.wild) :
    ∃ name, p.names[key]? = some name ∧ name.render = some (p.text key) := by
  have hget := List.getElem?_eq_getElem hkey
  refine ⟨p.names[key], hget, ?_⟩
  have hknown : p.names[key].Known := fun l hl => hlit l (hl ▸ List.getElem_mem hkey)
  rw [Program.text, hget, Option.map_some, Option.getD_some, hknown.render]

/-- **An id is rendered** as the texts of its keys, unless one is unknown. -/
theorem Keyed.render (hlit : ∀ l, .lit l ∈ p.names → l < 4) (htrie : Trie p s)
    (h : Keyed s.paths id keys) : ∀ fuel steps, id < fuel → renderFrom p s.paths fuel id steps =
      some (if p.wild ∈ keys then none else some (keys.map p.text ++ steps)) := by
  induction h with
  | root =>
      rintro fuel steps hfuel
      obtain ⟨fuel, rfl⟩ := Nat.exists_eq_succ_of_ne_zero (Nat.ne_of_gt hfuel)
      rw [renderFrom, if_pos rfl, if_neg List.not_mem_nil]
      rfl
  | @child id parent key keys hid hnode h ih =>
      rintro fuel steps hfuel
      obtain ⟨fuel, rfl⟩ := Nat.exists_eq_succ_of_ne_zero (Nat.ne_of_gt (Nat.zero_lt_of_lt hfuel))
      obtain ⟨hparent, hle⟩ := htrie.node hid hnode
      rw [renderFrom, if_neg hid, hnode]
      simp only [Option.bind_eq_bind, Option.bind_some]
      by_cases hkey : key = p.wild
      · rw [if_pos hkey, if_pos (List.mem_append_right _ (List.mem_singleton.2 hkey.symm))]
        rfl
      · obtain ⟨name, hname, htext⟩ := Program.render_name hlit (Nat.lt_of_le_of_ne hle hkey)
        have hmem : p.wild ∈ keys ++ [key] ↔ p.wild ∈ keys := by
          rw [List.mem_append, List.mem_singleton, or_iff_left (Ne.symm hkey)]
        rw [if_neg hkey, hname, Option.bind_some, htext, Option.bind_some,
          ih fuel (p.text key :: steps) (by omega)]
        simp only [hmem, List.map_append, List.append_assoc]
        rfl

/-- **What an id shows** are the texts of keys that are all known. -/
theorem Trie.shows_iff (hlit : ∀ l, .lit l ∈ p.names → l < 4) (htrie : Trie p s)
    {steps : List String} : Shows p s.paths id steps ↔
      ∃ keys, Keyed s.paths id keys ∧ (∀ key ∈ keys, key < p.wild) ∧ keys.map p.text = steps := by
  constructor
  · rintro ⟨hid, hrender⟩
    obtain ⟨keys, hkeys⟩ := htrie.exists_keyed hid
    have hall := hkeys.render hlit htrie (id + 1) [] (Nat.lt_succ_self id)
    rw [← Fc.render, hrender (id + 1) (Nat.lt_succ_self id), Option.some.injEq] at hall
    by_cases hwild : p.wild ∈ keys
    · rw [if_pos hwild] at hall
      cases hall
    · rw [if_neg hwild, List.append_nil, Option.some.injEq] at hall
      refine ⟨keys, hkeys, fun key hkey => ?_, hall.symm⟩
      exact Nat.lt_of_le_of_ne (hkeys.le_wild htrie key hkey) fun heq => hwild (heq ▸ hkey)
  · rintro ⟨keys, hkeys, hknown, rfl⟩
    have hid : id < s.paths.length := by
      cases hkeys with
      | root => exact (List.getElem?_eq_some_iff.1 htrie.root).1
      | child _ hnode _ => exact (List.getElem?_eq_some_iff.1 hnode).1
    have hwild : p.wild ∉ keys := fun hmem => Nat.lt_irrefl _ (hknown _ hmem)
    refine ⟨hid, fun fuel hfuel => ?_⟩
    rw [Fc.render, hkeys.render hlit htrie fuel [] hfuel, if_neg hwild, List.append_nil]

/-- Lists of different keys have different texts, if different keys do. -/
theorem map_text_inj (h : ∀ key key', key < p.wild → key' < p.wild → p.text key = p.text key' →
    key = key') (hkeys : ∀ key ∈ keys, key < p.wild) (hkeys' : ∀ key ∈ keys', key < p.wild)
    (htext : keys.map p.text = keys'.map p.text) : keys = keys' := by
  induction keys generalizing keys' with
  | nil => exact (List.map_eq_nil_iff.1 htext.symm).symm
  | cons key keys ih =>
      obtain ⟨key', keys', rfl⟩ := List.exists_cons_of_ne_nil (l := keys') fun hnil => by
        rw [hnil] at htext
        cases htext
      obtain ⟨hkey, hkeys⟩ := List.forall_mem_cons.1 hkeys
      obtain ⟨hkey', hkeys'⟩ := List.forall_mem_cons.1 hkeys'
      obtain ⟨hhead, htail⟩ := List.cons.inj htext
      rw [h key key' hkey hkey' hhead, ih hkeys hkeys' htail]

/-- Two keys of the same text make two ids of the same steps. -/
theorem exists_shows_alike (hlit : ∀ l, .lit l ∈ p.names → l < 4) {key key' : ℕ}
    (hkey : key < p.wild) (hkey' : key' < p.wild) (hne : key ≠ key')
    (htext : p.text key = p.text key') : ∃ s, (trie p).Reachable s ∧
      Shows p s.paths 1 [p.text key] ∧ Shows p s.paths 2 [p.text key] := by
  have hstep {s : Facts} {key : ℕ} (hs : (trie p).Reachable s) (hkey : key < p.wild) :
      (trie p).Reachable (s.child ROOT key false).2 := by
    have hpos := (List.getElem?_eq_some_iff.1 (Trie.of_reachable hs).root).1
    exact hs.step (a := .child ROOT key false) (if_pos ⟨hpos, hkey.le⟩)
  have hs₁ := hstep (s := .empty) .init hkey
  have hs₂ := hstep hs₁ hkey'
  have hpaths₁ := @Facts.child_paths .empty ROOT key rfl (show 1 < MAX_PATHS by decide) false
  have hfresh : (Facts.empty.child ROOT key false).2.pathIds ROOT key' = none := by
    rw [Option.eq_none_iff_forall_ne_some]
    intro id hid
    obtain ⟨hroot, hnode⟩ := (Trie.of_reachable hs₁).ids.1 hid
    rw [hpaths₁] at hnode
    rcases getElem?_concat.1 hnode with hold | ⟨-, hnew⟩
    · exact hroot (Nat.lt_one_iff.1 (List.getElem?_eq_some_iff.1 hold).1)
    · exact hne (Prod.mk.inj hnew).2
  have hpaths₂ := Facts.child_paths hfresh (hpaths₁ ▸ show 2 < MAX_PATHS by decide) false
  rw [hpaths₁] at hpaths₂
  have hone {paths : List (ℕ × ℕ)} {id key : ℕ} (hid : id ≠ ROOT)
      (hnode : paths[id]? = some (ROOT, key)) : Keyed paths id [key] := .child hid hnode .root
  refine ⟨_, hs₂, ?_, ?_⟩
  · rw [(Trie.of_reachable hs₂).shows_iff hlit, hpaths₂]
    exact ⟨[key], hone (by decide) rfl, by simpa using hkey, rfl⟩
  · rw [(Trie.of_reachable hs₂).shows_iff hlit, hpaths₂]
    exact ⟨[key'], hone (by decide) rfl, by simpa using hkey', by simp [htext]⟩

end Keyed

/-- What holds of every table, whatever the calls. -/
structure TrieLaws (p : Program) : Prop where
  parent_lt : ∀ s, (trie p).Reachable s → ∀ id parent key, id ≠ ROOT →
    s.paths[id]? = some (parent, key) → parent < id
  rendered : ∀ s, (trie p).Reachable s → ∀ id, id < s.paths.length →
    ∃ steps, ∀ fuel, id < fuel → render p s.paths fuel id = some steps
  keyed : ∀ s, (trie p).Reachable s → ∀ id, id < s.paths.length → ∃ keys, Keyed s.paths id keys ∧
    (∀ keys', Keyed s.paths id keys' → keys' = keys) ∧ ∀ id', Keyed s.paths id' keys → id' = id
  apart : (∀ s, (trie p).Reachable s → ∀ id id' steps, Shows p s.paths id steps →
      Shows p s.paths id' steps → id = id') ↔
    ∀ key key', key < p.wild → key' < p.wild → p.text key = p.text key' → key = key'
  child_full : ∀ s : Facts, MAX_PATHS ≤ s.paths.length → ∀ parent key derived,
    s.pathIds parent key = none → s.child parent key derived = (.lost, s)
  ext_full : ∀ s : Facts, MAX_PATHS ≤ s.paths.length → ∀ parent key derived,
    s.pathIds parent key = none → s.ext (.path parent derived) key = (.lost, s)

/-- What holds of every word of a taint and of a tag. -/
structure WordLaws : Prop where
  split_path : ∀ id derived, id < MAX_PATHS →
    (Packed.Taint.path (BitVec.ofNat 32 id) derived).split = some (BitVec.ofNat 32 id, derived) ∧
      Packed.Taint.path (BitVec.ofNat 32 id) derived ≠ .CLEAN ∧
      Packed.Taint.path (BitVec.ofNat 32 id) derived ≠ .OPAQUE
  taint : JoinLaws Packed.Taint.join .CLEAN .OPAQUE
  tag : JoinLaws Packed.Tag.join .BOTTOM .CONFLICT
  callee : ∀ kind payload, kind.toNat < 4 → payload.toNat < 2 ^ 30 - 1 →
    ∃ v, (Packed.Tag.callee kind payload).get = some v ∧ v &&& 3 = kind ∧ v >>> 2 = payload

theorem wordLaws : WordLaws where
  split_path id derived hid := by
    have hnat : (BitVec.ofNat 32 id).toNat = id := by
      rw [BitVec.toNat_ofNat]
      exact Nat.mod_eq_of_lt (hid.trans (by decide))
    have hfits : Packed.Taint.Fits (BitVec.ofNat 32 id) :=
      lt_of_eq_of_lt hnat (hid.trans (by decide))
    exact ⟨Packed.Taint.split_path hfits derived, Packed.Taint.path_ne hfits derived⟩
  taint := Packed.Taint.joinLaws
  tag := Packed.Tag.joinLaws
  callee kind payload := Packed.Tag.get_callee

theorem child_full {s : Facts} (hfull : MAX_PATHS ≤ s.paths.length) {parent key : ℕ}
    (derived : Bool) (hnone : s.pathIds parent key = none) :
    s.child parent key derived = (.lost, s) := by
  rw [Facts.child, hnone]
  exact if_pos hfull

/-- **The table is a trie whose ids have their own keys.**  Its ids have their own steps exactly
when the keys of the program have their own texts. -/
theorem trie_laws (p : Program) (hlit : ∀ l, .lit l ∈ p.names → l < 4) :
    TrieLaws p ∧ WordLaws := by
  refine ⟨⟨fun s hs id parent key hid hnode => ?_, fun s hs id hid => ?_, fun s hs id hid => ?_,
    ⟨fun happart key key' hkey hkey' htext => ?_, fun htexts s hs id id' steps h h' => ?_⟩,
    fun s hfull parent key derived => ?_, fun s hfull parent key derived => ?_⟩, wordLaws⟩
  · exact ((Trie.of_reachable hs).node hid hnode).1
  · have htrie := Trie.of_reachable hs
    obtain ⟨keys, hkeys⟩ := htrie.exists_keyed hid
    exact ⟨_, fun fuel => hkeys.render hlit htrie fuel []⟩
  · have htrie := Trie.of_reachable hs
    obtain ⟨keys, hkeys⟩ := htrie.exists_keyed hid
    exact ⟨keys, hkeys, fun keys' h => h.keys_eq hkeys, fun id' h => htrie.keyed_inj h hkeys⟩
  · by_contra hne
    obtain ⟨s, hs, h, h'⟩ := exists_shows_alike hlit hkey hkey' hne htext
    exact absurd (happart s hs 1 2 _ h h') (by decide)
  · have htrie := Trie.of_reachable hs
    obtain ⟨keys, hkeys, hknown, rfl⟩ := (htrie.shows_iff hlit).1 h
    obtain ⟨keys', hkeys', hknown', htext⟩ := (htrie.shows_iff hlit).1 h'
    obtain rfl := map_text_inj htexts hknown' hknown htext
    exact htrie.keyed_inj hkeys hkeys'
  · exact child_full hfull derived
  · exact child_full hfull _

/-- A program that reads `true`, by its literal and by its name. -/
def readsTrue : Program := { storesConfig with
  names := [.units ("true".toList.map fun c => c.toNat.toUInt16), .lit 0]
  dynKey := none }

theorem readsTrue_lit : ∀ l, .lit l ∈ readsTrue.names → l < 4 := by
  rintro l hl
  rcases List.mem_pair.1 hl with h | h
  · cases h
  · cases h
    decide

theorem trie_laws_true : TrieLaws readsTrue ∧ WordLaws := trie_laws readsTrue readsTrue_lit

/-- `x["true"]` and `x[true]` have different ids, and the same steps. -/
theorem trie_alike_true :
    keyName (.str ⟨0, 4⟩) ("true".toList.map fun c => c.toNat.toUInt16) = readsTrue.names[0]? ∧
    keyName .true [] = readsTrue.names[1]? ∧
    ∃ s, (trie readsTrue).Reachable s ∧ Shows readsTrue s.paths 1 ["true"] ∧
      Shows readsTrue s.paths 2 ["true"] :=
  ⟨by decide +kernel, rfl, @exists_shows_alike readsTrue readsTrue_lit 0 1 (by decide) (by decide)
    (by decide) rfl⟩

end Fc
end Lunar
