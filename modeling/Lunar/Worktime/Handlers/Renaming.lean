/-
# Fingerprints and renamings

A renaming of a handler changes the names that it binds, where they are bound and where
they are referred to, and the fields of one letter.  The hasher takes every name that a
handler binds anywhere for bound everywhere, so a name that is also free in the handler is
numbered before the renaming and spelled after it (`fingerprints_not_renamed`).  Without
such names nothing that the hasher reads depends on the names or on the order of the table
(`fingerprints_renamed`).
-/

import Mathlib.Data.List.Perm.Basic
import Lunar.Worktime.Handlers

namespace Lunar
namespace Handlers

open Lib (number)

/-- A field of one letter. -/
def OneLetter (name : String) : Prop := name.utf8ByteSize = 1

instance (name : String) : Decidable (OneLetter name) := inferInstanceAs (Decidable (_ = _))

/-- The node with its bound names and its fields of one letter renamed. -/
def Node.rename (r f : String → String) : Node → Node
  | .reference name true => .reference (r name) true
  | .binding name => .binding (r name)
  | .identifierName name => .identifierName (if OneLetter name then f name else name)
  | node => node

def Event.rename (r f : String → String) : Event → Event
  | .enter ty node => .enter ty (node.rename r f)
  | .leave => .leave

theorem bound_rename (r f : String → String) (events : List Event) :
    bound (events.map (Event.rename r f)) = (bound events).map r := by
  unfold bound
  rw [List.filterMap_map, List.map_filterMap]
  congr 1
  funext e
  cases e with
  | leave => rfl
  | enter ty node =>
      cases node with
      | reference name resolved => cases resolved <;> rfl
      | _ => rfl

/-- A reference to a binding comes from one. -/
theorem Node.rename_reference {r f : String → String} {node : Node} {name : String}
    (h : node.rename r f = .reference name true) : ∃ n, node = .reference n true ∧ r n = name := by
  cases node with
  | reference n resolved =>
      cases resolved with
      | false => cases h
      | true =>
          cases h
          exact ⟨n, rfl, rfl⟩
  | _ => cases h

/-- The renamed handler. -/
def Handler.rename (r f : String → String) (h : Handler) : Handler where
  events := h.events.map (Event.rename r f)
  resolved ty name hmem := by
    obtain ⟨e, he, heq⟩ := List.mem_map.1 hmem
    cases e with
    | leave => cases heq
    | enter ty' node =>
        obtain ⟨hty, hnode⟩ := Event.enter.inj heq
        obtain ⟨n, rfl, rfl⟩ := Node.rename_reference hnode
        rw [bound_rename]
        exact List.mem_map_of_mem (h.resolved ty' n he)

/-- A name that refers to nothing in the handler. -/
def Handler.Free (h : Handler) (name : String) : Prop :=
  ∃ ty, .enter ty (.reference name false) ∈ h.events

/-- The fields of one letter. -/
def Handler.fields (h : Handler) : Set String :=
  {name | OneLetter name ∧ ∃ ty, .enter ty (.identifierName name) ∈ h.events}

/-- The renaming is injective on the bound names and makes no free name bound. -/
structure Handler.NoCapture (h : Handler) (r : String → String) : Prop where
  injOn : Set.InjOn r {name | name ∈ bound h.events}
  free : ∀ name, h.Free name → name ∉ (bound h.events).map r

/-- No name is both bound and free. -/
def Handler.Apart (h : Handler) : Prop := ∀ name, h.Free name → name ∉ bound h.events

/-! ## One handler -/

/-- The hashers of a handler and of the renamed one. -/
structure Alike (r f : String → String) (names : List String) (letters : Set String)
    (s s' : Hasher) : Prop where
  state : s'.state = s.state
  ordinals : s'.ordinals = s.ordinals.map r
  numbered : ∀ name ∈ s.ordinals, name ∈ names
  fields : s'.fields = s.fields.map f
  used : ∀ name ∈ s.fields, name ∈ letters
  seen : s'.seen = s.seen.map f
  uses : ∀ name ∈ s.seen, name ∈ letters

section Handler

variable {r f : String → String} {names : List String} {letters : Set String} {s s' : Hasher}

theorem Alike.withState (h : Alike r f names letters s s') (state : Hash) :
    Alike r f names letters (s.withState state) (s'.withState state) :=
  { h with state := rfl }

theorem Alike.byte (h : Alike r f names letters s s') (b : BitVec 8) :
    Alike r f names letters (s.byte b) (s'.byte b) := by
  unfold Hasher.byte
  rw [h.state]
  exact h.withState _

theorem Alike.bytes (h : Alike r f names letters s s') (data : List (BitVec 8)) :
    Alike r f names letters (s.bytes data) (s'.bytes data) := by
  unfold Hasher.bytes
  rw [h.state]
  exact h.withState _

theorem Alike.word (h : Alike r f names letters s s') (w : BitVec 64) :
    Alike r f names letters (s.word w) (s'.word w) := h.bytes _

theorem Alike.text (h : Alike r f names letters s s') (t : String) :
    Alike r f names letters (s.text t) (s'.text t) := (h.word _).bytes _

theorem Alike.flag (h : Alike r f names letters s s') (b : Bool) :
    Alike r f names letters (s.flag b) (s'.flag b) := h.byte _

/-- A bound name is numbered. -/
theorem Alike.numberedIdent (h : Alike r f names letters s s') (hr : Set.InjOn r {name | name ∈ names})
    {name : String} (hname : name ∈ names) :
    Alike r f names letters (s.ident names name) (s'.ident (names.map r) (r name)) := by
  have hnumber := Lib.number_map hr h.numbered (a := name) hname
  rw [← h.ordinals] at hnumber
  unfold Hasher.ident
  rw [if_pos hname, if_pos (List.mem_map_of_mem hname), hnumber]
  have hnext : Alike r f names letters { s with ordinals := (number s.ordinals name).2 }
      { s' with ordinals := (number s.ordinals name).2.map r } := by
    refine { h with ordinals := rfl, numbered := fun n hn => ?_ }
    rcases Lib.mem_number hn with hn | rfl
    · exact h.numbered n hn
    · exact hname
  exact (hnext.byte _).bytes _

/-- A free name is spelled. -/
theorem Alike.spelledIdent (h : Alike r f names letters s s') {name : String} (hname : name ∉ names)
    (hname' : name ∉ names.map r) :
    Alike r f names letters (s.ident names name) (s'.ident (names.map r) name) := by
  unfold Hasher.ident
  rw [if_neg hname, if_neg hname']
  exact (h.byte _).text _

/-- The signatures of the renamed fields are those of the fields. -/
def Signed (f : String → String) (letters : Set String) :
    Option (String → Hash) → Option (String → Hash) → Prop
  | none, none => True
  | some g, some g' => ∀ name ∈ letters, g' (f name) = g name
  | _, _ => False

/-- A field of one letter is numbered or has its signature. -/
theorem Alike.field (h : Alike r f names letters s s') (hf : Set.InjOn f letters)
    {g g' : Option (String → Hash)} (hg : Signed f letters g g') {name : String}
    (hname : name ∈ letters) (hone : OneLetter name) (hone' : OneLetter (f name)) :
    Alike r f names letters (s.field g name) (s'.field g' (f name)) := by
  have hsize : name.utf8ByteSize = 1 := hone
  have hsize' : (f name).utf8ByteSize = 1 := hone'
  unfold Hasher.field
  rw [if_neg (not_not_intro hsize), if_neg (not_not_intro hsize')]
  have hmark := h.byte MARK_FIELD
  cases g with
  | some g =>
      cases g' with
      | none => exact hg.elim
      | some g' =>
          dsimp only
          rw [hg name hname]
          exact hmark.word _
  | none =>
      cases g' with
      | some g' => exact hg.elim
      | none =>
          have hnumber := Lib.number_map hf hmark.used hname
          rw [← hmark.fields] at hnumber
          dsimp only
          rw [hnumber]
          have hnext : Alike r f names letters
              { s.byte MARK_FIELD with fields := (number (s.byte MARK_FIELD).fields name).2 }
              { s'.byte MARK_FIELD with
                fields := (number (s.byte MARK_FIELD).fields name).2.map f } := by
            refine { hmark with fields := rfl, used := fun n hn => ?_ }
            rcases Lib.mem_number hn with hn | rfl
            · exact hmark.used n hn
            · exact hname
          have hbytes := hnext.bytes (leBytes 4 (number (s.byte MARK_FIELD).fields name).1)
          refine { hbytes with seen := ?_, uses := fun n hn => ?_ }
          · show _ ++ [f name] = (_ ++ [name]).map f
            rw [List.map_append, hbytes.seen]
            rfl
          · rcases List.mem_append.1 hn with hn | hn
            · exact hbytes.uses n hn
            · rw [List.mem_singleton.1 hn]
              exact hname

/-- A renaming of fields: it is injective on them and they keep one letter. -/
structure Fielded (f : String → String) (letters : Set String) : Prop where
  injOn : Set.InjOn f letters
  one : ∀ name ∈ letters, OneLetter (f name)

/-- **An event keeps the hashers alike.** -/
theorem Alike.event {h : Handler} (hr : h.NoCapture r) (ha : h.Apart) (hf : Fielded f letters)
    (hsub : h.fields ⊆ letters) {g g' : Option (String → Hash)} (hg : Signed f letters g g')
    (hs : Alike r f (bound h.events) letters s s') {e : Event} (he : e ∈ h.events) :
    Alike r f (bound h.events) letters (s.event (bound h.events) g e)
      (s'.event ((bound h.events).map r) g' (e.rename r f)) := by
  cases e with
  | leave => exact hs.byte _
  | enter ty node =>
      have hty := hs.byte ty
      cases node with
      | reference name resolved =>
          cases resolved with
          | true => exact hty.numberedIdent hr.injOn (h.resolved ty name he)
          | false => exact hty.spelledIdent (ha name ⟨ty, he⟩) (hr.free name ⟨ty, he⟩)
      | binding name =>
          exact hty.numberedIdent hr.injOn (List.mem_filterMap.2 ⟨_, he, rfl⟩)
      | identifierName name =>
          show Alike r f _ letters (Hasher.field _ g name) (Hasher.field _ g' (if OneLetter name then _ else _))
          by_cases hone : OneLetter name
          · have hname : name ∈ letters := hsub ⟨hone, ty, he⟩
            rw [if_pos hone]
            exact hty.field hf.injOn hg hname hone (hf.one name hname)
          · rw [if_neg hone]
            have hsize : name.utf8ByteSize ≠ 1 := hone
            unfold Hasher.field
            rw [if_pos hsize, if_pos hsize]
            exact hty.text _
      | label name => exact hty.text _
      | number bits => exact hty.word _
      | string value => exact hty.text _
      | boolean value => exact hty.flag _
      | regExp pattern flags => exact (hty.text _).word _
      | template raw => exact hty.text _
      | binary operator => exact hty.byte _
      | logical operator => exact hty.byte _
      | unary operator => exact hty.byte _
      | update operator pre => exact (hty.byte _).flag _
      | assignment operator => exact hty.byte _
      | declaration kind => exact hty.byte _
      | objectProperty kind computed => exact (hty.byte _).flag _
      | function generator async => exact (hty.flag _).flag _
      | other => exact hty

/-- **The hashers are alike after the handler.** -/
theorem hash_alike {h : Handler} (hr : h.NoCapture r) (ha : h.Apart) (hf : Fielded f letters)
    (hsub : h.fields ⊆ letters) {g g' : Option (String → Hash)} (hg : Signed f letters g g') :
    Alike r f (bound h.events) letters (hash g h) (hash g' (h.rename r f)) := by
  unfold hash
  have hbound : bound (h.rename r f).events = (bound h.events).map r := bound_rename r f h.events
  rw [hbound]
  show Alike _ _ _ _ _ ((h.events.map (Event.rename r f)).foldl _ _)
  rw [List.foldl_map]
  have hrun : ∀ (l : List Event), l ⊆ h.events → ∀ {s s' : Hasher},
      Alike r f (bound h.events) letters s s' →
      Alike r f (bound h.events) letters (l.foldl (fun s e => s.event (bound h.events) g e) s)
        (l.foldl (fun s e => s.event ((bound h.events).map r) g' (e.rename r f)) s') := by
    intro l
    induction l with
    | nil => exact fun _ s s' hs => hs
    | cons e l ih =>
        intro hl s s' hs
        exact ih (fun e' he' => hl (List.mem_cons_of_mem e he'))
          (Alike.event hr ha hf hsub hg hs (hl List.mem_cons_self))
  refine hrun h.events (List.Subset.refl _) ⟨rfl, rfl, ?_, rfl, ?_, rfl, ?_⟩
  all_goals
    intro name hname
    cases hname

end Handler

/-! ## The signatures of the fields -/

/-- The uses of fields in a handler. -/
def uses (h : Handler) : List (String × Hash) :=
  (hash none h).seen.zipIdx.map fun (name, position) => (name, mix (hash none h).state position)

theorem prepare_eq (table : List Handler) :
    prepare table = (table.flatMap uses).foldl addUse fun _ => 0 := by
  unfold prepare
  rw [List.foldl_flatMap]
  congr 1
  funext signatures h
  show (hash none h).seen.zipIdx.foldl _ _ = (uses h).foldl addUse signatures
  rw [uses, List.foldl_map]

instance : RightCommutative addUse where
  right_comm signatures a b := by
    funext name
    unfold addUse
    by_cases ha : name = a.1 <;> by_cases hb : name = b.1
    · simp only [if_pos ha, if_pos hb]
      rw [BitVec.add_assoc, BitVec.add_comm a.2, ← BitVec.add_assoc]
    · simp only [if_pos ha, if_neg hb]
    · simp only [if_neg ha, if_pos hb]
    · simp only [if_neg ha, if_neg hb]

/-- The order of the table does not matter. -/
theorem prepare_perm {table table' : List Handler} (h : table.Perm table') :
    prepare table = prepare table' := by
  rw [prepare_eq, prepare_eq]
  exact (h.flatMap_right uses).foldl_eq _

/-- The uses of renamed fields. -/
theorem foldl_addUse_map {f : String → String} {letters : Set String} (hf : Set.InjOn f letters)
    (l : List (String × Hash)) : (∀ use ∈ l, use.1 ∈ letters) → ∀ {g g' : String → Hash},
      (∀ name ∈ letters, g' (f name) = g name) → ∀ name ∈ letters,
      (l.map fun use => (f use.1, use.2)).foldl addUse g' (f name) = l.foldl addUse g name := by
  induction l with
  | nil => exact fun _ g g' hg => hg
  | cons use l ih =>
      intro hl g g' hg
      refine ih (fun u hu => hl u (List.mem_cons_of_mem use hu)) fun name hname => ?_
      unfold addUse
      by_cases heq : name = use.1
      · rw [if_pos heq, if_pos (congrArg f heq), hg name hname]
      · rw [if_neg heq, if_neg fun h => heq (hf hname (hl use List.mem_cons_self) h), hg name hname]

section Table

variable {r f : String → String} {letters : Set String}

theorem uses_rename {h : Handler} (hr : h.NoCapture r) (ha : h.Apart) (hf : Fielded f letters)
    (hsub : h.fields ⊆ letters) :
    uses (h.rename r f) = (uses h).map (fun use => (f use.1, use.2)) ∧
      ∀ use ∈ uses h, use.1 ∈ letters := by
  have hnone : Signed f letters none none := trivial
  have halike := hash_alike hr ha hf hsub hnone
  constructor
  · unfold uses
    rw [halike.state, halike.seen, List.zipIdx_map, List.map_map, List.map_map]
    rfl
  · intro use huse
    obtain ⟨⟨name, position⟩, hmem, rfl⟩ := List.mem_map.1 huse
    have hname : name ∈ (hash none h).seen :=
      List.mem_of_getElem? (List.mk_mem_zipIdx_iff_getElem?.1 hmem)
    exact halike.uses name hname

/-- **The signatures of the renamed fields**, for a renaming of each handler. -/
theorem prepare_rename {table : List (Handler × (String → String))}
    (ht : ∀ x ∈ table, x.1.NoCapture x.2 ∧ x.1.Apart) (hf : Fielded f letters)
    (hsub : ∀ x ∈ table, x.1.fields ⊆ letters) :
    ∀ name ∈ letters, prepare (table.map fun x => x.1.rename x.2 f) (f name)
      = prepare (table.map Prod.fst) name := by
  have huses : ∀ l : List (Handler × (String → String)), l ⊆ table →
      (l.map fun x => x.1.rename x.2 f).flatMap uses
        = ((l.map Prod.fst).flatMap uses).map (fun use => (f use.1, use.2)) ∧
      ∀ use ∈ (l.map Prod.fst).flatMap uses, use.1 ∈ letters := by
    intro l
    induction l with
    | nil => exact fun _ => ⟨rfl, fun use huse => by cases huse⟩
    | cons x l ih =>
        intro hl
        obtain ⟨htail, hmem⟩ := ih fun y hy => hl (List.mem_cons_of_mem x hy)
        have hx := hl List.mem_cons_self
        obtain ⟨hhead, hhead'⟩ := uses_rename (ht x hx).1 (ht x hx).2 hf (hsub x hx)
        constructor
        · rw [List.map_cons, List.map_cons, List.flatMap_cons, List.flatMap_cons, List.map_append,
            htail, hhead]
        · intro use huse
          rw [List.map_cons, List.flatMap_cons] at huse
          rcases List.mem_append.1 huse with huse | huse
          · exact hhead' use huse
          · exact hmem use huse
  obtain ⟨hmap, hmem⟩ := huses table (List.Subset.refl _)
  rw [prepare_eq, prepare_eq, hmap]
  exact foldl_addUse_map hf.injOn _ hmem fun _ _ => rfl

/-- The fields of one letter of a table. -/
def tableFields (table : List Handler) : Set String := {name | ∃ h ∈ table, name ∈ h.fields}

/-- The fingerprints of a table and of the table with its handlers renamed and permuted. -/
def SameFingerprints (table : List (Handler × (String → String))) (f : String → String)
    (table' : List Handler) : Prop :=
  (∀ x ∈ table,
    fingerprint table' (x.1.rename x.2 f) = fingerprint (table.map Prod.fst) x.1) ∧
  (table'.map (fingerprint table')).Perm
    ((table.map Prod.fst).map (fingerprint (table.map Prod.fst)))

/-- **Fingerprints depend on the structure only**: when no handler has a name both bound and
free, each handler keeps its fingerprint under every permutation of the table, renaming of
the bound names of each handler, and renaming of the fields of one letter. -/
theorem fingerprints_renamed (table : List (Handler × (String → String))) (f : String → String)
    (table' : List Handler) (ht : ∀ x ∈ table, x.1.NoCapture x.2 ∧ x.1.Apart)
    (hf : Fielded f (tableFields (table.map Prod.fst)))
    (hperm : table'.Perm (table.map fun x => x.1.rename x.2 f)) :
    SameFingerprints table f table' := by
  have hsub : ∀ x ∈ table, x.1.fields ⊆ tableFields (table.map Prod.fst) :=
    fun x hx name hname => ⟨x.1, List.mem_map_of_mem hx, hname⟩
  have hsame : ∀ x ∈ table,
      fingerprint table' (x.1.rename x.2 f) = fingerprint (table.map Prod.fst) x.1 := by
    intro x hx
    have hsigned : Signed f (tableFields (table.map Prod.fst))
        (some (prepare (table.map Prod.fst))) (some (prepare table')) := by
      rw [prepare_perm hperm]
      exact prepare_rename ht hf hsub
    exact (hash_alike (ht x hx).1 (ht x hx).2 hf (hsub x hx) hsigned).state
  refine ⟨hsame, (hperm.map _).trans (List.Perm.of_eq ?_)⟩
  rw [List.map_map, List.map_map]
  exact List.map_congr_left hsame

end Table

/-! ## A name that is bound and free -/

/-- `function () { x; return function (x) { return x; }; }`, with the kinds of its nodes. -/
def shadowing : Handler where
  events := [
    .enter 1 (.function false false), .enter 2 .other, .leave, .enter 3 .other,
    .enter 4 .other, .enter 5 (.reference "x" false), .leave, .leave,
    .enter 6 .other, .enter 1 (.function false false),
    .enter 2 .other, .enter 7 .other, .enter 8 (.binding "x"), .leave, .leave, .leave,
    .enter 3 .other, .enter 6 .other, .enter 5 (.reference "x" true), .leave, .leave, .leave,
    .leave, .leave, .leave, .leave]
  resolved ty name h := by
    have hname : ty = 5 ∧ name = "x" := by
      simpa using h
    rw [hname.2]
    exact List.mem_singleton.2 rfl

/-- **The free name is numbered before the renaming and spelled after it.** -/
theorem fingerprints_not_renamed : ¬ ∀ (table : List (Handler × (String → String)))
    (f : String → String) (table' : List Handler), (∀ x ∈ table, x.1.NoCapture x.2) →
      Fielded f (tableFields (table.map Prod.fst)) →
      table'.Perm (table.map fun x => x.1.rename x.2 f) → SameFingerprints table f table' := by
  intro h
  have hcapture : shadowing.NoCapture fun _ => "y" := by
    refine ⟨fun m hm n hn _ => ?_, fun name hfree hmem => ?_⟩
    · have hm' : m = "x" := List.mem_singleton.1 hm
      have hn' : n = "x" := List.mem_singleton.1 hn
      rw [hm', hn']
    · obtain ⟨ty, hty⟩ := hfree
      have hname : ty = 5 ∧ name = "x" := by
        simpa [shadowing] using hty
      have hy : name = "y" := List.mem_singleton.1 hmem
      rw [hname.2] at hy
      exact absurd hy (by decide)
  have hfields : ∀ name, name ∉ tableFields [shadowing] := by
    rintro name ⟨h', hh', -, ty, hmem⟩
    rw [List.mem_singleton.1 hh'] at hmem
    simp [shadowing] at hmem
  have hsame := h [(shadowing, fun _ => "y")] id [shadowing.rename (fun _ => "y") id]
    (fun x hx => by
      rw [List.mem_singleton.1 hx]
      exact hcapture)
    ⟨fun n hn => absurd hn (hfields n), fun n hn => absurd hn (hfields n)⟩ (List.Perm.refl _)
  have heq := hsame.1 _ List.mem_cons_self
  revert heq
  decide +kernel

/-- `function (x) { return x.a; }`. -/
def getter : Handler where
  events := [
    .enter 1 (.function false false), .enter 2 .other, .enter 7 .other, .enter 8 (.binding "x"),
    .leave, .leave, .leave, .enter 3 .other, .enter 6 .other, .enter 10 .other,
    .enter 5 (.reference "x" true), .leave, .enter 9 (.identifierName "a"), .leave, .leave, .leave,
    .leave, .leave]
  resolved ty name h := by
    have hname : ty = 5 ∧ name = "x" := by
      simpa using h
    rw [hname.2]
    exact List.mem_singleton.2 rfl

/-- Two handlers that are renamed and exchanged keep their fingerprints. -/
theorem fingerprints_renamed_getter :
    SameFingerprints [(getter, fun _ => "y"), (getter, id)] (fun _ => "b")
      [getter.rename id fun _ => "b", getter.rename (fun _ => "y") fun _ => "b"] := by
  have hfree : ∀ name, ¬ getter.Free name := by
    rintro name ⟨ty, hty⟩
    simp [getter] at hty
  have hbound : ∀ name, name ∈ bound getter.events → name = "x" := fun name h =>
    List.mem_singleton.1 h
  have hcapture : ∀ r : String → String, getter.NoCapture r ∧ getter.Apart := fun r =>
    ⟨⟨fun m hm n hn _ => (hbound m hm).trans (hbound n hn).symm,
      fun name h => absurd h (hfree name)⟩, fun name h => absurd h (hfree name)⟩
  have hfields : ∀ name ∈ tableFields [getter, getter], name = "a" := by
    rintro name ⟨h, hh, -, ty, hmem⟩
    have hget : h = getter := by
      simpa using hh
    rw [hget] at hmem
    have hname : ty = 9 ∧ name = "a" := by
      simpa [getter] using hmem
    exact hname.2
  refine fingerprints_renamed [(getter, fun _ => "y"), (getter, id)] _ _ (fun x hx => ?_)
    ⟨fun m hm n hn _ => (hfields m hm).trans (hfields n hn).symm, fun _ _ => ?_⟩
    (List.Perm.swap _ _ _)
  · rcases List.mem_cons.1 hx with rfl | hx
    · exact hcapture _
    · rw [List.mem_singleton.1 hx]
      exact hcapture _
  · show "b".utf8ByteSize = 1
    decide

end Handlers
end Lunar
