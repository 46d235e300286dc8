/-
# The scan of the literals

`scan_tree` marks a node when it puts it on the stack, so over one scan the nodes examined
and the nodes of the stack are different ones, and there are no more turns than nodes.  The
blocks of the bytecode have nodes of their own, so the marks of the scans before are on none
of the nodes of a block, and its scan examines every node that the root leads to
(`scan_blocks`).
-/

import Mathlib.Algebra.BigOperators.Group.List.Basic
import Mathlib.Data.List.Count
import Mathlib.Data.List.Nodup
import Lunar.Lib.Search
import Lunar.Worktime.Config.Literal
import Lunar.Worktime.Config.Resolve

namespace Lunar
namespace Worktime
namespace Config

open Lib (Reach Searched)

/-! ## Fields -/

/-- The key of an edge, when it is a string. -/
def Key.label : Key → Option PoolRef
  | .str k => some k
  | .idx _ => none

def versionField (pool : List ℕ) (field : Key × Val) : Bool :=
  match field.2 with
  | .str s => isVersion (s.units pool)
  | _ => false

/-- The key and the value of a hex string under a string. -/
def hexField (pool : List ℕ) (field : Key × Val) : Option (PoolRef × PoolRef) :=
  match field with
  | (.str k, .str s) => if isHex64 (s.units pool) then some (k, s) else none
  | _ => none

def objectField (arena : List Node) (field : Key × Val) : Option ℕ :=
  match field.2 with
  | .node c => if arena[c]?.map Node.kind = some .obj then some c else none
  | _ => none

/-- The node of a proof of work: an object with one hex string and one object, which has the
parameters. -/
def powShape (arena : List Node) (pool : List ℕ) (node : Node) : Option Pow :=
  match node.kind, node.fields.filterMap (hexField pool),
      node.fields.filterMap (objectField arena) with
  | .obj, [(seedKey, seed)], [c] =>
    (arena[c]?.bind paramsOf).map fun params => ⟨seedKey, seed, params⟩
  | _, _, _ => none

def fieldsAt (arena : List Node) (id : ℕ) : List (Key × Val) := (arena[id]?.map Node.fields).getD []

/-- An edge between two nodes. -/
def Child (arena : List Node) (id c : ℕ) : Prop := ∃ key, (key, Val.node c) ∈ fieldsAt arena id

/-- The hex strings of an examined node, with the key that it was found under. -/
def hexesAt (arena : List Node) (pool : List ℕ) (e : ℕ × Option PoolRef) : List Hex :=
  ((fieldsAt arena e.1).filterMap (hexField pool)).map fun h => ⟨h.1, h.2, e.2, false⟩

/-- A version string is no hex string. -/
theorem isVersion_hex {u : List ℕ} (h : isHex64 u = true) : isVersion u = false := by
  unfold isVersion
  split
  · next j dash rest =>
      have hall := (Bool.and_eq_true_iff.1 h).2
      have hj := List.all_eq_true.1 hall j List.mem_cons_self
      refine Bool.eq_false_iff.2 fun hversion => ?_
      have heq := of_decide_eq_true (Bool.and_eq_true_iff.1 (Bool.and_eq_true_iff.1 hversion).1).1
      rw [heq] at hj
      exact absurd hj (by decide)
  · rfl

/-! ## One node -/

variable {arena : List Node} {pool : List ℕ} {parent : Option PoolRef}

/-- What the fields of a node give, from what was gathered before. -/
structure Gives (arena : List Node) (pool : List ℕ) (parent : Option PoolRef)
    (fs : List (Key × Val)) (g g' : Gathered) : Prop where
  scan : g'.scan = { g.scan with
    versions := g.scan.versions + fs.countP (versionField pool)
    hexes := g.scan.hexes
      ++ (fs.filterMap (hexField pool)).map fun h => ⟨h.1, h.2, parent, false⟩ }
  hexFields : g'.hexFields = g.hexFields + (fs.filterMap (hexField pool)).length
  hex : g'.hex = (fs.filterMap (hexField pool)).getLast?.or g.hex
  objects : g'.objects = g.objects + (fs.filterMap (objectField arena)).length
  child : g'.child = (fs.filterMap (objectField arena)).getLast?.or g.child
  pushed : ∃ new : List (ℕ × Option PoolRef), g'.stack = new ++ g.stack
    ∧ g'.visited = new.map Prod.fst ++ g.visited ∧ (new.map Prod.fst).Nodup
    ∧ ∀ e ∈ new, e.1 ∉ g.visited ∧ ∃ key, (key, .node e.1) ∈ fs ∧ e.2 = key.label
  children : ∀ key c, (key, .node c) ∈ fs → c ∈ g'.visited

theorem Gives.refl (g : Gathered) : Gives arena pool parent [] g g where
  scan := by
    rw [List.filterMap_nil, List.map_nil, List.append_nil]
    rfl
  hexFields := rfl
  hex := rfl
  objects := rfl
  child := rfl
  pushed := ⟨[], rfl, rfl, List.nodup_nil, nofun⟩
  children := nofun

theorem Gives.trans {fs fs' : List (Key × Val)} {g g' g'' : Gathered}
    (h : Gives arena pool parent fs g g') (h' : Gives arena pool parent fs' g' g'') :
    Gives arena pool parent (fs ++ fs') g g'' where
  scan := by
    rw [h'.scan, h.scan, List.countP_append, List.filterMap_append, List.map_append,
      List.append_assoc, Nat.add_assoc]
  hexFields := by
    rw [h'.hexFields, h.hexFields, List.filterMap_append, List.length_append, Nat.add_assoc]
  hex := by
    rw [h'.hex, h.hex, List.filterMap_append, List.getLast?_append, Option.or_assoc]
  objects := by
    rw [h'.objects, h.objects, List.filterMap_append, List.length_append, Nat.add_assoc]
  child := by
    rw [h'.child, h.child, List.filterMap_append, List.getLast?_append, Option.or_assoc]
  pushed := by
    obtain ⟨new, hstack, hvisited, hnodup, hnew⟩ := h.pushed
    obtain ⟨new', hstack', hvisited', hnodup', hnew'⟩ := h'.pushed
    refine ⟨new' ++ new, ?_, ?_, ?_, fun e he => ?_⟩
    · rw [hstack', hstack, List.append_assoc]
    · rw [hvisited', hvisited, List.map_append, List.append_assoc]
    · rw [List.map_append]
      refine hnodup'.append hnodup fun c hc' hc => ?_
      obtain ⟨e, he, rfl⟩ := List.mem_map.1 hc'
      refine (hnew' e he).1 ?_
      rw [hvisited]
      exact List.mem_append_left _ hc
    · rcases List.mem_append.1 he with he | he
      · obtain ⟨hfresh, key, hkey, hlabel⟩ := hnew' e he
        refine ⟨fun hin => hfresh ?_, key, List.mem_append_right _ hkey, hlabel⟩
        rw [hvisited]
        exact List.mem_append_right _ hin
      · obtain ⟨hfresh, key, hkey, hlabel⟩ := hnew e he
        exact ⟨hfresh, key, List.mem_append_left _ hkey, hlabel⟩
  children key c hc := by
    rcases List.mem_append.1 hc with hc | hc
    · obtain ⟨new', -, hvisited', -⟩ := h'.pushed
      rw [hvisited']
      exact List.mem_append_right _ (h.children key c hc)
    · exact h'.children key c hc

/-- What a field that is no node adds. -/
def Gathered.leaf (pool : List ℕ) (parent : Option PoolRef) (g : Gathered) (field : Key × Val) :
    Gathered :=
  { g with
    scan := { g.scan with
      versions := g.scan.versions + [field].countP (versionField pool)
      hexes := g.scan.hexes
        ++ ([field].filterMap (hexField pool)).map fun h => ⟨h.1, h.2, parent, false⟩ }
    hexFields := g.hexFields + ([field].filterMap (hexField pool)).length
    hex := ([field].filterMap (hexField pool)).getLast?.or g.hex }

theorem gives_leaf (g : Gathered) (field : Key × Val) (hleaf : ∀ c, field.2 ≠ .node c) :
    Gives arena pool parent [field] g (g.leaf pool parent field) := by
  have hobject : [field].filterMap (objectField arena) = [] := by
    rw [List.filterMap_cons_none, List.filterMap_nil]
    unfold objectField
    split
    · next c hc => exact absurd hc (hleaf c)
    · rfl
  refine ⟨rfl, rfl, rfl, ?_, ?_, ⟨[], rfl, rfl, List.nodup_nil, nofun⟩, ?_⟩
  · rw [hobject]
    rfl
  · rw [hobject]
    rfl
  · intro key c hc
    exact absurd (congrArg Prod.snd (List.mem_singleton.1 hc)).symm (hleaf c)

theorem leaf_plain (g : Gathered) {field : Key × Val} (hversion : versionField pool field = false)
    (hhex : hexField pool field = none) : g.leaf pool parent field = g := by
  have hcount : [field].countP (versionField pool) = 0 := by
    rw [List.countP_singleton, hversion]
    rfl
  have hnone : [field].filterMap (hexField pool) = [] := List.filterMap_cons_none hhex
  rw [Gathered.leaf, hcount, hnone, List.map_nil, List.append_nil]
  rfl

theorem versionField_str (key : Key) (s : PoolRef) :
    versionField pool (key, .str s) = isVersion (s.units pool) := rfl

theorem leaf_str (g : Gathered) (key : Key) (s : PoolRef) :
    g.field arena pool parent (key, .str s) = g.leaf pool parent (key, .str s) := by
  unfold Gathered.field
  dsimp only
  rcases hversion : isVersion (s.units pool) with _ | _
  · have hplain := (versionField_str key s).trans hversion
    rw [if_neg Bool.false_ne_true]
    rcases key with k | i
    · rcases hhex : isHex64 (s.units pool) with _ | _
      · have hnone : hexField pool (.str k, .str s) = none := by
          rw [hexField, hhex, if_neg Bool.false_ne_true]
        exact (leaf_plain g hplain hnone).symm
      · have hsome : [(Key.str k, Val.str s)].filterMap (hexField pool) = [(k, s)] := by
          rw [List.filterMap_cons_some (b := (k, s))]
          · rfl
          · rw [hexField, hhex, if_pos rfl]
        have hcount : [(Key.str k, Val.str s)].countP (versionField pool) = 0 := by
          rw [List.countP_singleton, versionField_str, hversion]
          rfl
        rw [Gathered.leaf, hsome, hcount]
        rfl
    · exact (leaf_plain g hplain rfl).symm
  · have hnone : [(key, Val.str s)].filterMap (hexField pool) = [] := by
      refine List.filterMap_cons_none ?_
      rcases key with k | i
      · rcases hhex : isHex64 (s.units pool) with _ | _
        · rw [hexField, hhex, if_neg Bool.false_ne_true]
        · rw [isVersion_hex hhex] at hversion
          cases hversion
      · rfl
    have hcount : [(key, Val.str s)].countP (versionField pool) = 1 := by
      rw [List.countP_singleton, versionField_str, hversion]
      rfl
    rw [if_pos rfl, Gathered.leaf, hnone, hcount, List.map_nil, List.append_nil]
    rfl

/-- A node that is counted when it is an object. -/
def Gathered.counted (arena : List Node) (g : Gathered) (c : ℕ) : Gathered :=
  if arena[c]?.map Node.kind = some .obj then { g with objects := g.objects + 1, child := some c }
  else g

/-- A node that is pushed unless it is marked. -/
def Gathered.push (g : Gathered) (key : Key) (c : ℕ) : Gathered :=
  if g.visited.contains c then g
  else { g with visited := c :: g.visited, stack := (c, key.label) :: g.stack }

theorem field_node (g : Gathered) (key : Key) (c : ℕ) :
    g.field arena pool parent (key, .node c) = (g.counted arena c).push key c := by
  cases key <;> rfl

theorem gives_counted (arena : List Node) (g : Gathered) (key : Key) (c : ℕ) :
    (g.counted arena c).scan = g.scan ∧ (g.counted arena c).hexFields = g.hexFields
      ∧ (g.counted arena c).hex = g.hex
      ∧ (g.counted arena c).objects
        = g.objects + ([(key, Val.node c)].filterMap (objectField arena)).length
      ∧ (g.counted arena c).child
        = ([(key, Val.node c)].filterMap (objectField arena)).getLast?.or g.child
      ∧ (g.counted arena c).visited = g.visited ∧ (g.counted arena c).stack = g.stack := by
  unfold Gathered.counted
  by_cases hkind : arena[c]?.map Node.kind = some .obj
  · have hobject : [(key, Val.node c)].filterMap (objectField arena) = [c] := by
      refine List.filterMap_cons_some (b := c) ?_
      exact if_pos hkind
    rw [if_pos hkind, hobject]
    exact ⟨rfl, rfl, rfl, rfl, rfl, rfl, rfl⟩
  · have hobject : [(key, Val.node c)].filterMap (objectField arena) = [] :=
      List.filterMap_cons_none (if_neg hkind)
    rw [if_neg hkind, hobject]
    exact ⟨rfl, rfl, rfl, rfl, rfl, rfl, rfl⟩

theorem gives_node (g : Gathered) (key : Key) (c : ℕ) :
    Gives arena pool parent [(key, .node c)] g (g.field arena pool parent (key, .node c)) := by
  obtain ⟨hscan, hfields, hhex, hobjects, hchild, hvisited, hstack⟩ :=
    gives_counted arena g key c
  have hnone : [(key, Val.node c)].filterMap (hexField pool) = [] := by
    cases key <;> rfl
  have hscan' : (g.counted arena c).scan = { g.scan with
      versions := g.scan.versions + [(key, Val.node c)].countP (versionField pool)
      hexes := g.scan.hexes
        ++ ([(key, Val.node c)].filterMap (hexField pool)).map
          fun h => ⟨h.1, h.2, parent, false⟩ } := by
    rw [hscan, hnone, List.map_nil, List.append_nil]
    rfl
  have hself (key' : Key) (c' : ℕ) (h : (key', Val.node c') ∈ [(key, Val.node c)]) : c' = c :=
    Val.node.inj (Prod.mk.inj (List.mem_singleton.1 h)).2
  rw [field_node]
  unfold Gathered.push
  split
  · next hmarked =>
      refine ⟨hscan', ?_, ?_, hobjects, hchild, ⟨[], hstack, hvisited, List.nodup_nil, nofun⟩, ?_⟩
      · rw [hfields, hnone]
        rfl
      · rw [hhex, hnone]
        rfl
      · intro key' c' h
        rw [hself key' c' h]
        exact List.contains_iff_mem.1 hmarked
  · next hfresh =>
      refine ⟨hscan', ?_, ?_, hobjects, hchild, ⟨[(c, key.label)], ?_, ?_, ?_, ?_⟩, ?_⟩
      · exact hfields.trans (by rw [hnone]; rfl)
      · exact hhex.trans (by rw [hnone]; rfl)
      · exact congrArg _ hstack
      · exact congrArg _ hvisited
      · exact List.nodup_singleton c
      · intro e he
        rw [List.mem_singleton.1 he]
        refine ⟨fun hin => hfresh ?_, key, List.mem_singleton_self _, rfl⟩
        rw [hvisited]
        exact List.contains_iff_mem.2 hin
      · intro key' c' h
        rw [hself key' c' h]
        exact List.mem_cons_self

theorem gives_field (g : Gathered) (field : Key × Val) :
    Gives arena pool parent [field] g (g.field arena pool parent field) := by
  obtain ⟨key, val⟩ := field
  have hplain (h : ∀ c, val ≠ .node c) (hversion : versionField pool (key, val) = false)
      (hhex : hexField pool (key, val) = none) : Gives arena pool parent [(key, val)] g g := by
    have hgives : Gives arena pool parent _ g (g.leaf pool parent (key, val)) :=
      gives_leaf g (key, val) h
    rwa [leaf_plain g hversion hhex] at hgives
  cases val with
  | node c => exact gives_node g key c
  | str s =>
      rw [leaf_str]
      exact gives_leaf g _ nofun
  | _ => cases key <;> exact hplain nofun rfl rfl

/-- **The fields of a node.** -/
theorem gives_fields (fs : List (Key × Val)) (g : Gathered) :
    Gives arena pool parent fs g (fs.foldl (Gathered.field arena pool parent) g) := by
  induction fs generalizing g with
  | nil => exact .refl g
  | cons field fs ih => exact (gives_field g field).trans (ih _)

/-- The first variables of a turn. -/
def Gathered.start (scan : Scan) (visited : List ℕ) (stack : List (ℕ × Option PoolRef)) :
    Gathered :=
  ⟨scan, visited, stack, 0, none, 0, none⟩

/-- The node of the proof of work is told by its fields alone. -/
theorem powOf_eq {node : Node} {scan : Scan} {visited : List ℕ}
    {stack : List (ℕ × Option PoolRef)} {g : Gathered}
    (h : Gives arena pool parent node.fields (.start scan visited stack) g) :
    powOf arena node g = powShape arena pool node := by
  have hfields := h.hexFields
  have hhex := h.hex
  have hobjects := h.objects
  have hchild := h.child
  unfold powOf powShape
  rw [hfields, hhex, hobjects, hchild]
  generalize node.fields.filterMap (hexField pool) = hexes
  generalize node.fields.filterMap (objectField arena) = objects
  rcases node.kind with _ | _
  · rcases hexes with _ | ⟨⟨seedKey, seed⟩, _ | ⟨h', hexes⟩⟩
    · exact if_neg fun hcond => Nat.zero_ne_one hcond.2.1
    · rcases objects with _ | ⟨c, _ | ⟨c', objects⟩⟩
      · exact if_neg fun hcond => Nat.zero_ne_one hcond.2.2
      · refine (if_pos ⟨rfl, rfl, rfl⟩).trans ?_
        dsimp only
        rw [Option.map_eq_bind, Option.bind_assoc]
        rfl
      · refine if_neg fun hcond => ?_
        have hlen := hcond.2.2
        simp only [Gathered.start, List.length_cons] at hlen
        omega
    · refine if_neg fun hcond => ?_
      have hlen := hcond.2.1
      simp only [Gathered.start, List.length_cons] at hlen
      omega
  · exact if_neg fun hcond => nomatch hcond.1

/-! ## A scan -/

/-- The scan after a node: what its fields give, and whether it is that of a proof of work. -/
def examined (arena : List Node) (node : Node) (g : Gathered) : Scan :=
  match powOf arena node g with
  | some pow => { g.scan with pows := g.scan.pows + 1, pow := some pow }
  | none => g.scan

/-- A scan that ends: the nodes that it examines, in order and with the key of the edge that
each was found by.  It reads no node outside the arena. -/
inductive Scans (arena : List Node) (pool : List ℕ) :
    Scan → List ℕ → List (ℕ × Option PoolRef) → List (ℕ × Option PoolRef) → Scan → List ℕ → Prop
  | done (scan : Scan) (visited : List ℕ) : Scans arena pool scan visited [] [] scan visited
  | examine {scan scan' : Scan} {visited visited' : List ℕ} {stack es : List (ℕ × Option PoolRef)}
      {id : ℕ} {parent : Option PoolRef} {node : Node} {g : Gathered}
      (hnode : arena[id]? = some node)
      (hchildren : ∀ key c, (key, Val.node c) ∈ node.fields → c < arena.length)
      (hg : g = node.fields.foldl (Gathered.field arena pool parent) (.start scan visited stack))
      (hrest : Scans arena pool (examined arena node g) g.visited g.stack es scan' visited') :
      Scans arena pool scan visited ((id, parent) :: stack) ((id, parent) :: es) scan' visited'

/-- The turns of the loop follow the scan, when they are enough. -/
theorem Scans.loop {scan scan' : Scan} {visited visited' : List ℕ}
    {stack es : List (ℕ × Option PoolRef)}
    (h : Scans arena pool scan visited stack es scan' visited') {turns : ℕ}
    (hturns : es.length < turns) :
    scanLoop arena pool turns scan visited stack = (scan', visited') := by
  induction h generalizing turns with
  | done scan visited =>
      obtain ⟨turns, rfl⟩ := Nat.exists_eq_succ_of_ne_zero (Nat.ne_of_gt hturns)
      rfl
  | @examine scan scan' visited visited' stack es id parent node g hnode _ hg _ ih =>
      obtain ⟨turns, rfl⟩ := Nat.exists_eq_succ_of_ne_zero (Nat.ne_of_gt (Nat.zero_lt_of_lt hturns))
      rw [List.length_cons] at hturns
      rw [scanLoop, hnode, ← ih (Nat.lt_of_succ_lt_succ hturns), hg]
      rfl

/-- What a scan from a root has counted and listed over the nodes that it examined: each is
one that the root leads to, and none is examined twice. -/
structure Counts (arena : List Node) (pool : List ℕ) (root : ℕ) (scan : Scan)
    (es work : List (ℕ × Option PoolRef)) : Prop where
  once : ((es ++ work).map Prod.fst).Nodup
  parents : ∀ e ∈ es ++ work, ∀ k, e.2 = some k →
    ∃ u, Reach (Child arena) root u ∧ (Key.str k, Val.node e.1) ∈ fieldsAt arena u
  versions : scan.versions
    = (es.map fun e => (fieldsAt arena e.1).countP (versionField pool)).sum
  pows : scan.pows = es.countP fun e => ((arena[e.1]?).bind (powShape arena pool)).isSome
  hexes : scan.hexes = es.flatMap (hexesAt arena pool)

/-- The state of a scan with marks from before: what is marked now was marked then, has been
examined or is on the stack. -/
structure Scanning (arena : List Node) (pool : List ℕ) (root : ℕ) (before : List ℕ) (scan : Scan)
    (visited : List ℕ) (es work : List (ℕ × Option PoolRef)) : Prop
    extends Counts arena pool root scan es work where
  searched : Searched (Child arena) root {id | id ∈ es.map Prod.fst} (work.map Prod.fst)
  marked : ∀ id, id ∈ visited ↔ id ∈ before ∨ id ∈ (es ++ work).map Prod.fst

theorem Scanning.start {root : ℕ} {before : List ℕ} :
    Scanning arena pool root before ⟨0, 0, none, []⟩ (root :: before) [] [(root, none)] where
  once := List.nodup_singleton root
  parents e he k hk := by
    rw [List.mem_singleton.1 he] at hk
    cases hk
  versions := rfl
  pows := rfl
  hexes := rfl
  searched := by
    have hempty : {id | id ∈ ([] : List (ℕ × Option PoolRef)).map Prod.fst} = ∅ :=
      Set.eq_empty_of_forall_notMem fun id hid => nomatch hid
    rw [hempty]
    exact Searched.start
  marked id := by
    rw [List.mem_cons, or_comm]
    exact or_congr_right List.mem_singleton.symm

/-- **A turn of the scan.** -/
theorem Scanning.turn {root : ℕ} {before visited : List ℕ} {scan : Scan}
    {es stack : List (ℕ × Option PoolRef)} {id : ℕ} {parent : Option PoolRef}
    (h : Scanning arena pool root before scan visited es ((id, parent) :: stack))
    (hfresh : ∀ c, Reach (Child arena) root c → c ∉ before) {node : Node}
    (hnode : arena[id]? = some node) {g : Gathered}
    (hgives : Gives arena pool parent node.fields (.start scan visited stack) g) :
    Scanning arena pool root before (examined arena node g) g.visited (es ++ [(id, parent)])
      g.stack := by
  obtain ⟨new, hstack, hvisited, hnodup, hnew⟩ := hgives.pushed
  have hfields : fieldsAt arena id = node.fields := by
    rw [fieldsAt, hnode]
    rfl
  have hid : Reach (Child arena) root id := h.searched.sound id (.inr List.mem_cons_self)
  have hchild {e : ℕ × Option PoolRef} (he : e ∈ new) : Child arena id e.1 := by
    obtain ⟨-, key, hkey, -⟩ := hnew e he
    exact ⟨key, hfields ▸ hkey⟩
  have hperm : ((es ++ [(id, parent)]) ++ g.stack).Perm (new ++ (es ++ (id, parent) :: stack)) := by
    have hcons : es ++ (id, parent) :: stack = (es ++ [(id, parent)]) ++ stack :=
      List.append_cons es _ stack
    rw [hstack, hcons, ← List.append_assoc, ← List.append_assoc]
    exact List.perm_append_comm.append_right _
  have hmem (c : ℕ) : c ∈ ((es ++ [(id, parent)]) ++ g.stack).map Prod.fst
      ↔ c ∈ new.map Prod.fst ∨ c ∈ (es ++ (id, parent) :: stack).map Prod.fst := by
    rw [(hperm.map Prod.fst).mem_iff, List.map_append, List.mem_append]
  have hscan : (examined arena node g).versions = g.scan.versions
      ∧ (examined arena node g).hexes = g.scan.hexes
      ∧ (examined arena node g).pows
        = g.scan.pows + if (powShape arena pool node).isSome then 1 else 0 := by
    unfold examined
    rw [powOf_eq hgives]
    rcases powShape arena pool node with _ | pow
    · exact ⟨rfl, rfl, rfl⟩
    · exact ⟨rfl, rfl, rfl⟩
  refine ⟨⟨?_, ?_, ?_, ?_, ?_⟩, ?_, ?_⟩
  · rw [(hperm.map Prod.fst).nodup_iff, List.map_append]
    refine hnodup.append h.once fun c hc hold => ?_
    obtain ⟨e, he, rfl⟩ := List.mem_map.1 hc
    exact (hnew e he).1 ((h.marked e.1).2 (.inr hold))
  · intro e he k hk
    rcases List.mem_append.1 (hperm.mem_iff.1 he) with he | he
    · obtain ⟨-, key, hkey, hlabel⟩ := hnew e he
      refine ⟨id, hid, ?_⟩
      rw [hlabel] at hk
      rcases key with k' | i
      · rw [hfields, ← Option.some.inj hk]
        exact hkey
      · cases hk
    · exact h.parents e he k hk
  · rw [hscan.1, hgives.scan, List.map_append, List.sum_append, ← h.versions, List.map_singleton,
      List.sum_singleton, hfields]
    rfl
  · rw [hscan.2.2, hgives.scan, List.countP_append, ← h.pows, List.countP_singleton, hnode]
    rfl
  · rw [hscan.2.1, hgives.scan, List.flatMap_append, ← h.hexes, List.flatMap_singleton, hexesAt,
      hfields]
    rfl
  · have hseen : {c | c ∈ (es ++ [(id, parent)]).map Prod.fst}
        = insert id {c | c ∈ es.map Prod.fst} := by
      ext c
      show c ∈ (es ++ [(id, parent)]).map Prod.fst ↔ _
      rw [List.map_append, List.mem_append, or_comm, Set.mem_insert_iff]
      exact or_congr_left List.mem_singleton
    rw [hseen]
    refine h.searched.visit ?_ ?_ ?_
    · intro c hc
      rw [hstack, List.map_append] at hc
      rcases List.mem_append.1 hc with hc | hc
      · obtain ⟨e, he, rfl⟩ := List.mem_map.1 hc
        exact .inl (hchild he)
      · exact .inr hc
    · rw [hstack, List.map_append]
      exact List.subset_append_right _ _
    · rintro c ⟨key, hc⟩
      have hreach : Reach (Child arena) root c := hid.tail ⟨key, hc⟩
      rw [hfields] at hc
      have hin := hgives.children key c hc
      rw [hvisited] at hin
      have hall : c ∈ ((es ++ [(id, parent)]) ++ g.stack).map Prod.fst := by
        rw [hmem]
        rcases List.mem_append.1 hin with hin | hin
        · exact .inl hin
        · exact .inr (((h.marked c).1 hin).resolve_left (hfresh c hreach))
      rw [List.map_append, List.mem_append] at hall
      rw [← hseen]
      exact hall
  · intro c
    rw [hvisited, List.mem_append, hmem]
    constructor
    · rintro (hc | hc)
      · exact .inr (.inl hc)
      · exact ((h.marked c).1 hc).imp_right .inr
    · rintro (hc | hc | hc)
      · exact .inr ((h.marked c).2 (.inl hc))
      · exact .inl hc
      · exact .inr ((h.marked c).2 (.inr hc))

/-- Different nodes of the arena are not more than it has. -/
theorem Counts.length_le {root : ℕ} {scan : Scan} {es work : List (ℕ × Option PoolRef)}
    (h : Counts arena pool root scan es work)
    (hin : ∀ e ∈ es ++ work, e.1 < arena.length) : (es ++ work).length ≤ arena.length := by
  have hsub : (es ++ work).map Prod.fst ⊆ List.range arena.length := by
    intro c hc
    obtain ⟨e, he, rfl⟩ := List.mem_map.1 hc
    exact List.mem_range.2 (hin e he)
  have hle := (List.subperm_of_subset h.once hsub).length_le
  rwa [List.length_map, List.length_range] at hle

/-- A scan ends, after no more turns than there are nodes. -/
theorem Scanning.ends {root : ℕ} {before visited : List ℕ} {scan : Scan}
    {es work : List (ℕ × Option PoolRef)}
    (hfresh : ∀ c, Reach (Child arena) root c → c ∉ before)
    (hin : ∀ c, Reach (Child arena) root c → c < arena.length) {turns : ℕ}
    (hturns : arena.length ≤ es.length + turns)
    (h : Scanning arena pool root before scan visited es work) :
    ∃ more scan' visited', Scans arena pool scan visited work more scan' visited'
      ∧ Scanning arena pool root before scan' visited' (es ++ more) [] := by
  have hlt (e : ℕ × Option PoolRef) (he : e ∈ es ++ work) : e.1 < arena.length := by
    refine hin _ (h.searched.sound e.1 ?_)
    rcases List.mem_append.1 he with he | he
    · exact .inl (List.mem_map_of_mem he)
    · exact .inr (List.mem_map_of_mem he)
  induction turns generalizing scan visited es work with
  | zero =>
      have hle := h.length_le hlt
      rw [List.length_append] at hle
      have hnil : work = [] := List.length_eq_zero_iff.1 (by omega)
      subst hnil
      refine ⟨[], scan, visited, .done scan visited, ?_⟩
      rwa [List.append_nil]
  | succ turns ih =>
      rcases work with _ | ⟨⟨id, parent⟩, stack⟩
      · refine ⟨[], scan, visited, .done scan visited, ?_⟩
        rwa [List.append_nil]
      · have hid := hlt (id, parent) (List.mem_append_right _ List.mem_cons_self)
        have hnode : arena[id]? = some arena[id] := List.getElem?_eq_getElem hid
        have hgives : Gives arena pool parent arena[id].fields (.start scan visited stack) _ :=
          gives_fields arena[id].fields _
        have hturn := h.turn hfresh hnode hgives
        have hlen : arena.length ≤ (es ++ [(id, parent)]).length + turns := by
          rw [List.length_append, List.length_singleton]
          omega
        have hreach : Reach (Child arena) root id := h.searched.sound id (.inr List.mem_cons_self)
        have hchildren (key : Key) (c : ℕ) (hc : (key, Val.node c) ∈ arena[id].fields) :
            c < arena.length := by
          refine hin c (hreach.tail ⟨key, ?_⟩)
          rw [fieldsAt, hnode]
          exact hc
        obtain ⟨more, scan', visited', hscans, hend⟩ := ih hlen hturn fun e he => by
          refine hin _ (hturn.searched.sound e.1 ?_)
          rcases List.mem_append.1 he with he | he
          · exact .inl (List.mem_map_of_mem he)
          · exact .inr (List.mem_map_of_mem he)
        refine ⟨(id, parent) :: more, scan', visited', .examine hnode hchildren rfl hscans, ?_⟩
        rwa [List.append_assoc] at hend

/-- What the scan of a root is: it examines the nodes that the root leads to, each once, and
counts and lists what they hold. -/
structure Scanned (arena : List Node) (pool : List ℕ) (root : ℕ) (visited : List ℕ) (scan : Scan)
    (visited' : List ℕ) (es : List (ℕ × Option PoolRef)) : Prop where
  scans : Scans arena pool ⟨0, 0, none, []⟩ (root :: visited) [(root, none)] es scan visited'
  once : (es.map Prod.fst).Nodup
  reached : ∀ id, id ∈ es.map Prod.fst ↔ Reach (Child arena) root id
  parents : ∀ e ∈ es, ∀ k, e.2 = some k →
    ∃ u, Reach (Child arena) root u ∧ (Key.str k, Val.node e.1) ∈ fieldsAt arena u
  versions : scan.versions
    = (es.map fun e => (fieldsAt arena e.1).countP (versionField pool)).sum
  pows : scan.pows = es.countP fun e => ((arena[e.1]?).bind (powShape arena pool)).isSome
  hexes : scan.hexes = es.flatMap (hexesAt arena pool)
  marked : ∀ id, id ∈ visited' ↔ id ∈ visited ∨ Reach (Child arena) root id

/-- **One scan**, of a root that leads to no marked node and stays in the arena. -/
theorem scanTree_scanned {root : ℕ} {visited : List ℕ}
    (hfresh : ∀ c, Reach (Child arena) root c → c ∉ visited)
    (hin : ∀ c, Reach (Child arena) root c → c < arena.length) :
    ∃ es, Scanned arena pool root visited (scanTree arena pool root visited).1
      (scanTree arena pool root visited).2 es := by
  have hstart : Scanning arena pool root visited _ _ [] [(root, none)] := .start
  obtain ⟨es, scan', visited', hscans, hend⟩ := hstart.ends hfresh hin (Nat.le_add_left _ _)
  rw [List.nil_append] at hend
  have hreached (id : ℕ) : id ∈ es.map Prod.fst ↔ Reach (Child arena) root id :=
    hend.searched.done id
  have honce := hend.once
  have hparents := hend.parents
  have hmarked := hend.marked
  rw [List.append_nil] at honce hparents hmarked
  have hlen : es.length ≤ arena.length := by
    have hle := hend.length_le fun e he => hin e.1 ?_
    · rwa [List.append_nil] at hle
    · rw [List.append_nil] at he
      exact (hreached e.1).1 (List.mem_map_of_mem he)
  have htree : scanTree arena pool root visited = (scan', visited') :=
    hscans.loop (Nat.lt_succ_of_le hlen)
  rw [htree]
  refine ⟨es, hscans, honce, hreached, hparents, hend.versions, hend.pows, hend.hexes, ?_⟩
  intro id
  rw [hmarked, hreached]

/-! ## The blocks of an arena -/

/-- Blocks that were accepted one after another, and the arena that holds their nodes. -/
inductive Accepted (pool : List ℕ) : List Node → List Block → Prop
  | nil : Accepted pool [] []
  | accept {arena arena' : List Node} {blocks : List Block} {instrs : List Instr} {at_ : ℕ}
      {b : Block} (h : Accepted pool arena blocks)
      (heval : evalBlock instrs pool at_ arena = (some b, arena')) :
      Accepted pool arena' (blocks ++ [b])

/-- The nodes of a block lie between two places and lead to each other alone. -/
structure Span (arena : List Node) (root lo hi : ℕ) : Prop where
  root : lo ≤ root ∧ root < hi
  le : hi ≤ arena.length
  closed : ∀ id c, lo ≤ id → id < hi → Child arena id c → lo ≤ c ∧ c < hi

theorem Span.reach {root lo hi c : ℕ} (h : Span arena root lo hi)
    (hc : Reach (Child arena) root c) : lo ≤ c ∧ c < hi := by
  induction hc with
  | refl => exact h.root
  | tail _ hstep ih => exact h.closed _ _ ih.1 ih.2 hstep

theorem fieldsAt_of_take {arena' : List Node} (htake : arena'.take arena.length = arena) {id : ℕ}
    (hid : id < arena.length) : fieldsAt arena' id = fieldsAt arena id := by
  have hget : arena[id]? = arena'[id]? := by
    rw [← htake, List.getElem?_take, if_pos hid]
  rw [fieldsAt, fieldsAt, hget]

theorem Span.extend {root lo hi root' : ℕ} {arena' : List Node} (h : Span arena root lo hi)
    (happ : Appended arena arena' root') : Span arena' root lo hi where
  root := h.root
  le := by
    have hle := h.le
    have hroot := happ.root
    omega
  closed id c hlo hhi hc := by
    obtain ⟨key, hkey⟩ := hc
    rw [fieldsAt_of_take happ.kept (Nat.lt_of_lt_of_le hhi h.le)] at hkey
    exact h.closed id c hlo hhi ⟨key, hkey⟩

theorem Appended.span {arena' : List Node} {root : ℕ} (h : Appended arena arena' root) :
    Span arena' root arena.length arena'.length where
  root := h.root
  le := Nat.le_refl _
  closed id c hlo hhi hc := by
    obtain ⟨key, hkey⟩ := hc
    rw [fieldsAt, List.getElem?_eq_getElem hhi] at hkey
    exact h.nodes id _ (List.getElem?_eq_getElem hhi) hlo key c hkey

/-- **The nodes of a block are its own**: those of the blocks before lie below them. -/
theorem Accepted.span {blocks pre post : List Block} {b : Block} (h : Accepted pool arena blocks)
    (hsplit : blocks = pre ++ b :: post) :
    ∃ lo hi, Span arena b.root lo hi ∧ ∀ b' ∈ pre, ∃ lo' hi', Span arena b'.root lo' hi' ∧ hi' ≤ lo
    := by
  induction h generalizing pre b post with
  | nil => cases pre <;> cases hsplit
  | @accept arena arena' blocks instrs at_ b₀ _ heval ih =>
      have happ := (evalBlock_spec heval).1 b₀ rfl
      rcases post.eq_nil_or_concat with rfl | ⟨post, last, rfl⟩
      · obtain ⟨rfl, hb⟩ := List.append_inj' hsplit rfl
        injection hb with hb
        subst hb
        refine ⟨arena.length, arena'.length, happ.span, fun b' hb' => ?_⟩
        obtain ⟨pre', post', hpre⟩ := List.append_of_mem hb'
        obtain ⟨lo', hi', hspan, -⟩ := ih hpre
        exact ⟨lo', hi', hspan.extend happ, hspan.le⟩
      · have hblocks : blocks = pre ++ b :: post := by
          rw [List.concat_eq_append, ← List.cons_append, ← List.append_assoc] at hsplit
          exact (List.append_inj' hsplit rfl).1
        obtain ⟨lo, hi, hspan, hpre⟩ := ih hblocks
        refine ⟨lo, hi, hspan.extend happ, fun b' hb' => ?_⟩
        obtain ⟨lo', hi', hspan', hle⟩ := hpre b' hb'
        exact ⟨lo', hi', hspan'.extend happ, hle⟩

/-- The marks after the scans of some blocks. -/
def visitedAfter (arena : List Node) (pool : List ℕ) (blocks : List Block) : List ℕ :=
  blocks.foldl (fun visited b => (scanTree arena pool b.root visited).2) []

/-- The marks are on the nodes that the roots lead to, and the next root leads to none. -/
theorem Accepted.scans {blocks pre post : List Block} {b : Block} (h : Accepted pool arena blocks)
    (hsplit : blocks = pre ++ b :: post) :
    (∀ c, c ∈ visitedAfter arena pool pre ↔ ∃ b' ∈ pre, Reach (Child arena) b'.root c)
      ∧ ∃ es, Scanned arena pool b.root (visitedAfter arena pool pre)
        (scanTree arena pool b.root (visitedAfter arena pool pre)).1
        (scanTree arena pool b.root (visitedAfter arena pool pre)).2 es := by
  induction pre using List.reverseRecOn generalizing b post with
  | nil =>
      have hmarks (c : ℕ) : c ∈ visitedAfter arena pool []
          ↔ ∃ b' ∈ ([] : List Block), Reach (Child arena) b'.root c :=
        ⟨nofun, fun ⟨_, hb', _⟩ => nomatch hb'⟩
      refine ⟨hmarks, ?_⟩
      obtain ⟨lo, hi, hspan, -⟩ := h.span hsplit
      refine scanTree_scanned nofun fun c hc => ?_
      exact Nat.lt_of_lt_of_le (hspan.reach hc).2 hspan.le
  | append_singleton pre last ih =>
      rw [List.append_assoc, List.singleton_append] at hsplit
      obtain ⟨hmarks, es, hscanned⟩ := ih hsplit
      have hmarks' (c : ℕ) : c ∈ visitedAfter arena pool (pre ++ [last])
          ↔ ∃ b' ∈ pre ++ [last], Reach (Child arena) b'.root c := by
        rw [visitedAfter, List.foldl_append]
        refine (hscanned.marked c).trans ?_
        rw [hmarks]
        constructor
        · rintro (⟨b', hb', hc⟩ | hc)
          · exact ⟨b', List.mem_append_left _ hb', hc⟩
          · exact ⟨last, List.mem_append_right _ (List.mem_singleton_self _), hc⟩
        · rintro ⟨b', hb', hc⟩
          rcases List.mem_append.1 hb' with hb' | hb'
          · exact .inl ⟨b', hb', hc⟩
          · rw [List.mem_singleton.1 hb'] at hc
            exact .inr hc
      refine ⟨hmarks', ?_⟩
      rw [← List.singleton_append, ← List.append_assoc] at hsplit
      obtain ⟨lo, hi, hspan, hpre⟩ := h.span hsplit
      refine scanTree_scanned (fun c hc hmark => ?_) fun c hc => ?_
      · obtain ⟨b', hb', hc'⟩ := (hmarks' c).1 hmark
        obtain ⟨lo', hi', hspan', hle⟩ := hpre b' hb'
        have hlow := (hspan.reach hc).1
        have hhigh := (hspan'.reach hc').2
        omega
      · exact Nat.lt_of_lt_of_le (hspan.reach hc).2 hspan.le

/-- An instruction of the first loop of `extract` accepts a block or leaves the arena. -/
theorem step_accepts (instrs : List Instr) (s : Blocks) (e : Instr × ℕ) :
    (Blocks.step instrs pool s e).arena = s.arena ∧ (Blocks.step instrs pool s e).blocks = s.blocks
      ∨ ∃ b, evalBlock instrs pool e.2 s.arena = (some b, (Blocks.step instrs pool s e).arena)
        ∧ (Blocks.step instrs pool s e).blocks = s.blocks ++ [b] := by
  obtain ⟨ins, i⟩ := e
  unfold Blocks.step
  dsimp only
  split
  · split
    · split <;> exact .inl ⟨rfl, rfl⟩
    · exact .inl ⟨rfl, rfl⟩
  · split
    · split <;> exact .inl ⟨rfl, rfl⟩
    · exact .inl ⟨rfl, rfl⟩
  · split
    · split <;> exact .inl ⟨rfl, rfl⟩
    · exact .inl ⟨rfl, rfl⟩
  · split
    · next b arena' heval => exact .inr ⟨b, heval, rfl⟩
    · next arena' heval => exact .inl ⟨(evalBlock_spec heval).2 rfl, rfl⟩
  · exact .inl ⟨rfl, rfl⟩

/-- The blocks of `extract` are accepted one after another. -/
theorem firstPass_accepted (instrs : List Instr) (pool : List ℕ) :
    Accepted pool (firstPass instrs pool).arena (firstPass instrs pool).blocks := by
  have hfold (es : List (Instr × ℕ)) (s : Blocks) (hs : Accepted pool s.arena s.blocks) :
      Accepted pool (es.foldl (Blocks.step instrs pool) s).arena
        (es.foldl (Blocks.step instrs pool) s).blocks := by
    induction es generalizing s with
    | nil => exact hs
    | cons e es ih =>
        refine ih _ ?_
        rcases step_accepts instrs s e with ⟨harena, hblocks⟩ | ⟨b, heval, hblocks⟩
        · rwa [harena, hblocks]
        · rw [hblocks]
          exact hs.accept heval
  exact hfold _ _ .nil

/-- **The scan of the blocks.**  Whatever blocks `eval_block` has accepted into one arena, the
scan of each of them, with the marks of the scans before, ends, examines every node that the
root leads to once, and counts and lists what the fields of these nodes hold. -/
theorem scan_blocks {blocks pre post : List Block} {b : Block} (h : Accepted pool arena blocks)
    (hsplit : blocks = pre ++ b :: post) :
    ∃ es, Scanned arena pool b.root (visitedAfter arena pool pre)
      (scanTree arena pool b.root (visitedAfter arena pool pre)).1
      (scanTree arena pool b.root (visitedAfter arena pool pre)).2 es :=
  (h.scans hsplit).2

/-- The strings `Object`, `freeze`, `k` and a hex string. -/
def smallPool : List ℕ := "Objectfreezek".toList.map Char.toNat ++ List.replicate 64 97

/-- `Object.freeze` of an object with an array under `k`, which holds the hex string and the
object. -/
def smallBlock : List Instr :=
  [⟨0, .global, [.str ⟨0, 6⟩], some 1⟩, ⟨5, .getProp, [.reg 1, .str ⟨6, 6⟩], some 3⟩,
    ⟨11, .newArrN, [.int 1], some 4⟩, ⟨14, .newObj, [], some 5⟩,
    ⟨16, .setProp, [.reg 4, .int 0, .reg 5], none⟩, ⟨20, .newArr, [], some 6⟩,
    ⟨22, .setProp, [.reg 5, .str ⟨12, 1⟩, .reg 6], none⟩,
    ⟨28, .setProp, [.reg 6, .int 0, .str ⟨13, 64⟩], none⟩,
    ⟨34, .setProp, [.reg 6, .int 1, .reg 5], none⟩,
    ⟨38, .callM, [.reg 1, .reg 3, .reg 4], none⟩]

def smallArena : List Node :=
  [⟨.arr, [(.idx 0, .node 1)]⟩, ⟨.obj, [(.str ⟨12, 1⟩, .node 2)]⟩,
    ⟨.arr, [(.idx 0, .str ⟨13, 64⟩), (.idx 1, .node 1)]⟩]

theorem smallBlock_accepted :
    evalBlock smallBlock smallPool 0 [] = (some ⟨0, 9, 1⟩, smallArena) := by
  decide +kernel

theorem scan_blocks_small :
    Accepted smallPool smallArena [⟨0, 9, 1⟩]
      ∧ ∃ es, Scanned smallArena smallPool 1 [] (scanTree smallArena smallPool 1 []).1
        (scanTree smallArena smallPool 1 []).2 es :=
  have h : Accepted smallPool smallArena ([] ++ [⟨0, 9, 1⟩]) := .accept .nil smallBlock_accepted
  have hsplit : [] ++ [⟨0, 9, 1⟩] = [] ++ (⟨0, 9, 1⟩ : Block) :: [] := rfl
  ⟨h, scan_blocks h hsplit⟩

/-- A hex string in an array is not listed. -/
theorem scan_omits :
    evalBlock smallBlock smallPool 0 [] = (some ⟨0, 9, 1⟩, smallArena)
      ∧ Reach (Child smallArena) 1 2
      ∧ (Key.idx 0, Val.str ⟨13, 64⟩) ∈ fieldsAt smallArena 2
      ∧ isHex64 (PoolRef.units ⟨13, 64⟩ smallPool) = true
      ∧ (scanTree smallArena smallPool 1 []).1.hexes = [] :=
  ⟨smallBlock_accepted, .single ⟨.str ⟨12, 1⟩, List.mem_cons_self⟩, List.mem_cons_self,
    by decide +kernel, by decide +kernel⟩

end Config
end Worktime
end Lunar
