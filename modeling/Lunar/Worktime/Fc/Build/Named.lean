/-
# The names that the build finds

`worktime/fc.rs`: the names of `Program::build` are names of keys, and those of the two members of
the document that the analysis starts from are among them (`build_named`).
-/

import Lunar.Worktime.Fc.Build
import Lunar.Worktime.Fc.Paths

namespace Lunar
namespace Fc

open Worktime (Instr Op Operand PoolRef PowKeys)

/-- The names that the pass has met are rendered, and the keys of the document among them. -/
structure Scan.Named (s : Scan) : Prop where
  known : ∀ name ∈ s.names, name.Known
  dyn : ∀ k, s.dynKey = some k → k < s.names.length
  ff : ∀ k, s.ffKey = some k → k < s.names.length

theorem keyName_known {op : Operand} {pool : List UInt16} {name : KeyName}
    (h : keyName op pool = some name) : name.Known := by
  rintro l rfl
  cases op with
  | str r =>
      have hname := Option.some.inj h
      split at hname <;> cases hname
  | dbl bits =>
      rw [keyName] at h
      split at h <;> cases h
  | true | false | null | undef => cases h; decide
  | int | reg => cases h

theorem Scan.Named.addName {s : Scan} (h : s.Named) {name : KeyName} (hname : name.Known) :
    (s.addName name).Named := by
  have hnames : ∀ n ∈ s.names ++ [name], n.Known := by
    intro n hn
    rcases List.mem_append.1 hn with hn | hn
    · exact h.known n hn
    · exact List.mem_singleton.1 hn ▸ hname
  have hlen : (s.names ++ [name]).length = s.names.length + 1 := by simp
  have hnew (k : ℕ) (hk : some s.names.length = some k) : k < (s.names ++ [name]).length := by
    rw [hlen, ← Option.some.inj hk]
    exact Nat.lt_succ_self _
  have hold {o : Option ℕ} (ho : ∀ k, o = some k → k < s.names.length) (k : ℕ) (hk : o = some k) :
      k < (s.names ++ [name]).length := by
    rw [hlen]
    exact Nat.lt_succ_of_lt (ho k hk)
  cases name with
  | units u =>
      unfold Scan.addName
      dsimp only
      split_ifs
      · exact ⟨hnames, hnew, hold h.ff⟩
      · exact ⟨hnames, hold h.dyn, hnew⟩
      · exact ⟨hnames, hold h.dyn, hold h.ff⟩
      · exact ⟨hnames, hold h.dyn, hold h.ff⟩
  | index i => exact ⟨hnames, hold h.dyn, hold h.ff⟩
  | lit l => exact ⟨hnames, hold h.dyn, hold h.ff⟩

theorem Scan.Named.nameOf {s : Scan} (h : s.Named) (pool : List UInt16) (key : Operand) :
    (s.nameOf pool key).2.Named := by
  have hcache {s : Scan} (h : s.Named) (id : ℕ) : (s.cache key id).Named := by
    cases key with
    | str r => exact ⟨h.known, h.dyn, h.ff⟩
    | int | dbl | true | false | null | undef | reg => exact h
  unfold Scan.nameOf
  split
  · exact h
  · split
    · next name hname =>
        refine hcache ?_ _
        unfold Scan.idOf
        split
        · exact h
        · exact h.addName (keyName_known hname)
    · exact h

/-- One instruction only adds names of keys. -/
theorem Scan.Named.tables {instrs : List Instr} {pool : List UInt16} {s s' : Scan} {ins : Instr}
    {a a' : Aux} (h : s.Named) (hs : s.tables instrs pool ins a = .ok (a', s')) : s'.Named := by
  have hkeyed (hs : (Except.ok (s.keyed pool ins a) : Except FcError _) = .ok (a', s')) :
      s'.Named := by
    have hname := h.nameOf pool (ins.arg 1)
    rw [Scan.keyed] at hs
    rcases hfound : s.nameOf pool (ins.arg 1) with ⟨found, s₁⟩
    rw [hfound] at hs hname
    cases found with
    | none => cases hs; exact hname
    | some id =>
        dsimp only at hs
        split at hs
        · cases hs; exact ⟨hname.known, hname.dyn, hname.ff⟩
        · cases hs; exact hname
  have hcounted (hs : (s.counted ins >>= fun s => Except.ok (a, s)) = .ok (a', s')) :
      s'.Named := by
    obtain ⟨s₁, hs₁, hs⟩ := Lib.bind_ok hs
    cases hs
    rw [Scan.counted] at hs₁
    split at hs₁
    · split at hs₁
      · cases hs₁
      · cases hs₁
        split
        · exact ⟨h.known, h.dyn, h.ff⟩
        · exact h
    · cases hs₁; exact h
  rw [Scan.tables] at hs
  split at hs
  · exact hkeyed hs
  · exact hkeyed hs
  · cases hs; exact ⟨h.known, h.dyn, h.ff⟩
  · cases hs; exact ⟨h.known, h.dyn, h.ff⟩
  · unfold Scan.entered at hs
    dsimp only at hs
    split at hs
    · cases hs
    · split at hs
      · cases hs; exact ⟨h.known, h.dyn, h.ff⟩
      · cases hs; exact ⟨h.known, h.dyn, h.ff⟩
  · exact hcounted hs
  · exact hcounted hs
  · exact hcounted hs
  · exact hcounted hs
  · exact hcounted hs
  · exact hcounted hs
  · cases hs; exact h

theorem scan_named {instrs : List Instr} {pool : List UInt16} {s : Scan}
    (h : scan instrs pool = .ok s) : s.Named := by
  have hstart : Scan.Named .start := ⟨List.forall_mem_nil _, nofun, nofun⟩
  refine Lib.foldlM_zipIdx (P := fun _ s => Scan.Named s) (fun k ins s s' _ hs hstep => ?_) hstart h
  obtain ⟨e, -, hstep⟩ := Lib.bind_ok hstep
  obtain ⟨⟨a, s₁⟩, htables, hstep⟩ := Lib.bind_ok hstep
  cases hstep
  have hflow : (Scan.flow { s with seeded := s.seeded || headerBits pool ins ≠ 0 }
      instrs k e).Named := ⟨hs.known, hs.dyn, hs.ff⟩
  have htables := hflow.tables htables
  exact ⟨htables.known, htables.dyn, htables.ff⟩

/-- What the build promises of names and of keys. -/
structure Program.Named (p : Program) : Prop where
  lit : ∀ l, .lit l ∈ p.names → l < 4
  dyn : ∀ k, p.dynKey = some k → k < p.wild
  ff : ∀ k, p.ffKey = some k → k < p.wild

theorem build_named {instrs : List Instr} {pool : List UInt16} {keys : PowKeys} {built : Built}
    (h : build instrs pool keys = .ok built) : built.program.Named := by
  rw [build] at h
  by_cases hne : instrs = []
  · rw [if_pos hne] at h
    cases h
  rw [if_neg hne] at h
  by_cases hlarge : MAX_INSTRS ≤ instrs.length
  · rw [if_pos hlarge] at h
    cases h
  rw [if_neg hlarge] at h
  obtain ⟨s, hs, h⟩ := Lib.bind_ok h
  obtain ⟨fs, hfs, h⟩ := Lib.bind_ok h
  have hnamed := scan_named hs
  rw [← Except.ok.inj h]
  exact ⟨fun l hl => hnamed.known _ hl l rfl, hnamed.dyn, hnamed.ff⟩

end Fc
end Lunar
