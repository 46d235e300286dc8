/-
# The directives of `Cache-Control`

What `worktime/fetch.rs` (`lifetime`) makes of the directives of a response.  A field value is
a list of directives between commas, and a comma inside a quoted string is part of a directive
(`members`); `lifetime` cuts at every comma.

The loop keeps the first value of `max-age` and of `s-maxage` and the first valid one of
`stale-while-revalidate` (`foldlM_directive`), so directives of different names may change
places while no directive holds a comma (`lifetime_reads`).
-/

import Lunar.Worktime.Fetch
import Mathlib.Data.List.TakeWhile

namespace Lunar
namespace Fetch

/-! ## Arithmetic of 64 bits -/

def U64_MAX : ℕ := 2 ^ 64 - 1

/-- `u64::saturating_mul`. -/
def saturatingMul (a b : ℕ) : ℕ := min (a * b) U64_MAX

/-- `u64::saturating_add`. -/
def saturatingAdd (a b : ℕ) : ℕ := min (a + b) U64_MAX

/-- The loop of `delta_seconds` on `u64`. -/
def digitsU64 : Bytes → ℕ → Option ℕ
  | [], v => some v
  | d :: ds, v =>
    if 0x30 ≤ d ∧ d ≤ 0x39 then
      digitsU64 ds (min (saturatingAdd (saturatingMul v 10) (d.toNat - 0x30)) MAX_DELTA_SECONDS)
    else none

/-- `delta_seconds` on `u64`. -/
def deltaSecondsU64 (arg : Option Bytes) : Option ℕ :=
  match arg with
  | none => none
  | some [] => none
  | some ds => digitsU64 ds 0

/-- `Instant::checked_add`, for instants up to `last`. -/
def checkedAdd (last t seconds : ℕ) : Option ℕ := if t + seconds ≤ last then some (t + seconds) else none

/-- The limits on `u64`, those of fresh and of stale values. -/
def limitsU64 (last received ttl swr age : ℕ) : Option (ℕ × ℕ) := do
  let staleTotal := saturatingAdd ttl swr
  if staleTotal ≤ age then none
  let freshUntil ← checkedAdd last received (ttl - age)
  let staleUntil ← checkedAdd last received (staleTotal - age)
  return (freshUntil, staleUntil)

/-- `lifetime` on `u64`, its loop that of `directive`. -/
def lifetimeU64 (last : ℕ) (control : List Bytes) (age : Option Bytes) (received : ℕ) :
    Option (ℕ × ℕ) := do
  let s ← (control.flatMap (List.splitOn 0x2c)).foldlM directive {}
  let ttl ← s.sMaxage.or s.maxAge
  limitsU64 last received ttl (s.swr.getD 0)
    ((age.bind fun v => deltaSecondsU64 (some (trimAscii v))).getD 0)

theorem digits_le {ds : Bytes} {v w : ℕ} (hv : v ≤ MAX_DELTA_SECONDS) (h : digits ds v = some w) :
    w ≤ MAX_DELTA_SECONDS := by
  induction ds generalizing v with
  | nil => exact Option.some.inj h ▸ hv
  | cons d ds ih =>
      rw [digits] at h
      split at h
      · exact ih (Nat.min_le_right _ _) h
      · cases h

theorem deltaSeconds_le {arg : Option Bytes} {v : ℕ} (h : deltaSeconds arg = some v) :
    v ≤ MAX_DELTA_SECONDS := by
  match arg, h with
  | some (_ :: _), h => exact digits_le (Nat.zero_le _) h

theorem digitsU64_eq {ds : Bytes} {v : ℕ} (hv : v ≤ MAX_DELTA_SECONDS) :
    digitsU64 ds v = digits ds v := by
  induction ds generalizing v with
  | nil => rfl
  | cons d ds ih =>
      have hsum : min (saturatingAdd (saturatingMul v 10) (d.toNat - 0x30)) MAX_DELTA_SECONDS
          = min (v * 10 + (d.toNat - 0x30)) MAX_DELTA_SECONDS := by
        have hlt := d.toNat_lt
        rw [saturatingAdd, saturatingMul, U64_MAX]
        rw [MAX_DELTA_SECONDS] at hv ⊢
        omega
      rw [digitsU64, digits, hsum, ih (Nat.min_le_right _ _)]

/-- **No number overflows.** -/
theorem deltaSecondsU64_eq (arg : Option Bytes) : deltaSecondsU64 arg = deltaSeconds arg := by
  match arg with
  | none => rfl
  | some [] => rfl
  | some (_ :: _) => exact digitsU64_eq (Nat.zero_le _)

/-- The number that digits denote. -/
def digitsValue (ds : Bytes) (v : ℕ) : ℕ := ds.foldl (fun v d => v * 10 + (d.toNat - 0x30)) v

theorem digits_eq {ds : Bytes} (h : ∀ d ∈ ds, 0x30 ≤ d ∧ d ≤ 0x39) (v : ℕ) :
    digits ds (min v MAX_DELTA_SECONDS) = some (min (digitsValue ds v) MAX_DELTA_SECONDS) := by
  induction ds generalizing v with
  | nil => rfl
  | cons d ds ih =>
      rw [List.forall_mem_cons] at h
      have hstep : min (min v MAX_DELTA_SECONDS * 10 + (d.toNat - 0x30)) MAX_DELTA_SECONDS
          = min (v * 10 + (d.toNat - 0x30)) MAX_DELTA_SECONDS := by
        rw [MAX_DELTA_SECONDS]
        omega
      rw [digits, if_pos h.1, hstep, ih h.2]
      rfl

/-- **`delta_seconds` of digits** is their value, or the bound. -/
theorem deltaSeconds_digits {ds : Bytes} (hne : ds ≠ []) (h : ∀ d ∈ ds, 0x30 ≤ d ∧ d ≤ 0x39) :
    deltaSecondsU64 (some ds) = some (min (digitsValue ds 0) MAX_DELTA_SECONDS) := by
  rw [deltaSecondsU64_eq]
  match ds, hne with
  | d :: ds, _ => exact digits_eq h 0

theorem limitsU64_eq (last received age : ℕ) {ttl swr : ℕ} (httl : ttl ≤ MAX_DELTA_SECONDS)
    (hswr : swr ≤ MAX_DELTA_SECONDS) :
    limitsU64 last received ttl swr age
      = ((limits received ttl swr age).filter (·.staleUntil ≤ last)).map
        fun l => (l.freshUntil, l.staleUntil) := by
  have htotal : saturatingAdd ttl swr = ttl + swr := by
    rw [MAX_DELTA_SECONDS] at httl hswr
    rw [saturatingAdd, U64_MAX]
    omega
  rw [limitsU64, htotal, limits]
  by_cases hage : ttl + swr ≤ age
  · rw [if_pos hage, if_pos hage]
    rfl
  · rw [if_neg hage, if_neg hage]
    by_cases hlast : received + (ttl + swr - age) ≤ last
    · have hfresh : received + (ttl - age) ≤ last := by omega
      rw [Option.filter_some_pos (by simpa using hlast)]
      simp [checkedAdd, hlast, hfresh]
    · rw [Option.filter_some_neg (by simpa using hlast)]
      simp [checkedAdd, hlast]

/-! ## The directives of a field -/

/-- Whether a quotation mark is open, and whether a backslash there stands before a byte. -/
inductive Quoting
  | outside
  | inside
  | escaped
  deriving DecidableEq

def Quoting.next : Quoting → UInt8 → Quoting
  | .outside, b => if b = 0x22 then .inside else .outside
  | .inside, b => if b = 0x22 then .outside else if b = 0x5c then .escaped else .inside
  | .escaped, _ => .inside

/-- A field value cut at the commas that no quoted string holds. -/
def members : Quoting → Bytes → List Bytes
  | _, [] => [[]]
  | q, b :: bs =>
    if q = .outside ∧ b = 0x2c then [] :: members .outside bs
    else (members (q.next b) bs).modifyHead (b :: ·)

/-- The directives of the `Cache-Control` values. -/
def directives (control : List Bytes) : List Bytes :=
  (control.flatMap (members .outside)).map trimAscii

/-- The name of a directive, in lower case. -/
def nameOf (d : Bytes) : Bytes := (nameArg d).1.map toAsciiLowercase

/-- `no-store`, `no-cache` and `private`. -/
def Forbids (d : Bytes) : Prop := nameOf d = NO_STORE ∨ nameOf d = NO_CACHE ∨ nameOf d = PRIVATE

instance (d : Bytes) : Decidable (Forbids d) := inferInstanceAs (Decidable (_ ∨ _ ∨ _))

/-- The same directives, those of one name in the same order. -/
def Reordered (ds ds' : List Bytes) : Prop :=
  ∀ name, ds.filter (nameOf · = name) = ds'.filter (nameOf · = name)

/-- No directive holds a comma. -/
def Plain (control : List Bytes) : Prop := ∀ d ∈ directives control, 0x2c ∉ d

/-! ## White space around a text -/

/-- What stands around a trimmed text is white space. -/
theorem trim_spec (s : Bytes) : ∃ pre post, (∀ b ∈ pre, isAsciiWhitespace b = true) ∧
    (∀ b ∈ post, isAsciiWhitespace b = true) ∧ s = pre ++ trimAscii s ++ post := by
  refine ⟨s.takeWhile isAsciiWhitespace,
    (s.dropWhile isAsciiWhitespace).rtakeWhile isAsciiWhitespace, fun b hb => ?_, fun b hb => ?_, ?_⟩
  · exact List.mem_takeWhile_imp hb
  · exact List.mem_rtakeWhile_imp hb
  · rw [trimAscii, List.append_assoc, List.rdropWhile, List.rtakeWhile, ← List.reverse_append,
      List.takeWhile_append_dropWhile, List.reverse_reverse, List.takeWhile_append_dropWhile]

theorem trim_left {pre : Bytes} (h : ∀ b ∈ pre, isAsciiWhitespace b = true) (s : Bytes) :
    trimAscii (pre ++ s) = trimAscii s := by
  rw [trimAscii, trimAscii, List.dropWhile_append_of_pos h]

theorem trim_right {post : Bytes} (h : ∀ b ∈ post, isAsciiWhitespace b = true) (s : Bytes) :
    trimAscii (s ++ post) = trimAscii s := by
  have hdrop (t : Bytes) :
      (t ++ post).rdropWhile isAsciiWhitespace = t.rdropWhile isAsciiWhitespace := by
    rw [List.rdropWhile, List.reverse_append,
      List.dropWhile_append_of_pos fun b hb => h b (List.mem_reverse.1 hb), ← List.rdropWhile]
  rw [trimAscii, trimAscii, List.dropWhile_append]
  split
  · next hnil =>
      have hpost : post.dropWhile isAsciiWhitespace = [] := List.dropWhile_eq_nil_iff.2 h
      rw [List.isEmpty_iff] at hnil
      rw [hpost, hnil]
  · exact hdrop _

theorem trim_trim (s : Bytes) : trimAscii (trimAscii s) = trimAscii s := by
  obtain ⟨pre, post, hpre, hpost, hs⟩ := trim_spec s
  conv_rhs => rw [hs, List.append_assoc, trim_left hpre, trim_right hpost]

theorem mem_trim {b : UInt8} (hb : isAsciiWhitespace b = false) (s : Bytes) :
    b ∈ trimAscii s ↔ b ∈ s := by
  obtain ⟨pre, post, hpre, hpost, hs⟩ := trim_spec s
  have houtside : b ∉ pre ∧ b ∉ post := by
    refine ⟨fun h => ?_, fun h => ?_⟩
    · rw [hpre b h] at hb
      cases hb
    · rw [hpost b h] at hb
      cases hb
  conv_rhs => rw [hs, List.mem_append, List.mem_append]
  simp [houtside]

/-! ## Names -/

theorem nameArg_trim (d : Bytes) : nameArg (trimAscii d) = nameArg d := by
  rw [nameArg, nameArg, trim_trim]

theorem directive_trim (s : Directives) (d : Bytes) : directive s (trimAscii d) = directive s d := by
  rw [directive, directive, nameArg_trim]

theorem take_idxOf {s : Bytes} {a : UInt8} {i : ℕ} (h : s.idxOf? a = some i) :
    s.take i = s.takeWhile (· ≠ a) := by
  induction s generalizing i with
  | nil => cases h
  | cons b s ih =>
      rw [List.idxOf?_cons] at h
      by_cases hb : b = a
      · rw [if_pos (beq_iff_eq.2 hb), Option.some_inj] at h
        subst h
        simp [hb]
      · rw [if_neg (fun h => hb (beq_iff_eq.1 h)), Option.map_eq_some_iff] at h
        obtain ⟨j, hj, rfl⟩ := h
        simp [hb, ih hj]

/-- The name is what stands before the first sign of equality. -/
theorem nameArg_name (d : Bytes) : (nameArg d).1 = trimAscii (d.takeWhile (· ≠ 0x3d)) := by
  obtain ⟨pre, post, hpre, hpost, hd⟩ := trim_spec d
  have hequals : ∀ b, isAsciiWhitespace b = true → (decide (b ≠ 0x3d)) = true := by
    intro b hb
    refine decide_eq_true fun h => ?_
    rw [h] at hb
    cases hb
  rw [nameArg]
  split
  · next i hi =>
      have hmem : (0x3d : UInt8) ∈ trimAscii d := by
        rw [← List.isSome_idxOf?, hi]
        rfl
      have hstop : ¬ (∀ b ∈ trimAscii d, decide (b ≠ 0x3d) = true) := fun hall => by
        simpa using hall _ hmem
      conv_rhs =>
        rw [hd, List.append_assoc, List.takeWhile_append_of_pos fun b hb => hequals b (hpre b hb),
          trim_left hpre]
      rw [take_idxOf hi, List.takeWhile_append]
      split
      · next hlen =>
          have hself := (List.takeWhile_prefix _).eq_of_length hlen
          exact absurd (List.takeWhile_eq_self_iff.1 hself) hstop
      · rfl
  · next hi =>
      have hnot : (0x3d : UInt8) ∉ d := by
        rw [← mem_trim (by decide) d]
        exact List.idxOf?_eq_none_iff.1 hi
      have hself : d.takeWhile (· ≠ 0x3d) = d := by
        rw [List.takeWhile_eq_self_iff]
        intro b hb
        exact decide_eq_true fun h => hnot (h ▸ hb)
      rw [hself]

theorem nameOf_trim (d : Bytes) : nameOf (trimAscii d) = nameOf d := by
  rw [nameOf, nameOf, nameArg_trim]

/-! ## The cut at every comma -/

theorem splitOn_head (s : Bytes) : ∃ rest, s.splitOn 0x2c = s.takeWhile (· ≠ 0x2c) :: rest := by
  induction s with
  | nil => exact ⟨[], rfl⟩
  | cons b s ih =>
      obtain ⟨rest, hrest⟩ := ih
      rw [List.splitOn_cons_eq_if_modifyHead]
      by_cases hb : b = 0x2c
      · exact ⟨s.splitOn 0x2c, by simp [hb]⟩
      · exact ⟨rest, by simp [hb, hrest]⟩

theorem members_ne_nil (q : Quoting) (v : Bytes) : members q v ≠ [] := by
  induction v generalizing q with
  | nil => exact List.cons_ne_nil _ _
  | cons b v ih =>
      rw [members]
      split
      · exact List.cons_ne_nil _ _
      · obtain ⟨m, ms, hm⟩ := List.exists_cons_of_ne_nil (ih (q.next b))
        simp [hm]

/-- The pieces between commas are the pieces of the members. -/
theorem flatMap_members (q : Quoting) (v : Bytes) :
    (members q v).flatMap (List.splitOn 0x2c) = v.splitOn 0x2c := by
  induction v generalizing q with
  | nil => rfl
  | cons b v ih =>
      by_cases hq : q = .outside ∧ b = 0x2c
      · rw [members, if_pos hq, List.splitOn_cons_eq_if_modifyHead, if_pos (by simp [hq.2]),
          List.flatMap_cons, ih]
        rfl
      · obtain ⟨m, ms, hm⟩ := List.exists_cons_of_ne_nil (members_ne_nil (q.next b) v)
        obtain ⟨rest, hrest⟩ := splitOn_head m
        rw [members, if_neg hq, List.splitOn_cons_eq_if_modifyHead, ← ih (q.next b), hm,
          List.modifyHead_cons, List.flatMap_cons, List.flatMap_cons,
          List.splitOn_cons_eq_if_modifyHead]
        by_cases hb : b = 0x2c
        · simp [hb]
        · simp [hb, hrest]

/-- The first piece of a directive has its name, when the name holds no comma. -/
theorem nameOf_head {d : Bytes} (h : 0x2c ∉ nameOf d) :
    nameOf (d.takeWhile (· ≠ 0x2c)) = nameOf d := by
  have hname : (0x2c : UInt8) ∉ d.takeWhile (· ≠ 0x3d) := by
    intro hmem
    refine h ?_
    rw [nameOf, nameArg_name]
    exact List.mem_map.2 ⟨0x2c, (mem_trim (by decide) _).2 hmem, by decide⟩
  have hself : (d.takeWhile (· ≠ 0x3d)).takeWhile (· ≠ 0x2c) = d.takeWhile (· ≠ 0x3d) := by
    rw [List.takeWhile_eq_self_iff]
    intro b hb
    exact decide_eq_true fun h => hname (h ▸ hb)
  have hcomm : (d.takeWhile (· ≠ 0x2c)).takeWhile (· ≠ 0x3d)
      = (d.takeWhile (· ≠ 0x3d)).takeWhile (· ≠ 0x2c) := by
    rw [List.takeWhile_takeWhile, List.takeWhile_takeWhile]
    congr 1
    funext b
    simp [and_comm]
  rw [nameOf, nameOf, nameArg_name, nameArg_name, hcomm, hself]

/-! ## The loop -/

/-- The first value of the directives of a name, once one was seen. -/
def takeFirst (seen : Bool) (value : Option ℕ) (ds : List Bytes) : Option (Bool × Option ℕ) :=
  if seen then some (seen, value)
  else
    match ds with
    | [] => some (seen, value)
    | d :: _ => (deltaSeconds (nameArg d).2).map fun v => (true, some v)

/-- The first valid value of the directives of a name. -/
def takeValid (value : Option ℕ) (ds : List Bytes) : Option ℕ :=
  value.or (ds.findSome? fun d => deltaSeconds (nameArg d).2)

/-- What the loop makes of the directives, name by name. -/
def gather (s : Directives) (ds : List Bytes) : Option Directives :=
  if ds.any (fun d => decide (Forbids d)) then none
  else
    (takeFirst s.sMaxageSeen s.sMaxage (ds.filter (nameOf · = S_MAXAGE))).bind fun shared =>
      (takeFirst s.maxAgeSeen s.maxAge (ds.filter (nameOf · = MAX_AGE))).map fun own =>
        ⟨own.2, shared.2, takeValid s.swr (ds.filter (nameOf · = STALE_WHILE_REVALIDATE)), own.1,
          shared.1⟩

theorem named_iff (d : Bytes) {name : Bytes} (h : name.map toAsciiLowercase = name) :
    eqIgnoreAsciiCase (nameArg d).1 name = decide (nameOf d = name) := by
  rw [eqIgnoreAsciiCase, h, nameOf, Bool.eq_iff_iff, beq_iff_eq, decide_eq_true_iff]

theorem directive_eq (s : Directives) (d : Bytes) :
    directive s d = if Forbids d then none
      else if nameOf d = S_MAXAGE then
        (takeFirst s.sMaxageSeen s.sMaxage [d]).map fun shared =>
          { s with sMaxageSeen := shared.1, sMaxage := shared.2 }
      else if nameOf d = MAX_AGE then
        (takeFirst s.maxAgeSeen s.maxAge [d]).map fun own =>
          { s with maxAgeSeen := own.1, maxAge := own.2 }
      else if nameOf d = STALE_WHILE_REVALIDATE then some { s with swr := takeValid s.swr [d] }
      else some s := by
  have hforbids : (decide (nameOf d = NO_STORE) || decide (nameOf d = NO_CACHE)
      || decide (nameOf d = PRIVATE)) = decide (Forbids d) := by
    rw [Bool.eq_iff_iff]
    simp only [Bool.or_eq_true, decide_eq_true_eq]
    rw [Forbids, or_assoc]
  rw [directive]
  simp only [named_iff d (show NO_STORE.map _ = NO_STORE by decide),
    named_iff d (show NO_CACHE.map _ = NO_CACHE by decide),
    named_iff d (show PRIVATE.map _ = PRIVATE by decide),
    named_iff d (show S_MAXAGE.map _ = S_MAXAGE by decide),
    named_iff d (show MAX_AGE.map _ = MAX_AGE by decide),
    named_iff d (show STALE_WHILE_REVALIDATE.map _ = STALE_WHILE_REVALIDATE by decide), hforbids,
    decide_eq_true_eq]
  obtain ⟨maxAge, sMaxage, swr, maxAgeSeen, sMaxageSeen⟩ := s
  split
  · rfl
  split
  · rcases sMaxageSeen with _ | _
    · rcases hvalue : deltaSeconds (nameArg d).2 with _ | v <;> simp [takeFirst, hvalue]
    · simp [takeFirst]
  split
  · rcases maxAgeSeen with _ | _
    · rcases hvalue : deltaSeconds (nameArg d).2 with _ | v <;> simp [takeFirst, hvalue]
    · simp [takeFirst]
  · rcases swr with _ | v
    · rcases hvalue : deltaSeconds (nameArg d).2 with _ | v <;> simp [takeValid, hvalue]
    · simp [takeValid]

theorem takeFirst_cons (seen : Bool) (value : Option ℕ) (d : Bytes) (ds : List Bytes) :
    takeFirst seen value (d :: ds)
      = (takeFirst seen value [d]).bind fun r => takeFirst r.1 r.2 ds := by
  rcases seen with _ | _
  · rcases hvalue : deltaSeconds (nameArg d).2 with _ | v <;> simp [takeFirst, hvalue]
  · simp [takeFirst]

theorem takeValid_cons (value : Option ℕ) (d : Bytes) (ds : List Bytes) :
    takeValid value (d :: ds) = takeValid (takeValid value [d]) ds := by
  rw [takeValid, takeValid, takeValid, Option.or_assoc]
  rcases hvalue : deltaSeconds (nameArg d).2 with _ | v <;> simp [hvalue]

theorem named_cons (name d : Bytes) (ds : List Bytes) :
    (d :: ds).filter (nameOf · = name)
      = if nameOf d = name then d :: ds.filter (nameOf · = name)
        else ds.filter (nameOf · = name) := by
  simp [List.filter_cons]

/-- **The loop takes the directives name by name.** -/
theorem foldlM_directive (s : Directives) (ds : List Bytes) :
    ds.foldlM directive s = gather s ds := by
  induction ds generalizing s with
  | nil => simp [gather, takeFirst, takeValid]
  | cons d ds ih =>
      rw [List.foldlM_cons, directive_eq]
      by_cases hforbids : Forbids d
      · rw [if_pos hforbids, gather, List.any_cons, decide_eq_true hforbids, Bool.true_or, if_pos rfl]
        rfl
      have hany : (d :: ds).any (fun d => decide (Forbids d)) = ds.any fun d => decide (Forbids d) := by
        simp [hforbids]
      rw [if_neg hforbids, gather, hany]
      simp only [named_cons]
      by_cases hshared : nameOf d = S_MAXAGE
      · have hown : nameOf d ≠ MAX_AGE := by
          rw [hshared]
          decide
        have hstale : nameOf d ≠ STALE_WHILE_REVALIDATE := by
          rw [hshared]
          decide
        rw [if_pos hshared, if_pos hshared, if_neg hown, if_neg hstale,
          takeFirst_cons _ _ d (ds.filter _)]
        rcases takeFirst s.sMaxageSeen s.sMaxage [d] with _ | r
        · simp
        · simp only [Option.map_some, Option.bind_eq_bind, Option.bind_some, ih, gather]
      by_cases hown : nameOf d = MAX_AGE
      · have hstale : nameOf d ≠ STALE_WHILE_REVALIDATE := by
          rw [hown]
          decide
        rw [if_neg hshared, if_neg hshared, if_pos hown, if_pos hown, if_neg hstale,
          takeFirst_cons _ _ d (ds.filter _)]
        rcases takeFirst s.maxAgeSeen s.maxAge [d] with _ | r
        · simp
        · simp only [Option.map_some, Option.bind_eq_bind, Option.bind_some, ih, gather]
      rw [if_neg hshared, if_neg hshared, if_neg hown, if_neg hown]
      by_cases hstale : nameOf d = STALE_WHILE_REVALIDATE
      · rw [if_pos hstale, if_pos hstale, takeValid_cons _ d (ds.filter _)]
        simp only [Option.bind_eq_bind, Option.bind_some, ih, gather]
      · rw [if_neg hstale, if_neg hstale]
        simp only [Option.bind_eq_bind, Option.bind_some, ih, gather]

/-- The order of differently named directives makes no difference. -/
theorem gather_reordered {ds ds' : List Bytes} (h : Reordered ds ds') (s : Directives) :
    gather s ds = gather s ds' := by
  have hmem (d : Bytes) : d ∈ ds ↔ d ∈ ds' := by
    have hfilter := congrArg (d ∈ ·) (h (nameOf d))
    simpa using hfilter
  have hany : ds.any (fun d => decide (Forbids d)) = ds'.any fun d => decide (Forbids d) := by
    rw [Bool.eq_iff_iff, List.any_eq_true, List.any_eq_true]
    simp only [hmem]
  rw [gather, gather, hany, h, h, h]

/-! ## The lifetime -/

theorem takeFirst_le {ds : List Bytes} {r : Bool × Option ℕ} (h : takeFirst false none ds = some r) :
    ∀ v ∈ r.2, v ≤ MAX_DELTA_SECONDS := by
  intro v hv
  match ds, h with
  | [], h =>
      rw [takeFirst, if_neg (by decide), Option.some_inj] at h
      rw [← h] at hv
      cases hv
  | d :: _, h =>
      rw [takeFirst, if_neg (by decide), Option.map_eq_some_iff] at h
      obtain ⟨w, hw, rfl⟩ := h
      obtain rfl := Option.some.inj hv
      exact deltaSeconds_le hw

/-- The numbers that the loop ends with. -/
theorem foldlM_le {ds : List Bytes} {s : Directives} (h : ds.foldlM directive {} = some s) :
    (∀ v ∈ s.sMaxage.or s.maxAge, v ≤ MAX_DELTA_SECONDS) ∧ s.swr.getD 0 ≤ MAX_DELTA_SECONDS := by
  rw [foldlM_directive, gather] at h
  split at h
  · cases h
  obtain ⟨shared, hshared, h⟩ := Option.bind_eq_some_iff.1 h
  obtain ⟨own, hown, rfl⟩ := Option.map_eq_some_iff.1 h
  refine ⟨fun v hv => ?_, ?_⟩
  · rcases Option.or_eq_some_iff.1 hv with hv | ⟨-, hv⟩
    · exact takeFirst_le hshared v hv
    · exact takeFirst_le hown v hv
  · dsimp only
    rcases hswr : takeValid none (ds.filter (nameOf · = STALE_WHILE_REVALIDATE)) with _ | v
    · exact Nat.zero_le _
    · rw [takeValid, Option.none_or] at hswr
      obtain ⟨d, -, hd⟩ := List.exists_of_findSome?_eq_some hswr
      exact deltaSeconds_le hd

/-- `lifetime` on `u64` is `lifetime`, up to the last instant there is. -/
theorem lifetimeU64_eq (last : ℕ) (control : List Bytes) (age : Option Bytes) (received : ℕ) :
    lifetimeU64 last control age received
      = ((lifetime control age received).filter (·.staleUntil ≤ last)).map
        fun l => (l.freshUntil, l.staleUntil) := by
  rw [lifetimeU64, lifetime]
  simp only [Option.bind_eq_bind, deltaSecondsU64_eq]
  rcases hs : (control.flatMap (List.splitOn 0x2c)).foldlM directive {} with _ | s
  · rfl
  obtain ⟨httl, hswr⟩ := foldlM_le hs
  simp only [Option.bind_some]
  rcases hvalue : s.sMaxage.or s.maxAge with _ | ttl
  · rfl
  · exact limitsU64_eq last received _ (httl ttl hvalue) hswr

/-- The loop over the pieces, when a directive forbids a lifetime. -/
theorem lifetime_forbidden {control : List Bytes} {d : Bytes} (hd : d ∈ directives control)
    (hforbids : Forbids d) (age : Option Bytes) (received : ℕ) :
    lifetime control age received = none := by
  obtain ⟨m, hm, rfl⟩ := List.mem_map.1 hd
  obtain ⟨v, hv, hmv⟩ := List.mem_flatMap.1 hm
  have hcomma : (0x2c : UInt8) ∉ nameOf m := by
    rw [Forbids, nameOf_trim] at hforbids
    rcases hforbids with h | h | h <;> rw [h] <;> decide
  obtain ⟨rest, hrest⟩ := splitOn_head m
  have hpiece : m.takeWhile (· ≠ 0x2c) ∈ control.flatMap (List.splitOn 0x2c) := by
    refine List.mem_flatMap.2 ⟨v, hv, ?_⟩
    rw [← flatMap_members .outside v]
    refine List.mem_flatMap.2 ⟨m, hmv, ?_⟩
    rw [hrest]
    exact List.mem_cons_self
  have hany : (control.flatMap (List.splitOn 0x2c)).any (fun d => decide (Forbids d)) = true := by
    refine List.any_eq_true.2 ⟨_, hpiece, decide_eq_true ?_⟩
    rw [Forbids, nameOf_trim] at hforbids
    rwa [Forbids, nameOf_head hcomma]
  rw [lifetime, foldlM_directive, gather, if_pos hany]
  rfl

theorem foldlM_trim (s : Directives) (ds : List Bytes) :
    (ds.map trimAscii).foldlM directive s = ds.foldlM directive s := by
  rw [List.foldlM_map]
  simp only [directive_trim]

/-- Without commas in directives, the loop goes over the directives. -/
theorem foldlM_plain {control : List Bytes} (h : Plain control) :
    (control.flatMap (List.splitOn 0x2c)).foldlM directive {}
      = (directives control).foldlM directive {} := by
  have hpieces : control.flatMap (List.splitOn 0x2c) = control.flatMap (members .outside) := by
    refine List.flatMap_congr fun v hv => ?_
    have hself : (members .outside v).flatMap (List.splitOn 0x2c)
        = (members .outside v).flatMap fun m => [m] := by
      refine List.flatMap_congr fun m hm => List.splitOn_eq_singleton ?_
      rw [← mem_trim (by decide) m]
      exact h _ (List.mem_map_of_mem (List.mem_flatMap.2 ⟨v, hv, hm⟩))
    rw [← flatMap_members .outside v, hself, List.flatMap_singleton']
  rw [hpieces, directives, foldlM_trim]

theorem lifetime_reordered {control control' : List Bytes} (h : Plain control)
    (hsame : Reordered (directives control) (directives control')) (age : Option Bytes)
    (received : ℕ) : lifetime control' age received = lifetime control age received := by
  have hplain : Plain control' := by
    intro d hd
    have hmem : d ∈ (directives control').filter (nameOf · = nameOf d) := by simpa using hd
    rw [← hsame] at hmem
    exact h d (List.mem_of_mem_filter hmem)
  rw [lifetime, lifetime, foldlM_plain h, foldlM_plain hplain, foldlM_directive, foldlM_directive,
    gather_reordered hsame]

/-- **What `lifetime` reads.**  A directive that forbids it leaves no lifetime; the limits of one
are in order and in range; digits of any length are read as their value or the bound; and where
no directive holds a comma, directives of different names may change places and stand in any
number of fields. -/
theorem lifetime_reads (last : ℕ) (control : List Bytes) (age : Option Bytes) (received : ℕ) :
    (∀ d ∈ directives control, Forbids d → lifetimeU64 last control age received = none) ∧
      (∀ fresh stale, lifetimeU64 last control age received = some (fresh, stale) →
        received ≤ fresh ∧ fresh ≤ stale ∧ stale ≤ last) ∧
      (∀ ds : Bytes, ds ≠ [] → (∀ d ∈ ds, 0x30 ≤ d ∧ d ≤ 0x39) →
        deltaSecondsU64 (some ds) = some (min (digitsValue ds 0) (2 ^ 31))) ∧
      (Plain control → ∀ control', Reordered (directives control) (directives control') →
        lifetimeU64 last control' age received = lifetimeU64 last control age received) := by
  refine ⟨fun d hd hforbids => ?_, fun fresh stale h => ?_, fun ds => deltaSeconds_digits,
    fun hplain control' hsame => ?_⟩
  · rw [lifetimeU64_eq, lifetime_forbidden hd hforbids]
    rfl
  · rw [lifetimeU64_eq] at h
    obtain ⟨l, hl, heq⟩ := Option.map_eq_some_iff.1 h
    obtain ⟨hl, hlast⟩ := Option.filter_eq_some_iff.1 hl
    cases heq
    refine ⟨?_, l.fresh_le_stale, by simpa using hlast⟩
    obtain ⟨s, -, hl⟩ := Option.bind_eq_some_iff.1 hl
    obtain ⟨ttl, -, hl⟩ := Option.bind_eq_some_iff.1 hl
    rw [limits] at hl
    split at hl
    · cases hl
    · rw [← Option.some.inj hl]
      exact Nat.le_add_right _ _
  · rw [lifetimeU64_eq, lifetimeU64_eq, lifetime_reordered hplain hsame]

theorem reordered_swap {d e : Bytes} (h : nameOf d ≠ nameOf e) : Reordered [d, e] [e, d] := by
  intro name
  rw [named_cons, named_cons, named_cons, named_cons]
  by_cases hd : nameOf d = name
  · have he : nameOf e ≠ name := fun he => h (hd.trans he.symm)
    simp [hd, he]
  · simp [hd]

/-- A quoted string that holds `max-age=10` outlives a `max-age=0`, when it stands first. -/
theorem lifetime_order :
    let zero := ascii "max-age=0"
    let quoted := ascii "foo=\"a,max-age=10,b\""
    let control := [zero ++ [0x2c] ++ quoted]
    let control' := [quoted ++ [0x2c] ++ zero]
    Reordered (directives control) (directives control') ∧
      lifetimeU64 1000 control none 0 = none ∧
      lifetimeU64 1000 control' none 0 = some (10, 10) := by
  intro zero quoted control control'
  have hfirst : directives control = [zero, quoted] := by decide
  have hsecond : directives control' = [quoted, zero] := by decide
  refine ⟨?_, ?_, ?_⟩
  · rw [hfirst, hsecond]
    exact reordered_swap (by decide)
  · rw [lifetimeU64_eq]
    decide
  · rw [lifetimeU64_eq]
    decide

end Fetch
end Lunar
