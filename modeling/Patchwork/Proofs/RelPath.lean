import Patchwork.RelPath

/-!
# Clean paths stay below their directory

A path is cleaned exactly when it neither starts at the root nor climbs, and names something; what
is dropped from it are the parts that name nothing.  The names of a path hold no separators, so the
clean path splits into them again: it is relative, climbs nowhere, and cleaning it once more changes
nothing.

## Main definitions

* `RelPath.Descends` — a path that leads down from the directory it is joined to.
* `RelPath.Names` — names that a clean path may be joined from.

## Main statements

* `RelPath.names_eq_ok_iff` — which paths have names, and which names these are.
* `RelPath.names_intercalate` — joined names are those of the joined path.
* `RelPath.cleans_descending` — the two together, for strings.
-/

namespace Patchwork.RelPath

variable {path part : List Char} {found : List (List Char)}

/-! ## Parts -/

/-- The parts are what lies between the slashes. -/
theorem parts_eq_splitOn (path : List Char) : parts path = path.splitOn '/' := by
  induction path with
  | nil => rfl
  | cons c rest ih =>
    obtain ⟨first, others, hparts⟩ := List.exists_cons_of_ne_nil (List.splitOn_ne_nil '/' rest)
    rw [parts, List.splitOn_cons_eq_if_modifyHead, ih, hparts]
    by_cases hc : c = '/' <;> simp [hc]

/-- A part holds characters of the path, and no slash. -/
theorem mem_of_mem_splitOn {c : Char} (hpart : part ∈ path.splitOn '/') (hc : c ∈ part) :
    c ∈ path ∧ c ≠ '/' := by
  induction path generalizing part with
  | nil =>
    rw [List.splitOn_nil, List.mem_singleton] at hpart
    rw [hpart] at hc
    cases hc
  | cons d rest ih =>
    obtain ⟨first, others, hparts⟩ := List.exists_cons_of_ne_nil (List.splitOn_ne_nil '/' rest)
    have hinside : ∀ p ∈ rest.splitOn '/', c ∈ p → c ∈ d :: rest ∧ c ≠ '/' := fun p hp hcp =>
      (ih hp hcp).imp_left (List.mem_cons_of_mem d)
    rw [List.splitOn_cons_eq_if_modifyHead, hparts] at hpart
    rw [hparts] at hinside
    by_cases hd : d = '/'
    · -- a slash begins a new part, which is empty
      rw [if_pos (by simpa using hd), List.mem_cons] at hpart
      rcases hpart with rfl | hpart
      · cases hc
      · exact hinside part hpart hc
    · rw [if_neg (by simpa using hd), List.modifyHead_cons, List.mem_cons] at hpart
      rcases hpart with rfl | hpart
      · rcases List.mem_cons.mp hc with rfl | hc
        · exact ⟨List.mem_cons_self, hd⟩
        · exact hinside first List.mem_cons_self hc
      · exact hinside part (List.mem_cons_of_mem first hpart) hc

/-- No backslash is left once all are read as slashes. -/
theorem not_mem_slashed (source : List Char) : '\\' ∉ slashed source := by
  intro hin
  obtain ⟨c, -, hc⟩ := List.mem_map.mp hin
  split at hc
  · simp at hc
  · next hne => exact hne hc

/-- A path without backslashes is read as it is. -/
theorem slashed_eq_self (h : '\\' ∉ path) : slashed path = path := by
  have hsame : ∀ c ∈ path, (if c = '\\' then '/' else c) = c := by
    intro c hc
    rw [if_neg]
    rintro rfl
    exact h hc
  rw [slashed, List.map_congr_left hsame, List.map_id']

/-! ## Names -/

/-- A path that leads down from the directory it is joined to. -/
structure Descends (path : List Char) : Prop where
  /-- It does not start at the root. -/
  relative : path.head? ≠ some '/'
  /-- It does not climb. -/
  steady : ['.', '.'] ∉ path.splitOn '/'
  /-- It leads to something. -/
  named : ∃ part ∈ path.splitOn '/', IsName part

/-- Names that a clean path may be joined from. -/
structure Names (found : List (List Char)) : Prop where
  /-- There is one. -/
  nonempty : found ≠ []
  /-- Each names something. -/
  isName : ∀ part ∈ found, IsName part
  /-- None leads to the directory above. -/
  steady : ['.', '.'] ∉ found
  /-- None holds a separator. -/
  whole : ∀ part ∈ found, '/' ∉ part ∧ '\\' ∉ part

/-- **A path has names exactly when it descends**: those of its parts that name something. -/
theorem names_eq_ok_iff (source : List Char) :
    names source = .ok found ↔ Descends (slashed source) ∧
      found = ((slashed source).splitOn '/').filter fun part => IsName part := by
  have hnamed : ∀ path : List Char, (∃ part ∈ path.splitOn '/', IsName part) ↔
      ((path.splitOn '/').filter fun part => IsName part) ≠ [] := by
    simp [List.filter_eq_nil_iff]
  unfold names
  split
  case h_1 hempty =>
    -- the empty path has one part, which names nothing
    have hnone : ¬ Descends (slashed source) := fun h => by
      obtain ⟨part, hpart, hname⟩ := h.named
      rw [hempty, List.splitOn_nil, List.mem_singleton] at hpart
      exact hname.1 hpart
    simp [hnone]
  case h_2 rest hroot =>
    have hnone : ¬ Descends (slashed source) := fun h => h.relative (by rw [hroot]; rfl)
    simp [hnone]
  case h_3 hnonempty hrelative =>
    rw [parts_eq_splitOn]
    by_cases hclimb : ['.', '.'] ∈ (slashed source).splitOn '/'
    · have hnone : ¬ Descends (slashed source) := fun h => h.steady hclimb
      simp [hclimb, hnone]
    have hhead : (slashed source).head? ≠ some '/' := by
      intro h
      obtain ⟨rest, hrest⟩ := List.head?_eq_some_iff.mp h
      exact hrelative rest hrest
    rw [if_neg hclimb]
    generalize hfilter : ((slashed source).splitOn '/').filter (fun part => IsName part) = kept
    have hdescends : Descends (slashed source) ↔ kept ≠ [] := by
      rw [← hfilter, ← hnamed]
      exact ⟨Descends.named, fun h => ⟨hhead, hclimb, h⟩⟩
    cases kept with
    | nil => simp [hdescends]
    | cons first others => simp [hdescends, eq_comm]

/-- The names of a path can be joined to a clean one. -/
theorem Descends.names {source : List Char} (h : Descends (slashed source)) :
    Names (((slashed source).splitOn '/').filter fun part => IsName part) := by
  refine ⟨?_, ?_, ?_, ?_⟩
  · obtain ⟨part, hpart, hname⟩ := h.named
    exact List.ne_nil_of_mem (List.mem_filter.mpr ⟨hpart, decide_eq_true hname⟩)
  · exact fun part hpart => of_decide_eq_true (List.mem_filter.mp hpart).2
  · exact fun hin => h.steady (List.mem_filter.mp hin).1
  · intro part hpart
    have hin := (List.mem_filter.mp hpart).1
    exact ⟨fun hc => (mem_of_mem_splitOn hin hc).2 rfl,
      fun hc => not_mem_slashed source (mem_of_mem_splitOn hin hc).1⟩

/-! ## Clean paths -/

namespace Names

/-- Joined names split into themselves. -/
theorem splitOn_intercalate (h : Names found) : (['/'].intercalate found).splitOn '/' = found :=
  List.splitOn_intercalate '/' (fun part hpart => (h.whole part hpart).1) h.nonempty

/-- Joining names brings in no backslash. -/
theorem not_mem_intercalate (h : Names found) : '\\' ∉ ['/'].intercalate found := by
  intro hin
  have hwhole := h.whole
  clear h
  induction found with
  | nil => cases hin
  | cons first others ih =>
    obtain ⟨hfirst, hothers⟩ := List.forall_mem_cons.mp hwhole
    cases others with
    | nil =>
      rw [List.intercalate_singleton] at hin
      exact hfirst.2 hin
    | cons second others =>
      rw [List.intercalate_cons_cons, List.mem_append, List.mem_append] at hin
      rcases hin with (hin | hin) | hin
      · exact hfirst.2 hin
      · simp at hin
      · exact ih hin hothers

/-- Joined names lead down. -/
theorem descends (h : Names found) : Descends (['/'].intercalate found) := by
  have hparts := h.splitOn_intercalate
  obtain ⟨first, others, hfound⟩ := List.exists_cons_of_ne_nil h.nonempty
  have hfirst : first ∈ found := hfound ▸ List.mem_cons_self
  refine ⟨?_, hparts.symm ▸ h.steady, first, hparts.symm ▸ hfirst, h.isName first hfirst⟩
  -- a slash in front would make the first part empty
  intro hroot
  obtain ⟨rest, hrest⟩ := List.head?_eq_some_iff.mp hroot
  rw [hrest, List.splitOn_cons_eq_if_modifyHead, if_pos (beq_self_eq_true _), hfound] at hparts
  exact (h.isName first hfirst).1 (List.cons.inj hparts).1.symm

/-- **Joined names are the names of the joined path.** -/
theorem names_intercalate (h : Names found) : names (['/'].intercalate found) = .ok found := by
  have hread := slashed_eq_self h.not_mem_intercalate
  rw [names_eq_ok_iff, hread, h.splitOn_intercalate]
  refine ⟨h.descends, (List.filter_eq_self.mpr ?_).symm⟩
  exact fun part hpart => decide_eq_true (h.isName part hpart)

end Names

theorem clean_eq_ok_iff {source target : String} :
    clean source = .ok target ↔ ∃ found, names source.toList = .ok found ∧
      target = String.ofList (['/'].intercalate found) := by
  unfold clean
  cases names source.toList with
  | error cause => simp [Except.map]
  | ok found => simp [Except.map, eq_comm]

/-- **Cleaning confines.**  A path is cleaned exactly when, with backslashes read as slashes, it
does not start at the root, does not climb and names something; the clean path is then made of the
parts that name something, joined by single slashes.  So a clean path is not empty, holds no
backslash, starts not at the root, has only parts that are names, none of which climbs, and is clean
already. -/
theorem cleans_descending (source target : String) :
    (clean source = .ok target ↔ Descends (slashed source.toList) ∧
      target = String.ofList (['/'].intercalate
        (((slashed source.toList).splitOn '/').filter fun part => IsName part))) ∧
    (clean source = .ok target →
      target ≠ "" ∧ '\\' ∉ target.toList ∧ target.toList.head? ≠ some '/' ∧
      (∀ part ∈ target.toList.splitOn '/', part ≠ [] ∧ part ≠ ['.'] ∧ part ≠ ['.', '.']) ∧
      clean target = .ok target) := by
  have hclean : clean source = .ok target ↔ Descends (slashed source.toList) ∧
      target = String.ofList (['/'].intercalate
        (((slashed source.toList).splitOn '/').filter fun part => IsName part)) := by
    simp only [clean_eq_ok_iff, names_eq_ok_iff, and_assoc, exists_and_left, exists_eq_left]
  refine ⟨hclean, fun h => ?_⟩
  obtain ⟨hdescends, rfl⟩ := hclean.mp h
  have hnames := hdescends.names
  have hparts := hnames.splitOn_intercalate
  have hdown := hnames.descends
  rw [String.toList_ofList]
  refine ⟨?_, hnames.not_mem_intercalate, hdown.relative, ?_, ?_⟩
  · intro hempty
    obtain ⟨part, hpart, hname⟩ := hdown.named
    rw [← String.toList_ofList (l := ['/'].intercalate _), hempty, String.toList_empty,
      List.splitOn_nil, List.mem_singleton] at hpart
    exact hname.1 hpart
  · intro part hpart
    rw [hparts] at hpart
    refine ⟨(hnames.isName part hpart).1, (hnames.isName part hpart).2, ?_⟩
    rintro rfl
    exact hnames.steady hpart
  · exact clean_eq_ok_iff.mpr ⟨_, by rw [String.toList_ofList]; exact hnames.names_intercalate, rfl⟩

/-- Both separators, repeated and trailing ones, points, and names that hold points. -/
theorem cleans_descending_tangled :
    clean ".\\a..b//./..c/" = .ok "a..b/..c" ∧ clean "a..b/..c" = .ok "a..b/..c" := by
  have hclean : clean ".\\a..b//./..c/" = .ok "a..b/..c" := by rfl
  exact ⟨hclean, ((cleans_descending _ _).2 hclean).2.2.2.2⟩

end Patchwork.RelPath
