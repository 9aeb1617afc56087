import Patchwork.Files.Images

/-!
# A file that was written is read back

Writing puts one entry into a directory that is there.  No directory goes away by that, so every
path that could be followed before leads to the same place after, and the path that was written
leads to what was written.

## Main definitions

* `Files.Hosted` — a place in a directory.
* `Files.Writable` — a path that a file can be delivered to.

## Main statements

* `Files.locate_put` — paths lead where they led.
* `Files.read?_write` — what was written is read.
* `Files.deliver_eq_ok_iff`, `Files.read?_deliver` — the same after the directory was made.
-/

namespace Patchwork.Files

variable {entries : List (String × Node)} {files : Files} {content : Content}
  {name : String} {place way : List String}

/-! ## Entries -/

/-- A directory lies at a place below some entries. -/
def Opens (entries : List (String × Node)) (place : List String) : Prop :=
  ∃ inner, entryAt? entries place = some (.directory inner)

theorem opens_nil (entries : List (String × Node)) : Opens entries [] := ⟨entries, rfl⟩

theorem isDirectoryAt_iff : files.isDirectoryAt place = true ↔ Opens files.entries place := by
  unfold isDirectoryAt node? Opens
  split
  · next inner h => simp [h]
  · next h => simpa using h

/-- The first name on the way to a directory is a directory. -/
theorem opens_cons : Opens entries (name :: way) ↔
    ∃ inner, entries.lookup name = some (.directory inner) ∧ Opens inner way := by
  unfold Opens
  rw [entryAt?]
  cases hentry : entries.lookup name with
  | none => simp
  | some node =>
    cases node with
    | directory inner => simp
    | file content => by_cases h : way.isEmpty <;> simp [h]

/-- The directories above a directory. -/
theorem Opens.of_append (h : Opens entries (place ++ way)) : Opens entries place := by
  induction place generalizing entries with
  | nil => exact opens_nil entries
  | cons name place ih =>
    rw [List.cons_append, opens_cons] at h
    obtain ⟨inner, hlookup, hinner⟩ := h
    exact opens_cons.mpr ⟨inner, hlookup, ih hinner⟩

theorem lookup_filter_ne {other : String} (h : other ≠ name) :
    (entries.filter (·.1 ≠ name)).lookup other = entries.lookup other := by
  induction entries with
  | nil => rfl
  | cons entry entries ih =>
    obtain ⟨key, node⟩ := entry
    by_cases hkey : key = name
    · subst hkey
      rw [List.filter_cons_of_neg (by simp), ih, List.lookup_cons, beq_false_of_ne h]
    · rw [List.filter_cons_of_pos (by simpa using hkey), List.lookup_cons, List.lookup_cons, ih]

theorem lookup_replaced {other : String} (node : Node) :
    ((name, node) :: entries.filter (·.1 ≠ name)).lookup other =
      if other = name then some node else entries.lookup other := by
  rw [List.lookup_cons]
  split
  · next h => rw [if_pos (by simpa using h)]
  · next h =>
    have hne : other ≠ name := by simpa using h
    rw [if_neg hne, lookup_filter_ne hne]

/-- A longer way goes on in the directory of its first name. -/
theorem withEntry_cons {node : Option Node} {inner : List (String × Node)} (hway : way ≠ [])
    (hlookup : entries.lookup name = some (.directory inner)) :
    withEntry node entries (name :: way) =
      (name, .directory (withEntry node inner way)) :: entries.filter (·.1 ≠ name) := by
  obtain ⟨next, rest, rfl⟩ := List.exists_cons_of_ne_nil hway
  rw [withEntry, hlookup]
  exact List.cons_ne_nil next rest

/-- Without a directory on the way nothing changes. -/
theorem withEntry_of_blocked {node : Option Node} (hway : way ≠ [])
    (hblocked : ¬ ∃ inner, entries.lookup name = some (.directory inner)) :
    withEntry node entries (name :: way) = entries := by
  obtain ⟨next, rest, rfl⟩ := List.exists_cons_of_ne_nil hway
  rw [withEntry]
  · split
    · next inner h => exact absurd ⟨inner, h⟩ hblocked
    · rfl
  · exact List.cons_ne_nil next rest

/-- An entry that was put into a directory is there. -/
theorem entryAt?_withEntry (h : Opens entries place) (node : Node) :
    entryAt? (withEntry (some node) entries (place ++ [name])) (place ++ [name]) = some node := by
  induction place generalizing entries with
  | nil =>
    rw [List.nil_append, withEntry, Option.map_some, Option.toList_some, List.singleton_append,
      entryAt?, lookup_replaced, if_pos rfl]
    cases node <;> rfl
  | cons first place ih =>
    obtain ⟨inner, hlookup, hinner⟩ := opens_cons.mp h
    rw [List.cons_append, withEntry_cons (by simp) hlookup, entryAt?, lookup_replaced, if_pos rfl]
    exact ih hinner

/-- **No directory goes away** when a file takes a place that is none. -/
theorem Opens.withEntry (hfree : ¬ Opens entries place) (h : Opens entries way) :
    Opens (withEntry (some (.file content)) entries place) way := by
  induction place generalizing entries way with
  | nil => exact absurd (opens_nil entries) hfree
  | cons first rest ih =>
    cases way with
    | nil => exact opens_nil _
    | cons other way =>
      obtain ⟨inner, hlookup, hinner⟩ := opens_cons.mp h
      by_cases hrest : rest = []
      · subst hrest
        have hother : other ≠ first := by
          rintro rfl
          exact hfree (opens_cons.mpr ⟨inner, hlookup, opens_nil inner⟩)
        refine opens_cons.mpr ⟨inner, ?_, hinner⟩
        rw [Files.withEntry, Option.map_some, Option.toList_some, List.singleton_append,
          lookup_replaced, if_neg hother, hlookup]
      · by_cases hopen : ∃ below, entries.lookup first = some (.directory below)
        · obtain ⟨below, hbelow⟩ := hopen
          rw [withEntry_cons hrest hbelow, opens_cons, lookup_replaced]
          by_cases hother : other = first
          · subst hother
            obtain rfl : inner = below := by simpa using hlookup.symm.trans hbelow
            have hfree' := fun hin => hfree (opens_cons.mpr ⟨inner, hlookup, hin⟩)
            exact ⟨_, if_pos rfl, ih hfree' hinner⟩
          · exact ⟨inner, by rw [if_neg hother, hlookup], hinner⟩
        · rw [withEntry_of_blocked hrest hopen]
          exact h

/-! ## Paths -/

/-- A place in a directory, or a directory itself. -/
def Hosted (files : Files) (place : List String) : Prop :=
  Opens files.entries place ∨
    ∃ above name, place = above ++ [name] ∧ Opens files.entries above

/-- One name further on from a directory. -/
theorem step_eq_some {next : List String} (h : files.step place name = some next) :
    Opens files.entries place ∧ Hosted files next := by
  unfold step at h
  split at h
  · next hdirectory =>
    have hopen := isDirectoryAt_iff.mp hdirectory
    refine ⟨hopen, ?_⟩
    split at h
    · obtain rfl := Option.some.inj h
      exact .inl hopen
    · split at h
      · obtain rfl := Option.some.inj h
        rcases List.eq_nil_or_concat place with rfl | ⟨above, last, rfl⟩
        · exact .inl hopen
        · rw [List.concat_eq_append] at hopen ⊢
          rw [List.dropLast_concat]
          exact .inl hopen.of_append
      · split at h
        · exact .inr ⟨place, name, (Option.some.inj h).symm, hopen⟩
        · cases h
  · cases h

theorem hosted_of_foldlM {names : List String} {start : List String} (hstart : Hosted files start)
    (h : names.foldlM files.step start = some place) : Hosted files place := by
  induction names generalizing start with
  | nil =>
    obtain rfl := Option.some.inj h
    exact hstart
  | cons name names ih =>
    rw [List.foldlM_cons, Option.bind_eq_bind, Option.bind_eq_some_iff] at h
    obtain ⟨next, hnext, hrest⟩ := h
    exact ih (step_eq_some hnext).2 hrest

/-- A path leads into a directory. -/
theorem hosted_of_locate {path : String} (h : files.locate path = some place) :
    Hosted files place := by
  unfold locate at h
  split at h
  · exact hosted_of_foldlM (.inl (opens_nil _)) h
  · cases h

section Put

variable (hfree : ¬ Opens files.entries place)

include hfree

theorem step_put {here next : List String} (h : files.step here name = some next) :
    (files.put place (.file content)).step here name = some next := by
  have hopen := (step_eq_some h).1
  have hstays : (files.put place (.file content)).isDirectoryAt here = true :=
    isDirectoryAt_iff.mpr (hopen.withEntry hfree)
  unfold step at h ⊢
  rw [if_pos (isDirectoryAt_iff.mpr hopen)] at h
  rw [if_pos hstays]
  exact h

theorem foldlM_step_put {names start next : List String}
    (h : names.foldlM files.step start = some next) :
    names.foldlM (files.put place (.file content)).step start = some next := by
  induction names generalizing start with
  | nil => exact h
  | cons name names ih =>
    rw [List.foldlM_cons, Option.bind_eq_bind, Option.bind_eq_some_iff] at h ⊢
    obtain ⟨here, hhere, hrest⟩ := h
    exact ⟨here, step_put hfree hhere, ih hrest⟩

/-- **Paths lead where they led** before a file was put somewhere. -/
theorem locate_put {path : String} {next : List String} (h : files.locate path = some next) :
    (files.put place (.file content)).locate path = some next := by
  unfold locate at h ⊢
  split at h
  · next hfollow =>
    rw [if_pos hfollow]
    exact foldlM_step_put hfree h
  · cases h

end Put

/-! ## Writing -/

theorem write_eq_some_iff {path : String} {written : Files} :
    files.write path content = some written ↔ ∃ place, files.locate path = some place ∧
      ¬ Opens files.entries place ∧ files.put place (.file content) = written := by
  unfold write
  rw [Option.bind_eq_bind, Option.bind_eq_some_iff]
  refine exists_congr fun place => and_congr_right fun _ => ?_
  rw [← isDirectoryAt_iff]
  split
  · next h => simp [h]
  · next h => simp [h]

/-- **What was written is read.** -/
theorem read?_write {path : String} {written : Files}
    (h : files.write path content = some written) : written.read? path = some content := by
  obtain ⟨place, hlocate, hfree, rfl⟩ := write_eq_some_iff.mp h
  have hentry : (files.put place (.file content)).node? place = some (.file content) := by
    rcases hosted_of_locate hlocate with hopen | ⟨above, name, rfl, hopen⟩
    · exact absurd hopen hfree
    · exact entryAt?_withEntry hopen _
  rw [read?, locate_put hfree hlocate, Option.bind_some, hentry]

/-- A file can be delivered to the path: its directory is there or can be made, and no directory
lies at the path itself. -/
def Writable (files : Files) (path : String) : Prop :=
  ∃ made place, files.makeDirectory ((parent path).getD "") = (true, made) ∧
    made.locate path = some place ∧ made.isDirectoryAt place = false

theorem deliver_eq_ok_iff {path : String} {delivered : Files} :
    files.deliver path content = (.ok (), delivered) ↔
      ∃ made, files.makeDirectory ((parent path).getD "") = (true, made) ∧
        made.write path content = some delivered := by
  unfold deliver
  rcases hmake : files.makeDirectory ((parent path).getD "") with ⟨done, made⟩
  cases done with
  | false => simp [hmake, Outcome.blocked, Outcome.refuse]
  | true =>
    cases hwrite : made.write path content with
    | none => simp [hmake, hwrite, Outcome.blocked, Outcome.refuse]
    | some written => simp [hmake, hwrite]

/-- A delivery arrives exactly where one can. -/
theorem exists_deliver_iff {path : String} :
    (∃ delivered, files.deliver path content = (.ok (), delivered)) ↔ files.Writable path := by
  constructor
  · rintro ⟨delivered, h⟩
    obtain ⟨made, hmake, hwrite⟩ := deliver_eq_ok_iff.mp h
    obtain ⟨place, hlocate, hfree, -⟩ := write_eq_some_iff.mp hwrite
    refine ⟨made, place, hmake, hlocate, ?_⟩
    rwa [← Bool.not_eq_true, isDirectoryAt_iff]
  · rintro ⟨made, place, hmake, hlocate, hfree⟩
    rw [← Bool.not_eq_true, isDirectoryAt_iff] at hfree
    exact ⟨_, deliver_eq_ok_iff.mpr
      ⟨made, hmake, write_eq_some_iff.mpr ⟨place, hlocate, hfree, rfl⟩⟩⟩

/-- What was delivered is read. -/
theorem read?_deliver {path : String} {delivered : Files}
    (h : files.deliver path content = (.ok (), delivered)) :
    delivered.read? path = some content := by
  obtain ⟨made, -, hwrite⟩ := deliver_eq_ok_iff.mp h
  exact read?_write hwrite

end Patchwork.Files
