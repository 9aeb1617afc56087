import Mathlib.Data.List.Nodup
import Patchwork.Layout
import Patchwork.Proofs.Json.Document
import Patchwork.Proofs.Outcome

/-!
# Layouts are read back

Each kind of record that a layout is written with is read back from its document: its fields stand
under their own names, once each, and what each was written as is read as what it was.  With that a
layout whose numbers are coordinates is read back from its text, and the checks it passed before it
was written are passed again.

## Main definitions

* `Layout.Storable` — all numbers of the layout are coordinates.

## Main statements

* `Layout.parse_text` — a valid layout is read back from its text.
-/

namespace Patchwork

open Coordinate

namespace Json

/-! ## Records -/

section Records

variable {names : List String} {members : List (String × Json)}

theorem printableMembers_iff {members : List (Option String × Json)} :
    PrintableMembers members ↔ ∀ m ∈ members, m.1.isSome ∧ Printable m.2 := by
  induction members with
  | nil => simp [PrintableMembers]
  | cons m members ih =>
    obtain ⟨name, value⟩ := m
    rw [PrintableMembers, ih, List.forall_mem_cons, and_assoc]

theorem printableItems_iff {items : List Json} :
    PrintableItems items ↔ ∀ j ∈ items, Printable j := by
  induction items with
  | nil => simp [PrintableItems]
  | cons item items ih => rw [PrintableItems, ih, List.forall_mem_cons]

theorem printable_record (hmembers : ∀ m ∈ members, Printable m.2) :
    Printable (record members) := by
  rw [record, Printable, printableMembers_iff]
  intro m hm
  obtain ⟨⟨name, value⟩, hmem, rfl⟩ := List.mem_map.mp hm
  exact ⟨rfl, hmembers _ hmem⟩

/-- Each field of a record is the member of that name. -/
theorem fields_record (hnames : (members.map (·.1)).Nodup) :
    fields names (record members) =
      some (names.map fun name => (members.find? (·.1 = name)).map (·.2)) := by
  have honce : ∀ name, (members.filter fun m => decide (some m.1 = some name)).length ≤ 1 := by
    intro name
    have hcount := List.nodup_iff_count_le_one.mp hnames name
    rw [List.count_eq_countP, List.countP_map, List.countP_eq_length_filter] at hcount
    simpa [Function.comp_def, beq_eq_decide] using hcount
  rw [record, fields, if_pos]
  · simp [List.find?_map, Function.comp_def]
  · simpa [List.filter_map, Function.comp_def] using fun name _ => honce name

end Records

end Json

namespace Rect

variable {r : Rect}

/-- The four numbers of the rectangle are coordinates. -/
def Storable (r : Rect) : Prop := Fits r.x ∧ Fits r.y ∧ Fits r.width ∧ Fits r.height

instance (r : Rect) : Decidable r.Storable := inferInstanceAs (Decidable (_ ∧ _))

theorem printable_toJson (r : Rect) : r.toJson.Printable :=
  Json.printable_record (by simp [Json.Printable])

theorem ofJson?_toJson (hr : r.Storable) : ofJson? r.toJson = some r := by
  obtain ⟨hx, hy, hwidth, hheight⟩ := hr
  rw [ofJson?, toJson, Json.fields_record (by simp)]
  simp [Json.required, Json.coordinate?, hx, hy, hwidth, hheight]

end Rect

namespace Options

theorem printable_toJson (o : Options) : o.toJson.Printable :=
  Json.printable_record (by simp [Json.Printable])

theorem ofJson?_toJson (o : Options) : ofJson? o.toJson = some o := by
  rw [ofJson?, toJson, Json.fields_record (by simp)]
  rfl

end Options

namespace Layout

namespace Source

variable {s : Source}

/-- The position of the source is one of coordinates. -/
def Storable (s : Source) : Prop := Fits s.x ∧ Fits s.y

instance (s : Source) : Decidable s.Storable := inferInstanceAs (Decidable (_ ∧ _))

theorem printable_toJson (s : Source) : s.toJson.Printable :=
  Json.printable_record (by simp [Json.Printable])

theorem ofJson?_toJson (hs : s.Storable) : ofJson? s.toJson = some s := by
  rw [ofJson?, toJson, Json.fields_record (by simp)]
  simp [Json.required, Json.text?, Json.coordinate?, hs.1, hs.2]

end Source

variable {l : Layout}

/-- All numbers of the layout are coordinates. -/
structure Storable (l : Layout) : Prop where
  /-- The positions of the sources. -/
  sources : ∀ s ∈ l.sources, s.Storable
  /-- The frame. -/
  frame : ∀ r ∈ l.frame, r.Storable

theorem printable_toJson (l : Layout) : l.toJson.Printable := by
  have hsources : (Json.array (l.sources.map Source.toJson)).Printable := by
    rw [Json.Printable, Json.printableItems_iff]
    simp [Source.printable_toJson]
  apply Json.printable_record
  intro m hm
  simp only [List.mem_append, List.mem_singleton, Option.mem_toList,
    Option.map_eq_some_iff] at hm
  obtain (rfl | ⟨r, -, rfl⟩) | ⟨o, -, rfl⟩ := hm
  · exact hsources
  · exact Rect.printable_toJson r
  · exact Options.printable_toJson o

theorem mapM_ofJson? {sources : List Source} (hsources : ∀ s ∈ sources, s.Storable) :
    (sources.map Source.toJson).mapM Source.ofJson? = some sources := by
  induction sources with
  | nil => rfl
  | cons s sources ih =>
    obtain ⟨hs, hsources⟩ := List.forall_mem_cons.mp hsources
    rw [List.map_cons, List.mapM_cons, Source.ofJson?_toJson hs, ih hsources]
    rfl

/-- Only the members that are there stand in the document. -/
theorem fields_toJson (l : Layout) :
    l.toJson.fields ["sources", "bbox", "opts"] =
      some [some (.array (l.sources.map Source.toJson)), l.frame.map Rect.toJson,
        l.options.map Options.toJson] := by
  obtain ⟨sources, frame, options⟩ := l
  rw [toJson]
  cases frame <;> cases options <;> rw [Json.fields_record (by simp)] <;> simp

theorem ofJson?_toJson (hl : l.Storable) : ofJson? l.toJson = some l := by
  have hframe : Json.optional none (Json.nullable Rect.ofJson?) (l.frame.map Rect.toJson) =
      some l.frame := by
    cases hr : l.frame with
    | none => rfl
    | some r => exact congrArg (Option.map some) (Rect.ofJson?_toJson (hl.frame r hr))
  have hoptions : Json.optional none (Json.nullable Options.ofJson?)
      (l.options.map Options.toJson) = some l.options := by
    cases l.options with
    | none => rfl
    | some o => exact congrArg (Option.map some) (Options.ofJson?_toJson o)
  rw [ofJson?, fields_toJson]
  simp [Json.required, Json.list?, mapM_ofJson? hl.sources, hframe, hoptions]

/-- **A valid layout is read back from its text.** -/
theorem parse_text (hl : l.Storable) (hvalid : l.validate = .ok ()) :
    parse (Json.octets l.text) = .ok l := by
  rw [parse, text, Json.parse_print (printable_toJson l), Option.bind_some, ofJson?_toJson hl]
  exact Outcome.bind_eq_ok_iff.mpr ⟨(), hvalid, rfl⟩

/-- A layout with quotes, a backslash, control characters and wide characters in its paths, and with
the least and the greatest coordinate. -/
def gallery : Layout where
  sources := [⟨"a \"quoted\" name.png", -2147483648, 2147483647⟩, ⟨"b\\tab\t\x01é€😀.png", 0, -7⟩]
  frame := some ⟨-2147483648, 0, 2147483647, 1⟩
  options := some ⟨true, false, true⟩

theorem parse_text_gallery : parse (Json.octets gallery.text) = .ok gallery := by
  have hstorable : gallery.Storable := ⟨by decide, by decide⟩
  exact parse_text hstorable (by decide)

end Layout

end Patchwork
