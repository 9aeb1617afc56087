import Patchwork.Composite.FromLayout
import Patchwork.Proofs.Composite.Sturdy

/-!
# Layouts that never break

Any document may be given as a layout, with any files to go with it.  Reading it never breaks, and
if the images that it names and the frame that it asks for lie on a wall that memory can hold,
neither does building its mosaic nor rendering all of it: each of these succeeds or is refused.

Nothing checks that there is such a wall.  A document may name any coordinates, and a source at the
least of them is accepted although it cannot be seen from its own corner.

## Main definitions

* `Layout.LiesOn` — the sources and the frame lie on a wall.
* `Layout.declaredBytes` — what is declared for the images of all sources.

## Main statements

* `Layout.sturdy_build` — building the mosaic of a layout.
* `Layout.never_breaks` — reading a document, building its mosaic and rendering it.
-/

namespace Patchwork

open Cache (Recipe Schedule)
open Outcome

variable {σ κ : Type} [Channel κ] {format : Format}

/-- Opening an image file reads its size and changes nothing.  Its pixels may still be refused when
they are asked for. -/
theorem Making.perform_openImage (studio : Studio σ format κ) (path : String) :
    (studio.perform (openImage path)).2 = studio ∧
      Ends IsProblem (fun view =>
          studio.world.files.pictureSize? path = some (view.width, view.height) ∧
          ∀ {T I limit}, view.rasterizeAll.Sturdy T I limit fun _ => True)
        (studio.perform (openImage path)).1 := by
  unfold openImage
  have hobserve : studio.perform (Recipe.observe Workspace.files) =
      (.ok studio.world.files, studio) := rfl
  rw [Cache.Store.perform_bind, hobserve]
  dsimp only
  cases hsize : studio.world.files.pictureSize? path with
  | none => exact ⟨rfl, isProblem _⟩
  | some size =>
    obtain ⟨width, height⟩ := size
    refine ⟨rfl, rfl, fun {T I limit} => ?_⟩
    refine (Recipe.Sturdy.observe _).bind fun files _ =>
      (Recipe.Sturdy.lift (files.ends_loadImage path)).bind fun raster _ => ?_
    by_cases hchanged : raster.width ≠ width ∨ raster.height ≠ height
    · rw [if_pos hchanged]
      exact isProblem _
    · rw [if_neg hchanged]
      simp only [not_or, not_not] at hchanged
      obtain ⟨rfl, rfl⟩ := hchanged
      change Recipe.Sturdy T I limit _ (if raster.bounds = raster.bounds then _ else _)
      rw [if_pos rfl]
      trivial

namespace Layout

variable {schedule : Schedule} {root : String}

/-- The size of the image of a source, if it can be read. -/
def Source.size? (files : Files) (root : String) (s : Source) : Option (Nat × Nat) :=
  match RelPath.clean s.path with
  | .error _ => none
  | .ok path => files.pictureSize? (Files.join root path)

/-- The sources that can be read, and the frame, lie on a wall. -/
structure LiesOn (files : Files) (root : String) (l : Layout) (wall : Rect) : Prop where
  /-- It is one. -/
  isWall : wall.IsWall
  /-- Each source lies there. -/
  sources : ∀ s ∈ l.sources, ∀ width height, s.size? files root = some (width, height) →
    (⟨s.x, s.y, width, height⟩ : Rect).LiesOn wall
  /-- So does the frame. -/
  frame : ∀ frame, l.frame = some frame → frame.LiesOn wall

/-- The bytes that are declared for the images of some sources. -/
def declaredBytes (format : Format) (κ : Type) [Channel κ] (files : Files) (root : String)
    (sources : List Source) : Nat :=
  (sources.map fun s => (s.size? files root).elim 0 fun (width, height) =>
    Composite.declaredBytes format κ width height).sum

variable {wall : Rect} {c : Composite} {studio : Studio σ format κ}

/-- Adding a source of a layout does not break. -/
theorem sturdy_addSource (C : c.Sturdy wall studio) (source : Source)
    (hplace : ∀ width height, source.size? studio.world.files root = some (width, height) →
      (⟨source.x, source.y, width, height⟩ : Rect).LiesOn wall)
    (hroom : studio.declared + declaredBytes format κ studio.world.files root [source] ≤ wordMax) :
    Ends IsProblem (fun added => added.1.Sturdy wall added.2 ∧
        added.2.world.files = studio.world.files ∧ added.2.declared = studio.declared +
          declaredBytes format κ studio.world.files root [source])
      (addSource root c studio source).1 := by
  unfold addSource
  cases hpath : RelPath.clean source.path with
  | error cause => exact isProblem _
  | ok path =>
    obtain ⟨hstudio, hview⟩ := Making.perform_openImage studio (Files.join root path)
    dsimp only
    generalize studio.perform (Making.openImage (Files.join root path)) = opened at *
    obtain ⟨answer, after⟩ := opened
    obtain rfl : after = studio := hstudio
    cases answer with
    | error cause => exact hview
    | ok view =>
      obtain ⟨hpicture, hpixels⟩ := hview
      have hsize : source.size? after.world.files root = some (view.width, view.height) := by
        simp only [Source.size?, hpath, hpicture]
      have hbytes : declaredBytes format κ after.world.files root [source] =
          Composite.declaredBytes format κ view.width view.height := by
        simp [declaredBytes, hsize]
      rw [hbytes] at hroom ⊢
      refine (Composite.sturdy_insert C hpixels (hplace _ _ hsize) hroom).bind
        fun added ⟨hsturdy, hworld, hdeclared⟩ => ⟨hsturdy, ?_, hdeclared⟩
      exact congrArg Workspace.files hworld

/-- **Assembling a mosaic** does not break: by induction over the sources that are left, for a
mosaic that never breaks and room for what they declare. -/
theorem sturdy_assemble {files : Files} {frame : Option Rect}
    (hframe : ∀ r, frame = some r → r.LiesOn wall) (C : c.Sturdy wall studio)
    (hfiles : studio.world.files = files) {sources : List Source}
    (hplaces : ∀ s ∈ sources, ∀ width height, s.size? files root = some (width, height) →
      (⟨s.x, s.y, width, height⟩ : Rect).LiesOn wall)
    (hroom : studio.declared + declaredBytes format κ files root sources ≤ wordMax) :
    Ends IsProblem (·.Sturdy wall (assemble schedule root frame c studio sources).2)
      (assemble schedule root frame c studio sources).1 := by
  subst hfiles
  induction sources generalizing c studio with
  | nil =>
    have hprepare := Composite.sturdy_prepare C schedule hframe
    unfold assemble
    generalize studio.perform (c.prepare schedule frame) = prepared at *
    obtain ⟨answer, after⟩ := prepared
    cases answer with
    | error cause => exact hprepare
    | ok c => exact hprepare
  | cons source sources ih =>
    obtain ⟨hsource, hsources⟩ := List.forall_mem_cons.mp hplaces
    have hsum : declaredBytes format κ studio.world.files root (source :: sources) =
        declaredBytes format κ studio.world.files root [source] +
          declaredBytes format κ studio.world.files root sources := by
      simp [declaredBytes]
    rw [hsum] at hroom
    have hadd := sturdy_addSource C source hsource (by omega)
    unfold assemble
    generalize addSource root c studio source = added at *
    obtain ⟨answer, after⟩ := added
    cases answer with
    | error cause => exact hadd
    | ok added =>
      obtain ⟨c', studio'⟩ := added
      obtain ⟨hsturdy, hfiles, hdeclared⟩ := hadd
      dsimp only at hsturdy hfiles hdeclared ⊢
      refine ih hsturdy ?_ ?_
      · rw [hfiles]
        exact hsources
      · rw [hfiles, hdeclared]
        omega

/-- Checking a layout does not break. -/
theorem ends_validate (l : Layout) : Ends IsProblem (fun _ => True) l.validate := by
  unfold validate
  by_cases hempty : l.sources.isEmpty
  · rw [if_pos hempty]
    exact isProblem _
  rw [if_neg hempty]
  refine Ends.bind (P := fun _ => True) ((Logic.plain IsProblem).forM fun entry _ => ?_)
    fun _ _ => ?_
  · dsimp only
    split
    · trivial
    · exact isProblem _
  · split
    · split
      · exact isProblem _
      · trivial
    · trivial

/-- **Building the mosaic of a layout** on a wall, with a new cache, does not break. -/
theorem sturdy_build {l : Layout} {world : Workspace σ κ} (budget : Nat) {store : Nat}
    (hstore : store < world.maskStores.size) (hlies : l.LiesOn world.files root wall)
    (hroom : declaredBytes format κ world.files root l.sources ≤ wordMax) :
    let studio : Studio σ format κ := ((Cache.Store.empty world).newCache budget).2
    Ends IsProblem (·.Sturdy wall (l.build schedule root 0 store studio).2)
      (l.build schedule root 0 store studio).1 := by
  intro studio
  have hchecked := l.ends_validate
  obtain ⟨C, hfiles, hdeclared⟩ : (Composite.create studio 0 store _).1.Sturdy wall _ ∧ _ :=
    Composite.sturdy_create hlies.isWall hstore budget (l.options.getD .standard)
  unfold build
  generalize Composite.create studio 0 store (l.options.getD .standard) = created at *
  obtain ⟨c, studio'⟩ := created
  dsimp only at C hfiles hdeclared ⊢
  cases hvalid : l.validate with
  | error cause =>
    rw [hvalid] at hchecked
    exact hchecked
  | ok _ =>
    exact sturdy_assemble hlies.frame C hfiles hlies.sources (by rwa [hdeclared, Nat.zero_add])

/-- All that a viewer of a mosaic sees. -/
def sight (c : Composite) (studio : Studio σ format κ) : Outcome (Raster (Pixel format κ)) :=
  (studio.perform (c.render (Rect.ofSize c.columns c.rows))).1

/-- **No document breaks the mosaic of its layout** as long as what it places lies on a wall, which
may be anywhere in the range of coordinates but at its near end, and as large as memory can hold:
reading it, building the mosaic with a new cache and rendering all of it each succeed or are
refused, whatever the files are and in whatever order the masks are made. -/
theorem never_breaks (format : Format) (os : Json.Octets) (schedule : Schedule) (root : String)
    (world : Workspace σ κ) (budget : Nat) {store : Nat} (hstore : store < world.maskStores.size) :
    Ends IsProblem (fun l => ∀ wall : Rect, l.LiesOn world.files root wall →
        declaredBytes format κ world.files root l.sources ≤ wordMax →
          let studio : Studio σ format κ := ((Cache.Store.empty world).newCache budget).2
          Ends IsProblem (fun c =>
              Ends IsProblem (·.Fills (Rect.ofSize c.columns c.rows))
                (sight c (l.build schedule root 0 store studio).2))
            (l.build schedule root 0 store studio).1)
      (parse os) := by
  unfold parse
  cases (Json.parse os).bind ofJson? with
  | none => exact isProblem _
  | some l =>
    refine l.ends_validate.bind fun _ _ wall hlies hroom => ?_
    refine (sturdy_build budget hstore hlies hroom).imp fun c C => ?_
    obtain ⟨T, hpromised, hstudio⟩ := C
    exact Composite.sturdy_render ⟨T, hpromised, hstudio⟩
      (hpromised.viewFrame.roomy_ofSize hpromised.isWall)

/-- The layout of one image at a column. -/
def lone (x : Int) : Layout := ⟨[⟨"a.png", x, 0⟩], none, none⟩

/-- A white pixel for the layout. -/
def easel : Workspace Unit Float32 :=
  ⟨⟨[("a.png", .file (.picture ⟨.l8, 1, 1, #[255]⟩))]⟩, #[MaskStore.empty], #[], #[], ()⟩

/-- The mosaic of the layout, built in an empty cache. -/
def easelBuild (x : Int) : Outcome Composite × Studio Unit .gray Float32 :=
  (lone x).build .inOrder "" 0 0 ((Cache.Store.empty easel).newCache 64).2

/-- The image at the least column but one is rendered. -/
theorem never_breaks_lone :
    parse (Json.octets (lone (-2147483647)).text) = .ok (lone (-2147483647)) ∧
    ∃ c raster, (easelBuild (-2147483647)).1 = .ok c ∧
      sight c (easelBuild (-2147483647)).2 = .ok raster ∧
      raster.Fills (Rect.ofSize c.columns c.rows) := by
  have hparse : parse (Json.octets (lone (-2147483647)).text) = .ok (lone (-2147483647)) := by
    decide +kernel
  have hsize : (⟨"a.png", -2147483647, 0⟩ : Source).size? easel.files "" = some (1, 1) := by
    decide +kernel
  have hlies : (lone (-2147483647)).LiesOn easel.files "" ⟨-2147483647, 0, 1, 1⟩ := by
    refine ⟨by decide, List.forall_mem_singleton.mpr fun width height h => ?_, nofun⟩
    cases hsize.symm.trans h
    decide
  have hroom : declaredBytes .gray Float32 easel.files "" (lone (-2147483647)).sources ≤
      wordMax := by decide +kernel
  -- the document is read once and for all
  generalize Json.octets (lone (-2147483647)).text = os at *
  have hends := never_breaks .gray os .inOrder "" easel 64 Nat.zero_lt_one
  rw [hparse, ends_ok] at hends
  have hbuilt := hends _ hlies hroom
  change Ends IsProblem (fun c : Composite =>
    Ends IsProblem (·.Fills (Rect.ofSize c.columns c.rows))
      (sight c (easelBuild (-2147483647)).2)) (easelBuild (-2147483647)).1 at hbuilt
  obtain ⟨raster, hanswer⟩ := exists_eq_ok (x := (easelBuild (-2147483647)).1 >>= fun c =>
    sight c (easelBuild (-2147483647)).2) (by decide +kernel)
  obtain ⟨c, hc, hraster⟩ := bind_eq_ok_iff.mp hanswer
  rw [hc, ends_ok, hraster] at hbuilt
  exact ⟨hparse, c, raster, hc, hraster, hbuilt⟩

/-- **A document breaks the mosaic of its layout**: its only image lies at the least column, and no
coordinate says how far that is from there to the origin. -/
theorem breaks_at_lowest :
    parse (Json.octets (lone Coordinate.lowest).text) = .ok (lone Coordinate.lowest) ∧
    (⟨"a.png", Coordinate.lowest, 0⟩ : Source).size? easel.files "" = some (1, 1) ∧
    ∃ c, (easelBuild Coordinate.lowest).1 = .ok c ∧
      sight c (easelBuild Coordinate.lowest).2 = .error (.fault .overflow) := by
  refine ⟨by decide +kernel, by decide +kernel, ?_⟩
  obtain ⟨c, hc⟩ := exists_eq_ok (x := (easelBuild Coordinate.lowest).1) (by decide +kernel)
  have hbreaks : ((easelBuild Coordinate.lowest).1 >>= fun c =>
      (sight c (easelBuild Coordinate.lowest).2).map fun _ => ()) = .error (.fault .overflow) := by
    decide +kernel
  rw [hc] at hbreaks
  change (sight c _).map _ = _ at hbreaks
  refine ⟨c, hc, ?_⟩
  cases hsight : sight c (easelBuild Coordinate.lowest).2 with
  | ok raster =>
    rw [hsight] at hbreaks
    cases hbreaks
  | error cause =>
    rw [hsight] at hbreaks
    exact congrArg _ (Except.error.inj hbreaks)

end Layout

end Patchwork
