import Patchwork.Proofs.Composite.Stills

/-!
# Assembling mosaics of fixed images

A mosaic is assembled in a store that makes what it pledges.  Every source whose view makes the same
pixels every time adds four pledges.  Three of them hold once and for all; the bands wait for the
mosaic to be prepared, and then depend on its geometry and its masks.  Until then nobody can have
made any, so the cache holds none when that is decided.

## Main definitions

* `Workspace.course` — the mosaic stays at its stage while images are made.
* `Still.pledge` — what is pledged of a source.
* `Composite.Assembled` — how a mosaic of such sources is assembled.

## Main statements

* `Composite.pledged_enrol` — registering the images of a source.
* `Composite.Assembled.assembly` — what a mosaic that is assembled this way relies on.
-/

namespace Patchwork

open Cache (Handle Pledge Drift Recipe)
open Cache.Recipe (Mirrors mirror)
open Outcome

variable {σ κ : Type} [Channel κ] {format : Format}

/-- The mosaic stays at its stage while images are made, its masks stay, and so does what holds
throughout. -/
def Workspace.course (Fits : Workspace σ κ → Prop) (mosaic store : Nat)
    (stage : Option (Stage κ)) : Drift (Workspace σ κ) :=
  Workspace.drift (fun w => Fits w ∧ w.At mosaic store stage) store

theorem Workspace.euclidean_course (Fits : Workspace σ κ → Prop) (mosaic store : Nat)
    (stage : Option (Stage κ)) : (Workspace.course Fits mosaic store stage).Euclidean :=
  Workspace.euclidean_drift _ store

/-- A store that loads what it saved does so before the mosaic is prepared. -/
theorem KeepsMasks.saves_course {Fits : Workspace σ κ → Prop} {store : Nat}
    (K : KeepsMasks Fits store) (mosaic : Nat) :
    SavesMasks (Workspace.course Fits mosaic store none) Fits store := by
  refine ⟨fun h => ⟨h.1.1, h.2⟩, ?_⟩
  rintro w index mask ⟨hw, hwaits⟩ hbinary
  have hgeometries := w.geometries_saveMask store index mask
  exact ⟨K.save w index mask hw hbinary, (congrArg (·[mosaic]?) hgeometries).trans hwaits⟩

namespace Still

/-- What is pledged of a source whose first handle has a number. -/
def pledge (still : Still format κ) (O : Pledge (Value format κ)) (number : Nat)
    (bands : Outcome (Pyramid format κ)) : Pledge (Value format κ) :=
  (((O.add ⟨number⟩ (Value.pixels <$> still.pixels)).add ⟨number + 1⟩
    (Value.plane <$> still.alpha)).add ⟨number + 2⟩ (Value.plane <$> still.distance)).add
    ⟨number + 3⟩ (Value.pyramid <$> bands)

theorem pledge_of_old {still : Still format κ} {O : Pledge (Value format κ)} {number : Nat}
    {bands : Outcome (Pyramid format κ)} {h : Handle} {o : Outcome (Value format κ)}
    (ho : O h o) : still.pledge O number bands h o :=
  .inl (.inl (.inl (.inl ho)))

omit [Channel κ] in
/-- The frame of a mosaic. -/
def frame (stills : List (Still format κ)) : Outcome Rect :=
  stills.foldlM (fun frame still => frame.grow still.placement) .none

omit [Channel κ] in
/-- The smallest side of any source. -/
def smallestSide (stills : List (Still format κ)) : Nat :=
  stills.foldl (fun side still => min side (min still.placement.columns still.placement.rows))
    wordMax

end Still

namespace Composite

variable {Fits : Workspace σ κ → Prop} {store : Nat}
  {O : Option (Stage κ) → Pledge (Value format κ)}
  {c c' : Composite} {studio studio' : Studio σ format κ} {stills : List (Still format κ)}

/-- Registering the images of a source pledges them. -/
theorem pledged_enrol {D : Option (Stage κ) → Drift (Workspace σ κ)} {stage : Option (Stage κ)}
    (S : studio.Pledged O D stage) (hcache : c.cache = 0)
    (hD : ∀ stage w, (D stage).Fits w → w.At c.number c.maskStore stage)
    {still : Still format κ} {view : View (Making σ format κ) (Pixel format κ)}
    (hview : ∀ stage,
      View.Shown (mirror (O stage) (D stage) studio.catalogue.size) still.view view)
    (hroom : (c.enrol studio view still.placement).declared ≤ wordMax) :
    (c.enrol studio view still.placement).Pledged
      (fun stage =>
        still.pledge (O stage) studio.catalogue.size (still.bands stage c.sources.length))
      D stage := by
  let number := studio.catalogue.size
  let pixelBytes := planeBytes view.width view.height (Cell.bytes (Pixel format κ))
  let planeBytes := planeBytes view.width view.height (Cell.bytes κ)
  rw [declared_enrol] at hroom
  simp only [enrol, hcache]
  have hheld : ∀ {P : Pledge (Value format κ)} {h o}, P h o → ∀ g ∈ [h], ∃ p, P g p :=
    fun {_ _ o} ho _ hg => ⟨o, List.mem_singleton.mp hg ▸ ho⟩
  have S1 := S.insert pixelBytes (pixelsRecipe view) []
    (fun stage => mirrors_pixelsRecipe (hview stage)) (List.forall_mem_nil _) (by omega)
  -- the other images are made from one that was registered before
  have hpixels : ∀ stage, (O stage).add ⟨number⟩ (Value.pixels <$> still.pixels) ⟨number⟩
      (Value.pixels <$> still.pixels) := fun _ => .inr ⟨rfl, rfl⟩
  have S2 := S1.insert planeBytes (alphaRecipe ⟨number⟩) [⟨number⟩]
    (fun stage => mirrors_alphaRecipe (hpixels stage) (S1.lt_size stage (hpixels stage)))
    (hheld (hpixels stage)) (by simp only [Cache.Store.declared_insert]; omega)
  rw [Cache.Store.size_insert] at S2
  have S3 := S2.insert planeBytes (distanceRecipe ⟨number + 1⟩) [⟨number + 1⟩]
    (fun stage => mirrors_distanceRecipe (.inr ⟨rfl, rfl⟩) (S2.lt_size stage (.inr ⟨rfl, rfl⟩)))
    (hheld (.inr ⟨rfl, rfl⟩)) (by simp only [Cache.Store.declared_insert]; omega)
  simp only [Cache.Store.size_insert] at S3
  have S4 := S3.insert (Pyramid.estimatedBytes pixelBytes)
    (pyramidRecipe c.number c.maskStore c.sources.length still.placement ⟨number⟩) [⟨number⟩]
    (fun stage => mirrors_pyramidRecipe (hD stage) (.inl (.inl (hpixels stage)))
      (S3.lt_size stage (.inl (.inl (hpixels stage)))))
    (hheld (.inl (.inl (hpixels stage)))) (by simp only [Cache.Store.declared_insert]; omega)
  simp only [Cache.Store.size_insert] at S4
  exact S4

/-- How a mosaic of fixed images is assembled.  It starts in any store that makes what it pledges,
whatever happens to the mosaic; sources are added whose views make the same pixels every time, as
long as all declared sizes fit a machine word together; and options are set. -/
inductive Assembled (Fits : Workspace σ κ → Prop) (store : Nat) :
    (Option (Stage κ) → Pledge (Value format κ)) → Composite → Studio σ format κ →
      List (Still format κ) → Prop
  | create {O : Pledge (Value format κ)} {studio : Studio σ format κ} {options : Options}
      (S : (create studio 0 store options).2.Pledged (fun _ => O)
        (Workspace.course Fits studio.world.geometries.size store) none) :
      Assembled Fits store (fun _ => O) (create studio 0 store options).1
        (create studio 0 store options).2 []
  | insert {O : Option (Stage κ) → Pledge (Value format κ)} {c c' : Composite}
      {studio studio' : Studio σ format κ} {stills : List (Still format κ)}
      (A : Assembled Fits store O c studio stills) {still : Still format κ}
      {view : View (Making σ format κ) (Pixel format κ)}
      (hview : ∀ stage, View.Shown (mirror (O stage) (Workspace.course Fits c.number store stage)
        studio.catalogue.size) still.view view) {x y : Int}
      (hplacement : view.bounds.translate x y = .ok still.placement) {index : Nat}
      (hinsert : c.insert studio view x y = .ok (index, c', studio'))
      (hroom : studio'.declared ≤ wordMax) :
      Assembled Fits store (fun stage => still.pledge (O stage) studio.catalogue.size
        (still.bands stage c.sources.length)) c' studio' (stills ++ [still])
  | choose {O : Option (Stage κ) → Pledge (Value format κ)} {c : Composite}
      {studio : Studio σ format κ} {stills : List (Still format κ)}
      (A : Assembled Fits store O c studio stills) (options : Options) :
      Assembled Fits store O { c with options } studio stills

/-- What a mosaic of fixed images relies on before it is prepared. -/
structure Assembly (Fits : Workspace σ κ → Prop) (store : Nat)
    (O : Option (Stage κ) → Pledge (Value format κ)) (c : Composite) (studio : Studio σ format κ)
    (stills : List (Still format κ)) : Prop where
  /-- The store makes what it pledges. -/
  pledged : studio.Pledged O (Workspace.course Fits c.number store) none
  /-- What can be at hand now is pledged at every stage. -/
  persists : ∀ stage h v, (O none).promise h v → (O stage).promise h v
  /-- The images of its sources are pledged. -/
  prints : List.Forall₂ (Prints O) stills.zipIdx c.sources
  /-- Its frame is that of its sources. -/
  frame : Still.frame stills = .ok c.viewFrame
  /-- So is the smallest side. -/
  smallestSide : c.smallestSide = Still.smallestSide stills
  /-- Its cache is the only one. -/
  cache : c.cache = 0
  /-- Its masks are in the store. -/
  maskStore : c.maskStore = store

theorem Prints.mono {O' : Option (Stage κ) → Pledge (Value format κ)} {still : Still format κ × Nat}
    {source : SourceRecord} (h : Prints O still source)
    (hO : ∀ stage h o, O stage h o → O' stage h o) : Prints O' still source :=
  ⟨h.placement, fun stage => hO stage _ _ (h.alpha stage), fun stage =>
    hO stage _ _ (h.distance stage), fun stage => hO stage _ _ (h.pyramid stage)⟩

/-- The source that is registered. -/
theorem prints_numbered (O : Option (Stage κ) → Pledge (Value format κ)) (number index : Nat)
    (still : Still format κ) :
    Prints (fun stage => still.pledge (O stage) number (still.bands stage index)) (still, index)
      (numbered still.placement number) :=
  ⟨rfl, fun _ => .inl (.inl (.inr ⟨rfl, rfl⟩)), fun _ => .inl (.inr ⟨rfl, rfl⟩),
    fun _ => .inr ⟨rfl, rfl⟩⟩

/-- Bands cannot be at hand before the mosaic is prepared. -/
theorem persists_pledge (hO : ∀ stage h v, (O none).promise h v → (O stage).promise h v)
    (number index : Nat) (still : Still format κ) (stage : Option (Stage κ)) (h : Handle)
    (v : Value format κ)
    (hv : (still.pledge (O none) number (still.bands none index)).promise h v) :
    (still.pledge (O stage) number (still.bands stage index)).promise h v := by
  simp only [Still.pledge, Pledge.promise_add] at hv ⊢
  obtain ⟨⟨⟨⟨hold, hpixels⟩, halpha⟩, hdistance⟩, hbands⟩ := hv
  exact ⟨⟨⟨⟨hO stage h v hold, hpixels⟩, halpha⟩, hdistance⟩, fun heq => nomatch hbands heq⟩

/-- **What a mosaic of fixed images relies on** holds however it is assembled. -/
theorem Assembled.assembly (A : Assembled Fits store O c studio stills) :
    Assembly Fits store O c studio stills := by
  induction A with
  | create S => exact ⟨S, fun _ _ _ => id, .nil, rfl, rfl, rfl, rfl⟩
  | @insert O c c' studio studio' stills A still view hview x y hplacement index hinsert hroom ih =>
    obtain ⟨placement, viewFrame, dataFrame, hplacement', hframe, rfl, rfl⟩ :=
      exists_of_insert hinsert
    obtain rfl := Except.ok.inj (hplacement'.symm.trans hplacement)
    have hlength : stills.length = c.sources.length := by
      rw [← ih.prints.length_eq, List.length_zipIdx]
    have hstages : ∀ stage w, (Workspace.course Fits c.number store stage).Fits w →
        w.At c.number c.maskStore stage := fun stage w hw => ih.maskStore ▸ hw.2
    refine ⟨pledged_enrol ih.pledged ih.cache hstages hview hroom,
      persists_pledge ih.persists _ _ still, ?_, ?_, ?_, ih.cache, ih.maskStore⟩
    · rw [List.zipIdx_append, Nat.zero_add, hlength]
      exact List.rel_append (ih.prints.imp fun _ _ h => h.mono fun _ _ _ => Still.pledge_of_old)
        (.cons (prints_numbered O _ _ still) .nil)
    · rw [Still.frame, List.foldlM_append, ← Still.frame, ih.frame]
      exact (bind_pure _).trans hframe
    · rw [Still.smallestSide, List.foldl_append, ← Still.smallestSide, ← ih.smallestSide]
      rfl
  | choose _ _ ih => exact { ih with }

end Composite

end Patchwork
