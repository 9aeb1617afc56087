import Patchwork.Proofs.Channel.Bytes
import Patchwork.Proofs.Files
import Patchwork.Proofs.Raster.Peek

/-!
# Pictures survive loading and saving

Loading multiplies each colour by its coverage and saving divides by it again.  In single precision
the bytes come back whatever the coverage is, except that a pixel without coverage has no colour
left.  So a saved picture shows what the loaded one showed, and loads as the same pixels.

## Main definitions

* `Picture.seen` — four bytes as they can be seen.

## Main statements

* `Picture.straight_premultiplied` — one pixel there and back.
* `Picture.rgba_ofRaster`, `Picture.toRaster_ofRaster` — all pixels there and back.
* `Files.saved_picture_comes_back` — the same through files.
-/

namespace Patchwork

open Channel

namespace Picture

/-- Four bytes as they can be seen: without coverage there is no colour. -/
def seen (v : Vector UInt8 4) : Vector UInt8 4 := if v[3]? = some 0 then .replicate 4 0 else v

theorem seen_eq {v : Vector UInt8 4} {coverage : UInt8} (h : v[3]? = some coverage) :
    seen v = if coverage = 0 then #v[0, 0, 0, 0] else v := by
  simp only [seen, h, Option.some.injEq]
  rfl

/-! ## One pixel -/

theorem eq_of_four {v : Vector UInt8 4} {a b c d : UInt8} (ha : v[0]? = some a)
    (hb : v[1]? = some b) (hc : v[2]? = some c) (hd : v[3]? = some d) : v = #v[a, b, c, d] := by
  refine Vector.ext fun i hi => ?_
  apply Option.some.inj
  rw [← Vector.getElem?_eq_getElem hi]
  obtain rfl | rfl | rfl | rfl : i = 0 ∨ i = 1 ∨ i = 2 ∨ i = 3 := by omega
  · exact ha
  · exact hb
  · exact hc
  · exact hd

section Straight

variable {κ : Type} [Channel κ] (p : Pixel .rgba κ)

theorem straight_eq : straight p = #v[toByte p.unpremultiply.red, toByte p.unpremultiply.green,
    toByte p.unpremultiply.blue, toByte p.alpha] := rfl

variable {p}

/-- The bytes of a pixel that covers something. -/
theorem straight_of_covered (h : 0 < p.alpha ∧ isFinite p.alpha) :
    straight p = #v[toByte (p.red * (1 / p.alpha)), toByte (p.green * (1 / p.alpha)),
      toByte (p.blue * (1 / p.alpha)), toByte p.alpha] := by
  have hfreed : p.unpremultiply = scale p (1 / p.alpha) := if_pos h
  have hred : (scale p (1 / p.alpha)).red = p.red * (1 / p.alpha) := Vector.getElem_map _ _
  have hgreen : (scale p (1 / p.alpha)).green = p.green * (1 / p.alpha) := Vector.getElem_map _ _
  have hblue : (scale p (1 / p.alpha)).blue = p.blue * (1 / p.alpha) := Vector.getElem_map _ _
  rw [straight_eq, hfreed, hred, hgreen, hblue]

/-- The bytes of a pixel that covers nothing. -/
theorem straight_of_uncovered (h : ¬ (0 < p.alpha ∧ isFinite p.alpha)) :
    straight p = #v[toByte (0 : κ), toByte (0 : κ), toByte (0 : κ), toByte p.alpha] := by
  have hclear : p.unpremultiply = 0 := if_neg h
  have hred : (0 : Pixel .rgba κ).red = 0 := Vector.getElem_replicate _
  have hgreen : (0 : Pixel .rgba κ).green = 0 := Vector.getElem_replicate _
  have hblue : (0 : Pixel .rgba κ).blue = 0 := Vector.getElem_replicate _
  rw [straight_eq, hclear, hred, hgreen, hblue]

end Straight

/-- **A pixel comes back** from premultiplied single precision, as far as it can be seen. -/
theorem straight_premultiplied (v : Vector UInt8 4) :
    straight (premultiplied v : Pixel .rgba Float32) = seen v := by
  have halpha : (premultiplied v : Pixel .rgba Float32).alpha = ofByte v[3] := rfl
  have hlast : v[3]? = some v[3] := Vector.getElem?_eq_getElem (by decide)
  by_cases h : v[3] = 0
  · have hnone : ¬ ((0 : Float32) < ofByte v[3] ∧ isFinite (ofByte v[3] : Float32) = true) := by
      have hzero : (ofByte 0 : Float32) = 0 := rfl
      rw [h, hzero]
      exact fun hpos => absurd hpos.1 (by decide)
    rw [straight_of_uncovered (halpha ▸ hnone), halpha, h, seen_eq hlast, if_pos h]
    rfl
  · let alpha : Float32 := ofByte v[3]
    have hfreed : ∀ i (hi : i < 4), v[i]? = some (toByte (ofByte v[i] * alpha * (1 / alpha))) :=
      fun i hi => by rw [Single.toByte_freed _ h, Vector.getElem?_eq_getElem hi]
    rw [straight_of_covered (halpha ▸ Single.ofByte_pos h), halpha, Single.toByte_ofByte,
      seen_eq hlast, if_neg h]
    exact (eq_of_four (hfreed 0 (by decide)) (hfreed 1 (by decide)) (hfreed 2 (by decide))
      hlast).symm

/-- What cannot be seen makes no difference to the pixel. -/
theorem premultiplied_seen (v : Vector UInt8 4) :
    (premultiplied (seen v) : Pixel .rgba Float32) = premultiplied v := by
  rw [seen_eq (Vector.getElem?_eq_getElem (by decide : 3 < 4))]
  split
  · next h =>
    have hclear : ∀ c : UInt8, (ofByte c : Float32) * ofByte v[3] = 0 := fun c => by
      rw [h]
      exact Single.ofByte_mul_zero c
    have hblank : (premultiplied #v[0, 0, 0, 0] : Pixel .rgba Float32) = ⟨#v[0, 0, 0, 0]⟩ := rfl
    have hpixel : (premultiplied v : Pixel .rgba Float32) = ⟨#v[ofByte v[0] * ofByte v[3],
        ofByte v[1] * ofByte v[3], ofByte v[2] * ofByte v[3], ofByte v[3]]⟩ := rfl
    rw [hblank, hpixel, hclear, hclear, hclear, h]
    rfl
  · rfl

/-! ## All pixels -/

section Pixels

variable {κ : Type} [Channel κ] {format : Format} {x y : Nat}

/-- The bytes of a picture lie where its pixels do. -/
theorem rgba_ofRaster (r : Raster (Pixel format κ)) (hx : x < r.width) (hy : y < r.height) :
    (ofRaster r).rgba x y =
      straight (getElem r.data (y * r.width + x) (r.size_eq ▸ Raster.index_lt hx hy)) := by
  have hk : y * r.width + x < r.data.size := r.size_eq ▸ Raster.index_lt hx hy
  obtain ⟨k, hindex⟩ : ∃ k, y * r.width + x = k := ⟨_, rfl⟩
  simp only [hindex] at hk ⊢
  have hbyte : ∀ c < 4, (straight r.data[k])[c]? = some ((ofRaster r).byte x y c) := by
    intro c hc
    have hlt : k * 4 + c < r.data.size * 4 := by omega
    have hpixel : (k * 4 + c) / 4 = k := by omega
    have hchannel : (k * 4 + c) % 4 = c := by omega
    have hflat : ((Vector.mk r.data rfl).flatMap straight)[k * 4 + c] =
        (straight r.data[k])[c] := by
      rw [Vector.getElem_flatMap]
      simp only [hpixel, hchannel, Vector.getElem_mk]
    have hread : (ofRaster r).byte x y c =
        ((Vector.mk r.data rfl).flatMap straight).toArray.getD ((y * r.width + x) * 4 + c) 0 := rfl
    rw [hread, hindex, Array.getD, dif_pos (by rwa [Vector.size_toArray]),
      Vector.getElem?_eq_getElem hc, ← hflat]
    rfl
  exact (eq_of_four (hbyte 0 (by decide)) (hbyte 1 (by decide)) (hbyte 2 (by decide))
    (hbyte 3 (by decide))).symm

theorem size_ofRaster (r : Raster (Pixel format κ)) :
    (ofRaster r).bytes.size = r.width * r.height * 4 := by
  have hflat : (ofRaster r).bytes = ((Vector.mk r.data rfl).flatMap straight).toArray := rfl
  rw [hflat, Vector.size_toArray, r.size_eq]

/-- The pixels of a picture are those of its bytes. -/
theorem data_toRaster (p : Picture) (hx : x < p.width)
    (h : y * p.width + x < (p.toRaster : Raster (Pixel format κ)).data.size) :
    (p.toRaster : Raster (Pixel format κ)).data[y * p.width + x] =
      Pixel.ofRgba (premultiplied (p.rgba x y)) := by
  have hrow : (y * p.width + x) / p.width = y := by
    rw [Nat.mul_comm, Nat.mul_add_div (by omega), Nat.div_eq_of_lt hx, Nat.add_zero]
  have hcolumn : (y * p.width + x) % p.width = x := by
    rw [Nat.mul_comm, Nat.mul_add_mod, Nat.mod_eq_of_lt hx]
  simp only [toRaster, Raster.tabulate, Array.getElem_ofFn, hrow, hcolumn]

end Pixels

/-- **A picture comes back** from premultiplied single precision, as far as it can be seen. -/
theorem rgba_ofRaster_toRaster (p : Picture) {x y : Nat} (hx : x < p.width) (hy : y < p.height) :
    (ofRaster (p.toRaster : Raster (Pixel .rgba Float32))).rgba x y = seen (p.rgba x y) := by
  rw [rgba_ofRaster _ hx hy, ← straight_premultiplied]
  exact congrArg straight (data_toRaster p hx _)

/-- The picture that came back has the same pixels. -/
theorem toRaster_ofRaster_toRaster (p : Picture) :
    (ofRaster (p.toRaster : Raster (Pixel .rgba Float32))).toRaster =
      (p.toRaster : Raster (Pixel .rgba Float32)) := by
  refine Raster.tabulate_congr fun x y hx hy => ?_
  rw [rgba_ofRaster_toRaster p hx hy, premultiplied_seen]

end Picture

namespace Files

open Picture

/-- **A saved picture comes back.**  An image file with pixels is loaded, whatever its colours and
coverages are.  Saving the loaded pixels writes one picture of the same size, which agrees with the
file at every pixel with coverage and is clear at every other; this succeeds exactly where a file
can be written.  The file that is left holds that picture, and if it is named as an image it loads
as the same pixels, bit by bit. -/
theorem saved_picture_comes_back (files : Files) (source : String) (p : Picture)
    (hsource : files.picture? source = some p) (hwidth : 1 ≤ p.width) (hheight : 1 ≤ p.height) :
    ∃ image : Raster (Pixel .rgba Float32), files.loadImage source = .ok image ∧
      ∃ saved : Picture, saved.depth = .rgba8 ∧ saved.width = p.width ∧
        saved.height = p.height ∧ saved.bytes.size = p.width * p.height * 4 ∧
        (∀ x < p.width, ∀ y < p.height,
          saved.rgba x y = if (p.rgba x y)[3] = 0 then #v[0, 0, 0, 0] else p.rgba x y) ∧
        ∀ target,
          ((∃ written, files.saveImage target image = (.ok (), written)) ↔ files.Writable target) ∧
          ∀ written, files.saveImage target image = (.ok (), written) →
            written.read? target = some (.picture saved) ∧
            (isImageName target → written.loadImage target = .ok image) := by
  have hsides : (ofRaster (p.toRaster : Raster (Pixel .rgba Float32))).width ≠ 0 ∧
      (ofRaster (p.toRaster : Raster (Pixel .rgba Float32))).height ≠ 0 :=
    ⟨Nat.ne_of_gt hwidth, Nat.ne_of_gt hheight⟩
  have hdeliver : ∀ target, files.saveImage target (p.toRaster : Raster (Pixel .rgba Float32)) =
      files.deliver target (.picture (ofRaster (p.toRaster : Raster (Pixel .rgba Float32)))) :=
    fun _ => if_pos hsides
  refine ⟨p.toRaster, ?_, ofRaster (p.toRaster : Raster (Pixel .rgba Float32)), rfl, rfl, rfl,
    size_ofRaster _, fun x hx y hy => ?_, fun target => ⟨?_, ?_⟩⟩
  · rw [loadImage, hsource]
  · rw [rgba_ofRaster_toRaster p hx hy]
    exact seen_eq (Vector.getElem?_eq_getElem (by decide))
  · rw [hdeliver]
    exact exists_deliver_iff
  · intro written hwritten
    rw [hdeliver] at hwritten
    have hread := read?_deliver hwritten
    refine ⟨hread, fun hname => ?_⟩
    have hpicture : written.picture? target =
        some (ofRaster (p.toRaster : Raster (Pixel .rgba Float32))) := by
      rw [picture?, if_pos hname, hread]
    rw [loadImage, hpicture]
    exact congrArg Except.ok (toRaster_ofRaster_toRaster p)

/-- A faint colour beside a pixel without coverage, saved into a directory that has to be made. -/
theorem saved_picture_comes_back_faint :
    ∃ (files : Files) (p : Picture), files.picture? "in.png" = some p ∧ 1 ≤ p.width ∧
      1 ≤ p.height ∧ p.bytes = #[200, 3, 90, 1, 9, 9, 9, 0] ∧
      ∃ (image : Raster (Pixel .rgba Float32)) (written : Files),
        files.loadImage "in.png" = .ok image ∧
        files.saveImage "made/out.png" image = (.ok (), written) ∧
        written.loadImage "made/out.png" = .ok image := by
  obtain ⟨p, hp⟩ : ∃ p : Picture, p = ⟨.rgba8, 2, 1, #[200, 3, 90, 1, 9, 9, 9, 0]⟩ := ⟨_, rfl⟩
  obtain ⟨files, hfiles⟩ : ∃ files : Files, files = ⟨[("in.png", .file (.picture p))]⟩ := ⟨_, rfl⟩
  have hsource : files.picture? "in.png" = some p := by
    subst hfiles hp
    decide +kernel
  have hsides : 1 ≤ p.width ∧ 1 ≤ p.height := by
    subst hp
    decide
  have hwritable : files.Writable "made/out.png" := by
    subst hfiles hp
    exact ⟨_, ["made", "out.png"], Prod.ext (by decide +kernel) rfl, by decide +kernel,
      by decide +kernel⟩
  have hname : isImageName "made/out.png" = true := by decide +kernel
  obtain ⟨image, hload, saved, -, -, -, -, -, hsaved⟩ :=
    saved_picture_comes_back files "in.png" p hsource hsides.1 hsides.2
  obtain ⟨written, hwritten⟩ := (hsaved _).1.mpr hwritable
  exact ⟨files, p, hsource, hsides.1, hsides.2, by rw [hp], image, written, hload, hwritten,
    ((hsaved _).2 _ hwritten).2 hname⟩

end Files

end Patchwork
