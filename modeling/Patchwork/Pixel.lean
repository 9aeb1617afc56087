import Patchwork.Channel

/-!
# Pixels

A pixel is a vector of channel values in one of four formats.  In the formats with alpha the last
channel is alpha and the others are multiplied by it, so adding pixels and scaling them acts on
light and coverage alike.

What a raster holds is a `Cell`: something that can be added, subtracted, scaled and measured in
bytes.  Pixels of every format are cells, and so is a single channel value, which is what the
planes of alpha, weight and distance are made of.

## Main definitions

* `Format`, `Pixel` — the formats and their pixels.
* `Cell` — what a raster holds.
* `Pixel.alpha`, `Pixel.unpremultiply`, `Pixel.layer` — coverage, colour without it, and layering.
* `Pixel.ofRgba`, `Pixel.toRgba` — conversion through the largest format.
-/

namespace Patchwork

/-- The channels of a pixel. -/
inductive Format
  /-- Intensity. -/
  | gray
  /-- Intensity and alpha. -/
  | grayAlpha
  /-- Three colours. -/
  | rgb
  /-- Three colours and alpha. -/
  | rgba
  deriving DecidableEq

/-- Number of channels, alpha included. -/
def Format.channels : Format → Nat
  | gray => 1
  | grayAlpha => 2
  | rgb => 3
  | rgba => 4

/-- The last channel is alpha. -/
def Format.hasAlpha : Format → Bool
  | gray => false
  | grayAlpha => true
  | rgb => false
  | rgba => true

/-- One value per channel. -/
structure Pixel (format : Format) (κ : Type) where
  /-- The values in order, alpha last. -/
  channels : Vector κ format.channels

/-- What a raster holds: values that form sums and can be scaled by a channel value. -/
class Cell (κ : outParam Type) (α : Type) extends Zero α, Add α, Sub α where
  /-- The cell with every value multiplied. -/
  scale : α → κ → α
  /-- Bytes that one cell takes. -/
  bytes : Nat

export Cell (scale)

variable {κ : Type} [Channel κ] {format : Format}

/-- A channel value is four bytes wide. -/
instance : Cell κ κ where
  scale c s := c * s
  bytes := 4

namespace Pixel

/-- Every channel has one value. -/
def replicate (v : κ) : Pixel format κ := ⟨Vector.replicate _ v⟩

instance : Zero (Pixel format κ) := ⟨replicate 0⟩

instance : Add (Pixel format κ) := ⟨fun p q => ⟨p.channels.zipWith (· + ·) q.channels⟩⟩

instance : Sub (Pixel format κ) := ⟨fun p q => ⟨p.channels.zipWith (· - ·) q.channels⟩⟩

instance : Cell κ (Pixel format κ) where
  scale p s := ⟨p.channels.map (· * s)⟩
  bytes := 4 * format.channels

@[simp] theorem channels_zero : (0 : Pixel format κ).channels = Vector.replicate _ 0 := rfl

@[simp] theorem channels_add (p q : Pixel format κ) :
    (p + q).channels = p.channels.zipWith (· + ·) q.channels := rfl

@[simp] theorem channels_sub (p q : Pixel format κ) :
    (p - q).channels = p.channels.zipWith (· - ·) q.channels := rfl

@[simp] theorem channels_scale (p : Pixel format κ) (s : κ) :
    (scale p s).channels = p.channels.map (· * s) := rfl

/-- Equal channel by channel, as values compare. -/
def same (p q : Pixel format κ) : Bool :=
  (p.channels.zipWith (· == ·) q.channels).all id

/-- Coverage; formats without alpha cover fully. -/
def alpha (p : Pixel format κ) : κ :=
  match format, p with
  | .gray, _ => 1
  | .grayAlpha, p => p.channels[1]
  | .rgb, _ => 1
  | .rgba, p => p.channels[3]

/-- Every channel is a number. -/
def isFinite (p : Pixel format κ) : Bool := p.channels.all Channel.isFinite

/-- The pixel, or zero when some channel is no number. -/
def sanitized (p : Pixel format κ) : Pixel format κ := if p.isFinite then p else 0

/-- Colour without coverage: alpha becomes one.  A pixel that covers nothing becomes zero, and a
format without alpha is left alone. -/
def unpremultiply (p : Pixel format κ) : Pixel format κ :=
  if format.hasAlpha then
    if 0 < p.alpha ∧ Channel.isFinite p.alpha then scale p (1 / p.alpha) else 0
  else p

/-- `above` laid over `below`, which shows through what `above` leaves uncovered.  Without alpha
nothing shows through. -/
def layer (below above : Pixel format κ) : Pixel format κ :=
  if format.hasAlpha then scale below (1 - above.alpha) + above else above

/-- The first colour of the largest format. -/
def red (p : Pixel .rgba κ) : κ := p.channels[0]

/-- The second colour of the largest format. -/
def green (p : Pixel .rgba κ) : κ := p.channels[1]

/-- The third colour of the largest format. -/
def blue (p : Pixel .rgba κ) : κ := p.channels[2]

/-- Brightness of a colour pixel. -/
def luma (p : Pixel .rgba κ) : κ :=
  (0.299 : κ) * p.red + (0.587 : κ) * p.green + (0.114 : κ) * p.blue

/-- The pixel in the largest format; grey is repeated and missing alpha is full. -/
def toRgba (p : Pixel format κ) : Pixel .rgba κ :=
  match format, p with
  | .gray, p => ⟨#v[p.channels[0], p.channels[0], p.channels[0], 1]⟩
  | .grayAlpha, p => ⟨#v[p.channels[0], p.channels[0], p.channels[0], p.channels[1]]⟩
  | .rgb, p => ⟨#v[p.channels[0], p.channels[1], p.channels[2], 1]⟩
  | .rgba, p => p

/-- The pixel in another format; colours become brightness, and alpha is dropped where there is no
room for it. -/
def ofRgba (p : Pixel .rgba κ) : Pixel format κ :=
  match format with
  | .gray => ⟨#v[p.luma]⟩
  | .grayAlpha => ⟨#v[p.luma, p.alpha]⟩
  | .rgb => ⟨#v[p.red, p.green, p.blue]⟩
  | .rgba => p

end Pixel

end Patchwork
