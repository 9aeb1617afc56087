import Patchwork.Raster.Basic

/-!
# Pictures of bytes

A `Picture` is what an image file holds: eight bits per channel, colour not multiplied by coverage.
Reading one gives premultiplied pixels of any format, writing one undoes that.

## Main definitions

* `Depth`, `Picture` — the channels of a file and its bytes.
* `Picture.toRaster`, `Picture.ofRaster` — pixels from a file and back.
* `Picture.toPlane`, `Picture.ofPlane` — single-channel masks from a file and back.
-/

namespace Patchwork

/-- The channels a file stores for each pixel. -/
inductive Depth
  /-- Grey. -/
  | l8
  /-- Grey and alpha. -/
  | la8
  /-- Three colours. -/
  | rgb8
  /-- Three colours and alpha. -/
  | rgba8
  deriving DecidableEq

/-- Bytes per pixel. -/
def Depth.channels : Depth → Nat
  | l8 => 1
  | la8 => 2
  | rgb8 => 3
  | rgba8 => 4

/-- An image of eight-bit channels, row by row. -/
structure Picture where
  /-- What each pixel stores. -/
  depth : Depth
  /-- Pixels in a row. -/
  width : Nat
  /-- Number of rows. -/
  height : Nat
  /-- The channels of all pixels. -/
  bytes : Array UInt8
  deriving DecidableEq

namespace Picture

/-- Channel `c` of a pixel. -/
def byte (p : Picture) (x y c : Nat) : UInt8 :=
  p.bytes.getD ((y * p.width + x) * p.depth.channels + c) 0

/-- A pixel as red, green, blue and alpha; grey is repeated and missing alpha is full. -/
def rgba (p : Picture) (x y : Nat) : Vector UInt8 4 :=
  match p.depth with
  | .l8 => #v[p.byte x y 0, p.byte x y 0, p.byte x y 0, 255]
  | .la8 => #v[p.byte x y 0, p.byte x y 0, p.byte x y 0, p.byte x y 1]
  | .rgb8 => #v[p.byte x y 0, p.byte x y 1, p.byte x y 2, 255]
  | .rgba8 => #v[p.byte x y 0, p.byte x y 1, p.byte x y 2, p.byte x y 3]

/-- Brightness of three colours, to the nearest whole number.  The weights are the luminances of the
primaries of high-definition video under daylight, in ten millionths. -/
def brightness (red green blue : UInt8) : UInt8 :=
  UInt8.ofNat
    ((2126478 * red.toNat + 7151791 * green.toNat + 721731 * blue.toNat + 5000000) / 10000000)

/-- A pixel as grey; alpha is dropped. -/
def grey (p : Picture) (x y : Nat) : UInt8 :=
  match p.depth with
  | .l8 | .la8 => p.byte x y 0
  | .rgb8 | .rgba8 => brightness (p.byte x y 0) (p.byte x y 1) (p.byte x y 2)

variable {κ : Type} [Channel κ] {format : Format}

/-- Four straight bytes as a premultiplied pixel. -/
def premultiplied (v : Vector UInt8 4) : Pixel .rgba κ :=
  let alpha : κ := Channel.ofByte v[3]
  ⟨#v[Channel.ofByte v[0] * alpha, Channel.ofByte v[1] * alpha, Channel.ofByte v[2] * alpha, alpha]⟩

/-- A pixel as four straight bytes. -/
def straight (p : Pixel format κ) : Vector UInt8 4 :=
  let colour := p.unpremultiply.toRgba
  #v[Channel.toByte colour.red, Channel.toByte colour.green, Channel.toByte colour.blue,
    Channel.toByte p.alpha]

/-- The pixels of a picture. -/
def toRaster (p : Picture) : Raster (Pixel format κ) :=
  Raster.tabulate p.width p.height fun x y => Pixel.ofRgba (premultiplied (p.rgba x y))

/-- Pixels as a picture with colours and alpha. -/
def ofRaster (r : Raster (Pixel format κ)) : Picture :=
  ⟨.rgba8, r.width, r.height, r.data.flatMap fun p => (straight p).toArray⟩

/-- The grey values of a picture. -/
def toPlane (p : Picture) : Raster κ :=
  Raster.tabulate p.width p.height fun x y => Channel.ofByte (p.grey x y)

/-- A plane as a grey picture. -/
def ofPlane (r : Raster κ) : Picture :=
  ⟨.l8, r.width, r.height, r.data.map Channel.toByte⟩

end Picture

end Patchwork
