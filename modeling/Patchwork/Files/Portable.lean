import Patchwork.Files.Tree

/-!
# Files as bytes

On a disk a picture is a portable arbitrary map: a header of lines that name its width, its height,
the number of its channels and their greatest value, and then the channels of all pixels, one byte
each.  Any other file is kept as it is.

## Main definitions

* `Picture.header` — the lines before the pixels.
* `Files.Content.encode` — the bytes of a file.
* `Files.Content.decode` — what a file with given bytes holds.
-/

namespace Patchwork

/-- The name of the channels in a header. -/
def Depth.tupleType : Depth → String
  | l8 => "GRAYSCALE"
  | la8 => "GRAYSCALE_ALPHA"
  | rgb8 => "RGB"
  | rgba8 => "RGB_ALPHA"

/-- The channels of a pixel of so many bytes. -/
def Depth.ofChannels? : Nat → Option Depth
  | 1 => some l8
  | 2 => some la8
  | 3 => some rgb8
  | 4 => some rgba8
  | _ => none

/-- The lines before the pixels. -/
def Picture.header (p : Picture) : List String :=
  ["P7", s!"WIDTH {p.width}", s!"HEIGHT {p.height}", s!"DEPTH {p.depth.channels}", "MAXVAL 255",
    s!"TUPLTYPE {p.depth.tupleType}", "ENDHDR"]

namespace Files

/-- The lines up to the one that ends a header, last first, and the bytes after it. -/
def splitHeader : List UInt8 → List Char → List String → Option (List String × List UInt8)
  | [], _, _ => none
  | b :: rest, reversed, lines =>
    if b = 10 then
      let line := String.ofList reversed.reverse
      if line = "ENDHDR" then some (lines, rest) else splitHeader rest [] (line :: lines)
    else splitHeader rest (Char.ofNat b.toNat :: reversed) lines

/-- The number that a line of a header gives to a name. -/
def headerNumber (lines : List String) (name : String) : Option Nat :=
  lines.findSome? fun line =>
    match line.splitOn " " with
    | [key, value] => if key = name then value.toNat? else none
    | _ => none

/-- The picture in some bytes, damaged when bytes of its pixels are missing. -/
def Content.picture? (bytes : List UInt8) : Option Content := do
  match ← splitHeader bytes [] [] with
  | (lines, pixels) =>
    if lines.getLast? ≠ some "P7" ∨ headerNumber lines "MAXVAL" ≠ some 255 then none
    let width ← headerNumber lines "WIDTH"
    let height ← headerNumber lines "HEIGHT"
    let depth ← Depth.ofChannels? (← headerNumber lines "DEPTH")
    let size := width * height * depth.channels
    if size = 0 then none
    else if pixels.length < size then return .damaged width height
    else return .picture ⟨depth, width, height, (pixels.take size).toArray⟩

/-- What a file with these bytes holds. -/
def Content.decode (bytes : List UInt8) : Content := (picture? bytes).getD (.bytes bytes)

/-- The bytes of a file.  Of a damaged picture nothing is left to write. -/
def Content.encode : Content → List UInt8
  | bytes data => data
  | picture image =>
    ("\n".intercalate image.header ++ "\n").toUTF8.toList ++ image.bytes.toList
  | damaged _ _ => []

end Files

end Patchwork
