import Patchwork.Files.Tree

/-!
# Images in files

Loading and saving of rasters and masks.  A file is read as an image by its ending; saving writes an
image whatever the ending is, and makes the directory first.  An image without pixels cannot be
written: the attempt leaves an empty file.
-/

namespace Patchwork.Files

variable {κ : Type} [Channel κ] {format : Format}

/-- The ending marks an image file. -/
def isImageName (path : String) : Bool :=
  extension path == some "png" || extension path == some "apng"

/-- The picture of an image file. -/
def picture? (files : Files) (path : String) : Option Picture :=
  if isImageName path then
    match files.read? path with
    | some (.picture image) => some image
    | _ => none
  else none

/-- Width and height of an image file. -/
def pictureSize? (files : Files) (path : String) : Option (Nat × Nat) :=
  if isImageName path then
    match files.read? path with
    | some (.picture image) => some (image.width, image.height)
    | some (.damaged width height) => some (width, height)
    | _ => none
  else none

/-- The pixels of an image file. -/
def loadImage (files : Files) (path : String) : Outcome (Raster (Pixel format κ)) :=
  match files.picture? path with
  | some image => .ok image.toRaster
  | none => Outcome.blocked (.decode path)

/-- The grey values of an image file. -/
def loadMask (files : Files) (path : String) : Outcome (Raster κ) :=
  match files.picture? path with
  | some image => .ok image.toPlane
  | none => Outcome.blocked (.decodeMask path)

/-- Write a file after making its directory. -/
def deliver (files : Files) (path : String) (content : Content) : Outcome Unit × Files :=
  let directory := (parent path).getD ""
  match files.makeDirectory directory with
  | (false, files) => (Outcome.blocked (.outputDirectory directory), files)
  | (true, files) =>
    match files.write path content with
    | none => (Outcome.blocked (.write path), files)
    | some files => (.ok (), files)

/-- Write a picture. -/
def savePicture (files : Files) (path : String) (image : Picture) : Outcome Unit × Files :=
  if image.width ≠ 0 ∧ image.height ≠ 0 then files.deliver path (.picture image)
  else
    let (delivered, files) := files.deliver path (.bytes [])
    (delivered.bind fun _ => Outcome.blocked (.write path), files)

/-- Write the pixels of a raster with straight alpha. -/
def saveImage (files : Files) (path : String) (r : Raster (Pixel format κ)) :
    Outcome Unit × Files :=
  files.savePicture path (Picture.ofRaster r)

/-- Write a plane as a grey image. -/
def saveMask (files : Files) (path : String) (r : Raster κ) : Outcome Unit × Files :=
  files.savePicture path (Picture.ofPlane r)

end Patchwork.Files
