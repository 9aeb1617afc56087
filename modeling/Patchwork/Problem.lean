import Patchwork.Rect.Basic

/-!
# What can be wrong with a request

A `Problem` is the cause of a refused request, sorted by who can mend it: the caller gave a wrong
value (`Invalid`), a recipe for an intermediate image did not deliver (`Undelivered`), a file could
not be used (`Blocked`).  `Problem.message` holds all wording; nothing else in the library builds
error text.

## Main definitions

* `Invalid`, `Undelivered`, `Blocked` — the causes.
* `Problem` — a cause with its family.
* `Problem.message` — the sentence shown for it.
-/

namespace Patchwork

/-- Why a source path of a layout is refused. -/
inductive BadPath
  /-- It starts at the root. -/
  | absolute
  /-- It has no characters. -/
  | empty
  /-- It climbs to a parent directory. -/
  | climbing
  /-- Nothing is left after dropping empty and `.` parts. -/
  | nameless
  deriving DecidableEq

/-- A wrong value, option or order of calls. -/
inductive Invalid
  /-- Free text from the caller's own checks. -/
  | because (text : String)
  /-- A source path is not a clean relative path. -/
  | path (cause : BadPath)
  /-- The number of pixels of a raster does not fit a machine word. -/
  | rasterOverflow
  /-- A raster was given too many or too few pixels. -/
  | pixelCount (width height given : Nat)
  /-- A raster does not have the size of the place it is put at. -/
  | misplaced (frame : Rect) (width height : Nat)
  /-- A pyramid without levels was asked for. -/
  | noLevels
  /-- A source number is out of range. -/
  | noSource (index : Nat)
  /-- Sources are fixed once a composite is prepared. -/
  | lateSource
  /-- A source without pixels. -/
  | emptySource (x y : Int)
  /-- A composite is prepared once. -/
  | preparedTwice
  /-- A composite without sources cannot be prepared. -/
  | noSources
  /-- The frame asked for holds no pixel. -/
  | emptyFrame (frame : Rect)
  /-- A pyramid was asked for before the frame was fixed. -/
  | unprepared
  /-- A patch was asked for before the frame was fixed. -/
  | earlyRender
  /-- A view was asked for before the frame was fixed. -/
  | earlyView
  /-- Tiles need an edge. -/
  | zeroTile
  /-- Rendering needs a worker. -/
  | zeroThreads
  /-- A layout without sources. -/
  | emptyLayout
  /-- The path of a layout's source is refused. -/
  | layoutPath (index : Nat) (path : String) (cause : BadPath)
  /-- The frame of a layout holds no pixel. -/
  | layoutFrame (frame : Rect)
  deriving DecidableEq

/-- An intermediate image that could not be made. -/
inductive Undelivered
  /-- Free text from the recipe. -/
  | because (text : String)
  /-- A mask and its source differ in size. -/
  | maskSize (maskWidth maskHeight width height : Nat)
  /-- A distance plane and its placement differ in size. -/
  | planeSize (index width height : Nat) (placement : Rect)
  /-- A source view did not deliver its own size. -/
  | viewSize (width height expectedWidth expectedHeight : Nat)
  /-- A file changed its size after it was opened. -/
  | fileSize (path : String) (width height newWidth newHeight : Nat)
  /-- No mask is stored under this number. -/
  | noMask (index : Nat)
  /-- No mask file exists for this number. -/
  | noMaskFile (index : Nat) (path : String)
  deriving DecidableEq

/-- What was being done when the file system or a file's content stood in the way. -/
inductive Blocked
  /-- Free text from an outer layer. -/
  | because (text : String)
  /-- Decoding an image held in memory. -/
  | decodeBytes
  /-- Decoding an image file. -/
  | decode (path : String)
  /-- Decoding a mask file. -/
  | decodeMask (path : String)
  /-- Reading the size of an image file. -/
  | header (path : String)
  /-- Making the directory of an output file. -/
  | outputDirectory (path : String)
  /-- Writing an image file. -/
  | write (path : String)
  /-- Making a directory for masks. -/
  | maskDirectory (path : String)
  /-- Opening a layout file. -/
  | openLayout (path : String)
  deriving DecidableEq

/-- A refused request: the family of the cause, and the cause. -/
inductive Problem
  /-- The caller gave a wrong value. -/
  | validation (cause : Invalid)
  /-- The operation is left out on purpose. -/
  | unsupported (text : String)
  /-- A single pixel of a composite was asked for. -/
  | singlePixel (x y : Int)
  /-- A recipe did not deliver. -/
  | generation (cause : Undelivered)
  /-- The cache was misused. -/
  | cache (text : String)
  /-- A recipe asked for the entry it is making. -/
  | reentrant (entry : Nat)
  /-- The caller gave up. -/
  | cancelled
  /-- A document is malformed. -/
  | serialization (text : String)
  /-- The file system or a file's content stood in the way. -/
  | other (cause : Blocked)
  deriving DecidableEq

/-- The sentence for a refused path. -/
def BadPath.message : BadPath → String
  | absolute => "source paths must be relative"
  | empty => "source path must be non-empty"
  | climbing => "source paths must not contain '..'"
  | nameless => "source path must contain a file name"

/-- The sentence after the family's name. -/
def Invalid.message : Invalid → String
  | because text => text
  | path cause => cause.message
  | rasterOverflow => "image buffer size overflow"
  | pixelCount w h given =>
    s!"image buffer expects {w * h} pixels for {w}x{h}, got {given}"
  | misplaced frame w h => s!"placement {frame.text} does not match a {w}x{h} image"
  | noLevels => "pyramid needs at least one level"
  | noSource index => s!"no source with index {index}"
  | lateSource => "sources cannot be inserted after prepare"
  | emptySource x y => s!"source at ({x}, {y}) has no pixels"
  | preparedTwice => "composite is already prepared"
  | noSources => "composite has no sources"
  | emptyFrame frame => s!"explicit composite bbox {frame.text} is empty"
  | unprepared => "composite is not prepared"
  | earlyRender => "render called before prepare"
  | earlyView => "composite must be prepared before it can be viewed"
  | zeroTile => "tile_size must be >= 1"
  | zeroThreads => "render_tiled 'threads' must be >= 1 when set"
  | emptyLayout => "layout must list at least one source"
  | layoutPath index source cause =>
    s!"layout source {index} ('{source}'): validation error: {cause.message}"
  | layoutFrame frame => s!"layout bbox {frame.text} is empty"

/-- The sentence after the family's name. -/
def Undelivered.message : Undelivered → String
  | because text => text
  | maskSize mw mh w h => s!"mask is {mw}x{mh} but source is {w}x{h}"
  | planeSize index w h placement =>
    s!"grassfire plane of source {index} is {w}x{h}, expected {placement.text}"
  | viewSize w h ew eh => s!"source view rasterized to {w}x{h}, expected {ew}x{eh}"
  | fileSize path w h nw nh =>
    s!"image '{path}' changed size on disk ({w}x{h} -> {nw}x{nh})"
  | noMask index => s!"mask for source {index} not found"
  | noMaskFile index path => s!"mask for source {index} not found at '{path}'"

/-- What was being done. -/
def Blocked.message : Blocked → String
  | because text => text
  | decodeBytes => "decode image from memory"
  | decode path => s!"decode image '{path}'"
  | decodeMask path => s!"decode mask '{path}'"
  | header path => s!"read image header '{path}'"
  | outputDirectory path => s!"create output dir '{path}'"
  | write path => s!"write png '{path}'"
  | maskDirectory path => s!"create mask dir '{path}'"
  | openLayout path => s!"open layout '{path}'"

/-- The whole sentence: the family's name, then the cause. -/
def Problem.message : Problem → String
  | validation cause => "validation error: " ++ cause.message
  | unsupported text => "unsupported operation: " ++ text
  | singlePixel x y =>
    s!"unsupported operation: pixel ({x}, {y}): composites only rasterize whole patches; " ++
      "use render()"
  | generation cause => "generation error: " ++ cause.message
  | cache text => "cache error: " ++ text
  | reentrant entry =>
    s!"cache error: re-entrant access of cache entry {entry} from its own generator"
  | cancelled => "render cancelled"
  | serialization text => "serialization error: " ++ text
  | other cause => cause.message

end Patchwork
