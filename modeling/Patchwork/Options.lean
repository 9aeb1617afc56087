import Patchwork.Json.Record
import Patchwork.Cache.Ledger

/-!
# Options

The settings of a cache, of tiled rendering and of a mosaic, and how each is written as a record.
Every field of these records has a default.
-/

namespace Patchwork

/-- Settings of a cache. -/
structure CacheOptions where
  /-- Largest total of declared sizes. -/
  maxBytes : Nat
  deriving DecidableEq

/-- Settings of tiled rendering. -/
structure TileOptions where
  /-- Edge of the square tiles. -/
  tileSize : Nat
  /-- Number of workers, if it matters. -/
  threads : Option Nat
  deriving DecidableEq

/-- Settings of a mosaic. -/
structure Options where
  /-- Lay sources over one another instead of blending them. -/
  draft : Bool
  /-- Read transparent pixels as holes to fill. -/
  fillHoles : Bool
  /-- Take the masks that are already stored. -/
  reuseMasks : Bool
  deriving DecidableEq

namespace CacheOptions

/-- The default settings. -/
def standard : CacheOptions := ⟨Cache.Ledger.defaultBudget⟩

/-- The settings as a record. -/
def toJson (o : CacheOptions) : Json := .record [("max_bytes", .integer o.maxBytes)]

/-- The settings of a record. -/
def ofJson? (j : Json) : Option CacheOptions := do
  match ← j.fields ["max_bytes"] with
  | [maxBytes] => return ⟨← Json.optional standard.maxBytes Json.count? maxBytes⟩
  | _ => none

end CacheOptions

namespace TileOptions

/-- The default settings. -/
def standard : TileOptions := ⟨256, none⟩

/-- The settings as a record. -/
def toJson (o : TileOptions) : Json :=
  .record [("tile_size", .integer o.tileSize),
    ("threads", match o.threads with
      | some n => .integer n
      | none => .null)]

/-- The settings of a record. -/
def ofJson? (j : Json) : Option TileOptions := do
  match ← j.fields ["tile_size", "threads"] with
  | [tileSize, threads] =>
    return ⟨← Json.optional standard.tileSize Json.count? tileSize,
      ← Json.optional none (Json.nullable Json.count?) threads⟩
  | _ => none

end TileOptions

namespace Options

/-- The default settings. -/
def standard : Options := ⟨false, false, false⟩

/-- The settings as a record. -/
def toJson (o : Options) : Json :=
  .record [("draft_mode", .bool o.draft), ("fill_holes", .bool o.fillHoles),
    ("reuse_masks", .bool o.reuseMasks)]

/-- The settings of a record. -/
def ofJson? (j : Json) : Option Options := do
  match ← j.fields ["draft_mode", "fill_holes", "reuse_masks"] with
  | [draft, fillHoles, reuseMasks] =>
    return ⟨← Json.optional false Json.bool? draft, ← Json.optional false Json.bool? fillHoles,
      ← Json.optional false Json.bool? reuseMasks⟩
  | _ => none

/-- The long form of the settings in messages. -/
def describe (o : Options) : String :=
  s!"CompositeOpts \x7b draft_mode: {o.draft}, fill_holes: {o.fillHoles}, " ++
    s!"reuse_masks: {o.reuseMasks} \x7d"

end Options

end Patchwork
