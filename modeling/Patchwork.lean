import Patchwork.Main
import Patchwork.Proofs.Outcome
import Patchwork.Proofs.Rect.Exact
import Patchwork.Proofs.Rect.Sets
import Patchwork.Proofs.Raster.Peek
import Patchwork.Proofs.Raster.Plane
import Patchwork.Proofs.Raster.Region
import Patchwork.Proofs.Raster.Doubling
import Patchwork.Proofs.Patch.Footprint
import Patchwork.Proofs.Patch.Layers
import Patchwork.Proofs.Patch.Pointwise
import Patchwork.Proofs.Patch.Blend
import Patchwork.Proofs.Pyramid
import Patchwork.Proofs.Patch.Tiles
import Patchwork.Proofs.Channel.Single
import Patchwork.Proofs.Channel.Whole
import Patchwork.Proofs.Logic
import Patchwork.Proofs.Grassfire
import Patchwork.Proofs.Grassfire.Nearest
import Patchwork.Proofs.Patch.Alone
import Patchwork.Proofs.Cache.Shelf
import Patchwork.Proofs.Cache.Lru
import Patchwork.Proofs.Cache.Ranking
import Patchwork.Proofs.Cache.Refinement
import Patchwork.Proofs.Cache.Requests
import Patchwork.Proofs.Cache.Promises
import Patchwork.Proofs.Cache.Pool
import Patchwork.Proofs.Composite.Sources
import Patchwork.Proofs.Composite.Storing
import Patchwork.Proofs.Composite.Masks
import Patchwork.Proofs.Patch.Reach
import Patchwork.Proofs.Patch.Selection
import Patchwork.Proofs.Patch.Opacity
import Patchwork.Proofs.Patch.Coverage
import Patchwork.Proofs.Patch.Filling
import Patchwork.Proofs.Cache.Purity
import Patchwork.Proofs.Cache.References
import Patchwork.Proofs.Cache.Transparency
import Patchwork.Proofs.Tiling
import Patchwork.Proofs.Composite.Draft
import Patchwork.Proofs.Composite.Steady
import Patchwork.Proofs.Composite.Renders
import Patchwork.Proofs.Cache.Reached
import Patchwork.Proofs.Cache.Circles
import Patchwork.Proofs.Cache.Overflow
import Patchwork.Proofs.Cache.Failure
import Patchwork.Proofs.Raster.Lookup
import Patchwork.Proofs.Patch.Sane
import Patchwork.Proofs.Patch.Order
import Patchwork.Proofs.Mirror
import Patchwork.Proofs.Patch.Mirror
import Patchwork.Proofs.Cache.Pledges
import Patchwork.Proofs.Composite.Preparing
import Patchwork.Proofs.Composite.Stills
import Patchwork.Proofs.Composite.Assembling
import Patchwork.Proofs.Composite.Exhibiting
import Patchwork.Proofs.Patch.Flat
import Patchwork.Proofs.Cache.Counters
import Patchwork.Proofs.Composite.Lifecycle
import Patchwork.Proofs.Cache.Abreast
import Patchwork.Proofs.Composite.Translation
import Patchwork.Proofs.Json.Text
import Patchwork.Proofs.Json.Document
import Patchwork.Proofs.Layout
import Patchwork.Proofs.Channel.Vanishing
import Patchwork.Proofs.View
import Patchwork.Proofs.Patch.Vacant
import Patchwork.Proofs.Patch.Empty
import Patchwork.Proofs.Composite.Views
import Patchwork.Proofs.Cache.Sturdy
import Patchwork.Proofs.Composite.Sturdy
import Patchwork.Proofs.Composite.FromLayout
import Patchwork.Proofs.Tiling.Partition
import Patchwork.Proofs.Raster.Halving
import Patchwork.Proofs.Raster.Blur
import Patchwork.Proofs.Pyramid.Closed
import Patchwork.Proofs.View.Chain
import Patchwork.Proofs.RelPath
import Patchwork.Proofs.Channel.Rounding
import Patchwork.Proofs.Channel.Bytes
import Patchwork.Proofs.Files
import Patchwork.Proofs.Picture
