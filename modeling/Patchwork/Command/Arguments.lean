import Patchwork.Options

/-!
# Command-line arguments

Two commands take arguments: `render` composes a layout into one image, `masks` computes the
ownership masks of a layout.  An option is written `--name value` or `--name=value` and may stand
once; a flag takes no value; names are never abbreviated.  Arguments are read from left to right and
the first mistake decides, so help that is asked for after a mistake is not shown.  A value that
follows its option may not look like an option itself.

## Main definitions

* `Command.RenderRequest`, `Command.MasksRequest` — what the two commands are asked to do.
* `Command.Reading` — the outcome of reading the arguments.
* `Command.Settings` — the options read so far.
* `Command.read` — the request of a command line.
-/

namespace Patchwork.Command

/-- Compose a layout into one image. -/
structure RenderRequest where
  /-- The layout file. -/
  layout : String
  /-- The image file to write. -/
  out : String
  /-- Lay sources over one another. -/
  draft : Bool
  /-- Fill transparent holes. -/
  fillHoles : Bool
  /-- Take the masks that are stored. -/
  reuseMasks : Bool
  /-- The directory of the masks. -/
  maskDirectory : Option String
  /-- Budget of the cache in mebibytes. -/
  cacheMebibytes : Nat
  /-- How to cut the image into tiles. -/
  tiles : TileOptions

/-- Compute and store the masks of a layout. -/
structure MasksRequest where
  /-- The layout file. -/
  layout : String
  /-- The directory of the masks. -/
  maskDirectory : String
  /-- Budget of the cache in mebibytes. -/
  cacheMebibytes : Nat

/-- The outcome of reading the arguments. -/
inductive Reading where
  /-- A mistake. -/
  | rejected
  /-- Help or the version is asked for. -/
  | shown
  /-- Compose a layout. -/
  | render (request : RenderRequest)
  /-- Compute masks. -/
  | masks (request : MasksRequest)

/-- The two commands. -/
inductive Verb where
  /-- Compose a layout. -/
  | render
  /-- Compute masks. -/
  | masks
  deriving DecidableEq

/-- The options that take a value. -/
inductive Key where
  /-- The layout file. -/
  | layout
  /-- The image file to write. -/
  | out
  /-- The directory of the masks. -/
  | maskDirectory
  /-- Budget of the cache in mebibytes. -/
  | cacheMebibytes
  /-- Edge of the tiles. -/
  | tileSize
  /-- Number of workers. -/
  | threads
  deriving DecidableEq

/-- What an option name stands for. -/
inductive Meaning where
  /-- An option with a value. -/
  | key (key : Key)
  /-- Lay sources over one another. -/
  | draft
  /-- Fill transparent holes. -/
  | fillHoles
  /-- Take the masks that are stored. -/
  | reuseMasks
  /-- Show help. -/
  | help

/-- What a name stands for in a command. -/
def Verb.meaning? : Verb → String → Option Meaning
  | _, "help" => some .help
  | _, "layout" => some (.key .layout)
  | _, "mask-dir" => some (.key .maskDirectory)
  | _, "cache-mb" => some (.key .cacheMebibytes)
  | .render, "out" => some (.key .out)
  | .render, "tile-size" => some (.key .tileSize)
  | .render, "threads" => some (.key .threads)
  | .render, "draft" => some .draft
  | .render, "fill-holes" => some .fillHoles
  | .render, "reuse-masks" => some .reuseMasks
  | _, _ => none

/-- The options read so far. -/
structure Settings where
  /-- The layout file. -/
  layout : Option String
  /-- The image file to write. -/
  out : Option String
  /-- The directory of the masks. -/
  maskDirectory : Option String
  /-- Budget of the cache in mebibytes. -/
  cacheMebibytes : Option Nat
  /-- Edge of the tiles. -/
  tileSize : Option Nat
  /-- Number of workers. -/
  threads : Option Nat
  /-- Lay sources over one another. -/
  draft : Bool
  /-- Fill transparent holes. -/
  fillHoles : Bool
  /-- Take the masks that are stored. -/
  reuseMasks : Bool

/-- No option read yet. -/
def Settings.none : Settings :=
  ⟨.none, .none, .none, .none, .none, .none, false, false, false⟩

/-- A number in decimal digits, a plus sign in front allowed, that fits a machine word. -/
def readNumber (s : String) : Option Nat :=
  let digits := match s.toList with
    | '+' :: rest => rest
    | all => all
  if digits.isEmpty || !digits.all Char.isDigit then none
  else
    let value := digits.foldl (fun n c => 10 * n + (c.toNat - 48)) 0
    if value ≤ wordMax then some value else none

/-- A path, which may not be empty. -/
def readPath (s : String) : Option String := if s.isEmpty then none else some s

/-- Fill a place that is still free. -/
def fill {α : Type} (place : Option α) (value : Option α) : Option (Option α) :=
  match place, value with
  | none, some value => some (some value)
  | _, _ => none

/-- Give an option its value; refused when it has one or the value is none. -/
def Settings.assign (s : Settings) (key : Key) (value : String) : Option Settings :=
  match key with
  | .layout => (fill s.layout (readPath value)).map fun layout => { s with layout }
  | .out => (fill s.out (readPath value)).map fun out => { s with out }
  | .maskDirectory =>
    (fill s.maskDirectory (readPath value)).map fun maskDirectory => { s with maskDirectory }
  | .cacheMebibytes =>
    (fill s.cacheMebibytes (readNumber value)).map fun cacheMebibytes => { s with cacheMebibytes }
  | .tileSize => (fill s.tileSize (readNumber value)).map fun tileSize => { s with tileSize }
  | .threads => (fill s.threads (readNumber value)).map fun threads => { s with threads }

/-- The request of complete settings. -/
def Settings.finish (s : Settings) : Verb → Reading
  | .render =>
    match s.layout, s.out with
    | some layout, some out =>
      .render {
        layout
        out
        draft := s.draft
        fillHoles := s.fillHoles
        reuseMasks := s.reuseMasks
        maskDirectory := s.maskDirectory
        cacheMebibytes := s.cacheMebibytes.getD 512
        tiles := ⟨s.tileSize.getD TileOptions.standard.tileSize, s.threads⟩ }
    | _, _ => .rejected
  | .masks =>
    match s.layout, s.maskDirectory with
    | some layout, some maskDirectory =>
      .masks ⟨layout, maskDirectory, s.cacheMebibytes.getD 512⟩
    | _, _ => .rejected

/-- The argument looks like an option. -/
def looksLikeOption (arg : String) : Bool :=
  match arg.toList with
  | '-' :: _ :: _ => true
  | _ => false

/-- The name of a long option and the value attached to it. -/
def longOption (arg : String) : Option (String × Option String) :=
  match arg.toList with
  | '-' :: '-' :: rest =>
    let name := String.ofList (rest.takeWhile (· ≠ '='))
    match rest.dropWhile (· ≠ '=') with
    | _ :: value => some (name, some (String.ofList value))
    | [] => some (name, none)
  | _ => none

/-- Read the arguments of a command. -/
def readOptions (verb : Verb) : List String → Settings → Reading
  | [], s => s.finish verb
  | arg :: rest, s =>
    if arg = "--" then
      if rest.isEmpty then s.finish verb else .rejected
    else match longOption arg with
      | none =>
        match arg.toList with
        | '-' :: 'h' :: _ => .shown
        | _ => .rejected
      | some (name, attached) =>
        match verb.meaning? name, attached with
        | none, _ => .rejected
        | some .help, none => .shown
        | some .draft, none =>
          if s.draft then .rejected else readOptions verb rest { s with draft := true }
        | some .fillHoles, none =>
          if s.fillHoles then .rejected else readOptions verb rest { s with fillHoles := true }
        | some .reuseMasks, none =>
          if s.reuseMasks then .rejected else readOptions verb rest { s with reuseMasks := true }
        | some (.key key), some value =>
          match s.assign key value with
          | some s => readOptions verb rest s
          | none => .rejected
        | some (.key key), none =>
          match rest with
          | [] => .rejected
          | value :: rest =>
            if looksLikeOption value then .rejected
            else match s.assign key value with
              | some s => readOptions verb rest s
              | none => .rejected
        | some _, some _ => .rejected

/-- Read a request for help on a command. -/
def readHelp : List String → Reading
  | [] | ["render"] | ["masks"] | ["help"] => .shown
  | _ => .rejected

/-- Read a command line. -/
def read : List String → Reading
  | [] => .rejected
  | first :: rest =>
    match first with
    | "render" => readOptions .render rest .none
    | "masks" => readOptions .masks rest .none
    | "help" => readHelp rest
    | "--help" | "--version" => .shown
    | _ =>
      match first.toList with
      | '-' :: 'h' :: _ | '-' :: 'V' :: _ => .shown
      | _ => .rejected

end Patchwork.Command
