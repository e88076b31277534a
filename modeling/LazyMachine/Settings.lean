import LazyMachine.Context
import LazyMachine.Document.Basic
import LazyMachine.Machine.Frame

/-!
# Settings

The settings of one evaluation: how lazy values are forced, how values are shown, and a limit on
the instructions of the machine. In a document every setting may be left out.
-/

namespace LazyMachine

/-- The settings of an evaluation. -/
structure Settings where
  /-- What happens when a pending thunk is needed. -/
  forceMode : ForceMode := .cooperative
  /-- How values are shown. -/
  format : Format := {}
  /-- The number of instructions after which a run is given up. -/
  stepLimit : Option Nat := none
deriving DecidableEq, Repr, Inhabited

/-- The keywords of the radices. -/
def Radix.keywords : List (String × Radix) :=
  [("decimal", .decimal), ("lower_hex", .lowerHex), ("upper_hex", .upperHex), ("binary", .binary)]

/-- The keyword of a radix. -/
def Radix.keyword : Radix → String
  | .decimal => "decimal"
  | .lowerHex => "lower_hex"
  | .upperHex => "upper_hex"
  | .binary => "binary"

/-- Reads the form of floating-point numbers. -/
def FloatStyle.ofDocument? (d : Document) : Option FloatStyle :=
  match d.alternative? with
  | some ("default", none) => some .shortest
  | some ("default", some d) => d.nothing?.map fun _ => .shortest
  | some ("fixed", some d) => d.word?.map .fixed
  | some ("exponent", some d) => d.word?.map .exponent
  | _ => none

/-- Reads a format. -/
def Format.ofDocument? (d : Document) : Option Format :=
  match d.fields? ["notation", "radix", "quote_strings", "max_items"] with
  | some [style, radix, quoteStrings, maxItems] => do
    let style ← Document.withDefault? .shortest FloatStyle.ofDocument? style
    let radix ← Document.withDefault? .decimal
      (fun d => d.keyword?.bind fun name => Radix.keywords.lookup name) radix
    let quoteStrings ← Document.withDefault? false Document.bool? quoteStrings
    let maxItems ← Document.withDefault? none (Document.optional? Document.word?) maxItems
    return { style, radix, quoteStrings, maxItems }
  | _ => none

/-- Reads settings. -/
def Settings.ofDocument? (d : Document) : Option Settings :=
  match d.fields? ["force_mode", "show", "step_limit"] with
  | some [forceMode, format, stepLimit] => do
    let forceMode ← Document.withDefault? .cooperative
      (fun d => d.keyword?.bind ForceMode.ofKeyword?) forceMode
    let format ← Document.withDefault? {} Format.ofDocument? format
    let stepLimit ← Document.withDefault? none (Document.optional? Document.word?) stepLimit
    return { forceMode, format, stepLimit }
  | _ => none

/-- The form of floating-point numbers as JSON. -/
def FloatStyle.toJson : FloatStyle → Json
  | .shortest => .str "default"
  | .fixed n => .obj [("fixed", .int n)]
  | .exponent n => .obj [("exponent", .int n)]

/-- An optional number as JSON. -/
def optionalJson (n : Option Nat) : Json :=
  match n with
  | some n => .int n
  | none => .null

/-- The fields of a format as JSON. -/
def Format.jsonFields (f : Format) : List (String × Json) :=
  [("notation", f.style.toJson), ("radix", .str f.radix.keyword),
    ("quote_strings", .bool f.quoteStrings), ("max_items", optionalJson f.maxItems)]

/-- Settings as JSON. -/
def Settings.toJson (s : Settings) : Json :=
  .obj [("force_mode", .str s.forceMode.keyword), ("show", .obj s.format.jsonFields),
    ("step_limit", optionalJson s.stepLimit)]

/-- A fresh context with these settings. -/
def Settings.context (s : Settings) : Context :=
  { mode := s.forceMode, format := s.format }

/-- A fresh machine with these settings. -/
def Settings.machine (s : Settings) : Machine :=
  { stepLimit := s.stepLimit }

end LazyMachine
