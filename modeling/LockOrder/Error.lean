import LockOrder.Graph.Check
import LockOrder.Json.Flaw

/-!
# Errors

Data from outside is refused with an error that tells which layer of the format it violates.

## Main definitions

* `Layer` — where an error comes from
* `Error` — what can be wrong with data from outside
* `Error.layer`, `Error.message`, `Error.report` — how it is reported
-/

namespace LockOrder

/-- Where an error comes from. -/
inductive Layer where
  /-- Reading or writing. -/
  | stream
  /-- The base64 text of a dump. -/
  | base64
  /-- The compressed data of a dump. -/
  | compression
  /-- The JSON text of a dump. -/
  | encoding
  /-- The structure of a graph. -/
  | graph
  /-- The settings. -/
  | settings
  /-- A request. -/
  | request
deriving DecidableEq, Repr

/-- The name of a layer. -/
def Layer.name : Layer → String
  | .stream => "Stream"
  | .base64 => "Base64"
  | .compression => "Compression"
  | .encoding => "Encoding"
  | .graph => "Structure"
  | .settings => "Config"
  | .request => "BadInput"

/-- What is wrong with data from outside. -/
inductive Error where
  /-- A stream could not be read or written. -/
  | stream (detail : String)
  /-- Text is not base64. -/
  | base64
  /-- Data is not compressed as it should be. -/
  | compression
  /-- Text is not the JSON text that it should be. -/
  | encoding (flaw : Json.Flaw)
  /-- A graph violates its structure. -/
  | graph (flaw : Graph.Flaw)
  /-- A settings file could not be read. -/
  | settingsFile (path detail : String)
  /-- Settings are malformed. -/
  | settings
  /-- The smallest pen width is above the largest. -/
  | penWidths (least most : Float)
  /-- The name of an edge is malformed. -/
  | edgeId (flaw : EdgeId.Flaw)

namespace Error

/-- The error of JSON text that breaks off or has a flaw of its own. -/
def ofFlaw : Json.Flaw → Error
  | .cut .base64 => .base64
  | .cut .compression => .compression
  | flaw => .encoding flaw

/-- Where an error comes from. -/
def layer : Error → Layer
  | .stream _ => .stream
  | .base64 => .base64
  | .compression => .compression
  | .encoding _ => .encoding
  | .graph _ => .graph
  | .settingsFile .. | .settings | .penWidths .. => .settings
  | .edgeId _ => .request

/-- What kind of thing failed: an operation of the system, the decoding of data, or a request. -/
inductive Kind where
  /-- An operation of the system. -/
  | io
  /-- The decoding of data. -/
  | decode
  /-- A request. -/
  | badInput
deriving DecidableEq, Repr

/-- The kind of an error. -/
def kind : Error → Kind
  | .stream _ | .settingsFile .. => .io
  | .edgeId _ => .badInput
  | _ => .decode

/-- The short name of a kind. -/
def Kind.name : Kind → String
  | .io => "Io"
  | .decode => "Decode"
  | .badInput => "BadInput"

/-- The name of a kind in a sentence. -/
def Kind.phrase : Kind → String
  | .io => "I/O error"
  | .decode => "decode error"
  | .badInput => "bad input"

/-- What is wrong. -/
def message : Error → String
  | .stream detail => detail
  | .base64 => Json.Flaw.message (.cut .base64)
  | .compression => Json.Flaw.message (.cut .compression)
  | .encoding flaw => flaw.message
  | .graph flaw => flaw.message
  | .settingsFile path detail => path ++ ": " ++ detail
  | .settings => "malformed settings"
  | .penWidths least most =>
    "min_pen_width " ++ Number.plainText least ++ " exceeds max_pen_width " ++
      Number.plainText most
  | .edgeId flaw => flaw.message

/-- The error in a sentence. -/
def report (e : Error) : String :=
  e.kind.phrase ++ " (" ++ e.layer.name ++ "): " ++ e.message

end Error

end LockOrder
