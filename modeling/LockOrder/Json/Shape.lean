import LockOrder.Json.Skip

/-!
# Values of known shape

The readers of this file take a value of one shape off the text and refuse any other with a
flaw that says what was found instead. A record is written as an object, whose members may come
in any order, or as an array of its fields in order; members that are no fields are passed over.

## Main definitions

* `Json.unexpected` — the flaw of a value of the wrong type
* `Json.text`, `Json.natural` — strings and bounded numbers
* `Json.nullable` — a value or null
* `Json.listOf` — arrays
* `Json.Field`, `Json.Record` — records by their fields
* `Json.decode` — a whole text
-/

namespace LockOrder.Json

variable {α σ : Type}

/-- What the value that starts here is. An array or an object is not looked into. -/
def found : Reader Found := do
  let b ← skipBlanksTo
  match b with
  | 0x6E => literal [0x6E, 0x75, 0x6C, 0x6C]; return .null
  | 0x74 => literal [0x74, 0x72, 0x75, 0x65]; return .boolean true
  | 0x66 => literal [0x66, 0x61, 0x6C, 0x73, 0x65]; return .boolean false
  | 0x2D => advance; number true
  | 0x22 => advance; return .text (← stringBody)
  | 0x5B => return .list
  | 0x7B => return .object
  | b => if isDigit b then number false else fail .syntaxError

/-- Refuses the value that starts here. -/
def unexpected (expected : String) : Reader α := do
  fail (.wrongType (← found) expected)

/-- Reads a string. -/
def text : Reader String := do
  if (← skipBlanksTo) = 0x22 then
    advance
    stringBody
  else unexpected "a string"

/-- Reads a whole number below `bound`. -/
def natural (bound : Nat) (expected : String) : Reader Nat := do
  let b ← skipBlanksTo
  if b = 0x2D ∨ isDigit b then
    match ← found with
    | .integer (.ofNat n) =>
      if n < bound then return n else fail (.outOfRange (.integer n) expected)
    | .integer n => fail (.outOfRange (.integer n) expected)
    | other => fail (.wrongType other expected)
  else unexpected expected

/-- Reads a value, or `null` for `none`. -/
def nullable (item : Reader α) : Reader (Option α) := do
  match ← skipBlanks with
  | some 0x6E => literal [0x6E, 0x75, 0x6C, 0x6C]; return none
  | _ => return some (← item)

/-! ### Arrays -/

/-- Whether another element follows. `first` says that none has been read, so that no comma comes
before it. -/
def moreElements (first : Bool) : Reader Bool := do
  let b ← skipBlanksTo
  if b = 0x5D then return false
  else if first then return true
  else if b = 0x2C then
    advance
    if (← skipBlanksTo) = 0x5D then fail .syntaxError else return true
  else fail .syntaxError

/-- Takes off the end of an array. If there is a comma instead, what follows it is looked at before
the array is refused. -/
def closeList : Reader Unit := do
  match ← skipBlanksTo with
  | 0x5D => advance
  | 0x2C =>
    advance
    let _ ← skipBlanks
    fail .syntaxError
  | _ => fail .syntaxError

/-- Reads elements up to the end of an array. `acc` holds those before, the latest first. -/
def elements (item : Reader α) : List UInt8 → Bool → List α → Reader (List α)
  | [], _, _ => refuse
  | _ :: marks, first, acc => do
    if ← moreElements first then elements item marks false ((← item) :: acc)
    else return acc.reverse

/-- Reads an array. -/
def listOf (item : Reader α) : Reader (List α) := do
  if (← skipBlanksTo) = 0x5B then
    advance
    let items ← elements item (← ruler) true []
    closeList
    return items
  else unexpected "a sequence"

/-! ### Records -/

/-- A field of a record that is read into a state. -/
structure Field (σ : Type) where
  /-- The name of the member. -/
  name : String
  /-- Whether the field was read already. -/
  present : σ → Bool
  /-- Reads the value of the field. -/
  read : σ → Reader σ

/-- How a record is read. -/
structure Record (σ α : Type) where
  /-- The name of the record in messages. -/
  title : String
  /-- The fields in order. -/
  fields : List (Field σ)
  /-- The state before any field is read. -/
  start : σ
  /-- The record, once all fields are read. -/
  finish : σ → Option α

namespace Record

/-- How messages name the record. -/
def expected (r : Record σ α) : String := "struct " ++ r.title

/-- How messages name the record as an array. -/
def expectedLength (r : Record σ α) : String :=
  let n := r.fields.length
  r.expected ++ s!" with {n} element" ++ (if n = 1 then "" else "s")

end Record

/-- Whether another member follows. -/
def moreMembers (first : Bool) : Reader Bool := do
  let b ← skipBlanksTo
  if b = 0x7D then return false
  else if first then
    if b = 0x22 then return true else fail .syntaxError
  else if b = 0x2C then
    advance
    if (← skipBlanksTo) = 0x22 then return true else fail .syntaxError
  else fail .syntaxError

/-- Takes off the end of an object. -/
def closeObject : Reader Unit := do
  if (← skipBlanksTo) = 0x7D then advance else fail .syntaxError

/-- Takes off the colon between a key and its value. -/
def colon : Reader Unit := do
  if (← skipBlanksTo) = 0x3A then advance else fail .syntaxError

/-- Reads the value of the member `key`, or passes over it if it is no field. -/
def member (fields : List (Field σ)) (key : String) (s : σ) : Reader σ := do
  match fields.find? fun field => field.name = key with
  | some field =>
    if field.present s then fail (.duplicate key)
    else
      colon
      field.read s
  | none =>
    colon
    skipValue
    return s

/-- Reads members up to the end of an object. -/
def members (fields : List (Field σ)) : List UInt8 → Bool → σ → Reader σ
  | [], _, _ => refuse
  | _ :: marks, first, s => do
    if ← moreMembers first then
      advance
      let key ← stringBody
      members fields marks false (← member fields key s)
    else return s

/-- Reads the fields of a record that is written as an array, from the field at `position` on. -/
def positions (expected : String) : List (Field σ) → Nat → σ → Reader σ
  | [], _, s => return s
  | field :: fields, position, s => do
    if ← moreElements (position = 0) then
      positions expected fields (position + 1) (← field.read s)
    else fail (.wrongLength position expected)

/-- Reads a record. -/
def record (r : Record σ α) : Reader α := do
  let finish (s : σ) (close : Reader Unit) : Reader α := do
    match r.finish s with
    | some a =>
      close
      return a
    | none => fail .syntaxError
  match ← skipBlanksTo with
  | 0x7B =>
    advance
    let s ← members r.fields (← ruler) true r.start
    match r.fields.find? fun field => !field.present s with
    | some field => fail (.missing field.name)
    | none => finish s closeObject
  | 0x5B =>
    advance
    let s ← positions r.expectedLength r.fields 0 r.start
    finish s closeList
  | _ => unexpected r.expected

/-! ### Whole texts -/

/-- Reads a value and the white space after it, up to the end of the text. -/
def document (item : Reader α) : Reader α := do
  let a ← item
  match ← skipBlanks with
  | none => return a
  | some _ => fail .syntaxError

/-- The value of a text whose bytes may break off. -/
def decodeFeed (item : Reader α) (feed : Feed) : Except Flaw α :=
  (document item feed).map Prod.fst

/-- The value of a complete text. -/
def decode (item : Reader α) (s : String) : Except Flaw α :=
  decodeFeed item ⟨s.toUTF8.toList, none⟩

end LockOrder.Json
