/-!
# Arguments

What follows a command is a mix of positional arguments, flags and options with a value. A flag is
`--name`; an option is `--name value` or `--name=value`. They may come in any order, and `--` makes
everything after it positional. A lone `-` is an ordinary argument; anything else that starts with a
dash must be a flag or an option that the command knows, spelled out.

## Main definitions

* `CommandLine.Misuse` — what can be wrong with arguments
* `CommandLine.Options` — the flags and options that a command knows
* `CommandLine.Arguments` — arguments, sorted
* `CommandLine.Arguments.parse` — sorts arguments
-/

namespace LockOrder.CommandLine

/-- What is wrong with arguments. -/
inductive Misuse where
  /-- There is no command. -/
  | noCommand
  /-- There is no such command. -/
  | unknownCommand (name : String)
  /-- There is no such flag or option. -/
  | unknownOption (name : String)
  /-- An option lacks its value. -/
  | valueMissing (name : String)
  /-- A flag has a value. -/
  | valueUnwanted (name : String)
  /-- A flag or option that may be given once is given again. -/
  | repeated (name : String)
  /-- A positional argument is missing. -/
  | argumentMissing
  /-- There is one positional argument too many. -/
  | argumentUnwanted (text : String)
  /-- A path is empty. -/
  | emptyPath
  /-- The name of an edge is malformed. -/
  | malformedEdge (message : String)
deriving DecidableEq, Repr

/-- What is wrong, in words. -/
def Misuse.message : Misuse → String
  | .noCommand => "a command is required"
  | .unknownCommand name => "unknown command " ++ name
  | .unknownOption name => "unknown option --" ++ name
  | .valueMissing name => "a value is required for --" ++ name
  | .valueUnwanted name => "--" ++ name ++ " takes no value"
  | .repeated name => "--" ++ name ++ " can be given only once"
  | .argumentMissing => "an argument is missing"
  | .argumentUnwanted text => "unexpected argument " ++ text
  | .emptyPath => "a path cannot be empty"
  | .malformedEdge message => message

/-- The flags and options that a command knows. -/
structure Options where
  /-- The names of its flags. -/
  flags : List String
  /-- The names of its options. -/
  valued : List String
deriving DecidableEq, Repr

/-- Arguments, sorted. -/
structure Arguments where
  /-- The positional arguments in order. -/
  positional : List String := []
  /-- The flags that are set. -/
  flags : List String := []
  /-- The options with their values in order. -/
  values : List (String × String) := []
deriving DecidableEq, Repr

namespace Arguments

/-- The values of an option. -/
def valuesOf (args : Arguments) (name : String) : List String :=
  (args.values.filter fun entry => entry.1 = name).map Prod.snd

/-- What stands before and after the first equals sign. -/
def splitEquals : List Char → List Char × Option (List Char)
  | [] => ([], none)
  | '=' :: value => ([], some value)
  | c :: rest =>
    let (name, value) := splitEquals rest
    (c :: name, value)

/-- Whether a text may stand alone as the value of an option: it does not start with a dash, or is
nothing but a dash. -/
def isValue (text : String) : Bool :=
  match text.toList with
  | '-' :: _ :: _ => false
  | _ => true

/-- Sorts arguments and adds them to those in `args`. -/
def parseFrom (known : Options) (args : Arguments) : List String → Except Misuse Arguments
  | [] => .ok args
  | "--" :: rest => .ok { args with positional := args.positional ++ rest }
  | text :: rest =>
    match text.toList with
    | '-' :: '-' :: body =>
      let (nameChars, attached) := splitEquals body
      let name := String.ofList nameChars
      if known.flags.contains name then
        if attached.isSome then .error (.valueUnwanted name)
        else if args.flags.contains name then .error (.repeated name)
        else parseFrom known { args with flags := args.flags ++ [name] } rest
      else if known.valued.contains name then
        match attached, rest with
        | some value, rest =>
          parseFrom known { args with values := args.values ++ [(name, String.ofList value)] } rest
        | none, value :: rest =>
          if isValue value then
            parseFrom known { args with values := args.values ++ [(name, value)] } rest
          else .error (.valueMissing name)
        | none, [] => .error (.valueMissing name)
      else .error (.unknownOption name)
    | '-' :: c :: body => .error (.unknownOption (String.ofList (c :: body)))
    | _ => parseFrom known { args with positional := args.positional ++ [text] } rest

/-- Sorts the arguments of a command. -/
def parse (known : Options) (texts : List String) : Except Misuse Arguments :=
  parseFrom known {} texts

end Arguments

end LockOrder.CommandLine
