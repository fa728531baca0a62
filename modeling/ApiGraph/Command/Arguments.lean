import ApiGraph.FileTree.Path
import ApiGraph.Table

/-!
The arguments of the command line: a command, its files, and options that may stand anywhere
behind it. An option takes the next argument, or what follows it directly or after an equals sign.
-/

namespace ApiGraph

inductive Command where
  | compile (input : Path) (output options : Option Path)
  | merge (input : Path) (output : Option Path)
  | mergeSources (master : Path) (sources : List Path) (output : Option Path)
deriving DecidableEq, Repr

/-- What the arguments ask for. -/
inductive Request where
  | run (command : Command)
  | help
  | version
  /-- The arguments do not follow the grammar. -/
  | misuse
deriving DecidableEq, Repr

namespace Command

/-- The commands by name. -/
inductive Verb where
  | compile
  | merge
  | mergeSources
deriving DecidableEq, Repr

def Verb.named : List (String × Verb) :=
  [("compile", .compile), ("merge", .merge), ("merge-sources", .mergeSources)]

inductive Flag where
  | output
  | options
  | logLevel
deriving DecidableEq, Repr

/-- The options that a command takes; the level of the log can be set everywhere. -/
def flagsOf : Option Verb → List Flag
  | none => [.logLevel]
  | some .compile => [.output, .options, .logLevel]
  | some _ => [.output, .logLevel]

def Flag.long : Flag → String
  | .output => "output"
  | .options => "config"
  | .logLevel => "log-level"

def Flag.short? : Flag → Option Char
  | .output => some 'o'
  | .options => some 'c'
  | .logLevel => none

/-- Whether the value of an option may be empty. -/
def Flag.allowsEmpty (f : Flag) : Bool := f == .logLevel

/-- An argument by its form. -/
inductive Argument where
  | value
  /-- Two dashes: everything that follows is a value. -/
  | separator
  | help
  | version
  | flag (flag : Flag) (value : Option String)
  | unknown
deriving DecidableEq, Repr

def classifyLong (verb : Option Verb) (name : List Char) : Argument :=
  let (name, value) :=
    match Text.cutFirst '=' name with
    | some (name, value) => (name, some (String.ofList value))
    | none => (name, none)
  match (flagsOf verb).find? fun f => f.long.toList == name with
  | some f => .flag f value
  | none =>
    if value.isSome then .unknown
    else if name = "help".toList then .help
    else if name = "version".toList && verb.isNone then .version
    else .unknown

def classifyShort (verb : Option Verb) (c : Char) (rest : List Char) : Argument :=
  match (flagsOf verb).find? fun f => f.short? == some c with
  | some f =>
    match rest with
    | [] => .flag f none
    | '=' :: value => .flag f (some (String.ofList value))
    | value => .flag f (some (String.ofList value))
  | none => if c = 'h' then .help else if c = 'V' && verb.isNone then .version else .unknown

def classify (verb : Option Verb) (argument : String) : Argument :=
  match argument.toList with
  | ['-', '-'] => .separator
  | '-' :: '-' :: name => classifyLong verb name
  | '-' :: c :: rest => classifyShort verb c rest
  | _ => .value

/-- What was read of a command. -/
structure Reading where
  values : List String := []
  flags : List (Flag × String) := []

/-- A command from its values and options, if it has as many values as it needs. -/
def Reading.command? (r : Reading) (verb : Verb) : Option Command :=
  let path (flag : Flag) : Option Path := (r.flags.lookup flag).map (⟨·⟩)
  if r.values.any (·.isEmpty) then none
  else
    match verb, r.values with
    | .compile, [input] => some (.compile ⟨input⟩ (path .output) (path .options))
    | .merge, [input] => some (.merge ⟨input⟩ (path .output))
    | .mergeSources, master :: source :: sources =>
      some (.mergeSources ⟨master⟩ ((source :: sources).map (⟨·⟩)) (path .output))
    | _, _ => none

def Reading.finish (r : Reading) (verb : Verb) : Request :=
  match r.command? verb with
  | some command => .run command
  | none => .misuse

/-- Records an option, which may be given once. -/
def Reading.addFlag? (r : Reading) (flag : Flag) (value : String) : Option Reading :=
  if (r.flags.lookup flag).isSome || (value.isEmpty && !flag.allowsEmpty) then none
  else some { r with flags := (flag, value) :: r.flags }

/-- Reads the arguments of a command. A pending option waits for its value. -/
def readArguments (verb : Verb) (r : Reading) (pending : Option Flag) :
    List String → Request
  | [] => if pending.isSome then .misuse else r.finish verb
  | argument :: rest =>
    match pending with
    | some flag =>
      if classify (some verb) argument = .value then
        match r.addFlag? flag argument with
        | some r => readArguments verb r none rest
        | none => .misuse
      else .misuse
    | none =>
      match classify (some verb) argument with
      | .value => readArguments verb { r with values := r.values ++ [argument] } none rest
      | .separator => Reading.finish { r with values := r.values ++ rest } verb
      | .help => .help
      | .version => .version
      | .unknown => .misuse
      | .flag flag none => readArguments verb r (some flag) rest
      | .flag flag (some value) =>
        match r.addFlag? flag value with
        | some r => readArguments verb r none rest
        | none => .misuse

/-- Whether these may follow the word for help: nothing, or the name of one command. -/
def asksForHelp : List String → Bool
  | [] => true
  | [name] => name == "help" || Table.contains Verb.named name
  | _ => false

/-- Reads the arguments before the command and then those of the command. -/
def readRequest (r : Reading) (pending : Option Flag) : List String → Request
  | [] => .misuse
  | argument :: rest =>
    match pending with
    | some flag =>
      if classify none argument = .value then
        match r.addFlag? flag argument with
        | some r => readRequest r none rest
        | none => .misuse
      else .misuse
    | none =>
      match classify none argument with
      | .value =>
        match Table.get? Verb.named argument with
        | some verb => readArguments verb {} none rest
        | none =>
          if argument = "help" && asksForHelp rest then .help else .misuse
      | .separator => .misuse
      | .help => .help
      | .version => .version
      | .unknown => .misuse
      | .flag flag none => readRequest r (some flag) rest
      | .flag flag (some value) =>
        match r.addFlag? flag value with
        | some r => readRequest r none rest
        | none => .misuse

end Command

/-- What a list of arguments asks for. -/
def Request.ofArguments (arguments : List String) : Request := Command.readRequest {} none arguments

end ApiGraph
