import ApiGraph.Fault
import ApiGraph.Options.Basic
import ApiGraph.Toml.Reader

/-!
The option file. Each option may be left out; unknown ones are refused, so that a misspelt name is
noticed.
-/

namespace ApiGraph.Options

/-- The name under which the file is looked for beside a document. -/
def fileName : Path := ⟨"specgraph.toml"⟩

/-- Refuses names that are not declared. -/
def checkNames (names : List String) : Json → Except Mismatch Unit
  | .object fields =>
    match fields.find? fun entry => entry.1 ∉ names with
    | some (name, _) => .error (.unknown name)
    | none => .ok ()
  | _ => .ok ()

private def namingOfFile (j : Json) : Except Mismatch Naming.Templates := do
  checkNames ["model", "schema", "controller"] j
  Naming.Templates.ofJson j

/-- Reads the options, with defaults for those left out. -/
def ofFileJson (j : Json) : Except Mismatch Options := do
  let names := ["default_namespace", "primary_key", "naming", "table_names", "base_classes"]
  checkNames names j
  let r ← Record.ofJson names j
  let default : Options := {}
  return {
    defaultNamespace := ← r.orElse "default_namespace" default.defaultNamespace Json.toText
    primaryKey := ← r.orElse "primary_key" default.primaryKey Json.toText
    naming := ← r.orElse "naming" default.naming namingOfFile
    tableNames := ← r.orElse "table_names" [] (Json.toSortedTable Json.toText)
    baseClasses := ← r.orElse "base_classes" [] (Json.toSortedTable Json.toText) }

/-- Reads the text of an option file; the path stands in the error only. -/
def ofFileText (path : Path) (text : String) : Except Fault Options :=
  match Toml.ofText? text with
  | none => .error (.invalidOptions path .grammar)
  | some j => (ofFileJson j).mapError fun mismatch => .invalidOptions path (.shape mismatch)

def load (files : FileTree) (path : Path) : Except Fault Options :=
  match files.read path with
  | .ok text => ofFileText path text
  | .error fault => .error (.unreadableOptions path fault)

/-- The options for a document: those of the given file, else of the option file in the directory
of the document, else the defaults. -/
def forInput (files : FileTree) (input : Path) (file : Option Path) : Except Fault Options :=
  match file with
  | some path => load files path
  | none =>
    let beside := (input.parent?.getD Path.here).join fileName
    if files.isFile beside then load files beside else .ok {}

end ApiGraph.Options
