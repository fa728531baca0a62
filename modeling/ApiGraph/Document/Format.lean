import ApiGraph.Fault
import ApiGraph.Json.Printer
import ApiGraph.Json.Reader
import ApiGraph.Yaml.Printer
import ApiGraph.Yaml.Value

/-!
Documents as text: JSON or YAML, told apart by the extension of the file name alone.
-/

namespace ApiGraph

inductive Format where
  | json
  | yaml
deriving DecidableEq, Repr

namespace Format

/-- The format for a file name; the extension may be in any letter case. -/
def ofPath (path : Path) : Except Fault Format :=
  match path.extension?.map fun e => e.map Char.toLower with
  | some "json" => .ok .json
  | some "yaml" => .ok .yaml
  | some "yml" => .ok .yaml
  | _ => .error (.unknownFormat path)

/-- Reads a document; the path stands in the error only. -/
def read (format : Format) (path : Path) (text : String) : Except Fault Json :=
  match format with
  | .json => (Json.ofText? text).elim (.error (.invalidJson path)) .ok
  | .yaml => (Yaml.ofText? text).elim (.error (.invalidYaml path)) .ok

/-- The text of a document, which ends with a line break. -/
def write (format : Format) (document : Json) : String :=
  match format with
  | .json => document.indented ++ "\n"
  | .yaml => Yaml.text document

end Format

namespace FileTree

/-- Reads and parses a document. -/
def load (files : FileTree) (path : Path) : Except Fault Json := do
  let format ← Format.ofPath path
  match files.read path with
  | .ok text => format.read path text
  | .error fault => .error (.io path fault)

/-- Writes a document in the format of its file name. -/
def save (files : FileTree) (path : Path) (document : Json) : Except Fault FileTree := do
  let format ← Format.ofPath path
  (files.write path (format.write document)).mapError (.io path)

/-- Every document that can be loaded. -/
def documents (files : FileTree) : List Json :=
  files.entries.filterMap fun (location, _) => (files.load (textOf location)).toOption

end FileTree

end ApiGraph
