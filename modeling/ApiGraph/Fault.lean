import ApiGraph.FileTree.Basic
import ApiGraph.Json.Record

/-!
Everything that can go wrong, as one type of causes with one wording each, and the report that a
caller sees: the cause's kind, the stage in which it came up, and its message.
-/

namespace ApiGraph

/-- Why a reference string cannot be read. -/
inductive BadReference where
  | empty
  | remote
deriving DecidableEq, Repr

def BadReference.text : BadReference → String
  | .empty => "empty reference"
  | .remote => "remote references are not supported"

/-- Why a reference leads nowhere. -/
inductive DeadEnd where
  | noFile (joined : Path)
  | noTarget
deriving DecidableEq, Repr

def DeadEnd.text : DeadEnd → String
  | .noFile joined => "file '" ++ joined.text ++ "' not found"
  | .noTarget => "target not found"

/-- Why documents cannot be merged. -/
inductive MergeObstacle where
  | rootNotObject
  | componentsNotObject
  | schemasNotObject
  | masterNotObject (path : Path)
  | targetNotObject (ref : String)
deriving DecidableEq, Repr

def MergeObstacle.text : MergeObstacle → String
  | .rootNotObject => "document root is not an object"
  | .componentsNotObject => "'components' is not an object"
  | .schemasNotObject => "'components/schemas' is not an object"
  | .masterNotObject path => "master '" ++ path.text ++ "' is not an object"
  | .targetNotObject ref => "'" ++ ref ++ "' does not point at an object"

/-- A part of a document that does not have the shape that is due there. -/
inductive Part where
  | definition (name : String)
  | operation (method path : String)
  | pathItem (path : String)
  | servers
deriving DecidableEq, Repr

def Part.text : Part → String
  | .definition name => "definition '" ++ name ++ "' is"
  | .operation method path => "operation '" ++ method ++ "' on '" ++ path ++ "' is"
  | .pathItem path => "path item '" ++ path ++ "' is"
  | .servers => "servers are"

/-- A shape that the compiler does not support. -/
inductive ShapeProblem where
  | versionMissing
  | versionUnsupported (version : String)
  | definitionIsReference
  | definitionIsPrimitive (type : String)
  | itemsNotReference
  | definitionWithoutBody
  | nestedArray
  | arrayOfPrimitives
  | inlineAllOf
  | anonymousObject
  | untyped
  | alternative
  | noSuccessResponse
  | malformedComponent (ref : String) (mismatch : Mismatch)
deriving DecidableEq, Repr

def ShapeProblem.text : ShapeProblem → String
  | .versionMissing => "missing version field"
  | .versionUnsupported version =>
    "version '" ++ version ++ "' is not supported; expected 3.x"
  | .definitionIsReference => "a definition cannot be a bare reference"
  | .definitionIsPrimitive type => "definition type is the bare primitive '" ++ type ++ "'"
  | .itemsNotReference => "array items must reference a definition"
  | .definitionWithoutBody => "definition needs properties, allOf or oneOf"
  | .nestedArray => "nested arrays are not supported"
  | .arrayOfPrimitives => "arrays of primitives are not supported; reference a definition"
  | .inlineAllOf => "inline allOf on a property is not supported; reference a definition"
  | .anonymousObject => "nested anonymous objects are not supported; reference a definition"
  | .untyped => "property has no type"
  | .alternative =>
    "oneOf alternatives must be primitives, references or arrays of references"
  | .noSuccessResponse => "no 200, 201, 202 or 204 response is declared"
  | .malformedComponent ref mismatch => "'" ++ ref ++ "' is malformed: " ++ mismatch.text

/-- Why an option file cannot be used. -/
inductive OptionFault where
  | grammar
  | shape (mismatch : Mismatch)
deriving DecidableEq, Repr

def OptionFault.text : OptionFault → String
  | .grammar => "not a valid option file"
  | .shape mismatch => mismatch.text

inductive Fault where
  | unknownFormat (path : Path)
  | io (path : Path) (fault : IoFault)
  | invalidJson (path : Path)
  | invalidYaml (path : Path)
  | badReference (ref : String) (reason : BadReference)
  | brokenReference (ref : String) (reason : DeadEnd)
  | referenceCycle (chain : List String)
  | nameCollision (name first second : String)
  | cannotMerge (reason : MergeObstacle)
  | malformed (part : Part) (mismatch : Mismatch)
  | notObject (key : String)
  | unknownDefinition (owner ref : String)
  | missingNamespace (name : String)
  | unsupportedShape (owner : String) (problem : ShapeProblem)
  | manyToManyAcross (source sourceNamespace target targetNamespace : String)
  | unreadableOptions (path : Path) (fault : IoFault)
  | invalidOptions (path : Path) (fault : OptionFault)
deriving DecidableEq, Repr

/-- What a caller can do about an error. -/
inductive FaultKind where
  /-- A reference or name points at nothing. -/
  | brokenReference
  /-- The option file could not be read. -/
  | config
  /-- The file name has no known extension, or the text cannot be parsed. -/
  | format
  /-- The caller cannot do anything. -/
  | internal
  | io
  /-- The document has a shape that is not supported. -/
  | schemaShape
  /-- Many-to-many across namespaces. -/
  | unsupportedRelationship
deriving DecidableEq, Repr

def FaultKind.named : List (String × FaultKind) :=
  [("BrokenReference", .brokenReference), ("Config", .config), ("Format", .format),
   ("Internal", .internal), ("Io", .io), ("SchemaShape", .schemaShape),
   ("UnsupportedRelationship", .unsupportedRelationship)]

def FaultKind.name : FaultKind → String
  | .brokenReference => "BrokenReference"
  | .config => "Config"
  | .format => "Format"
  | .internal => "Internal"
  | .io => "Io"
  | .schemaShape => "SchemaShape"
  | .unsupportedRelationship => "UnsupportedRelationship"

/-- The stage in which an error came up. -/
inductive Stage where
  | build
  | config
  | interface
  | load
  | merge
  | node
  | resolve
deriving DecidableEq, Repr

def Stage.named : List (String × Stage) :=
  [("Build", .build), ("Config", .config), ("Interface", .interface), ("Load", .load),
   ("Merge", .merge), ("Node", .node), ("Resolve", .resolve)]

def Stage.name : Stage → String
  | .build => "Build"
  | .config => "Config"
  | .interface => "Interface"
  | .load => "Load"
  | .merge => "Merge"
  | .node => "Node"
  | .resolve => "Resolve"

namespace Fault

def kind : Fault → FaultKind
  | .unknownFormat _ | .invalidJson _ | .invalidYaml _ => .format
  | .io .. => .io
  | .brokenReference .. | .unknownDefinition .. => .brokenReference
  | .manyToManyAcross .. => .unsupportedRelationship
  | .unreadableOptions .. | .invalidOptions .. => .config
  | .badReference .. | .referenceCycle _ | .nameCollision .. | .cannotMerge _ | .malformed ..
  | .notObject _ | .missingNamespace _ | .unsupportedShape .. => .schemaShape

def message : Fault → String
  | .unknownFormat path =>
    "unsupported document format '" ++ path.text ++ "' (expected .json, .yaml or .yml)"
  | .io path fault => "i/o error at '" ++ path.text ++ "': " ++ fault.text
  | .invalidJson path => "invalid json in '" ++ path.text ++ "': not a JSON text"
  | .invalidYaml path => "invalid yaml in '" ++ path.text ++ "': not a YAML document"
  | .badReference ref reason => "malformed reference '" ++ ref ++ "': " ++ reason.text
  | .brokenReference ref reason => "broken reference '" ++ ref ++ "': " ++ reason.text
  | .referenceCycle chain => "reference cycle: " ++ String.intercalate " -> " chain
  | .nameCollision name first second =>
    "definition name '" ++ name ++ "' is claimed by both '" ++ first ++ "' and '" ++ second ++ "'"
  | .cannotMerge reason => "cannot merge: " ++ reason.text
  | .malformed part mismatch => part.text ++ " malformed: " ++ mismatch.text
  | .notObject key => "'" ++ key ++ "' is not an object"
  | .unknownDefinition owner ref =>
    "broken reference in '" ++ owner ++ "': '" ++ ref ++ "' names no definition"
  | .missingNamespace name => "'" ++ name ++ "' has no namespace"
  | .unsupportedShape owner problem =>
    "unsupported schema shape in '" ++ owner ++ "': " ++ problem.text
  | .manyToManyAcross source sourceNamespace target targetNamespace =>
    "many-to-many between '" ++ source ++ "' (" ++ sourceNamespace ++ ") and '" ++ target ++
      "' (" ++ targetNamespace ++ ") needs a join table across namespaces"
  | .unreadableOptions path fault => "cannot read config '" ++ path.text ++ "': " ++ fault.text
  | .invalidOptions path fault => "invalid config '" ++ path.text ++ "': " ++ fault.text

end Fault

/-- An error as a caller sees it. -/
structure Report where
  kind : FaultKind
  stage : Stage
  message : String
deriving DecidableEq, Repr

namespace Report

def ofJson (j : Json) : Except Mismatch Report := do
  let r ← Record.ofJson ["kind", "origin", "message"] j
  return {
    kind := ← r.required "kind" (Json.toChoice FaultKind.named)
    stage := ← r.required "origin" (Json.toChoice Stage.named)
    message := ← r.required "message" Json.toText }

def toJson (report : Report) : Json :=
  .object [("kind", .string report.kind.name), ("origin", .string report.stage.name),
    ("message", .string report.message)]

end Report

def Fault.report (fault : Fault) (stage : Stage) : Report := ⟨fault.kind, stage, fault.message⟩

/-- Reports every failure of a computation as one of the given stage. -/
def reported (stage : Stage) : Except Fault α → Except Report α := Except.mapError (·.report stage)

end ApiGraph
