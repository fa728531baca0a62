/-!
The small vocabularies of an API description: primitive types, HTTP methods, and how many targets
a reference holds.
-/

namespace ApiGraph

/-- Scalar types, which compile to a single column. -/
inductive Primitive where
  | boolean
  | integer
  | number
  | string
deriving DecidableEq, Repr

namespace Primitive

def all : List Primitive := [.boolean, .integer, .number, .string]

def name : Primitive → String
  | .boolean => "boolean"
  | .integer => "integer"
  | .number => "number"
  | .string => "string"

/-- The primitive type of a name; arrays, objects and unknown types are none. -/
def ofName? (name : String) : Option Primitive := all.find? (·.name == name)

end Primitive

/-- How many instances of a target one side of a reference holds. -/
inductive Multiplicity where
  | one
  | many
deriving DecidableEq, Repr

namespace Multiplicity

def isMany (m : Multiplicity) : Bool := m == .many

def name : Multiplicity → String
  | .one => "One"
  | .many => "Many"

end Multiplicity

inductive HttpMethod where
  | delete
  | get
  | head
  | options
  | patch
  | post
  | put
  | trace
deriving DecidableEq, Repr

namespace HttpMethod

/-- Every method that a path may declare, in the customary order. -/
def all : List HttpMethod := [.get, .put, .post, .delete, .options, .head, .patch, .trace]

def alphabetical : List HttpMethod :=
  [.delete, .get, .head, .options, .patch, .post, .put, .trace]

/-- The methods that compile to endpoint handlers. -/
def supported : List HttpMethod := [.get, .put, .post, .delete]

def name : HttpMethod → String
  | .delete => "delete"
  | .get => "get"
  | .head => "head"
  | .options => "options"
  | .patch => "patch"
  | .post => "post"
  | .put => "put"
  | .trace => "trace"

def ofName? (name : String) : Option HttpMethod := all.find? (·.name == name)

def isSupported (m : HttpMethod) : Bool := m ∈ supported

end HttpMethod

end ApiGraph
