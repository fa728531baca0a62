import ApiGraph.Yaml.Layout
import ApiGraph.Yaml.Node
import ApiGraph.Yaml.Scalar

/-!
The value of a YAML document. Aliases are replaced by what they stand for, keys are the texts of
scalars, and of two entries with one key the first gives the place and the last the value.
Collections may be nested only so deep, and aliases followed only so often.
-/

namespace ApiGraph.Yaml

/-- How deep collections may be nested. -/
def depthLimit : Nat := 128

/-- How often aliases may be followed, for each part of the document. -/
def aliasLimit : Nat := 100

/-- Aliases refer to the numbered nodes; the state is how often one may still be followed. -/
abbrev Valuing := StateT Nat Option

/-- The node that an alias stands for, which is never an alias itself. -/
def follow (numbered : List (Nat × Node)) : Node → Valuing Node
  | .alias number => do
    match ← get, numbered.reverse.lookup number with
    | left + 1, some node =>
      set left
      return node
    | _, _ => failure
  | node => return node

def keyOf (numbered : List (Nat × Node)) (node : Node) : Valuing String := do
  match ← follow numbered node with
  | .scalar _ _ text => return text
  | _ => failure

/-- The value of a node, given that of the nodes inside it unless it may have none. -/
def valueWith (numbered : List (Nat × Node)) (inner : Option (Node → Valuing Json)) (node : Node) :
    Valuing Json := do
  match ← follow numbered node, inner with
  | .scalar p isPlain text, _ => (ofScalar? p.tag isPlain text).elim failure pure
  | .sequence p items, some inner =>
    if p.tag.any isLocal then failure
    else return .array (← items.mapM inner)
  | .mapping p entries, some inner =>
    if p.tag.any isLocal then failure
    else
      let fields ← entries.mapM fun (key, value) => do
        return (← keyOf numbered key, ← inner value)
      return .object (Table.ofList fields)
  | _, _ => failure

/-- The value of a node that has collections nested at most so deep. -/
def valueOf (numbered : List (Nat × Node)) : Nat → Node → Valuing Json
  | 0 => valueWith numbered none
  | depth + 1 => valueWith numbered (some (valueOf numbered depth))

/-- The value of a document. -/
def Node.value? (node : Node) : Option Json :=
  ((valueOf node.numbered depthLimit node).run (aliasLimit * node.size)).map (·.1)

/-- The value of a text that holds one document. -/
def ofText? (text : String) : Option Json :=
  ((tokens? text).bind Node.ofTokens?).bind Node.value?

end ApiGraph.Yaml
