import ApiGraph.Table
import ApiGraph.Yaml.Token

/-!
The nodes of a document, read from its tokens. Nodes that have an anchor are numbered: a name takes
the number of names that are in use where it stands, and an alias means the last node that has its
name's number. A node that is left out is an empty plain scalar.
-/

namespace ApiGraph.Yaml

structure Properties where
  anchor : Option Nat := none
  tag : Option Tag := none

inductive Node where
  | alias (number : Nat)
  | scalar (properties : Properties) (isPlain : Bool) (text : String)
  | sequence (properties : Properties) (items : List Node)
  | mapping (properties : Properties) (entries : List (Node × Node))

namespace Node

def empty : Node := .scalar {} true ""

mutual

/-- The numbered nodes in document order. -/
def numbered (n : Node) : List (Nat × Node) :=
  match n with
  | .alias _ => []
  | .scalar p _ _ => p.anchor.toList.map fun number => (number, n)
  | .sequence p items => (p.anchor.toList.map fun number => (number, n)) ++ numberedItems items
  | .mapping p entries => (p.anchor.toList.map fun number => (number, n)) ++ numberedEntries entries

def numberedItems : List Node → List (Nat × Node)
  | [] => []
  | n :: rest => numbered n ++ numberedItems rest

def numberedEntries : List (Node × Node) → List (Nat × Node)
  | [] => []
  | (key, value) :: rest => numbered key ++ numbered value ++ numberedEntries rest

end

mutual

/-- The size of a node: one for a scalar or an alias, two for a collection and what it holds. -/
def size : Node → Nat
  | .alias _ => 1
  | .scalar .. => 1
  | .sequence _ items => 2 + sizeOfItems items
  | .mapping _ entries => 2 + sizeOfEntries entries

def sizeOfItems : List Node → Nat
  | [] => 0
  | n :: rest => size n + sizeOfItems rest

def sizeOfEntries : List (Node × Node) → Nat
  | [] => 0
  | (key, value) :: rest => size key + size value + sizeOfEntries rest

end

end Node

/-- Tokens still to be read, and the numbers of the names so far. -/
structure Source where
  tokens : List Token
  names : Table Nat := []

abbrev Reading := StateT Source Option

namespace Reading

def peek : Reading (Option Token) := return (← get).tokens.head?

def skip : Reading Unit := modify fun s => { s with tokens := s.tokens.tail }

/-- Skips the token if it comes next. -/
def skipIf (token : Token) : Reading Bool := do
  if (← peek) == some token then
    skip
    return true
  else return false

/-- Whether one of the tokens comes next. -/
def ahead (tokens : List Token) : Reading Bool := return (← peek).any (· ∈ tokens)

/-- Reads a node, which is left out if one of the tokens comes next. -/
def orEmpty (ends : List Token) (node : Reading Node) : Reading Node := do
  if ← ahead ends then return .empty else node

def anchor (name : String) : Reading Nat := do
  let s ← get
  let number := s.names.length
  set { s with names := s.names.insert name number }
  return number

/-- Reads an anchor and a tag, in either order. -/
def properties : Reading Properties := do
  match ← peek with
  | some (.anchor name) =>
    skip
    let number ← anchor name
    match ← peek with
    | some (.tag tag) =>
      skip
      return ⟨some number, some tag⟩
    | _ => return ⟨some number, none⟩
  | some (.tag tag) =>
    skip
    match ← peek with
    | some (.anchor name) =>
      skip
      return ⟨some (← anchor name), some tag⟩
    | _ => return ⟨none, some tag⟩
  | _ => return {}

/-- Items behind dashes. Those of a sequence that is a mapping's value may stand below its key
without indentation; then nothing marks their end. -/
def items (node : Reading Node) (isMarked : Bool) : Nat → Reading (List Node)
  | 0 => failure
  | count + 1 => do
    if ← skipIf .entry then
      let ends := if isMarked then [.entry, .blockEnd] else [.entry, .key, .value, .blockEnd]
      let item ← orEmpty ends node
      return item :: (← items node isMarked count)
    else if !isMarked then return []
    else if ← skipIf .blockEnd then return []
    else failure

/-- The entries of a mapping without brackets. -/
def entries (node : Reading Node) : Nat → Reading (List (Node × Node))
  | 0 => failure
  | count + 1 => do
    if ← skipIf .key then
      let ends := [.key, .value, .blockEnd]
      let key ← orEmpty ends node
      let value ← if ← skipIf .value then orEmpty ends node else pure .empty
      return (key, value) :: (← entries node count)
    else if ← skipIf .blockEnd then return []
    else failure

/-- The value of a key in brackets, if there is a colon. -/
def flowValue (node : Reading Node) (closing : Token) : Reading Node := do
  if ← skipIf .value then orEmpty [.comma, closing] node else return .empty

/-- An item that is a mapping of one key. If the key is left out, the token after it is lost. -/
def pair (node : Reading Node) : Reading Node := do
  let key ←
    if ← ahead [.value, .comma, .closeSequence] then
      skip
      pure .empty
    else node
  return .mapping {} [(key, ← flowValue node .closeSequence)]

/-- The comma before an item or an entry in brackets that is not the first. -/
def comma? (isFirst : Bool) : Reading Bool := if isFirst then return true else skipIf .comma

/-- Items in brackets, with a comma before each but the first. -/
def flowItems (node : Reading Node) (isFirst : Bool) : Nat → Reading (List Node)
  | 0 => failure
  | count + 1 => do
    if ← skipIf .closeSequence then return []
    else if ← comma? isFirst then
      if ← skipIf .key then
        let item ← pair node
        return item :: (← flowItems node false count)
      else if ← skipIf .closeSequence then return []
      else
        let item ← node
        return item :: (← flowItems node false count)
    else failure

/-- Entries in brackets, with a comma before each but the first. -/
def flowEntries (node : Reading Node) (isFirst : Bool) : Nat → Reading (List (Node × Node))
  | 0 => failure
  | count + 1 => do
    if ← skipIf .closeMapping then return []
    else if ← comma? isFirst then
      if ← skipIf .key then
        let key ← orEmpty [.value, .comma, .closeMapping] node
        let value ← flowValue node .closeMapping
        return (key, value) :: (← flowEntries node false count)
      else if ← skipIf .closeMapping then return []
      else
        let key ← node
        return (key, .empty) :: (← flowEntries node false count)
    else failure

/-- Where a node stands. -/
inductive Place where
  | flow
  | block
  /-- As a key or value of a mapping without brackets. -/
  | entry
deriving DecidableEq

/-- A scalar with its properties. The bare tag of a scalar says nothing. -/
def scalar (p : Properties) (isPlain : Bool) (text : String) : Node :=
  let tag := p.tag.filter (· != "!")
  .scalar { p with tag } isPlain text

/-- Reads a node that is nested at most so deep. -/
def node (place : Place) : Nat → Reading Node
  | 0 => failure
  | depth + 1 => do
    let count := (← get).tokens.length + 1
    if let some (.alias name) := ← peek then
      skip
      let number ← ((← get).names.get? name).elim failure pure
      return .alias number
    let p ← properties
    if place = .entry && (← ahead [.entry]) then
      return .sequence p (← items (node .block depth) false count)
    match ← peek with
    | some (.scalar isPlain text) =>
      skip
      return scalar p isPlain text
    | some .openSequence =>
      skip
      return .sequence p (← flowItems (node .flow depth) true count)
    | some .openMapping =>
      skip
      return .mapping p (← flowEntries (node .flow depth) true count)
    | token =>
      if place ≠ .flow && token == some .blockSequence then
        skip
        return .sequence p (← items (node .block depth) true count)
      else if place ≠ .flow && token == some .blockMapping then
        skip
        return .mapping p (← entries (node .entry depth) count)
      else if p.anchor.isSome || p.tag.isSome then return .scalar p true ""
      else failure

/-- Reads the only document of a text. A document that has nothing in it is an empty node. -/
def document : Reading Node := do
  let depth := (← get).tokens.length + 1
  let isOpened ← skipIf .documentStart
  let isEmpty := (← peek).isNone || (isOpened && (← ahead [.documentStart, .documentEnd]))
  let root ← if isEmpty then pure .empty else node .block depth
  let s ← get
  if (s.tokens.dropWhile (· == .documentEnd)).isEmpty then return root else failure

end Reading

/-- The document that the tokens make up. -/
def Node.ofTokens? (tokens : List Token) : Option Node :=
  (Reading.document.run { tokens }).map (·.1)

end ApiGraph.Yaml
