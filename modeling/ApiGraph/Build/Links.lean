import ApiGraph.Build.Link

/-!
All links of a description, in two rounds: first the alternatives of `oneOf`, on definitions and on
properties, then array definitions and plain reference properties. An alternative of primitive type
becomes a nullable column.
-/

namespace ApiGraph.Build

/-- One alternative of a definition, or of one of its properties. -/
structure Alternative where
  source : String
  property : Option String
  schema : Schema

namespace Alternative

def site (a : Alternative) : Site := .alternative a.property

/-- The alternatives of one definition: its own first, then those of its properties. -/
def ofDefinition (name : String) (schema : Schema) : List Alternative :=
  schema.oneOf.map (⟨name, none, ·⟩) ++
  schema.properties.flatMap fun (property, p) => p.oneOf.map (⟨name, some property, ·⟩)

/-- The name of the column of a primitive alternative. -/
def columnName (a : Alternative) (primitive : Primitive) : String :=
  Site.lead a.source a.property ++ "_" ++ primitive.name

def mention? (a : Alternative) : Option Mention :=
  a.schema.refTarget.map fun (ref, forward) => ⟨a.source, a.site, ref, forward⟩

/-- Adds the column or places the link of an alternative. -/
def expand (source : Source) (s : State) (a : Alternative) : Except Fault State := do
  match a.schema.primitive with
  | some primitive =>
    s.modifyEntity a.source
      (·.addColumn (a.columnName primitive) (.ofSchema primitive a.schema true))
  | none =>
    match a.mention? with
    | some m => (← m.link source).place s
    | none => .error (.unsupportedShape (a.site.owner a.source) .alternative)

end Alternative

def alternatives (definitions : Table Schema) : List Alternative :=
  definitions.flatMap fun (name, schema) => Alternative.ofDefinition name schema

def expandAlternatives (source : Source) (s : State) : Except Fault State :=
  (alternatives source.definitions).foldlM (Alternative.expand source) s

namespace Mention

/-- The reference that an array definition is made of. -/
def ofItems (name : String) (schema : Schema) : List Mention :=
  if schema.isArray then (schema.itemsRef.map (⟨name, .definition, ·, .many⟩)).toList else []

/-- The reference that a property without alternatives consists of. -/
def ofProperty (name property : String) (p : Schema) : List Mention :=
  if p.oneOf.isEmpty then
    (p.refTarget.map fun (ref, forward) => ⟨name, .property property, ref, forward⟩).toList
  else []

def ofDefinition (name : String) (schema : Schema) : List Mention :=
  ofItems name schema ++ schema.properties.flatMap fun (property, p) => ofProperty name property p

def place (source : Source) (s : State) (m : Mention) : Except Fault State := do
  (← m.link source).place s

end Mention

def mentions (definitions : Table Schema) : List Mention :=
  definitions.flatMap fun (name, schema) => Mention.ofDefinition name schema

def placeMentions (source : Source) (s : State) : Except Fault State :=
  (mentions source.definitions).foldlM (Mention.place source) s

end ApiGraph.Build
