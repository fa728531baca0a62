/-!
The tokens that YAML text is made of. Block collections, which the text shows by indentation alone,
have a token where they begin and one where they end, like collections in brackets.
-/

namespace ApiGraph.Yaml

/-- A tag in full: that of a local type begins with an exclamation mark. -/
abbrev Tag := String

/-- What the tags of the types that come with the language begin with. -/
def coreTags : Tag := "tag:yaml.org,2002:"

inductive Token where
  | documentStart
  | documentEnd
  | blockSequence
  | blockMapping
  /-- The end of either block collection. -/
  | blockEnd
  | openSequence
  | closeSequence
  | openMapping
  | closeMapping
  /-- The dash before an item. -/
  | entry
  | comma
  | key
  | value
  | anchor (name : String)
  | alias (name : String)
  | tag (tag : Tag)
  | scalar (isPlain : Bool) (text : String)
deriving DecidableEq, Repr

end ApiGraph.Yaml
