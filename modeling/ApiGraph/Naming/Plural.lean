import ApiGraph.Naming.Words

/-!
English plurals of identifiers, in the flat form. Only the last word changes. The tables hold for
a whole word: `SalesPerson` becomes `salespeople`, while `price` takes the regular ending although
`rice` has no plural of its own.
-/

namespace ApiGraph.Naming

/-- Words with a plural that follows no rule. -/
def irregular : List (String × String) :=
  [("child", "children"), ("foot", "feet"), ("goose", "geese"), ("louse", "lice"), ("man", "men"),
   ("mouse", "mice"), ("ox", "oxen"), ("person", "people"), ("tooth", "teeth"),
   ("woman", "women")]

/-- Words that are their own plural. -/
def uncountable : List String :=
  ["deer", "equipment", "fish", "information", "money", "news", "rice", "series", "sheep",
   "species"]

/-- Words in `f` or `fe` with a plural in `ves`. -/
def withVes : List String :=
  ["calf", "elf", "half", "knife", "leaf", "life", "loaf", "self", "shelf", "thief", "wife",
   "wolf"]

/-- Words in `o` with a plural in `oes`. -/
def withOes : List String := ["echo", "hero", "potato", "tomato", "torpedo", "veto"]

def isVowel (c : Char) : Bool := c ∈ ['a', 'e', 'i', 'o', 'u']

def endsInVowel (cs : List Char) : Bool := cs.getLast?.any isVowel

def takesEs (word : List Char) : Bool :=
  Text.endsWith ['s'] word || Text.endsWith ['x'] word || Text.endsWith ['z'] word ||
  Text.endsWith ['c', 'h'] word || Text.endsWith ['s', 'h'] word

/-- What is left of a word without a final `fe` or `f`. -/
def withoutF (word : List Char) : List Char :=
  match Text.dropTail? ['f', 'e'] word with
  | some stem => stem
  | none => (Text.dropTail? ['f'] word).getD word

/-- The regular plural of a word that is in no table. -/
def regularPlural (word : List Char) : List Char :=
  if takesEs word then word ++ ['e', 's']
  else
    match Text.dropTail? ['y'] word with
    | some stem => if endsInVowel stem then word ++ ['s'] else stem ++ ['i', 'e', 's']
    | none => word ++ ['s']

/-- The plural of one word in lower case; the empty word stays. -/
def pluralWord (word : List Char) : List Char :=
  let name := String.ofList word
  if word.isEmpty || name ∈ uncountable then word
  else
    match irregular.find? (·.1 == name) with
    | some (_, plural) => plural.toList
    | none =>
      if name ∈ withVes then withoutF word ++ ['v', 'e', 's']
      else if name ∈ withOes then word ++ ['e', 's']
      else regularPlural word

/-- The flat plural: what stands before the last underscore of the snake form, without its
underscores, and then the plural of the last word. -/
def pluralize (ident : String) : String :=
  let snake := snakeChars ident
  let (before, last) := (Text.cutLast '_' snake).getD ([], snake)
  String.ofList (before.filter (· != '_') ++ pluralWord last)

end ApiGraph.Naming
