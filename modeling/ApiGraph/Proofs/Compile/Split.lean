import ApiGraph.Proofs.Build.Reordered
import ApiGraph.Proofs.Merge.Shared
import ApiGraph.Proofs.Merge.Split

/-! Compiling a document that is split over files. The graph is that of the whole document, but for
the order of what follows the order of its definitions (`compile_split`). -/

namespace ApiGraph

open Build (Distinct)
open Merge (Mergeable Plan SelfContained definitionsOf directory withDefinitions result)

variable {files files' : FileTree} {input input' p : Path} {document : Json} {options : Options}

/-- Merging a file merges the document that it holds, from the directory that it stands in. -/
theorem mergeFile_eq (place : files.canonicalize input = .ok p)
    (loaded : files.load p = .ok document) :
    mergeFile files input = reported .merge (result files document (some p) (directory p)) := by
  simp only [mergeFile_eq_reported, Merge.fileResult, place, loaded]
  rfl

/-- Compiling a file merges its document and builds the graph of what that comes to. -/
theorem compile_eq_ok_iff (place : files.canonicalize input = .ok p)
    (loaded : files.load p = .ok document) {g : Graph} :
    compile files input options = .ok g ↔
      ∃ m, result files document (some p) (directory p) = .ok m ∧
        Build.graph files ⟨m.document, m.path⟩ options = .ok g := by
  rw [compile, mergeFile_eq place loaded, bind_eq_ok]
  simp only [compileDescription, reported_eq_ok_iff]

/-- A document that refers to no other file compiles to the graph that is built of it. -/
theorem graph_of_compile (place : files.canonicalize input = .ok p)
    (loaded : files.load p = .ok document)
    (self : ∀ raw ∈ document.refs, ∃ fragment, Reference.ofText raw = .ok (.inFile fragment))
    {g : Graph} (compiled : compile files input options = .ok g) :
    document.isObject = true ∧ Build.graph files ⟨document, some p⟩ options = .ok g := by
  obtain ⟨m, merged, built⟩ := (compile_eq_ok_iff place loaded).mp compiled
  obtain ⟨_, _, _, account⟩ := Merge.account_of_ok merged
  have isLocal : ∀ raw ∈ document.refs, Reference.IsLocalText raw := fun raw met =>
    (self raw met).elim fun _ read => Reference.isLocalText_of_inFile read
  obtain ⟨same, path⟩ := Merge.document_of_local (FileTree.unrepeated_of_load loaded) isLocal merged
  rw [same, path] at built
  exact ⟨account.isObject, built⟩

variable {definitions : Table Schema} {plan : Plan} {g : Graph}

/-- The parts of a document that compiles can be merged, up to what is moved. -/
theorem mergeable_of_compile (place : files.canonicalize input = .ok p)
    (loaded : files.load p = .ok document) (compiled : compile files input options = .ok g)
    (read : Description.definitions ⟨document, some p⟩ = .ok definitions)
    (self : SelfContained document) (distinct : Distinct document definitions)
    (split : plan.Splits files' document) (place' : files'.canonicalize input' = .ok plan.root) :
    Mergeable files' plan document where
  split := split
  self := self
  canonical := FileTree.isCanonical_of_canonicalize place'
  proper := by
    obtain ⟨_, built⟩ := graph_of_compile place loaded self.isLocal compiled
    exact Build.proper_of_graph read (.of_map _ distinct.labels) built

theorem movesObjects_of_compile (mergeable : Mergeable files' plan document)
    (unrepeated : document.Unrepeated) (place' : files'.canonicalize input' = .ok plan.root)
    (compiled' : compile files' input' options = .ok g) : plan.MovesObjects document := by
  obtain ⟨m, merged, _⟩ := (compile_eq_ok_iff place' mergeable.split.root).mp compiled'
  exact (mergeable.document_of_split unrepeated merged).1

/-- A document that is split over files compiles exactly if the definitions that were moved are
objects, and then to the graph of the whole document. -/
theorem compile_split (place : files.canonicalize input = .ok p)
    (loaded : files.load p = .ok document) (compiled : compile files input options = .ok g)
    (read : Description.definitions ⟨document, some p⟩ = .ok definitions)
    (self : SelfContained document) (distinct : Distinct document definitions)
    (split : plan.Splits files' document) (place' : files'.canonicalize input' = .ok plan.root) :
    ((∃ g', compile files' input' options = .ok g') ↔ plan.MovesObjects document) ∧
      ∀ g', compile files' input' options = .ok g' → g.Same g' := by
  obtain ⟨shape, built⟩ := graph_of_compile place loaded self.isLocal compiled
  have unrepeated := FileTree.unrepeated_of_load loaded
  have mergeable := mergeable_of_compile place loaded compiled read self distinct split place'
  have after : ∀ m, result files' (plan.rootDocument document) (some plan.root)
      (directory plan.root) = .ok m →
        ∃ g', Build.graph files' ⟨m.document, m.path⟩ options = .ok g' ∧ g.Same g' := by
    intro m merged
    obtain ⟨_, path, schemas, perm, whole⟩ := mergeable.document_of_split unrepeated merged
    rw [whole, path]
    exact Build.graph_reordered_named perm read distinct built (some plan.root)
  refine ⟨⟨?_, ?_⟩, ?_⟩
  · rintro ⟨g', compiled'⟩
    exact movesObjects_of_compile mergeable unrepeated place' compiled'
  · intro objects
    obtain ⟨m, merged⟩ := mergeable.exists_result objects shape
    obtain ⟨g', built', _⟩ := after m merged
    exact ⟨g', (compile_eq_ok_iff place' split.root).mpr ⟨m, merged, built'⟩⟩
  · intro g' compiled'
    obtain ⟨m, merged, built'⟩ := (compile_eq_ok_iff place' split.root).mp compiled'
    obtain ⟨g'', built'', same⟩ := after m merged
    rw [built'] at built''
    cases built''
    exact same

/-! A library of books and their authors, whole in one file and split over two. -/

private def refTo (text : String) : Json := .object [("$ref", .string text)]

private def bookNode : Json :=
  .object [("properties", .object [("author", refTo "#/components/schemas/Author")])]

/-- The document, by what stands for an author. -/
def library (author : Json) : Json :=
  .object [("openapi", .string "3.0"), ("components", .object [("schemas", .object [
    ("Book", bookNode), ("Author", author)])])]

/-- The author has a file in a directory of its own. -/
def splitLibrary : Plan where
  root := ⟨"/root.yaml"⟩
  home name := if name = "Author" then some ⟨"/parts/author.yaml"⟩ else none
  spell p raw :=
    if p = ⟨"/root.yaml"⟩ then
      if raw = "#/components/schemas/Author" then "parts/author.yaml" ++ raw else raw
    else if raw = "#/components/schemas/Book" then "../root.yaml" ++ raw else raw

/-- The lines of a description with a book, which refers to its author so. -/
private def bookLines (author : String) : List String :=
  ["openapi: \"3.0\"", "components:", " schemas:", "  Book:", "   properties:", "    author:",
    "     $ref: \"" ++ author ++ "\""]

private def ofLines (lines : List String) : FileEntry := .file (String.intercalate "\n" lines)

/-- The library in one file, by the lines for an author, who refers to a book in the given way. -/
def wholeFiles (author : String → List String) : FileTree where
  entries := [(["whole.yaml"], ofLines (bookLines "#/components/schemas/Author" ++
    author "#/components/schemas/Book"))]

/-- The library in two files. -/
def splitFiles (author : String → List String) : FileTree where
  entries := [(["root.yaml"], ofLines (bookLines "parts/author.yaml#/components/schemas/Author")),
    (["parts"], .directory),
    (["parts", "author.yaml"], ofLines (["components:", " schemas:"] ++
      author "../root.yaml#/components/schemas/Book"))]

theorem definitionsOf_library (author : Json) :
    definitionsOf (library author) = [("Book", bookNode), ("Author", author)] :=
  Merge.HasTable.definitions ⟨rfl, rfl, rfl⟩

theorem refs_library (author : Json) :
    (library author).refs = "#/components/schemas/Author" :: author.refs := by
  simp [library, bookNode, refTo, Json.refs, Json.refsFields, aliasTarget?, Json.get?, Json.fields?,
    Table.get?, refKey, Json.string?]

theorem refs_bookNode : bookNode.refs = ["#/components/schemas/Author"] := by decide

theorem definitionRef_book : definitionRef "Book" = "#/components/schemas/Book" := by
  decide

theorem definitionRef_author : definitionRef "Author" = "#/components/schemas/Author" := by
  decide

theorem home_splitLibrary {name : String} {p : Path} :
    splitLibrary.home name = some p ↔ name = "Author" ∧ p = ⟨"/parts/author.yaml"⟩ := by
  simp [splitLibrary, eq_comm]

theorem keys_library (author : Json) :
    (definitionsOf (library author)).keys = ["Book", "Author"] := by
  rw [definitionsOf_library]
  rfl

/-- What stands in the library is a book or an author. -/
theorem library_cases {author node : Json} {name : String}
    (found : (definitionsOf (library author)).get? name = some node) :
    name = "Book" ∧ node = bookNode ∨ name = "Author" ∧ node = author := by
  rw [definitionsOf_library] at found
  simpa using Table.mem_of_get?_eq_some found

/-- Authors that refer to nothing but books make a document that refers to no other file. -/
theorem selfContained_library {author : Json}
    (onlyBooks : ∀ raw ∈ author.refs, raw = "#/components/schemas/Book")
    (untitled : (author.get? "title").bind Json.string? = none) :
    SelfContained (library author) where
  isLocal := by
    intro raw met
    rw [refs_library, List.mem_cons] at met
    rcases met with rfl | met
    · rw [← definitionRef_author]
      exact ⟨_, ofText_definitionRef (by decide)⟩
    · rw [onlyBooks raw met, ← definitionRef_book]
      exact ⟨_, ofText_definitionRef (by decide)⟩
  inside := by
    intro name node found raw met
    rw [keys_library]
    rcases library_cases found with ⟨rfl, rfl⟩ | ⟨rfl, rfl⟩
    · rw [refs_bookNode, List.mem_singleton] at met
      exact ⟨"Author", by simp, met.trans definitionRef_author.symm⟩
    · exact ⟨"Book", by simp, (onlyBooks raw met).trans definitionRef_book.symm⟩
  named := by
    rw [keys_library]
    decide
  untitled := by
    intro name node found
    rcases library_cases found with ⟨rfl, rfl⟩ | ⟨rfl, rfl⟩
    · rfl
    · exact untitled

/-- The files hold the library as it is split, if the author stands in its file. -/
theorem splitLibrary_splits {author : Json} {lines : String → List String}
    (onlyBooks : ∀ raw ∈ author.refs, raw = "#/components/schemas/Book")
    (root : (splitFiles lines).load ⟨"/root.yaml"⟩ =
      .ok (splitLibrary.rootDocument (library author)))
    (place : (splitFiles lines).canonicalize ⟨"/parts/author.yaml"⟩ =
      .ok ⟨"/parts/author.yaml"⟩)
    (held : ((splitFiles lines).load ⟨"/parts/author.yaml"⟩).toOption.bind
      (definitionFragment "Author").lookup =
      some (author.mapRefs (splitLibrary.spell ⟨"/parts/author.yaml"⟩)))
    (written : ∀ p ∈ [(⟨"/root.yaml"⟩ : Path), ⟨"/parts/author.yaml"⟩],
      ∀ name ∈ ["Book", "Author"],
        Merge.LeadsAcross (splitFiles lines) p (splitLibrary.fileOf name) name
          (splitLibrary.spell p (definitionRef name))) :
    splitLibrary.Splits (splitFiles lines) (library author) where
  root := root
  moved := by
    intro name node p found home
    obtain ⟨rfl, rfl⟩ := home_splitLibrary.mp home
    rw [definitionsOf_library] at found
    obtain rfl := Option.some.inj found
    cases loaded : (splitFiles lines).load ⟨"/parts/author.yaml"⟩ with
    | error fault =>
      rw [loaded] at held
      cases held
    | ok other =>
      rw [loaded] at held
      exact ⟨by decide, place, other, rfl, held⟩
  written := by
    intro p isFile name defined
    rw [keys_library] at defined
    refine written p ?_ name defined
    rcases isFile with rfl | ⟨name, defined, home⟩
    · exact List.mem_cons_self
    · rw [(home_splitLibrary.mp home).2]
      simp
  others := by
    intro raw met other
    rw [keys_library] at other
    rw [refs_library, List.mem_cons] at met
    rcases met with rfl | met
    · exact absurd definitionRef_author.symm (other "Author" (by simp))
    · exact absurd ((onlyBooks raw met).trans definitionRef_book.symm) (other "Book" (by simp))
  reachable := by
    intro name node p found home
    obtain ⟨rfl, _⟩ := home_splitLibrary.mp home
    apply Plan.FromRoot.root
    have kept : splitLibrary.kept (library author) = .object [("openapi", .string "3.0"),
        ("components", .object [("schemas", .object [("Book", bookNode)])])] := by
      have table : Merge.HasTable (library author) _ _ _ := ⟨rfl, rfl, rfl⟩
      rw [Plan.kept, Merge.withDefinitions_eq table]
      rfl
    rw [kept, definitionRef_author]
    decide

/-- Books and authors have labels and join tables of their own, and no `allOf`. -/
theorem distinct_library {author : Json} {definitions : Table Schema}
    (shape : (definitions.keys.map (fun name => (name, Naming.flat name)),
      (Build.members definitions).length) = ([("Book", "book"), ("Author", "author")], 0)) :
    Distinct (library author) definitions := by
  obtain ⟨labelled, none⟩ := Prod.mk.inj shape
  refine ⟨?_, Build.joinsApart_of_labels labelled (by decide), ?_⟩
  · have labels : definitions.keys.map Naming.flat = ["book", "author"] := by
      have seconds := congrArg (List.map Prod.snd) labelled
      rwa [List.map_map] at seconds
    rw [labels]
    decide
  · intro m member
    rw [List.length_eq_zero_iff.mp none] at member
    cases member

/-- The library as one file compiles if its document does. -/
theorem exists_compiled {author : Json} {lines : String → List String}
    (loaded : (wholeFiles lines).load ⟨"/whole.yaml"⟩ = .ok (library author))
    (place : (wholeFiles lines).canonicalize ⟨"whole.yaml"⟩ = .ok ⟨"/whole.yaml"⟩)
    (run : ((result (wholeFiles lines) (library author) (some ⟨"/whole.yaml"⟩)
        (directory ⟨"/whole.yaml"⟩) >>= fun m =>
          Build.graph (wholeFiles lines) ⟨m.document, m.path⟩ {}).toOption.map
      fun g => g.entities.keys) = some ["Book", "Author"]) :
    ∃ g, compile (wholeFiles lines) ⟨"whole.yaml"⟩ {} = .ok g := by
  obtain ⟨g, done, _⟩ := exists_ok_of_map run
  exact ⟨g, (compile_eq_ok_iff place loaded).mpr (bind_eq_ok.mp done)⟩

/-- An author has a book. -/
private def author : Json :=
  .object [("properties", .object [("book", refTo "#/components/schemas/Book")])]

private def authorLines (book : String) : List String :=
  ["  Author:", "   properties:", "    book:", "     $ref: \"" ++ book ++ "\""]

/-- The library compiles to one graph, whole and split. -/
theorem library_compiles : ∃ g g',
    compile (wholeFiles authorLines) ⟨"whole.yaml"⟩ {} = .ok g ∧
    compile (splitFiles authorLines) ⟨"root.yaml"⟩ {} = .ok g' ∧ g.Same g' := by
  have loaded : (wholeFiles authorLines).load ⟨"/whole.yaml"⟩ = .ok (library author) := by
    decide +kernel
  have place : (wholeFiles authorLines).canonicalize ⟨"whole.yaml"⟩ = .ok ⟨"/whole.yaml"⟩ := by
    decide +kernel
  have place' : (splitFiles authorLines).canonicalize ⟨"root.yaml"⟩ = .ok splitLibrary.root := by
    decide +kernel
  have read : (Description.definitions ⟨library author, some ⟨"/whole.yaml"⟩⟩).toOption.map
      (fun definitions => (definitions.keys.map (fun name => (name, Naming.flat name)),
        (Build.members definitions).length)) =
      some ([("Book", "book"), ("Author", "author")], 0) := by
    decide +kernel
  have onlyBooks : ∀ raw ∈ author.refs, raw = "#/components/schemas/Book" := by decide +kernel
  obtain ⟨g, compiled⟩ := exists_compiled loaded place (by decide +kernel)
  obtain ⟨definitions, defined, shape⟩ := exists_ok_of_map read
  have split := @splitLibrary_splits author authorLines onlyBooks (by decide +kernel)
    (by decide +kernel) (by decide +kernel) (by decide +kernel)
  have objects : splitLibrary.MovesObjects (library author) := by
    intro name node q found _
    rcases library_cases found with ⟨_, rfl⟩ | ⟨_, rfl⟩
    · rfl
    · rfl
  obtain ⟨compiles, same⟩ := compile_split place loaded compiled defined
    (selfContained_library onlyBooks (by decide +kernel)) (distinct_library shape) split place'
  obtain ⟨g', compiled'⟩ := compiles.mpr objects
  exact ⟨g, g', compiled, compiled', same g' compiled'⟩

/-- An author as the list of its fields: no reference, an object without title and description,
and its properties. -/
private def listedAuthor : Json :=
  .array [.null, .string "object", .null, .null,
    .object [("book", refTo "#/components/schemas/Book")]]

private def listedAuthorLines (book : String) : List String :=
  ["  Author:", "  - null", "  - object", "  - null", "  - null", "  - book:",
    "     $ref: \"" ++ book ++ "\""]

/-- A definition that is the list of its fields compiles where it stands, but merging does not bring
it in from another file. -/
theorem listedAuthor_not_moved : ∃ g definitions,
    compile (wholeFiles listedAuthorLines) ⟨"whole.yaml"⟩ {} = .ok g ∧
    (wholeFiles listedAuthorLines).load ⟨"/whole.yaml"⟩ = .ok (library listedAuthor) ∧
    Description.definitions ⟨library listedAuthor, some ⟨"/whole.yaml"⟩⟩ = .ok definitions ∧
    SelfContained (library listedAuthor) ∧ Distinct (library listedAuthor) definitions ∧
    splitLibrary.Splits (splitFiles listedAuthorLines) (library listedAuthor) ∧
    (splitFiles listedAuthorLines).canonicalize ⟨"root.yaml"⟩ = .ok splitLibrary.root ∧
    ∀ g', compile (splitFiles listedAuthorLines) ⟨"root.yaml"⟩ {} ≠ .ok g' := by
  have loaded : (wholeFiles listedAuthorLines).load ⟨"/whole.yaml"⟩ =
      .ok (library listedAuthor) := by
    decide +kernel
  have place : (wholeFiles listedAuthorLines).canonicalize ⟨"whole.yaml"⟩ =
      .ok ⟨"/whole.yaml"⟩ := by
    decide +kernel
  have place' : (splitFiles listedAuthorLines).canonicalize ⟨"root.yaml"⟩ =
      .ok splitLibrary.root := by
    decide +kernel
  have read : (Description.definitions ⟨library listedAuthor, some ⟨"/whole.yaml"⟩⟩).toOption.map
      (fun definitions => (definitions.keys.map (fun name => (name, Naming.flat name)),
        (Build.members definitions).length)) =
      some ([("Book", "book"), ("Author", "author")], 0) := by
    decide +kernel
  have onlyBooks : ∀ raw ∈ listedAuthor.refs, raw = "#/components/schemas/Book" := by
    decide +kernel
  obtain ⟨g, compiled⟩ := exists_compiled loaded place (by decide +kernel)
  obtain ⟨definitions, defined, shape⟩ := exists_ok_of_map read
  have split := @splitLibrary_splits listedAuthor listedAuthorLines onlyBooks (by decide +kernel)
    (by decide +kernel) (by decide +kernel) (by decide +kernel)
  have self := selfContained_library onlyBooks (by decide +kernel)
  have distinct : Distinct (library listedAuthor) definitions := distinct_library shape
  refine ⟨g, definitions, compiled, loaded, defined, self, distinct, split, place', ?_⟩
  intro g' compiled'
  have mergeable := mergeable_of_compile place loaded compiled defined self distinct split place'
  have objects := movesObjects_of_compile mergeable (FileTree.unrepeated_of_load loaded) place'
    compiled'
  have author := definitionsOf_library listedAuthor
  have isObject := objects "Author" listedAuthor ⟨"/parts/author.yaml"⟩
    (by rw [author]; rfl) rfl
  cases isObject

end ApiGraph
