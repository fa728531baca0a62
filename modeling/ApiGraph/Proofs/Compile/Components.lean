import ApiGraph.Proofs.Compile.Split
import ApiGraph.Proofs.Merge.Moved

/-! Moving a parameter, a response or a request body to another file. Merging takes whatever a
document refers to in another file for a definition, so every graph that the document compiles to
then has further entities. It has none exactly if all that the moved references lead to is called
like definitions that the document has; these are then read in its place (`compile_moved`). -/

namespace ApiGraph

open Merge (Closed Move Redirects definitionsOf directory redirect result)

variable {files files' : FileTree} {input input' p : Path} {document node other : Json}
  {options : Options} {g : Graph} {move : Move}

/-- A graph of a merged document has the definitions of the document as its entities, and then those
that were brought in. -/
theorem keys_of_account {root : Path} {targets : List Resolved} {names : Table String} {m : Merged}
    (account : Merge.Account files (.of document (some root)) (directory root) targets names m)
    (unique : (definitionsOf document).keys.Nodup)
    (built : Build.graph files ⟨m.document, m.path⟩ options = .ok g) :
    g.entities.keys = (definitionsOf document).keys ++ m.inlined.keys := by
  have keys : (definitionsOf m.document).keys =
      (definitionsOf document).keys ++ m.inlined.keys := by
    rw [account.definitions, Table.keys_append, Merge.definitionsOf_mapRefs, Json.keys_mapEntries]
  rw [(Build.keys_graph built ?_).1, keys]
  rw [keys, List.nodup_append]
  refine ⟨unique, account.keys_nodup, ?_⟩
  rintro key before _ brought rfl
  have fresh := account.fresh id key brought
  rw [Merge.definitionsOf_mapRefs, Json.keys_mapEntries] at fresh
  exact fresh before

/-- A graph of a document from which a component was moved to another file comes from a merge that
adds the targets which it brings in to the entities. -/
theorem account_of_moved (moves : move.Moves files' document node other)
    (place' : files'.canonicalize input' = .ok move.root)
    (unique : (definitionsOf document).keys.Nodup) {g' : Graph}
    (compiled' : compile files' input' options = .ok g') : ∃ targets names m,
      Merge.Account files' (move.asRoot document) (directory move.root) targets names m ∧
      Build.graph files' ⟨m.document, some move.root⟩ options = .ok g' ∧
      g'.entities.keys = (definitionsOf document).keys ++ m.inlined.keys := by
  obtain ⟨m, merged, built'⟩ := (compile_eq_ok_iff place' moves.root).mp compiled'
  obtain ⟨path, targets, names, account⟩ := Merge.account_of_ok merged
  have kept : (definitionsOf (move.rootDocument document)).keys =
      (definitionsOf document).keys := by
    rw [Move.definitionsOf_rootDocument moves.isPart, Json.keys_mapEntries]
  have keys := keys_of_account account (kept ▸ unique) built'
  rw [path] at built'
  exact ⟨targets, names, m, account, built', by rw [keys, kept]⟩

/-- A document from which a component was moved compiles to a graph with the same entities exactly
if merging only redirects its references, and then to the graph of what this comes to. -/
theorem compile_moved_iff (moves : move.Moves files' document node other) (closed : Closed document)
    (isObject : document.isObject = true) (unique : (definitionsOf document).keys.Nodup)
    (place' : files'.canonicalize input' = .ok move.root) {g' : Graph}
    (same : g'.entities.keys.Perm (definitionsOf document).keys) :
    compile files' input' options = .ok g' ↔
      Redirects files' (move.asRoot document) (directory move.root) ∧
        Build.graph files' ⟨(move.rootDocument document).mapRefs
          (redirect files' (move.asRoot document) (directory move.root)), some move.root⟩
            options = .ok g' := by
  have canonical := FileTree.isCanonical_of_canonicalize place'
  have byKey := moves.namedByKey closed canonical
  constructor
  · intro compiled'
    obtain ⟨targets, names, m, account, built', keys⟩ :=
      account_of_moved moves place' unique compiled'
    have nothing : m.inlined = [] := by
      have lengths := same.length_eq
      rw [keys, List.length_append] at lengths
      have none : m.inlined.keys.length = 0 := by omega
      exact List.map_eq_nil_iff.mp (List.length_eq_zero_iff.mp none)
    refine ⟨(account.inlined_eq_nil_iff byKey).mp nothing, ?_⟩
    rw [account.document_eq_redirected byKey nothing] at built'
    exact built'
  · rintro ⟨redirects, built'⟩
    obtain ⟨m, merged⟩ := redirects.exists_result
      ((Move.isObject_rootDocument document).trans isObject) (moves.reads closed)
    obtain ⟨path, targets, names, account⟩ := Merge.account_of_ok merged
    have account : Merge.Account files' (move.asRoot document) (directory move.root)
      targets names m := account
    have nothing := (account.inlined_eq_nil_iff byKey).mpr redirects
    refine (compile_eq_ok_iff place' moves.root).mpr ⟨m, merged, ?_⟩
    rw [account.document_eq_redirected byKey nothing, path]
    exact built'

/-- A document from which a component was moved to another file has, in every graph that it compiles
to, its definitions as entities and further ones for what is brought in from there. There are none
exactly if all that is referred to there is called like definitions of the document, and a graph
with the same entities is that of the document with its references redirected to them. A component
that is no reference itself has to be called like a definition then. -/
theorem compile_moved (place : files.canonicalize input = .ok p)
    (loaded : files.load p = .ok document) (closed : Closed document)
    (compiled : compile files input options = .ok g)
    (moves : move.Moves files' document node other)
    (place' : files'.canonicalize input' = .ok move.root) :
    (∀ g', compile files' input' options = .ok g' → ∃ more,
      g'.entities.keys = g.entities.keys ++ more ∧
        (more = [] ↔ Redirects files' (move.asRoot document) (directory move.root))) ∧
    (∀ g', g'.entities.keys.Perm g.entities.keys →
      (compile files' input' options = .ok g' ↔
        Redirects files' (move.asRoot document) (directory move.root) ∧
          Build.graph files' ⟨(move.rootDocument document).mapRefs
            (redirect files' (move.asRoot document) (directory move.root)), some move.root⟩
              options = .ok g')) ∧
    (aliasTarget? node = none → Redirects files' (move.asRoot document) (directory move.root) →
      move.called node ∈ g.entities.keys) := by
  have canonical := FileTree.isCanonical_of_canonicalize place'
  obtain ⟨isObject, built⟩ := graph_of_compile place loaded closed.self compiled
  obtain ⟨unique, _⟩ := Merge.unrepeated_definitions (FileTree.unrepeated_of_load loaded)
  rw [(Build.keys_graph built unique).1]
  refine ⟨?_, ?_, ?_⟩
  · intro g' compiled'
    obtain ⟨targets, names, m, account, _, keys⟩ := account_of_moved moves place' unique compiled'
    refine ⟨m.inlined.keys, keys, ?_⟩
    rw [Table.keys, List.map_eq_nil_iff]
    exact account.inlined_eq_nil_iff (moves.namedByKey closed canonical)
  · exact fun g' same => compile_moved_iff moves closed isObject unique place' same
  · exact fun proper redirects => moves.called_mem_authored canonical proper redirects

/-- The graph that is built of a document that refers to no other file is what it compiles to. -/
theorem compile_of_graph (place : files.canonicalize input = .ok p)
    (loaded : files.load p = .ok document) (closed : Closed document)
    (isObject : document.isObject = true)
    (built : Build.graph files ⟨document, some p⟩ options = .ok g) :
    compile files input options = .ok g := by
  have isLocal : ∀ raw ∈ document.refs, Reference.IsLocalText raw := fun raw met =>
    (closed.self raw met).elim fun _ read => Reference.isLocalText_of_inFile read
  have redirects : Redirects files (.of document (some p)) (directory p) :=
    fun raw met moves => absurd ⟨rfl, isLocal raw met⟩ moves
  have reads : ∀ raw ∈ document.refs, ∃ ref, Reference.ofText raw = .ok ref := by
    intro raw met
    obtain ⟨fragment, read⟩ := closed.self raw met
    exact ⟨_, read⟩
  obtain ⟨m, merged⟩ := redirects.exists_result isObject reads
  obtain ⟨same, path⟩ := Merge.document_of_local (FileTree.unrepeated_of_load loaded) isLocal merged
  refine (compile_eq_ok_iff place loaded).mpr ⟨m, merged, ?_⟩
  rw [same, path]
  exact built

/-! A parameter that bounds how many pets are listed, in the file of the list and in one of its own.
-/

/-- The parameter, with what else it may hold. -/
private def limitNode (more : List (String × Json)) : Json :=
  .object ([("name", .string "limit"), ("in", .string "query")] ++ more)

/-- A list of pets that refers to its parameter so, with parameters and definitions. -/
def petList (limit : String) (parameters definitions : List (String × Json)) : Json :=
  .object [("openapi", .string "3.0.0"),
    ("paths", .object [("/pets", .object [("get", .object [
      ("parameters", .array [.object [("$ref", .string limit)]]),
      ("responses", .object [("204", .object [("description", .string "none")])])])])]),
    ("components", .object [("parameters", .object parameters), ("schemas", .object definitions)])]

/-- The list with its parameter. -/
def wholeList (definitions : List (String × Json)) : Json :=
  petList "#/components/parameters/limit" [("limit", limitNode [])] definitions

/-- What stands in the file of the parameter. -/
def limitFile : Json :=
  .object [("components", .object [("parameters", .object [("limit", limitNode [])])])]

/-- The parameter is moved to a file next to that of the list. -/
def limitMove : Move where
  part := "parameters"
  name := "limit"
  root := ⟨"/api.json"⟩
  home := ⟨"/limit.json"⟩
  spell p raw := if p = ⟨"/api.json"⟩ then "limit.json" ++ raw else raw

/-- The list in one file. -/
def wholeListFiles (definitions : List (String × Json)) : FileTree where
  entries := [(["api.json"], .file (wholeList definitions).indented)]

/-- The list and its parameter in two files. -/
def movedListFiles (definitions : List (String × Json)) : FileTree where
  entries := [(["api.json"], .file (limitMove.rootDocument (wholeList definitions)).indented),
    (["limit.json"], .file limitFile.indented)]

/-- A definition that is called like the parameter, and can be read in its place. -/
def limitDefinition : List (String × Json) :=
  [("limit", limitNode [("properties",
    .object [("count", .object [("type", .string "integer")])])])]

/-- The definitions of the lists. -/
def listDefinitions : List (List (String × Json)) := [[], limitDefinition]

/-- What is seen of the lists by computation. -/
theorem list_facts : ∀ definitions ∈ listDefinitions,
    limitMove.rootDocument (wholeList definitions) =
      petList "limit.json#/components/parameters/limit" [] definitions ∧
    (wholeList definitions).allRefs = ["#/components/parameters/limit"] ∧
    (limitMove.kept (wholeList definitions)).refs = ["#/components/parameters/limit"] ∧
    (wholeListFiles definitions).canonicalize ⟨"api.json"⟩ = .ok ⟨"/api.json"⟩ ∧
    (movedListFiles definitions).canonicalize ⟨"api.json"⟩ = .ok ⟨"/api.json"⟩ ∧
    (movedListFiles definitions).canonicalize ⟨"/limit.json"⟩ = .ok ⟨"/limit.json"⟩ := by
  decide

theorem ofText_limit :
    Reference.ofText "#/components/parameters/limit" = .ok (.inFile limitMove.place) := by
  decide

theorem closed_wholeList {definitions : List (String × Json)}
    (member : definitions ∈ listDefinitions) : Closed (wholeList definitions) := by
  intro raw met
  rw [(list_facts definitions member).2.1, List.mem_singleton] at met
  exact ⟨_, met ▸ ofText_limit⟩

theorem load_wholeList {definitions : List (String × Json)}
    (member : definitions ∈ listDefinitions) :
    (wholeListFiles definitions).load ⟨"/api.json"⟩ = .ok (wholeList definitions) := by
  rcases List.mem_pair.mp member with rfl | rfl <;>
  · apply FileTree.load_of_indented ["api.json"] (by decide +kernel) (by decide +kernel) rfl ?_
      (by decide +kernel)
    simp [wholeList, petList, limitDefinition, limitNode, Json.Reader.depthLimit,
      Json.plain_object_iff, Json.plain_array_iff, Json.Plain.string]

theorem load_movedList {definitions : List (String × Json)}
    (member : definitions ∈ listDefinitions) :
    (movedListFiles definitions).load ⟨"/api.json"⟩ =
      .ok (limitMove.rootDocument (wholeList definitions)) := by
  have written := (list_facts definitions member).1
  rcases List.mem_pair.mp member with rfl | rfl <;>
  · apply FileTree.load_of_indented ["api.json"] (by decide +kernel) (by decide +kernel) rfl ?_
      (by decide +kernel)
    rw [written]
    simp [petList, limitDefinition, limitNode, Json.Reader.depthLimit, Json.plain_object_iff,
      Json.plain_array_iff, Json.Plain.string]

theorem load_limitFile {definitions : List (String × Json)}
    (member : definitions ∈ listDefinitions) :
    (movedListFiles definitions).load ⟨"/limit.json"⟩ = .ok limitFile := by
  rcases List.mem_pair.mp member with rfl | rfl <;>
  · apply FileTree.load_of_indented ["limit.json"] (by decide +kernel) (by decide +kernel) rfl ?_
      (by decide +kernel)
    simp [limitFile, limitNode, Json.Reader.depthLimit, Json.plain_object_iff, Json.Plain.string]

theorem limit_moves {definitions : List (String × Json)} (member : definitions ∈ listDefinitions) :
    limitMove.Moves (movedListFiles definitions) (wholeList definitions) (limitNode [])
      limitFile where
  isPart := by decide
  found := rfl
  used := ⟨_, "#/components/parameters/limit", rfl, by decide, ofText_limit⟩
  apart := by decide
  root := load_movedList member
  home := load_limitFile member
  held := by decide
  written := by
    obtain ⟨_, _, refs, _, _, leads⟩ := list_facts definitions member
    rintro p part (⟨rfl, rfl⟩ | ⟨rfl, rfl⟩) raw met fragment read
    · rw [refs, List.mem_singleton] at met
      subst met
      rw [ofText_limit] at read
      cases read
      exact Or.inr ⟨⟨"limit.json"⟩, by decide, leads⟩
    · have none : (limitNode []).refs = [] := by decide
      rw [none] at met
      cases met
  hidden := by
    have none : (limitNode []).hiddenRefs = [] := by decide
    intro raw met
    rw [none] at met
    cases met

/-- The reference to the parameter is redirected to a definition that is called like it. -/
theorem limit_redirects : Redirects (movedListFiles limitDefinition)
      (limitMove.asRoot (wholeList limitDefinition)) (directory limitMove.root) ∧
    (limitMove.rootDocument (wholeList limitDefinition)).mapRefs (redirect
      (movedListFiles limitDefinition) (limitMove.asRoot (wholeList limitDefinition))
        (directory limitMove.root)) = petList "#/components/schemas/limit" [] limitDefinition := by
  have member : limitDefinition ∈ listDefinitions := by simp [listDefinitions]
  have moves := limit_moves member
  obtain ⟨_, _, _, _, place, leads⟩ := list_facts _ member
  have refs : (limitMove.rootDocument (wholeList limitDefinition)).refs =
      ["limit.json#/components/parameters/limit"] := by
    decide
  have read : Reference.ofText "limit.json#/components/parameters/limit" =
      .ok (.external ⟨"limit.json"⟩ limitMove.place) := by
    decide
  obtain ⟨t, away, name⟩ := moves.meaning_of_external
    (FileTree.isCanonical_of_canonicalize place) rfl read leads
  have called : limitMove.called (limitNode []) = "limit" := by decide
  rw [called] at name
  constructor
  · intro raw met _
    have met : raw ∈ (limitMove.rootDocument (wholeList limitDefinition)).refs := met
    rw [refs, List.mem_singleton] at met
    refine ⟨t, met ▸ away.leads, Or.inr ?_⟩
    rw [moves.authored_eq, name]
    decide
  · have form := Merge.redirect_of_away away
    rw [name] at form
    have same : ∀ raw ∈ (limitMove.rootDocument (wholeList limitDefinition)).refs,
        redirect (movedListFiles limitDefinition) (limitMove.asRoot (wholeList limitDefinition))
          (directory limitMove.root) raw = definitionRef "limit" := by
      intro raw met
      rw [refs, List.mem_singleton] at met
      rw [met, form]
    rw [Json.mapRefs_congr same]
    decide

/-- With a definition that is called like the parameter, the list compiles to one graph before and
after the move. -/
theorem limit_compiles : ∃ g,
    compile (wholeListFiles limitDefinition) ⟨"api.json"⟩ {} = .ok g ∧
    compile (movedListFiles limitDefinition) ⟨"api.json"⟩ {} = .ok g := by
  have member : limitDefinition ∈ listDefinitions := by simp [listDefinitions]
  obtain ⟨_, _, _, place, place', _⟩ := list_facts _ member
  have run : (Build.graph (wholeListFiles limitDefinition)
      ⟨wholeList limitDefinition, some ⟨"/api.json"⟩⟩ {}).toOption.map (fun g =>
        (Build.graph (movedListFiles limitDefinition)
          ⟨petList "#/components/schemas/limit" [] limitDefinition, some limitMove.root⟩
            {}).toOption.map fun g' => decide (g = g')) = some (some true) := by
    decide +kernel
  obtain ⟨g, built, run'⟩ := exists_ok_of_map run
  obtain ⟨g', built', same⟩ := exists_ok_of_map run'
  obtain rfl := of_decide_eq_true same
  have closed := closed_wholeList member
  have compiled := compile_of_graph place (load_wholeList member) closed rfl built
  obtain ⟨_, equal, _⟩ := compile_moved place (load_wholeList member) closed compiled
    (limit_moves member) place'
  refine ⟨g, compiled, (equal g (.refl _)).mpr ⟨limit_redirects.1, ?_⟩⟩
  rw [limit_redirects.2]
  exact built'

/-- Without such a definition, the list does not compile to its graph after the move. -/
theorem limit_not_equal : ∃ g, compile (wholeListFiles []) ⟨"api.json"⟩ {} = .ok g ∧
    Closed (wholeList []) ∧
    limitMove.Moves (movedListFiles []) (wholeList []) (limitNode []) limitFile ∧
    (movedListFiles []).canonicalize ⟨"api.json"⟩ = .ok limitMove.root ∧
    compile (movedListFiles []) ⟨"api.json"⟩ {} ≠ .ok g := by
  have member : [] ∈ listDefinitions := by simp [listDefinitions]
  obtain ⟨_, _, _, place, place', _⟩ := list_facts _ member
  have moves := limit_moves member
  have run : (Build.graph (wholeListFiles [])
      ⟨wholeList [], some ⟨"/api.json"⟩⟩ {}).toOption.map (fun g => g.entities.keys) = some [] := by
    decide +kernel
  obtain ⟨g, built, none⟩ := exists_ok_of_map run
  have closed := closed_wholeList member
  have compiled := compile_of_graph place (load_wholeList member) closed rfl built
  refine ⟨g, compiled, closed, moves, place', ?_⟩
  intro compiled'
  have empty : (definitionsOf (wholeList [])).keys = [] := by decide +kernel
  have canonical := FileTree.isCanonical_of_canonicalize place'
  have redirects := ((compile_moved_iff moves closed rfl (by simp [empty]) place'
    (by rw [none, empty])).mp compiled').1
  have called := moves.called_mem_authored canonical rfl redirects
  rw [empty] at called
  cases called

end ApiGraph
