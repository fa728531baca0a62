import ApiGraph.Proofs.Merge.Redirect
import ApiGraph.Proofs.Merge.Split

/-! A component that is moved to another file. References in the document and in the component are
written so that they lead to what they led to before (`PointsAt`). Then whatever is followed from
the document stays in its file or within the component (`Moves.stands_of_target`), so that all that
the document refers to outside of it is in one file, and its keys tell it apart
(`Moves.namedByKey`). -/

namespace ApiGraph

namespace Json

open Pointer (keyOf)

theorem follow_of_get? {j k : Json} {segment : List Char} (h : j.get? (keyOf segment) = some k)
    (rest : List (List Char)) : j.follow (segment :: rest) = k.follow rest := by
  cases j with
  | object fields =>
    have found : Table.get? fields (keyOf segment) = some k := h
    rw [follow_cons, step_object, ← keyOf, found, Option.bind_some]
  | _ => cases h

end Json

namespace Merge

open Json.Pointer (keyOf)
open Resolver (Origin)

/-- The parts of the components that endpoints are made of. -/
def endpointParts : List String := ["parameters", "responses", "requestBodies"]

/-- A component that is moved out of a document. -/
structure Move where
  /-- The part of the components that it stands in. -/
  part : String
  name : String
  /-- The file of the document. -/
  root : Path
  /-- The file that the component is moved to. -/
  home : Path
  /-- How a reference of the document is written in a file. -/
  spell : Path → String → String

/-- A text that stands in the first file leads to the fragment of the second one. -/
def PointsAt (files : FileTree) (p q : Path) (fragment : Fragment) (text : String) : Prop :=
  p = q ∧ Reference.ofText text = .ok (.inFile fragment) ∨
  ∃ path, Reference.ofText text = .ok (.external path fragment) ∧
    files.canonicalize ((directory p).join path) = .ok q

namespace Move

variable (move : Move)

/-- The place of the component, in the document and in the file that it is moved to. -/
def place : Fragment :=
  .pointer ("/components/" ++ move.part ++ "/" ++
    String.ofList (Json.Pointer.escape move.name.toList))

/-- The keys on the way to the component. -/
def way : List String := ["components", move.part, move.name]

/-- The component in a document. -/
def component? (document : Json) : Option Json :=
  ((document.get? "components").bind (·.get? move.part)).bind (·.get? move.name)

/-- A place is that of the component, or below it. -/
def Inside (fragment : Fragment) : Prop := move.way <+: fragment.keys

instance (fragment : Fragment) : Decidable (move.Inside fragment) :=
  inferInstanceAs (Decidable (_ <+: _))

/-- The file in which a place of the document is found after the move. -/
def fileOf (fragment : Fragment) : Path :=
  if move.Inside fragment then move.home else move.root

/-- The document without the component. -/
def kept (document : Json) : Json :=
  Json.amendAt "components" (Json.amendAt move.part
    (Json.amendFields (·.filter fun entry => decide (entry.1 ≠ move.name)))) document

/-- The document that stands in its file after the move. -/
def rootDocument (document : Json) : Json := (move.kept document).mapRefs (move.spell move.root)

/-- The component as it stands in its file after the move. -/
def moved (node : Json) : Json := node.mapRefs (move.spell move.home)

def asRoot (document : Json) : Root := .of (move.rootDocument document) (some move.root)

/-- How the component is called as a definition: by its title, or else by its name. -/
def called (node : Json) : String := Resolver.nameOf node move.place (some move.home)

/-- What stands in a file after the move, as it was in the document. -/
def Holds (document node : Json) (p : Path) (part : Json) : Prop :=
  p = move.root ∧ part = move.kept document ∨ p = move.home ∧ part = node

/-- The component of a document was moved to another file and stands there under the same place,
with each reference written as it reads from the file that it stands in. -/
structure Moves (files : FileTree) (document node other : Json) : Prop where
  isPart : move.part ∈ endpointParts
  found : move.component? document = some node
  /-- A path refers to the component. -/
  used : ∃ paths raw, document.get? "paths" = some paths ∧ raw ∈ paths.refs ∧
    Reference.ofText raw = .ok (.inFile move.place)
  apart : move.home ≠ move.root
  root : files.load move.root = .ok (move.rootDocument document)
  home : files.load move.home = .ok other
  held : move.component? other = some (move.moved node)
  written : ∀ p part, move.Holds document node p part → ∀ raw ∈ part.refs, ∀ fragment,
    Reference.ofText raw = .ok (.inFile fragment) →
      PointsAt files p (move.fileOf fragment) fragment (move.spell p raw)
  /-- Strings that are left as they are lead into the component. -/
  hidden : ∀ raw ∈ node.hiddenRefs, ∀ fragment,
    Reference.ofText raw = .ok (.inFile fragment) → move.Inside fragment

end Move

/-- All reference strings of a document lead to places in it. -/
def Closed (document : Json) : Prop :=
  ∀ raw ∈ document.allRefs, ∃ fragment, Reference.ofText raw = .ok (.inFile fragment)

variable {files : FileTree} {move : Move} {document node other : Json}

theorem Closed.self (closed : Closed document) :
    ∀ raw ∈ document.refs, ∃ fragment, Reference.ofText raw = .ok (.inFile fragment) :=
  fun raw met => closed raw ((Json.mem_allRefs _).mpr (Or.inl met))

theorem PointsAt.target {p q : Path} {fragment : Fragment} {text : String} {ref : Reference}
    (points : PointsAt files p q fragment text) (read : Reference.ofText text = .ok ref) :
    ref.fragment = fragment ∧
      Resolver.targetFile files ⟨some p, directory p⟩ ref = .ok (some q) := by
  rcases points with ⟨rfl, isLocal⟩ | ⟨path, isExternal, leads⟩
  · rw [read] at isLocal
    cases isLocal
    exact ⟨rfl, rfl⟩
  · rw [read] at isExternal
    cases isExternal
    exact ⟨rfl, by simp [Resolver.targetFile, leads]⟩

namespace Move

/-! The place of the component. -/

theorem keys_place (isPart : move.part ∈ endpointParts) :
    move.place.keys = move.way := by
  have plain : '/' ∉ move.part.toList ∧ keyOf move.part.toList = move.part := by
    revert isPart
    generalize move.part = part
    simp only [endpointParts, List.mem_cons, List.not_mem_nil, or_false]
    rintro (rfl | rfl | rfl) <;> decide
  have pieces : Text.split '/' ("components".toList ++ '/' :: (move.part.toList ++ '/' ::
      Json.Pointer.escape move.name.toList)) =
      ["components".toList, move.part.toList, Json.Pointer.escape move.name.toList] := by
    rw [Text.split_append (by decide), Text.split_append plain.1,
      Text.split_of_not_mem (Json.Pointer.slash_not_mem_escape _)]
  have text : ("/components/" ++ move.part ++ "/" ++
      String.ofList (Json.Pointer.escape move.name.toList)).toList.drop 1 =
      "components".toList ++ '/' :: (move.part.toList ++ '/' ::
        Json.Pointer.escape move.name.toList) := by
    simp
  rw [Fragment.keys, place, Fragment.segments, text, pieces, List.map_cons, List.map_cons,
    List.map_singleton, plain.2, Json.Pointer.keyOf_escape]
  rfl

theorem inside_place (isPart : move.part ∈ endpointParts) : move.Inside move.place :=
  ⟨[], (List.append_nil _).trans (keys_place isPart).symm⟩

/-- A path into the component leads through it. -/
theorem follow_component {j k : Json} (found : move.component? j = some k)
    {segments : List (List Char)} {more : List String}
    (inside : segments.map keyOf = move.way ++ more) :
    ∃ rest, rest.map keyOf = more ∧ j.follow segments = k.follow rest := by
  obtain ⟨entries, inComponents, isNode⟩ := Option.bind_eq_some_iff.mp found
  obtain ⟨components, isComponents, isEntries⟩ := Option.bind_eq_some_iff.mp inComponents
  obtain ⟨first, rest, rfl, isFirst, inside⟩ := List.map_eq_cons_iff.mp inside
  obtain ⟨second, rest, rfl, isSecond, inside⟩ := List.map_eq_cons_iff.mp inside
  obtain ⟨third, rest, rfl, isThird, inside⟩ := List.map_eq_cons_iff.mp inside
  refine ⟨rest, inside, ?_⟩
  rw [← isFirst] at isComponents
  rw [← isSecond] at isEntries
  rw [← isThird] at isNode
  rw [Json.follow_of_get? isComponents, Json.follow_of_get? isEntries, Json.follow_of_get? isNode]

theorem isObject_of_component? {j k : Json} (found : move.component? j = some k) :
    j.isObject = true := by
  cases j with
  | object fields => rfl
  | _ => cases found

theorem lookup_place (isPart : move.part ∈ endpointParts)
    (written : move.place.Written) {j k : Json} (found : move.component? j = some k) :
    move.place.lookup j = some k := by
  obtain ⟨rest, nothing, same⟩ :=
    follow_component found ((keys_place isPart).trans (List.append_nil _).symm)
  rw [Fragment.lookup_eq_follow written (isObject_of_component? found), same,
    List.map_eq_nil_iff.mp nothing, Json.follow_nil]

/-- What stands inside the component has no other reference strings. -/
theorem allRefs_of_inside {j k n : Json} (found : move.component? j = some k) {fragment : Fragment}
    (written : fragment.Written) (inside : move.Inside fragment)
    (stands : fragment.lookup j = some n) : n.allRefs ⊆ k.allRefs := by
  obtain ⟨more, same⟩ := inside
  obtain ⟨rest, _, way⟩ := follow_component found same.symm
  rw [Fragment.lookup_eq_follow written (isObject_of_component? found), way] at stands
  exact Json.allRefs_follow stands

/-! The document without the component. -/

theorem allRefs_kept (isPart : move.part ∈ endpointParts)
    (document : Json) : (move.kept document).allRefs ⊆ document.allRefs := by
  have other : move.part ≠ refKey := by
    intro same
    rw [same] at isPart
    revert isPart
    decide
  apply Json.gathers_allRefs.amendAt (by decide)
  exact Json.gathers_allRefs.amendAt other (Json.gathers_allRefs.filter fun key => key ≠ move.name)

theorem allRefs_component {j k : Json} (found : move.component? j = some k) :
    k.allRefs ⊆ j.allRefs := by
  obtain ⟨entries, inComponents, isNode⟩ := Option.bind_eq_some_iff.mp found
  obtain ⟨components, isComponents, isEntries⟩ := Option.bind_eq_some_iff.mp inComponents
  intro raw member
  apply Json.allRefs_of_get? isComponents
  apply Json.allRefs_of_get? isEntries
  exact Json.allRefs_of_get? isNode member

theorem isObject_rootDocument (document : Json) :
    (move.rootDocument document).isObject = document.isObject := by
  rw [rootDocument, Json.isObject_mapRefs]
  cases document <;> rfl

/-- The definitions stay where they are. -/
theorem definitionsOf_rootDocument (isPart : move.part ∈ endpointParts) :
    definitionsOf (move.rootDocument document) =
      Json.mapEntries (move.spell move.root) (definitionsOf document) := by
  have other : move.part ≠ "schemas" := by
    intro same
    rw [same] at isPart
    revert isPart
    decide
  rw [rootDocument, definitionsOf_mapRefs, definitionsOf_eq, definitionsOf_eq, kept,
    Json.get?_amendAt, if_pos rfl]
  cases document.get? "components" with
  | none => rfl
  | some components =>
    rw [Option.map_some, Option.bind_some, Json.get?_amendAt, if_neg other]
    rfl

/-! What is followed from the moved document. -/

variable {origin : Origin} {ref : Reference} {t : Resolved}

/-- A reference stands in the file of the document, or within the component. -/
def Stands (move : Move) (document node : Json) (origin : Origin) (ref : Reference) : Prop :=
  ∃ p part raw, move.Holds document node p part ∧ origin = ⟨some p, directory p⟩ ∧
    raw ∈ (part.mapRefs (move.spell p)).allRefs ∧ Reference.ofText raw = .ok ref

namespace Moves

theorem allRefs_of_holds (moves : move.Moves files document node other) {p : Path} {part : Json}
    (holds : move.Holds document node p part) : part.allRefs ⊆ document.allRefs := by
  rcases holds with ⟨_, rfl⟩ | ⟨_, rfl⟩
  · exact allRefs_kept moves.isPart document
  · exact allRefs_component moves.found

/-- The moved document refers to the file of the component. -/
theorem exists_external (moves : move.Moves files document node other) :
    ∃ raw ∈ (move.rootDocument document).refs, ∃ path,
      Reference.ofText raw = .ok (.external path move.place) ∧
        files.canonicalize ((directory move.root).join path) = .ok move.home := by
  obtain ⟨paths, raw, isPaths, met, read⟩ := moves.used
  have isKept : (move.kept document).get? "paths" = some paths := by
    rw [kept, Json.get?_amendAt, if_neg (by decide), isPaths]
  have met := Json.refs_of_get? (by decide) isKept met
  have points := moves.written _ _ (Or.inl ⟨rfl, rfl⟩) raw met move.place read
  rw [fileOf, if_pos (inside_place moves.isPart)] at points
  refine ⟨_, ?_, points.resolve_left fun here => moves.apart here.1.symm⟩
  rw [rootDocument, Json.refs_mapRefs]
  exact List.mem_map_of_mem met

theorem canonical_home (moves : move.Moves files document node other) :
    FileTree.IsCanonical move.home := by
  obtain ⟨_, _, _, _, leads⟩ := moves.exists_external
  exact FileTree.isCanonical_of_canonicalize leads

theorem home_not_inScope (moves : move.Moves files document node other)
    (canonical : FileTree.IsCanonical move.root) :
    ¬ Resolver.inScope ((move.asRoot document).scope (directory move.root))
      (some move.home) = true :=
  fun here => moves.apart ((Resolver.inScope_iff rfl canonical moves.canonical_home).mp here)

/-- No reference leads out of the file of the document and of the component. -/
theorem targetFile_of_stands (moves : move.Moves files document node other)
    (closed : Closed document) (stands : move.Stands document node origin ref) :
    ∃ q, Resolver.targetFile files origin ref = .ok (some q) ∧
      (q = move.root ∨ q = move.home ∧ move.Inside ref.fragment) := by
  obtain ⟨p, part, raw, holds, rfl, met, read⟩ := stands
  have within := moves.allRefs_of_holds holds
  rw [Json.mem_allRefs, Json.refs_mapRefs, Json.hiddenRefs_mapRefs] at met
  rcases met with met | hidden
  · obtain ⟨before, inPart, rfl⟩ := List.mem_map.mp met
    obtain ⟨fragment, isLocal⟩ :=
      closed before (within ((Json.mem_allRefs _).mpr (Or.inl inPart)))
    obtain ⟨rfl, leads⟩ := (moves.written p part holds before inPart fragment isLocal).target read
    refine ⟨_, leads, ?_⟩
    by_cases inside : move.Inside ref.fragment
    · exact Or.inr ⟨if_pos inside, inside⟩
    · exact Or.inl (if_neg inside)
  · obtain ⟨fragment, isLocal⟩ := closed raw (within ((Json.mem_allRefs _).mpr (Or.inr hidden)))
    rw [read] at isLocal
    obtain rfl := Except.ok.inj isLocal
    refine ⟨p, rfl, ?_⟩
    rcases holds with ⟨here, _⟩ | ⟨there, rfl⟩
    · exact Or.inl here
    · exact Or.inr ⟨there, moves.hidden raw hidden fragment read⟩

/-- Following a reference stays in the file of the document and in the component. -/
theorem stands_of_target (moves : move.Moves files document node other) (closed : Closed document)
    (canonical : FileTree.IsCanonical move.root) (stands : move.Stands document node origin ref)
    (found : Resolver.target files ((move.asRoot document).scope (directory move.root)) origin ref =
      .ok t) :
    (t.isInScope = false → t.file = some move.home) ∧ ∀ next ref', aliasTarget? t.node = some next →
      Reference.ofText next = .ok ref' → move.Stands document node
        ⟨t.file <|> ((move.asRoot document).scope (directory move.root)).file, t.baseDir⟩ ref' := by
  obtain ⟨q, leads, place⟩ := moves.targetFile_of_stands closed stands
  obtain ⟨_, leads', file⟩ := Resolver.file_of_target found
  rw [leads] at leads'
  obtain rfl := Except.ok.inj leads'
  obtain ⟨p, part, raw, holds, rfl, _, read⟩ := stands
  have known : Resolver.Known ((move.asRoot document).scope (directory move.root))
      ⟨some p, directory p⟩ := by
    rintro _ ⟨⟩ _
    rcases holds with ⟨rfl, _⟩ | ⟨rfl, _⟩
    · exact canonical
    · exact moves.canonical_home
  obtain ⟨fragment, landed⟩ := Resolver.landed_target known found
  have owns : ∀ next, aliasTarget? t.node = some next → next ∈ t.node.allRefs := fun next isNext =>
    (Json.mem_allRefs _).mpr (Or.inl (Json.mem_refs_of_aliasTarget? isNext))
  rcases place with rfl | ⟨rfl, inside⟩
  · rw [if_pos ((Resolver.inScope_iff rfl canonical canonical).mpr rfl)] at file
    obtain ⟨holds, baseDir⟩ := landed.here file
    refine ⟨by simp [Resolved.isInScope, file], ?_⟩
    intro next ref' isNext read'
    refine ⟨move.root, _, next, Or.inl ⟨rfl, rfl⟩, ?_, ?_, read'⟩
    · rw [file, baseDir]
      rfl
    · exact Json.allRefs_lookup holds (owns next isNext)
  · rw [if_neg (moves.home_not_inScope canonical)] at file
    obtain ⟨_, _, parent, held, loaded, holds⟩ := landed.there _ file
    rw [moves.home] at loaded
    obtain rfl := Except.ok.inj loaded
    refine ⟨fun _ => file, ?_⟩
    intro next ref' isNext read'
    refine ⟨move.home, node, next, Or.inr ⟨rfl, rfl⟩, ?_, ?_, read'⟩
    · have baseDir : directory move.home = t.baseDir := by
        rw [directory, parent, Option.getD_some]
      rw [file, baseDir]
      rfl
    · rw [← fragment] at inside
      have written := fragment ▸ Reference.fragment_written read
      exact allRefs_of_inside moves.held written inside holds (owns next isNext)

/-- All that the moved document refers to outside of it is in the file of the component. -/
theorem file_of_near (moves : move.Moves files document node other) (closed : Closed document)
    (canonical : FileTree.IsCanonical move.root)
    (near : Near files (move.asRoot document) (directory move.root) t) :
    t.file = some move.home := by
  obtain ⟨raw, met, away⟩ := near
  obtain ⟨ref, read, leads⟩ := bind_eq_ok.mp away.leads
  have start : move.Stands document node ⟨some move.root, directory move.root⟩ ref :=
    ⟨move.root, _, raw, Or.inl ⟨rfl, rfl⟩, rfl, (Json.mem_allRefs _).mpr (Or.inl met), read⟩
  exact (Resolver.lastOf_closed (moves.stands_of_target closed canonical) start leads).1 away.away

/-- The keys of these nodes tell them apart. -/
theorem namedByKey (moves : move.Moves files document node other) (closed : Closed document)
    (canonical : FileTree.IsCanonical move.root) :
    NamedByKey files (move.asRoot document) (directory move.root) := by
  intro s t hs ht same
  have sFile := moves.file_of_near closed canonical hs
  have tFile := moves.file_of_near closed canonical ht
  obtain ⟨_, _, sAway⟩ := hs
  obtain ⟨_, _, tAway⟩ := ht
  obtain ⟨sLanded, sWritten, _⟩ := landed_meaning sAway.leads
  obtain ⟨tLanded, tWritten, _⟩ := landed_meaning tAway.leads
  rw [sLanded.keyed, tLanded.keyed, sFile, tFile] at same
  have texts : s.fragment.text = t.fragment.text := by simpa using same
  rw [sLanded.eq_of_place tLanded sFile tFile (sWritten.eq_of_text tWritten texts)]

/-- All strings of the moved document can be read. -/
theorem reads (moves : move.Moves files document node other) (closed : Closed document) :
    ∀ raw ∈ (move.rootDocument document).refs, ∃ ref, Reference.ofText raw = .ok ref := by
  intro raw met
  rw [rootDocument, Json.refs_mapRefs] at met
  obtain ⟨before, inPart, rfl⟩ := List.mem_map.mp met
  have within := moves.allRefs_of_holds (Or.inl ⟨rfl, rfl⟩)
  obtain ⟨fragment, isLocal⟩ := closed before (within ((Json.mem_allRefs _).mpr (Or.inl inPart)))
  rcases moves.written _ _ (Or.inl ⟨rfl, rfl⟩) before inPart fragment isLocal with
    ⟨_, read⟩ | ⟨path, read, _⟩
  · exact ⟨_, read⟩
  · exact ⟨_, read⟩

/-- A component that is no reference itself is what the references to its new place lead to. -/
theorem meaning_of_external (moves : move.Moves files document node other)
    (canonical : FileTree.IsCanonical move.root) (proper : aliasTarget? node = none) {raw : String}
    {path : Path} (read : Reference.ofText raw = .ok (.external path move.place))
    (leads : files.canonicalize ((directory move.root).join path) = .ok move.home) :
    ∃ t, Away files (move.asRoot document) ⟨none, directory move.root⟩ raw t ∧
      t.name = move.called node := by
  have remote : ¬ Stays ⟨none, directory move.root⟩ raw := fun stays =>
    Reference.not_isLocalText_of_external read stays.2
  have outside := moves.home_not_inScope canonical
  have written : move.place.Written := Reference.fragment_written read
  have stands : if Resolver.inScope ((move.asRoot document).scope (directory move.root))
        (some move.home) = true
      then ((move.asRoot document).scope (directory move.root)).document = other
      else files.load move.home = .ok other := by
    rw [if_neg outside]
    exact moves.home
  obtain ⟨t, first, isNode, isFragment, file⟩ :=
    @Resolver.target_external files ((move.asRoot document).scope (directory move.root))
      ⟨some move.root, directory move.root⟩ _ _ _ _ _ leads stands
      (lookup_place moves.isPart written moves.held)
  rw [if_neg outside] at file
  have ended : aliasTarget? t.node = none := by
    rw [isNode, moved, Json.aliasTarget?_mapRefs, proper]
    rfl
  have meant : meaning files (move.asRoot document) ⟨none, directory move.root⟩ raw = .ok t := by
    rw [meaning, read, ok_bind]
    exact Resolver.outcome_of_target first ended
  refine ⟨t, ⟨remote, meant, by simp [Resolved.isInScope, file]⟩, ?_⟩
  obtain ⟨landed, _, _⟩ := landed_meaning meant
  rw [landed.named, isNode, isFragment, file, called, Resolver.nameOf, Resolver.nameOf, moved,
    Json.string?_get?_mapRefs _ _ (by decide)]
  rfl

theorem authored_eq (moves : move.Moves files document node other) :
    (move.asRoot document).authored = (definitionsOf document).keys := by
  rw [asRoot, Merge.authored_eq, definitionsOf_rootDocument moves.isPart, Json.keys_mapEntries]

/-- A merge that only redirects takes the component for the definition that is called like it. -/
theorem called_mem_authored (moves : move.Moves files document node other)
    (canonical : FileTree.IsCanonical move.root) (proper : aliasTarget? node = none)
    (redirects : Redirects files (move.asRoot document) (directory move.root)) :
    move.called node ∈ (definitionsOf document).keys := by
  obtain ⟨raw, met, path, read, leads⟩ := moves.exists_external
  obtain ⟨t, away, name⟩ := moves.meaning_of_external canonical proper read leads
  obtain ⟨t', leads', authored⟩ := redirects raw met away.moves
  rw [away.leads] at leads'
  obtain rfl := Except.ok.inj leads'
  rw [← moves.authored_eq, ← name]
  exact authored.resolve_left (by simp [away.away])

end Moves

end Move

end Merge

end ApiGraph
