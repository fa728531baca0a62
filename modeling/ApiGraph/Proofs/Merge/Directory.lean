import ApiGraph.Proofs.Merge.Split

/-! From which directory a relative path is read. A string that a merge meets is followed hop by
hop, and every hop reads a string that stands in some file. In a file other than the root the hop
starts from the directory of that file. In the root it starts from the directory in which the first
string of the chain stands, which is that of the root only if the chain begins there
(`hop_directory`). -/

namespace ApiGraph.Merge

open Resolver (Origin Consistent Known Landed target)

/-- One hop of following a reference. -/
structure Hop where
  /-- The reference string that is followed. -/
  raw : String
  /-- The file in whose text the string is written. -/
  file : Option Path
  /-- Where it is looked up from. -/
  origin : Origin
  ref : Reference
  /-- The targets that were passed before. -/
  chain : List String
  /-- How many hops are left. -/
  steps : Nat

namespace Hop

variable {files : FileTree} {scope : Scope}

/-- The first hop for a string that stands in the document or in a target. -/
def first (files : FileTree) (root : Root) (origin : Origin) (raw : String) (ref : Reference) :
    Hop where
  raw
  file := origin.file <|> root.file
  origin := ⟨root.file, origin.baseDir⟩
  ref := (origin.file.map ref.within).getD ref
  chain := []
  steps := root.links + files.linkCount + 2

/-- What is left to do, this hop included. -/
def run (scope : Scope) (h : Hop) : ResolveM Resolved :=
  Resolver.follow scope h.chain h.origin h.ref h.steps

/-- A hop leads to a node that is a reference itself, which is followed by the next hop. -/
inductive Next (files : FileTree) (scope : Scope) (h : Hop) : Hop → Prop
  | intro {t : Resolved} {raw : String} {ref : Reference} {steps : Nat}
    (more : h.steps = steps + 1) (leads : target files scope h.origin h.ref = .ok t)
    (new : t.canonical ∉ h.chain) (isAlias : aliasTarget? t.node = some raw)
    (read : Reference.ofText raw = .ok ref) :
    Next files scope h ⟨raw, t.file <|> scope.file, ⟨t.file <|> scope.file, t.baseDir⟩, ref,
      h.chain ++ [t.canonical], steps⟩

theorem Next.known {h h' : Hop} (known : Known scope h.origin) (next : Next files scope h h') :
    Known scope h'.origin := by
  cases next with
  | intro _ leads => exact (Resolver.landed_target known leads).2.known

/-- The resolver goes on with the next hop. -/
theorem Next.run_eq {h h' : Hop} {r : Resolver} (consistent : Consistent files r)
    (known : Known scope h.origin) (next : Next files scope h h') :
    ∃ r', Consistent files r' ∧ (h.run scope).run.run r = (h'.run scope).run.run r' := by
  obtain ⟨more, leads, new, isAlias, read⟩ := next
  obtain ⟨r', run, consistent'⟩ := @Resolver.yields_hop files scope h.origin h.ref r consistent known
  refine ⟨r', consistent', ?_⟩
  rw [Hop.run, more, Resolver.follow, run_run_bind, run, leads]
  simp only [if_neg new, isAlias, read]
  rfl

end Hop

/-- A reference string that stands in a node of the document in a file. -/
def WrittenIn (files : FileTree) (p : Path) (raw : String) : Prop :=
  ∃ (document : Json) (fragment : Fragment) (node : Json), files.load p = .ok document ∧
    fragment.lookup document = some node ∧ raw ∈ node.refs

/-- The hops for a reference string that a merge meets: those for a string of the document or of a
target that it brings in, and those that follow from them. -/
inductive Hopped (files : FileTree) (root : Root) (baseDir : Path) (origin : Origin)
    (ref : Reference) : Hop → Prop
  | first {node : Json} {raw : String} (visited : Visited files root baseDir origin node)
    (met : raw ∈ node.refs) (moves : ¬ Stays origin raw) (read : Reference.ofText raw = .ok ref) :
    Hopped files root baseDir origin ref (.first files root origin raw ref)
  | next {h h' : Hop} (before : Hopped files root baseDir origin ref h)
    (next : h.Next files (root.scope origin.baseDir) h') : Hopped files root baseDir origin ref h'

variable {files : FileTree} {root : Root} {baseDir : Path} {origin : Origin} {ref : Reference}
  {h : Hop}

theorem Hopped.known (hopped : Hopped files root baseDir origin ref h) :
    Known (root.scope origin.baseDir) h.origin := by
  induction hopped with
  | first => exact Resolver.known_scope (root.scope origin.baseDir) origin.baseDir
  | next _ next ih => exact next.known ih

/-- The hops are those that the resolver makes: what it finds is what is left to do at each. -/
theorem Hopped.run_eq (hopped : Hopped files root baseDir origin ref h) {r : Resolver}
    (consistent : Consistent files r) : ∃ r', Consistent files r' ∧
      (Resolver.resolve (root.scope origin.baseDir) ((origin.file.map ref.within).getD ref)).run.run
        r = (h.run (root.scope origin.baseDir)).run.run r' := by
  induction hopped with
  | first =>
    refine ⟨r, consistent, ?_⟩
    have limit : Resolver.stepLimit (root.scope origin.baseDir) r =
        root.links + files.linkCount + 2 := by
      rw [Resolver.stepLimit, r.links_eq, consistent.same]
      rfl
    rw [Hop.run, Hop.first, ← limit]
    rfl
  | next before next ih =>
    obtain ⟨r', consistent', same⟩ := ih
    obtain ⟨r'', consistent'', same'⟩ := next.run_eq consistent' before.known
    exact ⟨r'', consistent'', same.trans same'⟩

/-- What is known of a hop for a string that is written in the file `q`, if the root stands in the
file `p`. -/
structure Hop.Starts (files : FileTree) (p : Path) (origin : Origin) (h : Hop) (q : Path) :
    Prop where
  file : h.file = some q
  written : WrittenIn files q h.raw
  baseDir : h.origin.baseDir = if q = p then origin.baseDir else directory q
  external : ∀ path fragment, Reference.ofText h.raw = .ok (.external path fragment) →
    h.ref = .external path fragment

/-- A target stands in the file of the root, and then the next hop starts where the chain did, or
in another file. -/
theorem starts_of_landed {p : Path} {document : Json} {scope : Scope} {t : Resolved} {raw : String}
    (inRoot : scope.file = some p) (isDocument : scope.document = document)
    (loaded : files.load p = .ok document) (landed : Landed files scope t) (met : raw ∈ t.node.refs) :
    ∃ q, (t.file <|> scope.file) = some q ∧ WrittenIn files q raw ∧
      t.baseDir = if q = p then scope.baseDir else directory q := by
  cases file : t.file with
  | none =>
    obtain ⟨found, sameDir⟩ := landed.here file
    refine ⟨p, inRoot, ⟨document, t.fragment, t.node, loaded, isDocument ▸ found, met⟩, ?_⟩
    rw [if_pos rfl, sameDir]
  | some q =>
    obtain ⟨_, away, parent, other, loaded', found⟩ := landed.there q file
    refine ⟨q, rfl, ⟨other, t.fragment, t.node, loaded', found, met⟩, ?_⟩
    have apart : q ≠ p := by
      rintro rfl
      simp [Resolver.inScope, inRoot] at away
    rw [if_neg apart, directory, parent]
    rfl

/-- Where the strings of a visited document start, and that they stand there. -/
theorem Visited.starts {p : Path} {document : Json} {node : Json} {raw : String}
    (loaded : files.load p = .ok document)
    (visited : Visited files (Root.of document (some p)) (directory p) origin node)
    (met : raw ∈ node.refs) : ∃ q, (origin.file <|> some p) = some q ∧ WrittenIn files q raw ∧
      origin.baseDir = if q = p then origin.baseDir else directory q := by
  cases visited with
  | document => exact ⟨p, rfl, ⟨document, .document, document, loaded, rfl, met⟩, by simp⟩
  | @target t reached _ =>
    obtain ⟨away, _, _, leads⟩ := reached.leads
    obtain ⟨q, file, written, baseDir⟩ :=
      starts_of_landed rfl rfl loaded (landed_meaning leads).1 met
    obtain ⟨q', isFile⟩ := Resolved.exists_file away
    rw [isFile] at file
    obtain rfl := Option.some.inj file
    refine ⟨q', by rw [Resolved.origin, isFile]; rfl, written, ?_⟩
    by_cases here : q' = p
    · rw [if_pos here]
    · rw [if_neg here] at baseDir ⊢
      exact baseDir

section

variable {p : Path} {document : Json} (loaded : files.load p = .ok document)
include loaded

theorem Hop.starts_first {node : Json} {raw : String}
    (visited : Visited files (Root.of document (some p)) (directory p) origin node)
    (met : raw ∈ node.refs) (read : Reference.ofText raw = .ok ref) :
    ∃ q, (Hop.first files (Root.of document (some p)) origin raw ref).Starts files p origin q := by
  obtain ⟨q, file, written, baseDir⟩ := visited.starts loaded met
  refine ⟨q, file, written, baseDir, ?_⟩
  intro path fragment read'
  rw [Hop.first] at read'
  rw [read] at read'
  obtain rfl := Except.ok.inj read'
  cases isFile : origin.file <;> simp [Hop.first, isFile, Reference.within]

/-- A hop starts from the directory of the file in which its string is written, or in the root from
that of the chain, whatever hop came before. -/
theorem Hop.starts_next {h' : Hop}
    (known : Known ((Root.of document (some p)).scope origin.baseDir) h.origin)
    (next : h.Next files ((Root.of document (some p)).scope origin.baseDir) h') :
    ∃ q, h'.Starts files p origin q := by
  obtain ⟨more, leads, new, isAlias, read⟩ := next
  obtain ⟨q, file, written, baseDir⟩ := starts_of_landed rfl rfl loaded
    (Resolver.landed_target known leads).2 (Json.mem_refs_of_aliasTarget? isAlias)
  refine ⟨q, file, written, baseDir, ?_⟩
  intro path fragment read'
  exact Except.ok.inj (read.symm.trans read')

/-- Every hop that the resolver makes for a string that the merge of a file meets follows a string
that is written in some file. It looks up a relative path from the directory of this file, except
that in the root it does so from the directory of the file where the chain started. -/
theorem hop_directory (hopped : Hopped files (Root.of document (some p)) (directory p) origin ref h) :
    (∃ q, h.Starts files p origin q ∧
      (h.origin.baseDir = directory q ↔ (q = p → origin.baseDir = directory p))) ∧
    ∀ r, Consistent files r → ∃ r', Consistent files r' ∧
      (Resolver.resolve ((Root.of document (some p)).scope origin.baseDir)
        ((origin.file.map ref.within).getD ref)).run.run r =
      (h.run ((Root.of document (some p)).scope origin.baseDir)).run.run r' := by
  refine ⟨?_, fun r consistent => hopped.run_eq consistent⟩
  have starts : ∃ q, h.Starts files p origin q := by
    cases hopped with
    | first visited met _ read => exact Hop.starts_first loaded visited met read
    | next before next => exact Hop.starts_next loaded before.known next
  obtain ⟨q, starts⟩ := starts
  refine ⟨q, starts, ?_⟩
  rw [starts.baseDir]
  by_cases inRoot : q = p
  · simp [inRoot]
  · simp [inRoot]

end

/-- A car with a wheel in a directory of its own. The wheel has the spare of the car, which stands
beside the car in another file. -/
def carFiles : FileTree where
  entries := [
    (["root.yaml"], .file
      "Car:\n wheel:\n  $ref: parts/wheel.yaml#/Wheel\nSpare:\n $ref: tire.yaml#/Tire\n"),
    (["parts"], .directory),
    (["parts", "wheel.yaml"], .file "Wheel:\n spare:\n  $ref: ../root.yaml#/Spare\n"),
    (["tire.yaml"], .file "Tire:\n type: object\n")]

/-- The document of the car. -/
def car : Json := .object [
  ("Car", .object [("wheel", .object [("$ref", .string "parts/wheel.yaml#/Wheel")])]),
  ("Spare", .object [("$ref", .string "tire.yaml#/Tire")])]

/-- The file of the car. -/
def carFile : Path := ⟨"/root.yaml"⟩

/-- Where the strings of the wheel stand. -/
def wheelOrigin : Origin := ⟨some ⟨"/parts/wheel.yaml"⟩, ⟨"/parts"⟩⟩

/-- The merge of the car meets the wheel. -/
theorem visited_wheel : Visited carFiles (Root.of car (some carFile)) (directory carFile)
    wheelOrigin (.object [("spare", .object [("$ref", .string "../root.yaml#/Spare")])]) := by
  have run : (meaning carFiles (Root.of car (some carFile)) ⟨none, directory carFile⟩
      "parts/wheel.yaml#/Wheel").toOption.map (fun t => (t.file, t.baseDir, t.name, t.node)) =
      some (wheelOrigin.file, wheelOrigin.baseDir, "Wheel",
        .object [("spare", .object [("$ref", .string "../root.yaml#/Spare")])]) := by
    decide +kernel
  obtain ⟨t, leads, shape⟩ := exists_ok_of_map run
  simp only [Prod.mk.injEq] at shape
  obtain ⟨file, baseDir, name, node⟩ := shape
  have reached : Reached carFiles (Root.of car (some carFile)) (directory carFile) t := by
    apply Reached.inRoot (by decide) (by decide) leads
    rw [Resolved.isInScope, file]
    rfl
  have brought : t.name ∉ (Root.of car (some carFile)).authored := by
    rw [name]
    decide +kernel
  have visited := Visited.target reached brought
  rwa [Resolved.origin, file, baseDir, node] at visited

/-- The reference of the wheel to the spare. -/
def spareRef : Reference := .external ⟨"../root.yaml"⟩ (.pointer "/Spare")

/-- The first hop for the spare of the wheel. -/
def spareHop : Hop :=
  .first carFiles (Root.of car (some carFile)) wheelOrigin "../root.yaml#/Spare" spareRef

theorem hopped_spare : Hopped carFiles (Root.of car (some carFile)) (directory carFile) wheelOrigin
    spareRef spareHop :=
  .first visited_wheel (by decide) (by decide) (by decide +kernel)

/-- The reference of the wheel is looked up from the directory of the wheel. -/
theorem spare_directory : carFiles.load carFile = .ok car ∧
    Hopped carFiles (Root.of car (some carFile)) (directory carFile) wheelOrigin spareRef spareHop ∧
    ∃ q, spareHop.Starts carFiles carFile wheelOrigin q ∧ spareHop.origin.baseDir = directory q := by
  have loaded : carFiles.load carFile = .ok car := by decide +kernel
  obtain ⟨⟨q, starts, directory_iff⟩, _⟩ := hop_directory loaded hopped_spare
  refine ⟨loaded, hopped_spare, q, starts, directory_iff.mpr ?_⟩
  rintro rfl
  exact absurd starts.file (by decide +kernel)

/-- From the wheel the spare is looked for beside the wheel, though the reference to it stands in
the file of the car, and so the merge does not find it. -/
theorem spare_misplaced : ∃ h, Hopped carFiles (Root.of car (some carFile)) (directory carFile)
      wheelOrigin spareRef h ∧
    h.raw = "tire.yaml#/Tire" ∧ h.file = some carFile ∧ h.origin.baseDir = ⟨"/parts"⟩ ∧
    directory carFile = ⟨"/"⟩ ∧ carFiles.isFile ⟨"/tire.yaml"⟩ = true ∧
    result carFiles car (some carFile) (directory carFile) =
      .error (.brokenReference "tire.yaml#/Tire" (.noFile ⟨"/parts/tire.yaml"⟩)) := by
  have run : (target carFiles ((Root.of car (some carFile)).scope wheelOrigin.baseDir)
      spareHop.origin spareHop.ref).toOption.map (fun t => (t.file, t.baseDir, t.node)) =
      some (none, ⟨"/parts"⟩, .object [("$ref", .string "tire.yaml#/Tire")]) := by
    decide +kernel
  obtain ⟨t, leads, shape⟩ := exists_ok_of_map run
  simp only [Prod.mk.injEq] at shape
  obtain ⟨file, baseDir, node⟩ := shape
  have next : spareHop.Next carFiles ((Root.of car (some carFile)).scope wheelOrigin.baseDir) _ :=
    .intro rfl leads (by simp [spareHop, Hop.first]) (by rw [node]; rfl)
      (show Reference.ofText "tire.yaml#/Tire" = .ok (.external ⟨"tire.yaml"⟩ (.pointer "/Tire")) by
        decide +kernel)
  refine ⟨_, hopped_spare.next next, rfl, ?_, baseDir, by decide +kernel, by decide +kernel, ?_⟩
  · rw [file]
    rfl
  · have ends : (result carFiles car (some carFile) (directory carFile)).map (·.document) =
        .error (.brokenReference "tire.yaml#/Tire" (.noFile ⟨"/parts/tire.yaml"⟩)) := by
      decide +kernel
    cases merged : result carFiles car (some carFile) (directory carFile) with
    | ok m =>
      rw [merged] at ends
      cases ends
    | error fault =>
      rw [merged] at ends
      exact congrArg Except.error (Except.error.inj ends)

end ApiGraph.Merge
