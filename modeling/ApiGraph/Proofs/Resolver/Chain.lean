import ApiGraph.Proofs.Resolver.Unbounded

/-! The way that a reference takes within one document. `Passes` lists the places that a reference
string passes on its way to a node that is no reference itself. There is at most one such way, and
it comes to no place twice, so the resolver does not take it for a cycle: it finds the node exactly
if there is a way to it (`leadsTo_iff_passes`). -/

namespace ApiGraph

namespace Resolver

/-- The places in a document that a local reference string passes, each given by the reference at
the one before, up to a node that is no reference. -/
inductive Passes (document : Json) : String → List Fragment → Json → Prop
  | last {raw : String} {place : Fragment} {node : Json}
    (read : Reference.ofText raw = .ok (.inFile place))
    (found : place.lookup document = some node) (ended : aliasTarget? node = none) :
    Passes document raw [place] node
  | next {raw next : String} {place : Fragment} {later : List Fragment} {via node : Json}
    (read : Reference.ofText raw = .ok (.inFile place))
    (found : place.lookup document = some via) (leads : aliasTarget? via = some next)
    (rest : Passes document next later node) :
    Passes document raw (place :: later) node

namespace Passes

variable {document node node' : Json} {raw raw' : String} {place : Fragment}
  {places later later' : List Fragment}

theorem exists_cons (h : Passes document raw places node) : ∃ place later,
    places = place :: later ∧ Reference.ofText raw = .ok (.inFile place) := by
  cases h with
  | last read => exact ⟨_, _, rfl, read⟩
  | next read => exact ⟨_, _, rfl, read⟩

theorem first_found (h : Passes document raw places node) {first : Fragment}
    (read : Reference.ofText raw = .ok (.inFile first)) :
    ∃ via, first.lookup document = some via := by
  cases h with
  | last read' found =>
    rw [read] at read'
    cases read'
    exact ⟨_, found⟩
  | next read' found =>
    rw [read] at read'
    cases read'
    exact ⟨_, found⟩

/-- The way goes on as the node at its first place says. -/
theorem rest_of_alias (h : Passes document raw places node) {first : Fragment} {via : Json}
    {next : String} (read : Reference.ofText raw = .ok (.inFile first))
    (found : first.lookup document = some via) (leads : aliasTarget? via = some next) :
    ∃ later, Passes document next later node := by
  cases h with
  | last read' found' ended =>
    rw [read] at read'
    cases read'
    rw [found] at found'
    cases found'
    rw [leads] at ended
    cases ended
  | next read' found' leads' rest =>
    rw [read] at read'
    cases read'
    rw [found] at found'
    cases found'
    rw [leads] at leads'
    cases leads'
    exact ⟨_, rest⟩

/-- From one place there is one way on. -/
theorem later_unique (h : Passes document raw (place :: later) node)
    (h' : Passes document raw' (place :: later') node') : later = later' ∧ node = node' := by
  generalize whole : place :: later = places at h
  induction h generalizing raw' place later later' with
  | last _ found ended =>
    cases whole
    cases h' with
    | last _ found' _ =>
      rw [found] at found'
      exact ⟨rfl, Option.some.inj found'⟩
    | next _ found' leads _ =>
      rw [found] at found'
      cases found'
      rw [ended] at leads
      cases leads
  | next _ found leads rest ih =>
    cases whole
    cases h' with
    | last _ found' ended =>
      rw [found] at found'
      cases found'
      rw [leads] at ended
      cases ended
    | next _ found' leads' rest' =>
      rw [found] at found'
      cases found'
      rw [leads] at leads'
      cases leads'
      obtain ⟨second, more, rfl, read⟩ := rest.exists_cons
      obtain ⟨second', more', rfl, read'⟩ := rest'.exists_cons
      rw [read] at read'
      cases read'
      obtain ⟨rfl, rfl⟩ := ih rest' rfl
      exact ⟨rfl, rfl⟩

theorem unique (h : Passes document raw places node) {places' : List Fragment}
    (h' : Passes document raw places' node') : places = places' ∧ node = node' := by
  obtain ⟨place, later, rfl, read⟩ := h.exists_cons
  obtain ⟨place', later', rfl, read'⟩ := h'.exists_cons
  rw [read] at read'
  cases read'
  obtain ⟨rfl, rfl⟩ := h.later_unique h'
  exact ⟨rfl, rfl⟩

/-- The way goes on from each of its places. -/
theorem of_mem (h : Passes document raw places node) (member : place ∈ places) :
    ∃ raw' later, Passes document raw' (place :: later) node ∧ (place :: later) <:+ places := by
  induction h with
  | last read found ended =>
    obtain rfl := List.mem_singleton.mp member
    exact ⟨_, [], .last read found ended, List.suffix_rfl⟩
  | next read found leads rest ih =>
    rcases List.mem_cons.mp member with rfl | member
    · exact ⟨_, _, .next read found leads rest, List.suffix_rfl⟩
    · obtain ⟨raw', later, way, suffix⟩ := ih member
      exact ⟨raw', later, way, suffix.trans (List.suffix_cons _ _)⟩

/-- No place comes twice: the way on from there would be a part of itself. -/
theorem nodup (h : Passes document raw places node) : places.Nodup := by
  induction h with
  | last => simp
  | @next raw next place later via node read found leads rest ih =>
    rw [List.nodup_cons]
    refine ⟨fun again => ?_, ih⟩
    obtain ⟨raw', more, way, suffix⟩ := rest.of_mem again
    obtain ⟨rfl, _⟩ := way.later_unique (.next read found leads rest)
    have longer := suffix.length_le
    simp at longer

theorem written (h : Passes document raw places node) : ∀ place ∈ places, place.Written := by
  intro place member
  obtain ⟨raw', later, way, _⟩ := h.of_mem member
  obtain ⟨_, _, same, read⟩ := way.exists_cons
  cases same
  exact Reference.fragment_written read

end Passes

/-- The scope of a document without any files. -/
def aloneScope (document : Json) : Scope := (Merge.Root.of document none).scope Path.here

/-- What is reached at a place in a document without a file. -/
def arrival (place : Fragment) (node : Json) : Resolved :=
  ⟨node, nameOf node place none, Path.here, none, place, "" ++ "#" ++ place.text⟩

/-- Without files, a reference leads to a place in the document or nowhere. -/
theorem target_alone_iff {document : Json} {origin : Origin} {ref : Reference} {t : Resolved}
    (bare : origin.file = none) : target {} (aloneScope document) origin ref = .ok t ↔
      ∃ place node, ref = .inFile place ∧ place.lookup document = some node ∧
        t = arrival place node := by
  cases ref with
  | inFile place =>
    simp only [target, targetFile, bare, ok_bind, inScope, ↓reduceIte, arrive, Reference.fragment,
      aloneScope, Merge.Root.scope, Merge.Root.of]
    cases found : place.lookup document with
    | none => simp [found]
    | some node => simp [found, arrival, eq_comm]
  | external path place =>
    constructor
    · intro h
      obtain ⟨file, found, h⟩ := bind_eq_ok.mp h
      simp only [targetFile] at found
      split at found
      · cases found
        obtain ⟨document', loaded, _⟩ := bind_eq_ok.mp h
        exact absurd loaded (load_empty _)
      · cases found
      · cases found
    · rintro ⟨place', node, same, _⟩
      cases same

theorem passes_of_follows {document : Json} {raw : String} {visited : List String} {origin : Origin}
    {ref : Reference} {reads : List Path} {t : Resolved}
    (h : Follows {} (aloneScope document) visited origin ref reads (.ok t))
    (bare : origin.file = none) (read : Reference.ofText raw = .ok ref) :
    ∃ places, Passes document raw places t.node ∧ places.getLast? = some t.fragment := by
  generalize isEnd : Except.ok t = result at h
  induction h generalizing raw with
  | lost | again | unread => cases isEnd
  | ended found new ended =>
    obtain rfl := Except.ok.inj isEnd
    obtain ⟨place, node, rfl, there, rfl⟩ := (target_alone_iff bare).mp found
    exact ⟨[place], .last read there ended, rfl⟩
  | onward found new leads isNext later ih =>
    obtain ⟨place, node, rfl, there, rfl⟩ := (target_alone_iff bare).mp found
    obtain ⟨later, way, last⟩ := ih rfl isNext isEnd
    refine ⟨place :: later, .next read there leads way, ?_⟩
    obtain ⟨second, more, rfl, _⟩ := way.exists_cons
    rwa [List.getLast?_cons_cons]

theorem exists_follows {document node : Json} {raw : String} {places : List Fragment}
    {visited : List String} {origin : Origin} {ref : Reference}
    (way : Passes document raw places node) (bare : origin.file = none)
    (read : Reference.ofText raw = .ok ref)
    (unseen : ∀ place ∈ places, "" ++ "#" ++ place.text ∉ visited) :
    ∃ reads t, Follows {} (aloneScope document) visited origin ref reads (.ok t) ∧
      t.node = node ∧ places.getLast? = some t.fragment := by
  induction way generalizing visited origin ref with
  | @last raw place node read' found ended =>
    rw [read] at read'
    cases read'
    have reached := (target_alone_iff bare).mpr ⟨place, node, rfl, found, rfl⟩
    exact ⟨_, arrival place node, .ended reached (unseen place (by simp)) ended, rfl, rfl⟩
  | @next raw next place later via node read' found leads rest ih =>
    have nodup := (Passes.next read' found leads rest).nodup
    have written := (Passes.next read' found leads rest).written
    rw [read] at read'
    cases read'
    obtain ⟨second, more, rfl, read''⟩ := rest.exists_cons
    have unseen' : ∀ other ∈ second :: more,
        "" ++ "#" ++ other.text ∉ visited ++ ["" ++ "#" ++ place.text] := by
      intro other member seen
      rcases List.mem_append.mp seen with before | here
      · exact unseen other (List.mem_cons_of_mem _ member) before
      · have same : other.text = place.text := by simpa using here
        have again := Fragment.Written.eq_of_text (written other (List.mem_cons_of_mem _ member))
          (written place (by simp)) same
        rw [List.nodup_cons] at nodup
        exact nodup.1 (again ▸ member)
    have reached := (target_alone_iff bare).mpr ⟨place, via, rfl, found, rfl⟩
    obtain ⟨_, t, follows, rfl, last⟩ := @ih _ ⟨none, Path.here⟩ _ rfl read'' unseen'
    exact ⟨_, t, .onward reached (unseen place (by simp)) leads read'' follows, rfl,
      by rwa [List.getLast?_cons_cons]⟩

theorem aliasTarget?_of_passes {document node : Json} {raw : String} {places : List Fragment}
    (way : Passes document raw places node) : aliasTarget? node = none := by
  induction way with
  | last _ _ ended => exact ended
  | next _ _ _ _ ih => exact ih

/-- In a document alone, a reference leads to a node exactly if there is a way to it. -/
theorem leadsTo_iff_passes {document node : Json} {raw : String} {place : Fragment} :
    LeadsTo document raw place node ↔
      ∃ places, Passes document raw places node ∧ places.getLast? = some place := by
  rw [LeadsTo, alone_eq, outcomeOf]
  constructor
  · rintro ⟨t, found, rfl, rfl, _⟩
    obtain ⟨ref, read, found⟩ := bind_eq_ok.mp found
    obtain ⟨_, follows, _⟩ := reads_resolve {} (aloneScope document) ref
    have found : outcome {} (aloneScope document) ref = .ok t := found
    rw [found] at follows
    exact passes_of_follows follows rfl read
  · rintro ⟨places, way, last⟩
    obtain ⟨first, more, rfl, read⟩ := way.exists_cons
    obtain ⟨_, t, follows, rfl, last'⟩ := @exists_follows document node raw _ []
      ⟨none, Path.here⟩ _ way rfl read (by simp)
    rw [last] at last'
    refine ⟨t, ?_, (Option.some.inj last').symm, rfl, aliasTarget?_of_passes way⟩
    rw [read, ok_bind]
    exact (reads_of_follows follows).1

end Resolver

end ApiGraph
