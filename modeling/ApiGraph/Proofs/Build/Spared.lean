import ApiGraph.Proofs.Build.ForeignKeys
import ApiGraph.Proofs.Build.Tables
import ApiGraph.Proofs.Resolver.Spared

/-! Builds of two descriptions that differ only where nothing is read. The tables come of the
definitions and of what the members of their `allOf` stand for, so they are the same if the members
shun what is different (`exists_tables_alike`). If besides all else that a build reads is the same,
so is the graph (`graph_alike`). -/

namespace ApiGraph.Build

open Resolver (Shuns)

variable {files : FileTree} {d d' : Description} {definitions : Table Schema} {options : Options}
  {xs : List Effect}

section

variable {source source' : Source} {touches : Fragment → Prop} {member : Schema}
  (alike : source.scope.Alike touches source'.scope)
  (shuns : ∀ raw ref, member.ref = some raw → Reference.ofText raw = .ok ref →
    Shuns files source.scope touches ⟨source.scope.file, source.scope.baseDir⟩ ref)
include alike shuns

/-- A member that shuns what is different stands for the same schema. -/
theorem memberSchema_alike_iff (schema : Schema) :
    memberSchema files source' member = .ok schema ↔
      memberSchema files source member = .ok schema := by
  rw [memberSchema, memberSchema]
  cases isRef : member.ref with
  | none => rfl
  | some raw =>
    have shuns := fun ref => shuns raw ref isRef
    -- What both lead to is read as the same schema, under the same name.
    have read : ∀ {t t' : Resolved}, t.Alike Schema.fieldNames t' →
        Gives ((Schema.ofJson t.node).mapError (Fault.malformed (.definition t.name)))
          ((Schema.ofJson t'.node).mapError (Fault.malformed (.definition t'.name))) := by
      intro t t' same
      have name : t'.name = t.name := by rw [same.besides]
      rw [name]
      exact (Schema.ofJson_reordered same.node).mapError _
    constructor
    · intro stands
      obtain ⟨t, leads, stands⟩ := bind_eq_ok.mp stands
      obtain ⟨t', leads', same⟩ := Resolver.outcomeOf_alike_back alike shuns leads
      exact bind_eq_ok.mpr ⟨t', leads', read same schema stands⟩
    · intro stands
      obtain ⟨t, leads, stands⟩ := bind_eq_ok.mp stands
      obtain ⟨t', leads', same⟩ := Resolver.outcomeOf_alike alike shuns leads
      exact bind_eq_ok.mpr ⟨t', leads', read same schema stands⟩

end

section

variable (stand : ∀ m ∈ members definitions, ∀ schema,
  memberSchema files ⟨d, definitions, options⟩ m.member = .ok schema →
    memberSchema files ⟨d', definitions, options⟩ m.member = .ok schema)
include stand

/-- If all members stand for the same, the steps of a build have the same effects. -/
theorem effects_alike : Gives (effects files ⟨d, definitions, options⟩)
    (effects files ⟨d', definitions, options⟩) := by
  refine Gives.bind (Gives.mapM (List.forall₂_same.mpr fun m isMember => ?_)) fun _ => Gives.refl _
  exact Gives.bind (stand m isMember) fun _ => Gives.refl _

theorem exists_tables_alike (unique : definitions.keys.Nodup) {s : State}
    (built : tables ⟨d, definitions, options⟩ { resolver := Resolver.fresh files } = .ok s) :
    ∃ s', tables ⟨d', definitions, options⟩ { resolver := Resolver.fresh files } = .ok s' ∧
      s'.entities = s.entities ∧ s'.joinTables = s.joinTables := by
  obtain ⟨checked, xs, does, entities, joinTables⟩ :=
    @tables_eq_ok files ⟨d, definitions, options⟩ unique s built
  have law := @tables_eq_bound files ⟨d', definitions, options⟩ unique
  rw [checked, ok_bind, effects_alike stand xs does] at law
  obtain ⟨s', built', entities', joinTables'⟩ := law
  exact ⟨s', built', entities'.trans entities.symm, joinTables'.trans joinTables.symm⟩

/-- A description with the same definitions, whose members stand for the same, and with the same
version, servers, endpoints and microservices is built to the same graph. -/
theorem graph_alike (read : d.definitions = .ok definitions)
    (unique : definitions.keys.Nodup) (version : checkVersion d' = checkVersion d)
    (same : d'.definitions = d.definitions) (servers : d'.servers = d.servers)
    (collect : ∀ servers entities, Gives (Endpoint.collect d servers entities options)
      (Endpoint.collect d' servers entities options))
    (serve : ∀ servers, Gives (Endpoint.microservices d servers)
      (Endpoint.microservices d' servers)) :
    Gives (graph files d options) (graph files d' options) := by
  intro g built
  obtain ⟨definitions', s, steps⟩ := steps_of_graph built
  obtain rfl := Except.ok.inj (read.symm.trans steps.read)
  obtain ⟨s', tabled, entities, joinTables⟩ := exists_tables_alike stand unique steps.tabled
  refine Steps.graph_eq (s := s') ⟨?_, same.trans read, tabled, servers.trans steps.served, ?_,
    serve _ _ steps.serving, ?_, ?_, ?_, ?_, steps.options⟩
  · exact version.trans steps.version
  · rw [entities]
    exact collect _ _ _ steps.collected
  · rw [entities, joinTables]
    exact steps.assembled
  · exact steps.entities.trans entities.symm
  · rw [entities]
    exact steps.relationships
  · exact steps.joinTables.trans joinTables.symm

end

end ApiGraph.Build
