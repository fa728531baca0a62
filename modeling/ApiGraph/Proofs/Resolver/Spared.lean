import ApiGraph.Proofs.Resolver.Reordered

/-! References that are read from two documents which are alike but for some places. A reference
that visits none of these places comes to the same record in both (`outcomeOf_alike`,
`outcomeOf_alike_back`), since every step on its way does. -/

namespace ApiGraph

open Record (Resembles)

/-- Scopes in the same place. At a fragment that touches nothing of what is different, their
documents have the same record. -/
structure Scope.Alike (touches : Fragment → Prop) (scope scope' : Scope) : Prop where
  file : scope'.file = scope.file
  baseDir : scope'.baseDir = scope.baseDir
  lookup : ∀ f : Fragment, f.Written → ¬ touches f →
    Option.Rel (Resembles Schema.fieldNames) (f.lookup scope.document) (f.lookup scope'.document)

theorem Scope.Alike.symm {touches : Fragment → Prop} {scope scope' : Scope}
    (alike : scope.Alike touches scope') : scope'.Alike touches scope where
  file := alike.file.symm
  baseDir := alike.baseDir.symm
  lookup f written untouched := Resembles.rel_symm (alike.lookup f written untouched)

namespace Resolver

variable {files : FileTree} {scope scope' : Scope} {touches : Fragment → Prop} {origin : Origin}
  {ref : Reference} {raw : String} {t : Resolved}

/-- The places in the document in scope that a reference comes to, whether something stands there or
not. -/
inductive Visits (files : FileTree) (scope : Scope) : Origin → Reference → Fragment → Prop
  | here {origin : Origin} {ref : Reference} {file : Option Path}
    (found : targetFile files origin ref = .ok file) (inside : inScope scope file = true) :
    Visits files scope origin ref ref.fragment
  | onward {origin : Origin} {ref next : Reference} {t : Resolved} {raw : String} {place : Fragment}
    (found : target files scope origin ref = .ok t) (leads : aliasTarget? t.node = some raw)
    (isNext : Reference.ofText raw = .ok next)
    (later : Visits files scope ⟨t.file <|> scope.file, t.baseDir⟩ next place) :
    Visits files scope origin ref place

/-- A reference that visits no place which touches what is different. -/
structure Shuns (files : FileTree) (scope : Scope) (touches : Fragment → Prop) (origin : Origin)
    (ref : Reference) : Prop where
  written : ref.fragment.Written
  untouched : ∀ place, Visits files scope origin ref place → ¬ touches place

/-- What is reached in the document in scope is reached by a reference that leads there. -/
theorem inScope_of_target (found : target files scope origin ref = .ok t) (here : t.file = none) :
    ∃ file, targetFile files origin ref = .ok file ∧ inScope scope file = true := by
  obtain ⟨file, isFile, found⟩ := bind_eq_ok.mp found
  refine ⟨file, isFile, ?_⟩
  by_contra away
  simp only [away, ↓reduceIte] at found
  obtain ⟨document, _, found⟩ := bind_eq_ok.mp found
  rw [arrive] at found
  split at found
  · cases found
  · obtain rfl := Except.ok.inj found
    simp only [away, ↓reduceIte] at here
    subst here
    exact away rfl

/-- What is shunned is shunned from then on. -/
theorem Shuns.onward (shuns : Shuns files scope touches origin ref)
    (found : target files scope origin ref = .ok t) {next : Reference}
    (leads : aliasTarget? t.node = some raw) (isNext : Reference.ofText raw = .ok next) :
    Shuns files scope touches ⟨t.file <|> scope.file, t.baseDir⟩ next where
  written := Reference.fragment_written isNext
  untouched place visits := shuns.untouched place (.onward found leads isNext visits)

/-- A step that leads to nothing different leads to the same with the second scope. -/
theorem target_of_alike (alike : scope.Alike touches scope') (written : ref.fragment.Written)
    (untouched : ∀ file, targetFile files origin ref = .ok file → inScope scope file = true →
      ¬ touches ref.fragment)
    (found : target files scope origin ref = .ok t) :
    ∃ t', target files scope' origin ref = .ok t' ∧ t.Alike Schema.fieldNames t' := by
  refine target_alike alike.file alike.baseDir (by decide) ?_ found
  intro here stands
  obtain ⟨file, isFile, inside⟩ := inScope_of_target found here
  exact Resembles.exists_of_rel (alike.lookup _ written (untouched file isFile inside)) stands

section

variable (alike : scope.Alike touches scope')
  (shuns : ∀ ref, Reference.ofText raw = .ok ref →
    Shuns files scope touches ⟨scope.file, scope.baseDir⟩ ref)
include alike shuns

/-- A reference that shuns what is different comes to the same with the second scope. -/
theorem outcomeOf_alike (leads : outcomeOf files scope raw = .ok t) :
    ∃ t', outcomeOf files scope' raw = .ok t' ∧ t.Alike Schema.fieldNames t' := by
  refine outcomeOf_simulated (by decide) alike.file
    alike.baseDir ?_ shuns leads
  intro origin ref t shuns found
  obtain ⟨t', found', same⟩ := target_of_alike alike shuns.written
    (fun _ isFile inside => shuns.untouched _ (.here isFile inside)) found
  exact ⟨t', found', same, fun _ _ => shuns.onward found⟩

/-- A reference that shuns what is different comes to nothing else with the second scope. -/
theorem outcomeOf_alike_back (leads : outcomeOf files scope' raw = .ok t) :
    ∃ t', outcomeOf files scope raw = .ok t' ∧ t.Alike Schema.fieldNames t' := by
  have safe : ∀ ref, Reference.ofText raw = .ok ref →
      Shuns files scope touches ⟨scope'.file, scope'.baseDir⟩ ref := by
    rwa [alike.file, alike.baseDir]
  refine outcomeOf_simulated (by decide) alike.symm.file alike.symm.baseDir ?_ safe leads
  intro origin ref t shuns found
  obtain ⟨t', found', same⟩ := target_of_alike alike.symm shuns.written
    (fun _ isFile inside => shuns.untouched _
      (.here isFile (by rwa [inScope_alike alike.file] at inside))) found
  refine ⟨t', found', same, fun raw next leads isNext => ?_⟩
  have onward := shuns.onward found'
    ((aliasTarget?_resembles (by decide) same.node).trans leads) isNext
  have besides := same.besides
  rwa [show t'.file = t.file by rw [besides], show t'.baseDir = t.baseDir by rw [besides],
    ← alike.file] at onward

end

end Resolver

end ApiGraph
