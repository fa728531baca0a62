import ApiGraph.Proofs.Merge.Termination
import Mathlib.Logic.Relation

/-! A merge stage by stage. A stage is what the walk has done so far, with the targets that are open
and the strings that are left at each place. There is one step on from a stage at most
(`Step.unique`), and a walk that goes over strings in whatever nesting goes through stages
(`comes_of_rewrites`). So a merge is a run of steps from its document on, which comes to a last
stage, and every stage that is reached lies on the way to it (`exists_last`). -/

namespace ApiGraph.Merge

open Relation (ReflTransGen)
open Resolver (Origin Consistent)

/-- The strings that stand at one place, in the document or in a target that is open: the new forms
of the first of them, and the strings that are left. -/
structure Frame where
  target : Option Resolved
  origin : Origin
  forms : List String
  left : List String

/-- A state of a merge: the place that is gone over, the places around it from the inside out, and
what was done so far. -/
structure Stage where
  frame : Frame
  outer : List Frame
  ledger : Ledger

/-- One step: a string gets its new form, the target of a string is entered, or a target is left
that has no more strings. -/
inductive Step (files : FileTree) (root : Root) : Stage → Stage → Prop
  | writes {target : Option Resolved} {origin : Origin} {forms left : List String}
    {raw form : String} {outer : List Frame} {l l' : Ledger} {reads : List Path}
    {found : Except Fault (Option Resolved)} (leads : Leads files root origin raw reads found)
    (verdict : judge root raw l found = .writes form l') :
    Step files root ⟨⟨target, origin, forms, raw :: left⟩, outer, l⟩
      ⟨⟨target, origin, forms ++ [form], left⟩, outer, l'⟩
  | enters {target : Option Resolved} {origin : Origin} {forms left : List String} {raw : String}
    {outer : List Frame} {l : Ledger} {reads : List Path}
    {found : Except Fault (Option Resolved)} {t : Resolved}
    (leads : Leads files root origin raw reads found)
    (verdict : judge root raw l found = .enters t) :
    Step files root ⟨⟨target, origin, forms, raw :: left⟩, outer, l⟩
      ⟨⟨some t, t.origin, [], t.node.refs⟩, ⟨target, origin, forms, left⟩ :: outer, l.reserve t⟩
  | leaves {t : Resolved} {target : Option Resolved} {inside origin : Origin}
    {written forms left : List String} {outer : List Frame} {l : Ledger} :
    Step files root ⟨⟨some t, inside, written, []⟩, ⟨target, origin, forms, left⟩ :: outer, l⟩
      ⟨⟨target, origin, forms ++ [definitionRef t.name], left⟩, outer,
        l.finish t (t.node.withRefs written)⟩

/-- Where a merge halts: no string of the document is left, or the next string cannot be
rewritten. -/
inductive Halts (files : FileTree) (root : Root) : Stage → Except Fault (List String × Ledger) → Prop
  | done {origin : Origin} {forms : List String} {l : Ledger} :
    Halts files root ⟨⟨none, origin, forms, []⟩, [], l⟩ (.ok (forms, l))
  | fails {target : Option Resolved} {origin : Origin} {forms left : List String} {raw : String}
    {outer : List Frame} {l : Ledger} {reads : List Path}
    {found : Except Fault (Option Resolved)} {fault : Fault}
    (leads : Leads files root origin raw reads found)
    (verdict : judge root raw l found = .fails fault) :
    Halts files root ⟨⟨target, origin, forms, raw :: left⟩, outer, l⟩ (.error fault)

/-- The stage at which the merge of a document begins. -/
def Stage.start (document : Json) (baseDir : Path) : Stage where
  frame := ⟨none, ⟨none, baseDir⟩, [], document.refs⟩
  outer := []
  ledger := {}

/-- What a merge makes of the strings of its document, when they are rewritten. -/
def conclude (document : Json) (file : Option Path)
    (result : Except Fault (List String × Ledger)) : Except Fault Merged := do
  let (forms, l) ← result
  return {
    document := ← addDefinitions (document.withRefs forms) l.inlined
    path := file
    inlined := l.inlined }

variable {files : FileTree} {root : Root} {origin : Origin} {raws : List String} {l : Ledger}
  {c c' : Stage} {result : Except Fault (List String × Ledger)}

theorem Step.unique {d : Stage} (h : Step files root c c') (h' : Step files root c d) : d = c' := by
  cases h with
  | writes leads verdict =>
    cases h' with
    | writes leads' verdict' =>
      obtain ⟨rfl, rfl⟩ := leads.unique leads'
      rw [verdict] at verdict'
      cases verdict'
      rfl
    | enters leads' verdict' =>
      obtain ⟨rfl, rfl⟩ := leads.unique leads'
      rw [verdict] at verdict'
      cases verdict'
  | enters leads verdict =>
    cases h' with
    | writes leads' verdict' =>
      obtain ⟨rfl, rfl⟩ := leads.unique leads'
      rw [verdict] at verdict'
      cases verdict'
    | enters leads' verdict' =>
      obtain ⟨rfl, rfl⟩ := leads.unique leads'
      rw [verdict] at verdict'
      cases verdict'
      rfl
  | leaves =>
    cases h'
    rfl

theorem Halts.no_step (h : Halts files root c result) : ¬ Step files root c c' := by
  intro step
  cases h with
  | done => cases step
  | fails leads verdict =>
    cases step with
    | writes leads' verdict' | enters leads' verdict' =>
      obtain ⟨rfl, rfl⟩ := leads.unique leads'
      rw [verdict] at verdict'
      cases verdict'

/-- Every stage that is reached lies on the way to the last one. -/
theorem Halts.reach {start last : Stage} (halts : Halts files root last result)
    (toLast : ReflTransGen (Step files root) start last)
    (reach : ReflTransGen (Step files root) start c) : ReflTransGen (Step files root) c last := by
  have unique : Relator.RightUnique (Step files root) := fun _ _ _ h h' => h'.unique h
  rcases ReflTransGen.total_of_right_unique unique toLast reach with beyond | before
  · rcases beyond.cases_head with rfl | ⟨_, step, _⟩
    · exact .refl
    · exact absurd step halts.no_step
  · exact before

/-- From a stage where the strings at one place are to be gone over, the steps lead to the stage
where they are all rewritten as the result says, or to one where the merge halts with its fault. -/
def Comes (files : FileTree) (root : Root) (frame : Frame) (outer : List Frame) (l : Ledger) :
    Except Fault (List String × Ledger) → Prop
  | .ok (forms, l') => ReflTransGen (Step files root) ⟨frame, outer, l⟩
      ⟨{ frame with forms := frame.forms ++ forms, left := [] }, outer, l'⟩
  | .error fault => ∃ last, ReflTransGen (Step files root) ⟨frame, outer, l⟩ last ∧
      Halts files root last (.error fault)

theorem Comes.head {frame frame' : Frame} {outer outer' : List Frame} {l l' : Ledger} {fault : Fault}
    (first : ReflTransGen (Step files root) ⟨frame, outer, l⟩ ⟨frame', outer', l'⟩)
    (h : Comes files root frame' outer' l' (.error fault)) :
    Comes files root frame outer l (.error fault) := by
  obtain ⟨last, later, halts⟩ := h
  exact ⟨last, first.trans later, halts⟩

/-- The first string at a place has its form, and the others follow. -/
theorem Comes.cons {target : Option Resolved} {forms left : List String} {raw form : String}
    {outer : List Frame} {l l' : Ledger}
    (first : ReflTransGen (Step files root) ⟨⟨target, origin, forms, raw :: left⟩, outer, l⟩
      ⟨⟨target, origin, forms ++ [form], left⟩, outer, l'⟩)
    (h : Comes files root ⟨target, origin, forms ++ [form], left⟩ outer l' result) :
    Comes files root ⟨target, origin, forms, raw :: left⟩ outer l
      (result.map fun out => (form :: out.1, out.2)) := by
  cases result with
  | error fault => exact h.head first
  | ok out =>
    have later := first.trans h
    simpa [Comes, Except.map] using later

theorem comes_of_rewrites {log : List Event} (h : Rewrites files root origin raws l log result)
    (target : Option Resolved) (forms : List String) (outer : List Frame) :
    Comes files root ⟨target, origin, forms, raws⟩ outer l result := by
  induction h generalizing target forms outer with
  | done => simpa [Comes] using ReflTransGen.refl
  | fails leads verdict => exact ⟨_, .refl, .fails leads verdict⟩
  | writes leads verdict _ ih => exact Comes.cons (.single (.writes leads verdict)) (ih _ _ _)
  | sinks leads verdict _ ih => exact (ih _ _ _).head (.single (.enters leads verdict))
  | @brings origin raw rest written l l' reads found t log log' result leads verdict _ _ inside
      later =>
    have within := inside (some t) [] (⟨target, origin, forms, rest⟩ :: outer)
    have entered := ReflTransGen.head (.enters leads verdict) within
    exact Comes.cons (entered.tail .leaves) (later _ _ _)

/-- A merge is a run of steps from its document to a last stage, and comes to what stands there. -/
theorem exists_last {document : Json} {file : Option Path} {baseDir : Path} {r : Resolver}
    (consistent : Consistent files r) (shape : document.isObject = true) : ∃ last result,
    ReflTransGen (Step files (Root.of document file)) (.start document baseDir) last ∧
    Halts files (Root.of document file) last result ∧
    ((Merge.document document file baseDir).run.run r).1 = conclude document file result := by
  obtain ⟨log, merges, _⟩ := @merge_terminates _ baseDir document file r consistent
  generalize run : ((Merge.document document file baseDir).run.run r).1 = out at merges
  cases merges with
  | refused refused =>
    rw [shape] at refused
    cases refused
  | @walks _ result _ rewrites =>
    have comes := comes_of_rewrites rewrites none [] []
    cases result with
    | error fault =>
      obtain ⟨last, reach, halts⟩ := comes
      exact ⟨last, _, reach, halts, rfl⟩
    | ok walked => exact ⟨_, _, comes, .done, rfl⟩

end ApiGraph.Merge
