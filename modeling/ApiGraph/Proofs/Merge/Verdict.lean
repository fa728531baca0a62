import ApiGraph.Merge.Basic

/-! One reference string in a merge, in three steps: the walk looks up what the string leads to,
`judge` says by the tables alone what is to be done about it, and the walk carries that out
(`rewriteRef_eq`). The branches of the walk are taken apart here and nowhere else. -/

namespace ApiGraph

namespace Merge

open Resolver (Origin)

/-- What a walk has done so far, apart from what its resolver keeps. -/
structure Ledger where
  assigned : Table String := []
  owners : Table String := []
  inlined : Table Json := []

namespace Ledger

/-- The walk that has done so, with a resolver. -/
def walk (l : Ledger) (resolver : Resolver) : Walk :=
  { resolver, assigned := l.assigned, owners := l.owners, inlined := l.inlined }

def assign (l : Ledger) (t : Resolved) : Ledger :=
  { l with assigned := Table.insert l.assigned t.canonical t.name }

/-- A name is taken for a target that is entered. -/
def reserve (l : Ledger) (t : Resolved) : Ledger where
  assigned := Table.insert l.assigned t.canonical t.name
  owners := Table.insert l.owners t.name t.canonical
  inlined := Table.insert l.inlined t.name .null

/-- The node of a target that was entered. -/
def finish (l : Ledger) (t : Resolved) (node : Json) : Ledger :=
  { l with inlined := Table.insert l.inlined t.name node }

end Ledger

/-- What the walk has done. -/
def Walk.ledger (w : Walk) : Ledger := ⟨w.assigned, w.owners, w.inlined⟩

/-- What is to be done about a string. -/
inductive Verdict where
  | fails (fault : Fault)
  | writes (form : String) (after : Ledger)
  | enters (t : Resolved)

/-- What is to be done about a string that leads to what was found. -/
def judge (root : Root) (raw : String) (l : Ledger) : Except Fault (Option Resolved) → Verdict
  | .error fault => .fails fault
  | .ok none => .writes raw l
  | .ok (some t) =>
    if t.isInScope then .writes ("#" ++ t.fragment.text) l
    else
      match l.assigned.get? t.canonical with
      | some name => .writes (definitionRef name) l
      | none =>
        if t.name ∈ root.authored then .writes (definitionRef t.name) (l.assign t)
        else
          match l.owners.get? t.name with
          | some first => .fails (.nameCollision t.name first t.canonical)
          | none =>
            if t.node.isObject then .enters t else .fails (.cannotMerge (.targetNotObject raw))

/-- Doing what is to be done about a string. -/
def carryOut (bring : Resolved → WalkM Json) (l : Ledger) : Verdict → WalkM String
  | .fails fault => throw fault
  | .writes form l' => do
    modify fun w => l'.walk w.resolver
    return form
  | .enters t => do
    modify fun w => (l.reserve t).walk w.resolver
    let node ← bring t
    modify fun w => { w with inlined := Table.insert w.inlined t.name node }
    return definitionRef t.name

/-- What a string leads to, unless it is left as it is. -/
def look (root : Root) (origin : Origin) (raw : String) : WalkM (Option Resolved) := do
  let ref ← Reference.ofText raw
  match ref.isLocal, origin.file with
  | true, none => return none
  | _, file =>
    some <$> withResolver
      (Resolver.resolve (root.scope origin.baseDir) ((file.map ref.within).getD ref))

/-- Two acts that go on from the walk as it is are the same if they are from every walk. -/
theorem get_bind_congr {α : Type} {next next' : Walk → WalkM α}
    (same : ∀ w, (next w).run.run w = (next' w).run.run w) : (get >>= next) = (get >>= next') :=
  funext same

/-- A target is referred to as its verdict says. -/
theorem rewriteRef_eq (root : Root) (bring : Resolved → WalkM Json) (origin : Origin)
    (raw : String) : rewriteRef root bring origin.file origin.baseDir raw = (do
      let found ← look root origin raw
      let walk ← get
      carryOut bring walk.ledger (judge root raw walk.ledger (.ok found))) := by
  rw [rewriteRef, look, bind_assoc]
  refine bind_congr fun ref => ?_
  cases ref.isLocal <;> cases origin.file
  case true.none =>
    simp only [pure_bind]
    rfl
  all_goals
    dsimp only
    rw [map_eq_pure_bind, bind_assoc]
    refine bind_congr fun t => ?_
    rw [pure_bind]
    by_cases here : t.isInScope = true
    · simp only [judge, if_pos here]
      rfl
    simp only [judge, if_neg here]
    refine get_bind_congr fun w => ?_
    have names : w.ledger.assigned = w.assigned := rfl
    have owners : w.ledger.owners = w.owners := rfl
    rw [names, owners]
    cases w.assigned.get? t.canonical with
    | some name => rfl
    | none =>
      simp only
      by_cases authored : t.name ∈ root.authored
      · rw [if_pos authored, if_pos authored]
        rfl
      rw [if_neg authored, if_neg authored]
      cases w.owners.get? t.name with
      | some first => rfl
      | none => cases t.node.isObject <;> rfl

end Merge

end ApiGraph
