import ApiGraph.Json.Basic

/-! Places in a value: the way down to them by the keys of objects and the positions in arrays. -/

namespace ApiGraph.Json

/-- One step down from a value. -/
inductive Edge
  | key (name : String)
  | item (position : Nat)
deriving DecidableEq

/-- What stands one step below a value. -/
def child? : Json → Edge → Option Json
  | .object fields, .key name => Table.get? fields name
  | .array items, .item i => items[i]?
  | _, _ => none

/-- What stands at a place. -/
def at? (j : Json) : List Edge → Option Json
  | [] => some j
  | edge :: rest => (j.child? edge).bind (·.at? rest)

theorem at?_cons (j : Json) (edge : Edge) (rest : List Edge) :
    j.at? (edge :: rest) = (j.child? edge).bind (·.at? rest) := rfl

theorem at?_append (j : Json) (front back : List Edge) :
    j.at? (front ++ back) = (j.at? front).bind (·.at? back) := by
  induction front generalizing j with
  | nil => rfl
  | cons edge rest ih =>
    rw [List.cons_append, at?_cons, at?_cons, Option.bind_assoc]
    exact Option.bind_congr fun k _ => ih k

theorem child?_key (j : Json) (name : String) : j.child? (.key name) = j.get? name := by
  cases j <;> rfl

theorem at?_key_key (j : Json) (first second : String) :
    j.at? [.key first, .key second] = (j.get? first).bind (·.get? second) := by
  rw [at?_cons, child?_key]
  refine Option.bind_congr fun k _ => ?_
  rw [at?_cons, child?_key]
  exact Option.bind_fun_some _

@[simp] theorem child?_object_key (fields : List (String × Json)) (name : String) :
    (Json.object fields).child? (.key name) = Table.get? fields name := rfl

end ApiGraph.Json
