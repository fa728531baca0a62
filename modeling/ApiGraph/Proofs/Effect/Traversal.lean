import ApiGraph.Proofs.Effect.Meets

/-! A walk over the reference strings of a value, string by string. A walk does what is to be done
for each string that it meets, in their order, and nothing else. Apart from these strings it gives
the value back as it was (`bind_mapRefsM`). -/

namespace ApiGraph

namespace Json

/-- The value with the empty text for each reference string that a walk meets. -/
def eraseRefs (j : Json) : Json := j.mapRefs fun _ => ""

theorem eraseRefs_array (items : List Json) :
    eraseRefs (.array items) = .array (items.map eraseRefs) := mapRefs_array _ items

theorem aliasTarget?_mapRefsFields (f : String → String) (fields : List (String × Json)) :
    aliasTarget? (.object (mapRefsFields f fields)) = aliasTarget? (.object fields) := by
  have same := Table.get?_map (fun key j => if key = refKey then j else mapRefs f j) fields refKey
  rw [aliasTarget?_object, aliasTarget?_object, mapRefsFields_eq, same]
  simp

theorem aliasTarget?_setRef (text : String) (fields : Table Json) :
    aliasTarget? (.object (setRef (some text) fields)) =
      (Table.get? fields refKey).map fun _ => text := by
  have target := Table.get?_map
    (fun key j => if key = refKey then ((some text).map Json.string).getD j else j) fields refKey
  rw [aliasTarget?_object, setRef_eq, target]
  cases Table.get? fields refKey with
  | none => rfl
  | some j => rfl

/-- It does not matter for the rest of an object which reference string is put in. -/
theorem eraseRefs_setRef (text : String) (fields : List (String × Json)) :
    eraseRefs (.object (setRef (some text) fields)) =
      .object (setRef (some "") (mapRefsFields (fun _ => "") fields)) := by
  rw [eraseRefs, mapRefs_object, mapEntries, aliasTarget?_setRef, setRef_eq, setRef_eq,
    mapRefsFields_eq, List.map_map, List.map_map]
  congr 1
  apply List.map_congr_left
  intro e member
  by_cases here : e.1 = refKey
  · have held : refKey ∈ Table.keys fields := List.mem_map.mpr ⟨e, member, here⟩
    obtain ⟨j, there⟩ := Table.mem_keys_iff.mp held
    simp [here, there]
  · simp [here]

end Json

/-- What is done for some strings one after the other, and then something else. -/
def inOrder {m : Type → Type} [Monad m] {α : Type} (f : String → m String) (raws : List String)
    (next : m α) : m α :=
  raws.foldr (fun raw act => f raw >>= fun _ => act) next

section

variable {m : Type → Type} [Monad m] {α : Type} {f : String → m String}

theorem inOrder_nil (next : m α) : inOrder f [] next = next := rfl

theorem inOrder_cons (raw : String) (rest : List String) (next : m α) :
    inOrder f (raw :: rest) next = f raw >>= fun _ => inOrder f rest next := rfl

theorem inOrder_append (front back : List String) (next : m α) :
    inOrder f (front ++ back) next = inOrder f front (inOrder f back next) := List.foldr_append

variable [LawfulMonad m]

theorem bind_mapRefsItemsM {items : List Json} (each : ∀ j ∈ items, ∀ next : Json → m α,
      (j.mapRefsM f >>= fun out => next out.eraseRefs) = inOrder f j.refs (next j.eraseRefs))
    (next : List Json → m α) :
    (Json.mapRefsItemsM f items >>= fun outs => next (outs.map Json.eraseRefs)) =
      inOrder f (Json.refsItems items) (next (items.map Json.eraseRefs)) := by
  induction items generalizing next with
  | nil => simp [Json.mapRefsItemsM, Json.refsItems, inOrder_nil]
  | cons j rest ih =>
    have first := each j (by simp)
    have later := ih fun j member => each j (by simp [member])
    simp only [Json.mapRefsItemsM, bind_assoc, pure_bind, List.map_cons, Json.refsItems,
      inOrder_append, ← later fun outs => next (j.eraseRefs :: outs)]
    exact first fun out => Json.mapRefsItemsM f rest >>= fun outs =>
      next (out :: outs.map Json.eraseRefs)

theorem bind_mapRefsFieldsM {fields : List (String × Json)}
    (each : ∀ e ∈ fields, ∀ next : Json → m α,
      (e.2.mapRefsM f >>= fun out => next out.eraseRefs) = inOrder f e.2.refs (next e.2.eraseRefs))
    (next : List (String × Json) → m α) :
    (Json.mapRefsFieldsM f fields >>= fun outs => next (Json.mapRefsFields (fun _ => "") outs)) =
      inOrder f (Json.refsFields fields) (next (Json.mapRefsFields (fun _ => "") fields)) := by
  induction fields generalizing next with
  | nil => simp [Json.mapRefsFieldsM, Json.mapRefsFields, Json.refsFields, inOrder_nil]
  | cons e rest ih =>
    obtain ⟨key, j⟩ := e
    have first := each (key, j) (by simp)
    have later := ih fun e member => each e (by simp [member])
    by_cases here : key = refKey
    · simp only [Json.mapRefsFieldsM, here, ↓reduceIte, bind_assoc, pure_bind, Json.mapRefsFields,
        Json.refsFields, List.nil_append]
      exact later fun outs => next ((refKey, j) :: outs)
    · simp only [Json.mapRefsFieldsM, here, ↓reduceIte, bind_assoc, pure_bind, Json.mapRefsFields,
        Json.refsFields, inOrder_append]
      rw [← later fun outs => next ((key, j.mapRefs fun _ => "") :: outs)]
      exact first fun out => Json.mapRefsFieldsM f rest >>= fun outs =>
        next ((key, out) :: Json.mapRefsFields (fun _ => "") outs)

/-- A walk does what is to be done for its strings, in their order. What is left of its result
without them is what is left of the value. -/
theorem bind_mapRefsM (j : Json) (next : Json → m α) :
    (j.mapRefsM f >>= fun out => next out.eraseRefs) = inOrder f j.refs (next j.eraseRefs) := by
  -- What comes next is part of the statement: the induction needs it for the rest of a list.
  induction j using Json.induct generalizing next with
  | array items ih =>
    have all := bind_mapRefsItemsM ih fun outs => next (.array outs)
    simp only [Json.mapRefsM, bind_assoc, pure_bind, Json.eraseRefs_array, Json.refs]
    exact all
  | object fields ih =>
    cases target : aliasTarget? (.object fields) with
    | none =>
      have all := bind_mapRefsFieldsM ih fun outs =>
        next (.object (Json.setRef ((aliasTarget? (.object outs)).map fun _ => "") outs))
      simp only [Json.aliasTarget?_mapRefsFields] at all
      simp only [Json.mapRefsM, target, bind_assoc, pure_bind, Json.setRef_eq none,
        Option.map_none, Option.getD_none, ite_self, Prod.mk.eta, List.map_id', Json.refs,
        Option.toList_none, List.nil_append]
      exact all
    | some raw =>
      have all := bind_mapRefsFieldsM ih fun outs =>
        next (.object (Json.setRef (some "") outs))
      simp only [Json.mapRefsM, target, bind_assoc, pure_bind, Json.eraseRefs_setRef, Json.refs,
        Option.toList_some, List.singleton_append, inOrder_cons]
      have whole : (Json.object fields).eraseRefs =
          .object (Json.setRef (some "") (Json.mapRefsFields (fun _ => "") fields)) := by
        rw [Json.eraseRefs, Json.mapRefs, target, Option.map_some]
      rw [all, whole]
  | _ => simp [Json.mapRefsM, Json.refs, inOrder_nil, Json.eraseRefs, Json.mapRefs]

end

/-- A walk does what the acts for its strings do in their order. -/
theorem Meets.mapRefsM {σ ε : Type} {f : String → ExceptT ε (StateM σ) String} {j : Json} {s : σ}
    {post : Json → σ → Prop} {fails : ε → Prop}
    (h : Meets (inOrder f j.refs (Pure.pure j.eraseRefs)) s post fails) :
    Meets (j.mapRefsM f) s (fun out s' => post out.eraseRefs s') fails := by
  rw [← bind_mapRefsM, Meets, run_run_bind] at h
  rw [Meets]
  rcases run : (j.mapRefsM f).run.run s with ⟨fault | out, s'⟩
  · rw [run] at h
    exact h
  · rw [run] at h
    exact h

end ApiGraph
