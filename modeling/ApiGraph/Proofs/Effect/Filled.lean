import ApiGraph.Proofs.Effect.Traversal

/-! A walk over the reference strings of a value does no more than a pass over the list of its
strings: `withRefs` puts what came of the strings back into their places, and the walk is the pass
followed by that (`mapRefsM_eq`). -/

namespace ApiGraph

namespace Json

mutual

/-- Puts strings into the places of the reference strings that a walk meets, in their order. The
strings that are left over come back. -/
def fill : Json → List String → Json × List String
  | .array items, forms =>
    let (items, left) := fillItems items forms
    (.array items, left)
  | .object fields, forms =>
    match aliasTarget? (.object fields) with
    | some raw =>
      let (fields, left) := fillFields fields forms.tail
      (.object (setRef (some (forms.headD raw)) fields), left)
    | none =>
      let (fields, left) := fillFields fields forms
      (.object (setRef none fields), left)
  | j, forms => (j, forms)

def fillItems : List Json → List String → List Json × List String
  | [], forms => ([], forms)
  | j :: rest, forms =>
    let (j, left) := fill j forms
    let (rest, left) := fillItems rest left
    (j :: rest, left)

def fillFields : List (String × Json) → List String → List (String × Json) × List String
  | [], forms => ([], forms)
  | (key, j) :: rest, forms =>
    let (j, left) := if key = refKey then (j, forms) else fill j forms
    let (rest, left) := fillFields rest left
    ((key, j) :: rest, left)

end

/-- The value with other reference strings. -/
def withRefs (j : Json) (forms : List String) : Json := (j.fill forms).1

/-- A value takes as many strings as it has. -/
def TakesOwn (j : Json) : Prop :=
  ∀ front back : List String, front.length = j.refs.length →
    j.fill (front ++ back) = (j.withRefs front, back)

theorem exists_append_of_length {α : Type} {forms : List α} {n k : Nat} (h : forms.length = n + k) :
    ∃ front back, forms = front ++ back ∧ front.length = n ∧ back.length = k :=
  ⟨forms.take n, forms.drop n, (List.take_append_drop n forms).symm, by simp; omega, by simp; omega⟩

theorem fillItems_append {items : List Json} (each : ∀ j ∈ items, TakesOwn j)
    (front back : List String) (length : front.length = (refsItems items).length) :
    fillItems items (front ++ back) = ((fillItems items front).1, back) := by
  induction items generalizing front with
  | nil =>
    obtain rfl := List.length_eq_zero_iff.mp length
    rfl
  | cons j rest ih =>
    rw [refsItems, List.length_append] at length
    obtain ⟨first, more, rfl, here, later⟩ := exists_append_of_length length
    have own := each j (by simp)
    have others := ih (fun j member => each j (by simp [member])) more later
    simp only [fillItems, List.append_assoc, own first _ here, others]

theorem fillFields_append {fields : List (String × Json)} (each : ∀ e ∈ fields, TakesOwn e.2)
    (front back : List String) (length : front.length = (refsFields fields).length) :
    fillFields fields (front ++ back) = ((fillFields fields front).1, back) := by
  induction fields generalizing front with
  | nil =>
    obtain rfl := List.length_eq_zero_iff.mp length
    rfl
  | cons e rest ih =>
    obtain ⟨key, j⟩ := e
    have others := ih fun e member => each e (by simp [member])
    by_cases isRef : key = refKey
    · simp only [refsFields, isRef, ↓reduceIte, List.nil_append] at length
      simp only [fillFields, isRef, ↓reduceIte, others front length]
    · simp only [refsFields, isRef, ↓reduceIte, List.length_append] at length
      obtain ⟨first, more, rfl, here, later⟩ := exists_append_of_length length
      have own := each (key, j) (by simp)
      simp only [fillFields, isRef, ↓reduceIte, List.append_assoc, own first _ here,
        others more later]

theorem takesOwn (j : Json) : TakesOwn j := by
  induction j using Json.induct with
  | array items ih =>
    intro front back length
    rw [withRefs, fill, fill, fillItems_append ih front back length]
  | object fields ih =>
    intro front back length
    rw [withRefs, fill, fill]
    cases target : aliasTarget? (.object fields) with
    | none =>
      simp only [refs, target, Option.toList_none, List.nil_append] at length
      simp only [fillFields_append ih front back length]
    | some raw =>
      simp only [refs, target, Option.toList_some, List.singleton_append, List.length_cons] at length
      obtain ⟨form, more, rfl⟩ := List.exists_cons_of_length_eq_add_one length
      simp only [List.length_cons, Nat.add_right_cancel_iff] at length
      simp only [List.cons_append, List.tail_cons, List.headD_cons,
        fillFields_append ih more back length]
  | _ =>
    intro front back length
    obtain rfl := List.length_eq_zero_iff.mp length
    rfl

end Json

section

variable {m : Type → Type} [Monad m] [LawfulMonad m] {α β γ : Type}

/-- What comes after a pass over a list gets as many results as the list has items. -/
theorem mapM_bind_congr {f : α → m β} {as : List α} {next next' : List β → m γ}
    (same : ∀ bs : List β, bs.length = as.length → next bs = next' bs) :
    as.mapM f >>= next = as.mapM f >>= next' := by
  induction as generalizing next next' with
  | nil => simpa using same [] rfl
  | cons a rest ih =>
    simp only [List.mapM_cons, bind_assoc, pure_bind]
    congr 1
    funext b
    exact ih fun bs length => same (b :: bs) (by simp [length])

variable {f : String → m String}

theorem mapRefsItemsM_bind {items : List Json} (each : ∀ j ∈ items, ∀ next : Json → m α,
      j.mapRefsM f >>= next = j.refs.mapM f >>= fun forms => next (j.withRefs forms))
    (next : List Json → m α) : Json.mapRefsItemsM f items >>= next =
      (Json.refsItems items).mapM f >>= fun forms => next (Json.fillItems items forms).1 := by
  induction items generalizing next with
  | nil => simp [Json.mapRefsItemsM, Json.refsItems, Json.fillItems]
  | cons j rest ih =>
    have later := ih fun j member => each j (by simp [member])
    simp only [Json.mapRefsItemsM, Json.refsItems, List.mapM_append, bind_assoc, pure_bind,
      each j (by simp), later]
    apply mapM_bind_congr
    intro front length
    congr 1
    funext back
    rw [Json.fillItems, Json.takesOwn j front back length]

theorem mapRefsFieldsM_bind {fields : List (String × Json)}
    (each : ∀ e ∈ fields, ∀ next : Json → m α,
      e.2.mapRefsM f >>= next = e.2.refs.mapM f >>= fun forms => next (e.2.withRefs forms))
    (next : List (String × Json) → m α) : Json.mapRefsFieldsM f fields >>= next =
      (Json.refsFields fields).mapM f >>= fun forms => next (Json.fillFields fields forms).1 := by
  induction fields generalizing next with
  | nil => simp [Json.mapRefsFieldsM, Json.refsFields, Json.fillFields]
  | cons e rest ih =>
    obtain ⟨key, j⟩ := e
    have later := ih fun e member => each e (by simp [member])
    by_cases isRef : key = refKey
    · simp only [Json.mapRefsFieldsM, Json.refsFields, Json.fillFields, isRef, ↓reduceIte,
        List.nil_append, bind_assoc, pure_bind, later]
    · simp only [Json.mapRefsFieldsM, Json.refsFields, Json.fillFields, isRef, ↓reduceIte,
        List.mapM_append, bind_assoc, pure_bind, each (key, j) (by simp), later]
      apply mapM_bind_congr
      intro front length
      congr 1
      funext back
      rw [Json.takesOwn j front back length]

theorem mapRefsM_bind (j : Json) (next : Json → m α) :
    j.mapRefsM f >>= next = j.refs.mapM f >>= fun forms => next (j.withRefs forms) := by
  induction j using Json.induct generalizing next with
  | array items ih =>
    simp only [Json.mapRefsM, bind_assoc, pure_bind, Json.refs, Json.withRefs, Json.fill]
    exact mapRefsItemsM_bind ih fun outs => next (.array outs)
  | object fields ih =>
    cases target : aliasTarget? (.object fields) with
    | none =>
      have below := mapRefsFieldsM_bind ih fun outs => next (.object (Json.setRef none outs))
      simpa only [Json.mapRefsM, target, bind_assoc, pure_bind, Json.refs, Option.toList_none,
        List.nil_append, Json.withRefs, Json.fill] using below
    | some raw =>
      have below := fun form => mapRefsFieldsM_bind ih fun outs =>
        next (.object (Json.setRef (some form) outs))
      simp only [Json.mapRefsM, target, bind_assoc, pure_bind, Json.refs, Option.toList_some,
        List.singleton_append, List.mapM_cons, Json.withRefs, Json.fill, List.tail_cons,
        List.headD_cons, below]
  | _ => simp [Json.mapRefsM, Json.refs, Json.withRefs, Json.fill]

/-- A walk goes over the strings of the value and puts what comes of them into their places. -/
theorem mapRefsM_eq (j : Json) : j.mapRefsM f = j.withRefs <$> j.refs.mapM f := by
  have whole := mapRefsM_bind (f := f) j Pure.pure
  rwa [bind_pure, bind_pure_comp] at whole

end

end ApiGraph
