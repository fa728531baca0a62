import ApiGraph.Proofs.Effect.Meets

/-! Two runs side by side. `Agrees` says that two acts come to the same result from two states, also
to the same fault, and leave states behind that are related again. The laws below take both acts
apart in step; `agrees_mapRefsM` is the law for a walk over the reference strings of a value, which
needs no more than that the acts for each string agree. -/

namespace ApiGraph

variable {ε σ α β : Type}

/-- From the two states the acts come to the same result and to states that are related. -/
def Agrees (R : σ → σ → Prop) (act act' : ExceptT ε (StateM σ) α) (s s' : σ) : Prop :=
  (act.run.run s).1 = (act'.run.run s').1 ∧ R (act.run.run s).2 (act'.run.run s').2

namespace Agrees

variable {R : σ → σ → Prop} {s s' : σ}

theorem pure (related : R s s') (a : α) :
    Agrees R (Pure.pure a : ExceptT ε (StateM σ) α) (Pure.pure a) s s' := ⟨rfl, related⟩

theorem throw (related : R s s') (fault : ε) :
    Agrees R (throw fault : ExceptT ε (StateM σ) α) (throw fault) s s' := ⟨rfl, related⟩

theorem bind {act act' : ExceptT ε (StateM σ) β} {next next' : β → ExceptT ε (StateM σ) α}
    (h : Agrees R act act' s s')
    (each : ∀ b t t', R t t' → Agrees R (next b) (next' b) t t') :
    Agrees R (act >>= next) (act' >>= next') s s' := by
  obtain ⟨same, related⟩ := h
  rw [Agrees, run_run_bind, run_run_bind]
  rcases run : act.run.run s with ⟨fault | b, t⟩
  · rcases run' : act'.run.run s' with ⟨fault' | b', t'⟩
    · rw [run, run'] at same related
      cases same
      exact ⟨rfl, related⟩
    · rw [run, run'] at same
      cases same
  · rcases run' : act'.run.run s' with ⟨fault' | b', t'⟩
    · rw [run, run'] at same
      cases same
    · rw [run, run'] at same related
      cases same
      exact each b t t' related

theorem get_bind {next next' : σ → ExceptT ε (StateM σ) α}
    (h : Agrees R (next s) (next' s') s s') : Agrees R (get >>= next) (get >>= next') s s' := h

theorem modify_bind {change change' : σ → σ} {next next' : PUnit → ExceptT ε (StateM σ) α}
    (h : Agrees R (next ⟨⟩) (next' ⟨⟩) (change s) (change' s')) :
    Agrees R (modify change >>= next) (modify change' >>= next') s s' := h

theorem lift_bind (related : R s s') {result : Except ε β}
    {next next' : β → ExceptT ε (StateM σ) α}
    (ok : ∀ b, result = .ok b → Agrees R (next b) (next' b) s s') :
    Agrees R ((liftM result : ExceptT ε (StateM σ) β) >>= next)
      ((liftM result : ExceptT ε (StateM σ) β) >>= next') s s' := by
  cases result with
  | ok b => exact ok b rfl
  | error fault => exact ⟨rfl, related⟩

end Agrees

section

variable {R : σ → σ → Prop} {f f' : String → ExceptT ε (StateM σ) String}

theorem agrees_mapRefsItemsM {items : List Json}
    (each : ∀ j ∈ items, ∀ s s', R s s' → Agrees R (j.mapRefsM f) (j.mapRefsM f') s s')
    (s s' : σ) (related : R s s') :
    Agrees R (Json.mapRefsItemsM f items) (Json.mapRefsItemsM f' items) s s' := by
  induction items generalizing s s' with
  | nil => exact Agrees.pure related _
  | cons j rest ih =>
    rw [Json.mapRefsItemsM, Json.mapRefsItemsM]
    apply Agrees.bind (each j (by simp) s s' related)
    intro out t t' related
    apply Agrees.bind (ih (fun j member => each j (by simp [member])) t t' related)
    exact fun outs u u' related => Agrees.pure related _

theorem agrees_mapRefsFieldsM {fields : List (String × Json)}
    (each : ∀ e ∈ fields, ∀ s s', R s s' → Agrees R (e.2.mapRefsM f) (e.2.mapRefsM f') s s')
    (s s' : σ) (related : R s s') :
    Agrees R (Json.mapRefsFieldsM f fields) (Json.mapRefsFieldsM f' fields) s s' := by
  induction fields generalizing s s' with
  | nil => exact Agrees.pure related _
  | cons e rest ih =>
    obtain ⟨key, j⟩ := e
    have value : Agrees R (if key = refKey then Pure.pure j else j.mapRefsM f)
        (if key = refKey then Pure.pure j else j.mapRefsM f') s s' := by
      by_cases here : key = refKey
      · rw [if_pos here, if_pos here]
        exact Agrees.pure related j
      · rw [if_neg here, if_neg here]
        exact each (key, j) (by simp) s s' related
    have others : ∀ out t t', R t t' →
        Agrees R (Json.mapRefsFieldsM f rest >>= fun outs => Pure.pure ((key, out) :: outs))
          (Json.mapRefsFieldsM f' rest >>= fun outs => Pure.pure ((key, out) :: outs)) t t' := by
      intro out t t' related
      apply Agrees.bind (ih (fun e member => each e (by simp [member])) t t' related)
      exact fun outs u u' related => Agrees.pure related _
    rw [Json.mapRefsFieldsM, Json.mapRefsFieldsM]
    by_cases here : key = refKey
    · simp only [here, ↓reduceIte] at value others ⊢
      exact Agrees.bind value others
    · simp only [here, ↓reduceIte] at value others ⊢
      exact Agrees.bind value others

/-- Walks over a value agree if what they do for each string does. -/
theorem agrees_mapRefsM {j : Json} (each : ∀ raw s s', R s s' → Agrees R (f raw) (f' raw) s s')
    (s s' : σ) (related : R s s') : Agrees R (j.mapRefsM f) (j.mapRefsM f') s s' := by
  induction j using Json.induct generalizing s s' with
  | array items ih =>
    rw [Json.mapRefsM, Json.mapRefsM]
    apply Agrees.bind (agrees_mapRefsItemsM ih s s' related)
    exact fun outs t t' related => Agrees.pure related _
  | object fields ih =>
    have below : ∀ ref s s', R s s' →
        Agrees R (Json.mapRefsFieldsM f fields >>= fun outs =>
            Pure.pure (Json.object (Json.setRef ref outs)))
          (Json.mapRefsFieldsM f' fields >>= fun outs =>
            Pure.pure (Json.object (Json.setRef ref outs))) s s' := by
      intro ref s s' related
      apply Agrees.bind (agrees_mapRefsFieldsM ih s s' related)
      exact fun outs t t' related => Agrees.pure related _
    rw [Json.mapRefsM, Json.mapRefsM]
    cases aliasTarget? (.object fields) with
    | none => exact Agrees.bind (Agrees.pure related none) below
    | some raw =>
      apply Agrees.bind (each raw s s' related)
      intro out t t' related
      exact Agrees.bind (Agrees.pure related (some out)) below
  | _ => exact Agrees.pure related _

end

end ApiGraph
