import ApiGraph.Proofs.Json.Refs

/-! What an act comes to that changes a state and may fail. `Meets` says what holds of the result
and of the state after it, and what holds of the fault if there is one; the laws below take an act
apart. `meets_mapRefsM` is the law for a walk over the reference strings of a value: if every
string is turned into its form, and forms stay as they are while the state grows, then the whole
value is turned into its form. -/

namespace ApiGraph

variable {ε σ α β : Type}

theorem ok_bind (a : α) (next : α → Except ε β) : (Except.ok a >>= next) = next a := rfl

theorem error_bind (fault : ε) (next : α → Except ε β) :
    (Except.error fault >>= next) = .error fault := rfl

theorem bind_eq_ok {run : Except ε α} {next : α → Except ε β} {b : β} :
    (run >>= next) = .ok b ↔ ∃ a, run = .ok a ∧ next a = .ok b := by
  cases run with
  | ok a => simp [ok_bind]
  | error fault => simp [error_bind]

theorem bind_eq_error {run : Except ε α} {next : α → Except ε β} {fault : ε} :
    (run >>= next) = .error fault ↔
      run = .error fault ∨ ∃ a, run = .ok a ∧ next a = .error fault := by
  cases run with
  | ok a => simp [ok_bind]
  | error fault => simp [error_bind]

theorem mapError_eq_ok {δ : Type} {run : Except ε α} {f : ε → δ} {a : α} :
    run.mapError f = .ok a ↔ run = .ok a := by
  cases run with
  | ok a => simp [Except.mapError]
  | error fault => simp [Except.mapError]

theorem map_eq_ok {run : Except ε α} {f : α → β} {b : β} :
    run.map f = .ok b ↔ ∃ a, run = .ok a ∧ f a = b := by
  cases run with
  | ok a => simp [Except.map]
  | error fault => simp [Except.map]

theorem reported_eq_ok_iff {stage : Stage} {run : Except Fault α} {a : α} :
    reported stage run = .ok a ↔ run = .ok a := mapError_eq_ok

/-- A run of which something was computed has ended well. -/
theorem exists_ok_of_map {run : Except ε α} {f : α → β} {b : β}
    (h : run.toOption.map f = some b) : ∃ a, run = .ok a ∧ f a = b := by
  cases run with
  | error fault => cases h
  | ok a => exact ⟨a, rfl, Option.some.inj h⟩

/-! A pass over a list. -/

theorem mapM_cons_eq_ok {f : α → Except ε β} {a : α} {as : List α} {bs : List β} :
    (a :: as).mapM f = .ok bs ↔ ∃ b rest, f a = .ok b ∧ as.mapM f = .ok rest ∧ bs = b :: rest := by
  rw [List.mapM_cons, bind_eq_ok]
  constructor
  · rintro ⟨b, first, h⟩
    obtain ⟨rest, later, h⟩ := bind_eq_ok.mp h
    cases h
    exact ⟨b, rest, first, later, rfl⟩
  · rintro ⟨b, rest, first, later, rfl⟩
    exact ⟨b, first, bind_eq_ok.mpr ⟨rest, later, rfl⟩⟩

/-- A pass succeeds with what another one gives, if its items do. -/
theorem mapM_eq_ok_congr {δ : Type} {f : α → Except ε β} {g : α → Except δ β} {as : List α}
    {bs : List β} (same : ∀ a b, f a = .ok b ↔ g a = .ok b) :
    as.mapM f = .ok bs ↔ as.mapM g = .ok bs := by
  induction as generalizing bs with
  | nil => exact ⟨fun h => congrArg Except.ok (Except.ok.inj h),
      fun h => congrArg Except.ok (Except.ok.inj h)⟩
  | cons a rest ih => simp only [mapM_cons_eq_ok, same, ih]

theorem mapM_eq_error {f : α → Except ε β} {as : List α} {fault : ε}
    (h : as.mapM f = .error fault) : ∃ a ∈ as, f a = .error fault := by
  induction as with
  | nil => cases h
  | cons a rest ih =>
    rw [List.mapM_cons] at h
    rcases bind_eq_error.mp h with first | ⟨b, _, h⟩
    · exact ⟨a, by simp, first⟩
    · rcases bind_eq_error.mp h with later | ⟨others, _, h⟩
      · obtain ⟨c, member, failed⟩ := ih later
        exact ⟨c, by simp [member], failed⟩
      · cases h

/-- A run over lists one after the other. -/
theorem foldlM_flatMap {step : σ → β → Except ε σ} {items : α → List β} {as : List α} {s : σ} :
    (as.flatMap items).foldlM step s = as.foldlM (fun s a => (items a).foldlM step s) s := by
  induction as generalizing s with
  | nil => rfl
  | cons a rest ih =>
    rw [List.flatMap_cons, List.foldlM_append, List.foldlM_cons]
    congr 1
    funext s
    exact ih

theorem mem_of_mapM {f : α → Except ε β} {as : List α} {bs : List β} (h : as.mapM f = .ok bs)
    (b : β) : b ∈ bs ↔ ∃ a ∈ as, f a = .ok b := by
  induction as generalizing bs with
  | nil =>
    cases h
    simp
  | cons a rest ih =>
    obtain ⟨b', others, first, later, rfl⟩ := mapM_cons_eq_ok.mp h
    rw [List.mem_cons, ih later]
    constructor
    · rintro (rfl | ⟨c, member, found⟩)
      · exact ⟨a, by simp, first⟩
      · exact ⟨c, by simp [member], found⟩
    · rintro ⟨c, member, found⟩
      rcases List.mem_cons.mp member with rfl | member
      · rw [first] at found
        cases found
        exact Or.inl rfl
      · exact Or.inr ⟨c, member, found⟩

theorem exists_of_mem_mapM {f : α → Except ε β} {as : List α} {bs : List β}
    (h : as.mapM f = .ok bs) {a : α} (member : a ∈ as) : ∃ b ∈ bs, f a = .ok b := by
  induction as generalizing bs with
  | nil => cases member
  | cons c rest ih =>
    obtain ⟨b, others, first, later, rfl⟩ := mapM_cons_eq_ok.mp h
    rcases List.mem_cons.mp member with rfl | member
    · exact ⟨b, by simp, first⟩
    · obtain ⟨b', place, found⟩ := ih later member
      exact ⟨b', by simp [place], found⟩

/-- A pass succeeds if every item has a result, and these are what it results in. -/
theorem mapM_eq_ok_iff {f : α → Except ε β} {as : List α} {bs : List β} : as.mapM f = .ok bs ↔
    (∀ a ∈ as, ∃ b, f a = .ok b) ∧ bs = as.filterMap fun a => (f a).toOption := by
  induction as generalizing bs with
  | nil =>
    constructor
    · rintro ⟨⟩
      exact ⟨by simp, rfl⟩
    · rintro ⟨_, rfl⟩
      rfl
  | cons a rest ih =>
    rw [mapM_cons_eq_ok]
    constructor
    · rintro ⟨b, others, first, later, rfl⟩
      obtain ⟨all, rfl⟩ := ih.mp later
      have found : (f a).toOption = some b := by
        rw [first]
        rfl
      refine ⟨?_, by rw [List.filterMap_cons, found]⟩
      intro c member
      rcases List.mem_cons.mp member with rfl | member
      · exact ⟨b, first⟩
      · exact all c member
    · rintro ⟨all, rfl⟩
      obtain ⟨b, first⟩ := all a (by simp)
      have found : (f a).toOption = some b := by
        rw [first]
        rfl
      refine ⟨b, _, first, ih.mpr ⟨fun c member => all c (by simp [member]), rfl⟩, ?_⟩
      rw [List.filterMap_cons, found]

/-- A pass takes each item to the result at its place. -/
theorem forall₂_of_mapM {f : α → Except ε β} {as : List α} {bs : List β}
    (h : as.mapM f = .ok bs) : List.Forall₂ (fun a b => f a = .ok b) as bs := by
  induction as generalizing bs with
  | nil =>
    cases h
    exact .nil
  | cons a rest ih =>
    obtain ⟨b, others, first, later, rfl⟩ := mapM_cons_eq_ok.mp h
    exact .cons first (ih later)

theorem forall₂_trans {γ : Type} {related : α → β → Prop} {related' : β → γ → Prop}
    {as : List α} {bs : List β} {cs : List γ} (h : List.Forall₂ related as bs)
    (h' : List.Forall₂ related' bs cs) :
    List.Forall₂ (fun a c => ∃ b, related a b ∧ related' b c) as cs := by
  induction h generalizing cs with
  | nil =>
    cases h'
    exact .nil
  | cons first _ ih =>
    cases h' with
    | cons second later => exact .cons ⟨_, first, second⟩ (ih later)

theorem map_of_forall₂ {γ : Type} {related : α → β → Prop} {f : α → γ} {g : β → γ}
    {as : List α} {bs : List β} (each : List.Forall₂ related as bs)
    (same : ∀ a b, related a b → f a = g b) : as.map f = bs.map g := by
  rw [← List.forall₂_eq_eq_eq, List.forall₂_map_left_iff, List.forall₂_map_right_iff]
  exact each.imp same

theorem mapM_perm {f : α → Except ε β} {as as' : List α} {bs : List β} (perm : as.Perm as')
    (h : as.mapM f = .ok bs) : ∃ bs', as'.mapM f = .ok bs' ∧ bs.Perm bs' := by
  obtain ⟨all, rfl⟩ := mapM_eq_ok_iff.mp h
  refine ⟨_, mapM_eq_ok_iff.mpr ⟨?_, rfl⟩, perm.filterMap _⟩
  exact fun a member => all a (perm.mem_iff.mpr member)

/-- A pass over some of the items gives their part of the results, if it is seen from a result which
item it belongs to. -/
theorem mapM_filter {f g : α → Except ε β} {keep : α → Bool} (kept : β → Bool) {as : List α}
    {bs : List β} (same : ∀ a ∈ as, keep a = true → ∀ b, f a = .ok b → g a = .ok b)
    (seen : ∀ a b, f a = .ok b → kept b = keep a) (h : as.mapM f = .ok bs) :
    (as.filter keep).mapM g = .ok (bs.filter kept) := by
  induction as generalizing bs with
  | nil =>
    obtain rfl := Except.ok.inj h
    rfl
  | cons a rest ih =>
    obtain ⟨b, others, first, later, rfl⟩ := mapM_cons_eq_ok.mp h
    have tail := ih (fun c member => same c (by simp [member])) later
    rw [List.filter_cons, List.filter_cons, seen a b first]
    by_cases ours : keep a = true
    · rw [if_pos ours, if_pos ours]
      exact mapM_cons_eq_ok.mpr ⟨b, _, same a (by simp) ours b first, tail, rfl⟩
    · rw [if_neg ours, if_neg ours]
      exact tail

/-- A pass succeeds if it does over some of the items and over the others. -/
theorem exists_mapM_of_filter {f g g' : α → Except ε β} {keep : α → Bool} {as : List α}
    {bs bs' : List β} (same : ∀ a ∈ as, keep a = true → ∀ b, g a = .ok b → f a = .ok b)
    (same' : ∀ a ∈ as, keep a = false → ∀ b, g' a = .ok b → f a = .ok b)
    (h : (as.filter keep).mapM g = .ok bs) (h' : (as.filter (!keep ·)).mapM g' = .ok bs') :
    ∃ all, as.mapM f = .ok all := by
  refine ⟨_, mapM_eq_ok_iff.mpr ⟨fun a member => ?_, rfl⟩⟩
  cases ours : keep a with
  | true =>
    obtain ⟨b, _, found⟩ := exists_of_mem_mapM h (List.mem_filter.mpr ⟨member, ours⟩)
    exact ⟨b, same a member ours b found⟩
  | false =>
    obtain ⟨b, _, found⟩ := exists_of_mem_mapM h' (List.mem_filter.mpr ⟨member, by simp [ours]⟩)
    exact ⟨b, same' a member ours b found⟩

/-- From the given state the act ends with a result as the first condition says, or with a fault as
the second one says. -/
def Meets (act : ExceptT ε (StateM σ) α) (s : σ) (post : α → σ → Prop) (fails : ε → Prop) : Prop :=
  match act.run.run s with
  | (.ok a, s') => post a s'
  | (.error fault, _) => fails fault

theorem run_run_bind (act : ExceptT ε (StateM σ) β) (next : β → ExceptT ε (StateM σ) α) (s : σ) :
    (act >>= next).run.run s = match act.run.run s with
      | (.ok b, s') => (next b).run.run s'
      | (.error fault, s') => (.error fault, s') := by
  change (ExceptT.bindCont next (act.run.run s).1).run (act.run.run s).2 = _
  rcases act.run.run s with ⟨_ | _, s'⟩ <;> rfl

theorem run_get_bind (next : σ → ExceptT ε (StateM σ) α) (s : σ) :
    (get >>= next).run.run s = (next s).run.run s := rfl

namespace Meets

variable {post : α → σ → Prop} {fails : ε → Prop} {s : σ}

theorem imp {act : ExceptT ε (StateM σ) α} {post' : α → σ → Prop} {fails' : ε → Prop}
    (h : Meets act s post fails) (weaker : ∀ a s', post a s' → post' a s')
    (worse : ∀ fault, fails fault → fails' fault) : Meets act s post' fails' := by
  rw [Meets] at h ⊢
  split at h
  · exact weaker _ _ h
  · exact worse _ h

theorem mono {act : ExceptT ε (StateM σ) α} {post' : α → σ → Prop}
    (h : Meets act s post fails) (weaker : ∀ a s', post a s' → post' a s') :
    Meets act s post' fails := h.imp weaker fun _ => id

theorem of_ok {act : ExceptT ε (StateM σ) α} (h : Meets act s post fails) {a : α}
    (run : (act.run.run s).1 = .ok a) : ∃ s', post a s' := by
  rw [Meets] at h
  rcases outcome : act.run.run s with ⟨fault | b, s'⟩
  · rw [outcome] at run
    cases run
  · rw [outcome] at h run
    cases run
    exact ⟨s', h⟩

theorem of_error {act : ExceptT ε (StateM σ) α} (h : Meets act s post fails) {fault : ε}
    (run : (act.run.run s).1 = .error fault) : fails fault := by
  rw [Meets] at h
  rcases outcome : act.run.run s with ⟨fault' | b, s'⟩
  · rw [outcome] at h run
    cases run
    exact h
  · rw [outcome] at run
    cases run

theorem pure {a : α} (holds : post a s) : Meets (Pure.pure a) s post fails := holds

theorem throw {fault : ε} (holds : fails fault) :
    Meets (throw fault : ExceptT ε (StateM σ) α) s post fails := holds

theorem bind {act : ExceptT ε (StateM σ) β} {next : β → ExceptT ε (StateM σ) α}
    (h : Meets act s (fun b s' => Meets (next b) s' post fails) fails) :
    Meets (act >>= next) s post fails := by
  simp only [Meets] at h ⊢
  rw [run_run_bind]
  split at h <;> simp_all

theorem get_bind {next : σ → ExceptT ε (StateM σ) α} (h : Meets (next s) s post fails) :
    Meets (get >>= next) s post fails := h

theorem set_bind {s' : σ} {next : PUnit → ExceptT ε (StateM σ) α}
    (h : Meets (next ⟨⟩) s' post fails) : Meets (set s' >>= next) s post fails := h

theorem modify_bind {change : σ → σ} {next : PUnit → ExceptT ε (StateM σ) α}
    (h : Meets (next ⟨⟩) (change s) post fails) : Meets (modify change >>= next) s post fails := h

theorem lift_bind {result : Except ε β} {next : β → ExceptT ε (StateM σ) α}
    (ok : ∀ b, result = .ok b → Meets (next b) s post fails)
    (error : ∀ fault, result = .error fault → fails fault) :
    Meets ((liftM result : ExceptT ε (StateM σ) β) >>= next) s post fails := by
  cases result with
  | ok b => exact ok b rfl
  | error fault => exact error fault rfl

end Meets

/-- How the forms of strings depend on a state that grows. -/
structure Growth (σ : Type) where
  le : σ → σ → Prop
  /-- The form of the string will not change any more. -/
  settled : σ → String → Prop
  form : σ → String → String
  refl : ∀ s, le s s
  trans : ∀ {s t u}, le s t → le t u → le s u
  keep : ∀ {s t raw}, le s t → settled s raw → settled t raw
  same : ∀ {s t raw}, le s t → settled s raw → form t raw = form s raw

namespace Growth

variable (g : Growth σ) {inv : σ → Prop} {fails : ε → Prop} {f : String → ExceptT ε (StateM σ) String}

/-- What holds after a walk over some strings, besides what it results in. -/
def After (inv : σ → Prop) (s : σ) (raws : List String) (s' : σ) : Prop :=
  inv s' ∧ g.le s s' ∧ ∀ raw ∈ raws, g.settled s' raw

variable {g}

theorem After.single {s s' : σ} {raw : String} (holds : inv s') (grows : g.le s s')
    (settled : g.settled s' raw) : g.After inv s [raw] s' := by
  refine ⟨holds, grows, ?_⟩
  simpa using settled

theorem After.append {s t u : σ} {front back : List String} (h : g.After inv s front t)
    (later : g.After inv t back u) : g.After inv s (front ++ back) u := by
  refine ⟨later.1, g.trans h.2.1 later.2.1, ?_⟩
  intro raw member
  rcases List.mem_append.mp member with first | second
  · exact g.keep later.2.1 (h.2.2 raw first)
  · exact later.2.2 raw second

theorem After.mapRefs_eq {s t u : σ} {j : Json} {back : List String}
    (h : g.After inv s j.refs t) (later : g.After inv t back u) :
    j.mapRefs (g.form t) = j.mapRefs (g.form u) := by
  apply Json.mapRefs_congr
  intro raw member
  exact (g.same later.2.1 (h.2.2 raw member)).symm

variable (g)

theorem meets_mapRefsItemsM {items : List Json} (each : ∀ j ∈ items, ∀ s, inv s →
      Meets (j.mapRefsM f) s (fun out s' => g.After inv s j.refs s' ∧ out = j.mapRefs (g.form s'))
        fails) (s : σ) (start : inv s) :
    Meets (Json.mapRefsItemsM f items) s (fun out s' =>
      g.After inv s (items.flatMap Json.refs) s' ∧ out = items.map (Json.mapRefs (g.form s')))
      fails := by
  induction items generalizing s with
  | nil =>
    exact Meets.pure ⟨⟨start, g.refl s, by simp⟩, rfl⟩
  | cons j rest ih =>
    rw [Json.mapRefsItemsM]
    apply Meets.bind
    apply (each j (by simp) s start).mono
    rintro out t ⟨first, rfl⟩
    apply Meets.bind
    apply (ih (fun j member => each j (by simp [member])) t first.1).mono
    rintro outs u ⟨later, rfl⟩
    apply Meets.pure
    refine ⟨by simpa using first.append later, ?_⟩
    rw [first.mapRefs_eq later, List.map_cons]

theorem meets_mapRefsFieldsM {fields : List (String × Json)}
    (each : ∀ e ∈ fields, e.1 ≠ refKey → ∀ s, inv s → Meets (e.2.mapRefsM f) s
      (fun out s' => g.After inv s e.2.refs s' ∧ out = e.2.mapRefs (g.form s')) fails)
    (s : σ) (start : inv s) :
    Meets (Json.mapRefsFieldsM f fields) s (fun out s' =>
      g.After inv s (Json.refsFields fields) s' ∧ out = Json.mapRefsFields (g.form s') fields)
      fails := by
  induction fields generalizing s with
  | nil => exact Meets.pure ⟨⟨start, g.refl s, by simp [Json.refsFields]⟩, rfl⟩
  | cons e rest ih =>
    obtain ⟨key, j⟩ := e
    have others := ih fun e member => each e (by simp [member])
    rw [Json.mapRefsFieldsM]
    by_cases here : key = refKey
    · rw [if_pos here]
      apply Meets.bind
      apply Meets.pure
      apply Meets.bind
      apply (others s start).mono
      rintro outs u ⟨later, rfl⟩
      apply Meets.pure
      refine ⟨by simpa [Json.refsFields, here] using later, ?_⟩
      rw [Json.mapRefsFields, if_pos here]
    · rw [if_neg here]
      apply Meets.bind
      apply (each (key, j) (by simp) here s start).mono
      rintro out t ⟨first, rfl⟩
      apply Meets.bind
      apply (others t first.1).mono
      rintro outs u ⟨later, rfl⟩
      apply Meets.pure
      refine ⟨by simpa [Json.refsFields, here] using first.append later, ?_⟩
      rw [Json.mapRefsFields, if_neg here]
      simp only
      rw [first.mapRefs_eq later]

/-- An object is turned into its form if its own reference is, and what stands behind its keys. -/
theorem meets_mapRefsM_object {fields : List (String × Json)}
    (own : ∀ raw, aliasTarget? (.object fields) = some raw → ∀ s, inv s →
      Meets (f raw) s (fun out s' => g.After inv s [raw] s' ∧ out = g.form s' raw) fails)
    (below : ∀ s, inv s → Meets (Json.mapRefsFieldsM f fields) s (fun out s' =>
      g.After inv s (Json.refsFields fields) s' ∧ out = Json.mapRefsFields (g.form s') fields) fails)
    (s : σ) (start : inv s) :
    Meets ((Json.object fields).mapRefsM f) s (fun out s' =>
      g.After inv s (Json.object fields).refs s' ∧ out = (Json.object fields).mapRefs (g.form s'))
      fails := by
  rw [Json.mapRefsM]
  cases target : aliasTarget? (.object fields) with
  | none =>
    apply Meets.bind
    apply Meets.pure
    apply Meets.bind
    apply (below s start).mono
    rintro outs t ⟨after, rfl⟩
    apply Meets.pure
    rw [Json.refs, Json.mapRefs, target]
    exact ⟨after, rfl⟩
  | some raw =>
    apply Meets.bind
    apply (own raw target s start).mono
    rintro out t ⟨first, rfl⟩
    apply Meets.bind
    apply Meets.pure
    apply Meets.bind
    apply (below t first.1).mono
    rintro outs u ⟨later, rfl⟩
    apply Meets.pure
    rw [Json.refs, Json.mapRefs, target]
    refine ⟨first.append later, ?_⟩
    rw [Option.map_some, g.same later.2.1 (first.2.2 raw (by simp))]

/-- A walk turns a value into its form, and afterwards the form of every string it met is
settled. -/
theorem meets_mapRefsM {j : Json} (each : ∀ raw ∈ j.refs, ∀ s, inv s →
      Meets (f raw) s (fun out s' => g.After inv s [raw] s' ∧ out = g.form s' raw) fails)
    (s : σ) (start : inv s) :
    Meets (j.mapRefsM f) s (fun out s' => g.After inv s j.refs s' ∧ out = j.mapRefs (g.form s'))
      fails := by
  induction j using Json.induct generalizing s with
  | array items ih =>
    have inside : ∀ j ∈ items, ∀ raw ∈ j.refs, raw ∈ (Json.array items).refs := by
      intro j member raw found
      rw [Json.refs, Json.refsItems_eq, List.mem_flatMap]
      exact ⟨j, member, found⟩
    have below := fun j member => ih j member fun raw found => each raw (inside j member raw found)
    rw [Json.mapRefsM]
    apply Meets.bind
    apply (g.meets_mapRefsItemsM below s start).mono
    rintro outs t ⟨after, rfl⟩
    apply Meets.pure
    rw [Json.refs, Json.refsItems_eq, Json.mapRefs_array]
    exact ⟨after, rfl⟩
  | object fields ih =>
    apply g.meets_mapRefsM_object _ _ s start
    · exact fun raw target => each raw (by simp [Json.refs, target])
    · apply g.meets_mapRefsFieldsM
      intro e member other
      apply ih e member
      intro raw found
      apply each raw
      rw [Json.refs_object, List.mem_append, List.mem_flatMap]
      exact Or.inr ⟨e, member, by simpa [other] using found⟩
  | _ => exact Meets.pure ⟨⟨start, g.refl s, by simp [Json.refs]⟩, rfl⟩

end Growth

end ApiGraph
