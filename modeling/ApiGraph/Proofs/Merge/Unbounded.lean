import ApiGraph.Proofs.Effect.Filled
import ApiGraph.Proofs.Merge.Verdict
import ApiGraph.Proofs.Resolver.Unbounded

/-! Merging without a limit, and what happens on the way. `Rewrites` goes over the strings that
stand at one place, enters every target that is to be brought in, and goes on after it, for as long
as there is something to enter. It depends on the files alone, and there is one way to go
(`Rewrites.unique`). A target has a name from the moment it is entered, so none is entered twice, in
whatever way the merge ends (`Merges.entered_once`). -/

namespace ApiGraph

namespace Merge

open Resolver (Origin Follows)

/-! One way to merge. -/

/-- What happens during a merge. -/
inductive Event where
  /-- A file is read and parsed. -/
  | reads (p : Path)
  /-- A target is entered, to be brought in. -/
  | enters (t : Resolved)

namespace Event

def path? : Event → Option Path
  | reads p => some p
  | enters _ => none

def target? : Event → Option Resolved
  | reads _ => none
  | enters t => some t

end Event

/-- The files that are read, in their order. -/
def pathsOf (log : List Event) : List Path := log.filterMap Event.path?

/-- The targets that are entered, in their order. -/
def entered (log : List Event) : List Resolved := log.filterMap Event.target?

/-- What a string leads to that stands at a place, if it does not stay as it is, with the files that
are read for it. -/
inductive Leads (files : FileTree) (root : Root) (origin : Origin) (raw : String) :
    List Path → Except Fault (Option Resolved) → Prop
  | unread {fault : Fault} (isBad : Reference.ofText raw = .error fault) :
    Leads files root origin raw [] (.error fault)
  | stays {ref : Reference} (isRef : Reference.ofText raw = .ok ref) (stays : Stays origin raw) :
    Leads files root origin raw [] (.ok none)
  | moves {ref : Reference} {reads : List Path} {result : Except Fault Resolved}
    (isRef : Reference.ofText raw = .ok ref) (moves : ¬ Stays origin raw)
    (follows : Follows files (root.scope origin.baseDir) [] ⟨root.file, origin.baseDir⟩
      ((origin.file.map ref.within).getD ref) reads result) :
    Leads files root origin raw reads (result.map some)

/-- Rewriting the strings that stand at one place, with what happens on the way: their new forms and
what was done by then, or the fault that ends it. A target that is entered is gone over before the
next string. -/
inductive Rewrites (files : FileTree) (root : Root) :
    Origin → List String → Ledger → List Event → Except Fault (List String × Ledger) → Prop
  | done {origin : Origin} {l : Ledger} : Rewrites files root origin [] l [] (.ok ([], l))
  | fails {origin : Origin} {raw : String} {rest : List String} {l : Ledger} {reads : List Path}
    {found : Except Fault (Option Resolved)} {fault : Fault}
    (leads : Leads files root origin raw reads found)
    (verdict : judge root raw l found = .fails fault) :
    Rewrites files root origin (raw :: rest) l (reads.map .reads) (.error fault)
  | writes {origin : Origin} {raw form : String} {rest : List String} {l l' : Ledger}
    {reads : List Path} {found : Except Fault (Option Resolved)} {log : List Event}
    {result : Except Fault (List String × Ledger)}
    (leads : Leads files root origin raw reads found)
    (verdict : judge root raw l found = .writes form l')
    (later : Rewrites files root origin rest l' log result) :
    Rewrites files root origin (raw :: rest) l (reads.map .reads ++ log)
      (result.map fun out => (form :: out.1, out.2))
  | sinks {origin : Origin} {raw : String} {rest : List String} {l : Ledger} {reads : List Path}
    {found : Except Fault (Option Resolved)} {t : Resolved} {log : List Event} {fault : Fault}
    (leads : Leads files root origin raw reads found)
    (verdict : judge root raw l found = .enters t)
    (inside : Rewrites files root t.origin t.node.refs (l.reserve t) log (.error fault)) :
    Rewrites files root origin (raw :: rest) l (reads.map .reads ++ .enters t :: log)
      (.error fault)
  | brings {origin : Origin} {raw : String} {rest forms : List String} {l l' : Ledger}
    {reads : List Path} {found : Except Fault (Option Resolved)} {t : Resolved}
    {log log' : List Event} {result : Except Fault (List String × Ledger)}
    (leads : Leads files root origin raw reads found)
    (verdict : judge root raw l found = .enters t)
    (inside : Rewrites files root t.origin t.node.refs (l.reserve t) log (.ok (forms, l')))
    (later : Rewrites files root origin rest (l'.finish t (t.node.withRefs forms)) log' result) :
    Rewrites files root origin (raw :: rest) l (reads.map .reads ++ .enters t :: (log ++ log'))
      (result.map fun out => (definitionRef t.name :: out.1, out.2))

/-- Merging a document, with what happens on the way. -/
inductive Merges (files : FileTree) (document : Json) (file : Option Path) (baseDir : Path) :
    List Event → Except Fault Merged → Prop
  | refused (shape : document.isObject = false) :
    Merges files document file baseDir [] (.error (.cannotMerge .rootNotObject))
  | walks {log : List Event} {result : Except Fault (List String × Ledger)}
    (shape : document.isObject = true)
    (rewrites : Rewrites files (Root.of document file) ⟨none, baseDir⟩ document.refs {} log
      result) :
    Merges files document file baseDir log (do
      let (forms, l) ← result
      return {
        document := ← addDefinitions (document.withRefs forms) l.inlined
        path := file
        inlined := l.inlined })

variable {files : FileTree} {root : Root} {origin : Origin} {raw : String} {raws : List String}
  {l : Ledger}

/-- A string leads to one thing. -/
theorem Leads.unique {reads reads' : List Path} {found found' : Except Fault (Option Resolved)}
    (h : Leads files root origin raw reads found)
    (h' : Leads files root origin raw reads' found') : reads' = reads ∧ found' = found := by
  cases h with
  | unread isBad => cases h' <;> simp_all
  | stays isRef stays => cases h' <;> simp_all
  | moves isRef moves follows =>
    cases h' with
    | unread isBad => simp_all
    | stays _ stays => exact absurd stays moves
    | moves isRef' _ follows' =>
      rw [isRef] at isRef'
      cases isRef'
      obtain ⟨rfl, rfl⟩ := follows.unique follows'
      exact ⟨rfl, rfl⟩

/-- Strings are rewritten in one way. -/
theorem Rewrites.unique {log log' : List Event} {result result' : Except Fault (List String × Ledger)}
    (h : Rewrites files root origin raws l log result)
    (h' : Rewrites files root origin raws l log' result') : log' = log ∧ result' = result := by
  induction h generalizing log' result' with
  | done =>
    cases h'
    exact ⟨rfl, rfl⟩
  | fails leads verdict =>
    cases h' with
    | fails leads' verdict' =>
      obtain ⟨rfl, rfl⟩ := leads.unique leads'
      simp_all
    | writes leads' verdict' | sinks leads' verdict' | brings leads' verdict' =>
      obtain ⟨rfl, rfl⟩ := leads.unique leads'
      simp_all
  | writes leads verdict later ih =>
    cases h' with
    | writes leads' verdict' later' =>
      obtain ⟨rfl, rfl⟩ := leads.unique leads'
      rw [verdict] at verdict'
      cases verdict'
      obtain ⟨rfl, rfl⟩ := ih later'
      exact ⟨rfl, rfl⟩
    | fails leads' verdict' | sinks leads' verdict' | brings leads' verdict' =>
      obtain ⟨rfl, rfl⟩ := leads.unique leads'
      simp_all
  | sinks leads verdict inside ih =>
    cases h' with
    | sinks leads' verdict' inside' =>
      obtain ⟨rfl, rfl⟩ := leads.unique leads'
      rw [verdict] at verdict'
      cases verdict'
      obtain ⟨rfl, same⟩ := ih inside'
      exact ⟨rfl, by cases same; rfl⟩
    | brings leads' verdict' inside' later' =>
      obtain ⟨rfl, rfl⟩ := leads.unique leads'
      rw [verdict] at verdict'
      cases verdict'
      cases (ih inside').2
    | fails leads' verdict' | writes leads' verdict' =>
      obtain ⟨rfl, rfl⟩ := leads.unique leads'
      simp_all
  | brings leads verdict inside later ihInside ihLater =>
    cases h' with
    | brings leads' verdict' inside' later' =>
      obtain ⟨rfl, rfl⟩ := leads.unique leads'
      rw [verdict] at verdict'
      cases verdict'
      obtain ⟨rfl, same⟩ := ihInside inside'
      cases same
      obtain ⟨rfl, rfl⟩ := ihLater later'
      exact ⟨rfl, rfl⟩
    | sinks leads' verdict' inside' =>
      obtain ⟨rfl, rfl⟩ := leads.unique leads'
      rw [verdict] at verdict'
      cases verdict'
      cases (ihInside inside').2
    | fails leads' verdict' | writes leads' verdict' =>
      obtain ⟨rfl, rfl⟩ := leads.unique leads'
      simp_all

theorem Merges.unique {document : Json} {file : Option Path} {baseDir : Path}
    {log log' : List Event} {result result' : Except Fault Merged}
    (h : Merges files document file baseDir log result)
    (h' : Merges files document file baseDir log' result') : log' = log ∧ result' = result := by
  cases h with
  | refused shape => cases h' <;> simp_all
  | walks shape rewrites =>
    cases h' with
    | refused shape' => simp_all
    | walks _ rewrites' =>
      obtain ⟨rfl, rfl⟩ := rewrites.unique rewrites'
      exact ⟨rfl, rfl⟩

/-! No target is entered twice. -/

/-- A target that is entered stands in another file and has no name yet. -/
theorem new_of_enters {found : Except Fault (Option Resolved)} {t : Resolved}
    (verdict : judge root raw l found = .enters t) : found = .ok (some t) ∧
      t.isInScope = false ∧ t.canonical ∉ Table.keys l.assigned := by
  revert verdict
  fun_cases judge root raw l found with
  | case7 t away unnamed =>
    rintro ⟨⟩
    exact ⟨rfl, by simpa using away, Table.get?_eq_none_iff.mp unnamed⟩
  | _ => rintro ⟨⟩

/-- A target is entered if neither its key nor its name is taken. -/
theorem free_of_enters {found : Except Fault (Option Resolved)} {t : Resolved}
    (verdict : judge root raw l found = .enters t) : l.assigned.get? t.canonical = none ∧
      t.name ∉ root.authored ∧ l.owners.get? t.name = none := by
  revert verdict
  fun_cases judge root raw l found with
  | case7 t away unnamed brought free =>
    rintro ⟨⟩
    exact ⟨unnamed, brought, free⟩
  | _ => rintro ⟨⟩

theorem Ledger.mem_keys_assign {t : Resolved} {key : String} :
    key ∈ Table.keys (l.assign t).assigned ↔ key = t.canonical ∨ key ∈ Table.keys l.assigned :=
  Table.mem_keys_insert _ _ _ key

theorem Ledger.mem_keys_reserve {t : Resolved} {key : String} :
    key ∈ Table.keys (l.reserve t).assigned ↔ key = t.canonical ∨ key ∈ Table.keys l.assigned :=
  Table.mem_keys_insert _ _ _ key

/-- Where a string is written, a name is assigned at most, to a target that has a definition. -/
theorem assigned_of_writes {found : Except Fault (Option Resolved)} {form : String} {l' : Ledger}
    (verdict : judge root raw l found = .writes form l') : l' = l ∨
      ∃ t, l' = l.assign t ∧ l.assigned.get? t.canonical = none ∧ t.name ∈ root.authored := by
  revert verdict
  fun_cases judge root raw l found with
  | case2 | case3 | case4 =>
    rintro ⟨⟩
    exact Or.inl rfl
  | case5 t away unnamed authored =>
    rintro ⟨⟩
    exact Or.inr ⟨t, rfl, unnamed, authored⟩
  | _ => rintro ⟨⟩

theorem grows_of_writes {found : Except Fault (Option Resolved)} {form : String} {l' : Ledger}
    (verdict : judge root raw l found = .writes form l') :
    Table.keys l.assigned ⊆ Table.keys l'.assigned := by
  rcases assigned_of_writes verdict with rfl | ⟨t, rfl, _⟩
  · exact List.Subset.refl _
  · exact fun key held => Ledger.mem_keys_assign.mpr (Or.inr held)

@[simp] theorem entered_reads (reads : List Path) (log : List Event) :
    entered (reads.map .reads ++ log) = entered log := by
  simp [entered, Event.target?]

@[simp] theorem entered_enters (t : Resolved) (log : List Event) :
    entered (.enters t :: log) = t :: entered log := rfl

@[simp] theorem entered_append (log log' : List Event) :
    entered (log ++ log') = entered log ++ entered log' := List.filterMap_append

/-- The targets that are entered have no names before, and names after. -/
structure Enters (l : Ledger) (targets : List Resolved)
    (result : Except Fault (List String × Ledger)) : Prop where
  unique : (targets.map (·.canonical)).Nodup
  new : ∀ t ∈ targets, t.canonical ∉ Table.keys l.assigned
  grows : ∀ out, result = .ok out → Table.keys l.assigned ⊆ Table.keys out.2.assigned
  named : ∀ out, result = .ok out → ∀ t ∈ targets, t.canonical ∈ Table.keys out.2.assigned

namespace Enters

variable {targets more : List Resolved} {result : Except Fault (List String × Ledger)}
  {l' : Ledger} {t : Resolved}

theorem nothing (grows : ∀ out, result = .ok out → Table.keys l.assigned ⊆
    Table.keys out.2.assigned) : Enters l [] result :=
  ⟨List.nodup_nil, by simp, grows, by simp⟩

/-- What the new strings are does not count. -/
theorem map (h : Enters l targets result) (form : String) :
    Enters l targets (result.map fun out => (form :: out.1, out.2)) where
  unique := h.unique
  new := h.new
  grows out ended := by
    obtain ⟨before, wasOk, rfl⟩ := map_eq_ok.mp ended
    exact h.grows before wasOk
  named out ended := by
    obtain ⟨before, wasOk, rfl⟩ := map_eq_ok.mp ended
    exact h.named before wasOk

theorem after (h : Enters l' targets result)
    (grows : Table.keys l.assigned ⊆ Table.keys l'.assigned) : Enters l targets result where
  unique := h.unique
  new t member held := h.new t member (grows held)
  grows out ended := List.Subset.trans grows (h.grows out ended)
  named := h.named

theorem append {forms : List String} (h : Enters l targets (.ok (forms, l')))
    (later : Enters l' more result) : Enters l (targets ++ more) result where
  unique := by
    rw [List.map_append, List.nodup_append]
    refine ⟨h.unique, later.unique, ?_⟩
    intro key first key' second same
    obtain ⟨t, member, rfl⟩ := List.mem_map.mp first
    obtain ⟨t', member', rfl⟩ := List.mem_map.mp second
    exact later.new t' member' (same ▸ h.named _ rfl t member)
  new t member held := by
    rcases List.mem_append.mp member with member | member
    · exact h.new t member held
    · exact later.new t member (h.grows _ rfl held)
  grows out ended := List.Subset.trans (h.grows _ rfl) (later.grows out ended)
  named out ended t member := by
    rcases List.mem_append.mp member with member | member
    · exact later.grows out ended (h.named _ rfl t member)
    · exact later.named out ended t member

/-- A target has a name before anything in it is entered. -/
theorem enter (h : Enters (l.reserve t) targets result)
    (new : t.canonical ∉ Table.keys l.assigned) : Enters l (t :: targets) result where
  unique := by
    rw [List.map_cons, List.nodup_cons]
    refine ⟨fun again => ?_, h.unique⟩
    obtain ⟨s, member, same⟩ := List.mem_map.mp again
    exact h.new s member (Ledger.mem_keys_reserve.mpr (Or.inl same))
  new s member held := by
    rcases List.mem_cons.mp member with rfl | member
    · exact new held
    · exact h.new s member (Ledger.mem_keys_reserve.mpr (Or.inr held))
  grows out ended key held := h.grows out ended (Ledger.mem_keys_reserve.mpr (Or.inr held))
  named out ended s member := by
    rcases List.mem_cons.mp member with rfl | member
    · exact h.grows out ended (Ledger.mem_keys_reserve.mpr (Or.inl rfl))
    · exact h.named out ended s member

end Enters

theorem Rewrites.enters {log : List Event} {result : Except Fault (List String × Ledger)}
    (h : Rewrites files root origin raws l log result) : Enters l (entered log) result := by
  induction h with
  | done =>
    apply Enters.nothing
    rintro _ ⟨⟩
    exact List.Subset.refl _
  | fails leads verdict =>
    rw [← List.append_nil (List.map _ _), entered_reads]
    exact Enters.nothing (by simp)
  | writes leads verdict later ih =>
    rw [entered_reads]
    exact (ih.after (grows_of_writes verdict)).map _
  | sinks leads verdict inside ih =>
    rw [entered_reads, entered_enters]
    exact ih.enter (new_of_enters verdict).2.2
  | brings leads verdict inside later ihInside ihLater =>
    rw [entered_reads, entered_enters, entered_append]
    exact ((ihInside.append (ihLater.after (List.Subset.refl _))).enter
      (new_of_enters verdict).2.2).map _

theorem Merges.entered_once {document : Json} {file : Option Path} {baseDir : Path}
    {log : List Event} {result : Except Fault Merged}
    (h : Merges files document file baseDir log result) :
    ((entered log).map (·.canonical)).Nodup := by
  cases h with
  | refused => exact List.nodup_nil
  | walks _ rewrites => exact rewrites.enters.unique

end Merge

end ApiGraph
