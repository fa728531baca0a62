import ApiGraph.Proofs.Merge.Discovery
import ApiGraph.Proofs.Merge.Spelling
import ApiGraph.Proofs.Merge.Stages

/-! The three tables of a merge. They agree at every stage, also while targets are open whose nodes
are not there yet (`tidy_of_reach`): a name that was taken for a key is the name by which the key is
referred to. Names are only ever added, at the end. What is brought in are the targets that were met
and have no definition; these are all targets that can be reached, exactly if no key is shared
(`exact_iff`). -/

namespace ApiGraph.Merge

open Relation (ReflTransGen)
open Resolver (Origin Consistent)

variable {files : FileTree} {root : Root} {origin : Origin} {raw : String} {l l' : Ledger}
  {c c' : Stage} {baseDir : Path}

/-- What holds of the tables throughout: names are taken where nodes are brought in, and a key has
the name that was taken for it, or that of a definition. -/
structure Tidy (root : Root) (l : Ledger) : Prop where
  names : Table.keys l.owners = Table.keys l.inlined
  owned : ∀ name key, l.owners.get? name = some key ↔
    l.assigned.get? key = some name ∧ name ∉ root.authored

namespace Tidy

theorem start : Tidy root {} where
  names := rfl
  owned := by simp

theorem assign {t : Resolved} (tidy : Tidy root l) (unnamed : l.assigned.get? t.canonical = none)
    (authored : t.name ∈ root.authored) : Tidy root (l.assign t) where
  names := tidy.names
  owned name key := by
    have same : (l.assign t).owners = l.owners := rfl
    rw [same, tidy.owned, Ledger.assign, Table.get?_insert]
    by_cases here : t.canonical = key
    · subst here
      simp only [unnamed, ↓reduceIte, Option.some.injEq, reduceCtorEq, false_and, false_iff, not_and,
        not_not]
      rintro rfl
      exact authored
    · rw [if_neg here]

theorem reserve {t : Resolved} (tidy : Tidy root l) (unnamed : l.assigned.get? t.canonical = none)
    (brought : t.name ∉ root.authored) (free : l.owners.get? t.name = none) :
    Tidy root (l.reserve t) where
  names := by
    have absent := Table.get?_eq_none_iff.mp free
    have absent' : t.name ∉ Table.keys l.inlined := tidy.names ▸ absent
    rw [Ledger.reserve, Table.keys_insert_of_not_mem absent, Table.keys_insert_of_not_mem absent',
      tidy.names]
  owned name key := by
    rw [Ledger.reserve, Table.get?_insert, Table.get?_insert]
    by_cases mine : t.name = name
    · subst mine
      rw [if_pos rfl]
      by_cases here : t.canonical = key
      · simp [here, brought]
      · -- No other key has the name, since the name was free.
        rw [if_neg here]
        have other := (tidy.owned t.name key).not.mp (by simp [free])
        simp [here, other]
    · rw [if_neg mine, tidy.owned]
      by_cases here : t.canonical = key
      · subst here
        simp [unnamed, mine]
      · rw [if_neg here]

theorem finish {t : Resolved} (tidy : Tidy root l) (opened : t.name ∈ Table.keys l.inlined)
    (node : Json) : Tidy root (l.finish t node) where
  names := by
    rw [Ledger.finish, Table.keys_insert_of_mem opened]
    exact tidy.names
  owned := tidy.owned

end Tidy

/-- The tables are tidy, and the name of every open target is among those that are brought in. -/
structure Stage.Tidy (root : Root) (c : Stage) : Prop where
  tables : Merge.Tidy root c.ledger
  opened : ∀ frame ∈ c.frame :: c.outer, ∀ t ∈ frame.target, t.name ∈ Table.keys c.ledger.inlined

theorem Stage.Tidy.start (document : Json) : (Stage.start document baseDir).Tidy root where
  tables := Merge.Tidy.start
  opened := by simp [Stage.start]

theorem keys_inlined_of_writes {found : Except Fault (Option Resolved)} {form : String}
    (verdict : judge root raw l found = .writes form l') : l'.inlined = l.inlined := by
  rcases assigned_of_writes verdict with rfl | ⟨t, rfl, _⟩
  · rfl
  · rfl

theorem keys_reserve {t : Resolved} (tidy : Tidy root l) (free : l.owners.get? t.name = none) :
    Table.keys (l.reserve t).inlined = Table.keys l.inlined ++ [t.name] := by
  have absent : t.name ∉ Table.keys l.inlined := tidy.names ▸ Table.get?_eq_none_iff.mp free
  exact Table.keys_insert_of_not_mem absent _

/-- A step keeps the tables tidy, and adds a name at the end at most. -/
theorem Step.tidy (step : Step files root c c') (tidy : c.Tidy root) :
    c'.Tidy root ∧ Table.keys c.ledger.inlined <+: Table.keys c'.ledger.inlined := by
  cases step with
  | writes leads verdict =>
    have inlined := keys_inlined_of_writes verdict
    refine ⟨⟨?_, ?_⟩, by simp only [inlined]; exact List.prefix_refl _⟩
    · rcases assigned_of_writes verdict with rfl | ⟨t, rfl, unnamed, authored⟩
      · exact tidy.tables
      · exact tidy.tables.assign unnamed authored
    · intro frame member t target
      simp only [inlined]
      rcases List.mem_cons.mp member with rfl | outer
      · exact tidy.opened _ List.mem_cons_self t target
      · exact tidy.opened frame (List.mem_cons_of_mem _ outer) t target
  | @enters target origin forms left raw outer l reads found t leads verdict =>
    obtain ⟨unnamed, brought, free⟩ := free_of_enters verdict
    have keys := keys_reserve tidy.tables free
    refine ⟨⟨tidy.tables.reserve unnamed brought free, ?_⟩, ?_⟩
    · intro frame member s isTarget
      simp only [keys, List.mem_append, List.mem_singleton]
      rcases List.mem_cons.mp member with rfl | around
      · exact Or.inr (by rw [Option.mem_some_iff.mp isTarget])
      · rcases List.mem_cons.mp around with rfl | outer
        · exact Or.inl (tidy.opened _ List.mem_cons_self s isTarget)
        · exact Or.inl (tidy.opened frame (List.mem_cons_of_mem _ outer) s isTarget)
    · simp only [keys]
      exact List.prefix_append _ _
  | @leaves t target inside origin written forms left outer l =>
    have opened := tidy.opened _ List.mem_cons_self t rfl
    have keys : Table.keys (l.finish t (t.node.withRefs written)).inlined = Table.keys l.inlined :=
      Table.keys_insert_of_mem opened _
    refine ⟨⟨tidy.tables.finish opened _, ?_⟩, ?_⟩
    · intro frame member s isTarget
      simp only [keys]
      rcases List.mem_cons.mp member with rfl | outer
      · exact tidy.opened ⟨target, origin, forms, left⟩ (by simp) s isTarget
      · exact tidy.opened frame (by simp [outer]) s isTarget
    · simp only [keys]
      exact List.prefix_refl _

/-- A run of steps does so as well. -/
theorem tidy_of_reach (reach : ReflTransGen (Step files root) c c') (tidy : c.Tidy root) :
    c'.Tidy root ∧ Table.keys c.ledger.inlined <+: Table.keys c'.ledger.inlined := by
  induction reach with
  | refl => exact ⟨tidy, List.prefix_refl _⟩
  | tail _ step ih =>
    obtain ⟨tidy, grows⟩ := ih
    obtain ⟨tidy, grows'⟩ := step.tidy tidy
    exact ⟨tidy, grows.trans grows'⟩

/-- How the tables agree. -/
structure Agrees (root : Root) (l : Ledger) : Prop where
  names : Table.keys l.owners = Table.keys l.inlined
  unauthored : ∀ name ∈ Table.keys l.owners, name ∉ root.authored
  back : ∀ name key, l.owners.get? name = some key → l.assigned.get? key = some name
  apart : ∀ key key' name, l.assigned.get? key = some name → l.assigned.get? key' = some name →
    key ≠ key' → name ∈ root.authored

theorem Tidy.agrees (tidy : Tidy root l) : Agrees root l where
  names := tidy.names
  unauthored name taken := by
    obtain ⟨key, owned⟩ := Table.mem_keys_iff.mp taken
    exact ((tidy.owned name key).mp owned).2
  back name key owned := ((tidy.owned name key).mp owned).1
  apart key key' name first second other := by
    by_contra brought
    have owned := (tidy.owned name key).mpr ⟨first, brought⟩
    rw [(tidy.owned name key').mpr ⟨second, brought⟩] at owned
    exact other (Option.some.inj owned).symm

/-! Which targets are met. -/

/-- What the strings at a place lead to is met by its key. -/
def Covers (files : FileTree) (root : Root) (met : List Resolved) (origin : Origin)
    (raws : List String) : Prop :=
  ∀ raw ∈ raws, ∀ t, Away files root origin raw t → t.canonical ∈ met.map (·.canonical)

theorem Covers.mono {met more : List Resolved} {raws : List String}
    (covers : Covers files root met origin raws) (grows : met <+: more) :
    Covers files root more origin raws :=
  fun raw member t away => (grows.map _).subset (covers raw member t away)

theorem Covers.cons {met : List Resolved} {raws : List String}
    (first : ∀ t, Away files root origin raw t → t.canonical ∈ met.map (·.canonical))
    (covers : Covers files root met origin raws) : Covers files root met origin (raw :: raws) :=
  List.forall_mem_cons.mpr ⟨first, covers⟩

namespace Discovers

variable {raws : List String} {seen last met : List Resolved}

/-- Targets are met by different keys. -/
theorem keys_nodup (h : Discovers files root origin raws seen last)
    (unique : (seen.map (·.canonical)).Nodup) : (last.map (·.canonical)).Nodup := by
  have extend : ∀ {seen : List Resolved} {t : Resolved}, (seen.map (·.canonical)).Nodup →
      t.canonical ∉ seen.map (·.canonical) → ((seen ++ [t]).map (·.canonical)).Nodup := by
    intro seen t unique new
    rw [List.map_append, List.nodup_append]
    refine ⟨unique, by simp, ?_⟩
    rintro key member other single rfl
    rw [List.map_singleton, List.mem_singleton] at single
    exact new (single ▸ member)
  induction h with
  | done => exact unique
  | stays _ _ _ ih | here _ _ _ _ ih | again _ _ _ ih => exact ih unique
  | authored _ new _ _ ih => exact ih (extend unique new)
  | brought _ new _ _ _ inside later => exact later (inside (extend unique new))

/-- What is met can be reached. -/
theorem reached (h : Discovers files root origin raws seen last)
    (visited : ∀ raw ∈ raws, ∀ t, Away files root origin raw t → Reached files root baseDir t)
    (before : ∀ t ∈ seen, Reached files root baseDir t) :
    ∀ t ∈ last, Reached files root baseDir t := by
  have extend : ∀ {seen : List Resolved} {t : Resolved}, (∀ s ∈ seen, Reached files root baseDir s) →
      Reached files root baseDir t → ∀ s ∈ seen ++ [t], Reached files root baseDir s := by
    intro seen t before reached s member
    rcases List.mem_append.mp member with old | new
    · exact before s old
    · exact List.mem_singleton.mp new ▸ reached
  induction h with
  | done => exact before
  | stays _ _ _ ih | here _ _ _ _ ih | again _ _ _ ih =>
    exact ih (List.forall_mem_cons.mp visited).2 before
  | authored away _ _ _ ih =>
    obtain ⟨first, rest⟩ := List.forall_mem_cons.mp visited
    exact ih rest (extend before (first _ away))
  | brought away _ unauthored _ _ inside later =>
    obtain ⟨first, rest⟩ := List.forall_mem_cons.mp visited
    have reached := first _ away
    refine later rest (inside ?_ (extend before reached))
    exact fun raw met t inTarget => .inTarget reached unauthored met inTarget.leads inTarget.away

theorem reached_of_root (h : Discovers files root ⟨none, baseDir⟩ root.document.refs [] met) :
    ∀ t ∈ met, Reached files root baseDir t :=
  h.reached (fun _ member _ away => .inRoot member away.moves away.leads away.away) (by simp)

/-- All strings are covered that stand at the place, or in a target that was brought in. -/
theorem covers (h : Discovers files root origin raws seen last) :
    Covers files root last origin raws ∧ ∀ t ∈ last, t ∉ seen → t.name ∉ root.authored →
      Covers files root last t.origin t.node.refs := by
  induction h with
  | done => exact ⟨by simp [Covers], fun t member new => absurd member new⟩
  | stays _ stays _ ih => exact ⟨ih.1.cons fun t away => absurd stays away.moves, ih.2⟩
  | here _ leads here _ ih =>
    refine ⟨ih.1.cons fun t away => ?_, ih.2⟩
    obtain rfl := away.unique leads
    exact absurd here (by simp [away.away])
  | again away met later ih =>
    refine ⟨ih.1.cons fun t away' => ?_, ih.2⟩
    obtain rfl := away.unique away'.leads
    exact (later.extends_seen.map _).subset met
  | @authored origin raw rest seen last t away _ authored later ih =>
    have member : t ∈ last := later.extends_seen.subset (by simp)
    refine ⟨ih.1.cons fun t' away' => ?_, fun s isMet new brought => ?_⟩
    · obtain rfl := away.unique away'.leads
      exact List.mem_map_of_mem member
    · refine ih.2 s isMet ?_ brought
      rw [List.mem_append, List.mem_singleton, not_or]
      refine ⟨new, ?_⟩
      rintro rfl
      exact brought authored
  | @brought origin raw rest seen next last t away _ _ inside later ihInside ihLater =>
    have member : t ∈ last := later.extends_seen.subset (inside.extends_seen.subset (by simp))
    refine ⟨ihLater.1.cons fun t' away' => ?_, fun s isMet new brought => ?_⟩
    · obtain rfl := away.unique away'.leads
      exact List.mem_map_of_mem member
    · -- A target that is met behind the first one is met in it or after it.
      by_cases within : s ∈ next
      · by_cases first : s = t
        · subst s
          exact ihInside.1.mono later.extends_seen
        · exact (ihInside.2 s within (by simp [new, first]) brought).mono later.extends_seen
      · exact ihLater.2 s isMet within brought

/-- The targets that are brought in are those that can be reached and have no definition, exactly if
each of these has its key for itself. -/
theorem exact_iff (h : Discovers files root ⟨none, baseDir⟩ root.document.refs [] met) :
    (∀ t, t ∈ news root met ↔ Reached files root baseDir t ∧ t.name ∉ root.authored) ↔
      ∀ t, Reached files root baseDir t → t.name ∉ root.authored →
        ∀ s ∈ met, s.canonical = t.canonical → s = t := by
  have isNew : ∀ t, t ∈ news root met ↔ t ∈ met ∧ t.name ∉ root.authored := by
    simp [news, List.mem_filter]
  obtain ⟨document, targets⟩ := h.covers
  constructor
  · intro exact' t reached brought s isMet same
    have member := ((isNew t).mp ((exact' t).mpr ⟨reached, brought⟩)).1
    exact List.inj_on_of_nodup_map (h.keys_nodup List.nodup_nil) isMet member same
  · intro apart t
    rw [isNew]
    refine ⟨fun member => ⟨h.reached_of_root t member.1, member.2⟩, ?_⟩
    rintro ⟨isReached, unauthored⟩
    refine ⟨?_, unauthored⟩
    -- A target whose key was met was met itself.
    have own : ∀ {t}, Reached files root baseDir t → t.name ∉ root.authored →
        t.canonical ∈ met.map (·.canonical) → t ∈ met := by
      intro t isReached unauthored key
      obtain ⟨s, isMet, same⟩ := List.mem_map.mp key
      exact apart t isReached unauthored s isMet same ▸ isMet
    induction isReached with
    | inRoot inRoot moves leads away =>
      exact own (.inRoot inRoot moves leads away) unauthored
        (document _ inRoot _ ⟨moves, leads, away⟩)
    | @inTarget s raw t before entered inTarget leads away ih =>
      have covered := targets s (ih entered) List.not_mem_nil entered
      exact own (.inTarget before entered inTarget leads away) unauthored
        (covered _ inTarget _ ⟨before.not_stays raw, leads, away⟩)

end Discovers

/-- Without hashes in paths every target has its key for itself. -/
theorem Reached.eq_of_canonical {s t : Resolved} (plain : HashFree files)
    (hs : Reached files root baseDir s) (ht : Reached files root baseDir t)
    (same : s.canonical = t.canonical) : s = t := by
  obtain ⟨_, landed, written⟩ := hs.landed
  obtain ⟨_, landed', written'⟩ := ht.landed
  exact Merge.eq_of_canonical plain landed landed' written.reads written'.reads hs.leads.1
    ht.leads.1 same

variable {document : Json} {file : Option Path} {m : Merged}

/-- No inlined node is a reference, or anything but an object. -/
theorem Account.inlined_ends {targets : List Resolved} {names : Table String}
    (account : Account files root baseDir targets names m) :
    ∀ e ∈ m.inlined, e.2.isObject = true ∧ aliasTarget? e.2 = none := by
  intro e member
  refine ⟨account.objects e member, ?_⟩
  rw [account.inlined, List.mem_map] at member
  obtain ⟨t, brought, rfl⟩ := member
  obtain ⟨_, _, _, leads⟩ := (account.reached t brought).1.leads
  rw [Json.aliasTarget?_mapRefs, (landed_meaning leads).2.2]
  rfl

/-- At every stage that a merge goes through the tables agree, and what was brought in keeps its
place. If the merge succeeds, every node that was brought in is an object and no reference. They are
the nodes of all targets that can be reached and have no definition, exactly if each of these has
its key for itself, as it has if no path holds a hash. -/
theorem tables_agree {r : Resolver} (consistent : Consistent files r) :
    (∀ c, ReflTransGen (Step files (Root.of document file)) (.start document baseDir) c →
      Agrees (Root.of document file) c.ledger ∧
      ∀ c', ReflTransGen (Step files (Root.of document file)) c c' →
        Table.keys c.ledger.inlined <+: Table.keys c'.ledger.inlined) ∧
    (document.isObject = true → ∃ last result, Halts files (Root.of document file) last result ∧
      ((Merge.document document file baseDir).run.run r).1 = conclude document file result ∧
      ∀ c, ReflTransGen (Step files (Root.of document file)) (.start document baseDir) c →
        ReflTransGen (Step files (Root.of document file)) c last) ∧
    ∀ m, ((Merge.document document file baseDir).run.run r).1 = .ok m →
      (∀ e ∈ m.inlined, e.2.isObject = true ∧ aliasTarget? e.2 = none) ∧
      ∃ met, Discovers files (Root.of document file) ⟨none, baseDir⟩ document.refs [] met ∧
        m.inlined.map (fun e => (e.1, e.2.eraseRefs)) =
          (news (Root.of document file) met).map (fun t => (t.name, t.node.eraseRefs)) ∧
        ((∀ t, t ∈ news (Root.of document file) met ↔
            Reached files (Root.of document file) baseDir t ∧
              t.name ∉ (Root.of document file).authored) ↔
          ∀ t, Reached files (Root.of document file) baseDir t →
            t.name ∉ (Root.of document file).authored →
              ∀ s ∈ met, s.canonical = t.canonical → s = t) ∧
        (HashFree files → ∀ t, t ∈ news (Root.of document file) met ↔
          Reached files (Root.of document file) baseDir t ∧
            t.name ∉ (Root.of document file).authored) := by
  refine ⟨?_, ?_, ?_⟩
  · intro c reach
    have tidy := (tidy_of_reach reach (Stage.Tidy.start document)).1
    exact ⟨tidy.tables.agrees, fun c' further => (tidy_of_reach further tidy).2⟩
  · intro shape
    obtain ⟨last, result, toLast, halts, run⟩ := exists_last consistent shape
    exact ⟨last, result, halts, run, fun c reach => halts.reach toLast reach⟩
  · intro m merged
    obtain ⟨_, _, _, account⟩ := account_of_run consistent merged
    obtain ⟨_, met, found, _⟩ := found_of_ok consistent merged
    refine ⟨account.inlined_ends, met, found.discovers, found.inlined_eq,
      found.discovers.exact_iff, fun plain => found.discovers.exact_iff.mpr ?_⟩
    intro t reached _ s isMet same
    exact (found.discovers.reached_of_root s isMet).eq_of_canonical plain reached same

/-- The wallet and its owner are all that can be reached from the holder. -/
theorem walletHolder_tables : ∃ m met, result walletFiles walletHolder none ⟨"/"⟩ = .ok m ∧
    (∀ e ∈ m.inlined, e.2.isObject = true ∧ aliasTarget? e.2 = none) ∧
    (news (Root.of walletHolder none) met).map (·.name) = ["Wallet", "Owner"] ∧
    ∀ t, t ∈ news (Root.of walletHolder none) met ↔
      Reached walletFiles (Root.of walletHolder none) ⟨"/"⟩ t ∧
        t.name ∉ (Root.of walletHolder none).authored := by
  have plain : HashFree walletFiles := hashFree_of_names (by decide) (by decide)
  obtain ⟨m, merged, shape⟩ := exists_ok_of_map walletHolder_merges
  obtain ⟨_, _, ends⟩ := @tables_agree _ ⟨"/"⟩ walletHolder none _
    (Resolver.consistent_fresh walletFiles)
  obtain ⟨objects, met, _, inlined, _, all⟩ := ends m ((run_fresh _ _ _ _).trans merged)
  refine ⟨m, met, merged, objects, ?_, all plain⟩
  have names := congrArg Table.keys inlined
  rw [Table.keys_map fun _ j => Json.eraseRefs j, (Prod.mk.inj shape).2, Table.keys,
    List.map_map] at names
  exact names.symm

/-- A file and a file in a directory of its name with a hash: the path of one, with a fragment,
reads like that of the other. -/
def hashFiles : FileTree where
  entries := [(["a.yaml"], .file "b/c.yaml#D:\n  title: Cat\n  type: object\n"),
    (["a.yaml#b"], .directory),
    (["a.yaml#b", "c.yaml"], .file "D:\n  title: Dog\n  type: object\n")]

/-- A document in the directory, with a reference to a node in each of the files. -/
def hashHolder : Json :=
  .object [("dog", .object [("$ref", .string "c.yaml#D")]),
    ("cat", .object [("$ref", .string "../a.yaml#b/c.yaml#D")])]

/-- The two nodes have one key, so the second is taken for the first and is not brought in. -/
theorem hashHolder_loses : ∃ m t, result hashFiles hashHolder none ⟨"/a.yaml#b"⟩ = .ok m ∧
    Reached hashFiles (Root.of hashHolder none) ⟨"/a.yaml#b"⟩ t ∧ t.name = "Cat" ∧
    t.name ∉ (Root.of hashHolder none).authored ∧ Table.keys m.inlined = ["Dog"] ∧
    m.document.refs = ["#/components/schemas/Dog", "#/components/schemas/Dog"] := by
  have run : (result hashFiles hashHolder none ⟨"/a.yaml#b"⟩).toOption.map (fun m =>
      (Table.keys m.inlined, m.document.refs)) =
      some (["Dog"], ["#/components/schemas/Dog", "#/components/schemas/Dog"]) := by
    decide +kernel
  have lands : (meaning hashFiles (Root.of hashHolder none) ⟨none, ⟨"/a.yaml#b"⟩⟩
      "../a.yaml#b/c.yaml#D").toOption.map (fun t => (t.isInScope, t.name)) =
      some (false, "Cat") := by
    decide +kernel
  obtain ⟨m, merged, shape⟩ := exists_ok_of_map run
  obtain ⟨t, leads, isCat⟩ := exists_ok_of_map lands
  obtain ⟨away, name⟩ := Prod.mk.inj isCat
  obtain ⟨inlined, refs⟩ := Prod.mk.inj shape
  exact ⟨m, t, merged, .inRoot (by decide) (by decide) leads away, name, by rw [name]; decide,
    inlined, refs⟩

end ApiGraph.Merge
