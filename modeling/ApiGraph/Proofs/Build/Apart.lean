import ApiGraph.Proofs.Build.Insertions
import ApiGraph.Proofs.OpenApi.Fields
import Mathlib.Data.List.Pairwise

/-! The parts of a definition and what becomes of them. The names of columns and relationships are
made from those of properties and of the definitions that are referred to, so that different parts
of a definition may come to one name. Then the later one replaces the earlier one. Nothing that is
authored is replaced in that way exactly if the names of a definition are apart
(`authored_kept_iff`). -/

namespace ApiGraph.Build

variable {files : FileTree} {source : Source} {definitions : Table Schema}
  {name : String} {schema : Schema} {i later : Insertion}

namespace Insertion

/-- Inserted for an own property of the definition or for an alternative. -/
def Authored (i : Insertion) : Prop := i.site ≠ none ∧ i.site ≠ some .definition

instance : DecidablePred Authored := fun i =>
  inferInstanceAs (Decidable (i.site ≠ none ∧ i.site ≠ some .definition))

/-- Inserted for an own property, under its name. -/
def onProperty (i : Insertion) : Bool :=
  match i.site with
  | some (.property _) => true
  | _ => false

/-- A relationship supersedes the column of its own property. -/
def Supersedes (later i : Insertion) : Prop :=
  i.onProperty = true ∧ later.site = i.site ∧ i.isRelationship = false ∧
    later.isRelationship = true

instance (later i : Insertion) : Decidable (later.Supersedes i) :=
  inferInstanceAs (Decidable (_ ∧ _))

/-- What comes later does not replace what is authored for another part of the definition. Members
of an `allOf` may replace a column. -/
def Spares (later i : Insertion) : Prop :=
  i.Authored → later.Replaces i → later.site = none ∨ later.Supersedes i

instance (later i : Insertion) : Decidable (later.Spares i) :=
  inferInstanceAs (Decidable (_ → _))

end Insertion

/-- Nothing that is authored is replaced by what is inserted for another part. -/
def KeepsAuthored (is : List Insertion) : Prop := is.Pairwise fun i later => later.Spares i

instance (is : List Insertion) : Decidable (KeepsAuthored is) :=
  inferInstanceAs (Decidable (is.Pairwise _))

/-- A property that becomes a column. -/
def IsScalar (schema : Schema) (property : String) : Prop :=
  ∃ p, (property, p) ∈ schema.properties ∧ p.primitive.isSome = true

/-- A property that becomes a relationship of its name. -/
def IsRelated (source : Source) (name : String) (schema : Schema) (property : String) : Prop :=
  ∃ p, (property, p) ∈ schema.properties ∧
    (Mention.ofProperty name property p).flatMap (Mention.insertions source) ≠ []

def choices (source : Source) (name : String) (schema : Schema) : List Insertion :=
  (Alternative.ofDefinition name schema).flatMap (Alternative.insertions source)

/-- The relationship of an array definition. -/
def itemsInsertions (source : Source) (name : String) (schema : Schema) : List Insertion :=
  (Mention.ofItems name schema).flatMap (Mention.insertions source)

/-- A property that is inserted under its own name. -/
def IsInserted (source : Source) (name : String) (schema : Schema) (property : String) : Prop :=
  IsScalar schema property ∨ IsRelated source name schema property

/-- The names that the parts of a definition come to are different. -/
structure NamesApart (source : Source) (name : String) (schema : Schema) : Prop where
  properties : ∀ p q, IsInserted source name schema p → IsInserted source name schema q →
    Naming.columnIdent p = Naming.columnIdent q → p = q
  /-- Of the alternatives only a column may follow on a relationship of its name. -/
  choices : (choices source name schema).Pairwise fun i later => ¬ later.Replaces i
  chosen : ∀ p, IsInserted source name schema p → ∀ i ∈ Build.choices source name schema,
    i.name ≠ Naming.columnIdent p
  /-- The items of an array definition are not called like a column or an alternative. -/
  items : ∀ i ∈ itemsInsertions source name schema,
    (∀ p, IsScalar schema p → i.name ≠ Naming.columnIdent p) ∧
    ∀ j ∈ Build.choices source name schema, i.name ≠ j.name

/-! Properties of different names. -/

/-- If each property gives at most one insertion, under its own name, the names are different if
those of the properties are. -/
theorem pairwise_names_iff {properties : List (String × Schema)}
    (unique : (Table.keys properties).Nodup) {f : String × Schema → List Insertion}
    (single : ∀ entry, (f entry).length ≤ 1)
    (named : ∀ entry, ∀ i ∈ f entry, i.name = Naming.columnIdent entry.1) :
    (properties.flatMap f).Pairwise (fun i later => later.name ≠ i.name) ↔
      ∀ a ∈ properties, ∀ b ∈ properties, f a ≠ [] → f b ≠ [] →
        Naming.columnIdent a.1 = Naming.columnIdent b.1 → a.1 = b.1 := by
  rw [List.pairwise_flatMap]
  constructor
  · rintro ⟨_, apart⟩ a isFirst b isSecond gives gives' same
    by_contra different
    obtain ⟨i, member⟩ := List.exists_mem_of_ne_nil _ gives
    obtain ⟨j, member'⟩ := List.exists_mem_of_ne_nil _ gives'
    have symmetric : Std.Symm fun a b : String × Schema =>
        ∀ i ∈ f a, ∀ j ∈ f b, j.name ≠ i.name :=
      ⟨fun a b apart j member i member' same => apart i member' j member same.symm⟩
    have names := apart.forall isFirst isSecond (fun eq => different (by rw [eq])) i member j
      member'
    rw [named a i member, named b j member'] at names
    exact names same.symm
  · intro apart
    refine ⟨fun a _ => ?_, ?_⟩
    · have short := single a
      generalize f a = is at short
      rcases is with _ | ⟨i, _ | ⟨j, rest⟩⟩
      · exact List.Pairwise.nil
      · exact List.pairwise_singleton _ i
      · simp at short
    · have keys : properties.Pairwise fun a b => a.1 ≠ b.1 := List.pairwise_map.mp unique
      refine keys.imp_of_mem fun {a b} isFirst isSecond different i member j member' same => ?_
      rw [named a i member, named b j member'] at same
      exact different (apart a isFirst b isSecond (List.ne_nil_of_mem member)
        (List.ne_nil_of_mem member') same.symm)

/-! What spares what. -/

namespace Insertion

theorem spares_of_not_authored (h : ¬ i.Authored) : later.Spares i :=
  fun authored => absurd authored h

theorem not_supersedes_of_site_ne (h : later.site ≠ i.site) : ¬ later.Supersedes i :=
  fun supersedes => h supersedes.2.1

/-- What is authored is spared by another part that does not replace it. -/
theorem spares_iff (authored : i.Authored) (placed : later.site ≠ none)
    (other : ¬ later.Supersedes i) : later.Spares i ↔ ¬ later.Replaces i := by
  constructor
  · intro spares replaces
    rcases spares authored replaces with unplaced | supersedes
    · exact placed unplaced
    · exact other supersedes
  · exact fun kept _ replaces => absurd replaces kept

theorem replaces_iff (replacing : i.isRelationship = true → later.isRelationship = true) :
    later.Replaces i ↔ later.name = i.name := ⟨And.left, fun same => ⟨same, replacing⟩⟩

end Insertion

/-! The insertions of the parts of a definition. -/

/-- The columns of the own properties of a definition. -/
def scalarInsertions (schema : Schema) : List Insertion :=
  Insertion.ofScalars (fun property => some (.property property)) [schema] schema.properties

def memberInsertions (files : FileTree) (source : Source) (name : String) (schema : Schema) :
    List Insertion :=
  (schema.allOf.map (⟨name, schema, ·⟩)).flatMap (Member.insertions files source)

/-- The relationships of the plain references of a definition. -/
def relatedInsertions (source : Source) (name : String) (schema : Schema) : List Insertion :=
  schema.properties.flatMap fun (property, p) =>
    (Mention.ofProperty name property p).flatMap (Mention.insertions source)

theorem insertions_eq : insertions files source name schema =
    scalarInsertions schema ++ memberInsertions files source name schema ++
    choices source name schema ++
    (itemsInsertions source name schema ++ relatedInsertions source name schema) := by
  rw [insertions, Mention.ofDefinition, List.flatMap_append, List.flatMap_assoc]
  rfl

/-- An insertion under the name of a property, for that property. -/
structure Insertion.IsOf (i : Insertion) (property : String) : Prop where
  site : i.site = some (.property property)
  name : i.name = Naming.columnIdent property

theorem Insertion.IsOf.authored {property : String} (h : i.IsOf property) : i.Authored := by
  simp [Insertion.Authored, h.site]

theorem mem_scalarInsertions (member : i ∈ scalarInsertions schema) :
    i.isRelationship = false ∧ ∃ p, IsScalar schema p ∧ i.IsOf p := by
  obtain ⟨⟨property, p⟩, isProperty, made⟩ := List.mem_filterMap.mp member
  obtain ⟨isSite, isNamed, isColumn⟩ := Insertion.ofScalar?_eq_some made
  obtain ⟨primitive, isPrimitive, _⟩ := Option.map_eq_some_iff.mp made
  exact ⟨isColumn, property, ⟨p, isProperty, by simp [isPrimitive]⟩, isSite, isNamed⟩

theorem exists_scalarInsertion {p : String} (h : IsScalar schema p) :
    ∃ i ∈ scalarInsertions schema, i.isRelationship = false ∧ i.IsOf p := by
  obtain ⟨s, isProperty, isPrimitive⟩ := h
  obtain ⟨i, made⟩ : ∃ i, Insertion.ofScalar? (fun property => some (.property property)) [schema]
      (p, s) = some i := by
    rw [← Option.isSome_iff_exists, Insertion.ofScalar?, Option.isSome_map]
    exact isPrimitive
  obtain ⟨isSite, isNamed, isColumn⟩ := Insertion.ofScalar?_eq_some made
  exact ⟨i, List.mem_filterMap.mpr ⟨_, isProperty, made⟩, isColumn, isSite, isNamed⟩

theorem Mention.length_insertions_le (m : Mention) : (m.insertions source).length ≤ 1 := by
  rw [Mention.insertions, Mention.links]
  cases m.link source with
  | error fault => simp [Except.toOption]
  | ok l =>
    simp only [Except.toOption, Option.toList_some, List.flatMap_singleton, Link.insertions]
    split <;> simp

theorem length_ofProperty_le (name property : String) (p : Schema) :
    ((Mention.ofProperty name property p).flatMap (Mention.insertions source)).length ≤ 1 := by
  rw [Mention.ofProperty]
  split
  · cases p.refTarget with
    | none => simp
    | some target => simpa using Mention.length_insertions_le _
  · simp

/-- What the reference of a property comes to. -/
theorem isOf_of_mem_ofProperty {property : String} {p : Schema}
    (member : i ∈ (Mention.ofProperty name property p).flatMap (Mention.insertions source)) :
    i.isRelationship = true ∧ i.IsOf property := by
  obtain ⟨m, isMention, inserted⟩ := List.mem_flatMap.mp member
  have isSite : m.site = .property property := by
    rw [Mention.ofProperty] at isMention
    split at isMention
    · obtain ⟨_, _, rfl⟩ := Option.map_eq_some_iff.mp (Option.mem_toList.mp isMention)
      rfl
    · cases isMention
  obtain ⟨l, link, _, rfl⟩ := Mention.mem_insertions.mp inserted
  have isLink : l.site = .property property := (Mention.link_eq_ok.mp link).2.1.trans isSite
  refine ⟨rfl, congrArg some isLink, ?_⟩
  simp only [Link.name, isLink, Site.linkName]

theorem mem_relatedInsertions (member : i ∈ relatedInsertions source name schema) :
    i.isRelationship = true ∧ ∃ p, IsRelated source name schema p ∧ i.IsOf p := by
  obtain ⟨⟨property, p⟩, isProperty, inserted⟩ := List.mem_flatMap.mp member
  obtain ⟨isRelationship, isOf⟩ := isOf_of_mem_ofProperty inserted
  exact ⟨isRelationship, property, ⟨p, isProperty, List.ne_nil_of_mem inserted⟩, isOf⟩

theorem exists_relatedInsertion {p : String} (h : IsRelated source name schema p) :
    ∃ i ∈ relatedInsertions source name schema, i.isRelationship = true ∧ i.IsOf p := by
  obtain ⟨s, isProperty, gives⟩ := h
  obtain ⟨i, inserted⟩ := List.exists_mem_of_ne_nil _ gives
  exact ⟨i, List.mem_flatMap.mpr ⟨_, isProperty, inserted⟩, isOf_of_mem_ofProperty inserted⟩

theorem mem_choices (member : i ∈ choices source name schema) :
    i.Authored ∧ ∃ within, i.site = some (.alternative within) := by
  obtain ⟨a, _, inserted⟩ := List.mem_flatMap.mp member
  have isSite := Alternative.site_of_mem_insertions inserted
  refine ⟨?_, a.property, isSite⟩
  simp [Insertion.Authored, isSite, Alternative.site]

theorem mem_itemsInsertions
    (member : i ∈ itemsInsertions source name schema) :
    i.isRelationship = true ∧ i.site = some .definition := by
  obtain ⟨m, isMention, inserted⟩ := List.mem_flatMap.mp member
  obtain ⟨isSite, isRelationship⟩ := Mention.site_of_mem_insertions inserted
  refine ⟨isRelationship, isSite.trans ?_⟩
  rw [Mention.ofItems] at isMention
  split at isMention
  · obtain ⟨_, _, rfl⟩ := Option.map_eq_some_iff.mp (Option.mem_toList.mp isMention)
    rfl
  · cases isMention

theorem pairwise_scalarInsertions_iff (unique : (Table.keys schema.properties).Nodup) :
    (scalarInsertions schema).Pairwise (fun i later => later.name ≠ i.name) ↔
      ∀ p q, IsScalar schema p → IsScalar schema q →
        Naming.columnIdent p = Naming.columnIdent q → p = q := by
  have nonempty : ∀ entry : String × Schema, (Insertion.ofScalar?
      (fun property => some (.property property)) [schema] entry).toList ≠ [] ↔
        entry.2.primitive.isSome = true := by
    intro entry
    cases primitive : entry.2.primitive <;> simp [Insertion.ofScalar?, primitive]
  rw [scalarInsertions, Insertion.ofScalars, List.filterMap_eq_flatMap_toList,
    pairwise_names_iff unique]
  · simp only [nonempty]
    constructor
    · rintro apart p q ⟨s, isFirst, scalar⟩ ⟨t, isSecond, scalar'⟩ same
      exact apart _ isFirst _ isSecond scalar scalar' same
    · intro apart a isFirst b isSecond scalar scalar' same
      exact apart a.1 b.1 ⟨a.2, isFirst, scalar⟩ ⟨b.2, isSecond, scalar'⟩ same
  · intro entry
    exact Option.length_toList_le
  · intro entry i member
    exact (Insertion.ofScalar?_eq_some (Option.mem_toList.mp member)).2.1

theorem pairwise_relatedInsertions_iff (unique : (Table.keys schema.properties).Nodup) :
    (relatedInsertions source name schema).Pairwise (fun i later => later.name ≠ i.name) ↔
      ∀ p q, IsRelated source name schema p → IsRelated source name schema q →
        Naming.columnIdent p = Naming.columnIdent q → p = q := by
  rw [relatedInsertions, pairwise_names_iff unique]
  · constructor
    · rintro apart p q ⟨s, isFirst, related⟩ ⟨t, isSecond, related'⟩ same
      exact apart _ isFirst _ isSecond related related' same
    · intro apart a isFirst b isSecond related related' same
      exact apart a.1 b.1 ⟨a.2, isFirst, related⟩ ⟨b.2, isSecond, related'⟩ same
  · exact fun entry => length_ofProperty_le name entry.1 entry.2
  · intro entry i member
    exact (isOf_of_mem_ofProperty member).2.name

/-! Which parts spare each other. -/

theorem spares_scalar_iff (member : i ∈ scalarInsertions schema) (placed : later.site ≠ none)
    (other : ∀ property, later.site ≠ some (.property property)) :
    later.Spares i ↔ later.name ≠ i.name := by
  obtain ⟨isColumn, p, _, isOf⟩ := mem_scalarInsertions member
  rw [Insertion.spares_iff isOf.authored placed, Insertion.replaces_iff (by simp [isColumn])]
  exact Insertion.not_supersedes_of_site_ne (by rw [isOf.site]; exact other p)

theorem spares_scalars_iff (member : i ∈ scalarInsertions schema)
    (member' : later ∈ scalarInsertions schema) : later.Spares i ↔ later.name ≠ i.name := by
  obtain ⟨isColumn, p, _, isOf⟩ := mem_scalarInsertions member
  obtain ⟨isColumn', p', _, isOf'⟩ := mem_scalarInsertions member'
  rw [Insertion.spares_iff isOf.authored (by simp [isOf'.site]),
    Insertion.replaces_iff (by simp [isColumn])]
  rintro ⟨_, _, _, isRelationship⟩
  rw [isColumn'] at isRelationship
  cases isRelationship

/-- A column is superseded by the relationship of its property only. -/
theorem spares_own_iff (member : i ∈ scalarInsertions schema) {p q : String} (isOf : i.IsOf p)
    (member' : later ∈ relatedInsertions source name schema) (isOf' : later.IsOf q) :
    later.Spares i ↔ (Naming.columnIdent p = Naming.columnIdent q → p = q) := by
  obtain ⟨isColumn, _⟩ := mem_scalarInsertions member
  obtain ⟨isRelationship, _⟩ := mem_relatedInsertions member'
  have replaces : later.Replaces i ↔ Naming.columnIdent p = Naming.columnIdent q := by
    rw [Insertion.replaces_iff fun _ => isRelationship, isOf.name, isOf'.name, eq_comm]
  constructor
  · intro spares same
    rcases spares isOf.authored (replaces.mpr same) with unplaced | ⟨_, sameSite, _⟩
    · rw [isOf'.site] at unplaced
      cases unplaced
    · rw [isOf.site, isOf'.site] at sameSite
      cases sameSite
      rfl
  · intro apart _ same
    refine Or.inr ⟨by simp [Insertion.onProperty, isOf.site], ?_, isColumn, isRelationship⟩
    rw [isOf.site, isOf'.site, apart (replaces.mp same)]

theorem spares_related_iff (member : i ∈ relatedInsertions source name schema)
    (member' : later ∈ relatedInsertions source name schema) :
    later.Spares i ↔ later.name ≠ i.name := by
  obtain ⟨isRelationship, p, _, isOf⟩ := mem_relatedInsertions member
  obtain ⟨isRelationship', p', _, isOf'⟩ := mem_relatedInsertions member'
  rw [Insertion.spares_iff isOf.authored (by simp [isOf'.site]),
    Insertion.replaces_iff fun _ => isRelationship']
  rintro ⟨_, _, isColumn, _⟩
  rw [isRelationship] at isColumn
  cases isColumn

theorem spares_choices_iff (member : i ∈ choices source name schema)
    (placed : later.site ≠ none) : later.Spares i ↔ ¬ later.Replaces i := by
  obtain ⟨authored, within, isSite⟩ := mem_choices member
  refine Insertion.spares_iff authored placed ?_
  rintro ⟨isProperty, _⟩
  simp [Insertion.onProperty, isSite] at isProperty

/-- The parts of a definition that can replace each other, in the order of their insertions. -/
structure PartsSpare (source : Source) (name : String) (schema : Schema) : Prop where
  scalars : (scalarInsertions schema).Pairwise fun i later => later.Spares i
  choices : (choices source name schema).Pairwise fun i later => later.Spares i
  related : (relatedInsertions source name schema).Pairwise fun i later => later.Spares i
  scalarChosen : ∀ i ∈ scalarInsertions schema, ∀ later ∈ Build.choices source name schema,
    later.Spares i
  scalarItems : ∀ i ∈ scalarInsertions schema, ∀ later ∈ itemsInsertions source name schema,
    later.Spares i
  scalarRelated : ∀ i ∈ scalarInsertions schema, ∀ later ∈ relatedInsertions source name schema,
    later.Spares i
  chosenItems : ∀ i ∈ Build.choices source name schema,
    ∀ later ∈ itemsInsertions source name schema, later.Spares i
  chosenRelated : ∀ i ∈ Build.choices source name schema,
    ∀ later ∈ relatedInsertions source name schema, later.Spares i

/-- What members and items of an array give is not authored, and members replace nothing else. -/
theorem keepsAuthored_iff_parts :
    KeepsAuthored (insertions files source name schema) ↔ PartsSpare source name schema := by
  have ofMember : ∀ i ∈ memberInsertions files source name schema,
      ¬ i.Authored ∧ i.site = none := by
    intro i member
    obtain ⟨isSite, _⟩ := mem_memberInsertions member
    simp [Insertion.Authored, isSite]
  have ofItems : ∀ i ∈ itemsInsertions source name schema, ¬ i.Authored := by
    intro i member
    obtain ⟨_, isSite⟩ := mem_itemsInsertions member
    simp [Insertion.Authored, isSite]
  rw [KeepsAuthored, insertions_eq]
  constructor
  · intro keeps
    obtain ⟨columns, references, later⟩ := List.pairwise_append.mp keeps
    obtain ⟨columns, alternatives, chosen⟩ := List.pairwise_append.mp columns
    obtain ⟨scalars, _, _⟩ := List.pairwise_append.mp columns
    obtain ⟨_, related, _⟩ := List.pairwise_append.mp references
    simp only [List.mem_append] at later chosen
    exact {
      scalars
      choices := alternatives
      related
      scalarChosen := fun i member => chosen i (Or.inl member)
      scalarItems := fun i member j member' => later i (Or.inl (Or.inl member)) j (Or.inl member')
      scalarRelated := fun i member j member' => later i (Or.inl (Or.inl member)) j (Or.inr member')
      chosenItems := fun i member j member' => later i (Or.inr member) j (Or.inl member')
      chosenRelated := fun i member j member' => later i (Or.inr member) j (Or.inr member') }
  · intro parts
    refine List.pairwise_append.mpr ⟨List.pairwise_append.mpr ⟨List.pairwise_append.mpr
      ⟨parts.scalars, ?_, ?_⟩, parts.choices, ?_⟩, List.pairwise_append.mpr ⟨?_, parts.related, ?_⟩,
      ?_⟩
    · exact List.pairwise_of_forall_mem_list fun i member _ _ =>
        Insertion.spares_of_not_authored (ofMember i member).1
    · exact fun i _ j member' _ _ => Or.inl (ofMember j member').2
    · intro i member j member'
      rcases List.mem_append.mp member with isScalar | isMember
      · exact parts.scalarChosen i isScalar j member'
      · exact Insertion.spares_of_not_authored (ofMember i isMember).1
    · exact List.pairwise_of_forall_mem_list fun i member _ _ =>
        Insertion.spares_of_not_authored (ofItems i member)
    · exact fun i member _ _ => Insertion.spares_of_not_authored (ofItems i member)
    · intro i member j member'
      rcases List.mem_append.mp member with isColumn | isChosen
      · rcases List.mem_append.mp isColumn with isScalar | isMember
        · rcases List.mem_append.mp member' with isItem | isRelated
          · exact parts.scalarItems i isScalar j isItem
          · exact parts.scalarRelated i isScalar j isRelated
        · exact Insertion.spares_of_not_authored (ofMember i isMember).1
      · rcases List.mem_append.mp member' with isItem | isRelated
        · exact parts.chosenItems i isChosen j isItem
        · exact parts.chosenRelated i isChosen j isRelated

theorem site_of_mem_choices (member : i ∈ choices source name schema) :
    i.site ≠ none ∧ ∀ property, i.site ≠ some (.property property) := by
  obtain ⟨_, within, isSite⟩ := mem_choices member
  simp [isSite]

theorem site_of_mem_itemsInsertions (member : i ∈ itemsInsertions source name schema) :
    i.site ≠ none ∧ ∀ property, i.site ≠ some (.property property) := by
  simp [(mem_itemsInsertions member).2]

theorem PartsSpare.apart (unique : (Table.keys schema.properties).Nodup)
    (parts : PartsSpare source name schema) : NamesApart source name schema := by
  have scalars := (pairwise_scalarInsertions_iff unique).mp <| parts.scalars.imp_of_mem
    fun member member' => (spares_scalars_iff member member').mp
  have related := (pairwise_relatedInsertions_iff unique).mp <| parts.related.imp_of_mem
    fun member member' => (spares_related_iff member member').mp
  have between : ∀ p q, IsScalar schema p → IsRelated source name schema q →
      Naming.columnIdent p = Naming.columnIdent q → p = q := by
    intro p q isScalar isRelated
    obtain ⟨i, member, _, isOf⟩ := exists_scalarInsertion isScalar
    obtain ⟨j, member', _, isOf'⟩ := exists_relatedInsertion isRelated
    exact (spares_own_iff member isOf member' isOf').mp (parts.scalarRelated i member j member')
  -- A property may have both, as its relationship supersedes its column; two properties may not.
  refine ⟨?_, ?_, ?_, ?_⟩
  · rintro p q (isScalar | isRelated) (isScalar' | isRelated') same
    · exact scalars p q isScalar isScalar' same
    · exact between p q isScalar isRelated' same
    · exact (between q p isScalar' isRelated same.symm).symm
    · exact related p q isRelated isRelated' same
  · exact parts.choices.imp_of_mem fun member member' =>
      (spares_choices_iff member (site_of_mem_choices member').1).mp
  · rintro p (isScalar | isRelated) j member' same
    · obtain ⟨i, member, _, isOf⟩ := exists_scalarInsertion isScalar
      obtain ⟨placed, other⟩ := site_of_mem_choices member'
      exact (spares_scalar_iff member placed other).mp (parts.scalarChosen i member j member')
        (same.trans isOf.name.symm)
    · obtain ⟨i, member, isRelationship, isOf⟩ := exists_relatedInsertion isRelated
      have spares := parts.chosenRelated j member' i member
      rw [spares_choices_iff member' (by simp [isOf.site]),
        Insertion.replaces_iff fun _ => isRelationship] at spares
      exact spares (isOf.name.trans same.symm)
  · intro j member'
    obtain ⟨placed, other⟩ := site_of_mem_itemsInsertions member'
    refine ⟨fun p isScalar same => ?_, fun i member same => ?_⟩
    · obtain ⟨i, member, _, isOf⟩ := exists_scalarInsertion isScalar
      exact (spares_scalar_iff member placed other).mp (parts.scalarItems i member j member')
        (same.trans isOf.name.symm)
    · have spares := parts.chosenItems i member j member'
      rw [spares_choices_iff member placed,
        Insertion.replaces_iff fun _ => (mem_itemsInsertions member').1] at spares
      exact spares same

theorem NamesApart.spare (unique : (Table.keys schema.properties).Nodup)
    (apart : NamesApart source name schema) : PartsSpare source name schema where
  scalars := by
    have names := (pairwise_scalarInsertions_iff unique).mpr fun p q isScalar isScalar' =>
      apart.properties p q (Or.inl isScalar) (Or.inl isScalar')
    exact names.imp_of_mem fun member member' => (spares_scalars_iff member member').mpr
  related := by
    have names := (pairwise_relatedInsertions_iff unique).mpr fun p q isRelated isRelated' =>
      apart.properties p q (Or.inr isRelated) (Or.inr isRelated')
    exact names.imp_of_mem fun member member' => (spares_related_iff member member').mpr
  choices := apart.choices.imp_of_mem fun member member' =>
    (spares_choices_iff member (site_of_mem_choices member').1).mpr
  scalarChosen := by
    intro i member j member'
    obtain ⟨_, p, isScalar, isOf⟩ := mem_scalarInsertions member
    obtain ⟨placed, other⟩ := site_of_mem_choices member'
    rw [spares_scalar_iff member placed other, isOf.name]
    exact apart.chosen p (Or.inl isScalar) j member'
  scalarItems := by
    intro i member j member'
    obtain ⟨_, p, isScalar, isOf⟩ := mem_scalarInsertions member
    obtain ⟨placed, other⟩ := site_of_mem_itemsInsertions member'
    rw [spares_scalar_iff member placed other, isOf.name]
    exact (apart.items j member').1 p isScalar
  scalarRelated := by
    intro i member j member'
    obtain ⟨_, p, isScalar, isOf⟩ := mem_scalarInsertions member
    obtain ⟨_, q, isRelated, isOf'⟩ := mem_relatedInsertions member'
    exact (spares_own_iff member isOf member' isOf').mpr
      (apart.properties p q (Or.inl isScalar) (Or.inr isRelated))
  chosenItems := by
    intro i member j member'
    rw [spares_choices_iff member (site_of_mem_itemsInsertions member').1,
      Insertion.replaces_iff fun _ => (mem_itemsInsertions member').1]
    exact (apart.items j member').2 i member
  chosenRelated := by
    intro i member j member'
    obtain ⟨isRelationship, q, isRelated, isOf⟩ := mem_relatedInsertions member'
    rw [spares_choices_iff member (by simp [isOf.site]),
      Insertion.replaces_iff fun _ => isRelationship, isOf.name]
    exact (apart.chosen q (Or.inr isRelated) i member).symm

/-- If nothing that is authored is replaced by another part, an entity holds it, but for a column
that the relationship of its own property supersedes or that a member of the `allOf` has too. -/
theorem Shows.held_of_authored {e : Entity} {is : List Insertion} (shows : Shows e is)
    (keeps : KeepsAuthored is) (member : i ∈ is) (authored : i.Authored) :
    i.HeldBy e ∨ ∃ later ∈ is, later.Replaces i ∧ (later.site = none ∨ later.Supersedes i) := by
  obtain ⟨before, after, rfl⟩ := List.append_of_mem member
  by_cases replaced : ∃ later ∈ after, later.Replaces i
  · obtain ⟨later, isLater, replaces⟩ := replaced
    have spares := (List.pairwise_cons.mp (List.pairwise_append.mp keeps).2.1).1 later isLater
    exact Or.inr ⟨later, by simp [isLater], replaces, spares authored replaces⟩
  · refine Or.inl (shows.held i ⟨before, after, rfl, fun later isLater replaces => ?_⟩)
    exact replaced ⟨later, isLater, replaces⟩

/-- The graph shows of a definition what is inserted for it and not replaced later. Nothing that is
authored is replaced by what is inserted for another part exactly if the names of the definition
are apart. -/
theorem authored_kept_iff {d : Description} {options : Options} {g : Graph}
    (built : graph files d options = .ok g) (read : d.definitions = .ok definitions)
    (unique : definitions.keys.Nodup) (defined : definitions.get? name = some schema) :
    ∃ e, g.entities.get? name = some e ∧
      Shows e (insertions files ⟨d, definitions, options⟩ name schema) ∧
      (KeepsAuthored (insertions files ⟨d, definitions, options⟩ name schema) ↔
        NamesApart ⟨d, definitions, options⟩ name schema) ∧
      (NamesApart ⟨d, definitions, options⟩ name schema →
        ∀ i ∈ insertions files ⟨d, definitions, options⟩ name schema, i.Authored →
          i.HeldBy e ∨ ∃ later ∈ insertions files ⟨d, definitions, options⟩ name schema,
            later.Replaces i ∧ (later.site = none ∨ later.Supersedes i)) := by
  obtain ⟨xs, made⟩ := exists_made built read unique
  obtain ⟨e, there, shows⟩ := made.shows defined
  obtain ⟨node, _, isRead⟩ := Description.exists_node read (Table.mem_of_get?_eq_some defined)
  have properties := Schema.keys_properties_nodup isRead
  have keeps : KeepsAuthored (insertions files ⟨d, definitions, options⟩ name schema) ↔
      NamesApart ⟨d, definitions, options⟩ name schema :=
    keepsAuthored_iff_parts.trans ⟨PartsSpare.apart properties, NamesApart.spare properties⟩
  refine ⟨e, there, shows, keeps, fun apart i member authored => ?_⟩
  exact shows.held_of_authored (keeps.mpr apart) member authored

/-- A store with a keeper, who has a name or is referred to. -/
def store : Description where
  document := .object [("openapi", .string "3.0.0"), ("components", .object [("schemas", .object [
    ("Store", .object [("properties", .object [
      ("street-name", .object [("type", .string "string")]),
      ("keeper", .object [("type", .string "string"),
        ("$ref", .string "#/components/schemas/Person")]),
      ("owner", .object [("oneOf", .array [.object [("type", .string "string")],
        .object [("$ref", .string "#/components/schemas/Person")]])])])]),
    ("Person", .object [("properties", .object [
      ("age", .object [("type", .string "integer")])])])])])]

/-- The store keeps all that is authored, but for the column that its keeper supersedes. -/
theorem store_kept : ∃ g definitions schema e, graph {} store {} = .ok g ∧
    store.definitions = .ok definitions ∧ definitions.keys.Nodup ∧
    definitions.get? "Store" = some schema ∧ g.entities.get? "Store" = some e ∧
    e.columns.keys = ["street_name", "owner_string", "person_id"] ∧
    e.relationships.keys = ["owner_person", "keeper"] ∧
    KeepsAuthored (insertions {} ⟨store, definitions, {}⟩ "Store" schema) ∧
    NamesApart ⟨store, definitions, {}⟩ "Store" schema ∧
    ∀ i ∈ insertions {} ⟨store, definitions, {}⟩ "Store" schema, i.Authored →
      i.HeldBy e ∨ ∃ later ∈ insertions {} ⟨store, definitions, {}⟩ "Store" schema,
        later.Replaces i ∧ (later.site = none ∨ later.Supersedes i) := by
  have run : (graph {} store {}).toOption.map (fun g =>
      (g.entities.get? "Store").map fun e => (e.columns.keys, e.relationships.keys)) =
      some (some (["street_name", "owner_string", "person_id"], ["owner_person", "keeper"])) := by
    decide +kernel
  have read : store.definitions.toOption.map (fun definitions => (definitions.keys,
      (definitions.get? "Store").map fun schema =>
        decide (KeepsAuthored (insertions {} ⟨store, definitions, {}⟩ "Store" schema)))) =
      some (["Store", "Person"], some true) := by
    decide +kernel
  obtain ⟨g, built, shown⟩ := exists_ok_of_map run
  obtain ⟨definitions, defined, seen⟩ := exists_ok_of_map read
  obtain ⟨keys, kept⟩ := Prod.mk.inj seen
  obtain ⟨schema, isSchema, kept⟩ := Option.map_eq_some_iff.mp kept
  have keeps := of_decide_eq_true kept
  have unique : definitions.keys.Nodup := by
    rw [keys]
    decide
  obtain ⟨e, there, _, apart, held⟩ := authored_kept_iff built defined unique isSchema
  rw [there, Option.map_some, Option.some.injEq, Prod.mk.injEq] at shown
  exact ⟨g, definitions, schema, e, built, defined, unique, isSchema, there, shown.1, shown.2,
    keeps, apart.mp keeps, held (apart.mp keeps)⟩

/-- A person with two properties that come to one name. -/
def person : Description where
  document := .object [("openapi", .string "3.0.0"), ("components", .object [("schemas", .object [
    ("Person", .object [("properties", .object [
      ("birth-date", .object [("type", .string "string")]),
      ("birth_date", .object [("type", .string "integer")])])])])])]

/-- Of the two properties only the second one has a column. -/
theorem person_not_kept : ∃ g definitions schema e, graph {} person {} = .ok g ∧
    person.definitions = .ok definitions ∧ definitions.get? "Person" = some schema ∧
    g.entities.get? "Person" = some e ∧
    insertions {} ⟨person, definitions, {}⟩ "Person" schema =
      [⟨some (.property "birth-date"), "birth_date", .column { type := .string, nullable := true }⟩,
        ⟨some (.property "birth_date"), "birth_date",
          .column { type := .integer, nullable := true }⟩] ∧
    e.columns = [("birth_date", { type := .integer, nullable := true })] ∧
    ¬ KeepsAuthored (insertions {} ⟨person, definitions, {}⟩ "Person" schema) := by
  have run : (graph {} person {}).toOption.map (fun g =>
      (g.entities.get? "Person").map Entity.columns) =
      some (some [("birth_date", { type := .integer, nullable := true })]) := by
    decide +kernel
  have read : person.definitions.toOption.map (fun definitions =>
      (definitions.get? "Person").map fun schema =>
        insertions {} ⟨person, definitions, {}⟩ "Person" schema) =
      some (some
        [⟨some (.property "birth-date"), "birth_date",
            .column { type := .string, nullable := true }⟩,
          ⟨some (.property "birth_date"), "birth_date",
            .column { type := .integer, nullable := true }⟩]) := by
    decide +kernel
  obtain ⟨g, built, shown⟩ := exists_ok_of_map run
  obtain ⟨definitions, defined, seen⟩ := exists_ok_of_map read
  obtain ⟨e, there, columns⟩ := Option.map_eq_some_iff.mp shown
  obtain ⟨schema, isSchema, inserted⟩ := Option.map_eq_some_iff.mp seen
  refine ⟨g, definitions, schema, e, built, defined, isSchema, there, inserted, columns, ?_⟩
  rw [inserted]
  decide

end ApiGraph.Build
