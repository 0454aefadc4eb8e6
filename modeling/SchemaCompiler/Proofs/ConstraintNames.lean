import SchemaCompiler.Proofs.Comparison
import SchemaCompiler.Proofs.CreatedTables
import SchemaCompiler.Proofs.InstanceNames

/-!
# Names of constraints

A foreign key is named by its table and column, an index or a uniqueness
constraint by its table and place.  A place has no underscore, so the names of
indexes and uniqueness constraints tell where they belong.  A column may have
underscores, so the name of a foreign key does not: the table may end at more
than one of them.
-/

namespace SchemaCompiler

open List SnapshotTable Table Snapshot Ddl

/-- A first part that goes on past the end of another leaves less to the second. -/
theorem eq_of_longer_part {a part x longer : String}
    (h : a ++ "_" ++ part ++ "_" ++ x = a ++ "_" ++ longer) : longer = part ++ "_" ++ x := by
  apply (String.append_right_inj (a ++ "_")).mp
  rw [← h]
  simp only [String.append_assoc]

/-- Two texts of two parts with an underscore between have the same parts, or the
first part of one goes on with the start of the second part of the other. -/
theorem underscore_eq {a b x y : String} (h : a ++ "_" ++ x = b ++ "_" ++ y) :
    (a = b ∧ x = y) ∨ (∃ part, b = a ++ "_" ++ part ∧ x = part ++ "_" ++ y) ∨
      ∃ part, a = b ++ "_" ++ part ∧ y = part ++ "_" ++ x := by
  have hstart (a x : String) : a.toList ++ ['_'] <+: (a ++ "_" ++ x).toList := by
    rw [String.toList_append, String.toList_append]
    exact prefix_append _ _
  -- both first parts start the same text, so one of them is the start of the other
  rcases eq_or_extends (hstart a x) (h ▸ hstart b y) with rfl | ⟨part, rfl⟩ | ⟨part, rfl⟩
  · exact .inl ⟨rfl, (String.append_right_inj (a ++ "_")).mp h⟩
  · exact .inr (.inr ⟨part, rfl, eq_of_longer_part h⟩)
  · exact .inr (.inl ⟨part, rfl, eq_of_longer_part h.symm⟩)

/-! ## What has a name -/

/-- What the name of a constraint or an index is made of. -/
inductive ConstraintLabel where
  | foreignKey (table column : String)
  | indexed (table : String) (unique : Bool) (place : Nat)
  deriving DecidableEq, Repr

namespace ConstraintLabel

def name : ConstraintLabel → String
  | foreignKey table column => foreignKeyName table column
  | indexed table unique place => placeName table unique place

def table : ConstraintLabel → String
  | foreignKey table _ | indexed table _ _ => table

/-- The first table with a part of its column is the second table. -/
inductive Clashes : ConstraintLabel → ConstraintLabel → Prop
  | intro (table part column : String) :
      Clashes (foreignKey table (part ++ "_" ++ column))
        (foreignKey (table ++ "_" ++ part) column)

variable {a b : ConstraintLabel}

theorem Clashes.name_eq (h : Clashes a b) : a.name = b.name := by
  cases h with
  | intro table part column => simp [name, foreignKeyName, String.append_assoc]

theorem Clashes.table_ne (h : Clashes a b) : a.table ≠ b.table := by
  cases h with
  | intro table part column =>
    intro heq
    have hlength := congrArg String.length heq
    have hunderscore : "_".length = 1 := rfl
    simp only [ConstraintLabel.table, String.length_append] at hlength
    omega

theorem foreignKeyName_eq {table table' column column' : String}
    (h : foreignKeyName table column = foreignKeyName table' column') :
    foreignKey table column = foreignKey table' column' ∨
      Clashes (foreignKey table column) (foreignKey table' column') ∨
      Clashes (foreignKey table' column') (foreignKey table column) := by
  rcases underscore_eq ((String.append_left_inj "_fk").mp h) with ⟨rfl, rfl⟩ |
    ⟨part, rfl, rfl⟩ | ⟨part, rfl, rfl⟩
  · exact .inl rfl
  · exact .inr (.inl (.intro table part column'))
  · exact .inr (.inr (.intro table' part column))

/-- The last letter tells a foreign key from an index. -/
theorem foreignKeyName_ne_placeName (table column table' : String) (unique : Bool) (place : Nat) :
    foreignKeyName table column ≠ placeName table' unique place := by
  intro h
  have hlast {tail : String} {c : Char} (hc : tail.toList.getLast? = some c) (head : String) :
      (head ++ tail).toList.getLast? = some c := by
    rw [String.toList_append, getLast?_append, hc]
    rfl
  have hkey : (foreignKeyName table column).toList.getLast? = some 'k' :=
    hlast rfl (table ++ "_" ++ column)
  rw [h] at hkey
  cases unique with
  | false | true => cases hkey.symm.trans (hlast rfl (table' ++ "_" ++ toString place))

/-- Only the names of foreign keys can be those of something else, and only where
they clash. -/
theorem name_eq_iff : a.name = b.name ↔ a = b ∨ Clashes a b ∨ Clashes b a := by
  constructor
  · intro h
    cases a with
    | foreignKey table column =>
      cases b with
      | foreignKey table' column' => exact foreignKeyName_eq h
      | indexed table' unique place => exact (foreignKeyName_ne_placeName _ _ _ _ _ h).elim
    | indexed table unique place =>
      cases b with
      | foreignKey table' column => exact (foreignKeyName_ne_placeName _ _ _ _ _ h.symm).elim
      | indexed table' unique' place' =>
        obtain ⟨rfl, rfl, rfl⟩ := placeName_injective h
        exact .inl rfl
  · rintro (rfl | h | h)
    · rfl
    · exact h.name_eq
    · exact h.name_eq.symm

end ConstraintLabel

/-! ## The labels of a schema -/

namespace Table

open ConstraintLabel

/-- The labels of the foreign keys, in order of the columns. -/
def keyLabels (t : Table) : List ConstraintLabel :=
  (t.columns.filter (·.foreignKey.isSome)).map fun c => .foreignKey t.name c.name

/-- The labels of the indexes, or of the uniqueness constraints, by their places. -/
def placeLabels (t : Table) (unique : Bool) (columns : List (List String)) :
    List ConstraintLabel :=
  (range columns.length).map fun i => .indexed t.name unique (i + 1)

/-- The labels of the indexes, and behind them those of the uniqueness constraints. -/
def indexLabels (t : Table) : List ConstraintLabel :=
  t.placeLabels false t.indexes ++ t.placeLabels true t.unique

def labels (t : Table) : List ConstraintLabel := t.keyLabels ++ t.indexLabels

variable {t : Table} {a : ConstraintLabel}

theorem mem_keyLabels :
    a ∈ t.keyLabels ↔ ∃ c ∈ t.columns, c.foreignKey.isSome ∧ a = .foreignKey t.name c.name := by
  simp only [keyLabels, mem_map, mem_filter, and_assoc]
  refine exists_congr fun c => and_congr_right fun _ => and_congr_right fun _ => ?_
  exact eq_comm

theorem exists_of_mem_indexLabels (ha : a ∈ t.indexLabels) :
    ∃ unique place, a = .indexed t.name unique place := by
  rcases mem_append.mp ha with ha | ha
  · obtain ⟨i, -, rfl⟩ := mem_map.mp ha
    exact ⟨false, i + 1, rfl⟩
  · obtain ⟨i, -, rfl⟩ := mem_map.mp ha
    exact ⟨true, i + 1, rfl⟩

theorem table_of_mem_labels (ha : a ∈ t.labels) : a.table = t.name := by
  rcases mem_append.mp ha with ha | ha
  · obtain ⟨c, -, -, rfl⟩ := mem_keyLabels.mp ha
    rfl
  · obtain ⟨unique, place, rfl⟩ := exists_of_mem_indexLabels ha
    rfl

theorem nodup_keyLabels (hcolumns : (t.columns.map (·.name)).Nodup) : t.keyLabels.Nodup := by
  have hnames : ((t.columns.filter (·.foreignKey.isSome)).map (·.name)).Nodup :=
    hcolumns.sublist (filter_sublist.map _)
  have hlabels := hnames.map (f := ConstraintLabel.foreignKey t.name) fun _ _ h => by
    injection h
  rwa [map_map] at hlabels

theorem nodup_indexLabels (t : Table) : t.indexLabels.Nodup := by
  have hplaces (unique : Bool) (columns : List (List String)) :
      (t.placeLabels unique columns).Nodup := by
    apply nodup_range.map
    intro i j h
    injection h with _ _ hplace
    omega
  apply (hplaces false t.indexes).append (hplaces true t.unique)
  intro a hindex hunique
  obtain ⟨i, -, rfl⟩ := mem_map.mp hindex
  obtain ⟨j, -, h⟩ := mem_map.mp hunique
  injection h with _ hkind
  cases hkind

theorem nodup_labels (hcolumns : (t.columns.map (·.name)).Nodup) : t.labels.Nodup := by
  apply (nodup_keyLabels hcolumns).append t.nodup_indexLabels
  intro a hkey hindex
  obtain ⟨c, -, -, rfl⟩ := mem_keyLabels.mp hkey
  obtain ⟨unique, place, h⟩ := exists_of_mem_indexLabels hindex
  cases h

end Table

/-! ## The names of a schema -/

theorem SnapshotTable.map_name_foreignKeys (t : Table) :
    (ofTable t).foreignKeys.map (·.name) = t.keyLabels.map (·.name) := by
  rw [ofTable, keyLabels, map_filterMap, map_map]
  induction t.columns with
  | nil => rfl
  | cons c columns ih =>
    cases hkey : c.foreignKey with
    | none => simpa [hkey] using ih
    | some key => simpa [hkey, ConstraintLabel.name, foreignKeyName] using ih

/-- A name that depends on the place only. -/
theorem map_mapIdx_eq_range {α β : Type} {f : Nat → α → β} {name : β → String}
    {byPlace : Nat → String} (h : ∀ i a, name (f i a) = byPlace i) (items : List α) :
    (items.mapIdx f).map name = (range items.length).map byPlace := by
  apply ext_getElem
  · simp
  · intro i _ _
    simp [h]

theorem SnapshotTable.map_name_indexes (t : Table) :
    (ofTable t).indexes.map (·.name) = t.indexLabels.map (·.name) := by
  rw [ofTable, indexLabels, map_append, map_append, placeLabels,
    placeLabels, map_map, map_map]
  congr 1
  · apply map_mapIdx_eq_range
    intro _ _
    rfl
  · apply map_mapIdx_eq_range
    intro _ _
    rfl

/-- The name that a statement gives. -/
def Ddl.Constraint.name : Constraint → String
  | foreignKey _ name _ _ _ | index _ name _ | unique _ name _ => name

theorem Ddl.map_name_constraints (t : Table) :
    (constraints t).map (·.name) =
      (ofTable t).foreignKeys.map (·.name)
        ++ (ofTable t).indexes.map (·.name) := by
  rw [constraints, ofTable, map_append, map_append, map_append,
    append_assoc, foreignKeys, map_filterMap, map_filterMap]
  congr 1
  · apply filterMap_congr
    intro c _
    rw [Option.map_map, Option.map_map]
    rfl
  · rw [indexes, uniques, map_mapIdx, map_mapIdx, map_mapIdx, map_mapIdx]
    rfl

namespace Schema

/-- Tables have names of their own, and so have the columns of each table. -/
structure DistinctNames (s : Schema) : Prop where
  tables : (s.tables.map (·.name)).Nodup
  columns : ∀ t ∈ s.tables, (t.columns.map (·.name)).Nodup

instance (s : Schema) : Decidable s.DistinctNames :=
  decidable_of_iff ((s.tables.map (·.name)).Nodup ∧
    ∀ t ∈ s.tables, (t.columns.map (·.name)).Nodup) ⟨fun ⟨h, h'⟩ => ⟨h, h'⟩, fun ⟨h, h'⟩ => ⟨h, h'⟩⟩

variable {s : Schema}

/-- Labels of several tables differ, since their tables do. -/
theorem DistinctNames.nodup_flatMap (h : s.DistinctNames) {part : Table → List ConstraintLabel}
    (htable : ∀ t, part t ⊆ t.labels) (hpart : ∀ t ∈ s.tables, (part t).Nodup) :
    (s.tables.flatMap part).Nodup := by
  rw [List.nodup_flatMap]
  refine ⟨hpart, (pairwise_map.mp h.tables).imp fun {t u} hne => ?_⟩
  intro a hat hau
  apply hne
  rw [← table_of_mem_labels (htable t hat), ← table_of_mem_labels (htable u hau)]

end Schema

namespace Snapshot

/-- The names of the foreign keys, indexes and uniqueness constraints, table by table. -/
def constraintNames (s : Snapshot) : List String :=
  s.tables.flatMap fun t => t.foreignKeys.map (·.name) ++ t.indexes.map (·.name)

/-- The names of the indexes and uniqueness constraints. -/
def indexNames (s : Snapshot) : List String :=
  s.tables.flatMap fun t => t.indexes.map (·.name)

theorem constraintNames_ofSchema (s : Schema) :
    (ofSchema s).constraintNames = (s.tables.flatMap labels).map (·.name) := by
  rw [constraintNames, ofSchema, flatMap_map, map_flatMap]
  congr 1
  funext t
  rw [map_name_foreignKeys, map_name_indexes, labels, map_append]

theorem indexNames_ofSchema (s : Schema) :
    (ofSchema s).indexNames = (s.tables.flatMap indexLabels).map (·.name) := by
  rw [indexNames, ofSchema, flatMap_map, map_flatMap]
  congr 1
  funext t
  rw [map_name_indexes]

theorem constraintNames_eq_script (s : Schema) :
    (s.tables.flatMap constraints).map (·.name) = (ofSchema s).constraintNames := by
  rw [constraintNames, ofSchema, flatMap_map, map_flatMap]
  congr 1
  funext t
  exact map_name_constraints t

end Snapshot

namespace Schema

variable {s : Schema}

/-- A column of one table starts with what the name of the other table adds to the
first, and both columns are foreign keys. -/
structure KeysClash (s : Schema) (t u : Table) (c d : Column) (part : String) : Prop where
  table : t ∈ s.tables
  other : u ∈ s.tables
  column : c ∈ t.columns
  otherColumn : d ∈ u.columns
  key : c.foreignKey.isSome
  otherKey : d.foreignKey.isSome
  table_eq : u.name = t.name ++ "_" ++ part
  column_eq : c.name = part ++ "_" ++ d.name

theorem KeysClash.of_clashes {a b : ConstraintLabel} (ha : a ∈ s.tables.flatMap labels)
    (hb : b ∈ s.tables.flatMap labels) (h : a.Clashes b) :
    ∃ t u c d part, s.KeysClash t u c d part := by
  obtain ⟨t, ht, ha⟩ := mem_flatMap.mp ha
  obtain ⟨u, hu, hb⟩ := mem_flatMap.mp hb
  have hkey {t : Table} {table column : String}
      (hmem : ConstraintLabel.foreignKey table column ∈ t.labels) :
      ∃ c ∈ t.columns, c.foreignKey.isSome ∧ table = t.name ∧ column = c.name := by
    rcases mem_append.mp hmem with hmem | hmem
    · obtain ⟨c, hc, hsome, heq⟩ := mem_keyLabels.mp hmem
      injection heq with htable hcolumn
      exact ⟨c, hc, hsome, htable, hcolumn⟩
    · obtain ⟨unique, place, heq⟩ := exists_of_mem_indexLabels hmem
      cases heq
  cases h with
  | intro table part column =>
    obtain ⟨c, hc, hcsome, htable, hcolumn⟩ := hkey ha
    obtain ⟨d, hd, hdsome, htable', rfl⟩ := hkey hb
    refine ⟨t, u, c, d, part, ht, hu, hc, hd, hcsome, hdsome, ?_, hcolumn.symm⟩
    rw [← htable', htable]

theorem KeysClash.clashes {t u : Table} {c d : Column} {part : String}
    (h : s.KeysClash t u c d part) :
    ConstraintLabel.Clashes (.foreignKey t.name c.name) (.foreignKey u.name d.name) := by
  rw [h.table_eq, h.column_eq]
  exact .intro t.name part d.name

theorem foreignKey_mem_labels {t : Table} {c : Column} (ht : t ∈ s.tables) (hc : c ∈ t.columns)
    (hkey : c.foreignKey.isSome) :
    ConstraintLabel.foreignKey t.name c.name ∈ s.tables.flatMap labels := by
  apply mem_flatMap_of_mem ht
  apply mem_append_left
  exact mem_keyLabels.mpr ⟨c, hc, hkey, rfl⟩

theorem DistinctNames.nodup_constraintNames_iff (h : s.DistinctNames) :
    (ofSchema s).constraintNames.Nodup ↔ ¬∃ t u c d part, s.KeysClash t u c d part := by
  have hlabels : (s.tables.flatMap labels).Nodup :=
    h.nodup_flatMap (fun t => Subset.refl t.labels)
      fun t ht => nodup_labels (h.columns t ht)
  rw [constraintNames_ofSchema, nodup_map_iff_inj_on hlabels]
  constructor
  · rintro hinj ⟨t, u, c, d, part, hclash⟩
    apply hclash.clashes.table_ne
    apply congrArg ConstraintLabel.table
    apply hinj _ (foreignKey_mem_labels hclash.table hclash.column hclash.key) _
      (foreignKey_mem_labels hclash.other hclash.otherColumn hclash.otherKey)
    exact hclash.clashes.name_eq
  · intro hnone a ha b hb hname
    rcases ConstraintLabel.name_eq_iff.mp hname with heq | hclash | hclash
    · exact heq
    · exact absurd (KeysClash.of_clashes ha hb hclash) hnone
    · exact absurd (KeysClash.of_clashes hb ha hclash) hnone

theorem DistinctNames.nodup_indexNames (h : s.DistinctNames) :
    (ofSchema s).indexNames.Nodup := by
  have hlabels : (s.tables.flatMap indexLabels).Nodup :=
    h.nodup_flatMap (fun t => subset_append_right t.keyLabels t.indexLabels)
      fun t _ => t.nodup_indexLabels
  rw [indexNames_ofSchema]
  apply hlabels.map_on
  intro a ha b _ hname
  rcases ConstraintLabel.name_eq_iff.mp hname with heq | hclash | hclash
  · exact heq
  all_goals
    obtain ⟨t, _, ha⟩ := mem_flatMap.mp ha
    obtain ⟨unique, place, rfl⟩ := exists_of_mem_indexLabels ha
    cases hclash

/-- Within a table, foreign keys have names of their own. -/
theorem DistinctNames.nodup_foreignKeys (h : s.DistinctNames) {t : Table} (ht : t ∈ s.tables) :
    ((ofTable t).foreignKeys.map (·.name)).Nodup := by
  rw [map_name_foreignKeys]
  apply (nodup_keyLabels (h.columns t ht)).map_on
  intro a ha b hb hname
  have htable : a.table = b.table := by
    rw [table_of_mem_labels (mem_append_left _ ha),
      table_of_mem_labels (mem_append_left _ hb)]
  rcases ConstraintLabel.name_eq_iff.mp hname with heq | hclash | hclash
  · exact heq
  · exact absurd htable hclash.table_ne
  · exact absurd htable.symm hclash.table_ne

theorem foreignKey_name_notMem_indexNames {t : Table} {k : SnapshotForeignKey}
    (hk : k ∈ (ofTable t).foreignKeys) (s : Schema) :
    k.name ∉ (ofSchema s).indexNames := by
  intro hmem
  have hkey := mem_map_of_mem (f := (·.name)) hk
  rw [map_name_foreignKeys] at hkey
  obtain ⟨a, ha, hname⟩ := mem_map.mp hkey
  obtain ⟨c, -, -, rfl⟩ := mem_keyLabels.mp ha
  rw [indexNames_ofSchema] at hmem
  obtain ⟨b, hb, hname'⟩ := mem_map.mp hmem
  obtain ⟨u, -, hb⟩ := mem_flatMap.mp hb
  obtain ⟨unique, place, rfl⟩ := exists_of_mem_indexLabels hb
  exact ConstraintLabel.foreignKeyName_ne_placeName _ _ _ _ _ (hname.trans hname'.symm)

/-- The script and the snapshot of a schema give the same names.  Indexes and
uniqueness constraints have names of their own in the whole schema, which are no
names of foreign keys; foreign keys have names of their own in their table.  All
names differ unless the name of a table goes on with the first part of a column
of another. -/
theorem constraint_names_distinct (h : s.DistinctNames) :
    (s.tables.flatMap constraints).map (·.name) = (ofSchema s).constraintNames ∧
    (ofSchema s).indexNames.Nodup ∧
    (∀ t ∈ (ofSchema s).tables, (t.foreignKeys.map (·.name)).Nodup ∧
      ∀ k ∈ t.foreignKeys, k.name ∉ (ofSchema s).indexNames) ∧
    ((ofSchema s).constraintNames.Nodup ↔
      ¬∃ t u c d part, s.KeysClash t u c d part) := by
  refine ⟨constraintNames_eq_script s, h.nodup_indexNames, ?_,
    h.nodup_constraintNames_iff⟩
  intro t ht
  obtain ⟨u, hu, rfl⟩ := mem_map.mp ht
  exact ⟨h.nodup_foreignKeys hu, fun k hk => foreignKey_name_notMem_indexNames hk s⟩

/-! ## Two keys of one name -/

/-- Sales refer to the tag of their item, and the items of sales to their tag. -/
def taggedSales : Schema where
  profile := .postgresql2
  modules := ["app"]
  tables := [
    tagTable "Sale" "sale" [tagColumn "id" none,
      tagColumn "item_tag" (some ⟨"tag", "id", ⟨"app", "Tag"⟩⟩)],
    tagTable "SaleItem" "sale_item" [tagColumn "id" none,
      tagColumn "tag" (some ⟨"tag", "id", ⟨"app", "Tag"⟩⟩)],
    tagTable "Tag" "tag" [tagColumn "id" none]]
  views := []

/-- Both foreign keys are called `sale_item_tag_fk`. -/
theorem constraint_names_distinct_taggedSales :
    taggedSales.DistinctNames ∧ (ofSchema taggedSales).indexNames.Nodup ∧
      ¬(ofSchema taggedSales).constraintNames.Nodup ∧
      ∃ t u c d part, taggedSales.KeysClash t u c d part := by
  have hnames : taggedSales.DistinctNames := by decide +kernel
  have hrepeated : ¬(ofSchema taggedSales).constraintNames.Nodup := by decide +kernel
  obtain ⟨-, hindexes, -, hall⟩ := constraint_names_distinct hnames
  refine ⟨hnames, hindexes, hrepeated, ?_⟩
  by_contra hnone
  exact hrepeated (hall.mpr hnone)

end Schema

end SchemaCompiler
