import SchemaCompiler.Migration.Snapshot
import SchemaCompiler.Proofs.Reading

/-!
# Stored snapshots

The text of a snapshot holds the snapshot.  A part that is left out of the text
is read as the blank it is left out for, so records are read over blank ones.
-/

namespace SchemaCompiler

open List

variable {items : List Json}

namespace Json

variable {α : Type}

/-! ## Records in which members are left out -/

section Record

variable {record : ScopedName} {names : List String} {read : α → String → Json → Reading α}
  {old new : α} {name : String} {value : Json}

theorem readRecord_object_cons {rest : List (String × Json)}
    (hname : names.contains name = true) (hread : read old name value = .clean new) :
    (object ((name, value) :: rest)).readRecord record names read old =
      (object rest).readRecord record names read new := by
  rw [object, map_cons, readRecord, readMembers, unescape_escape, nameOf?,
    if_pos (contains_iff_mem.mp hname)]
  simp [hread, object, readRecord]

/-- A list that is left out when it is empty. -/
theorem readRecord_object_nonEmpty {rest : List (String × Json)}
    (hname : names.contains name = true) (hread : read old name (arr items) = .clean new)
    (hempty : items = [] → new = old) :
    (object (Snapshot.nonEmpty name items ++ rest)).readRecord record names read old =
      (object rest).readRecord record names read new := by
  cases items with
  | nil => rw [hempty rfl, Snapshot.nonEmpty, isEmpty_nil, if_pos rfl, nil_append]
  | cons item items => exact readRecord_object_cons hname hread

end Record

/-- Values that were written one by one are read one by one over blank ones. -/
theorem readList_arr_map {read : α → Json → Reading α} {blank : α} {write : α → Json}
    {as : List α} (type : String) (h : ∀ a ∈ as, read blank (write a) = .clean a) :
    (arr (as.map write)).readList type read blank [] = .clean as := by
  rw [readList]
  induction as with
  | nil => rfl
  | cons a as ih =>
    obtain ⟨ha, has⟩ := forall_mem_cons.mp h
    rw [map_cons, readItems, headD_nil, ha, tail_nil, ih has]
    rfl

end Json

namespace Snapshot

open Json

variable {level : Nat} {members : List (String × Json)} {s : Snapshot}

/-! ## What can be stored -/

/-- The value can be spelled, does not nest deeper than so, and no list of
records in it has a hole. -/
structure Storable (level : Nat) (j : Json) : Prop where
  spelled : j.Spelled
  depth_le : j.depth ≤ level
  record : hasHole j = false
  items : itemsHaveHole j = false

theorem storable_text (level : Nat) (meaning : String) : Storable level (.text meaning) :=
  ⟨spelled_text meaning, Nat.zero_le _, rfl, rfl⟩

theorem storable_bool (level : Nat) (value : Bool) : Storable level (.bool value) :=
  ⟨.bool value, Nat.zero_le _, rfl, rfl⟩

theorem storable_null (level : Nat) : Storable level .null :=
  ⟨.null, Nat.zero_le _, rfl, rfl⟩

theorem listHasHole_eq_false (h : ∀ item ∈ items, item ≠ .null ∧ hasHole item = false) :
    listHasHole items = false := by
  induction items with
  | nil => rfl
  | cons item items ih =>
    obtain ⟨⟨hitem, hhole⟩, hitems⟩ := forall_mem_cons.mp h
    rw [listHasHole, hhole, ih hitems]
    · rfl
    · exact hitem

theorem membersHaveHole_eq_false (h : ∀ m ∈ members, itemsHaveHole m.2 = false) :
    membersHaveHole members = false := by
  induction members with
  | nil => rfl
  | cons member members ih =>
    obtain ⟨hmember, hmembers⟩ := forall_mem_cons.mp h
    rw [membersHaveHole, hmember, ih hmembers, ite_self, Bool.or_false]

theorem storable_arr (h : ∀ item ∈ items, item ≠ .null ∧ Storable level item) :
    Storable (level + 1) (.arr items) where
  spelled := .arr fun item hitem => (h item hitem).2.spelled
  depth_le := depth_arr_le.mpr fun item hitem => (h item hitem).2.depth_le
  record := rfl
  items := listHasHole_eq_false fun item hitem => ⟨(h item hitem).1, (h item hitem).2.record⟩

theorem storable_listJson (given : Bool) (h : ∀ item ∈ items, item ≠ .null ∧ Storable level item) :
    Storable (level + 1) (listJson given items) := by
  rw [listJson]
  split
  · exact storable_null _
  · exact storable_arr h

theorem storable_object (h : ∀ m ∈ members, Storable level m.2) :
    Storable (level + 1) (object members) := by
  have hvalues : ∀ m ∈ members.map fun m => (escape m.1, m.2), Storable level m.2 :=
    forall_mem_map.mpr h
  refine ⟨.obj ?_ fun m hm => (hvalues m hm).spelled, ?_, ?_, rfl⟩
  · exact forall_mem_map.mpr fun m _ => spelling_escape m.1
  · exact depth_obj_le.mpr fun m hm => (hvalues m hm).depth_le
  · exact membersHaveHole_eq_false fun m hm => (hvalues m hm).items

theorem storable_nonEmpty {name : String} (h : Storable level (.arr items)) :
    ∀ m ∈ nonEmpty name items, Storable level m.2 := by
  rw [nonEmpty]
  split
  · simp
  · simpa using h

theorem storable_texts (level : Nat) (texts : List String) :
    ∀ item ∈ texts.map Json.text, item ≠ .null ∧ Storable level item :=
  forall_mem_map.mpr fun meaning _ => ⟨Json.noConfusion, storable_text level meaning⟩

/-! ## Lists that are there -/

section ListJson

variable {α : Type} {read : α → Json → Reading α} {blank : α} {write : α → Json} {as : List α}

theorem readList_listJson (type : String) (given : Bool)
    (h : ∀ a ∈ as, read blank (write a) = .clean a) :
    (listJson given (as.map write)).readList type read blank [] = .clean as := by
  rw [listJson]
  split
  · obtain rfl : as = [] := by simp_all
    rfl
  · exact readList_arr_map type h

theorem givenAfter_listJson {given : Bool} (hgiven : as ≠ [] → given = true) (old : Bool) :
    givenAfter old (listJson given (as.map write)) = given := by
  cases given with
  | true => rw [listJson, Bool.not_true, Bool.and_false, if_neg Bool.false_ne_true, givenAfter]
  | false =>
    obtain rfl : as = [] := by simpa using hgiven
    rfl

end ListJson

theorem storable_flag (level : Nat) (flag : Bool) (name : String) :
    ∀ m ∈ if flag then [(name, Json.bool true)] else [], Storable level m.2 := by
  cases flag with
  | false => simp
  | true => simpa using storable_bool level true

/-! ## Records -/

theorem readColumn_columnJson (c : SnapshotColumn) :
    readColumn ⟨"", "", false⟩ (columnJson c) = .clean c := by
  obtain ⟨name, type, nullable⟩ := c
  rw [readColumn, columnJson, cons_append, cons_append,
    readRecord_object_cons rfl (by simp; rfl), readRecord_object_cons rfl (by simp; rfl)]
  cases nullable with
  | false => rfl
  | true => exact readRecord_object_cons rfl rfl

theorem storable_columnJson (level : Nat) (c : SnapshotColumn) :
    Storable (level + 1) (columnJson c) := by
  refine storable_object (forall_mem_append.mpr ⟨?_, storable_flag level _ _⟩)
  simp [storable_text]

theorem readForeignKey_foreignKeyJson (k : SnapshotForeignKey) :
    readForeignKey ⟨"", "", "", ""⟩ (foreignKeyJson k) = .clean k := by
  rw [readForeignKey, foreignKeyJson,
    readRecord_object_cons rfl (by simp; rfl), readRecord_object_cons rfl (by simp; rfl),
    readRecord_object_cons rfl (by simp; rfl), readRecord_object_cons rfl (by simp; rfl)]
  rfl

theorem storable_foreignKeyJson (level : Nat) (k : SnapshotForeignKey) :
    Storable (level + 1) (foreignKeyJson k) :=
  storable_object (by simp [storable_text])

theorem readTexts_listJson (given : Bool) (texts : List String) :
    (listJson given (texts.map Json.text)).readTexts [] = .clean texts :=
  readList_listJson _ given fun meaning _ => readText_text "" meaning

theorem readIndex_indexJson {i : SnapshotIndex} (h : i.columns ≠ [] → i.columnsGiven = true) :
    readIndex ⟨"", [], false, false⟩ (indexJson i) = .clean i := by
  obtain ⟨name, columns, unique, columnsGiven⟩ := i
  rw [readIndex, indexJson, cons_append, cons_append,
    readRecord_object_cons rfl (by simp; rfl),
    readRecord_object_cons rfl (by simp [readTexts_listJson, givenAfter_listJson h]; rfl)]
  cases unique with
  | false => rfl
  | true => exact readRecord_object_cons rfl rfl

theorem storable_indexJson (level : Nat) (i : SnapshotIndex) :
    Storable (level + 2) (indexJson i) := by
  refine storable_object (forall_mem_append.mpr ⟨?_, storable_flag _ _ _⟩)
  simp [storable_text, storable_listJson _ (storable_texts level i.columns)]

/-- A list that has items is there. -/
structure ListsGiven (s : Snapshot) : Prop where
  tables : s.tables ≠ [] → s.tablesGiven = true
  columns : ∀ t ∈ s.tables, t.columns ≠ [] → t.columnsGiven = true
  indexColumns : ∀ t ∈ s.tables, ∀ i ∈ t.indexes, i.columns ≠ [] → i.columnsGiven = true

theorem readTable_tableJson {t : SnapshotTable} (hcolumns : t.columns ≠ [] → t.columnsGiven = true)
    (hindexes : ∀ i ∈ t.indexes, i.columns ≠ [] → i.columnsGiven = true) :
    readTable ⟨"", [], [], [], [], false⟩ (tableJson t) = .clean t := by
  obtain ⟨name, columns, primaryKey, indexes, foreignKeys, columnsGiven⟩ := t
  have hcolumnList := readList_listJson "[]*sql.SnapshotColumn" columnsGiven
    fun c (_ : c ∈ columns) => readColumn_columnJson c
  have hkey := (readsAs_texts primaryKey).read_eq []
  have hindexList := readList_arr_map "[]*sql.SnapshotIndex"
    fun i hi => readIndex_indexJson (hindexes i hi)
  have hforeignList := readList_arr_map "[]*sql.SnapshotForeignKey"
    fun k (_ : k ∈ foreignKeys) => readForeignKey_foreignKeyJson k
  rw [readTable, tableJson, ← append_nil (nonEmpty "foreignKeys" _)]
  simp only [cons_append, nil_append, append_assoc]
  rw [readRecord_object_cons rfl (by simp; rfl),
    readRecord_object_cons rfl (by simp [hcolumnList, givenAfter_listJson hcolumns]; rfl),
    readRecord_object_nonEmpty rfl (by simp [hkey]; rfl) (by simp_all),
    readRecord_object_nonEmpty rfl (by simp [hindexList]; rfl) (by simp_all),
    readRecord_object_nonEmpty rfl (by simp [hforeignList]; rfl) (by simp_all)]
  rfl

theorem storable_tableJson (level : Nat) (t : SnapshotTable) :
    Storable (level + 4) (tableJson t) := by
  have hcolumns := storable_listJson t.columnsGiven (forall_mem_map.mpr
    fun c (_ : c ∈ t.columns) => ⟨Json.noConfusion, storable_columnJson (level + 1) c⟩)
  have hkey := storable_arr (storable_texts (level + 2) t.primaryKey)
  have hindexes := storable_arr (forall_mem_map.mpr
    fun i (_ : i ∈ t.indexes) => ⟨Json.noConfusion, storable_indexJson level i⟩)
  have hforeign := storable_arr (forall_mem_map.mpr
    fun k (_ : k ∈ t.foreignKeys) => ⟨Json.noConfusion, storable_foreignKeyJson (level + 1) k⟩)
  refine storable_object ?_
  simp only [forall_mem_append]
  refine ⟨⟨⟨?_, storable_nonEmpty hkey⟩, storable_nonEmpty hindexes⟩, storable_nonEmpty hforeign⟩
  simp [storable_text, hcolumns]

theorem ListsGiven.read_toJson (h : s.ListsGiven) : read empty s.toJson = .clean s := by
  have htables := readList_listJson "[]*sql.SnapshotTable" s.tablesGiven
    fun t ht => readTable_tableJson (h.columns t ht) (h.indexColumns t ht)
  rw [read, toJson, readRecord_object_cons rfl (by simp; rfl),
    readRecord_object_cons rfl (by simp [empty, htables, givenAfter_listJson h.tables]; rfl)]
  rfl

theorem storable_toJson (s : Snapshot) : Storable 6 s.toJson := by
  have htables := storable_listJson s.tablesGiven (forall_mem_map.mpr
    fun t (_ : t ∈ s.tables) => ⟨Json.noConfusion, storable_tableJson 0 t⟩)
  refine storable_object ?_
  simp [storable_text, htables]

/-- The text of a snapshot holds the snapshot. -/
theorem ListsGiven.parse_text (h : s.ListsGiven) : parse s.text = .ok s := by
  have hstorable := storable_toJson s
  have hsound : s.toJson.Sound :=
    ⟨hstorable.spelled, hstorable.depth_le.trans (by decide)⟩
  rw [parse, text, hsound.parse_indent]
  simp [Except.bind, Except.map, h.read_toJson, hstorable.record]

theorem listsGiven_ofSchema (s : Schema) : (ofSchema s).ListsGiven where
  tables _ := rfl
  columns := by
    simp [ofSchema, SnapshotTable.ofTable]
  indexColumns := by
    intro t ht i hi _
    obtain ⟨u, _, rfl⟩ := mem_map.mp ht
    rcases mem_append.mp hi with hi | hi
    · obtain ⟨_, _, rfl⟩ := mem_mapIdx.mp hi
      rfl
    · obtain ⟨_, _, rfl⟩ := mem_mapIdx.mp hi
      rfl

end Snapshot

end SchemaCompiler
