import Mathlib.Data.List.Induction
import SchemaCompiler.Migration.Layout
import SchemaCompiler.Proofs.Outcome
import SchemaCompiler.Proofs.SnapshotNames

/-!
# Layouts of snapshots

The layout of a well-named snapshot is made table by table: a table has its
columns, keys and indexes, and then every column that a foreign key of the
snapshot refers to and the table lacks.  Only the type of a column can keep the
layout from being made.
-/

namespace SchemaCompiler

open Outcome List Snapshot Layout

variable {failure : Failure} {t : LayoutTable} {names : List String} {parse : TypeParser}

theorem map_eq_of_forall₂ {α β γ : Type} {R : α → β → Prop} {f : α → γ} {g : β → γ}
    {as : List α} {bs : List β} (h : Forall₂ R as bs) (heq : ∀ a b, R a b → g b = f a) :
    bs.map g = as.map f := by
  induction h with
  | nil => rfl
  | cons hab _ ih => rw [map_cons, map_cons, heq _ _ hab, ih]

namespace Layout

/-! ## The table of a name -/

section Update

variable {l : Layout} {name : String} {change : LayoutTable → LayoutTable}

/-- Where names are distinct, the update of one table is an update of all that have the name. -/
theorem updateFirst_eq_map (hnames : (l.map (·.name)).Nodup) :
    updateFirst name change l = l.map fun t => if t.name = name then change t else t := by
  induction l with
  | nil => rfl
  | cons t l ih =>
    rw [map_cons, nodup_cons] at hnames
    rw [updateFirst, map_cons]
    split
    · rename_i ht
      have hother : ∀ u ∈ l, (if u.name = name then change u else u) = u := fun u hu =>
        if_neg fun hname => hnames.1 (mem_map.mpr ⟨u, hu, hname.trans ht.symm⟩)
      rw [map_congr_left hother, map_id']
    · rw [ih hnames.2]

theorem nodup_names_reverse (hnames : (l.map (·.name)).Nodup) :
    (l.reverse.map (·.name)).Nodup := by
  rw [map_reverse]
  exact nodup_reverse.mpr hnames

theorem updateOwner_eq_map (hnames : (l.map (·.name)).Nodup) :
    updateOwner name change l = l.map fun t => if t.name = name then change t else t := by
  rw [updateOwner, updateFirst_eq_map (nodup_names_reverse hnames), map_reverse, reverse_reverse]

theorem owner?_eq_none : l.owner? name = none ↔ ∀ t ∈ l, t.name ≠ name := by
  simp [owner?, findRev?_eq_find?_reverse]

theorem owner?_eq_some (hnames : (l.map (·.name)).Nodup) (ht : t ∈ l) :
    l.owner? t.name = some t := by
  rw [owner?, findRev?_eq_find?_reverse, find?_name_eq_some (nodup_names_reverse hnames)]
  exact ⟨mem_reverse.mpr ht, rfl⟩

end Update

end Layout

/-! ## Columns -/

structure LayoutColumn.Matches (c : SnapshotColumn) (v : LayoutColumn) : Prop where
  name : v.name = c.name
  type : v.type.map (·.raw) = some c.type
  nullable : v.nullable = c.nullable

theorem LayoutTable.matches_of_ofColumn_ok {table : String} {c : SnapshotColumn} {v : LayoutColumn}
    (h : ofColumn parse table c = .ok v) : LayoutColumn.Matches c v := by
  unfold ofColumn at h
  split at h
  · cases h
    exact ⟨rfl, rfl, rfl⟩
  · cases h

namespace LayoutTable

theorem isSome_column?_iff {name : String} :
    (t.column? name).isSome = true ↔ name ∈ t.columns.map (·.name) := by
  simp [column?]

theorem requireColumns_eq_ok (h : ∀ name ∈ names, name ∈ t.columns.map (·.name)) :
    t.requireColumns names = .ok () := by
  induction names with
  | nil => rfl
  | cons name rest ih =>
    obtain ⟨hname, hrest⟩ := forall_mem_cons.mp h
    rw [requireColumns, if_pos (isSome_column?_iff.mpr hname), ih hrest]

/-- The table with the referenced column of a key, if the table is meant. -/
def withTarget (k : SnapshotForeignKey) (t : LayoutTable) : LayoutTable :=
  if t.name = k.refTable ∧ k.refColumn ∉ t.columns.map (·.name) then
    t.addColumn ⟨k.refColumn, none, false⟩
  else t

end LayoutTable

namespace Layout

variable {s : Snapshot} {t : SnapshotTable} {u : LayoutTable} {l : Layout}
  {tables : List SnapshotTable} {refs keys : List SnapshotForeignKey} {k : SnapshotForeignKey}
  {name : String}

theorem withTarget_eq_map (hnames : (l.map (·.name)).Nodup) :
    l.withTarget k = l.map (LayoutTable.withTarget k) := by
  rw [withTarget]
  cases howner : l.owner? k.refTable with
  | none =>
    have hother := owner?_eq_none.mp howner
    refine ((map_congr_left fun u hu => ?_).trans (map_id' l)).symm
    exact if_neg fun h => hother u hu h.1
  | some target =>
    have htarget : ∀ u ∈ l, u.name = k.refTable → u = target := fun u hu hname =>
      Option.some.inj ((owner?_eq_some hnames hu).symm.trans (hname ▸ howner))
    dsimp only
    split
    · rename_i hhas
      refine ((map_congr_left fun u hu => ?_).trans (map_id' l)).symm
      refine if_neg fun h => h.2 ?_
      rw [htarget u hu h.1]
      exact LayoutTable.isSome_column?_iff.mp hhas
    · rename_i hlacks
      rw [LayoutTable.isSome_column?_iff] at hlacks
      rw [updateOwner_eq_map hnames]
      refine map_congr_left fun u hu => ?_
      by_cases hname : u.name = k.refTable
      · obtain rfl := htarget u hu hname
        rw [LayoutTable.withTarget, if_pos hname, if_pos ⟨hname, hlacks⟩]
      · rw [LayoutTable.withTarget, if_neg hname, if_neg fun h => hname h.1]

/-! ## Tables with what is referred to -/

/-- The columns that keys refer to and the table lacks, each once and in the
order of the keys. -/
def lacking (t : SnapshotTable) (refs : List SnapshotForeignKey) : List String :=
  ((refs.filter fun k => k.refTable = t.name && !Snapshot.hasColumn t k.refColumn).map
    (·.refColumn)).eraseDups

theorem mem_lacking :
    name ∈ lacking t refs ↔
      ¬t.HasColumn name ∧ ∃ k ∈ refs, k.refTable = t.name ∧ k.refColumn = name := by
  rw [lacking, mem_eraseDups, mem_map]
  simp only [mem_filter, Bool.and_eq_true, decide_eq_true_eq, Bool.not_eq_true',
    ← Bool.not_eq_true, hasColumn_iff]
  constructor
  · rintro ⟨k, ⟨hk, htable, hlacks⟩, rfl⟩
    exact ⟨hlacks, k, hk, htable, rfl⟩
  · rintro ⟨hlacks, k, hk, htable, rfl⟩
    exact ⟨k, ⟨hk, htable, hlacks⟩, rfl⟩

theorem lacking_eq_nil_iff :
    lacking t refs = [] ↔ ∀ k ∈ refs, k.refTable = t.name → t.HasColumn k.refColumn := by
  rw [eq_nil_iff_forall_not_mem]
  simp only [mem_lacking]
  constructor
  · exact fun h k hk htable => by_contra fun hlacks => h _ ⟨hlacks, k, hk, htable, rfl⟩
  · rintro h name ⟨hlacks, k, hk, htable, rfl⟩
    exact hlacks (h k hk htable)

/-- All column names of a table when some keys were resolved. -/
def columnNames (t : SnapshotTable) (refs : List SnapshotForeignKey) : List String :=
  t.columns.map (·.name) ++ lacking t refs

theorem eraseDups_concat :
    (names ++ [name]).eraseDups =
      if name ∈ names.eraseDups then names.eraseDups else names.eraseDups ++ [name] := by
  rw [eraseDups_append]
  by_cases hname : name ∈ names
  · simp [mem_eraseDups, hname, removeAll]
  · simp [mem_eraseDups, hname, removeAll, eraseDups_cons]

theorem lacking_concat :
    lacking t (refs ++ [k]) = if t.name = k.refTable ∧ k.refColumn ∉ columnNames t refs then
      lacking t refs ++ [k.refColumn] else lacking t refs := by
  have hknown : k.refColumn ∈ columnNames t refs ↔
      hasColumn t k.refColumn = true ∨ k.refColumn ∈ lacking t refs := by
    simp [columnNames, hasColumn]
  simp only [hknown]
  by_cases hmeant : (k.refTable = t.name && !Snapshot.hasColumn t k.refColumn) = true
  · have hsingle : [k].filter (fun k => k.refTable = t.name && !Snapshot.hasColumn t k.refColumn) =
        [k] := filter_cons_of_pos hmeant
    obtain ⟨htable, hlacks⟩ : k.refTable = t.name ∧ hasColumn t k.refColumn = false := by
      simpa using hmeant
    rw [lacking, filter_append, hsingle, map_append, map_singleton, eraseDups_concat, ← lacking]
    simp [htable, hlacks]
  · have hnone : [k].filter (fun k => k.refTable = t.name && !Snapshot.hasColumn t k.refColumn) =
        [] := filter_cons_of_neg hmeant
    rw [lacking, filter_append, hnone, append_nil, ← lacking, if_neg]
    rintro ⟨htable, hlacks⟩
    simp [htable, (not_or.mp hlacks).1] at hmeant

theorem nodup_columnNames (h : (t.columns.map (·.name)).Nodup)
    (refs : List SnapshotForeignKey) : (columnNames t refs).Nodup := by
  induction refs using reverseRecOn with
  | nil => simpa [columnNames, lacking] using h
  | append_singleton refs k ih =>
    rw [columnNames, lacking_concat]
    split
    · rename_i hnew
      rw [← append_assoc, ← columnNames, ← concat_eq_append]
      exact ih.concat hnew.2
    · exact ih

/-- A table with its columns laid out, some keys of its own, and what keys of the
snapshot refer to. -/
def completed (refs keys : List SnapshotForeignKey) (t : SnapshotTable)
    (columns : List LayoutColumn) : LayoutTable where
  name := t.name
  columns := columns ++ (lacking t refs).map (⟨·, none, false⟩)
  primaryKey := t.primaryKey
  indexes := t.indexes.map fun i => ⟨i.name, i.columns, i.unique⟩
  foreignKeys := keys

def laidOut (parse : TypeParser) (refs keys : List SnapshotForeignKey) (t : SnapshotTable) :
    Outcome LayoutTable :=
  (t.columns.mapM (LayoutTable.ofColumn parse t.name)).map (completed refs keys t)

theorem names_of_mapM_ofColumn {columns : List LayoutColumn}
    (h : t.columns.mapM (LayoutTable.ofColumn parse t.name) = .ok columns) :
    columns.map (·.name) = t.columns.map (·.name) :=
  map_eq_of_forall₂ (mapM_eq_ok.mp h) fun _ _ hc =>
    (LayoutTable.matches_of_ofColumn_ok hc).name

theorem columnNames_eq (h : laidOut parse refs keys t = .ok u) :
    u.columns.map (·.name) = columnNames t refs := by
  obtain ⟨columns, hcolumns, rfl⟩ := map_eq_ok.mp h
  rw [completed, map_append, names_of_mapM_ofColumn hcolumns, map_map, columnNames]
  exact congrArg _ (map_id' _)

theorem name_of_laidOut_ok (h : laidOut parse refs keys t = .ok u) : u.name = t.name := by
  obtain ⟨columns, _, rfl⟩ := map_eq_ok.mp h
  rfl

theorem laidOut_withTarget (h : laidOut parse refs keys t = .ok u) :
    laidOut parse (refs ++ [k]) keys t = .ok (u.withTarget k) := by
  have hnames := columnNames_eq h
  obtain ⟨columns, hcolumns, rfl⟩ := map_eq_ok.mp h
  refine map_eq_ok.mpr ⟨columns, hcolumns, ?_⟩
  rw [LayoutTable.withTarget, hnames, completed, lacking_concat]
  by_cases hnew : t.name = k.refTable ∧ k.refColumn ∉ columnNames t refs
  · refine Eq.trans ?_ (if_pos hnew).symm
    rw [if_pos hnew, map_append, ← append_assoc]
    rfl
  · refine Eq.trans ?_ (if_neg hnew).symm
    rw [if_neg hnew]
    rfl

theorem laidOut_addForeignKey (h : laidOut parse refs keys t = .ok u) :
    laidOut parse refs (keys ++ [k]) t = .ok (u.addForeignKey k) := by
  obtain ⟨columns, hcolumns, rfl⟩ := map_eq_ok.mp h
  exact map_eq_ok.mpr ⟨columns, hcolumns, rfl⟩

/-! ## Resolving foreign keys -/

/-- The foreign keys that belong to the table of a name. -/
def keysOf (keys : List (String × SnapshotForeignKey)) (name : String) :
    List SnapshotForeignKey :=
  (keys.filter (·.1 = name)).map (·.2)

theorem keysOf_append (keys more : List (String × SnapshotForeignKey)) (name : String) :
    keysOf (keys ++ more) name = keysOf keys name ++ keysOf more name := by
  simp [keysOf]

theorem keysOf_map (table name : String) (ks : List SnapshotForeignKey) :
    keysOf (ks.map (table, ·)) name = if table = name then ks else [] := by
  rw [keysOf, filter_map]
  by_cases hname : table = name
  · simp [hname, Function.comp_def]
  · simp [hname, Function.comp_def]

/-- The tables of a snapshot laid out, when some keys were resolved and some
were given to their tables. -/
def Resolved (parse : TypeParser) (refs : List SnapshotForeignKey)
    (given : List (String × SnapshotForeignKey)) (tables : List SnapshotTable) (l : Layout) :
    Prop :=
  Forall₂ (fun t u => laidOut parse refs (keysOf given t.name) t = .ok u) tables l

section Resolved

variable {given : List (String × SnapshotForeignKey)} (hnames : (tables.map (·.name)).Nodup)
  (h : Resolved parse refs given tables l)
include hnames h

theorem Resolved.nodup : (l.map (·.name)).Nodup := by
  rwa [map_eq_of_forall₂ h fun _ _ => name_of_laidOut_ok]

theorem Resolved.withTarget (k : SnapshotForeignKey) :
    Resolved parse (refs ++ [k]) given tables (l.withTarget k) := by
  rw [withTarget_eq_map (h.nodup hnames), Resolved, forall₂_map_right_iff]
  exact h.imp fun _ _ => laidOut_withTarget

theorem Resolved.give (table : String) (k : SnapshotForeignKey) :
    Resolved parse refs (given ++ [(table, k)]) tables
      (l.updateOwner table (LayoutTable.addForeignKey k)) := by
  rw [updateOwner_eq_map (h.nodup hnames), Resolved, forall₂_map_right_iff]
  refine h.imp fun t u htu => ?_
  have hname := name_of_laidOut_ok htu
  have hkeys : keysOf (given ++ [(table, k)]) t.name =
      keysOf given t.name ++ if table = t.name then [k] else [] := by
    rw [keysOf_append, ← keysOf_map]
    rfl
  by_cases htable : u.name = table
  · rw [hkeys, if_pos htable, if_pos (htable.symm.trans hname)]
    exact laidOut_addForeignKey htu
  · rw [hkeys, if_neg htable, if_neg fun hother => htable (hname.trans hother.symm),
      append_nil]
    exact htu

/-- A key whose column is there can be resolved, and goes to its table. -/
theorem Resolved.exists_addForeignKey (ht : t ∈ tables) (hk : t.HasColumn k.column) :
    ∃ next, addForeignKey t.name l k = .ok next ∧
      Resolved parse (refs ++ [k]) (given ++ [(t.name, k)]) tables next := by
  obtain ⟨u, hu, htu⟩ := forall₂_exists_right h ht
  have howner : l.owner? t.name = some u :=
    name_of_laidOut_ok htu ▸ owner?_eq_some (h.nodup hnames) hu
  have hcolumn : k.column ∈ u.columns.map (·.name) := by
    rw [columnNames_eq htu]
    exact mem_append_left _ (mem_map.mpr hk)
  have hrequired : u.requireColumns [k.column] = .ok () :=
    LayoutTable.requireColumns_eq_ok (forall_mem_singleton.mpr hcolumn)
  refine ⟨updateOwner t.name (LayoutTable.addForeignKey k) (l.withTarget k), ?_,
    (h.withTarget hnames k).give hnames t.name k⟩
  rw [addForeignKey, howner]
  exact bind_eq_ok.mpr ⟨(), hrequired, rfl⟩

theorem Resolved.exists_foldlM {more : List (String × SnapshotForeignKey)}
    (hmore : ∀ e ∈ more, ∃ t ∈ tables, t.name = e.1 ∧ t.HasColumn e.2.column) :
    ∃ last, more.foldlM (fun l e => addForeignKey e.1 l e.2) l = .ok last ∧
      Resolved parse (refs ++ more.map (·.2)) (given ++ more) tables last := by
  induction more generalizing refs given l with
  | nil => exact ⟨l, rfl, by simpa using h⟩
  | cons e more ih =>
    obtain ⟨⟨t, ht, hname, hcolumn⟩, hmore⟩ := forall_mem_cons.mp hmore
    obtain ⟨next, hnext, hresolved⟩ := h.exists_addForeignKey hnames ht hcolumn
    rw [hname] at hnext hresolved
    obtain ⟨last, hlast, hresolved⟩ := ih hresolved hmore
    rw [append_assoc, append_assoc] at hresolved
    exact ⟨last, bind_eq_ok.mpr ⟨next, hnext, hlast⟩, hresolved⟩

end Resolved

def allKeys (tables : List SnapshotTable) : List (String × SnapshotForeignKey) :=
  tables.flatMap fun t => t.foreignKeys.map (t.name, ·)

theorem keysOf_allKeys_eq_nil (h : ∀ t ∈ tables, t.name ≠ name) :
    keysOf (allKeys tables) name = [] := by
  rw [keysOf, map_eq_nil_iff, filter_eq_nil_iff]
  intro e he
  obtain ⟨t, ht, he⟩ := mem_flatMap.mp he
  obtain ⟨k, _, rfl⟩ := mem_map.mp he
  simpa using h t ht

theorem keysOf_allKeys (hnames : (tables.map (·.name)).Nodup) (ht : t ∈ tables) :
    keysOf (allKeys tables) t.name = t.foreignKeys := by
  induction tables with
  | nil => cases ht
  | cons u tables ih =>
    rw [map_cons, nodup_cons] at hnames
    rw [allKeys, flatMap_cons, keysOf_append, keysOf_map, ← allKeys]
    rcases mem_cons.mp ht with rfl | ht
    · rw [if_pos rfl, keysOf_allKeys_eq_nil fun u hu hname =>
        hnames.1 (mem_map.mpr ⟨u, hu, hname⟩), append_nil]
    · have hother : u.name ≠ t.name := fun hname =>
        hnames.1 (mem_map.mpr ⟨t, ht, hname.symm⟩)
      rw [if_neg hother, nil_append, ih hnames.2 ht]

/-! ## Whole layouts -/

theorem laidOut_eq_error :
    laidOut parse refs keys t = .error failure ↔
      t.columns.mapM (LayoutTable.ofColumn parse t.name) = .error failure :=
  map_eq_error

theorem exists_laidOut_iff :
    (∃ u, laidOut parse refs keys t = .ok u) ↔
      ∃ columns, t.columns.mapM (LayoutTable.ofColumn parse t.name) = .ok columns := by
  simp only [laidOut, map_eq_ok]
  exact ⟨fun ⟨_, columns, h, _⟩ => ⟨columns, h⟩, fun ⟨columns, h⟩ => ⟨_, columns, h, rfl⟩⟩

/-- A table finds all columns that it names itself. -/
theorem ofSnapshot_eq_laidOut (ht : t.WellNamed) :
    LayoutTable.ofSnapshot parse t = laidOut parse [] [] t := by
  cases hcolumns : t.columns.mapM (LayoutTable.ofColumn parse t.name) with
  | error failure =>
    rw [laidOut_eq_error.mpr hcolumns]
    exact bind_eq_error.mpr (.inl hcolumns)
  | ok columns =>
    have hrequired : ∀ {u : LayoutTable} {names : List String}, u.columns = columns →
        (∀ name ∈ names, t.HasColumn name) → u.requireColumns names = .ok () := by
      rintro u names rfl hnamed
      refine LayoutTable.requireColumns_eq_ok fun name hname => ?_
      rw [names_of_mapM_ofColumn hcolumns]
      exact mem_map.mpr (hnamed name hname)
    have hindexed : ∀ name ∈ t.indexes.flatMap (·.columns), t.HasColumn name := by
      intro name hname
      obtain ⟨i, hi, hname⟩ := mem_flatMap.mp hname
      exact ht.indexColumns i hi name hname
    have hlaid : laidOut parse [] [] t = .ok ⟨t.name, columns, t.primaryKey,
        t.indexes.map fun i => ⟨i.name, i.columns, i.unique⟩, []⟩ :=
      map_eq_ok.mpr ⟨columns, hcolumns, by simp [completed, lacking]⟩
    rw [hlaid]
    refine bind_eq_ok.mpr ⟨columns, hcolumns, ?_⟩
    refine bind_eq_ok.mpr ⟨(), hrequired rfl ht.primaryKey, ?_⟩
    exact bind_eq_ok.mpr ⟨(), hrequired rfl hindexed, rfl⟩

theorem ofSnapshot_eq_mapM (hs : s.WellNamed) :
    ofSnapshot parse s = s.tables.mapM fun t =>
      laidOut parse (s.tables.flatMap (·.foreignKeys)) t.foreignKeys t := by
  rw [ofSnapshot]
  cases hfirst : s.tables.mapM (LayoutTable.ofSnapshot parse) with
  | error failure =>
    -- The first table that fails does so because of its columns.
    obtain ⟨before, t, after, heq, hbefore, ht⟩ := mapM_eq_error.mp hfirst
    refine (mapM_eq_error.mpr ⟨before, t, after, heq, fun x hx => ?_, ?_⟩).symm
    · have hx' := hbefore x hx
      rw [ofSnapshot_eq_laidOut (hs.tables x (by simp [heq, hx])), exists_laidOut_iff] at hx'
      exact exists_laidOut_iff.mpr hx'
    · rw [ofSnapshot_eq_laidOut (hs.tables t (by simp [heq])), laidOut_eq_error] at ht
      exact laidOut_eq_error.mpr ht
  | ok first =>
    have hstart : Resolved parse [] [] s.tables first :=
      forall₂_imp_of_mem (mapM_eq_ok.mp hfirst) fun t ht u _ htu =>
        ofSnapshot_eq_laidOut (hs.tables t ht) ▸ htu
    have hcolumns : ∀ e ∈ allKeys s.tables,
        ∃ t ∈ s.tables, t.name = e.1 ∧ t.HasColumn e.2.column := by
      intro e he
      obtain ⟨t, ht, he⟩ := mem_flatMap.mp he
      obtain ⟨k, hk, rfl⟩ := mem_map.mp he
      exact ⟨t, ht, rfl, (hs.tables t ht).foreignKeys k hk⟩
    obtain ⟨last, hlast, hresolved⟩ := hstart.exists_foldlM hs.names hcolumns
    have hkeys : (allKeys s.tables).map (·.2) = s.tables.flatMap (·.foreignKeys) := by
      simp [allKeys, map_flatMap, Function.comp_def]
    have hfold : s.tables.foldlM
        (fun l t => t.foreignKeys.foldlM (addForeignKey t.name) l) first = .ok last := by
      refine (foldlM_flatMap_eq_ok fun b t c => ?_).mpr hlast
      rw [foldlM_map]
    refine hfold.trans (mapM_eq_ok.mpr ?_).symm
    refine forall₂_imp_of_mem hresolved fun t ht u _ htu => ?_
    rwa [nil_append, nil_append, hkeys, keysOf_allKeys hs.names ht] at htu

end Layout

/-! ## What can fail -/

namespace LayoutTable

variable {table : String} {c : SnapshotColumn}

theorem exists_ofColumn_iff :
    (∃ v, ofColumn parse table c = .ok v) ↔ ∃ shown, parse c.type = .ok shown := by
  rw [ofColumn]
  cases parse c.type <;> simp

theorem exists_of_ofColumn_error (h : ofColumn parse table c = .error failure) :
    ∃ cause, parse c.type = .error cause ∧
      failure = cause.within ("sql: column " ++ table ++ "." ++ c.name) := by
  rw [ofColumn] at h
  cases htype : parse c.type with
  | ok shown =>
    rw [htype] at h
    cases h
  | error cause =>
    rw [htype] at h
    exact ⟨cause, rfl, (Except.error.inj h).symm⟩

end LayoutTable

namespace Layout

variable {s : Snapshot}

theorem exists_ofSnapshot_iff (hs : s.WellNamed) :
    (∃ l, ofSnapshot parse s = .ok l) ↔
      ∀ t ∈ s.tables, ∀ c ∈ t.columns, ∃ shown, parse c.type = .ok shown := by
  rw [ofSnapshot_eq_mapM hs, exists_mapM_ok_iff]
  simp only [exists_laidOut_iff, exists_mapM_ok_iff, LayoutTable.exists_ofColumn_iff]

theorem exists_of_ofSnapshot_error (hs : s.WellNamed) (h : ofSnapshot parse s = .error failure) :
    ∃ t ∈ s.tables, ∃ c ∈ t.columns, LayoutTable.ofColumn parse t.name c = .error failure := by
  rw [ofSnapshot_eq_mapM hs] at h
  obtain ⟨_, t, _, htables, _, ht⟩ := mapM_eq_error.mp h
  obtain ⟨_, c, _, hcolumns, _, hc⟩ := mapM_eq_error.mp (laidOut_eq_error.mp ht)
  exact ⟨t, by simp [htables], c, by simp [hcolumns], hc⟩

end Layout

namespace Snapshot

/-- The check of a snapshot is exact: it finds no errors if and only if tables
have names of their own, columns and indexes have names of their own in each
table, and every column of a primary key, an index or a foreign key is a column
of its table.  Such a snapshot has a layout if and only if the parser accepts the
types of all columns, and the layout fails only on one that it rejects, as the
parser does and under the name of the column. -/
theorem check_is_exact (s : Snapshot) :
    (s.check.errors = [] ↔ (s.tables.map (·.name)).Nodup ∧ ∀ t ∈ s.tables,
      (t.columns.map (·.name)).Nodup ∧ (t.indexes.map (·.name)).Nodup ∧
      (∀ name ∈ t.primaryKey, t.HasColumn name) ∧
      (∀ i ∈ t.indexes, ∀ name ∈ i.columns, t.HasColumn name) ∧
      ∀ k ∈ t.foreignKeys, t.HasColumn k.column) ∧
    (s.check.errors = [] → ∀ parse : TypeParser,
      ((∃ l, ofSnapshot parse s = .ok l) ↔
        ∀ t ∈ s.tables, ∀ c ∈ t.columns, ∃ shown, parse c.type = .ok shown) ∧
      ∀ failure, ofSnapshot parse s = .error failure →
        ∃ t ∈ s.tables, ∃ c ∈ t.columns, ∃ cause, parse c.type = .error cause ∧
          failure = cause.within ("sql: column " ++ t.name ++ "." ++ c.name)) := by
  rw [errors_eq_nil_iff]
  refine ⟨⟨fun hs => ⟨hs.names, fun t ht => ?_⟩, fun h => ⟨h.1, fun t ht => ?_⟩⟩,
    fun hs parse => ⟨exists_ofSnapshot_iff hs, fun failure hfailure => ?_⟩⟩
  · obtain ⟨hcolumns, hkey, hindexes, hindexColumns, hforeign⟩ := hs.tables t ht
    exact ⟨hcolumns, hindexes, hkey, hindexColumns, hforeign⟩
  · obtain ⟨hcolumns, hindexes, hkey, hindexColumns, hforeign⟩ := h.2 t ht
    exact ⟨hcolumns, hkey, hindexes, hindexColumns, hforeign⟩
  · obtain ⟨t, ht, c, hc, herror⟩ := exists_of_ofSnapshot_error hs hfailure
    exact ⟨t, ht, c, hc, LayoutTable.exists_of_ofColumn_error herror⟩

/-- Pets and their visits; a visit belongs to a pet under some column of it, and
has a note of some type. -/
def visits (column type : String) : Snapshot :=
  ⟨"postgresql2",
    [⟨"pet", [⟨"id", "text", false⟩], ["id"], [], [], true⟩,
      ⟨"visit", [⟨"pet", "text", false⟩, ⟨"note", type, true⟩], ["pet"],
        [⟨"visit_1_idx", ["note", "pet"], false, true⟩],
        [⟨"visit_pet_fk", "pet", "pet", column⟩], true⟩], true⟩

/-- A parser that knows texts only. -/
def textsOnly (type : String) : Outcome (Option String) :=
  if type = "text" then .ok (some type) else .error (.plain ("unknown type " ++ type))

/-- Visits with a note that is a text have a layout; a note of another type is
what keeps them from having one. -/
theorem check_is_exact_visits :
    (visits "id" "text").check.errors = [] ∧
    (∃ l, ofSnapshot textsOnly (visits "id" "text") = .ok l) ∧
    (visits "id" "blob").check.errors = [] ∧
    (¬∃ l, ofSnapshot textsOnly (visits "id" "blob") = .ok l) ∧
    ofSnapshot textsOnly (visits "id" "blob") =
      .error (.context "sql: column visit.note" (.plain "unknown type blob")) := by
  have htext : (visits "id" "text").check.errors = [] := by decide
  have hblob : (visits "id" "blob").check.errors = [] := by decide
  obtain ⟨haccepted, -⟩ := (check_is_exact (visits "id" "text")).2 htext textsOnly
  obtain ⟨hrefused, -⟩ := (check_is_exact (visits "id" "blob")).2 hblob textsOnly
  refine ⟨htext, haccepted.mpr ?_, hblob, fun hlayout => ?_, rfl⟩
  · simp [visits, textsOnly]
  · obtain ⟨shown, hshown⟩ := hrefused.mp hlayout _ (.tail _ (.head _)) ⟨"note", "blob", true⟩
      (.tail _ (.head _))
    cases hshown

end Snapshot

/-! ## What is added -/

/-- A table with all that the snapshot has, in its order, and nothing else. -/
structure LayoutTable.Matches (t : SnapshotTable) (u : LayoutTable) : Prop where
  name : u.name = t.name
  columns : Forall₂ LayoutColumn.Matches t.columns u.columns
  primaryKey : u.primaryKey = t.primaryKey
  indexes : u.indexes = t.indexes.map fun i => ⟨i.name, i.columns, i.unique⟩
  foreignKeys : u.foreignKeys = t.foreignKeys

namespace Layout

variable {s : Snapshot} {t : SnapshotTable} {u : LayoutTable} {l : Layout}
  {refs : List SnapshotForeignKey}

/-- What a table has beside what the snapshot has. -/
def Extends (refs : List SnapshotForeignKey) (t : SnapshotTable) (u : LayoutTable) : Prop :=
  ∃ columns, LayoutTable.Matches t { u with columns } ∧
    u.columns = columns ++ (lacking t refs).map (⟨·, none, false⟩)

theorem extends_of_laidOut_ok (h : laidOut parse refs t.foreignKeys t = .ok u) :
    Extends refs t u := by
  obtain ⟨columns, hcolumns, rfl⟩ := map_eq_ok.mp h
  refine ⟨columns, ⟨rfl, ?_, rfl, rfl, rfl⟩, rfl⟩
  exact (mapM_eq_ok.mp hcolumns).imp fun _ _ => LayoutTable.matches_of_ofColumn_ok

theorem Extends.matches_iff (h : Extends refs t u) :
    LayoutTable.Matches t u ↔ lacking t refs = [] := by
  obtain ⟨columns, hmatches, hcolumns⟩ := h
  constructor
  · intro hexact
    have hlength := hexact.columns.length_eq
    rw [hmatches.columns.length_eq, hcolumns] at hlength
    simpa using hlength
  · intro hnone
    rw [hnone, map_nil, append_nil] at hcolumns
    exact ⟨hmatches.name, hcolumns ▸ hmatches.columns, hmatches.primaryKey, hmatches.indexes,
      hmatches.foreignKeys⟩

/-- The layout of a snapshot without errors has its tables in order.  Each has
what the snapshot gives it, and behind that a column without a type for every
name under which a foreign key refers to a column that the table lacks.  So the
layout adds nothing to the snapshot if and only if all foreign keys between its
tables refer to columns that are there. -/
theorem layout_adds_only_lacking (hs : s.check.errors = []) (h : ofSnapshot parse s = .ok l) :
    Forall₂ (Extends (s.tables.flatMap (·.foreignKeys))) s.tables l ∧
    (Forall₂ LayoutTable.Matches s.tables l ↔
      ∀ t ∈ s.tables, ∀ k ∈ t.foreignKeys, ∀ u ∈ s.tables, u.name = k.refTable →
        u.HasColumn k.refColumn) := by
  rw [ofSnapshot_eq_mapM (errors_eq_nil_iff.mp hs)] at h
  have hextends : Forall₂ (Extends (s.tables.flatMap (·.foreignKeys))) s.tables l :=
    (Outcome.mapM_eq_ok.mp h).imp fun _ _ => extends_of_laidOut_ok
  have hmatches := Outcome.forall₂_iff_of_forall₂ hextends fun _ _ => Extends.matches_iff
  refine ⟨hextends, hmatches.trans ?_⟩
  simp only [lacking_eq_nil_iff, mem_flatMap]
  constructor
  · exact fun hmet t ht k hk u hu hname => hmet u hu k ⟨t, ht, hk⟩ hname.symm
  · exact fun hmet u hu k ⟨t, ht, hk⟩ hname => hmet t ht k hk u hu hname.symm

/-- A visit refers to a column that pets do not have, and they get it. -/
theorem layout_adds_only_lacking_visits :
    let s := visits "tag" "text"
    s.check.errors = [] ∧ ∃ l, ofSnapshot (ColumnType.shownIn .sqlite) s = .ok l ∧
      l.map (fun u => u.columns.map (·.name)) = [["id", "tag"], ["pet", "note"]] ∧
      ¬Forall₂ LayoutTable.Matches s.tables l := by
  intro s
  have hchecked : s.check.errors = [] := by decide
  have hlayout : ofSnapshot (ColumnType.shownIn .sqlite) s = .ok _ := rfl
  obtain ⟨-, hmatches⟩ := layout_adds_only_lacking hchecked hlayout
  refine ⟨hchecked, _, hlayout, rfl, fun hexact => ?_⟩
  obtain ⟨c, hc, hname⟩ := hmatches.mp hexact _ (.tail _ (.head _)) _ (.head _) _ (.head _) rfl
  obtain rfl := mem_singleton.mp hc
  exact absurd hname (by decide)

end Layout

end SchemaCompiler
