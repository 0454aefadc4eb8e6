import Mathlib.Data.List.Nodup
import SchemaCompiler.Migration.Finding

/-!
# Names in snapshots

The check of a snapshot finds no error exactly when the names of its tables,
and of the columns and indexes of each table, are distinct and every column
that a key or an index names is there.  A name then finds the one part that
has it.
-/

namespace SchemaCompiler

open List

variable {t : SnapshotTable}

/-! ## Finding parts by their names -/

section Find

variable {α : Type} {name : α → String} {items : List α} {n : String} {x : α}

theorem isNone_find?_name_eq_false :
    (items.find? (name · = n)).isNone = false ↔ ∃ x ∈ items, name x = n := by
  rw [Option.isNone_eq_false_iff, find?_isSome]
  simp

/-- Where names are distinct, a name finds the one item that has it. -/
theorem find?_name_eq_some (hnames : (items.map name).Nodup) :
    items.find? (name · = n) = some x ↔ x ∈ items ∧ name x = n := by
  constructor
  · intro h
    exact ⟨List.mem_of_find?_eq_some h, by simpa using List.find?_some h⟩
  · rintro ⟨hx, rfl⟩
    obtain ⟨y, hy⟩ := Option.isSome_iff_exists.mp
      (find?_isSome.mpr ⟨x, hx, decide_eq_true rfl⟩ : (items.find? (name · = name x)).isSome = true)
    have hname : name y = name x := by simpa using List.find?_some hy
    rw [hy, inj_on_of_nodup_map hnames (List.mem_of_find?_eq_some hy) hx hname]

/-- What holds of all items of a name holds of the one that has it. -/
theorem forall_named_iff (hnames : (items.map name).Nodup) (hx : x ∈ items) (hname : name x = n)
    {P : α → Prop} : (∀ y ∈ items, n = name y → P y) ↔ P x := by
  constructor
  · exact fun h => h x hx hname.symm
  · intro h y hy hy'
    rwa [inj_on_of_nodup_map hnames hy hx (hy'.symm.trans hname.symm)]

end Find

/-! ## Snapshots without errors -/

namespace SnapshotTable

/-- Some column has the name. -/
def HasColumn (t : SnapshotTable) (name : String) : Prop :=
  ∃ c ∈ t.columns, c.name = name

/-- Columns and indexes have names of their own, and every column that is named
is there. -/
structure WellNamed (t : SnapshotTable) : Prop where
  columns : (t.columns.map (·.name)).Nodup
  primaryKey : ∀ name ∈ t.primaryKey, t.HasColumn name
  indexes : (t.indexes.map (·.name)).Nodup
  indexColumns : ∀ i ∈ t.indexes, ∀ name ∈ i.columns, t.HasColumn name
  foreignKeys : ∀ k ∈ t.foreignKeys, t.HasColumn k.column

theorem WellNamed.column?_eq_some (h : t.WellNamed) {name : String} {c : SnapshotColumn} :
    t.column? name = some c ↔ c ∈ t.columns ∧ c.name = name :=
  find?_name_eq_some h.columns

end SnapshotTable

namespace Snapshot

variable {s : Snapshot} {name : String} {seen : List String}

/-- Tables have names of their own and are well named themselves. -/
structure WellNamed (s : Snapshot) : Prop where
  names : (s.tables.map (·.name)).Nodup
  tables : ∀ t ∈ s.tables, t.WellNamed

theorem WellNamed.table?_eq_some (h : s.WellNamed) :
    s.table? name = some t ↔ t ∈ s.tables ∧ t.name = name :=
  find?_name_eq_some h.names

theorem WellNamed.eq_of_name_eq (h : s.WellNamed) {u : SnapshotTable} (ht : t ∈ s.tables)
    (hu : u ∈ s.tables) (hname : t.name = u.name) : t = u :=
  inj_on_of_nodup_map h.names ht hu hname

/-! ## The check -/

theorem repeated_cons_eq_nil_iff {names : List String} {n : String} :
    repeated seen (n :: names) = [] ↔ n ∉ seen ∧ repeated (n :: seen) names = [] := by
  rw [repeated]
  by_cases hn : n ∈ seen <;> simp [hn]

theorem repeated_eq_nil_iff {names : List String} :
    repeated seen names = [] ↔ names.Nodup ∧ ∀ n ∈ names, n ∉ seen := by
  induction names generalizing seen with
  | nil => simp [repeated]
  | cons n names ih =>
    rw [repeated_cons_eq_nil_iff, ih, nodup_cons, forall_mem_cons]
    constructor
    · rintro ⟨hn, hnodup, hseen⟩
      refine ⟨⟨fun hmem => hseen n hmem mem_cons_self, hnodup⟩, hn, ?_⟩
      exact fun x hx hmem => hseen x hx (mem_cons_of_mem n hmem)
    · rintro ⟨⟨hfresh, hnodup⟩, hn, hseen⟩
      refine ⟨hn, hnodup, fun x hx hmem => ?_⟩
      rcases mem_cons.mp hmem with rfl | hmem
      · exact hfresh hx
      · exact hseen x hx hmem

theorem hasColumn_iff : hasColumn t name = true ↔ t.HasColumn name := by
  simp [hasColumn, SnapshotTable.HasColumn]

theorem columnErrors_eq_nil_iff : columnErrors t = [] ↔ (t.columns.map (·.name)).Nodup := by
  simp [columnErrors, repeated_eq_nil_iff]

theorem keyErrors_eq_nil_iff : keyErrors t = [] ↔ ∀ name ∈ t.primaryKey, t.HasColumn name := by
  simp [keyErrors, hasColumn_iff]

theorem indexColumnErrors_eq_nil_iff {i : SnapshotIndex} :
    indexColumnErrors t i = [] ↔ ∀ name ∈ i.columns, t.HasColumn name := by
  simp [indexColumnErrors, hasColumn_iff]

theorem foreignKeyErrors_eq_nil_iff :
    foreignKeyErrors t = [] ↔ ∀ k ∈ t.foreignKeys, t.HasColumn k.column := by
  simp [foreignKeyErrors, hasColumn_iff]

/-- The errors of a pass over named items: a name that was seen before, and what
is wrong with an item itself. -/
theorem pass_eq_nil_iff {α : Type} {name : α → String} {own : α → List Finding}
    {f : List String → List α → List Finding} {again : α → Finding} (hnil : ∀ seen, f seen [] = [])
    (hcons : ∀ seen x rest, f seen (x :: rest) =
      (if seen.contains (name x) then [again x] else []) ++ own x ++ f (name x :: seen) rest)
    {items : List α} :
    f seen items = [] ↔
      repeated seen (items.map name) = [] ∧ ∀ x ∈ items, own x = [] := by
  induction items generalizing seen with
  | nil => simp [hnil, repeated]
  | cons x items ih =>
    have hfresh : (if seen.contains (name x) then [again x] else []) = [] ↔ name x ∉ seen := by
      simp
    rw [hcons, append_eq_nil_iff, append_eq_nil_iff, hfresh, ih, map_cons,
      repeated_cons_eq_nil_iff, forall_mem_cons]
    tauto

theorem indexErrors_eq_nil_iff :
    indexErrors t [] t.indexes = [] ↔ (t.indexes.map (·.name)).Nodup ∧
      ∀ i ∈ t.indexes, ∀ name ∈ i.columns, t.HasColumn name := by
  rw [pass_eq_nil_iff (f := indexErrors t) (fun _ => rfl) (fun _ _ _ => rfl),
    repeated_eq_nil_iff]
  simp [indexColumnErrors_eq_nil_iff]

theorem tableErrors_eq_nil_iff : tableErrors t = [] ↔ t.WellNamed := by
  rw [tableErrors, append_eq_nil_iff, append_eq_nil_iff, append_eq_nil_iff,
    columnErrors_eq_nil_iff, keyErrors_eq_nil_iff, indexErrors_eq_nil_iff,
    foreignKeyErrors_eq_nil_iff]
  constructor
  · rintro ⟨⟨⟨hcolumns, hkey⟩, hindexes, hindexColumns⟩, hforeign⟩
    exact ⟨hcolumns, hkey, hindexes, hindexColumns, hforeign⟩
  · rintro ⟨hcolumns, hkey, hindexes, hindexColumns, hforeign⟩
    exact ⟨⟨⟨hcolumns, hkey⟩, hindexes, hindexColumns⟩, hforeign⟩

theorem errors_eq_nil_iff : s.check.errors = [] ↔ s.WellNamed := by
  rw [check, pass_eq_nil_iff (f := tablesErrors) (fun _ => rfl) (fun _ _ _ => rfl),
    repeated_eq_nil_iff]
  simp only [tableErrors_eq_nil_iff]
  constructor
  · rintro ⟨⟨hnames, -⟩, htables⟩
    exact ⟨hnames, htables⟩
  · rintro ⟨hnames, htables⟩
    exact ⟨⟨hnames, by simp⟩, htables⟩

theorem wellNamed_iff : s.check.hasErrors = false ↔ s.WellNamed := by
  rw [← errors_eq_nil_iff, Findings.hasErrors, Bool.not_eq_false', List.isEmpty_iff]

end Snapshot

end SchemaCompiler
