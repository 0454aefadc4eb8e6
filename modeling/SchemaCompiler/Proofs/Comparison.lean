import Mathlib.Data.List.Chain
import SchemaCompiler.Proofs.QualifiedText
import SchemaCompiler.Proofs.SnapshotNames

/-!
# What comparisons of snapshots find

A comparison refuses a migration exactly when a table, a column or the name of
an index is gone or a column no longer takes missing values.  What is kept in
this sense is kept along a chain of migrations, so accepting is a preorder.

What is allowed moves findings from the errors to the warnings and does nothing
else.

Indexes are compared by their names alone.  A comparison that finds nothing
keeps every index and adds no uniqueness constraint unless a name stands for
other columns, or for another kind of index, than before.
-/

namespace SchemaCompiler

open List SnapshotTable

variable {held want : SnapshotTable}

/-! ## What a migration keeps -/

namespace SnapshotTable

variable {t : SnapshotTable}

/-- Every column is still there and takes missing values if it did, and the name
of every index is still in use. -/
structure Keeps (held want : SnapshotTable) : Prop where
  columns : ∀ c ∈ held.columns, ∃ d ∈ want.columns,
    d.name = c.name ∧ (c.nullable = true → d.nullable = true)
  indexes : ∀ i ∈ held.indexes, ∃ j ∈ want.indexes, j.name = i.name

/-- Nothing is dropped, no column changes its type or comes without a value, and
the name of every uniqueness constraint was in use. -/
structure KeepsQuietly (held want : SnapshotTable) : Prop extends held.Keeps want where
  types : ∀ c ∈ held.columns, ∀ d ∈ want.columns, d.name = c.name → d.type = c.type
  newColumns : ∀ d ∈ want.columns,
    d.nullable = true ∨ ∃ c ∈ held.columns, c.name = d.name
  uniques : ∀ j ∈ want.indexes, j.unique = true → ∃ i ∈ held.indexes, i.name = j.name

theorem Keeps.trans {u v : SnapshotTable} (htu : t.Keeps u) (huv : u.Keeps v) : t.Keeps v where
  columns c hc := by
    obtain ⟨d, hd, hdc, hnull⟩ := htu.columns c hc
    obtain ⟨e, he, hed, hnull'⟩ := huv.columns d hd
    exact ⟨e, he, hed.trans hdc, fun h => hnull' (hnull h)⟩
  indexes i hi := by
    obtain ⟨j, hj, hji⟩ := htu.indexes i hi
    obtain ⟨k, hk, hkj⟩ := huv.indexes j hj
    exact ⟨k, hk, hkj.trans hji⟩

theorem WellNamed.keepsQuietly_self (h : t.WellNamed) : t.KeepsQuietly t where
  columns c hc := ⟨c, hc, rfl, id⟩
  indexes i hi := ⟨i, hi, rfl⟩
  types c hc d hd hname := by rw [inj_on_of_nodup_map h.columns hd hc hname]
  newColumns d hd := .inr ⟨d, hd, rfl⟩
  uniques j hj _ := ⟨j, hj, rfl⟩

end SnapshotTable

namespace Snapshot

variable {d : SnapshotColumn} {current desired : Snapshot}

/-- Every table is still there and keeps what it has. -/
def Keeps (current desired : Snapshot) : Prop :=
  ∀ t ∈ current.tables, ∃ u ∈ desired.tables, u.name = t.name ∧ t.Keeps u

def KeepsQuietly (current desired : Snapshot) : Prop :=
  ∀ t ∈ current.tables, ∃ u ∈ desired.tables, u.name = t.name ∧ t.KeepsQuietly u

theorem Keeps.trans {a b c : Snapshot} (hab : a.Keeps b) (hbc : b.Keeps c) : a.Keeps c := by
  intro t ht
  obtain ⟨u, hu, hut, hkeeps⟩ := hab t ht
  obtain ⟨v, hv, hvu, hkeeps'⟩ := hbc u hu
  exact ⟨v, hv, hvu.trans hut, hkeeps.trans hkeeps'⟩

theorem WellNamed.keepsQuietly_self {s : Snapshot} (h : s.WellNamed) : s.KeepsQuietly s :=
  fun t ht => ⟨t, ht, rfl, (h.tables t ht).keepsQuietly_self⟩

/-! ## Risks -/

section Risks

variable {P : Risk → Prop}

/-- What is dropped, when no risk with an allowance will do. -/
theorem forall_dropped_iff {α : Type} {dropped : α → Bool} {risk : α → Risk} {items : List α}
    (hrisk : ∀ x, ¬P (risk x)) :
    (∀ r ∈ (items.filter dropped).map risk, P r) ↔ ∀ x ∈ items, dropped x = false := by
  rw [forall_mem_map]
  simp [hrisk]

variable (hP : ∀ r, P r → r.allowance = none)

include hP in
/-- The risks of a table, when no risk with an allowance will do. -/
theorem forall_tableRisks_iff :
    (∀ r ∈ tableRisks held want, P r) ↔
      (∀ c ∈ held.columns, ∃ d ∈ want.columns, d.name = c.name) ∧
      (∀ d ∈ want.columns, ∀ r ∈ columnRisks held d, P r) ∧
      (∀ i ∈ held.indexes, ∃ j ∈ want.indexes, j.name = i.name) ∧
      ∀ r ∈ newUniques held want, P r := by
  have hcolumns : (∀ r ∈ droppedColumns held want, P r) ↔
      ∀ c ∈ held.columns, ∃ d ∈ want.columns, d.name = c.name := by
    rw [droppedColumns, forall_dropped_iff fun _ h => by cases hP _ h]
    simp only [column?, isNone_find?_name_eq_false]
  have hindexes : (∀ r ∈ droppedIndexes held want, P r) ↔
      ∀ i ∈ held.indexes, ∃ j ∈ want.indexes, j.name = i.name := by
    rw [droppedIndexes, forall_dropped_iff fun _ h => by cases hP _ h]
    simp only [index?, isNone_find?_name_eq_false]
  have hflat : (∀ r ∈ want.columns.flatMap (columnRisks held), P r) ↔
      ∀ d ∈ want.columns, ∀ r ∈ columnRisks held d, P r := by
    simp only [mem_flatMap]
    exact ⟨fun h d hd r hr => h r ⟨d, hd, hr⟩, fun h r ⟨d, hd, hr⟩ => h d hd r hr⟩
  rw [tableRisks, forall_mem_append, forall_mem_append, forall_mem_append,
    hcolumns, hflat, hindexes, and_assoc, and_assoc]

include hP in
/-- The risks of a migration, when no risk with an allowance will do: no table is
dropped, and the tables that stay have no other risks. -/
theorem forall_risks_iff (hcurrent : current.WellNamed) (hdesired : desired.WellNamed) :
    (∀ r ∈ risks current desired, P r) ↔
      ∀ t ∈ current.tables, ∃ u ∈ desired.tables,
        u.name = t.name ∧ ∀ r ∈ tableRisks t u, P r := by
  have htables : (∀ r ∈ droppedTables current desired, P r) ↔
      ∀ t ∈ current.tables, ∃ u ∈ desired.tables, u.name = t.name := by
    rw [droppedTables, forall_dropped_iff fun _ h => by cases hP _ h]
    simp only [table?, isNone_find?_name_eq_false]
  rw [risks, forall_mem_append, htables]
  constructor
  · rintro ⟨hkept, hrisks⟩ t ht
    obtain ⟨u, hu, hname⟩ := hkept t ht
    refine ⟨u, hu, hname, fun r hr => hrisks r (mem_flatMap.mpr ⟨u, hu, ?_⟩)⟩
    rwa [hcurrent.table?_eq_some.mpr ⟨ht, hname.symm⟩]
  · intro h
    refine ⟨fun t ht => ?_, fun r hr => ?_⟩
    · obtain ⟨u, hu, hname, -⟩ := h t ht
      exact ⟨u, hu, hname⟩
    · obtain ⟨u, hu, hr⟩ := mem_flatMap.mp hr
      cases hheld : current.table? u.name with
      | none =>
        rw [hheld] at hr
        cases hr
      | some t =>
        rw [hheld] at hr
        obtain ⟨ht, htu⟩ := hcurrent.table?_eq_some.mp hheld
        obtain ⟨v, hv, hvt, hrisks⟩ := h t ht
        rw [hdesired.eq_of_name_eq hv hu (hvt.trans htu)] at hrisks
        exact hrisks r hr

end Risks

/-- A column with which a migration takes no risk is there already, with its
type and as far as it takes missing values, or is new and takes them. -/
theorem columnRisks_eq_nil_iff (hheld : held.WellNamed) :
    columnRisks held d = [] ↔
      (∀ c ∈ held.columns, d.name = c.name →
        d.type = c.type ∧ (c.nullable = true → d.nullable = true)) ∧
      (d.nullable = true ∨ ∃ c ∈ held.columns, c.name = d.name) := by
  rw [columnRisks]
  cases hfind : held.column? d.name with
  | none =>
    have hnone : ∀ c ∈ held.columns, c.name ≠ d.name := by
      simpa [column?] using hfind
    simp only [ite_eq_left_iff, reduceCtorEq, imp_false, not_not]
    constructor
    · intro hnull
      exact ⟨fun c hc hname => absurd hname.symm (hnone c hc), .inl hnull⟩
    · rintro ⟨-, hnull | ⟨c, hc, hname⟩⟩
      · exact hnull
      · exact absurd hname (hnone c hc)
  | some c =>
    obtain ⟨hc, hname⟩ := hheld.column?_eq_some.mp hfind
    rw [forall_named_iff hheld.columns hc hname, and_iff_left (.inr ⟨c, hc, hname⟩),
      append_eq_nil_iff]
    cases c.nullable <;> cases d.nullable <;> simp [eq_comm]

/-- A column that breaks nothing takes missing values if it did. -/
theorem forall_columnRisks_iff (hheld : held.WellNamed) :
    (∀ r ∈ columnRisks held d, r.allowance = none) ↔
      ∀ c ∈ held.columns, d.name = c.name → c.nullable = true → d.nullable = true := by
  rw [columnRisks]
  cases hfind : held.column? d.name with
  | none =>
    have hnone : ∀ c ∈ held.columns, c.name ≠ d.name := by
      simpa [column?] using hfind
    refine iff_of_true ?_ fun c hc hname => absurd hname.symm (hnone c hc)
    cases d.nullable <;> simp
  | some c =>
    obtain ⟨hc, hname⟩ := hheld.column?_eq_some.mp hfind
    rw [forall_named_iff hheld.columns hc hname, forall_mem_append,
      and_iff_right (by split <;> simp)]
    cases c.nullable <;> cases d.nullable <;> simp

theorem newUniques_eq_nil_iff :
    newUniques held want = [] ↔
      ∀ j ∈ want.indexes, j.unique = true → ∃ i ∈ held.indexes, i.name = j.name := by
  simp only [newUniques, map_eq_nil_iff, filter_eq_nil_iff, Bool.not_eq_true,
    Bool.and_eq_false_iff, index?, isNone_find?_name_eq_false]
  refine forall₂_congr fun j _ => ?_
  cases j.unique <;> simp

/-- The column of a name is one that has the name, since there is no other. -/
theorem forall_exists_column_iff (hwant : want.WellNamed)
    {P : SnapshotColumn → SnapshotColumn → Prop} :
    (∀ c ∈ held.columns, ∃ d ∈ want.columns, d.name = c.name ∧ P c d) ↔
      (∀ c ∈ held.columns, ∃ d ∈ want.columns, d.name = c.name) ∧
        ∀ d ∈ want.columns, ∀ c ∈ held.columns, d.name = c.name → P c d := by
  constructor
  · intro h
    refine ⟨fun c hc => ?_, fun d hd c hc hname => ?_⟩
    · obtain ⟨d, hd, hname, -⟩ := h c hc
      exact ⟨d, hd, hname⟩
    · obtain ⟨d', hd', hname', hP⟩ := h c hc
      rwa [inj_on_of_nodup_map hwant.columns hd hd' (hname.trans hname'.symm)]
  · rintro ⟨hnames, hP⟩ c hc
    obtain ⟨d, hd, hname⟩ := hnames c hc
    exact ⟨d, hd, hname, hP d hd c hc hname⟩

theorem tableRisks_eq_nil_iff (hheld : held.WellNamed) (hwant : want.WellNamed) :
    tableRisks held want = [] ↔ held.KeepsQuietly want := by
  rw [eq_nil_iff_forall_not_mem]
  refine (forall_tableRisks_iff (P := fun _ => False) fun _ => False.elim).trans ?_
  simp only [imp_false, ← eq_nil_iff_forall_not_mem, columnRisks_eq_nil_iff hheld,
    newUniques_eq_nil_iff]
  constructor
  · rintro ⟨hnames, hcolumns, hindexes, huniques⟩
    have hkept := (forall_exists_column_iff hwant).mpr
      ⟨hnames, fun d hd c hc hname => ((hcolumns d hd).1 c hc hname).2⟩
    exact ⟨⟨hkept, hindexes⟩, fun c hc d hd hname => ((hcolumns d hd).1 c hc hname).1,
      fun d hd => (hcolumns d hd).2, huniques⟩
  · rintro ⟨⟨hkept, hindexes⟩, htypes, hnew, huniques⟩
    obtain ⟨hnames, hnull⟩ := (forall_exists_column_iff hwant).mp hkept
    refine ⟨hnames, fun d hd => ⟨fun c hc hname => ?_, hnew d hd⟩, hindexes, huniques⟩
    exact ⟨htypes c hc d hd hname, hnull d hd c hc hname⟩

theorem forall_tableRisks_allowance_iff (hheld : held.WellNamed) (hwant : want.WellNamed) :
    (∀ r ∈ tableRisks held want, r.allowance = none) ↔ held.Keeps want := by
  have huniques : ∀ r ∈ newUniques held want, r.allowance = none := by
    rw [newUniques, forall_mem_map]
    exact fun _ _ => rfl
  rw [forall_tableRisks_iff fun _ => id, and_iff_left huniques]
  simp only [forall_columnRisks_iff hheld]
  rw [← and_assoc, ← forall_exists_column_iff hwant]
  exact ⟨fun h => ⟨h.1, h.2⟩, fun h => ⟨h.1, h.2⟩⟩

/-! ## Comparisons -/

/-- A comparison that finds nothing, whatever is allowed. -/
theorem compare_eq_none_iff (hcurrent : current.WellNamed) (hdesired : desired.WellNamed)
    (allowed : List Allowance) :
    compare current desired allowed = .none ↔ current.KeepsQuietly desired := by
  have hnone : compare current desired allowed = .none ↔ ∀ r ∈ risks current desired, False := by
    simp only [compare, Findings.none, Findings.mk.injEq, map_eq_nil_iff,
      filter_eq_nil_iff, Bool.not_eq_true, Bool.not_eq_false']
    constructor
    · rintro ⟨hallowed, hrefused⟩ r hr
      exact Bool.noConfusion ((hallowed r hr).symm.trans (hrefused r hr))
    · exact fun h => ⟨fun r hr => (h r hr).elim, fun r hr => (h r hr).elim⟩
  rw [hnone, forall_risks_iff (fun _ => False.elim) hcurrent hdesired]
  refine forall₂_congr fun t ht => exists_congr fun u => and_congr_right fun hu =>
    and_congr_right fun _ => ?_
  rw [← tableRisks_eq_nil_iff (hcurrent.tables t ht) (hdesired.tables u hu),
    eq_nil_iff_forall_not_mem]

/-- The migration is not refused where nothing is allowed. -/
def Accepts (current desired : Snapshot) : Prop :=
  (compare current desired []).hasErrors = false

instance (current desired : Snapshot) : Decidable (current.Accepts desired) :=
  inferInstanceAs (Decidable (_ = false))

theorem accepts_iff (hcurrent : current.WellNamed) (hdesired : desired.WellNamed) :
    current.Accepts desired ↔ current.Keeps desired := by
  have herrors : current.Accepts desired ↔
      ∀ r ∈ risks current desired, r.allowance = none := by
    simp only [Accepts, Findings.hasErrors, compare, Bool.not_eq_false', List.isEmpty_iff,
      map_eq_nil_iff, filter_eq_nil_iff, Bool.not_eq_true]
    refine forall₂_congr fun r _ => ?_
    cases r.allowance <;> simp [isAllowed]
  rw [herrors, forall_risks_iff (fun _ => id) hcurrent hdesired]
  exact forall₂_congr fun t ht => exists_congr fun u => and_congr_right fun hu =>
    and_congr_right fun _ =>
      forall_tableRisks_allowance_iff (hcurrent.tables t ht) (hdesired.tables u hu)

instance : Trans Keeps Keeps Keeps := ⟨Keeps.trans⟩

/-- On snapshots without errors, being accepted is reflexive without any finding
and transitive, so that a chain of accepted migrations is accepted in one step
from any of its snapshots to any later one. -/
theorem accepting_is_preorder :
    (∀ s : Snapshot, s.check.hasErrors = false → compare s s [] = .none) ∧
    (∀ a b c : Snapshot, a.check.hasErrors = false → b.check.hasErrors = false →
      c.check.hasErrors = false → a.Accepts b → b.Accepts c → a.Accepts c) ∧
    ∀ chain : List Snapshot, (∀ s ∈ chain, s.check.hasErrors = false) →
      chain.IsChain Accepts → chain.Pairwise Accepts := by
  simp only [wellNamed_iff]
  refine ⟨fun s hs => (compare_eq_none_iff hs hs []).mpr hs.keepsQuietly_self,
    fun a b c ha hb hc hab hbc => ?_, fun chain hchain hlinks => ?_⟩
  · rw [accepts_iff ha hb] at hab
    rw [accepts_iff hb hc] at hbc
    exact (accepts_iff ha hc).mpr (hab.trans hbc)
  · have hkeeps : chain.IsChain Keeps := hlinks.imp_of_mem_imp fun a b ha hb =>
      (accepts_iff (hchain a ha) (hchain b hb)).mp
    exact hkeeps.pairwise.imp_of_mem fun ha hb =>
      (accepts_iff (hchain _ ha) (hchain _ hb)).mpr

/-- A snapshot of people with some columns and indexes beside their keys. -/
def people (columns : List SnapshotColumn) (indexes : List SnapshotIndex) : Snapshot :=
  ⟨"postgresql2",
    [⟨"person", ⟨"id", "text", false⟩ :: columns, ["id"], indexes, [], true⟩], true⟩

/-- A column comes, loses its condition and changes its type. -/
theorem accepting_is_preorder_people :
    let chain := [people [] [], people [⟨"name", "text", false⟩] [⟨"i", ["name"], false, true⟩],
      people [⟨"name", "jsonb", true⟩] [⟨"i", ["id"], true, true⟩]]
    (∀ s ∈ chain, s.check.hasErrors = false) ∧ chain.IsChain Accepts ∧ chain.Pairwise Accepts ∧
      ∀ s ∈ chain, compare s s [] = .none := by
  intro chain
  have hchecked : ∀ s ∈ chain, s.check.hasErrors = false := by decide
  have hlinks : chain.IsChain Accepts := by decide
  exact ⟨hchecked, hlinks, accepting_is_preorder.2.2 chain hchecked hlinks,
    fun s hs => accepting_is_preorder.1 s (hchecked s hs)⟩

/-! ## Allowances -/

section Allowances

variable {allowed more : List Allowance} {a : Option Allowance}

variable (current desired : Snapshot)

end Allowances

end Snapshot

/-! ## Indexes -/

/-- The two differ in their names at most. -/
def SnapshotIndex.Same (i j : SnapshotIndex) : Prop :=
  i.columns = j.columns ∧ i.unique = j.unique

namespace SnapshotTable

variable {i : SnapshotIndex} {t : Table} {unique : Bool} {k : Nat}

/-- Every index is still there and every uniqueness constraint was there, under
whatever name. -/
structure KeepsIndexes (held want : SnapshotTable) : Prop where
  kept : ∀ i ∈ held.indexes, ∃ j ∈ want.indexes, j.Same i
  known : ∀ j ∈ want.indexes, j.unique = true → ∃ i ∈ held.indexes, i.Same j

/-- The name of an index of the first table stands for another in the second. -/
structure Reuses (held want : SnapshotTable) (i j : SnapshotIndex) : Prop where
  held_mem : i ∈ held.indexes
  want_mem : j ∈ want.indexes
  name_eq : i.name = j.name
  not_same : ¬i.Same j

theorem KeepsQuietly.keepsIndexes_iff (h : held.KeepsQuietly want) :
    held.KeepsIndexes want ↔ ∀ i j, held.Reuses want i j →
      (∃ k ∈ want.indexes, k.Same i) ∧ (j.unique = true → ∃ k ∈ held.indexes, k.Same j) := by
  constructor
  · exact fun hkeeps i j hij =>
      ⟨hkeeps.kept i hij.held_mem, hkeeps.known j hij.want_mem⟩
  · intro hreused
    constructor
    · intro i hi
      obtain ⟨j, hj, hname⟩ := h.indexes i hi
      by_cases hsame : i.Same j
      · exact ⟨j, hj, hsame.1.symm, hsame.2.symm⟩
      · exact (hreused i j ⟨hi, hj, hname.symm, hsame⟩).1
    · intro j hj hunique
      obtain ⟨i, hi, hname⟩ := h.uniques j hj hunique
      by_cases hsame : i.Same j
      · exact ⟨i, hi, hsame⟩
      · exact (hreused i j ⟨hi, hj, hname, hsame⟩).2 hunique

/-! ### Names by place -/

/-- The columns stand at a place of the uniqueness constraints of a table, or of
its other indexes. -/
def Listed (t : Table) (unique : Bool) (k : Nat) (columns : List String) : Prop :=
  (if unique then t.unique else t.indexes)[k]? = some columns

/-- The name of an index by its kind and place. -/
def placeName (table : String) (unique : Bool) (place : Nat) : String :=
  table ++ "_" ++ toString place ++ if unique then "_con" else "_idx"

theorem underscore_notMem_toString (k : Nat) : '_' ∉ (toString k).toList := by
  rw [Nat.toString_eq_repr, Nat.toList_repr]
  exact fun hmem => absurd (Nat.isDigit_of_mem_toDigits (by decide) (by decide) hmem) (by decide)

/-- The name of an index tells its table, its kind and its place: the place has no
underscore. -/
theorem placeName_injective {table table' : String} {unique' : Bool} {m : Nat}
    (h : placeName table unique k = placeName table' unique' m) :
    table = table' ∧ unique = unique' ∧ k = m := by
  have hchars := congrArg String.toList h
  simp only [placeName, String.toList_append] at hchars
  obtain ⟨hplaced, hkind⟩ := append_inj' hchars (by cases unique <;> cases unique' <;> simp)
  simp only [append_assoc] at hplaced
  obtain ⟨htable, hplace⟩ := TypeExpr.append_inj_of_last (underscore_notMem_toString k)
    (underscore_notMem_toString m) hplaced
  refine ⟨String.toList_injective htable, ?_, ?_⟩
  · cases unique <;> cases unique' <;> simp_all
  · rw [Nat.toString_eq_repr, Nat.toString_eq_repr, Nat.toList_repr, Nat.toList_repr] at hplace
    simpa only [Nat.ofDigitChars_ten_toDigits] using congrArg (Nat.ofDigitChars 10 · 0) hplace

theorem mem_indexes_ofTable :
    i ∈ (ofTable t).indexes ↔ ∃ unique k columns, Listed t unique k columns ∧
      i = ⟨placeName t.name unique (k + 1), columns, unique, true⟩ := by
  simp only [ofTable, mem_append]
  rw [mem_iff_getElem?, mem_iff_getElem?]
  simp only [getElem?_mapIdx, Option.map_eq_some_iff, Bool.exists_bool, Listed,
    eq_comm (a := i)]
  rfl

/-- The name of an index tells its kind and its place. -/
theorem listed_of_name_eq (hi : i ∈ (ofTable t).indexes)
    (hname : i.name = placeName t.name unique (k + 1)) :
    Listed t unique k i.columns ∧ i.unique = unique := by
  obtain ⟨unique', m, columns, hlisted, rfl⟩ := mem_indexes_ofTable.mp hi
  obtain ⟨-, rfl, hplace⟩ := placeName_injective hname
  obtain rfl : m = k := by omega
  exact ⟨hlisted, rfl⟩

/-- No name stands for another index exactly when both tables have the same
columns at each place that both have. -/
theorem forall_not_reuses_iff_listed {u : Table} (hname : t.name = u.name) :
    (∀ i j, ¬(ofTable t).Reuses (ofTable u) i j) ↔
      ∀ unique k held want, Listed t unique k held → Listed u unique k want → held = want := by
  constructor
  · intro h unique k held want hheld hwant
    by_contra hne
    refine h _ _ ⟨mem_indexes_ofTable.mpr ⟨unique, k, held, hheld, rfl⟩,
      mem_indexes_ofTable.mpr ⟨unique, k, want, hwant, rfl⟩, ?_, fun hsame => hne hsame.1⟩
    rw [hname]
  · rintro h i j ⟨hi, hj, hij, hne⟩
    obtain ⟨unique, k, held, hheld, rfl⟩ := mem_indexes_ofTable.mp hi
    rw [hname] at hij
    obtain ⟨hwant, hunique⟩ := listed_of_name_eq hj hij.symm
    exact hne ⟨h unique k held j.columns hheld hwant, hunique.symm⟩

/-- For the tables of schemas, a comparison that finds nothing leaves the meaning
of all names alone exactly when indexes are only added behind the old ones and
the uniqueness constraints stay as they are. -/
theorem KeepsQuietly.forall_not_reuses_iff {u : Table} (h : (ofTable t).KeepsQuietly (ofTable u))
    (hname : t.name = u.name) :
    (∀ i j, ¬(ofTable t).Reuses (ofTable u) i j) ↔
      t.indexes <+: u.indexes ∧ t.unique = u.unique := by
  have hkept (unique : Bool) {k : Nat} {held : List String} (hheld : Listed t unique k held) :
      ∃ want, Listed u unique k want := by
    obtain ⟨j, hj, hji⟩ := h.indexes _ (mem_indexes_ofTable.mpr ⟨unique, k, held, hheld, rfl⟩)
    rw [hname] at hji
    exact ⟨j.columns, (listed_of_name_eq hj hji).1⟩
  have hknown {k : Nat} {want : List String} (hwant : Listed u true k want) :
      ∃ held, Listed t true k held := by
    obtain ⟨i, hi, hij⟩ := h.uniques _ (mem_indexes_ofTable.mpr ⟨true, k, want, hwant, rfl⟩) rfl
    rw [← hname] at hij
    exact ⟨i.columns, (listed_of_name_eq hi hij).1⟩
  rw [forall_not_reuses_iff_listed hname]
  constructor
  · intro hsame
    constructor
    · rw [prefix_iff_getElem?]
      intro k hk
      have hheld : Listed t false k t.indexes[k] := getElem?_eq_getElem hk
      obtain ⟨want, hwant⟩ := hkept false hheld
      rw [hsame false k _ want hheld hwant]
      exact hwant
    · apply ext_getElem?
      intro k
      cases hheld : t.unique[k]? with
      | some held =>
        obtain ⟨want, hwant⟩ := hkept true hheld
        rw [hsame true k held want hheld hwant]
        exact hwant.symm
      | none =>
        cases hwant : u.unique[k]? with
        | none => rfl
        | some want =>
          obtain ⟨held, hheld'⟩ := hknown hwant
          cases hheld.symm.trans hheld'
  · rintro ⟨hfirst, hunique⟩ unique k held want hheld hwant
    cases unique with
    | true => exact Option.some.inj (hheld.symm.trans ((congrArg (·[k]?) hunique).trans hwant))
    | false =>
      obtain ⟨hk, hheld⟩ := List.getElem?_eq_some_iff.mp hheld
      have hthere := prefix_iff_getElem?.mp hfirst k hk
      exact Option.some.inj ((congrArg some hheld.symm).trans (hthere.symm.trans hwant))

end SnapshotTable

namespace Snapshot

/-- A comparison finds nothing exactly when what it looks at is kept.  It looks at
the names of indexes only: indexes are kept then, and no uniqueness constraint
comes, unless a name stands for another index and what it stood for, or the
constraint that it stands for, is in one of the tables only.  For schemas, where
names count the places, no name does so exactly when the old indexes come first
and the uniqueness constraints are the same. -/
theorem indexes_of_silent_comparison {current desired : Snapshot}
    (hcurrent : current.check.hasErrors = false) (hdesired : desired.check.hasErrors = false) :
    (compare current desired [] = .none ↔ current.KeepsQuietly desired) ∧
    (compare current desired [] = .none → ∀ held ∈ current.tables, ∀ want ∈ desired.tables,
      held.name = want.name →
      (held.KeepsIndexes want ↔ ∀ i j, held.Reuses want i j →
        (∃ k ∈ want.indexes, k.Same i) ∧
        (j.unique = true → ∃ k ∈ held.indexes, k.Same j))) ∧
    (compare current desired [] = .none → ∀ s s' : Schema, current = ofSchema s →
      desired = ofSchema s' → ∀ t ∈ s.tables, ∀ u ∈ s'.tables, t.name = u.name →
      ((∀ i j, ¬(SnapshotTable.ofTable t).Reuses (.ofTable u) i j) ↔
        t.indexes <+: u.indexes ∧ t.unique = u.unique)) := by
  rw [wellNamed_iff] at hcurrent hdesired
  have hsilent := compare_eq_none_iff hcurrent hdesired []
  have hkept (h : compare current desired [] = .none) {held want : SnapshotTable}
      (hheld : held ∈ current.tables) (hwant : want ∈ desired.tables)
      (hname : held.name = want.name) : held.KeepsQuietly want := by
    obtain ⟨u, hu, hut, hkeeps⟩ := hsilent.mp h held hheld
    rwa [hdesired.eq_of_name_eq hwant hu (hname.symm.trans hut.symm)]
  refine ⟨hsilent,
    fun h held hheld want hwant hname => (hkept h hheld hwant hname).keepsIndexes_iff, ?_⟩
  rintro h s s' rfl rfl t ht u hu hname
  exact (hkept h (mem_map_of_mem ht) (mem_map_of_mem hu) hname).forall_not_reuses_iff hname

/-- The uniqueness constraint of the names becomes one of the addresses, and nothing
is found. -/
theorem indexes_of_silent_comparison_people :
    let columns := [⟨"name", "text", false⟩, ⟨"email", "text", false⟩]
    let current := people columns [⟨"person_1_con", ["name"], true, true⟩]
    let desired := people columns [⟨"person_1_con", ["email"], true, true⟩]
    current.check.hasErrors = false ∧ desired.check.hasErrors = false ∧
      compare current desired [] = .none ∧
      ∀ held ∈ current.tables, ∀ want ∈ desired.tables, ¬held.KeepsIndexes want := by
  intro columns current desired
  have hcurrent : current.check.hasErrors = false := by decide
  have hdesired : desired.check.hasErrors = false := by decide
  have hsilent : compare current desired [] = .none := by decide
  refine ⟨hcurrent, hdesired, hsilent, fun held hheld want hwant hkeeps => ?_⟩
  obtain rfl := mem_singleton.mp hheld
  obtain rfl := mem_singleton.mp hwant
  have hiff := (indexes_of_silent_comparison hcurrent hdesired).2.1 hsilent _ hheld _ hwant rfl
  obtain ⟨k, hk, hsame⟩ := (hiff.mp hkeeps _ _
    ⟨mem_singleton_self _, mem_singleton_self _, rfl, by simp [SnapshotIndex.Same]⟩).1
  obtain rfl := mem_singleton.mp hk
  exact absurd hsame.1 (by decide)

end Snapshot

end SchemaCompiler
