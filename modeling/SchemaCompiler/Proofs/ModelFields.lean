import SchemaCompiler.Proofs.RelationLines

/-!
# Fields of a model

The fields of a model are the columns of its table, a relation beside each key,
and a field back for each key of the table elsewhere.  A relation is named by its
column and the model that it refers to, a field back by a model alone.  So a
second key from one table repeats a field, and columns and tables may be named
like relations; the fields of a model are distinct exactly where none of this
happens.
-/

namespace SchemaCompiler

open List Model

open Naming (quoteReserved Confused)

/-- The name of the relation beside a key. -/
def Column.relationField? (c : Column) : Option String :=
  c.foreignKey.map fun k => c.name ++ "_" ++ quoteReserved k.table

namespace Model

/-- The names of the fields of a model, in order. -/
def fields (m : Model) : List String :=
  m.lines.filterMap (·.field?)

theorem filterMap_columnLines (c : Column) :
    (columnLines c).filterMap (·.field?) = c.name :: c.relationField?.toList := by
  rw [columnLines, Column.relationField?]
  cases c.foreignKey with
  | none | some k => rfl

theorem fields_ofTable (s : Schema) (t : Table) :
    (ofTable s t).fields =
      (t.columns.flatMap fun c => c.name :: c.relationField?.toList) ++ backFields s t.name := by
  have hfields (lines : List ModelLine) : lines.filterMap (·.field?) =
      (lines.filter (·.field?.isSome)).filterMap (·.field?) := by
    rw [filterMap_filter]
    congr 1
    funext l
    cases l.field? with
    | none | some x => rfl
  have hbacks : ((backFields s t.name).map ModelLine.back).filterMap (·.field?) =
      backFields s t.name := by
    rw [filterMap_map]
    exact filterMap_some
  rw [fields, hfields, filter_lines_ofTable, filterMap_append, hbacks,
    filterMap_flatMap, funext filterMap_columnLines]

/-- Columns, relations and fields back, one family after the other. -/
theorem fields_perm (s : Schema) (t : Table) :
    (ofTable s t).fields.Perm
      (t.columns.map (·.name) ++ t.columns.filterMap (·.relationField?)
        ++ backFields s t.name) := by
  rw [fields_ofTable, filterMap_eq_flatMap_toList]
  exact (map_append_flatMap_perm _ _ _).symm.append_right _

end Model

namespace Schema

variable {s : Schema} {t : Table}

/-- Nothing in a schema makes two fields of the model of a table the same. -/
structure FieldsApart (s : Schema) (t : Table) : Prop where
  /-- No column is named like the relation beside another. -/
  column_relation : ∀ c ∈ t.columns, ∀ d ∈ t.columns, ∀ k, d.foreignKey = some k →
    c.name ≠ d.name ++ "_" ++ quoteReserved k.table
  /-- No key starts with the column of another and the start of what that refers to. -/
  relation_relation : ∀ c ∈ t.columns, ∀ d ∈ t.columns, ∀ k l, c.foreignKey = some k →
    d.foreignKey = some l → ∀ part, d.name = c.name ++ "_" ++ part →
      quoteReserved k.table ≠ part ++ "_" ++ quoteReserved l.table
  /-- No table has two keys of this one. -/
  one_key : ∀ u ∈ s.tables, u.keysTo t.name ≤ 1
  /-- No two tables with keys of this one are confused. -/
  back_back : ∀ u ∈ s.tables, ∀ v ∈ s.tables, 0 < u.keysTo t.name → 0 < v.keysTo t.name →
    ¬Confused u.name v.name
  /-- No column is named like a table with a key of this one. -/
  column_back : ∀ c ∈ t.columns, ∀ u ∈ s.tables, 0 < u.keysTo t.name →
    c.name ≠ quoteReserved u.name
  /-- No relation is named like a table with a key of this one. -/
  relation_back : ∀ c ∈ t.columns, ∀ k, c.foreignKey = some k → ∀ u ∈ s.tables,
    0 < u.keysTo t.name → c.name ++ "_" ++ quoteReserved k.table ≠ quoteReserved u.name

theorem relationField?_eq_some {c : Column} {x : String} :
    c.relationField? = some x ↔
      ∃ k, c.foreignKey = some k ∧ x = c.name ++ "_" ++ quoteReserved k.table := by
  rw [Column.relationField?, Option.map_eq_some_iff]
  exact exists_congr fun k => and_congr_right fun _ => eq_comm

theorem mem_relationFields {x : String} :
    x ∈ t.columns.filterMap (·.relationField?) ↔ ∃ c ∈ t.columns, ∃ k, c.foreignKey = some k ∧
      x = c.name ++ "_" ++ quoteReserved k.table := by
  simp only [mem_filterMap, relationField?_eq_some]

/-- Relations repeat a name exactly where a column goes on with the start of what
another refers to. -/
theorem nodup_relationFields_iff (hcolumns : (t.columns.map (·.name)).Nodup) :
    (t.columns.filterMap (·.relationField?)).Nodup ↔
      ∀ c ∈ t.columns, ∀ d ∈ t.columns, ∀ k l, c.foreignKey = some k → d.foreignKey = some l →
        ∀ part, d.name = c.name ++ "_" ++ part →
          quoteReserved k.table ≠ part ++ "_" ++ quoteReserved l.table := by
  rw [Nodup, pairwise_filterMap]
  constructor
  · intro hpairs c hc d hd k l hk hl part hname htarget
    have hne : c ≠ d := by
      rintro rfl
      have hlength := congrArg String.length hname
      have hunderscore : "_".length = 1 := rfl
      simp only [String.length_append] at hlength
      omega
    have : Std.Symm fun a b : Column => ∀ x, a.relationField? = some x →
        ∀ y, b.relationField? = some y → x ≠ y :=
      ⟨fun a b h x hx y hy => (h y hy x hx).symm⟩
    refine hpairs.forall hc hd hne _ (relationField?_eq_some.mpr ⟨k, hk, rfl⟩) _
      (relationField?_eq_some.mpr ⟨l, hl, rfl⟩) ?_
    rw [hname, htarget]
    simp only [String.append_assoc]
  · intro hapart
    refine (pairwise_map.mp hcolumns).imp_of_mem fun {c d} hc hd hne x hx y hy hxy => ?_
    obtain ⟨k, hk, rfl⟩ := relationField?_eq_some.mp hx
    obtain ⟨l, hl, rfl⟩ := relationField?_eq_some.mp hy
    rcases underscore_eq hxy with ⟨heq, -⟩ | ⟨part, hname, htarget⟩ | ⟨part, hname, htarget⟩
    · exact hne heq
    · exact hapart c hc d hd k l hk hl part hname htarget
    · exact hapart d hd c hc l k hl hk part hname htarget

/-- Fields back repeat a name exactly where a table has two keys, or where two
tables with keys are confused. -/
theorem nodup_backFields_iff (htables : (s.tables.map (·.name)).Nodup) (table : String) :
    (backFields s table).Nodup ↔
      (∀ u ∈ s.tables, u.keysTo table ≤ 1) ∧
      ∀ u ∈ s.tables, ∀ v ∈ s.tables, 0 < u.keysTo table → 0 < v.keysTo table →
        ¬Confused u.name v.name := by
  rw [backFields, nodup_flatMap]
  refine and_congr (forall₂_congr fun u _ => nodup_replicate) ?_
  constructor
  · intro hpairs u hu v hv hukeys hvkeys hconfused
    have hne : u ≠ v := fun heq => hconfused.ne (congrArg Table.name heq)
    have : Std.Symm (Function.onFun Disjoint fun u : Table =>
        replicate (u.keysTo table) (quoteReserved u.name)) :=
      ⟨fun _ _ h x hx hy => h hy hx⟩
    refine hpairs.forall hu hv hne
      (mem_replicate.mpr ⟨hukeys.ne', rfl⟩) (mem_replicate.mpr ⟨hvkeys.ne', ?_⟩)
    exact Naming.quoteReserved_eq_iff.mpr (.inr hconfused)
  · intro hapart
    refine (pairwise_map.mp htables).imp_of_mem fun {u v} hu hv hne x hxu hxv => ?_
    obtain ⟨hukeys, rfl⟩ := mem_replicate.mp hxu
    obtain ⟨hvkeys, heq⟩ := mem_replicate.mp hxv
    rcases Naming.quoteReserved_eq_iff.mp heq with heq | hconfused
    · exact hne heq
    · exact hapart u hu v hv (Nat.pos_of_ne_zero hukeys) (Nat.pos_of_ne_zero hvkeys) hconfused

/-- The fields of a model are the columns of its table, a relation for each key
and a field back for each key elsewhere; they are distinct exactly where nothing
in the schema makes two of them the same. -/
theorem model_fields_distinct_iff (h : s.DistinctNames) (ht : t ∈ s.tables) :
    (ofTable s t).fields.Perm
      (t.columns.map (·.name) ++ t.columns.filterMap (·.relationField?)
        ++ backFields s t.name) ∧
    ((ofTable s t).fields.Nodup ↔ s.FieldsApart t) := by
  have hperm := fields_perm s t
  refine ⟨hperm, ?_⟩
  rw [hperm.nodup_iff, nodup_append, nodup_append,
    nodup_relationFields_iff (h.columns t ht), nodup_backFields_iff h.tables]
  constructor
  · rintro ⟨⟨-, hrelations, hcolumn⟩, ⟨hone, hbacks⟩, hback⟩
    refine ⟨fun c hc d hd k hk => ?_, hrelations, hone, hbacks, fun c hc u hu hkeys => ?_,
      fun c hc k hk u hu hkeys => ?_⟩
    · exact hcolumn _ (mem_map_of_mem hc) _ (mem_relationFields.mpr ⟨d, hd, k, hk, rfl⟩)
    · exact hback _ (mem_append_left _ (mem_map_of_mem hc)) _
        (mem_backFields.mpr ⟨u, hu, hkeys, rfl⟩)
    · exact hback _ (mem_append_right _ (mem_relationFields.mpr ⟨c, hc, k, hk, rfl⟩)) _
        (mem_backFields.mpr ⟨u, hu, hkeys, rfl⟩)
  · intro hapart
    refine ⟨⟨h.columns t ht, hapart.relation_relation, fun x hx y hy => ?_⟩,
      ⟨hapart.one_key, hapart.back_back⟩, fun x hx y hy => ?_⟩
    · obtain ⟨c, hc, rfl⟩ := mem_map.mp hx
      obtain ⟨d, hd, k, hk, rfl⟩ := mem_relationFields.mp hy
      exact hapart.column_relation c hc d hd k hk
    · obtain ⟨u, hu, hkeys, rfl⟩ := mem_backFields.mp hy
      rcases mem_append.mp hx with hx | hx
      · obtain ⟨c, hc, rfl⟩ := mem_map.mp hx
        exact hapart.column_back c hc u hu hkeys
      · obtain ⟨c, hc, k, hk, rfl⟩ := mem_relationFields.mp hx
        exact hapart.relation_back c hc k hk u hu hkeys

/-- Purchases with a buyer and a payer. -/
def purchases : Schema where
  profile := .prisma
  modules := ["app"]
  tables := [
    tagTable "Customer" "customer" [tagColumn "id" none],
    tagTable "Purchase" "purchase" [tagColumn "id" none,
      tagColumn "buyer" (some ⟨"customer", "id", ⟨"app", "Customer"⟩⟩),
      tagColumn "payer" (some ⟨"customer", "id", ⟨"app", "Customer"⟩⟩)]]
  views := []

/-- The purchases have fields of their own, and come back to the customer twice
under one name. -/
theorem model_fields_distinct_iff_purchases :
    purchases.DistinctNames ∧ ∃ customer ∈ purchases.tables, ∃ purchase ∈ purchases.tables,
      (ofTable purchases customer).fields = ["id", "purchase", "purchase"] ∧
      ¬purchases.FieldsApart customer ∧ purchases.FieldsApart purchase := by
  have hnames : purchases.DistinctNames := by decide +kernel
  refine ⟨hnames, _, .head _, _, .tail _ (.head _), by decide +kernel, ?_, ?_⟩
  · rw [← (model_fields_distinct_iff hnames (.head _)).2]
    decide +kernel
  · rw [← (model_fields_distinct_iff hnames (.tail _ (.head _))).2]
    decide +kernel

end Schema

end SchemaCompiler
