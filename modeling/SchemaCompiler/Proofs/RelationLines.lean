import Mathlib.Data.List.Count
import Mathlib.Data.List.Perm.Basic
import SchemaCompiler.Output.PrismaSchema
import SchemaCompiler.Proofs.ConstraintNames

/-!
# Relations between models

A column with a foreign key has a relation line beside it in the model of its
table, and the model that it refers to has a line back.  The lines back are found
in a pass of their own over all tables, by the name of the table and written with
the name of the model.  Reserved words are put in quotes in the names of models,
so two tables have one model name when one is a reserved word and the other this
word in quotes; apart from that, lines forth and back are equal in number.
-/

namespace SchemaCompiler

open List Model ModelLine

/-! ## Names of models -/

namespace Naming

variable {a b : String}

/-- A name between quotes. -/
def inQuotes (name : String) : String := "\"" ++ name ++ "\""

theorem inQuotes_notMem_reserved (name : String) : inQuotes name ∉ reserved := by
  have hfirst : (inQuotes name).toList.head? = some '"' := by
    simp [inQuotes, String.toList_append]
  intro hmem
  have hall : ∀ w ∈ reserved, w.toList.head? ≠ some '"' := by decide
  exact hall _ hmem hfirst

theorem quoteReserved_of_mem (h : a ∈ reserved) : quoteReserved a = inQuotes a := if_pos h

theorem quoteReserved_of_notMem (h : a ∉ reserved) : quoteReserved a = a := if_neg h

/-- Of two names, one is a reserved word and the other this word in quotes. -/
def Confused (a b : String) : Prop :=
  (a ∈ reserved ∧ b = inQuotes a) ∨ (b ∈ reserved ∧ a = inQuotes b)

instance (a b : String) : Decidable (Confused a b) :=
  inferInstanceAs (Decidable ((a ∈ reserved ∧ b = inQuotes a) ∨ (b ∈ reserved ∧ a = inQuotes b)))

theorem Confused.ne (h : Confused a b) : a ≠ b := by
  rintro rfl
  obtain ⟨hword, hquoted⟩ := or_self_iff.mp h
  exact inQuotes_notMem_reserved a (hquoted ▸ hword)

/-- Two names are written alike when they are one or confused. -/
theorem quoteReserved_eq_iff : quoteReserved a = quoteReserved b ↔ a = b ∨ Confused a b := by
  constructor
  · intro h
    by_cases ha : a ∈ reserved
    · by_cases hb : b ∈ reserved
      · rw [quoteReserved_of_mem ha, quoteReserved_of_mem hb] at h
        exact .inl ((String.append_right_inj "\"").mp ((String.append_left_inj "\"").mp h))
      · rw [quoteReserved_of_mem ha, quoteReserved_of_notMem hb] at h
        exact .inr (.inl ⟨ha, h.symm⟩)
    · by_cases hb : b ∈ reserved
      · rw [quoteReserved_of_notMem ha, quoteReserved_of_mem hb] at h
        exact .inr (.inr ⟨hb, h⟩)
      · rw [quoteReserved_of_notMem ha, quoteReserved_of_notMem hb] at h
        exact .inl h
  · rintro (rfl | ⟨ha, rfl⟩ | ⟨hb, rfl⟩)
    · rfl
    · rw [quoteReserved_of_mem ha, quoteReserved_of_notMem (inQuotes_notMem_reserved a)]
    · rw [quoteReserved_of_mem hb, quoteReserved_of_notMem (inQuotes_notMem_reserved b)]

end Naming

open Naming (quoteReserved Confused)

/-! ## Counting keys and lines -/

/-- The column is a key of a table of that name. -/
def Column.refersTo (c : Column) (table : String) : Bool :=
  c.foreignKey.any (·.table = table)

/-- How many columns are keys of a table of that name. -/
def Table.keysTo (t : Table) (table : String) : Nat :=
  t.columns.countP (·.refersTo table)

def ModelLine.isRelationTo (model : String) : ModelLine → Bool
  | relation _ target _ => target = model
  | _ => false

/-- How many relation lines of a model refer to another. -/
def Model.relationsTo (m : Model) (model : String) : Nat :=
  m.lines.countP (·.isRelationTo model)

/-- How many lines back of a model name another. -/
def Model.backsNaming (m : Model) (model : String) : Nat :=
  m.lines.count (.back model)

/-- Where the items of a list have keys of their own, one of them makes up a whole
count exactly if the others add nothing. -/
theorem countP_flatMap_eq_iff {α β : Type} {key : α → String} {f : α → List β} {p : β → Bool}
    {items : List α} (hkeys : (items.map key).Nodup) {a : α} (ha : a ∈ items) :
    (items.flatMap f).countP p = (f a).countP p ↔
      ∀ b ∈ items, key b ≠ key a → (f b).countP p = 0 := by
  obtain ⟨before, after, rfl⟩ := append_of_mem ha
  have hperm : (before ++ a :: after).Perm (a :: (before ++ after)) := perm_middle
  obtain ⟨hnew, _⟩ := nodup_cons.mp ((hperm.map key).nodup_iff.mp hkeys)
  rw [(hperm.flatMap_right f).countP_eq, flatMap_cons, countP_append, Nat.add_eq_left]
  simp only [countP_eq_zero, forall_mem_flatMap]
  constructor
  · intro h b hb hne
    rcases mem_cons.mp (hperm.mem_iff.mp hb) with rfl | hb
    · exact absurd rfl hne
    · exact h b hb
  · intro h b hb
    refine h b (hperm.mem_iff.mpr (mem_cons_of_mem a hb)) fun heq => ?_
    exact hnew (heq ▸ mem_map_of_mem hb)

/-- A count is that of a narrower condition exactly if nothing else meets the wider
one. -/
theorem countP_eq_iff_of_imp {α : Type} {p q : α → Bool} (h : ∀ a, q a = true → p a = true)
    (items : List α) :
    items.countP p = items.countP q ↔ ∀ a ∈ items, p a = true → q a = true := by
  rw [countP_eq_length_filter, countP_eq_length_filter, eq_comm,
    (monotone_filter_right items h).length_eq]
  constructor
  · intro hsame a ha hp
    have hmem : a ∈ items.filter q := hsame ▸ mem_filter.mpr ⟨ha, hp⟩
    exact (mem_filter.mp hmem).2
  · exact fun himp => filter_congr fun a ha => Bool.eq_iff_iff.mpr ⟨h a, himp a ha⟩

/-! ## The lines of a model -/

namespace Model

variable {s : Schema} {t : Table}

/-- The models with keys of a table, once for each key. -/
def backFields (s : Schema) (table : String) : List String :=
  s.tables.flatMap fun u => replicate (u.keysTo table) (quoteReserved u.name)

theorem backLines_eq (s : Schema) (table : String) :
    backLines s table = (backFields s table).map .back := by
  rw [backLines, backFields, map_flatMap]
  congr 1
  funext u
  rw [map_replicate, map_const', Table.keysTo, countP_eq_length_filter]
  rfl

theorem mem_backFields {s : Schema} {table x : String} :
    x ∈ backFields s table ↔ ∃ u ∈ s.tables, 0 < u.keysTo table ∧ x = quoteReserved u.name := by
  simp only [backFields, mem_flatMap, mem_replicate, Nat.pos_iff_ne_zero]

theorem filter_lines_ofTable (s : Schema) (t : Table) :
    (ofTable s t).lines.filter (·.field?.isSome) =
      t.columns.flatMap columnLines ++ (backFields s t.name).map .back := by
  have hcolumns : ∀ l ∈ t.columns.flatMap columnLines, l.field?.isSome = true := by
    intro l hl
    obtain ⟨c, -, hl⟩ := mem_flatMap.mp hl
    rw [columnLines] at hl
    rcases mem_cons.mp hl with rfl | hl
    · rfl
    · split at hl
      · cases mem_singleton.mp hl
        rfl
      · cases hl
  have hkey : (if t.primaryKey.isEmpty then [] else [key t.primaryKey]).filter
      (·.field?.isSome) = [] := by
    split
    · rfl
    · rfl
  simp only [ofTable, filter_append, filter_eq_self.mpr hcolumns, hkey, backLines_eq, filter_map]
  simp [Function.comp_def, field?]

theorem relationsTo_ofTable (s : Schema) (t : Table) (model : String) :
    (ofTable s t).relationsTo model =
      t.columns.countP fun c => c.foreignKey.any (quoteReserved ·.table = model) := by
  have hfields (l : ModelLine) :
      l.isRelationTo model = (l.isRelationTo model && l.field?.isSome) := by
    cases l <;> simp [isRelationTo, field?]
  have hbacks : ((backFields s t.name).map back).countP (·.isRelationTo model) = 0 := by
    rw [countP_map, countP_eq_zero]
    exact fun _ _ => Bool.false_ne_true
  rw [relationsTo, funext hfields, ← countP_filter, filter_lines_ofTable, countP_append,
    hbacks, Nat.add_zero]
  induction t.columns with
  | nil => rfl
  | cons c rest ih =>
    rw [flatMap_cons, countP_append, countP_cons, ih, Nat.add_comm]
    congr 1
    cases hc : c.foreignKey with
    | none => simp [columnLines, hc, isRelationTo]
    | some k => simp [columnLines, hc, isRelationTo, countP_cons]

theorem back_notMem_columnLines (columns : List Column) (model : String) :
    .back model ∉ columns.flatMap columnLines := by
  intro hmem
  obtain ⟨c, -, hc⟩ := mem_flatMap.mp hmem
  rw [columnLines] at hc
  rcases mem_cons.mp hc with hc | hc
  · cases hc
  · split at hc
    · cases mem_singleton.mp hc
    · cases hc

/-- Only the last lines can lead back. -/
theorem backsNaming_ofTable (s : Schema) (t : Table) (model : String) :
    (ofTable s t).backsNaming model = (backFields s t.name).count model := by
  rw [backsNaming, ← count_filter (p := (·.field?.isSome)) rfl, filter_lines_ofTable,
    count_append, count_eq_zero.mpr (back_notMem_columnLines _ _), Nat.zero_add,
    count_map_of_injective _ _ fun _ _ => back.inj]

/-- A line leads back for a key of the table, and for nothing else. -/
theorem back_mem_ofTable {model : String} :
    .back model ∈ (ofTable s t).lines ↔
      ∃ u ∈ s.tables, 0 < u.keysTo t.name ∧ model = quoteReserved u.name := by
  rw [← mem_backFields, ← count_pos_iff, ← count_pos_iff, ← backsNaming_ofTable]
  rfl

theorem relation_mem_ofTable {c : Column} {k : ForeignKey} (hc : c ∈ t.columns)
    (hk : c.foreignKey = some k) (s : Schema) :
    .relation c.name (quoteReserved k.table) k.column ∈ (ofTable s t).lines := by
  have hline : relation c.name (quoteReserved k.table) k.column ∈ columnLines c := by
    rw [columnLines, hk]
    exact mem_cons_of_mem _ mem_cons_self
  have hlines := mem_flatMap_of_mem hc hline
  simp only [ofTable, append_assoc]
  exact mem_append_left _ hlines

end Model

/-! ## Lines forth and back -/

namespace Schema

variable {s : Schema}

/-- The names of the tables and of those that keys refer to. -/
def namesInUse (s : Schema) : List String :=
  s.tables.flatMap fun t => t.name :: t.columns.filterMap (·.foreignKey.map (·.table))

/-- No reserved word is in use both bare and in quotes. -/
def WrittenApart (s : Schema) : Prop :=
  ∀ a ∈ s.namesInUse, ∀ b ∈ s.namesInUse, ¬Confused a b

instance (s : Schema) : Decidable s.WrittenApart :=
  inferInstanceAs (Decidable (∀ a ∈ s.namesInUse, ∀ b ∈ s.namesInUse, ¬Confused a b))

theorem name_mem_namesInUse {t : Table} (ht : t ∈ s.tables) : t.name ∈ s.namesInUse :=
  mem_flatMap_of_mem ht mem_cons_self

theorem key_mem_namesInUse {t : Table} (ht : t ∈ s.tables) {c : Column} (hc : c ∈ t.columns)
    {k : ForeignKey} (hk : c.foreignKey = some k) : k.table ∈ s.namesInUse := by
  refine mem_flatMap_of_mem ht (mem_cons_of_mem _ ?_)
  exact mem_filterMap.mpr ⟨c, hc, by rw [hk]; rfl⟩

/-- A relation line refers to a table unless it refers to one that is confused
with it. -/
theorem relationsTo_eq_iff (c : Table) (table : String) :
    (ofTable s c).relationsTo (quoteReserved table) = c.keysTo table ↔
      ∀ col ∈ c.columns, ∀ k, col.foreignKey = some k → ¬Confused k.table table := by
  rw [relationsTo_ofTable, Table.keysTo, countP_eq_iff_of_imp]
  · refine forall₂_congr fun col _ => ?_
    cases hkey : col.foreignKey with
    | none => simp
    | some k =>
      simp only [Column.refersTo, hkey, Option.any_some, decide_eq_true_eq,
        Naming.quoteReserved_eq_iff, Option.some.injEq, forall_eq']
      constructor
      · intro h hconfused
        exact hconfused.ne (h (.inr hconfused))
      · intro h heq
        exact heq.resolve_right h
  · intro col hcol
    cases hkey : col.foreignKey with
    | none => simp [Column.refersTo, hkey] at hcol
    | some k =>
      simp only [Column.refersTo, hkey, Option.any_some, decide_eq_true_eq] at hcol ⊢
      rw [hcol]

/-- A line back names a table unless it comes from one that is confused with it. -/
theorem backsNaming_eq_iff (htables : (s.tables.map (·.name)).Nodup) {c : Table}
    (hc : c ∈ s.tables) (p : Table) :
    (ofTable s p).backsNaming (quoteReserved c.name) = c.keysTo p.name ↔
      ∀ u ∈ s.tables, Confused u.name c.name → u.keysTo p.name = 0 := by
  have hcount (u : Table) : (replicate (u.keysTo p.name) (quoteReserved u.name)).countP
      (· == quoteReserved c.name) =
        if quoteReserved u.name = quoteReserved c.name then u.keysTo p.name else 0 := by
    simp [countP_replicate]
  have hown := (hcount c).trans (if_pos rfl)
  rw [backsNaming_ofTable, backFields, count_eq_countP]
  refine (Eq.congr_right hown.symm).trans ((countP_flatMap_eq_iff htables hc).trans ?_)
  refine forall₂_congr fun u _ => ?_
  rw [hcount]
  constructor
  · intro h hconfused
    have hzero := h hconfused.ne
    rwa [if_pos (Naming.quoteReserved_eq_iff.mpr (.inr hconfused))] at hzero
  · intro h hne
    split
    · rename_i heq
      exact h ((Naming.quoteReserved_eq_iff.mp heq).resolve_left hne)
    · rfl

/-- Relations are symmetric.  The lines back that name a table in the model of
another are its keys of the other, unless a table that is confused with it has one
too; its relation lines that refer to the other are these keys, unless it has one of
a table that is confused with the other.  Where names are written apart, the lines
are equal in number.  Each key has a relation line, and a line back stands in the
model of a table for a key of that table only, so a key of a table outside the schema
has none. -/
theorem relations_symmetric (htables : (s.tables.map (·.name)).Nodup) :
    (∀ p ∈ s.tables, ∀ c ∈ s.tables,
      ((ofTable s p).backsNaming (quoteReserved c.name) = c.keysTo p.name ↔
        ∀ u ∈ s.tables, Confused u.name c.name → u.keysTo p.name = 0) ∧
      ((ofTable s c).relationsTo (quoteReserved p.name) = c.keysTo p.name ↔
        ∀ col ∈ c.columns, ∀ k, col.foreignKey = some k → ¬Confused k.table p.name) ∧
      (s.WrittenApart →
        (ofTable s p).backsNaming (quoteReserved c.name) =
          (ofTable s c).relationsTo (quoteReserved p.name) ∧
        (ofTable s c).relationsTo (quoteReserved p.name) = c.keysTo p.name)) ∧
    (∀ c ∈ s.tables, ∀ col ∈ c.columns, ∀ k, col.foreignKey = some k →
      .relation col.name (quoteReserved k.table) k.column ∈ (ofTable s c).lines) ∧
    ∀ p ∈ s.tables, ∀ model, .back model ∈ (ofTable s p).lines ↔
      ∃ u ∈ s.tables, 0 < u.keysTo p.name ∧ model = quoteReserved u.name := by
  refine ⟨fun p hp c hc => ?_, fun c _ col hcol k hk => relation_mem_ofTable hcol hk s,
    fun p _ model => back_mem_ofTable⟩
  refine ⟨backsNaming_eq_iff htables hc p, relationsTo_eq_iff c p.name, fun h => ?_⟩
  have hforth := (relationsTo_eq_iff (s := s) c p.name).mpr fun col hcol k hk =>
    h _ (key_mem_namesInUse hc hcol hk) _ (name_mem_namesInUse hp)
  have hback := (backsNaming_eq_iff htables hc p).mpr fun u hu hconfused =>
    absurd hconfused (h _ (name_mem_namesInUse hu) _ (name_mem_namesInUse hc))
  exact ⟨hback.trans hforth.symm, hforth⟩

/-- Users with a manager, orders of two users each, and an origin outside. -/
def orders : Schema where
  profile := .prisma
  modules := ["app"]
  tables := [
    tagTable "Order" "order" [tagColumn "id" none,
      tagColumn "buyer" (some ⟨"user", "id", ⟨"app", "User"⟩⟩),
      tagColumn "payer" (some ⟨"user", "id", ⟨"app", "User"⟩⟩),
      tagColumn "origin" (some ⟨"archive", "id", ⟨"old", "Archive"⟩⟩)],
    tagTable "User" "user" [tagColumn "id" none,
      tagColumn "manager" (some ⟨"user", "id", ⟨"app", "User"⟩⟩)]]
  views := []

/-- The orders come back twice, the manager once and the origin not at all. -/
theorem relations_symmetric_orders :
    ∃ p ∈ orders.tables, ∃ c ∈ orders.tables, p.name = "user" ∧ c.name = "order" ∧
      (orders.tables.map (·.name)).Nodup ∧ orders.WrittenApart ∧
      (ofTable orders p).backsNaming "\"order\"" = 2 ∧
      (ofTable orders p).backsNaming "\"user\"" = 1 ∧
      .relation "origin" "archive" "id" ∈ (ofTable orders c).lines ∧
      .back "\"order\"" ∉ (ofTable orders c).lines := by
  have htables : (orders.tables.map (·.name)).Nodup := by decide +kernel
  have hapart : orders.WrittenApart := by decide +kernel
  obtain ⟨hpairs, hkeys, hbacks⟩ := relations_symmetric htables
  refine ⟨_, .tail _ (.head _), _, .head _, rfl, rfl, htables, hapart, ?_, ?_, ?_, ?_⟩
  · obtain ⟨-, -, hsame⟩ := hpairs _ (.tail _ (.head _)) _ (.head _)
    obtain ⟨hback, hforth⟩ := hsame hapart
    exact hback.trans (hforth.trans (by decide +kernel))
  · obtain ⟨-, -, hsame⟩ := hpairs _ (.tail _ (.head _)) _ (.tail _ (.head _))
    obtain ⟨hback, hforth⟩ := hsame hapart
    exact hback.trans (hforth.trans (by decide +kernel))
  · exact hkeys _ (.head _) _ (.tail _ (.tail _ (.tail _ (.head _)))) _ rfl
  · rw [hbacks _ (.head _)]
    decide +kernel

/-- A team, its users, and visitors in a table named like the users in quotes. -/
def visitors : Schema where
  profile := .prisma
  modules := ["app"]
  tables := [
    tagTable "Visitor" "\"user\"" [tagColumn "id" none],
    tagTable "Team" "team" [tagColumn "id" none],
    tagTable "User" "user" [tagColumn "id" none,
      tagColumn "team" (some ⟨"team", "id", ⟨"app", "Team"⟩⟩)]]
  views := []

/-- The team has a line back that names the visitors, who do not refer to it. -/
theorem visitors_named_back :
    (visitors.tables.map (·.name)).Nodup ∧ ∃ p ∈ visitors.tables, ∃ c ∈ visitors.tables,
      (ofTable visitors p).backsNaming (quoteReserved c.name) = 1 ∧
      (ofTable visitors c).relationsTo (quoteReserved p.name) = 0 ∧
      c.keysTo p.name = 0 := by
  refine ⟨by decide +kernel, _, .tail _ (.head _), _, .head _, ?_⟩
  decide +kernel

end Schema

end SchemaCompiler
