import SchemaCompiler.Output.MigrationPlan
import SchemaCompiler.Proofs.AliasColumns
import SchemaCompiler.Proofs.Comparison
import SchemaCompiler.Proofs.Layouts
import SchemaCompiler.Proofs.SnapshotText

/-!
# Planning converges

The snapshot that a plan leaves behind is read back as the snapshot of the
schema.  So the next plan for the same graph starts from where it is to end: it
finds nothing to report.  In the layout of a well-named snapshot each name stands
for one part, so there are no statements either.
-/

namespace SchemaCompiler

open Outcome

/-! ## No change from a layout to itself -/

/-- Items with distinct names, compared by name with themselves: if an item does
not differ from itself, nothing goes, differs or comes. -/
theorem compared_self_eq_nil {α β : Type} {name : α → String} {items : List α}
    (hnames : (items.map name).Nodup) {differs : α → Option β} {comes : α → β}
    (hsame : ∀ x, items.find? (name · = name x) = some x → differs x = none) :
    items.filterMap differs ++
      (items.filter fun x => (items.find? (name · = name x)).isNone).map comes = [] := by
  have hfound : ∀ x ∈ items, items.find? (name · = name x) = some x := fun x hx =>
    (find?_name_eq_some hnames).mpr ⟨hx, rfl⟩
  rw [List.append_eq_nil_iff, List.filterMap_eq_nil_iff, List.map_eq_nil_iff,
    List.filter_eq_nil_iff]
  constructor
  · exact fun x hx => hsame x (hfound x hx)
  · intro x hx
    simp [hfound x hx]

namespace LayoutTable

/-- Columns, indexes and foreign keys have names of their own. -/
structure WellNamed (t : LayoutTable) : Prop where
  columns : (t.columns.map (·.name)).Nodup
  indexes : (t.indexes.map (·.name)).Nodup
  foreignKeys : (t.foreignKeys.map (·.name)).Nodup

theorem WellNamed.parts_self {t : LayoutTable} (h : t.WellNamed) : parts t t = [] := by
  have hcolumns : columnParts t t = [] :=
    compared_self_eq_nil h.columns fun c hc => by simp [column?, hc]
  have hkey : primaryKeyParts t t = [] := if_pos rfl
  have hindexes : indexParts t t = [] :=
    compared_self_eq_nil h.indexes fun i hi => by simp [index?, hi]
  have hforeign : foreignKeyParts t t = [] :=
    compared_self_eq_nil h.foreignKeys fun k hk => by simp [foreignKey?, hk]
  rw [parts, hcolumns, hkey, hindexes, hforeign]
  rfl

end LayoutTable

namespace Layout

/-- Tables have names of their own and are well named themselves. -/
structure WellNamed (l : Layout) : Prop where
  names : (l.map (·.name)).Nodup
  tables : ∀ t ∈ l, t.WellNamed

theorem WellNamed.changes_self {l : Layout} (h : l.WellNamed) : l.changes l = [] := by
  refine compared_self_eq_nil h.names fun t ht => ?_
  have hparts := (h.tables t (List.mem_of_find?_eq_some ht)).parts_self
  simp [table?, ht, hparts]

/-- In the layout of a well-named snapshot, whose foreign keys have names of
their own in each table, every name stands for one part. -/
theorem wellNamed_ofSnapshot {parse : TypeParser} {s : Snapshot} {l : Layout} (hs : s.WellNamed)
    (hkeys : ∀ t ∈ s.tables, (t.foreignKeys.map (·.name)).Nodup)
    (h : ofSnapshot parse s = .ok l) : l.WellNamed := by
  rw [ofSnapshot_eq_mapM hs] at h
  have htables := mapM_eq_ok.mp h
  have hnames : l.map (·.name) = s.tables.map (·.name) :=
    map_eq_of_forall₂ htables fun _ _ => name_of_laidOut_ok
  refine ⟨hnames ▸ hs.names, fun u hu => ?_⟩
  obtain ⟨t, ht, htu⟩ := forall₂_exists_left htables hu
  have hcolumns : (u.columns.map (·.name)).Nodup :=
    columnNames_eq htu ▸ nodup_columnNames (hs.tables t ht).columns _
  obtain ⟨columns, _, rfl⟩ := map_eq_ok.mp htu
  refine ⟨hcolumns, ?_, hkeys t ht⟩
  rw [completed, List.map_map]
  exact (hs.tables t ht).indexes

end Layout

/-! ## No statements from a snapshot to itself -/

/-- A layout that was compared with another once does not differ from itself. -/
def Planner.Settles (p : Planner) : Prop :=
  ∀ old l changes, l.WellNamed → p.changes old l = .ok changes → p.changes l l = .ok []

theorem Dialect.settles_planner (d : Dialect) : d.planner.Settles := by
  intro old l changes hl h
  have htyped : l.isTyped = true := by
    by_contra hnot
    simp [planner, hnot] at h
  simp [planner, htyped, hl.changes_self]

theorem Migration.between_self {planners : Dialect → Planner}
    (hplanners : ∀ d, (planners d).Settles) {dialect name : String} {old s : Snapshot}
    {m : Migration} (hs : s.WellNamed)
    (hkeys : ∀ t ∈ s.tables, (t.foreignKeys.map (·.name)).Nodup)
    (h : between planners dialect name old s = .ok m) (again : String) :
    between planners dialect again s s = .ok ⟨again, []⟩ := by
  unfold between at h ⊢
  cases hdialect : Dialect.ofName? dialect with
  | none =>
    rw [hdialect] at h
    cases h
  | some d =>
    rw [hdialect] at h
    obtain ⟨current, _, h⟩ := bind_eq_ok.mp h
    obtain ⟨desired, hdesired, h⟩ := bind_eq_ok.mp h
    obtain ⟨changes, hchanges, _⟩ := bind_eq_ok.mp h
    have hnone := hplanners d current desired changes
      (Layout.wellNamed_ofSnapshot hs hkeys hdesired) (mapError_eq_ok.mp hchanges)
    simp [hdesired, hnone, Except.mapError, bind, Except.bind, pure, Except.pure]

open Schema SnapshotTable Migration

theorem Ddl.foreignKeyName_injective {table column other : String}
    (h : foreignKeyName table column = foreignKeyName table other) : column = other := by
  simpa [foreignKeyName] using h

theorem Snapshot.nodup_foreignKeys_ofTable {t : Table} (h : (ofTable t).WellNamed) :
    ((ofTable t).foreignKeys.map (·.name)).Nodup := by
  have hcolumns : (t.columns.map (·.name)).Nodup := by
    have hnames := h.columns
    rwa [ofTable, List.map_map] at hnames
  rw [List.Nodup, List.pairwise_map] at hcolumns ⊢
  rw [ofTable, List.pairwise_filterMap]
  refine hcolumns.imp fun {a b} hne k hk m hm => ?_
  obtain ⟨_, _, rfl⟩ := Option.map_eq_some_iff.mp hk
  obtain ⟨_, _, rfl⟩ := Option.map_eq_some_iff.mp hm
  exact fun hname => hne (Ddl.foreignKeyName_injective hname)

theorem Snapshot.stored_of_read {s : Snapshot} {tree : FileTree} {path : String} (h : s.ListsGiven)
    (hread : tree.read path = .ok (.text s.text)) : Snapshot.stored tree path = .ok s := by
  unfold Snapshot.stored
  split
  · rename_i hmissing
    rw [FileTree.read, hmissing] at hread
    cases hread
  · rw [hread]
    exact h.parse_text

namespace MigrationPlan

variable {tree : FileTree} {o : Options} {d : Dialect} {files : List OutputFile} {s : Snapshot}

theorem stored_of_read (h : s.ListsGiven) (hread : tree.read o.storedPath = .ok (.text s.text)) :
    stored o tree = .ok s := by
  have hpath : o.storedPath ≠ "" := by
    intro hempty
    rw [hempty] at hread
    cases hread
  rw [stored, if_neg hpath, Snapshot.stored_of_read h hread]

/-- What a plan for a schema that succeeds has done. -/
theorem of_forSchema_ok {s : Schema} (h : (forSchema o d tree s).2 = .ok files) :
    (Snapshot.ofSchema s).WellNamed ∧ ∃ current m script,
      between o.planners d.name (Text.dropTail ".sql" o.planFile) current (.ofSchema s) = .ok m ∧
      files = [⟨o.planFile, .text script⟩, ⟨o.snapshotFile, .text (Snapshot.ofSchema s).text⟩] := by
  rw [forSchema] at h
  split at h
  · cases h
  · rename_i hcheck
    refine ⟨Snapshot.wellNamed_iff.mp (Bool.eq_false_iff.mpr hcheck), ?_⟩
    split at h
    · cases h
    · rename_i current _
      rw [planned] at h
      split at h
      · cases h
      · split at h
        · cases h
        · rename_i m hm
          cases h
          exact ⟨current, m, _, hm, rfl⟩

theorem of_render_ok {g : Graph} {shapes : Shapes}
    (h : (render o d g tree shapes).files = .ok files) :
    ∃ s, build g o.profile = .ok s ∧ (forSchema o d tree s).2 = .ok files := by
  unfold render at h
  split at h
  · cases h
  · rename_i s hbuild
    exact ⟨s, hbuild, h⟩

/-- The script of a plan that has nothing to do: a line that says what it is for. -/
def titleOnly (d : Dialect) (modules : List String) : String :=
  "-- " ++ ("Migration planned for " ++ d.name ++ " from adl modules: "
    ++ Text.joinWith ", " modules) ++ "\n"

/-- The plan from a snapshot to itself. -/
theorem planned_self (o : Options) (modules : List String) (hs : s.WellNamed)
    (hbetween : ∀ name, between o.planners d.name name s s = .ok ⟨name, []⟩) :
    planned o d modules s s =
      ([planLog d ⟨Text.dropTail ".sql" o.planFile, []⟩ .none],
        .ok [⟨o.planFile, .text (titleOnly d modules)⟩, ⟨o.snapshotFile, .text s.text⟩]) := by
  have hnone := (Snapshot.compare_eq_none_iff hs hs o.allowed).mpr hs.keepsQuietly_self
  have hlog : profileLog s s = [] := by simp [profileLog]
  have hscript : script ⟨Text.dropTail ".sql" o.planFile, []⟩
      (header d modules .none) = titleOnly d modules := by
    simp [script, header, titleOnly, Findings.none, String.join]
  rw [planned, hnone, hlog, hbetween, ← hscript]
  rfl

/-- Planning converges, where planners find no change from a layout to itself.
When a plan succeeds, the snapshot it leaves holds the snapshot of the schema.
Every later plan of the same profile, dialect and planners that starts from there
finds nothing, has no statements and leaves the same snapshot. -/
theorem replanning_finds_nothing {o : Options} (hplanners : ∀ d, (o.planners d).Settles)
    {t : Target} (htarget : target o = .ok t)
    {g : Graph} {tree : FileTree} {shapes : Shapes} {files : List OutputFile}
    (hfiles : (t.render g tree shapes).files = .ok files) :
    ∃ (s : Schema) (d : Dialect) (script content : String),
      build g o.profile = .ok s ∧ dialectOf o = .ok d ∧
      files = [⟨o.planFile, .text script⟩, ⟨o.snapshotFile, .text content⟩] ∧
      Snapshot.parse content = .ok (.ofSchema s) ∧
      ∀ (o' : Options) (later : FileTree), o'.profile = o.profile → o'.dialect = o.dialect →
        o'.planners = o.planners →
        later.read o'.storedPath = .ok (.text content) →
        stored o' later = .ok (.ofSchema s) ∧
        Snapshot.compare (.ofSchema s) (.ofSchema s) o'.allowed = .none ∧
        ∃ t', target o' = .ok t' ∧ ∀ shapes', t'.render g later shapes' =
          ⟨shapes', [planLog d ⟨Text.dropTail ".sql" o'.planFile, []⟩ .none],
            .ok [⟨o'.planFile, .text (titleOnly d s.modules)⟩,
              ⟨o'.snapshotFile, .text content⟩]⟩ := by
  obtain ⟨d, hdialect, rfl⟩ := Outcome.bind_pure_eq_ok.mp htarget
  obtain ⟨s, hbuild, hschema⟩ := of_render_ok hfiles
  obtain ⟨hs, current, m, script, hm, rfl⟩ := of_forSchema_ok hschema
  have hgiven := Snapshot.listsGiven_ofSchema s
  refine ⟨s, d, script, _, hbuild, hdialect, rfl, hgiven.parse_text, ?_⟩
  intro o' later hprofile hsame hsettled hread
  have hstored := stored_of_read hgiven hread
  have hkeys : ∀ u ∈ (Snapshot.ofSchema s).tables, (u.foreignKeys.map (·.name)).Nodup :=
    List.forall_mem_map.mpr fun u hu =>
      Snapshot.nodup_foreignKeys_ofTable (hs.tables _ (List.mem_map_of_mem hu))
  have hplanned := planned_self o' s.modules hs
    (hsettled ▸ between_self hplanners hs hkeys hm)
  refine ⟨hstored, (Snapshot.compare_eq_none_iff hs hs _).mpr hs.keepsQuietly_self,
    ⟨"plan", render o' d⟩, ?_, fun shapes' => ?_⟩
  · have hdialect' : dialectOf o' = .ok d := by
      rw [dialectOf, hsame, hprofile]
      exact hdialect
    rw [target, hdialect']
    rfl
  · have hcheck : (Snapshot.ofSchema s).check.hasErrors = false := Snapshot.wellNamed_iff.mpr hs
    simp only [render, hprofile, hbuild, forSchema, hcheck, hstored, hplanned]
    rfl

def saleOptions : Options := { standard with dialect := some .sqlite }

/-- The table of sales is planned from nothing, and then again from the snapshot
that is left in the directory. -/
theorem replanning_finds_nothing_sales :
    ∃ t script content, target saleOptions = .ok t ∧
      (t.render (soldGraph byKey) .empty []).files =
        .ok [⟨"migrate.sql", .text script⟩, ⟨"schema.snapshot.json", .text content⟩] ∧
      ∃ t', target (withStored saleOptions "schema.snapshot.json") = .ok t' ∧
        (t'.render (soldGraph byKey)
            (.directory [("schema.snapshot.json", .file (.text content))]) []).files =
          .ok [⟨"migrate.sql", .text (titleOnly .sqlite ["app"])⟩,
            ⟨"schema.snapshot.json", .text content⟩] := by
  obtain ⟨s, hbuild, hmodules, files, hschema⟩ :
      ∃ s, build (soldGraph byKey) .postgresql2 = .ok s ∧
        s.modules = ["app"] ∧ ∃ files, (forSchema saleOptions .sqlite .empty s).2 = .ok files :=
    ⟨_, build_of_single rfl rfl rfl rfl, rfl, _, rfl⟩
  obtain ⟨t, htarget, hrender⟩ :
      ∃ t, target saleOptions = .ok t ∧ t.render = render saleOptions .sqlite := ⟨_, rfl, rfl⟩
  have hfiles : (t.render (soldGraph byKey) .empty []).files = .ok files := by
    rw [hrender, render, show saleOptions.profile = .postgresql2 from rfl, hbuild]
    exact hschema
  obtain ⟨s', d, script, content, hs', hd, rfl, _, hlater⟩ :=
    replanning_finds_nothing Dialect.settles_planner htarget hfiles
  obtain rfl : s = s' := Except.ok.inj (hbuild.symm.trans hs')
  obtain rfl : Dialect.sqlite = d := Except.ok.inj hd
  obtain ⟨_, _, t', ht', hagain⟩ := hlater (withStored saleOptions "schema.snapshot.json")
    (.directory [("schema.snapshot.json", .file (.text content))]) rfl rfl rfl rfl
  refine ⟨t, script, content, htarget, hfiles, t', ht', ?_⟩
  rw [hagain, hmodules]
  rfl

end MigrationPlan

end SchemaCompiler
