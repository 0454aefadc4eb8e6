import SchemaCompiler.Proofs.RoundTrip

/-!
# Keys and names

The declarations of a store are visited in strict order of their keys, and a
lookup of a key finds what is visited under it.  The name that a declaration
carries is its key, unless the document gives it another one.
-/

namespace SchemaCompiler

open List SchemaModule Tagged Outcome

namespace Store

variable {s : Store}

/-! ## Stores in order -/

/-- The modules ascend by their names, of which none is empty, and the
declarations of each module by their keys. -/
structure Ordered (s : Store) : Prop where
  named : ∀ m ∈ s.modules, m.name ≠ ""
  modules : s.modules.Pairwise fun a b => a.name < b.name
  decls : ∀ m ∈ s.modules, Keyed.Ordered m.decls

theorem pairwise_insertSorted {m : SchemaModule} {ms : List SchemaModule}
    (h : ms.Pairwise fun a b => a.name < b.name) (hnew : ∀ x ∈ ms, x.name ≠ m.name) :
    (insertSorted m ms).Pairwise fun a b => a.name < b.name := by
  induction ms with
  | nil => simp [insertSorted]
  | cons first rest ih =>
    obtain ⟨hfirst, hrest⟩ := pairwise_cons.mp h
    obtain ⟨hne, hnew⟩ := forall_mem_cons.mp hnew
    rw [insertSorted]
    split_ifs with hlt
    · refine .cons ?_ h
      exact forall_mem_cons.mpr ⟨hlt, fun x hx => hlt.trans (hfirst x hx)⟩
    · refine .cons ?_ (ih hrest hnew)
      intro x hx
      rcases mem_of_mem_insertSorted hx with rfl | hx
      · exact lt_of_le_of_ne (not_lt.mp hlt) hne
      · exact hfirst x hx

theorem Ordered.add {s' : Store} {m : SchemaModule} (h : s.Ordered)
    (hm : Keyed.Ordered m.decls) (hadd : s.add m = .ok s') : s'.Ordered := by
  obtain ⟨hname, hnone, rfl⟩ := add_eq_ok.mp hadd
  have hmem : ∀ x ∈ insertSorted m s.modules, x = m ∨ x ∈ s.modules :=
    fun x hx => mem_of_mem_insertSorted hx
  constructor
  · intro x hx
    rcases hmem x hx with rfl | hx
    · exact hname
    · exact h.named x hx
  · apply pairwise_insertSorted h.modules
    intro x hx
    simpa using find?_eq_none.mp hnone x hx
  · intro x hx
    rcases hmem x hx with rfl | hx
    · exact hm
    · exact h.decls x hx

/-- A store of modules that were read is in order. -/
theorem ordered_of_ofModules_ok {modules : List SchemaModule}
    (hmodules : ∀ m ∈ modules, m.WellFormed) (h : ofModules modules = .ok s) : s.Ordered := by
  have hempty : Store.empty.Ordered :=
    ⟨forall_mem_nil _, .nil, forall_mem_nil _⟩
  refine of_foldlM_ok ?_ hempty h
  intro s m s' hm hs hadd
  exact hs.add (hmodules m hm).ordered hadd

theorem Ordered.nodup_moduleNames (h : s.Ordered) : s.moduleNames.Nodup :=
  pairwise_map.mpr (h.modules.imp fun hlt => hlt.ne)

/-! ## Visits -/

theorem Ordered.pairwise_keys (h : s.Ordered) :
    s.keys.Pairwise fun a b => a.lt b = true := by
  rw [keys, pairwise_flatMap]
  constructor
  · intro m hm
    refine pairwise_map.mpr ((h.decls m hm).imp fun hlt => ?_)
    simp [ScopedName.lt, hlt]
  · refine h.modules.imp fun {a b} hlt x hx y hy => ?_
    obtain ⟨left, _, rfl⟩ := mem_map.mp hx
    obtain ⟨right, _, rfl⟩ := mem_map.mp hy
    simp [ScopedName.lt, hlt, hlt.ne]

/-- The lookups of all keys in order give the declarations in the order of the visits. -/
theorem Ordered.mapM_resolve_keys (h : s.Ordered) : s.keys.mapM s.resolve = .ok s.allDecls := by
  have hvisits : ∀ ms : List SchemaModule, (∀ m ∈ ms, m ∈ s.modules) →
      Forall₂ (fun n d => s.resolve n = .ok d)
        (ms.flatMap fun m => m.decls.map fun entry => ⟨m.name, entry.1⟩) (ms.flatMap declsOf) := by
    intro ms hms
    induction ms with
    | nil => exact .nil
    | cons m ms ih =>
      obtain ⟨hm, hms⟩ := forall_mem_cons.mp hms
      rw [flatMap_cons, flatMap_cons]
      refine rel_append ?_ (ih hms)
      rw [declsOf, forall₂_map_left_iff, forall₂_map_right_iff, forall₂_same]
      exact fun entry hentry =>
        resolve_key h.nodup_moduleNames hm (h.decls m hm).nodup_keys hentry
  exact mapM_eq_ok.mpr (hvisits s.modules fun _ hm => hm)

theorem decls_cons (m : SchemaModule) (ms : List SchemaModule) (moduleName : String) :
    decls ⟨m :: ms⟩ moduleName =
      if m.name = moduleName then declsOf m else decls ⟨ms⟩ moduleName := by
  by_cases hname : m.name = moduleName
  · simp [decls, module?, hname]
  · simp [decls, module?, hname]

theorem filter_declsOf (m : SchemaModule) (moduleName : String) :
    (declsOf m).filter (·.moduleName = moduleName) =
      if m.name = moduleName then declsOf m else [] := by
  have hmodule : ∀ d ∈ declsOf m, d.moduleName = m.name := by
    intro d hd
    obtain ⟨entry, _, rfl⟩ := mem_map.mp hd
    rfl
  split_ifs with hname
  · exact filter_eq_self.mpr fun d hd => by simp [hmodule d hd, hname]
  · exact filter_eq_nil_iff.mpr fun d hd => by simp [hmodule d hd, hname]

/-- The declarations of one module are those of all visits that stand in it. -/
theorem decls_eq_filter (hmodules : s.moduleNames.Nodup) (moduleName : String) :
    s.decls moduleName = s.allDecls.filter (·.moduleName = moduleName) := by
  obtain ⟨ms⟩ := s
  induction ms with
  | nil => rfl
  | cons m ms ih =>
    obtain ⟨hm, hmodules⟩ := nodup_cons.mp hmodules
    have hrest := ih hmodules
    rw [allDecls] at hrest
    rw [decls_cons, allDecls, flatMap_cons, filter_append, filter_declsOf, ← hrest]
    split_ifs with hname
    · have hnone : module? ⟨ms⟩ moduleName = none := by
        refine find?_eq_none.mpr fun x hx => ?_
        have hne : x.name ≠ m.name := fun heq => hm (mem_map.mpr ⟨x, hx, heq⟩)
        simpa [← hname] using hne
      have hempty : decls ⟨ms⟩ moduleName = [] := by rw [decls, hnone]
      rw [hempty, append_nil]
    · rfl

end Store

/-! ## Names that documents give -/

theorem SchemaModule.name_nameByKey_iff (key : String) (d : Declaration) :
    (nameByKey (key, d)).2.name = key ↔ d.name = "" ∨ d.name = key := by
  by_cases hname : d.name = ""
  · simp [nameByKey, hname]
  · simp [nameByKey, hname]

namespace Store

/-- A declaration that is found was given under the key by a document. -/
theorem exists_documentGives_of_resolve_ok {documents : List (String × String)}
    {parts : List (List SchemaModule)} {s : Store}
    (hdecode : documents.mapM (fun document => decode document.1 document.2) =
      .ok parts)
    (hstore : ofModules parts.flatten = .ok s) {n : ScopedName} {d : ScopedDecl}
    (h : s.resolve n = .ok d) :
    ∃ document ∈ documents, ∃ given, SchemaModule.DocumentGives document.2 n.name given ∧
      d = ⟨n.moduleName, (SchemaModule.nameByKey (n.name, given)).2⟩ := by
  obtain ⟨m, hm, hname, hmodule, hentry⟩ := exists_of_resolve_ok h
  obtain ⟨document, hdocument, modules, hread, hmem⟩ :=
    exists_document_of_mem hdecode (mem_of_ofModules_ok hstore hm)
  obtain ⟨given, hgiven, hnamed⟩ :=
    exists_documentGives_of_decode_ok hread hmem hentry
  have hdecl : d.decl = (SchemaModule.nameByKey (n.name, given)).2 := congrArg Prod.snd hnamed
  refine ⟨document, hdocument, given, hgiven, ?_⟩
  rw [← hdecl, ← hname, ← hmodule]

/-- All keys of a store of documents are visited in strict order and found as
they are visited, and nothing else is found.  A declaration carries the key it
is found under exactly if its document gives it that name or none.  Where the
documents give no other names, names are as good as keys. -/
theorem lookups_follow_keys {documents : List (String × String)}
    {parts : List (List SchemaModule)} {s : Store}
    (hdecode : documents.mapM (fun document => SchemaModule.decode document.1 document.2) =
      .ok parts)
    (hstore : ofModules parts.flatten = .ok s) :
    (s.keys.Pairwise (fun a b => a.lt b = true) ∧ s.keys.mapM s.resolve = .ok s.allDecls ∧
      ∀ moduleName, s.decls moduleName = s.allDecls.filter (·.moduleName = moduleName)) ∧
    (∀ n d, s.resolve n = .ok d → n ∈ s.keys ∧
      ∃ document ∈ documents, ∃ given, SchemaModule.DocumentGives document.2 n.name given ∧
        d = ⟨n.moduleName, (SchemaModule.nameByKey (n.name, given)).2⟩ ∧
        (d.name = n ↔ given.name = "" ∨ given.name = n.name)) ∧
    ((∀ document ∈ documents, ∀ key given, SchemaModule.DocumentGives document.2 key given →
        given.name = "" ∨ given.name = key) →
      (∀ n d, s.resolve n = .ok d → d.name = n) ∧
      (s.allDecls.map (·.name)).Pairwise (fun a b => a.lt b = true) ∧
      ∀ d ∈ s.allDecls, s.resolve d.name = .ok d) := by
  have hwell : ∀ m ∈ parts.flatten, m.WellFormed := by
    intro m hm
    obtain ⟨document, _, modules, hread, hmem⟩ := SchemaModule.exists_document_of_mem hdecode hm
    exact SchemaModule.wellFormed_of_decode_ok hread m hmem
  have hordered := ordered_of_ofModules_ok hwell hstore
  have hfound : ∀ n d, s.resolve n = .ok d → ∃ document ∈ documents, ∃ given,
      SchemaModule.DocumentGives document.2 n.name given ∧
        d = ⟨n.moduleName, (SchemaModule.nameByKey (n.name, given)).2⟩ ∧
        (d.name = n ↔ given.name = "" ∨ given.name = n.name) := by
    intro n d h
    obtain ⟨document, hdocument, given, hgiven, rfl⟩ :=
      exists_documentGives_of_resolve_ok hdecode hstore h
    refine ⟨document, hdocument, given, hgiven, rfl, ?_⟩
    rw [← SchemaModule.name_nameByKey_iff, ScopedDecl.name, ScopedName.mk.injEq]
    simp
  refine ⟨⟨hordered.pairwise_keys, hordered.mapM_resolve_keys,
      decls_eq_filter hordered.nodup_moduleNames⟩,
    fun n d h => ⟨mem_keys_of_resolve_ok h, hfound n d h⟩, fun hgiven => ?_⟩
  have hnames : ∀ n d, s.resolve n = .ok d → d.name = n := by
    intro n d h
    obtain ⟨document, hdocument, given, hgives, _, hiff⟩ := hfound n d h
    exact hiff.mpr (hgiven document hdocument n.name given hgives)
  have hvisits := mapM_eq_ok.mp hordered.mapM_resolve_keys
  have hkeys : s.allDecls.map (·.name) = s.keys := by
    refine forall₂_eq_eq_eq ▸ ?_
    exact forall₂_map_left_iff.mpr (hvisits.flip.imp fun d n h => hnames n d h)
  refine ⟨hnames, hkeys ▸ hordered.pairwise_keys, fun d hd => ?_⟩
  obtain ⟨n, _, hn⟩ := forall₂_exists_left hvisits hd
  rw [hnames n d hn, hn]

/-- A document that calls the struct under `A` by the name of the union under `B`. -/
def borrowedName : Json :=
  .obj [("name", .text "app"), ("decls", .obj
    [("A", .obj [("name", .text "B"), ("type_", toJson "struct_" (.obj []))]),
      ("B", .obj [("type_", toJson "union_" (.obj []))])])]

def borrowedStruct : Declaration := ⟨"B", none, .struct [] [], []⟩

def borrowedStore : Store :=
  ⟨[⟨"app", [], [("A", borrowedStruct), ("B", ⟨"B", none, .union [] [], []⟩)], []⟩]⟩

theorem decode_borrowedName :
    [("app.json", borrowedName.render)].mapM (fun document =>
      decode document.1 document.2) = .ok [borrowedStore.modules] := by
  have hempty : (Json.obj []).Spelled := .obj (forall_mem_nil _) (forall_mem_nil _)
  have hstruct : (Json.obj [("name", .text "B"),
      ("type_", toJson "struct_" (.obj []))]).Spelled :=
    .record (by simp [spelled_toJson _ hempty])
  have hunion : (Json.obj [("type_", toJson "union_" (.obj []))]).Spelled :=
    .record (by simp [spelled_toJson _ hempty])
  have hdecls : (Json.obj [("A", .obj [("name", .text "B"),
      ("type_", toJson "struct_" (.obj []))]),
      ("B", .obj [("type_", toJson "union_" (.obj []))])]).Spelled :=
    .record (by simp [hstruct, hunion])
  have hsound : borrowedName.Sound :=
    ⟨.record (by simp [hdecls]), by decide⟩
  exact mapM_eq_ok.mpr (.cons (decode_render hsound rfl) .nil)

/-- The struct is found under `A` with the name `app.B`, which its document
gives it, and a lookup of that name finds the union. -/
theorem lookups_follow_keys_borrowed :
    borrowedStore.resolve ⟨"app", "A"⟩ = .ok ⟨"app", borrowedStruct⟩ ∧
      borrowedStore.resolve (ScopedDecl.name ⟨"app", borrowedStruct⟩) ≠
        .ok ⟨"app", borrowedStruct⟩ ∧
      borrowedStore.keys.mapM borrowedStore.resolve = .ok borrowedStore.allDecls ∧
      ∃ given, SchemaModule.DocumentGives borrowedName.render "A" given ∧
        ¬(given.name = "" ∨ given.name = "A") := by
  have hstore : ofModules [borrowedStore.modules].flatten = .ok borrowedStore := rfl
  obtain ⟨⟨_, hkeys, _⟩, hfound, _⟩ := lookups_follow_keys decode_borrowedName hstore
  have hstruct : borrowedStore.resolve ⟨"app", "A"⟩ = .ok ⟨"app", borrowedStruct⟩ := rfl
  have hunion : borrowedStore.resolve (ScopedDecl.name ⟨"app", borrowedStruct⟩) =
      .ok ⟨"app", ⟨"B", none, .union [] [], []⟩⟩ := rfl
  refine ⟨hstruct, ?_, hkeys, ?_⟩
  · rw [hunion]
    simp [borrowedStruct]
  · obtain ⟨_, document, hdocument, given, hgives, _, hiff⟩ := hfound _ _ hstruct
    obtain rfl := mem_singleton.mp hdocument
    refine ⟨given, hgives, fun hname => ?_⟩
    have hname := hiff.mpr hname
    simp [ScopedDecl.name, borrowedStruct] at hname

end Store

end SchemaCompiler
