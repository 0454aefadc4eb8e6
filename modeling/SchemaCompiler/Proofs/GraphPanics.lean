import SchemaCompiler.Proofs.Panics
import SchemaCompiler.Proofs.RoundTrip

/-!
# Where building a graph panics

The table of instances finds an application again by its qualified text, and
then looks for the instance among those of the applied declaration.  It is not
there when the text belongs to an application of another declaration.  That,
and a type that is left out, are the only reasons for which building the graph
of a list of documents panics.
-/

namespace SchemaCompiler

open Outcome List Resolver SchemaModule Json TypeRef Settings

open Outcome (NoPanic failsOnly_ok failsOnly_error)

variable {message : Option String} {ps : List Projection}

namespace Instance

variable {t : TypeExpr}

theorem noPanic_readableName (h : t.Whole) : NoPanic (readableName t) :=
  fun failure hfailure => absurd h (failsOnly_readableName t failure hfailure).1

theorem noPanic_uniqueName (siblings : List Instance) (h : t.Whole) :
    NoPanic (uniqueName siblings t) := by
  unfold uniqueName
  split
  · exact (noPanic_readableName h).error ‹_›
  · split
    · exact failsOnly_ok
    · split <;> exact failsOnly_ok

end Instance

namespace Tracker

variable {r : Resolver} {t t' : Tracker} {N : TypeExpr → Prop} {f : ConcreteField} {a u : TypeExpr}
  {use : String}

/-- Two of the applications have one text and apply different declarations. -/
def Ambiguous (N : TypeExpr → Prop) : Prop :=
  ∃ u v, N u ∧ N v ∧ u.scopedText = v.scopedText ∧ u.applied ≠ v.applied

/-- The table is consistent and has none but the given applications. -/
structure Covered (N : TypeExpr → Prop) (t : Tracker) : Prop where
  consistent : t.Consistent
  recorded : ∀ i ∈ t.faces, N i.typeExpr

/-- The failure is no panic, unless it is one over two of the applications with one text. -/
def Excused (N : TypeExpr → Prop) (failure : Failure) : Prop :=
  ∀ message, failure = .panic message → message = none ∧ Ambiguous N

theorem panic_of_located {decl : ScopedName} {field : String} {path : List String}
    (failure : Failure) (message : Option String)
    (h : failure.located decl field path = .panic message) : failure = .panic message := by
  cases failure with
  | panic other => exact h
  | _ => cases h

/-! ## Recording -/

theorem Recorded.covered {application : Option TypeExpr}
    {answer : Outcome (Option (Instance × Bool))} (ht : Covered N t)
    (h : Recorded t use application (t', answer)) (hN : ∀ a ∈ application, N a) : Covered N t' := by
  refine ⟨h.consistent ht.consistent, ?_⟩
  obtain ⟨_, _, heffect⟩ := h
  cases heffect with
  | passed _ hrecorded
  | refused _ hrecorded => exact fun i hi => ht.recorded i ((hrecorded.map _).mem_iff.mp hi)
  | again _ _ _ _ hrecorded =>
    exact fun i hi => ht.recorded i ((faces_perm_of_again hrecorded).mem_iff.mp hi)
  | new _ _ _ _ hrecorded =>
    intro i hi
    rcases mem_append.mp ((faces_perm_append hrecorded).mem_iff.mp hi) with hi | hi
    · exact ht.recorded i hi
    · rw [mem_singleton.mp hi]
      exact hN _ rfl

/-- A text that was recorded, with no instance of its name for the declaration,
was recorded for another declaration. -/
theorem ambiguous_of_recordUse {name : String} (ht : Covered N t) (ha : N a)
    (hname : t.names.lookup a.scopedText = some name)
    (h : (t.recordUse a.applied name use).2 = .error (.panic message)) :
    message = none ∧ Ambiguous N := by
  unfold recordUse at h
  dsimp only at h
  split at h
  · rename_i hfind
    cases h
    obtain ⟨i, hi, htext, rfl⟩ := (ht.consistent.lookup_iff _ _).mp hname
    refine ⟨rfl, i.typeExpr, a, ht.recorded i hi, ha, htext, ?_⟩
    intro happlied
    -- Of the same declaration it would be a sibling, and the search would have found it.
    obtain ⟨j, hj, rfl⟩ := mem_map.mp hi
    have hgeneric : j.generic = a.applied := (ht.consistent.generic_of_mem hj).trans happlied
    have hsibling := (mem_siblings ht.consistent.filed).mpr ⟨hj, hgeneric⟩
    simpa using find?_eq_none.mp hfind j hsibling
  · cases h

theorem ne_panic_of_recordNew (ha : a.Whole) (field use : String) (message : Option String) :
    (t.recordNew a.applied a field use).2 ≠ .error (.panic message) := by
  unfold recordNew
  dsimp only
  split
  · rename_i failure hfailure
    intro heq
    cases heq
    cases Instance.noPanic_uniqueName _ ha _ hfailure
  · split <;> exact nofun

section Run

variable {N : TypeExpr → Prop} (hwhole : ∀ u, N u → u.Whole)

include hwhole

theorem Covered.record (ht : Covered N t) (owner : String) (hf : f.typeExpr.Whole)
    (hN : ∀ u, r.application? f = some u → N u) :
    Sustains (Covered N) (fun _ i => N i.typeExpr) (Excused N) created t (t.record r owner f) := by
  have hrecorded := record_recorded (r := r) ht.consistent owner f
  refine ⟨hrecorded.covered ht fun a ha => hN a ha, fun _ hi => hi, fun found hfound i hi => ?_, ?_⟩
  · have hrecorded : Recorded t (owner ++ "::" ++ f.name) (r.application? f)
        ((t.record r owner f).1, .ok found) := by
      rwa [← hfound]
    exact hN _ (hrecorded.faces_perm.2 i hi)
  · rintro _ hpanic message rfl
    unfold Tracker.record at hpanic
    unfold application? at hN
    cases hmono : f.monomorphized with
    | false => simp [hmono] at hpanic
    | true =>
      cases hcore : r.core f.typeExpr with
      | error failure =>
        simp only [hmono, hcore, Bool.not_true, Bool.false_eq_true, if_false,
          Except.error.injEq] at hpanic
        subst hpanic
        cases noPanic_core hf _ hcore
      | ok a =>
        have ha : N a := hN a (by simp [hmono, hcore, Except.toOption])
        simp only [hmono, hcore, Bool.not_true, Bool.false_eq_true, if_false] at hpanic
        split at hpanic
        · rename_i name hname
          exact ambiguous_of_recordUse ht ha hname hpanic
        · exact absurd hpanic (ne_panic_of_recordNew (hwhole a ha) _ _ message)

theorem steps_covered (hstore : r.store.Typed) (hlead : ∀ u v, N u → Leads r u v → N v) :
    Steps r (Covered N) (fun _ i => N i.typeExpr)
      (fun f => f.typeExpr.Whole ∧ ∀ u, r.application? f = some u → N u) (Excused N) where
  record t owner f ht hf := ht.record hwhole owner hf.1 hf.2
  project t i _ hi := by
    rintro _ hpanic message rfl
    cases (noPanic_projectType hstore (hwhole _ hi)).bind_pure _ hpanic
  keep t i p ht hi hp := by
    obtain ⟨_, q, hq, _, hfields⟩ := exists_of_projectInstance_ok hp
    -- Keeping a projection changes neither the recorded instances nor their names.
    refine ⟨⟨ht.consistent.keep p, ht.recorded⟩, fun _ hj => hj, fun f hf => ⟨?_, fun u hu => ?_⟩⟩
    · exact whole_of_mem_projectType hstore (hwhole _ hi) hq (hfields ▸ hf)
    · exact hlead _ u hi ⟨q, hq, f, hfields ▸ hf, hu⟩
  locate decl field path failure h message hmessage :=
    h message (panic_of_located failure message hmessage)
  expanding _ _ h := by cases h

end Run

/-! ## Needed applications -/

theorem whole_of_application? (hf : f.typeExpr.Whole) (hu : r.application? f = some u) :
    u.Whole := by
  unfold application? at hu
  split_ifs at hu
  cases hcore : r.core f.typeExpr with
  | error failure => simp [hcore, Except.toOption] at hu
  | ok core =>
    obtain rfl : core = u := by simpa [hcore, Except.toOption] using hu
    exact hf.of_mem_walk (core_mem_walk hcore)

section Needed

variable (hstore : r.store.Typed) {ps : List Projection}
  (hps : ∀ p ∈ ps, ∀ f ∈ p.fields, f.typeExpr.Whole)

include hstore hps

theorem whole_of_needed (h : Needed r ps u) : u.Whole := by
  induction h with
  | root hp _ hf hu => exact whole_of_application? (hps _ hp _ hf) hu
  | step _ hlead ih =>
    obtain ⟨p, hp, f, hf, hv⟩ := hlead
    exact whole_of_application? (whole_of_mem_projectType hstore ih hp hf) hv

/-- A run over projections with whole types panics only over needed applications
with one text. -/
theorem excused_run : FailsOnly (Excused (Needed r ps)) (Tracker.empty.run r ps).2 := by
  have hwhole : ∀ u, Needed r ps u → u.Whole := fun u => whole_of_needed hstore hps
  have hempty : Covered (Needed r ps) .empty := ⟨consistent_empty, by simp [faces, recorded, empty]⟩
  refine ((steps_covered hwhole hstore fun u v => Needed.step).run ?_ hempty).fails
  exact fun p hp hgeneric f hf => ⟨hps p hp f hf, fun u => Needed.root hp hgeneric hf⟩

/-- The instances of a run have whole types too. -/
theorem whole_of_mem_run {out : List Projection} (h : Tracker.empty.run r ps = (t, .ok out)) :
    ∀ p ∈ out, ∀ f ∈ p.fields, f.typeExpr.Whole := by
  intro p hp f hf
  obtain ⟨rfl, all, hcompletes⟩ := completes_of_run consistent_empty h
  rw [instanceProjections, Projection.sort, mem_mergeSort] at hp
  obtain ⟨i, hi, hproject⟩ := hcompletes.exists_of_mem_projections hp
  obtain ⟨_, q, hq, _, hfields⟩ := exists_of_projectInstance_ok hproject
  have hwhole := whole_of_needed hstore hps (hcompletes.needed hi)
  exact whole_of_mem_projectType hstore hwhole hq (hfields ▸ hf)

end Needed

end Tracker

theorem Metadata.noPanic_derive {r : Resolver} (hps : ∀ p ∈ ps, ∀ f ∈ p.fields, f.typeExpr.Whole)
    (t : Tracker) : NoPanic (derive r ps (some t)) := by
  have hname : ∀ f : ConcreteField, f.typeExpr.Whole → NoPanic (instanceNameOf r (some t) f) := by
    intro f hf
    unfold instanceNameOf
    dsimp only
    split
    · exact failsOnly_ok
    · split
      · rename_i core hcore
        unfold Tracker.nameOf
        split
        · exact failsOnly_ok
        · exact Instance.noPanic_uniqueName _ (hf.of_mem_walk (core_mem_walk hcore))
      · exact (noPanic_core hf).error ‹_›
      · exact failsOnly_ok
  apply Outcome.FailsOnly.bind
  · apply failsOnly_mapM
    intro p hp
    apply failsOnly_mapM
    intro f hf
    exact (hname f (hps p hp f hf)).bind_pure
  · intro _ _
    exact failsOnly_ok

namespace Graph

/-- In a typed store the one panic is that of two needed applications with one
text. -/
theorem ambiguous_of_build_panic {settings : Settings} {store : Store} (hstore : store.Typed)
    (h : build settings store = .error (.panic message)) :
    message = none ∧ ∃ decls,
      closure ⟨store, settings.wrappers⟩
        ((store.allDecls.filter settings.accepts).filter (isRoot settings.tableKeys))
        settings.inFocus = .ok decls ∧
      Tracker.Ambiguous (Tracker.Needed ⟨store, settings.wrappers⟩ decls) := by
  have hroots : ∀ d ∈ (store.allDecls.filter settings.accepts).filter
      (isRoot settings.tableKeys), d ∈ store.allDecls := fun d hd =>
    mem_of_mem_filter (mem_of_mem_filter hd)
  have hmodules : ∀ names, NoPanic (checkModules store names) := by
    intro names
    induction names with
    | nil => exact failsOnly_ok
    | cons name rest ih =>
      rw [checkModules]
      split
      · exact ih
      · exact failsOnly_error.mpr rfl
  rcases bind_eq_error.mp h with h | ⟨_, _, h⟩
  · cases hmodules _ _ h
  rcases bind_eq_error.mp h with h | ⟨decls, hclosure, h⟩
  · cases noPanic_closure (r := ⟨store, settings.wrappers⟩) hstore hroots _ h
  have hwhole : ∀ p ∈ decls, ∀ f ∈ p.fields, f.typeExpr.Whole := by
    intro p hp f hf
    obtain ⟨d, hd, q, hq, rfl⟩ := exists_project_of_mem_closure hroots hclosure hp
    exact whole_of_mem_project hstore ⟨hd, forall_mem_nil _⟩ hq hf
  rcases bind_eq_error.mp h with h | ⟨instances, hrun, h⟩
  · obtain ⟨hmessage, hambiguous⟩ :=
      Tracker.excused_run (r := ⟨store, settings.wrappers⟩) hstore hwhole _ h message rfl
    exact ⟨hmessage, decls, hclosure, hambiguous⟩
  · rcases bind_eq_error.mp h with h | ⟨_, _, h⟩
    · have hinstances := Tracker.whole_of_mem_run (r := ⟨store, settings.wrappers⟩) hstore hwhole
        (Prod.ext rfl hrun)
      cases Metadata.noPanic_derive (forall_mem_append.mpr ⟨hwhole, hinstances⟩) _ _ h
    · cases h

/-- Building the graph of documents panics only where a declaration lacks a
type, or over two needed applications that have one text and apply different
declarations. -/
theorem build_panics_only {documents : List (String × String)}
    {parts : List (List SchemaModule)} {store : Store} {settings : Settings}
    {message : Option String}
    (hdecode : documents.mapM (fun document => SchemaModule.decode document.1 document.2) =
      .ok parts)
    (hstore : Store.ofModules parts.flatten = .ok store)
    (h : build settings store = .error (.panic message)) :
    store.LacksType ∨ message = none ∧ ∃ decls,
      Resolver.closure ⟨store, settings.wrappers⟩
        ((store.allDecls.filter settings.accepts).filter (Resolver.isRoot settings.tableKeys))
        settings.inFocus = .ok decls ∧
      Tracker.Ambiguous (Tracker.Needed ⟨store, settings.wrappers⟩ decls) := by
  by_cases hlacks : store.LacksType
  · exact .inl hlacks
  · exact .inr (ambiguous_of_build_panic (Store.typed_of_not_lacksType hdecode hstore hlacks) h)

/-! ## Documents for both panics -/

def structDocument (moduleName name : String) (params : List String) (fields : List Json) : Json :=
  .obj [("name", .text moduleName), ("decls", .obj [(escape name, .obj
    [("name", .text name), ("type_", Tagged.toJson "struct_" (.obj
      [("typeParams", .arr (params.map .text)), ("fields", .arr fields)]))])])]

theorem spelled_structDocument (moduleName name : String) (params : List String)
    {fields : List Json} (h : ∀ f ∈ fields, f.Spelled) :
    (structDocument moduleName name params fields).Spelled := by
  have hparams : (arr (params.map .text)).Spelled := .arr (by simp)
  have hfields : (arr fields).Spelled := .arr h
  have hbody : (Tagged.toJson "struct_" (.obj [("typeParams", .arr (params.map .text)),
      ("fields", .arr fields)])).Spelled :=
    Tagged.spelled_toJson _ (.record (by simp [hparams, hfields]))
  have hdecl : (obj [("name", .text name), ("type_", Tagged.toJson "struct_" (.obj
      [("typeParams", .arr (params.map .text)), ("fields", .arr fields)]))]).Spelled :=
    .record (by simp [hbody])
  refine .record ?_
  simp only [forall_mem_cons]
  refine ⟨⟨rfl, spelled_text _⟩, ⟨rfl, .obj ?_ ?_⟩, forall_mem_nil _⟩
  · simp [spelling_escape]
  · simpa using hdecl

/-- A field of a type that applies a declaration. -/
def boxField (name : String) (n : ScopedName) : Json :=
  .obj [("name", .text name), ("typeExpr", .obj [("typeRef", (reference n).toJson),
    ("parameters", .arr [.obj [("typeRef", (primitive "Int32").toJson)]])])]

theorem spelled_boxField (name : String) (n : ScopedName) : (boxField name n).Spelled := by
  have hargument : (obj [("typeRef", (primitive "Int32").toJson)]).Spelled :=
    .record (by simp [spelled_toJson])
  have hargs : (arr [.obj [("typeRef", (primitive "Int32").toJson)]]).Spelled :=
    .arr (by simpa using hargument)
  have htype : (obj [("typeRef", (reference n).toJson), ("parameters", .arr
      [.obj [("typeRef", (primitive "Int32").toJson)]])]).Spelled :=
    .record (by simp [spelled_toJson, hargs])
  exact .record (by simp [htype])

/-- A struct with a field that has no type. -/
def untypedSale : Json :=
  structDocument "app" "Sale" [] [.obj [("name", .text "total")]]

def untypedStore : Store :=
  ⟨[⟨"app", [], [("Sale", ⟨"Sale", none, .struct [] [⟨"total", "", .missing, none, []⟩], []⟩)],
    []⟩]⟩

/-- Two declarations whose qualified names have one text, and a struct that
applies both. -/
def boxDocuments : List (String × Json) :=
  [("a.json", structDocument "a" "b.Box" ["T"] []),
    ("b.json", structDocument "a.b" "Box" ["T"] []),
    ("c.json", structDocument "c" "Sale" []
      [boxField "first" ⟨"a", "b.Box"⟩, boxField "second" ⟨"a.b", "Box"⟩])]

def boxStruct (name : String) : String × Declaration :=
  (name, ⟨name, none, .struct ["T"] [], []⟩)

def boxOf (n : ScopedName) : TypeExpr :=
  .app (.reference n) [.app (.primitive "Int32") []]

def boxStore : Store :=
  ⟨[⟨"a", [], [boxStruct "b.Box"], []⟩, ⟨"a.b", [], [boxStruct "Box"], []⟩,
    ⟨"c", [], [("Sale", ⟨"Sale", none, .struct [] [⟨"first", "", boxOf ⟨"a", "b.Box"⟩, none, []⟩,
      ⟨"second", "", boxOf ⟨"a.b", "Box"⟩, none, []⟩], []⟩)], []⟩]⟩

/-- Only the struct that applies the others seeds the graph. -/
def saleSettings : Settings := { standard with modules := ["c"] }

theorem decode_untypedSale :
    [("app.json", untypedSale.render)].mapM (fun document =>
      decode document.1 document.2) = .ok [untypedStore.modules] := by
  have hfield : (obj [("name", .text "total")]).Spelled :=
    .record (by simp)
  have hsound : untypedSale.Sound :=
    ⟨spelled_structDocument _ _ _ (by simpa using hfield), by decide⟩
  exact mapM_eq_ok.mpr (.cons (decode_render hsound rfl) .nil)

theorem decode_boxDocuments :
    (boxDocuments.map fun document => (document.1, document.2.render)).mapM (fun document =>
      decode document.1 document.2) = .ok (boxStore.modules.map ([·])) := by
  have hplain : ∀ moduleName name, (structDocument moduleName name ["T"] []).Spelled :=
    fun _ _ => spelled_structDocument _ _ _ (forall_mem_nil _)
  have hsale : (structDocument "c" "Sale" []
      [boxField "first" ⟨"a", "b.Box"⟩, boxField "second" ⟨"a.b", "Box"⟩]).Spelled :=
    spelled_structDocument _ _ _ (by simp [spelled_boxField])
  refine mapM_eq_ok.mpr (.cons ?_ (.cons ?_ (.cons ?_ .nil)))
  · exact decode_render ⟨hplain "a" "b.Box", by decide⟩ rfl
  · exact decode_render ⟨hplain "a.b" "Box", by decide⟩ rfl
  · exact decode_render ⟨hsale, by decide⟩ rfl

theorem build_boxStore : build saleSettings boxStore = .error (.panic none) := by
  refine bind_eq_error.mpr (.inr ⟨(), rfl, ?_⟩)
  obtain ⟨p, hclose, hrun⟩ : ∃ p, closeWithin ⟨boxStore, saleSettings.wrappers⟩
      saleSettings.inFocus (boxStore.keys.length + 2) [⟨"c", "Sale"⟩]
      (distinctRoots [] ((boxStore.allDecls.filter saleSettings.accepts).filter
        (isRoot saleSettings.tableKeys))) = .ok [p] ∧
      (Tracker.empty.run ⟨boxStore, saleSettings.wrappers⟩ [p]).2 = .error (.panic none) :=
    ⟨_, rfl, rfl⟩
  refine bind_eq_error.mpr (.inr ⟨[p], ?_, ?_⟩)
  · refine bind_eq_ok.mpr ⟨[p], hclose, ?_⟩
    rw [Projection.sort, mergeSort_singleton]
    rfl
  · exact bind_eq_error.mpr (.inl hrun)

/-- Both panics are met: over a field without a type, and over two boxes that
are written alike. -/
theorem build_panics_only_sales :
    (build .standard untypedStore = .error (.panic none) ∧ untypedStore.LacksType) ∧
      build saleSettings boxStore = .error (.panic none) ∧ ¬boxStore.LacksType ∧
      ∃ decls, Resolver.closure ⟨boxStore, saleSettings.wrappers⟩
          ((boxStore.allDecls.filter saleSettings.accepts).filter
            (Resolver.isRoot saleSettings.tableKeys)) saleSettings.inFocus = .ok decls ∧
        Tracker.Ambiguous (Tracker.Needed ⟨boxStore, saleSettings.wrappers⟩ decls) := by
  have huntyped : build .standard untypedStore = .error (.panic none) := rfl
  have htyped : ¬boxStore.LacksType := by decide
  refine ⟨⟨huntyped, ?_⟩, build_boxStore, htyped, ?_⟩
  · have hcauses := build_panics_only decode_untypedSale rfl huntyped
    refine hcauses.resolve_right ?_
    rintro ⟨_, decls, hdecls, _⟩
    have hclosure : Resolver.closure ⟨untypedStore, standard.wrappers⟩
        ((untypedStore.allDecls.filter standard.accepts).filter
          (Resolver.isRoot standard.tableKeys)) standard.inFocus =
        .error (.panic none) := rfl
    cases hclosure.symm.trans hdecls
  · have hcauses := build_panics_only decode_boxDocuments rfl build_boxStore
    exact (hcauses.resolve_left htyped).2

end Graph

end SchemaCompiler
