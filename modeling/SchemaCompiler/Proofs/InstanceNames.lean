import SchemaCompiler.Proofs.InstanceRun
import SchemaCompiler.StandardModules

/-!
# Names of instances

Two instances of one declaration have different names, whatever was recorded
before them.  Instances of two declarations of one module can share a name;
where both apply their declaration to arguments, the name of the one
declaration is then that of the other with an underscore and more.  The
projections of a run are kept by name, so that they stand for the recorded
instances, one for one, exactly when no two instances share a qualified name.
-/

namespace SchemaCompiler

open List Standard

namespace Instance

variable {as : List TypeExpr} {a : TypeExpr} {g : ScopedName}

/-- The instance applies its declaration to arguments. -/
def Applies (i : Instance) : Prop :=
  ∃ a as, i.typeExpr = .app (.reference i.generic) (a :: as)

theorem underscore_starts_readableArgs {args : String} (h : readableArgs (a :: as) = .ok args) :
    ['_'] <+: args.toList := by
  rw [readableArgs] at h
  split at h
  · cases h
  · rename_i first _
    split at h
    · cases h
    · rename_i more _
      obtain rfl : "_" ++ first ++ more = args := by simpa using h
      exact ⟨first.toList ++ more.toList, by simp⟩

theorem declaration_starts_readableName {name : String}
    (h : readableName (.app (.reference g) (a :: as)) = .ok name) :
    '_' :: (g.name.toList ++ ['_']) <+: name.toList := by
  rw [readableName] at h
  split at h
  · cases h
  · rename_i args hargs
    obtain rfl : "_" ++ g.name ++ args = name := by simpa [TypeExpr.headText] using h
    obtain ⟨rest, hrest⟩ := underscore_starts_readableArgs hargs
    exact ⟨rest, by simp [← hrest]⟩

/-- The name of an application starts with that of its declaration, between
underscores. -/
theorem declaration_starts_uniqueName {others : List Instance} {name : String}
    (h : uniqueName others (.app (.reference g) (a :: as)) = .ok name) :
    '_' :: (g.name.toList ++ ['_']) <+: name.toList := by
  unfold uniqueName at h
  split at h
  · cases h
  · rename_i base hbase
    have hstart := declaration_starts_readableName hbase
    split at h
    · obtain rfl : base = name := by simpa using h
      exact hstart
    · split at h
      · obtain rfl : base = name := by simpa using h
        exact hstart
      · obtain rfl : base ++ "_" ++ _ = name := by simpa using h
        refine hstart.trans ?_
        simp only [String.toList_append, append_assoc]
        exact prefix_append _ _

end Instance

/-- One name is the other with an underscore and more. -/
def Extends (long short : String) : Prop :=
  ∃ rest, long = short ++ "_" ++ rest

theorem extends_of_start {long short : String}
    (h : short.toList ++ ['_'] <+: long.toList) : Extends long short := by
  obtain ⟨rest, hrest⟩ := h
  refine ⟨String.ofList rest, String.toList_injective ?_⟩
  simp [← hrest]

/-- Two names with an underscore after them start one text only if they are
the same or one extends the other. -/
theorem eq_or_extends {left right : String} {text : List Char}
    (hleft : left.toList ++ ['_'] <+: text) (hright : right.toList ++ ['_'] <+: text) :
    left = right ∨ Extends left right ∨ Extends right left := by
  rcases prefix_or_prefix_of_prefix hleft hright with h | h
  · rcases prefix_concat_iff.mp h with heq | hlt
    · exact .inl (String.toList_injective (append_cancel_right heq))
    · exact .inr (.inr (extends_of_start hlt))
  · rcases prefix_concat_iff.mp h with heq | hlt
    · exact .inl (String.toList_injective (append_cancel_right heq).symm)
    · exact .inr (.inl (extends_of_start hlt))

namespace Tracker

variable {r : Resolver} {t t' : Tracker} {i : Instance}

/-! ## Any sequence of calls -/

inductive Call where
  | record (owner : String) (field : ConcreteField)
  | run (ps : List Projection)

/-- The tracker after a call, which may have failed. -/
def perform (r : Resolver) (t : Tracker) : Call → Tracker
  | .record owner f => (t.record r owner f).1
  | .run ps => (t.run r ps).1

/-- A new tracker after calls in order. -/
def after (r : Resolver) (calls : List Call) : Tracker :=
  calls.foldl (perform r) .empty

theorem consistent_after (r : Resolver) (calls : List Call) : (after r calls).Consistent := by
  have hfold : ∀ {t : Tracker}, t.Consistent → (calls.foldl (perform r) t).Consistent := by
    induction calls with
    | nil => exact fun ht => ht
    | cons call rest ih =>
      intro t ht
      refine ih ?_
      cases call with
      | record owner f => exact ht.record owner f
      | run ps => exact ht.run ps
  exact hfold consistent_empty

/-- Different instances of one name are of different declarations. -/
theorem Consistent.generic_ne (h : t.Consistent) {j : Instance} (hi : i ∈ t.recorded)
    (hj : j ∈ t.recorded) (hne : i.typeExpr ≠ j.typeExpr) (hname : i.name = j.name) :
    i.generic ≠ j.generic := by
  intro hgeneric
  exact hne (congrArg Instance.typeExpr (h.eq_of_name_eq hi hj hgeneric hname))

theorem Consistent.extends (h : t.Consistent) {j : Instance} (hi : i ∈ t.recorded)
    (hj : j ∈ t.recorded) (hiapp : i.Applies) (hjapp : j.Applies) (hname : i.name = j.name) :
    i.generic.name = j.generic.name ∨ Extends i.generic.name j.generic.name ∨
      Extends j.generic.name i.generic.name := by
  have hstart : ∀ {k : Instance}, k ∈ t.recorded → k.Applies →
      '_' :: (k.generic.name.toList ++ ['_']) <+: k.name.toList := by
    rintro k hk ⟨a, as, htype⟩
    obtain ⟨others, hunique⟩ := h.named _ (mem_faces hk)
    rw [Instance.face_typeExpr, htype] at hunique
    exact Instance.declaration_starts_uniqueName hunique
  obtain ⟨more, hmore⟩ := hstart hi hiapp
  obtain ⟨more', hmore'⟩ := hstart hj hjapp
  rw [hname, ← hmore'] at hmore
  refine eq_or_extends ⟨more, (cons.inj hmore).2⟩ ⟨more', rfl⟩

/-! ## Projections kept by name -/

theorem typeExpr_of_projectInstance_ok {p : Projection} (h : projectInstance r i = .ok p) :
    p.typeExpr = i.typeExpr := by
  obtain ⟨_, q, hq, htype, _⟩ := exists_of_projectInstance_ok h
  exact htype.trans (Resolver.typeExpr_of_projectType_ok hq)

theorem filterMap_kept_roots (ps : List Projection) :
    (ps.flatMap rootEvents).filterMap Event.kept? = [] := by
  refine filterMap_eq_nil_iff.mpr fun event hevent => ?_
  obtain ⟨p, _, hevent⟩ := mem_flatMap.mp hevent
  unfold rootEvents at hevent
  split at hevent
  · cases hevent
  · obtain ⟨f, _, rfl⟩ := mem_map.mp hevent
    rfl

/-- Each instance has its projection kept, under its own name and with its own
application. -/
theorem map_kept_instances {is : List Instance}
    (h : ∀ i ∈ is, ∃ p, projectInstance r i = .ok p) :
    ((is.flatMap (instanceEvents r)).filterMap Event.kept?).map (fun p => (p.name, p.typeExpr)) =
      is.map fun i => (i.scopedName, i.typeExpr) := by
  induction is with
  | nil => rfl
  | cons i rest ih =>
    obtain ⟨⟨p, hp⟩, hrest⟩ := forall_mem_cons.mp h
    have hfields : (p.fields.map (Event.use i.name)).filterMap Event.kept? = [] :=
      filterMap_eq_nil_iff.mpr (by simp [Event.kept?])
    have hname := (exists_of_projectInstance_ok hp).1
    have htype := typeExpr_of_projectInstance_ok hp
    rw [flatMap_cons, instanceEvents, hp]
    simp [Event.kept?, hfields, hname, htype, ih hrest]

theorem instanceProjections_perm_iff {ps : List Projection} {all : List Instance}
    (h : Completes r .empty ps t all) :
    (t.instanceProjections.map fun p => (p.name, p.typeExpr)).Perm
        (t.recorded.map fun i => (i.scopedName, i.typeExpr)) ↔
      (t.recorded.map (·.scopedName.text)).Nodup := by
  let kept := (all.flatMap (instanceEvents r)).filterMap Event.kept?
  have hprojections : t.projections = Keyed.insertAll [] (Keyed.keyed (·.name.text) kept) := by
    rw [h.advance.projections_eq consistent_empty, filterMap_append, filterMap_kept_roots]
    rfl
  have hkept : (kept.map fun p => (p.name, p.typeExpr)).Perm
      (t.recorded.map fun i => (i.scopedName, i.typeExpr)) := by
    rw [map_kept_instances h.projected]
    exact (h.map_recorded_perm fun _ => rfl).symm
  have htexts : (kept.map (·.name.text)).Perm (t.recorded.map (·.scopedName.text)) := by
    have hmap := hkept.map fun named => named.1.text
    rwa [map_map, map_map] at hmap
  have hsorted : (t.instanceProjections.map fun p => (p.name, p.typeExpr)).Perm
      ((t.projections.map (·.2)).map fun p => (p.name, p.typeExpr)) :=
    (mergeSort_perm _ _).map _
  have hall : ((t.projections.map (·.2)).map fun p => (p.name, p.typeExpr)).Perm
        (kept.map fun p => (p.name, p.typeExpr)) ↔ (kept.map (·.name.text)).Nodup := by
    rw [hprojections]
    exact Keyed.map_insertAll_perm_iff (fun named : ScopedName × TypeExpr => named.1.text)
      (fun _ => rfl) kept
  rw [← htexts.nodup_iff, ← hall]
  exact ⟨fun hperm => hsorted.symm.trans (hperm.trans hkept.symm),
    fun hperm => hsorted.trans (hperm.trans hkept)⟩

/-- Instances of one qualified name are of two declarations of one module, and
after a successful run the projections stand for the instances, one for one,
exactly when no such two were recorded. -/
theorem instances_projected_once_iff (r : Resolver) :
    (∀ calls, ∀ i ∈ (after r calls).recorded, ∀ j ∈ (after r calls).recorded,
        i.typeExpr ≠ j.typeExpr → i.scopedName = j.scopedName →
          i.generic.moduleName = j.generic.moduleName ∧ i.generic.name ≠ j.generic.name ∧
          (i.Applies → j.Applies →
            Extends i.generic.name j.generic.name ∨ Extends j.generic.name i.generic.name)) ∧
      ∀ ps t out, run r .empty ps = (t, .ok out) →
        ((out.map fun p => (p.name, p.typeExpr)).Perm
            (t.recorded.map fun i => (i.scopedName, i.typeExpr)) ↔
          (t.recorded.map (·.scopedName.text)).Nodup) := by
  constructor
  · intro calls i hi j hj hne hscoped
    have hconsistent := consistent_after r calls
    obtain ⟨hmodule, hname⟩ : i.generic.moduleName = j.generic.moduleName ∧ i.name = j.name := by
      simpa [Instance.scopedName] using hscoped
    have hdecl : i.generic.name ≠ j.generic.name := fun hsame =>
      hconsistent.generic_ne hi hj hne hname (ScopedName.ext hmodule hsame)
    refine ⟨hmodule, hdecl, fun hiapp hjapp => ?_⟩
    exact (hconsistent.extends hi hj hiapp hjapp hname).resolve_left hdecl
  · intro ps t out hrun
    obtain ⟨rfl, all, hcompletes⟩ := completes_of_run consistent_empty hrun
    exact instanceProjections_perm_iff hcompletes

/-! ## Two declarations that clash -/

def salePair : ScopedDecl :=
  ⟨"app", ⟨"Pair", none, .struct ["L", "R"]
    [field "left" (.param "L"), field "right" (.param "R")], []⟩⟩

def saleTagged : ScopedDecl :=
  ⟨"app", ⟨"Pair_String", none, .struct ["T"] [field "value" (.param "T")], []⟩⟩

/-- Both are called `_Pair_String_Int32`. -/
def saleFirst : TypeExpr := .ref salePair.name [.prim "String", .prim "Int32"]

def saleSecond : TypeExpr := .ref saleTagged.name [.prim "Int32"]

def sale : ScopedDecl :=
  ⟨"app", ⟨"Sale", none, .struct []
    [field "first" saleFirst, field "second" saleSecond], []⟩⟩

def sales : Resolver :=
  ⟨⟨[⟨"app", [], [salePair, saleTagged, sale].map fun d => (d.decl.name, d.decl), []⟩]⟩,
    .standard⟩

def saleProjection : Projection where
  name := sale.name
  decl := sale
  kind := .struct
  shape := sale.name
  fields := [("first", saleFirst), ("second", saleSecond)].map fun (name, type) =>
    ⟨field name type, .one, true, true, none, [], sale.name⟩
  annotations := []
  generic := false
  external := false
  isInstance := false
  typeExpr := .missing
  path := []

def saleInstances : List Instance :=
  [⟨"_Pair_String_Int32", salePair.name, saleFirst, ["Sale::first"]⟩,
    ⟨"_Pair_String_Int32", saleTagged.name, saleSecond, ["Sale::second"]⟩]

theorem run_sales_recorded :
    sales.project sale [] = .ok saleProjection ∧ ∃ out,
      run sales .empty [saleProjection] = (after sales [.run [saleProjection]], .ok out) ∧
      (after sales [.run [saleProjection]]).recorded = saleInstances :=
  ⟨rfl, _, rfl, rfl⟩

/-- The projection of one of the two is lost. -/
theorem instances_projected_once_sale :
    ∃ t out, sales.project sale [] = .ok saleProjection ∧
      run sales .empty [saleProjection] = (t, .ok out) ∧
      (∃ i ∈ t.recorded, ∃ j ∈ t.recorded, i.typeExpr ≠ j.typeExpr ∧
        i.scopedName = j.scopedName ∧ i.generic.name ≠ j.generic.name ∧
        (Extends i.generic.name j.generic.name ∨ Extends j.generic.name i.generic.name)) ∧
      ¬ (out.map fun p => (p.name, p.typeExpr)).Perm
        (t.recorded.map fun i => (i.scopedName, i.typeExpr)) := by
  obtain ⟨hproject, out, hrun, hrecorded⟩ := run_sales_recorded
  obtain ⟨hclash, honce⟩ := instances_projected_once_iff sales
  refine ⟨_, out, hproject, hrun, ?_, ?_⟩
  · have hmem : ∀ i ∈ saleInstances, i ∈ (after sales [.run [saleProjection]]).recorded :=
      fun i hi => hrecorded ▸ hi
    have hi := hmem _ (.head _)
    have hj := hmem _ (.tail _ (.head _))
    obtain ⟨_, hne, hextends⟩ := hclash _ _ hi _ hj (by decide) rfl
    exact ⟨_, hi, _, hj, by decide, rfl, hne, hextends ⟨_, _, rfl⟩ ⟨_, _, rfl⟩⟩
  · rw [honce _ _ _ hrun, hrecorded]
    decide

end Tracker

end SchemaCompiler
