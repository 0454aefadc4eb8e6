import SchemaCompiler.Proofs.InstanceNames
import SchemaCompiler.Proofs.StableNames

/-!
# Repeated runs of a tracker

A tracker may be called again, also after a run that failed.  A run projects the
instances that it enters itself, so the call that enters an instance settles for
all later runs whether they answer with its projection.  A run that returns keeps
the projections of all instances it entered; recording a field keeps none; and a
run that fails leaves instances behind that no later run takes up.
-/

namespace SchemaCompiler.Tracker

open List Standard

variable {r : Resolver} {t t' s : Tracker} {i : Instance} {p : Projection} {calls : List Call}

/-! ## What calls add -/

/-- Instances are entered and none is taken out, and a projection that was not kept
before is that of an instance entered since. -/
structure Grown (r : Resolver) (t t' : Tracker) : Prop where
  consistent : t'.Consistent
  ordered : Keyed.Ordered t'.projections
  faces : t.faces ⊆ t'.faces
  lasting : ∀ text, (Keyed.find? text t.projections).isSome →
    (Keyed.find? text t'.projections).isSome
  kept : ∀ text p, Keyed.find? text t'.projections = some p →
    Keyed.find? text t.projections = some p ∨
      ∃ i ∈ t'.faces, i ∉ t.faces ∧ i.scopedName.text = text ∧ projectInstance r i = .ok p

theorem Grown.refl (h : t.Consistent) (hordered : Keyed.Ordered t.projections) : Grown r t t :=
  ⟨h, hordered, Subset.refl _, fun _ hsome => hsome, fun _ _ hp => .inl hp⟩

theorem Grown.trans {last : Tracker} (h : Grown r t t') (h' : Grown r t' last) :
    Grown r t last where
  consistent := h'.consistent
  ordered := h'.ordered
  faces := Subset.trans h.faces h'.faces
  lasting text hsome := h'.lasting text (h.lasting text hsome)
  kept text p hp := by
    rcases h'.kept text p hp with hp | ⟨i, hi, hnew, hi'⟩
    · rcases h.kept text p hp with hp | ⟨i, hi, hi'⟩
      · exact .inl hp
      · exact .inr ⟨i, h'.faces hi, hi'⟩
    · exact .inr ⟨i, hi, fun hold => hnew (h.faces hold), hi'⟩

theorem faces_subset_record (h : t.Consistent) (owner : String) (f : ConcreteField) :
    t.faces ⊆ (t.record r owner f).1.faces := by
  intro face hface
  obtain ⟨i, hi, rfl⟩ := mem_map.mp hface
  obtain ⟨j, hj, hsame, _⟩ := (kept_record (r := r) h owner f).instances i hi
  exact hsame ▸ mem_faces hj

theorem Consistent.nodup_faces (h : t.Consistent) : t.faces.Nodup :=
  Nodup.of_map _ h.distinct

theorem fresh_of_created (h : t.Consistent) {use : String} {application : Option TypeExpr}
    {found : Option (Instance × Bool)} (hrecorded : Recorded t use application (t', .ok found))
    (hi : i ∈ created found) : i.face ∈ t'.faces ∧ i.face ∉ t.faces := by
  obtain ⟨hperm, _⟩ := hrecorded.faces_perm
  have hnodup := (hperm.nodup_iff).mp (hrecorded.consistent h).nodup_faces
  have hmem : i.face ∈ (created found).map Instance.face := mem_map_of_mem hi
  refine ⟨hperm.mem_iff.mpr (mem_append_right _ hmem), fun hold => ?_⟩
  exact (nodup_append.mp hnodup).2.2 _ hold _ hmem rfl

theorem Grown.record (h : Grown r t s) (owner : String) (f : ConcreteField) :
    Grown r t (s.record r owner f).1 := by
  have hrecorded := record_recorded (r := r) h.consistent owner f
  have hfaces := faces_subset_record (r := r) h.consistent owner f
  refine ⟨hrecorded.consistent h.consistent, ?_, Subset.trans h.faces hfaces, ?_, ?_⟩
  · rw [hrecorded.projections]
    exact h.ordered
  · rw [hrecorded.projections]
    exact h.lasting
  · rw [hrecorded.projections]
    intro text p hp
    exact (h.kept text p hp).imp_right fun ⟨i, hi, hi'⟩ => ⟨i, hfaces hi, hi'⟩

theorem Grown.keep (h : Grown r t s) (hi : i.face ∈ s.faces) (hnew : i.face ∉ t.faces)
    (hp : projectInstance r i = .ok p) : Grown r t (s.keep p) := by
  refine ⟨h.consistent.keep p, h.ordered.insert, h.faces, ?_, ?_⟩
  · intro text hsome
    rw [Tracker.keep, Keyed.find?_insert]
    split_ifs
    · rfl
    · exact h.lasting text hsome
  · intro text q hq
    rw [Tracker.keep, Keyed.find?_insert] at hq
    split_ifs at hq with htext
    · obtain rfl := Option.some.inj hq
      refine .inr ⟨i.face, hi, hnew, ?_, hp⟩
      rw [htext, (exists_of_projectInstance_ok hp).1]
      rfl
    · exact h.kept text q hq

theorem grown_run (h : t.Consistent) (hordered : Keyed.Ordered t.projections)
    (ps : List Projection) : Grown r t (run r t ps).1 := by
  have hsteps : Steps r (Grown r t) (fun s i => i.face ∈ s.faces ∧ i.face ∉ t.faces)
      (fun _ => True) fun _ => True := by
    refine ⟨fun s owner f hs _ => ⟨hs.record owner f, fun i hi => ?_, fun found hfound i hi => ?_,
      fun _ _ => trivial⟩, fun _ _ _ _ _ _ => trivial,
      fun s i p hs hi hp => ⟨hs.keep hi.1 hi.2 hp, fun _ hj => hj, by simp⟩, by simp, by simp⟩
    · exact ⟨faces_subset_record hs.consistent owner f hi.1, hi.2⟩
    · have hrecord : s.record r owner f = ((s.record r owner f).1, .ok found) :=
        Prod.ext rfl hfound
      have hrecorded := recorded_of_record hs.consistent hrecord
      obtain ⟨hmem, hnew⟩ := fresh_of_created hs.consistent hrecorded hi
      exact ⟨hmem, fun hold => hnew (hs.faces hold)⟩
  exact (hsteps.run (by simp) (.refl h hordered)).holds

theorem grown_perform (h : t.Consistent) (hordered : Keyed.Ordered t.projections) (call : Call) :
    Grown r t (perform r t call) := by
  cases call with
  | record owner f => exact (Grown.refl h hordered).record owner f
  | run ps => exact grown_run h hordered ps

/-! ## Histories -/

theorem after_concat (calls : List Call) (call : Call) :
    after r (calls ++ [call]) = perform r (after r calls) call := by
  rw [after, foldl_append]
  rfl

/-- All that a tracker keeps are projections of its instances. -/
theorem grown_empty (r : Resolver) (calls : List Call) : Grown r .empty (after r calls) := by
  induction calls using reverseRecOn with
  | nil => exact .refl consistent_empty .nil
  | append_singleton calls call ih =>
    rw [after_concat]
    exact ih.trans (grown_perform ih.consistent ih.ordered call)

theorem grown_after (calls more : List Call) :
    Grown r (after r calls) (after r (calls ++ more)) := by
  induction more using reverseRecOn with
  | nil =>
    rw [append_nil]
    exact .refl (grown_empty r calls).consistent (grown_empty r calls).ordered
  | append_singleton more call ih =>
    rw [← append_assoc, after_concat]
    exact ih.trans (grown_perform ih.consistent ih.ordered call)

structure Enters (r : Resolver) (before : List Call) (call : Call) (i : Instance) : Prop where
  fresh : i.face ∉ (after r before).faces
  entered : i.face ∈ (after r (before ++ [call])).faces

theorem exists_enters (hi : i.face ∈ (after r calls).faces) :
    ∃ before call rest, calls = before ++ call :: rest ∧ Enters r before call i := by
  induction calls using reverseRecOn with
  | nil => cases hi
  | append_singleton calls call ih =>
    by_cases hold : i.face ∈ (after r calls).faces
    · obtain ⟨before, first, rest, rfl, henters⟩ := ih hold
      exact ⟨before, first, rest ++ [call], by simp, henters⟩
    · exact ⟨calls, call, [], rfl, hold, hi⟩

/-! ## Projections of instances -/

/-- The projection of the instance is kept. -/
def Keeps (r : Resolver) (t : Tracker) (i : Instance) : Prop :=
  ∃ p, Keyed.find? i.scopedName.text t.projections = some p ∧ projectInstance r i = .ok p

/-- No other instance has the same qualified name. -/
def Alone (t : Tracker) (i : Instance) : Prop :=
  ∀ j ∈ t.faces, j.scopedName.text = i.scopedName.text → j = i.face

theorem exists_of_find? (h : Grown r .empty t) {text : String}
    (hp : Keyed.find? text t.projections = some p) :
    ∃ i ∈ t.recorded, i.scopedName.text = text ∧ projectInstance r i = .ok p := by
  rcases h.kept text p hp with hnone | ⟨face, hface, _, htext, hproject⟩
  · cases hnone
  · obtain ⟨i, hi, rfl⟩ := mem_map.mp hface
    exact ⟨i, hi, htext, hproject⟩

theorem mem_instanceProjections_iff (h : Grown r .empty t) :
    p ∈ t.instanceProjections ↔ Keyed.find? p.name.text t.projections = some p := by
  rw [instanceProjections, Projection.sort, mem_mergeSort, mem_map]
  constructor
  · rintro ⟨⟨text, _⟩, hentry, rfl⟩
    have hfind := Keyed.find?_of_mem h.ordered.nodup_keys hentry
    obtain ⟨i, _, rfl, hproject⟩ := exists_of_find? h hfind
    rwa [(exists_of_projectInstance_ok hproject).1]
  · exact fun hfind => ⟨_, Keyed.mem_of_find?_eq_some hfind, rfl⟩

theorem keeps_iff (h : Grown r .empty t) :
    Keeps r t i ↔ ∃ p ∈ t.instanceProjections, projectInstance r i = .ok p := by
  refine exists_congr fun p => and_congr_left fun hp => ?_
  rw [mem_instanceProjections_iff h, (exists_of_projectInstance_ok hp).1]

/-- Each application has one instance. -/
theorem Consistent.face_eq_of_projectInstance (h : t.Consistent) {j : Instance}
    (hi : i.face ∈ t.faces) (hj : j.face ∈ t.faces) (hip : projectInstance r i = .ok p)
    (hjp : projectInstance r j = .ok p) : i.face = j.face := by
  obtain ⟨i', hi', hface⟩ := mem_map.mp hi
  obtain ⟨j', hj', hface'⟩ := mem_map.mp hj
  have htype : i'.face.typeExpr = j'.face.typeExpr := by
    rw [hface, hface']
    exact (typeExpr_of_projectInstance_ok hip).symm.trans (typeExpr_of_projectInstance_ok hjp)
  rw [← hface, ← hface', h.eq_of_typeExpr_eq hi' hj' htype]

/-- A projection that is missing is not kept later. -/
theorem Grown.keeps_of_keeps (h : Grown r t t') (hi : i.face ∈ t.faces) (hkeeps : Keeps r t' i) :
    Keeps r t i := by
  obtain ⟨p, hfind, hp⟩ := hkeeps
  rcases h.kept _ p hfind with hfind | ⟨face, hface, hnew, _, hproject⟩
  · exact ⟨p, hfind, hp⟩
  · obtain ⟨j, hj, rfl⟩ := mem_map.mp hface
    have hsame := h.consistent.face_eq_of_projectInstance (h.faces hi) hface hp hproject
    exact absurd (hsame ▸ hi) hnew

theorem Grown.keeps_of_alone (h : Grown r t t') (hi : i.face ∈ t.faces) (halone : Alone t' i)
    (hkeeps : Keeps r t i) : Keeps r t' i := by
  obtain ⟨p, hfind, hp⟩ := hkeeps
  obtain ⟨q, hq⟩ := Option.isSome_iff_exists.mp (h.lasting _ (Option.isSome_of_eq_some hfind))
  rcases h.kept _ q hq with hold | ⟨face, hface, hnew, htext, _⟩
  · obtain rfl := Option.some.inj (hfind.symm.trans hold)
    exact ⟨p, hq, hp⟩
  · exact absurd hi (halone face hface htext ▸ hnew)

/-- A run that returns keeps a projection under the name of each instance it
entered. -/
theorem isSome_of_run_ok (h : t.Consistent) {ps out : List Projection}
    (hrun : run r t ps = (t', .ok out)) (hfresh : i.face ∉ t.faces) (hi : i.face ∈ t'.faces) :
    (Keyed.find? i.scopedName.text t'.projections).isSome := by
  obtain ⟨_, all, hcompletes⟩ := completes_of_run h hrun
  have hmem : i.face ∈ all.map Instance.face :=
    (mem_append.mp ((hcompletes.advance.faces_perm h).mem_iff.mp hi)).resolve_left hfresh
  obtain ⟨j, hj, hface⟩ := mem_map.mp hmem
  have hname : j.face.scopedName = i.face.scopedName := by rw [hface]
  let kept := (all.flatMap (instanceEvents r)).filterMap Event.kept?
  have hkept : i.scopedName ∈ kept.map (·.name) := by
    have hnames := congrArg (map Prod.fst) (map_kept_instances hcompletes.projected)
    rw [map_map, map_map] at hnames
    exact hnames ▸ mem_map.mpr ⟨j, hj, hname⟩
  rw [hcompletes.advance.projections_eq h, filterMap_append, filterMap_kept_roots, nil_append]
  refine Keyed.contains_iff.mpr (Keyed.mem_keys_insertAll (.inr ?_))
  rw [Keyed.keys_keyed]
  obtain ⟨p, hp, hpname⟩ := mem_map.mp hkept
  exact mem_map.mpr ⟨p, hp, congrArg ScopedName.text hpname⟩

/-- Under a name of its own, what is kept is the projection of the instance. -/
theorem keeps_of_isSome (h : Grown r .empty t) (halone : Alone t i)
    (hsome : (Keyed.find? i.scopedName.text t.projections).isSome) : Keeps r t i := by
  obtain ⟨p, hp⟩ := Option.isSome_iff_exists.mp hsome
  obtain ⟨j, hj, htext, hproject⟩ := exists_of_find? h hp
  have hface : j.face = i.face := halone j.face (mem_faces hj) htext
  refine ⟨p, hp, ?_⟩
  calc projectInstance r i = projectInstance r j.face := by rw [hface]; rfl
    _ = .ok p := hproject

theorem alone_of_nodup (hnodup : (t.recorded.map (·.scopedName.text)).Nodup) (hi : i ∈ t.recorded) :
    Alone t i := by
  intro face hface htext
  obtain ⟨j, hj, rfl⟩ := mem_map.mp hface
  rw [inj_on_of_nodup_map hnodup hj hi htext]

/-- The projection was kept by the call that entered the instance. -/
def KeptOnEntry (r : Resolver) (calls : List Call) (i : Instance) : Prop :=
  ∃ before call rest, calls = before ++ call :: rest ∧ Enters r before call i ∧
    Keeps r (after r (before ++ [call])) i

theorem grown_entered (before : List Call) (call : Call) (rest : List Call) :
    Grown r (after r (before ++ [call])) (after r (before ++ call :: rest)) := by
  have hrest := grown_after (r := r) (before ++ [call]) rest
  rwa [append_assoc] at hrest

theorem keptOnEntry_of_keeps (hi : i ∈ (after r calls).recorded)
    (hkeeps : Keeps r (after r calls) i) : KeptOnEntry r calls i := by
  obtain ⟨before, call, rest, rfl, henters⟩ := exists_enters (mem_faces hi)
  exact ⟨before, call, rest, rfl, henters,
    (grown_entered before call rest).keeps_of_keeps henters.entered hkeeps⟩

theorem KeptOnEntry.keeps (h : KeptOnEntry r calls i) (halone : Alone (after r calls) i) :
    Keeps r (after r calls) i := by
  obtain ⟨before, call, rest, rfl, henters, hkeeps⟩ := h
  exact (grown_entered before call rest).keeps_of_alone henters.entered halone hkeeps

/-- All projections are kept exactly if no two instances share a name and each
projection was kept by the call that entered its instance. -/
theorem forall_keeps_iff (calls : List Call) :
    (∀ i ∈ (after r calls).recorded, Keeps r (after r calls) i) ↔
      ((after r calls).recorded.map (·.scopedName.text)).Nodup ∧
        ∀ i ∈ (after r calls).recorded, KeptOnEntry r calls i := by
  have hconsistent := consistent_after r calls
  constructor
  · intro hall
    refine ⟨?_, fun i hi => keptOnEntry_of_keeps hi (hall i hi)⟩
    have hnodup : (after r calls).recorded.Nodup := Nodup.of_map _ hconsistent.nodup_faces
    refine hnodup.map_on fun i hi j hj htext => ?_
    obtain ⟨p, hfind, hp⟩ := hall i hi
    obtain ⟨q, hfind', hq⟩ := hall j hj
    rw [htext, hfind'] at hfind
    obtain rfl := Option.some.inj hfind
    refine hconsistent.eq_of_typeExpr_eq hi hj ?_
    exact (typeExpr_of_projectInstance_ok hp).symm.trans (typeExpr_of_projectInstance_ok hq)
  · rintro ⟨hnodup, hentry⟩ i hi
    exact (hentry i hi).keeps (alone_of_nodup hnodup hi)

theorem not_keeps_of_record {before : List Call} {owner : String} {f : ConcreteField}
    (h : Enters r before (.record owner f) i) :
    ¬ Keeps r (after r (before ++ [.record owner f])) i := by
  rintro ⟨p, hfind, hp⟩
  have hgrown := grown_empty r before
  have hconsistent := consistent_after r (before ++ [.record owner f])
  have hprojections : (after r (before ++ [.record owner f])).projections =
      (after r before).projections := by
    rw [after_concat]
    exact (record_recorded hgrown.consistent owner f).projections
  rw [hprojections] at hfind
  obtain ⟨j, hj, _, hproject⟩ := exists_of_find? hgrown hfind
  have hlater := (grown_after (r := r) before [.record owner f]).faces (mem_faces hj)
  have hsame := hconsistent.face_eq_of_projectInstance h.entered hlater hp hproject
  exact h.fresh (hsame ▸ mem_faces hj)

/-! ## What a run answers -/

/-- The instance stands in the table. -/
def Listed (t : Tracker) (i : Instance) : Prop :=
  ∃ entry ∈ t.table, i ∈ entry.2

theorem listed_iff : Listed t i ↔ i ∈ t.recorded := by
  simp [Listed, table, recorded, Instance.sort, mem_flatMap]

/-- A run that returns after any other calls answers with projections of listed
instances.  All of them are there exactly if their names differ and each was
projected by the call that entered it: an instance that was recorded on its own is
missing, and one that a returning run entered is there, if its name is its own. -/
theorem projected_by_entering_call (r : Resolver) (calls : List Call) {ps out : List Projection}
    (hrun : run r (after r calls) ps = (t', .ok out)) :
    (∀ p ∈ out, ∃ i, Listed t' i ∧ projectInstance r i = .ok p) ∧
    ((∀ i, Listed t' i → ∃ p ∈ out, projectInstance r i = .ok p) ↔
      (t'.recorded.map (·.scopedName.text)).Nodup ∧
        ∀ i, Listed t' i → KeptOnEntry r (calls ++ [.run ps]) i) ∧
    ∀ before call rest, calls ++ [.run ps] = before ++ call :: rest →
      ∀ i, Enters r before call i →
        ((∃ p ∈ out, projectInstance r i = .ok p) →
          Keeps r (after r (before ++ [call])) i) ∧
        (Alone t' i → Keeps r (after r (before ++ [call])) i →
          ∃ p ∈ out, projectInstance r i = .ok p) ∧
        (∀ owner f, call = .record owner f → ¬ ∃ p ∈ out, projectInstance r i = .ok p) ∧
        ∀ qs got, call = .run qs → (run r (after r before) qs).2 = .ok got →
          (∃ p ∈ out, p.name.text = i.scopedName.text) ∧
          (Alone t' i → ∃ p ∈ out, projectInstance r i = .ok p) := by
  obtain ⟨rfl, _⟩ := completes_of_run (consistent_after r calls) hrun
  obtain rfl : after r (calls ++ [.run ps]) = t' := by
    rw [after_concat, perform, hrun]
  have hgrown := grown_empty r (calls ++ [.run ps])
  simp only [← keeps_iff hgrown, listed_iff]
  refine ⟨?_, forall_keeps_iff _, ?_⟩
  · intro p hp
    obtain ⟨i, hi, _, hproject⟩ := exists_of_find? hgrown
      ((mem_instanceProjections_iff hgrown).mp hp)
    exact ⟨i, hi, hproject⟩
  · intro before call rest hcalls i henters
    rw [hcalls] at hgrown ⊢
    have hsince := grown_entered (r := r) before call rest
    have hback : Keeps r (after r (before ++ call :: rest)) i →
        Keeps r (after r (before ++ [call])) i := hsince.keeps_of_keeps henters.entered
    refine ⟨hback, hsince.keeps_of_alone henters.entered, ?_, ?_⟩
    · rintro owner f rfl hkeeps
      exact not_keeps_of_record henters (hback hkeeps)
    · rintro qs got rfl hgot
      have hsome : (Keyed.find? i.scopedName.text
          (after r (before ++ .run qs :: rest)).projections).isSome := by
        refine hsince.lasting _ (isSome_of_run_ok (consistent_after r before)
          (Prod.ext ?_ hgot) henters.fresh henters.entered)
        rw [after_concat, perform]
      refine ⟨?_, fun halone => keeps_of_isSome hgrown halone hsome⟩
      obtain ⟨p, hp⟩ := Option.isSome_iff_exists.mp hsome
      obtain ⟨j, _, htext, hj⟩ := exists_of_find? hgrown hp
      rw [← htext, ← (exists_of_projectInstance_ok hj).1] at hp ⊢
      exact ⟨p, (mem_instanceProjections_iff hgrown).mpr hp, rfl⟩

/-! ## A run that is tried again -/

def leftBox : ScopedDecl :=
  ⟨"app", (structDecl "Box" ["T"] [field "item" (.param "T")]).2⟩

/-- Its argument must be a struct or union. -/
def leftBad : ScopedDecl :=
  ⟨"app", (structDecl "Bad" ["T"]
    [{ field "all" (.param "T") with annotations := [⟨spreadKey, .absent⟩] }]).2⟩

def leftSale : ScopedDecl :=
  ⟨"app", (structDecl "Sale" [] [field "bad" (.ref leftBad.name [text]),
    field "box" (.ref leftBox.name [text])]).2⟩

def left : Resolver :=
  ⟨⟨[⟨"app", [], [leftBad, leftBox, leftSale].map fun d => (d.decl.name, d.decl), []⟩]⟩, .standard⟩

def leftProjection : Projection where
  name := leftSale.name
  decl := leftSale
  kind := .struct
  shape := leftSale.name
  fields := leftSale.decl.body.fields.map fun f =>
    ⟨f, .one, true, true, none, [], leftSale.name⟩
  annotations := []
  generic := false
  external := false
  isInstance := false
  typeExpr := .missing
  path := []

theorem run_left :
    left.project leftSale [] = .ok leftProjection ∧
    (∃ failure, (run left .empty [leftProjection]).2 = .error failure) ∧
    ∃ t, run left (after left [.run [leftProjection]]) [leftProjection] =
      (t, .ok t.instanceProjections) ∧ t.projections = [] ∧
      t.recorded.map (·.scopedName.text) = ["app._Bad_String", "app._Box_String"] :=
  ⟨rfl, ⟨_, rfl⟩, _, rfl, rfl, rfl⟩

/-- The second try returns, without the instances that the first one left behind. -/
theorem projected_by_entering_call_left :
    left.project leftSale [] = .ok leftProjection ∧
    (∃ failure, (run left .empty [leftProjection]).2 = .error failure) ∧
    ∃ t, run left (after left [.run [leftProjection]]) [leftProjection] = (t, .ok []) ∧
      (t.recorded.map (·.scopedName.text)).Nodup ∧
      ∃ i, Listed t i ∧ ¬ KeptOnEntry left [.run [leftProjection], .run [leftProjection]] i := by
  obtain ⟨hproject, hfails, t, hrun, hnone, hnames⟩ := run_left
  have hempty : t.instanceProjections = [] := by
    rw [instanceProjections, hnone]
    exact mergeSort_nil
  rw [hempty] at hrun
  have hdistinct : (t.recorded.map (·.scopedName.text)).Nodup := by
    rw [hnames]
    decide
  refine ⟨hproject, hfails, t, hrun, hdistinct, ?_⟩
  obtain ⟨i, hi⟩ : ∃ i, i ∈ t.recorded := by
    refine exists_mem_of_ne_nil _ fun hnil => ?_
    rw [hnil] at hnames
    cases hnames
  by_contra hall
  push Not at hall
  obtain ⟨_, honce, _⟩ := projected_by_entering_call left [.run [leftProjection]] hrun
  obtain ⟨p, hp, _⟩ := honce.mpr ⟨hdistinct, hall⟩ i (listed_iff.mpr hi)
  cases hp

end SchemaCompiler.Tracker
