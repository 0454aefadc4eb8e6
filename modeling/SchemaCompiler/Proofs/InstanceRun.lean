import SchemaCompiler.Proofs.InstanceTable
import SchemaCompiler.Proofs.Keyed
import SchemaCompiler.Proofs.Projection

/-!
# Runs of the tracker

A run only records fields and keeps projections, so what these two steps
preserve a run preserves, whether it succeeds or fails.  A successful run is
described by its events: first the fields of the given projections, then for
each instance that came up its projection and the fields of that, and the
instances that came up are exactly those that recording these events created.
-/

namespace SchemaCompiler.Tracker

open List

open Outcome (FailsOnly failsOnly_ok failsOnly_error)

variable {r : Resolver} {t t' : Tracker} {new pending is : List Instance} {i : Instance}
  {ps : List Projection} {owner : String} {events : List Event}

/-- The tracker with a projection kept under its name. -/
def keep (t : Tracker) (p : Projection) : Tracker :=
  { t with projections := Keyed.insert p.name.text p t.projections }

/-- The instance that a recorded field created. -/
def created : Option (Instance × Bool) → List Instance
  | some (i, true) => [i]
  | _ => []

/-- A success adds what it created and nothing else. -/
theorem Recorded.faces_perm {use : String} {application : Option TypeExpr}
    {found : Option (Instance × Bool)} (h : Recorded t use application (t', .ok found)) :
    t'.faces.Perm (t.faces ++ (created found).map Instance.face) ∧
      ∀ i ∈ created found, application = some i.typeExpr := by
  obtain ⟨_, _, heffect⟩ := h
  cases heffect with
  | passed _ hrecorded =>
    exact ⟨by simpa [created, faces] using hrecorded.map Instance.face, by simp [created]⟩
  | again _ _ _ _ hrecorded =>
    exact ⟨by simpa [created] using faces_perm_of_again hrecorded, by simp [created]⟩
  | new _ _ _ _ hrecorded =>
    exact ⟨faces_perm_append hrecorded, by simp [created]⟩

/-! ## One step after another -/

section Sequences

variable {α β : Type} {next : Tracker → α → Tracker × Outcome β} {first : Tracker × Outcome α}
  {place : Failure → Failure}

/-- Continues after a step that succeeded; `place` completes a failure. -/
def andThen (place : Failure → Failure) (first : Tracker × Outcome α)
    (next : Tracker → α → Tracker × Outcome β) : Tracker × Outcome β :=
  match first with
  | (t, .error failure) => (t, .error (place failure))
  | (t, .ok a) => next t a

theorem andThen_eq_ok {b : β} :
    andThen place first next = (t, .ok b) ↔
      ∃ s a, first = (s, .ok a) ∧ next s a = (t, .ok b) := by
  obtain ⟨s, outcome⟩ := first
  cases outcome with
  | error failure | ok a => simp [andThen]

end Sequences

theorem recordFields_cons (owner : String) (place : ConcreteField → Failure → Failure)
    (f : ConcreteField) (rest : List ConcreteField) :
    recordFields r owner place t (f :: rest) =
      andThen (place f) (t.record r owner f) fun t found =>
        andThen id (recordFields r owner place t rest) fun t more =>
          (t, .ok (created found ++ more)) := by
  rw [recordFields]
  rcases t.record r owner f with ⟨s, failure | found⟩
  · rfl
  · dsimp only [andThen]
    rcases recordFields r owner place s rest with ⟨_, failure | more⟩
    · rfl
    · rcases found with _ | ⟨i, _ | _⟩ <;> rfl

theorem recordAll_cons (p : Projection) (rest : List Projection) :
    recordAll r t (p :: rest) =
      if p.generic then recordAll r t rest
      else
        andThen id (recordFields r p.name.name (fun f => Failure.located p.name f.name p.path) t
            p.fields) fun t new =>
          andThen id (recordAll r t rest) fun t more => (t, .ok (new ++ more)) := by
  rw [recordAll]
  rcases recordFields r p.name.name (fun f => Failure.located p.name f.name p.path) t p.fields
    with ⟨s, failure | new⟩
  · rfl
  · dsimp only [andThen]
    rcases recordAll r s rest with ⟨_, failure | more⟩ <;> rfl

theorem projectAll_cons (i : Instance) (rest : List Instance) :
    projectAll r t (i :: rest) =
      andThen id (t, projectInstance r i) fun t p =>
        andThen id (recordFields r i.name (fun f => Failure.located i.generic f.name [])
            (t.keep p) p.fields) fun t new =>
          andThen id (projectAll r t rest) fun t more => (t, .ok (new ++ more)) := by
  rw [projectAll]
  cases projectInstance r i with
  | error failure => rfl
  | ok p =>
    dsimp only [andThen, keep]
    rcases recordFields r i.name (fun f => Failure.located i.generic f.name [])
      { t with projections := Keyed.insert p.name.text p t.projections } p.fields
      with ⟨s, failure | new⟩
    · rfl
    · dsimp only
      rcases projectAll r s rest with ⟨_, failure | more⟩ <;> rfl

theorem settle_succ (rounds : Nat) (h : pending ≠ []) :
    settle r (rounds + 1) t pending =
      andThen id (projectAll r t pending) (settle r rounds) := by
  cases pending with
  | nil => exact absurd rfl h
  | cons i rest =>
    rw [settle]
    · rcases projectAll r t (i :: rest) with ⟨_, failure | next⟩ <;> rfl
    · exact h

theorem run_eq (ps : List Projection) :
    run r t ps =
      andThen id (recordAll r t ps) fun t pending =>
        andThen id (settle r maxRounds t pending) fun t _ => (t, .ok t.instanceProjections) := by
  rw [run]
  rcases recordAll r t ps with ⟨s, failure | pending⟩
  · rfl
  · dsimp only [andThen]
    rcases settle r maxRounds s pending with ⟨_, failure | _⟩ <;> rfl

/-! ## A rule for runs -/

section Rule

variable {α β : Type} {P : Tracker → Prop} {N : Tracker → Instance → Prop}
  {Q : ConcreteField → Prop} {F : Failure → Prop} {part : α → List Instance}

/-- The state after a part of a run has `P`, what was pending still is, and so are the instances
that the part hands on; it fails in the ways of `F` only. -/
structure Sustains (P : Tracker → Prop) (N : Tracker → Instance → Prop) (F : Failure → Prop)
    (part : α → List Instance) (t : Tracker) (result : Tracker × Outcome α) : Prop where
  holds : P result.1
  pending : ∀ i, N t i → N result.1 i
  new : ∀ a, result.2 = .ok a → ∀ i ∈ part a, N result.1 i
  fails : FailsOnly F result.2

theorem sustains_ok {a : α} (ht : P t) (ha : ∀ i ∈ part a, N t i) :
    Sustains P N F part t (t, .ok a) :=
  ⟨ht, fun _ hi => hi, by rintro _ ⟨⟩; exact ha, failsOnly_ok⟩

theorem sustains_error {failure : Failure} (ht : P t) (h : F failure) :
    Sustains P N F part t (t, .error failure) :=
  ⟨ht, fun _ hi => hi, nofun, failsOnly_error.mpr h⟩

theorem Sustains.since {result : Tracker × Outcome α} (h : Sustains P N F part t' result)
    (hpending : ∀ i, N t i → N t' i) : Sustains P N F part t result :=
  { h with pending := fun i hi => h.pending i (hpending i hi) }

theorem Sustains.andThen {part' : β → List Instance} {place : Failure → Failure}
    {first : Tracker × Outcome α} {next : Tracker → α → Tracker × Outcome β}
    (hfirst : Sustains P N F part t first) (hplace : ∀ failure, F failure → F (place failure))
    (hnext : ∀ s a, P s → (∀ i, N t i → N s i) → (∀ i ∈ part a, N s i) →
      Sustains P N F part' s (next s a)) : Sustains P N F part' t (andThen place first next) := by
  obtain ⟨s, failure | a⟩ := first
  · exact (sustains_error hfirst.holds (hplace failure (hfirst.fails failure rfl))).since
      hfirst.pending
  · exact (hnext s a hfirst.holds hfirst.pending (hfirst.new a rfl)).since hfirst.pending

/-- Both parts hand on instances. -/
theorem Sustains.append {place : Failure → Failure} {first : Tracker × Outcome α}
    {rest : Tracker → Tracker × Outcome (List Instance)} (hfirst : Sustains P N F part t first)
    (hplace : ∀ failure, F failure → F (place failure))
    (hrest : ∀ s, P s → (∀ i, N t i → N s i) → Sustains P N F id s (rest s)) :
    Sustains P N F id t (Tracker.andThen place first fun s a =>
      Tracker.andThen id (rest s) fun s more => (s, .ok (part a ++ more))) := by
  refine hfirst.andThen hplace fun s a hs hpending hnew => ?_
  refine (hrest s hs hpending).andThen (fun _ => id) fun u more hu hpending hmore => ?_
  exact sustains_ok hu (forall_mem_append.mpr ⟨fun i hi => hpending i (hnew i hi), hmore⟩)

/-- The steps of a run: fields of which `Q` holds are recorded, and the projections of pending
instances are kept. -/
structure Steps (r : Resolver) (P : Tracker → Prop) (N : Tracker → Instance → Prop)
    (Q : ConcreteField → Prop) (F : Failure → Prop) : Prop where
  record : ∀ t owner f, P t → Q f → Sustains P N F created t (t.record r owner f)
  project : ∀ t i, P t → N t i → FailsOnly F (projectInstance r i)
  keep : ∀ t i p, P t → N t i → projectInstance r i = .ok p →
    P (t.keep p) ∧ (∀ j, N t j → N (t.keep p) j) ∧ ∀ f ∈ p.fields, Q f
  locate : ∀ decl field path failure, F failure → F (failure.located decl field path)
  expanding : ∀ pending, F (stillExpanding pending)

namespace Steps

variable (h : Steps r P N Q F)

include h

theorem recordFields (owner : String) {place : ConcreteField → Failure → Failure}
    (hplace : ∀ f failure, F failure → F (place f failure)) {fs : List ConcreteField}
    (hfs : ∀ f ∈ fs, Q f) (ht : P t) : Sustains P N F id t (recordFields r owner place t fs) := by
  induction fs generalizing t with
  | nil => exact sustains_ok ht (forall_mem_nil _)
  | cons f rest ih =>
    obtain ⟨hf, hrest⟩ := forall_mem_cons.mp hfs
    rw [recordFields_cons]
    exact (h.record t owner f ht hf).append (hplace f) fun s hs _ => ih hrest hs

theorem recordAll (hps : ∀ p ∈ ps, p.generic = false → ∀ f ∈ p.fields, Q f) (ht : P t) :
    Sustains P N F id t (recordAll r t ps) := by
  induction ps generalizing t with
  | nil => exact sustains_ok ht (forall_mem_nil _)
  | cons p rest ih =>
    obtain ⟨hp, hrest⟩ := forall_mem_cons.mp hps
    rw [recordAll_cons]
    split
    · exact ih hrest ht
    · rename_i hgeneric
      refine (h.recordFields _ (fun f => h.locate p.name f.name p.path) ?_ ht).append (fun _ => id)
        fun s hs _ => ih hrest hs
      exact hp (by simpa using hgeneric)

theorem projectAll (ht : P t) (his : ∀ i ∈ is, N t i) :
    Sustains P N F id t (projectAll r t is) := by
  induction is generalizing t with
  | nil => exact sustains_ok ht (forall_mem_nil _)
  | cons i rest ih =>
    obtain ⟨hi, hrest⟩ := forall_mem_cons.mp his
    rw [projectAll_cons]
    cases hp : projectInstance r i with
    | error failure => exact sustains_error ht (h.project t i ht hi failure hp)
    | ok p =>
      obtain ⟨hkept, hpending, hfields⟩ := h.keep t i p ht hi hp
      have hrecord := h.recordFields i.name (fun f => h.locate i.generic f.name []) hfields hkept
      exact (hrecord.since hpending).append (fun _ => id) fun s hs hpending =>
        ih hs fun j hj => hpending j (hrest j hj)

theorem settle (rounds : Nat) (ht : P t) (hpending : ∀ i ∈ pending, N t i) :
    Sustains P N F (fun _ => []) t (settle r rounds t pending) := by
  induction rounds generalizing t pending with
  | zero =>
    cases pending with
    | nil => exact sustains_ok ht (forall_mem_nil _)
    | cons i rest => exact sustains_error ht (h.expanding _)
  | succ rounds ih =>
    by_cases hempty : pending = []
    · rw [hempty, Tracker.settle]
      exact sustains_ok ht (forall_mem_nil _)
    · rw [settle_succ rounds hempty]
      exact (h.projectAll ht hpending).andThen (fun _ => id) fun s next hs _ hnext => ih hs hnext

/-- What the steps sustain, a run does, also one that fails. -/
theorem run (hps : ∀ p ∈ ps, p.generic = false → ∀ f ∈ p.fields, Q f) (ht : P t) :
    Sustains P N F (fun _ => []) t (run r t ps) := by
  rw [run_eq]
  refine (h.recordAll hps ht).andThen (fun _ => id) fun s pending hs _ hpending => ?_
  exact (h.settle maxRounds hs hpending).andThen (fun _ => id) fun u _ hu _ _ =>
    sustains_ok hu (forall_mem_nil _)

end Steps

end Rule

theorem Consistent.keep (h : t.Consistent) (p : Projection) : (t.keep p).Consistent :=
  h.of_perm h.filed rfl (.refl _)

theorem Consistent.run (h : t.Consistent) (ps : List Projection) :
    (run r t ps).1.Consistent := by
  have hsteps : Steps r Consistent (fun _ _ => True) (fun _ => True) fun _ => True :=
    ⟨fun t owner f ht _ => ⟨ht.record owner f, by simp, by simp, fun _ _ => trivial⟩,
      fun _ _ _ _ _ _ => trivial, fun _ _ p ht _ _ => ⟨ht.keep p, by simp, by simp⟩, by simp,
      by simp⟩
  exact (hsteps.run (by simp) h).holds

/-! ## Successful runs by their events -/

inductive Event where
  /-- A field of a projection is recorded. -/
  | use (owner : String) (field : ConcreteField)
  /-- The projection of an instance is kept. -/
  | keep (p : Projection)

/-- From one tracker to another by events that succeed, with the instances they
create. -/
inductive Advance (r : Resolver) : Tracker → List Event → Tracker → List Instance → Prop where
  | refl (t : Tracker) : Advance r t [] t []
  | use {t s t' : Tracker} {owner : String} {f : ConcreteField}
      {found : Option (Instance × Bool)} {events : List Event} {new : List Instance}
      (hrecord : t.record r owner f = (s, .ok found)) (hrest : Advance r s events t' new) :
      Advance r t (.use owner f :: events) t' (created found ++ new)
  | keep {t t' : Tracker} {p : Projection} {events : List Event} {new : List Instance}
      (hrest : Advance r (t.keep p) events t' new) : Advance r t (.keep p :: events) t' new

theorem Advance.trans {s : Tracker} {events more : List Event} {later : List Instance}
    (h : Advance r t events s new) (hmore : Advance r s more t' later) :
    Advance r t (events ++ more) t' (new ++ later) := by
  induction h with
  | refl t => exact hmore
  | use hrecord _ ih =>
    rw [cons_append, append_assoc]
    exact .use hrecord (ih hmore)
  | keep _ ih => exact .keep (ih hmore)

/-- The events that a given projection leads to. -/
def rootEvents (p : Projection) : List Event :=
  if p.generic then [] else p.fields.map (.use p.name.name)

/-- The events that an instance leads to. -/
def instanceEvents (r : Resolver) (i : Instance) : List Event :=
  match projectInstance r i with
  | .ok p => .keep p :: p.fields.map (.use i.name)
  | .error _ => []

theorem recordFields_advance {place : ConcreteField → Failure → Failure} {fs : List ConcreteField}
    (h : recordFields r owner place t fs = (t', .ok new)) :
    Advance r t (fs.map (.use owner)) t' new := by
  induction fs generalizing t new with
  | nil =>
    obtain ⟨rfl, rfl⟩ : t = t' ∧ [] = new := by simpa [recordFields] using h
    exact .refl t
  | cons f rest ih =>
    rw [recordFields_cons, andThen_eq_ok] at h
    obtain ⟨s, found, hrecord, h⟩ := h
    obtain ⟨_, more, hrest, h⟩ := andThen_eq_ok.mp h
    obtain ⟨rfl, rfl⟩ : _ = t' ∧ created found ++ more = new := by simpa using h
    exact .use hrecord (ih hrest)

theorem recordAll_advance (h : recordAll r t ps = (t', .ok new)) :
    Advance r t (ps.flatMap rootEvents) t' new := by
  induction ps generalizing t new with
  | nil =>
    obtain ⟨rfl, rfl⟩ : t = t' ∧ [] = new := by simpa [recordAll] using h
    exact .refl t
  | cons p rest ih =>
    rw [recordAll_cons] at h
    rw [flatMap_cons, rootEvents]
    split at h
    · rename_i hgeneric
      rw [if_pos hgeneric]
      exact ih h
    · rename_i hgeneric
      rw [if_neg hgeneric]
      obtain ⟨s, first, hfields, h⟩ := andThen_eq_ok.mp h
      obtain ⟨_, more, hrest, h⟩ := andThen_eq_ok.mp h
      obtain ⟨rfl, rfl⟩ : _ = t' ∧ first ++ more = new := by simpa using h
      exact (recordFields_advance hfields).trans (ih hrest)

theorem projectAll_advance {next : List Instance} (h : projectAll r t is = (t', .ok next)) :
    Advance r t (is.flatMap (instanceEvents r)) t' next ∧
      ∀ i ∈ is, ∃ p, projectInstance r i = .ok p := by
  induction is generalizing t next with
  | nil =>
    obtain ⟨rfl, rfl⟩ : t = t' ∧ [] = next := by simpa [projectAll] using h
    exact ⟨.refl t, by simp⟩
  | cons i rest ih =>
    rw [projectAll_cons, andThen_eq_ok] at h
    obtain ⟨_, p, heq, h⟩ := h
    obtain ⟨rfl, hp⟩ := Prod.mk.inj heq
    obtain ⟨s, first, hfields, h⟩ := andThen_eq_ok.mp h
    obtain ⟨_, more, hrest, h⟩ := andThen_eq_ok.mp h
    obtain ⟨rfl, rfl⟩ : _ = t' ∧ first ++ more = next := by simpa using h
    obtain ⟨hadvance, hall⟩ := ih hrest
    refine ⟨?_, forall_mem_cons.mpr ⟨⟨p, hp⟩, hall⟩⟩
    rw [flatMap_cons, instanceEvents, hp]
    exact .keep ((recordFields_advance hfields).trans hadvance)

theorem Advance.consistent (h : Advance r t events t' new) (ht : t.Consistent) : t'.Consistent := by
  induction h with
  | refl t => exact ht
  | use hrecord _ ih => exact ih ((recorded_of_record ht hrecord).consistent ht)
  | keep _ ih => exact ih (ht.keep _)

/-! ## Uses -/

/-- The applications that fields use, each with the place of its use. -/
def fieldUses (r : Resolver) (owner : String) (fs : List ConcreteField) :
    List (TypeExpr × String) :=
  fs.filterMap fun f => (r.application? f).map fun a => (a, owner ++ "::" ++ f.name)

def rootUses (r : Resolver) (p : Projection) : List (TypeExpr × String) :=
  if p.generic then [] else fieldUses r p.name.name p.fields

/-- The uses in the projection of an instance. -/
def instanceUses (r : Resolver) (i : Instance) : List (TypeExpr × String) :=
  match r.projectType i.typeExpr with
  | .ok p => fieldUses r i.name p.fields
  | .error _ => []

/-- The use that an event records. -/
def Event.use? (r : Resolver) : Event → Option (TypeExpr × String)
  | .use owner f => (r.application? f).map fun a => (a, owner ++ "::" ++ f.name)
  | .keep _ => none

theorem filterMap_use_cons (owner : String) (f : ConcreteField) (events : List Event) :
    (Event.use owner f :: events).filterMap (Event.use? r) =
      ((r.application? f).map (·, owner ++ "::" ++ f.name)).toList ++
        events.filterMap (Event.use? r) := by
  rw [filterMap_cons, Event.use?]
  cases r.application? f <;> rfl

theorem filterMap_use_fields (owner : String) (fs : List ConcreteField) :
    (fs.map (Event.use owner)).filterMap (Event.use? r) = fieldUses r owner fs := by
  rw [filterMap_map, fieldUses]
  rfl

theorem filterMap_use_roots (ps : List Projection) :
    (ps.flatMap rootEvents).filterMap (Event.use? r) = ps.flatMap (rootUses r) := by
  rw [filterMap_flatMap]
  congr 1
  funext p
  unfold rootEvents rootUses
  split
  · rfl
  · exact filterMap_use_fields p.name.name p.fields

theorem exists_of_projectInstance_ok {p : Projection} (h : projectInstance r i = .ok p) :
    p.name = i.scopedName ∧
      ∃ q, r.projectType i.typeExpr = .ok q ∧ p.typeExpr = q.typeExpr ∧ p.fields = q.fields := by
  obtain ⟨q, hq, rfl⟩ := Outcome.bind_pure_eq_ok.mp h
  exact ⟨rfl, q, hq, rfl, rfl⟩

theorem filterMap_use_instances (h : ∀ i ∈ is, ∃ p, projectInstance r i = .ok p) :
    (is.flatMap (instanceEvents r)).filterMap (Event.use? r) = is.flatMap (instanceUses r) := by
  rw [filterMap_flatMap]
  refine flatMap_congr fun i hi => ?_
  obtain ⟨p, hp⟩ := h i hi
  obtain ⟨_, q, hq, _, hfields⟩ := exists_of_projectInstance_ok hp
  simp only [instanceEvents, hp, instanceUses, hq, ← hfields]
  exact filterMap_use_fields i.name p.fields

theorem Advance.faces_perm (h : Advance r t events t' new)
    (ht : t.Consistent) : t'.faces.Perm (t.faces ++ new.map Instance.face) := by
  induction h with
  | refl t => simp
  | use hrecord _ ih =>
    have hrecorded := recorded_of_record ht hrecord
    rw [map_append, ← append_assoc]
    exact (ih (hrecorded.consistent ht)).trans (hrecorded.faces_perm.1.append_right _)
  | keep _ ih => exact ih (ht.keep _)

/-- An instance is created by a use of its application. -/
theorem Advance.used_of_new (h : Advance r t events t' new) (ht : t.Consistent) (hi : i ∈ new) :
    ∃ owner f, Event.use owner f ∈ events ∧ r.application? f = some i.typeExpr := by
  induction h with
  | refl t => cases hi
  | @use t s t' owner f found events new hrecord _ ih =>
    have hrecorded := recorded_of_record ht hrecord
    rcases mem_append.mp hi with hi | hi
    · exact ⟨owner, f, mem_cons_self, hrecorded.faces_perm.2 i hi⟩
    · obtain ⟨owner, f, hmem, hf⟩ := ih (hrecorded.consistent ht) hi
      exact ⟨owner, f, mem_cons_of_mem _ hmem, hf⟩
  | keep _ ih =>
    obtain ⟨owner, f, hmem, hf⟩ := ih (ht.keep _) hi
    exact ⟨owner, f, mem_cons_of_mem _ hmem, hf⟩

/-- The projection that an event keeps. -/
def Event.kept? : Event → Option Projection
  | .use _ _ => none
  | .keep p => some p

theorem Advance.projections_eq (h : Advance r t events t' new) (ht : t.Consistent) :
    t'.projections = Keyed.insertAll t.projections
      (Keyed.keyed (·.name.text) (events.filterMap Event.kept?)) := by
  induction h with
  | refl t => rfl
  | use hrecord _ ih =>
    have hrecorded := recorded_of_record ht hrecord
    rw [ih (hrecorded.consistent ht), hrecorded.projections]
    rfl
  | keep _ ih => exact ih (ht.keep _)

/-! ## The rounds of a run -/

/-- One application uses another in the projection of its instance. -/
def Leads (r : Resolver) (u v : TypeExpr) : Prop :=
  ∃ p, r.projectType u = .ok p ∧ ∃ f ∈ p.fields, r.application? f = some v

theorem leads_of_use {f : ConcreteField} {v : TypeExpr}
    (hmem : Event.use owner f ∈ instanceEvents r i) (hf : r.application? f = some v) :
    Leads r i.typeExpr v := by
  unfold instanceEvents at hmem
  split at hmem
  · rename_i p hp
    obtain ⟨_, q, hq, _, hfields⟩ := exists_of_projectInstance_ok hp
    obtain ⟨hmem, _⟩ : f ∈ p.fields ∧ i.name = owner := by simpa using hmem
    exact ⟨q, hq, f, hfields ▸ hmem, hf⟩
  · cases hmem

theorem exists_leads_of_projectAll {next : List Instance} (ht : t.Consistent)
    (h : projectAll r t pending = (t', .ok next)) (hi : i ∈ next) :
    ∃ j ∈ pending, Leads r j.typeExpr i.typeExpr := by
  obtain ⟨owner, f, hmem, hf⟩ := (projectAll_advance h).1.used_of_new ht hi
  obtain ⟨j, hj, hmem⟩ := mem_flatMap.mp hmem
  exact ⟨j, hj, leads_of_use hmem hf⟩

/-- Each instance that came up is projected, and each one is led to from
those at the start. -/
theorem settle_advance {rounds : Nat} (ht : t.Consistent)
    (h : settle r rounds t pending = (t', .ok ())) :
    ∃ later, Advance r t ((pending ++ later).flatMap (instanceEvents r)) t' later ∧
      (∀ i ∈ pending ++ later, ∃ p, projectInstance r i = .ok p) ∧
      ∀ i ∈ later, ∃ j ∈ pending, Relation.TransGen (Leads r) j.typeExpr i.typeExpr := by
  induction rounds generalizing t pending with
  | zero =>
    cases pending with
    | nil =>
      obtain rfl : t = t' := by simpa [settle] using h
      exact ⟨[], .refl t, by simp⟩
    | cons i rest => simp [settle] at h
  | succ rounds ih =>
    by_cases hpending : pending = []
    · obtain rfl : t = t' := by simpa [hpending, settle] using h
      exact ⟨[], by simpa [hpending] using Advance.refl t, by simp [hpending]⟩
    · rw [settle_succ rounds hpending, andThen_eq_ok] at h
      obtain ⟨s, next, hproject, h⟩ := h
      obtain ⟨hadvance, hall⟩ := projectAll_advance hproject
      obtain ⟨later, hlater, hrest, hleads⟩ := ih (hadvance.consistent ht) h
      refine ⟨next ++ later, ?_, ?_, ?_⟩
      · rw [flatMap_append]
        exact hadvance.trans hlater
      · exact forall_mem_append.mpr ⟨hall, hrest⟩
      · intro i hi
        rcases mem_append.mp hi with hi | hi
        · obtain ⟨j, hj, hlead⟩ := exists_leads_of_projectAll ht hproject hi
          exact ⟨j, hj, .single hlead⟩
        · obtain ⟨k, hk, hlater⟩ := hleads i hi
          obtain ⟨j, hj, hlead⟩ := exists_leads_of_projectAll ht hproject hk
          exact ⟨j, hj, .head hlead hlater⟩

/-- A successful run as events: those of the given projections and those of
the instances that came up. -/
structure Completes (r : Resolver) (t : Tracker) (ps : List Projection) (t' : Tracker)
    (all : List Instance) : Prop where
  advance : Advance r t (ps.flatMap rootEvents ++ all.flatMap (instanceEvents r)) t' all
  projected : ∀ i ∈ all, ∃ p, projectInstance r i = .ok p
  led_to : ∀ i ∈ all, ∃ u ∈ (ps.flatMap (rootUses r)).map (·.1),
    Relation.ReflTransGen (Leads r) u i.typeExpr

theorem completes_of_run {out : List Projection} (ht : t.Consistent)
    (h : run r t ps = (t', .ok out)) :
    out = t'.instanceProjections ∧ ∃ all, Completes r t ps t' all := by
  rw [run_eq, andThen_eq_ok] at h
  obtain ⟨s, pending, hroots, h⟩ := h
  obtain ⟨_, ⟨⟩, hsettle, h⟩ := andThen_eq_ok.mp h
  obtain ⟨rfl, rfl⟩ : _ = t' ∧ _ = out := by simpa using h
  have hadvance := recordAll_advance hroots
  obtain ⟨later, hlater, hprojected, hleads⟩ := settle_advance (hadvance.consistent ht) hsettle
  have hpending : ∀ i ∈ pending, i.typeExpr ∈ (ps.flatMap (rootUses r)).map (·.1) := by
    intro i hi
    obtain ⟨owner, f, hmem, hf⟩ := hadvance.used_of_new ht hi
    have huse : Event.use? r (.use owner f) = some (i.typeExpr, owner ++ "::" ++ f.name) := by
      rw [Event.use?, hf, Option.map_some]
    rw [← filterMap_use_roots]
    exact mem_map.mpr ⟨_, mem_filterMap.mpr ⟨_, hmem, huse⟩, rfl⟩
  refine ⟨rfl, pending ++ later, hadvance.trans hlater, hprojected, ?_⟩
  intro i hi
  rcases mem_append.mp hi with hi | hi
  · exact ⟨_, hpending i hi, .refl⟩
  · obtain ⟨j, hj, hlead⟩ := hleads i hi
    exact ⟨_, hpending j hj, hlead.to_reflTransGen⟩

/-- From an empty tracker, what came up is what is recorded. -/
theorem Completes.map_recorded_perm {β : Type} {all : List Instance}
    (h : Completes r .empty ps t all) {g : Instance → β} (hg : ∀ i, g i.face = g i) :
    (t.recorded.map g).Perm (all.map g) := by
  have hcomp : g ∘ Instance.face = g := funext hg
  have hfaces := (h.advance.faces_perm consistent_empty).map g
  rwa [show faces .empty = [] from rfl, nil_append, faces, map_map, map_map, hcomp] at hfaces

end SchemaCompiler.Tracker
