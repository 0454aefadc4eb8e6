import SchemaCompiler.Proofs.FailurePlaces
import SchemaCompiler.Proofs.GraphClosure

/-!
# Resolving without panics

Resolving is defined on whole types only.  In a store where every type is whole
all types that come up are whole: those in declarations, what is substituted
into them, and what stands behind aliases and inside wrappers.  So projecting
the declarations of such a store and collecting their closure fails in other
ways at most.
-/

namespace SchemaCompiler

open Outcome TypeExpr Failure Instance

/-! ## Outcomes that are no panic -/

def Failure.isPanic : Failure → Bool
  | panic _ => true
  | _ => false

@[simp]
theorem Failure.isPanic_located (decl : ScopedName) (field : String) (path : List String)
    (failure : Failure) : (failure.located decl field path).isPanic = failure.isPanic := by
  cases failure <;> rfl

variable {failure : Failure}

namespace Failure

@[simp]
theorem isPanic_ofWorker (failure : Failure) : failure.ofWorker.isPanic = failure.isPanic := by
  cases failure <;> rfl

/-- A name was not found, whatever was being done. -/
inductive IsUnknown : Failure → Prop
  | name (label : String) (id : Option String) : IsUnknown (.notFound label id)
  | within (label : String) {cause : Failure} (h : IsUnknown cause) :
      IsUnknown (.context label cause)

theorem IsUnknown.located (h : failure.IsUnknown) (decl : ScopedName) (field : String)
    (path : List String) : (failure.located decl field path).IsUnknown := by
  cases h with
  | name label id => exact .within _ (.name label id)
  | within label h => exact .within _ (.within label h)

theorem IsUnknown.isPanic (h : failure.IsUnknown) : failure.isPanic = false := by
  cases h <;> rfl

end Failure

namespace Outcome

variable {α : Type} {x : Outcome α}

/-- The operation gives a result or a failure, and the failure is no panic. -/
abbrev NoPanic (x : Outcome α) : Prop :=
  FailsOnly (fun failure => failure.isPanic = false) x

end Outcome

open Outcome (FailsOnly NoPanic failsOnly_ok failsOnly_error)

/-! ## Steps that never panic -/

theorem Store.noPanic_resolve (s : Store) (n : ScopedName) : NoPanic (s.resolve n) :=
  (s.failsOnly_resolve n).imp fun _ h => h ▸ rfl

theorem Env.noPanic_bind (n : ScopedName) (params : List String) (args : List TypeExpr) :
    NoPanic (Env.bind n params args) :=
  (Env.failsOnly_bind n params args).imp fun _ h => h.2 ▸ rfl

namespace Resolver

variable {r : Resolver} {t : TypeExpr} {env : Env} {d : ScopedDecl} {n : ScopedName} {α : Type}

/-- Only a missing type leads to a panic. -/
theorem Objection.isPanic (h : r.Objection failure) : failure.isPanic = false := by
  cases h <;> rfl

theorem noPanic_of_objection {x : Outcome α} (h : FailsOnly r.Objection x) : NoPanic x :=
  h.imp fun _ => Objection.isPanic

theorem noPanic_expandAliases (t : TypeExpr) : NoPanic (r.expandAliases t) :=
  noPanic_of_objection (failsOnly_expandAliases t)

theorem failsOnly_enterTargets (inFocus : ScopedName → Bool) (p : Projection) (front : Frontier) :
    FailsOnly IsUnknown (r.enterTargets inFocus p front) := by
  have htarget (n : ScopedName) (front : Frontier) :
      FailsOnly IsUnknown (r.enterTarget inFocus front n) := by
    unfold enterTarget
    split
    · exact failsOnly_ok
    · split
      · exact ((r.store.failsOnly_resolve n).imp fun _ h => h ▸ .name ..).error ‹_›
      · exact failsOnly_ok
  refine failsOnly_foldlM (fun f _ front => ?_) front
  split
  · rename_i failure hfailure
    refine failsOnly_error.mpr (IsUnknown.located ?_ _ _ _)
    exact failsOnly_foldlM (fun n _ => htarget n) front failure hfailure
  · exact failsOnly_ok

/-! ## Whole types -/

theorem noPanic_of_refusal {x : Outcome α} (ht : t.Whole)
    (h : FailsOnly (r.RefusalOf t) x) : NoPanic x := by
  have hobjects : FailsOnly r.Objection x := by
    intro failure hfailure
    cases h failure hfailure with
    | objection hobjection => exact hobjection
    | missing hmissing => exact absurd ht hmissing
  exact noPanic_of_objection hobjects

theorem noPanic_classify (h : t.Whole) : NoPanic (r.classify t) :=
  noPanic_of_refusal h (failsOnly_classify t)

theorem whole_of_classify_ok {w : Wrapped} (ht : t.Whole) (h : r.classify t = .ok w) :
    w.inner.Whole := by
  rcases inner_of_classify_ok h with ⟨_, hinner⟩ | ⟨_, hargs⟩
  · rwa [hinner]
  · cases t with
    | missing => exact absurd ht not_whole_missing
    | app head args =>
      obtain rfl : args = [w.inner] := hargs
      exact whole_app.mp ht w.inner List.mem_cons_self

theorem noPanic_references (h : t.Whole) : NoPanic (r.references t) :=
  noPanic_of_refusal h (failsOnly_references t)

theorem noPanic_core (h : t.Whole) : NoPanic (r.core t) :=
  noPanic_of_refusal h (failsOnly_core t)

theorem failsOnly_readableName (t : TypeExpr) :
    FailsOnly (fun failure => ¬t.Whole ∧ failure = missingType)
      (readableName t) := by
  induction t using inductionOn with
  | hmissing =>
    unfold readableName
    exact failsOnly_error.mpr ⟨not_whole_missing, rfl⟩
  | happ head args ih =>
    have hargs : ∀ as ⊆ args, FailsOnly
        (fun failure => ¬(TypeExpr.app head args).Whole ∧ failure = missingType)
        (readableArgs as) := by
      intro as has
      induction as with
      | nil => exact failsOnly_ok
      | cons a as ihas =>
        obtain ⟨ha, has⟩ := List.cons_subset.mp has
        rw [readableArgs]
        split
        · exact ((ih a ha).imp fun _ hx =>
            ⟨fun h => hx.1 (whole_app.mp h a ha), hx.2⟩).error ‹_›
        · split
          · exact (ihas has).error ‹_›
          · exact failsOnly_ok
    rw [readableName.eq_def]
    dsimp only
    split
    · exact failsOnly_ok
    · split
      · exact (hargs _ (List.Subset.refl _)).error ‹_›
      · exact failsOnly_ok

/-- A declaration of the store, under bindings to whole types. -/
def Visits (r : Resolver) (d : ScopedDecl) (env : Env) : Prop :=
  d ∈ r.store.allDecls ∧ ∀ b ∈ env, b.value.Whole

theorem visits_of_bind_ok {args : List TypeExpr} (hargs : ∀ a ∈ args, a.Whole)
    (hd : r.store.resolve n = .ok d) (henv : Env.bind n d.decl.params args = .ok env) :
    r.Visits d env := by
  refine ⟨Store.mem_allDecls_of_resolve_ok hd, ?_⟩
  intro b hb
  exact hargs _ (Env.value_mem_of_bind_ok henv hb)

/-! ## The closure -/

section Closure

variable {F : Failure → Prop} {Q : ScopedDecl → Prop} {inFocus : ScopedName → Bool}
  (hproject : ∀ d, Q d → FailsOnly F ((r.project d []).mapError ofWorker))
  (henter : ∀ p front, FailsOnly F (r.enterTargets inFocus p front))
  (hresolve : ∀ n d, r.store.resolve n = .ok d → Q d)

include hproject henter hresolve

theorem failsOnly_closeWithin (budget : Nat) (seen : List ScopedName) {round : List ScopedDecl}
    (hround : ∀ d ∈ round, Q d) : FailsOnly F (r.closeWithin inFocus budget seen round) := by
  induction budget generalizing seen round with
  | zero => cases round <;> exact failsOnly_ok
  | succ budget ih =>
    by_cases hempty : round = []
    · subst hempty
      exact failsOnly_ok
    rw [closeWithin_succ budget seen hempty]
    refine FailsOnly.bind ?_ ?_
    · refine (failsOnly_mapM fun d hd => hproject d (hround d hd)).bind fun projected _ => ?_
      exact (failsOnly_foldlM (fun p _ front => henter p front) _).bind_pure
    · rintro ⟨found, front⟩ hfront
      obtain ⟨_, names, decls, _, _, hentered⟩ := exists_of_closeRound_ok hfront
      refine (ih front.seen fun d hd => ?_).bind_pure
      rw [hentered.next_eq, List.nil_append] at hd
      obtain ⟨n, _, hn⟩ := forall₂_exists_left hentered.resolves hd
      exact hresolve n d hn

/-- A closure fails as its projections do, or where a target is not known. -/
theorem failsOnly_closure_of {roots : List ScopedDecl} (hroots : ∀ d ∈ roots, Q d) :
    FailsOnly F (r.closure roots inFocus) :=
  (failsOnly_closeWithin hproject henter hresolve _ _ fun d hd =>
    hroots d (distinctRoots_subset hd).1).bind_pure

end Closure

/-! ## Typed stores -/

section Typed

variable (hstore : r.store.Typed) {inFocus : ScopedName → Bool} {seen : List ScopedName}
  {f : ConcreteField} {p : Projection}

include hstore

theorem whole_of_unfolds {next : TypeExpr} (ht : t.Whole) (h : r.Unfolds t n next) :
    next.Whole := by
  obtain ⟨hn, _, d, params, target, env, hd, hbody, henv, hnext⟩ := h
  rw [eq_app_of_reference? hn] at ht
  refine TypeExpr.Whole.substitute ?_ ?_ hnext
  · apply hstore d (Store.mem_allDecls_of_resolve_ok hd)
    apply Body.target_mem_typeExprs
    rw [hbody, Body.target?]
  · intro b hb
    exact whole_app.mp ht _ (Env.value_mem_of_bind_ok henv hb)

theorem whole_of_expandWithin_ok {budget : Nat} {s : TypeExpr} (ht : t.Whole)
    (h : r.expandWithin budget seen t = .ok s) : s.Whole := by
  induction budget generalizing seen t with
  | zero =>
    rcases expandWithin_cases h with ⟨_, rfl⟩ | ⟨_, _, _, _, _, hbudget, _⟩
    · exact ht
    · cases hbudget
  | succ budget ih =>
    rcases expandWithin_cases h with ⟨_, rfl⟩ | ⟨_, next, _, hunfolds, _, hbudget, hrest⟩
    · exact ht
    · cases hbudget
      exact ih (whole_of_unfolds hstore ht hunfolds) hrest

theorem noPanic_classifyExpanded (ht : t.Whole) : NoPanic (r.classifyExpanded t) := by
  rw [classifyExpanded]
  split
  · exact (noPanic_expandAliases t).error ‹_›
  · rename_i s hs
    exact noPanic_classify (whole_of_expandWithin_ok hstore ht hs)

theorem noPanic_link (ht : t.Whole) : NoPanic (r.link t) := by
  rw [link]
  split
  · exact (noPanic_classifyExpanded hstore ht).error ‹_›
  · rename_i w hw
    have hinner : w.inner.Whole := by
      rw [classifyExpanded] at hw
      split at hw
      · cases hw
      · rename_i s hs
        exact whole_of_classify_ok (whole_of_expandWithin_ok hstore ht hs) hw
    split_ifs
    · split
      · exact (noPanic_classifyExpanded hstore hinner).error ‹_›
      · exact failsOnly_ok
    · exact failsOnly_ok

theorem noPanic_concreteField (owner : ScopedName) (f : Field) (ht : t.Whole) :
    NoPanic (r.concreteField owner f t) := by
  apply (noPanic_classify ht).bind
  intro _ _
  apply (noPanic_references ht).bind
  intro _ _
  apply (noPanic_core ht).bind
  intro _ _
  exact (noPanic_link hstore ht).bind_pure

/-! ## Projections -/

theorem Visits.whole (h : r.Visits d env) {s : TypeExpr} (hs : s ∈ d.decl.body.typeExprs)
    (ht : s.substitute env = .ok t) : t.Whole :=
  (hstore d h.1 s hs).substitute h.2 ht

theorem Visits.enters {e : ScopedDecl} {env' : Env} (h : r.Visits d env)
    (hentered : r.Enters d env e env') : r.Visits e env' := by
  obtain ⟨s, hs, n, args, ht, he, henv⟩ := hentered
  exact visits_of_bind_ok (whole_app.mp (h.whole hstore hs ht)) he henv

omit hstore in
theorem Inlines.enters {x y : Visit} (h : r.Inlines x y) :
    r.Enters x.decl x.env y.decl y.env := by
  obtain ⟨_, s, hs, n, args, ht, _, he, henv⟩ := h
  refine ⟨s, ?_, n, args, ht, he, henv⟩
  exact ((List.Sublist.refl _).append (List.filter_sublist.map _)).subset hs

theorem noPanic_expand (budget : Nat) (trail : Trail) (h : r.Visits d env) :
    NoPanic (r.expand budget trail d env) := by
  induction budget generalizing trail d env with
  | zero =>
    unfold expand
    dsimp only
    split <;> exact failsOnly_error.mpr rfl
  | succ budget ih =>
    intro failure hfailure
    rw [expand_succ budget ⟨trail, d, env⟩, visit] at hfailure
    split_ifs at hfailure
    · cases hfailure
      rfl
    have hfield : ∀ f ∈ d.decl.fields, ∀ t, f.typeExpr.substitute env = .ok t →
        NoPanic (r.concreteField d.name f t) := fun f hf t ht =>
      noPanic_concreteField hstore d.name f (h.whole hstore (Body.typeExpr_mem_typeExprs hf) ht)
    rcases exists_of_inside_error (fun _ => Objection.isPanic) hfield hfailure with
      ⟨place, cause, _, hcause, rfl⟩ | ⟨_, _, _, _, _, _, rfl⟩
    · rw [Visit.locate, isPanic_located]
      cases hcause with
      | refused hcause => exact hcause
      | unfit => rfl
      | inner hy hinner => exact ih _ (h.enters hstore hy.enters) _ hinner
    · rfl

theorem noPanic_project (h : r.Visits d env) : NoPanic (r.project d env) := by
  exact (noPanic_expand hstore _ _ h).bind_pure

theorem whole_of_mem_project (h : r.Visits d env) (hp : r.project d env = .ok p)
    (hf : f ∈ p.fields) : f.typeExpr.Whole := by
  obtain ⟨e, env', g, t, hvisits, hg, ht, _, hconcrete⟩ :=
    declared_of_mem_project (fun _ _ _ _ hvisits => hvisits.enters hstore) h hp hf
  have hwhole := hvisits.whole hstore (Body.typeExpr_mem_typeExprs hg) ht
  rw [ConcreteField.typeExpr, (exists_of_concreteField_ok hconcrete).1]
  exact hwhole

theorem noPanic_projectType (ht : t.Whole) : NoPanic (r.projectType t) := by
  unfold projectType
  split
  · exact failsOnly_error.mpr rfl
  · rename_i n hn
    rw [eq_app_of_reference? hn] at ht
    apply (r.store.noPanic_resolve n).bind
    intro d hd
    apply (Env.noPanic_bind n _ _).bind
    intro env henv
    have hvisits := visits_of_bind_ok (whole_app.mp ht) hd henv
    exact (noPanic_project hstore hvisits).bind_pure

theorem whole_of_mem_projectType (ht : t.Whole) (hp : r.projectType t = .ok p) (hf : f ∈ p.fields) :
    f.typeExpr.Whole := by
  obtain ⟨n, args, d, env, q, rfl, hd, henv, hq, rfl⟩ := exists_of_projectType_ok hp
  exact whole_of_mem_project hstore (visits_of_bind_ok (whole_app.mp ht) hd henv) hq hf

theorem noPanic_closure {roots : List ScopedDecl} (hroots : ∀ d ∈ roots, d ∈ r.store.allDecls) :
    NoPanic (r.closure roots inFocus) := by
  refine failsOnly_closure_of (Q := (· ∈ r.store.allDecls)) (fun d hd => ?_) (fun p front => ?_)
    (fun _ _ => Store.mem_allDecls_of_resolve_ok) hroots
  · have hproject : NoPanic (r.project d []) := noPanic_project hstore ⟨hd, List.forall_mem_nil _⟩
    exact hproject.mapError fun failure h => failure.isPanic_ofWorker.trans h
  · exact (failsOnly_enterTargets inFocus p front).imp fun _ => IsUnknown.isPanic

end Typed

end Resolver

end SchemaCompiler
