import SchemaCompiler.Proofs.Refusals

/-!
# What an expansion asks for

An expansion is a recursion: a declaration is expanded by way of those that its
definition or its spread fields denote.  One visit of a declaration is described
as a function of the inner visits.  It asks for them one after the other, passes
on the first failure with a place filled in, and otherwise fails in ways of its
own, none of which is the refusal of a declaration that is being expanded
already.
-/

namespace SchemaCompiler

open Failure

variable {failure : Failure} {target : TypeExpr} {f : Field} {b : Body}

/-! ## The refusal of a repetition -/

namespace Failure

/-- The text for a declaration that is being expanded already. -/
def repetitionText : String := "declaration expands to itself"

/-- A declaration is refused in certain words. -/
def reports (text : String) : Failure → Bool
  | resolve .unsupportedRootKind _ _ _ message _ => message = text
  | _ => false

@[simp]
theorem reports_located (decl : ScopedName) (field : String) (path : List String)
    (text : String) (failure : Failure) :
    (failure.located decl field path).reports text = failure.reports text := by
  cases failure with
  | resolve rule d f p message cause => cases rule <;> rfl
  | _ => rfl

/-- A text that ends like another sentence is not the one for a repetition. -/
theorem append_ne_repetitionText (start : String) {rest : String} {c : Char}
    (hc : rest.toList.getLast? = some c) (hf : c ≠ 'f') : start ++ rest ≠ repetitionText := by
  intro h
  have hlast : (start ++ rest).toList.getLast? = some 'f' := by
    rw [h]
    decide
  rw [String.toList_append, List.getLast?_append, hc] at hlast
  exact hf (Option.some.inj hlast)

end Failure

namespace Outcome

variable {α β : Type} {x : Outcome α} {text : String}

/-- The operation is refused in certain words. -/
def Reports (text : String) (x : Outcome α) : Prop :=
  ∃ failure, x = .error failure ∧ failure.reports text = true

/-- The operation is refused because of a repetition. -/
abbrev Repeats (x : Outcome α) : Prop :=
  Reports repetitionText x

@[simp]
theorem not_reports_ok (a : α) : ¬ Reports text (.ok a : Outcome α) := by
  rintro ⟨_, h, _⟩
  cases h

@[simp]
theorem reports_error :
    Reports text (.error failure : Outcome α) ↔ failure.reports text = true := by
  simp [Reports]

theorem repeats_error :
    Repeats (.error failure : Outcome α) ↔ failure.reports repetitionText = true :=
  reports_error

end Outcome

open Outcome (Repeats not_reports_ok repeats_error FailsOnly)

namespace Resolver

variable {r : Resolver}

/-- What a type operation refuses is no repetition; a cyclic alias is reported in words of its
own. -/
theorem Refusal.not_reports (h : r.Refusal failure) :
    failure.reports repetitionText = false := by
  cases h with
  | missing => rfl
  | objection h =>
    cases h with
    | unknown => rfl
    | @unplaced rule hrule =>
      cases rule with
      | unsupportedRootKind => exact absurd rfl hrule
      | _ => rfl
    | miscounted => rfl
    | cyclic =>
      rw [cyclicAlias, reports]
      decide

theorem not_repeats_of_refusal {α : Type} {x : Outcome α} (h : FailsOnly r.Refusal x) :
    ¬ Repeats x := by
  rintro ⟨failure, hx, hreports⟩
  rw [(h failure hx).not_reports] at hreports
  cases hreports

theorem not_repeats_of_objection {α : Type} {x : Outcome α} (h : FailsOnly r.Objection x) :
    ¬ Repeats x :=
  not_repeats_of_refusal (failsOnly_refusal h)

end Resolver

/-! ## Visits -/

/-- The types that an expansion goes into: what an alias or new type stands for,
and the types of spread fields. -/
def Body.inlined (b : Body) : List TypeExpr :=
  b.target?.toList ++ (b.fields.filter (·.annotations.has spreadKey)).map (·.typeExpr)

theorem Body.target_mem_inlined (h : b.target? = some target) : target ∈ b.inlined := by
  simp [inlined, h]

theorem Body.mem_inlined_of_spread (hf : f ∈ b.fields)
    (hspread : f.annotations.has spreadKey = true) : f.typeExpr ∈ b.inlined :=
  List.mem_append_right _ (List.mem_map_of_mem (List.mem_filter.mpr ⟨hf, hspread⟩))

namespace Resolver

variable {r : Resolver}

/-- A declaration to be expanded under bindings, and what the expansion is
inside of. -/
structure Visit where
  trail : Trail
  decl : ScopedDecl
  env : Env

/-- What inner visits give. -/
abbrev Inner := Visit → Outcome Expansion

/-- Inner visits as they are entered. -/
def Inner.enter (inner : Inner) : Enter := fun trail d env => inner ⟨trail, d, env⟩

/-- Expands a declaration, also one that is being expanded already. -/
def inside (r : Resolver) (inner : Inner) (x : Visit) : Outcome Expansion :=
  match x.decl.decl.body.target? with
  | some target => r.expandTarget inner.enter (x.trail.enter x.decl) x.decl.name x.env target
  | none => do
    return ⟨x.decl, (x.trail.enter x.decl).path, ← r.shapeFields inner.enter
      (x.trail.enter x.decl) x.decl.name x.env x.decl.decl.body.fields⟩

def repetition (x : Visit) : Failure :=
  .resolve .unsupportedRootKind x.decl.name "" x.trail.path repetitionText none

/-- Expands a declaration unless one of its name is being expanded already. -/
def visit (r : Resolver) (inner : Inner) (x : Visit) : Outcome Expansion :=
  if x.decl.name ∈ x.trail.active then .error (repetition x) else r.inside inner x

theorem repeats_repetition (x : Visit) : Repeats (.error (repetition x) : Outcome Expansion) :=
  repeats_error.mpr (by simp [repetition, reports])

theorem expand_succ (budget : Nat) (x : Visit) :
    r.expand (budget + 1) x.trail x.decl x.env =
      r.visit (fun y => r.expand budget y.trail y.decl y.env) x := by
  rw [expand, visit]
  by_cases hactive : x.decl.name ∈ x.trail.active
  · simp [hactive, repetition, repetitionText]
  · cases hbody : x.decl.decl.body <;>
      simp [hactive, inside, hbody, Body.target?, Body.fields] <;> rfl

/-- A visit goes into a declaration that a type of its body denotes, unless that
is a wrapper. -/
structure Inlines (r : Resolver) (x y : Visit) : Prop where
  trail : y.trail = x.trail.enter x.decl
  denotes : ∃ s ∈ x.decl.decl.body.inlined, ∃ n args,
    s.substitute x.env = .ok (.app (.reference n) args) ∧
    (r.wrappers.isReference n || r.wrappers.optionalRefs.contains n) = false ∧
    r.store.resolve n = .ok y.decl ∧ Env.bind n y.decl.decl.params args = .ok y.env

/-! ## Operations that ask for visits -/

/-- A place filled in makes no repetition and hides none. -/
def KeepsRepetition (place : Failure → Failure) : Prop :=
  ∀ failure, (place failure).reports repetitionText = failure.reports repetitionText

/-- The operation is settled without inner visits, and no repetition, or it asks
for a visit of which `P` holds and goes on with what that gives. -/
inductive Asking (P : Visit → Prop) {α : Type} : (Inner → Outcome α) → Prop
  | settled {o : Outcome α} (h : ¬ Repeats o) : Asking P fun _ => o
  | asks {y : Visit} {place : Failure → Failure} {next : Expansion → Inner → Outcome α}
      (hy : P y) (hplace : KeepsRepetition place) (hnext : ∀ x, Asking P (next x)) :
      Asking P fun inner => (inner y).mapError place >>= fun x => next x inner

namespace Asking

variable {P : Visit → Prop} {α β : Type} {op : Inner → Outcome α}

theorem bind (h : Asking P op) {k : α → Inner → Outcome β} (hk : ∀ a, Asking P (k a)) :
    Asking P fun inner => op inner >>= fun a => k a inner := by
  induction h with
  | @settled o ho =>
    cases o with
    | error failure => exact .settled (by simpa using ho)
    | ok a => exact hk a
  | asks hy hplace _ ih =>
    simp only [bind_assoc]
    exact .asks hy hplace ih

theorem settled_bind {o : Outcome β} (ho : ¬ Repeats o) {k : β → Inner → Outcome α}
    (hk : ∀ b, o = .ok b → Asking P (k b)) : Asking P fun inner => o >>= fun b => k b inner := by
  cases o with
  | error failure => exact .settled (by simpa using ho)
  | ok b => exact hk b rfl

theorem one {y : Visit} (hy : P y) : Asking P fun inner => inner y := by
  have heq : (fun inner : Inner => inner y) =
      fun inner => (inner y).mapError id >>= fun x => .ok x := by
    funext inner
    cases inner y <;> rfl
  rw [heq]
  exact .asks hy (fun _ => rfl) fun x => .settled (not_reports_ok x)

theorem mapError (h : Asking P op) {place : Failure → Failure} (hplace : KeepsRepetition place) :
    Asking P fun inner => (op inner).mapError place := by
  induction h with
  | @settled o ho =>
    cases o with
    | error failure =>
      refine .settled ?_
      rw [repeats_error] at ho
      rwa [Except.mapError, repeats_error, hplace]
    | ok a => exact .settled (not_reports_ok a)
  | @asks y inside next hy hinside _ ih =>
    have heq : (fun inner : Inner =>
          ((inner y).mapError inside >>= fun x => next x inner).mapError place) =
        fun inner => (inner y).mapError (place ∘ inside) >>= fun x =>
          (next x inner).mapError place := by
      funext inner
      cases inner y <;> rfl
    rw [heq]
    exact .asks hy (fun failure => (hplace _).trans (hinside failure)) ih

/-- The outcome depends on the visits that are asked for only. -/
theorem congr (h : Asking P op) {f g : Inner} (hfg : ∀ y, P y → f y = g y) : op f = op g := by
  induction h with
  | settled => rfl
  | asks hy _ _ ih => simp only [hfg _ hy, ih]

/-- A repetition is passed on from a visit that is asked for. -/
theorem exists_repeats (h : Asking P op) {f : Inner} (hrepeats : Repeats (op f)) :
    ∃ y, P y ∧ Repeats (f y) := by
  induction h with
  | settled ho => exact absurd hrepeats ho
  | @asks y place next hy hplace _ ih =>
    dsimp only at hrepeats
    cases hf : f y with
    | ok x =>
      rw [hf] at hrepeats
      exact ih x hrepeats
    | error failure =>
      rw [hf] at hrepeats
      refine ⟨y, hy, ?_⟩
      rw [hf, repeats_error, ← hplace]
      exact repeats_error.mp hrepeats

/-- Where inner visits only differ by refusing a repetition, so do outer ones. -/
theorem eq_or_repeats (h : Asking P op) {f g : Inner} (hfg : ∀ y, f y = g y ∨ Repeats (f y)) :
    op f = op g ∨ Repeats (op f) := by
  induction h with
  | settled => exact .inl rfl
  | @asks y place next hy hplace _ ih =>
    dsimp only
    rcases hfg y with hsame | ⟨failure, hf, hrepeats⟩
    · rw [← hsame]
      cases f y with
      | error failure => exact .inl rfl
      | ok x => exact ih x
    · right
      rw [hf]
      exact repeats_error.mpr ((hplace failure).trans hrepeats)

end Asking

section Operations

variable {P : Visit → Prop} {trail : Trail} {owner : ScopedName} {env : Env} {fields : List Field}

def LeadsOnlyTo (r : Resolver) (P : Visit → Prop) (trail : Trail) (t : TypeExpr) : Prop :=
  ∀ n args e inner, t = .app (.reference n) args →
    (r.wrappers.isReference n || r.wrappers.optionalRefs.contains n) = false →
    r.store.resolve n = .ok e → Env.bind n e.decl.params args = .ok inner → P ⟨trail, e, inner⟩

theorem asking_expandType {t : TypeExpr} (hP : r.LeadsOnlyTo P trail t) :
    Asking P fun inner => r.expandType inner.enter trail t := by
  -- The texts of both refusals start with the type, and end in another letter than a repetition.
  have htext (start rest : String) (hrest : rest.toList.getLast? = some 'n') :
      ¬ Repeats (.error (.resolve .unsupportedRootKind .blank "" trail.path (start ++ rest) none) :
        Outcome Expansion) := by
    rw [repeats_error, reports, decide_eq_true_iff]
    exact append_ne_repetitionText start hrest (by decide)
  unfold expandType
  split
  · exact .settled (htext _ _ (by decide))
  · rename_i n hn
    split
    · exact .settled (htext _ _ (by decide))
    · rename_i hwrapper
      refine .settled_bind (not_repeats_of_objection (failsOnly_resolve n)) fun e he => ?_
      refine .settled_bind (not_repeats_of_objection (failsOnly_bind he _)) fun inner hinner => ?_
      exact .one (hP n t.args e inner (TypeExpr.eq_app_of_reference? hn) (by simpa using hwrapper)
        he hinner)

theorem asking_expandField (hP : f.annotations.has spreadKey = true →
      ∀ t, f.typeExpr.substitute env = .ok t → r.LeadsOnlyTo P trail t) :
    Asking P fun inner => r.expandField inner.enter trail owner env f := by
  refine .settled_bind (not_repeats_of_objection (r := r) (failsOnly_substitute _ _)) fun t ht => ?_
  refine .settled_bind (not_repeats_of_objection (failsOnly_checkArity t)) fun _ _ => ?_
  cases hspread : f.annotations.has spreadKey with
  | true => exact (asking_expandType (hP hspread t ht)).bind fun x => .settled (not_reports_ok _)
  | false => exact .settled (not_repeats_of_refusal (failsOnly_concreteField owner f t).bind_pure)

theorem expandFields_cons (enter : Enter) (f : Field) (rest : List Field) :
    r.expandFields enter trail owner env (f :: rest) =
      (r.expandField enter trail owner env f).mapError (located owner f.name trail.path) >>=
        fun found => r.expandFields enter trail owner env rest >>= fun more =>
          .ok (found ++ more) := by
  rw [expandFields]
  cases r.expandField enter trail owner env f with
  | error failure => rfl
  | ok found => cases r.expandFields enter trail owner env rest <;> rfl

theorem asking_expandFields
    (hP : ∀ f ∈ fields, f.annotations.has spreadKey = true →
      ∀ t, f.typeExpr.substitute env = .ok t → r.LeadsOnlyTo P trail t) :
    Asking P fun inner => r.expandFields inner.enter trail owner env fields := by
  induction fields with
  | nil => exact .settled (not_reports_ok _)
  | cons f rest ih =>
    obtain ⟨hf, hrest⟩ := List.forall_mem_cons.mp hP
    simp only [expandFields_cons]
    refine ((asking_expandField hf).mapError (reports_located _ _ _ _)).bind
      fun found => ?_
    exact (ih hrest).bind fun more => .settled (not_reports_ok _)

/-- Fields that were found, unless two have one name. -/
def distinctFields (trail : Trail) (owner : ScopedName) (found : List ConcreteField) :
    Outcome (List ConcreteField) :=
  match clash? [] found with
  | none => .ok found
  | some (first, second) =>
    .error (.resolve .duplicateField owner second.name trail.path
      ("declared by both " ++ first.origin.text ++ " and " ++ second.origin.text) none)

theorem shapeFields_eq (enter : Enter) (fields : List Field) :
    r.shapeFields enter trail owner env fields =
      r.expandFields enter trail owner env fields >>= distinctFields trail owner := by
  rw [shapeFields]
  cases r.expandFields enter trail owner env fields <;> rfl

theorem asking_shapeFields
    (hP : ∀ f ∈ fields, f.annotations.has spreadKey = true →
      ∀ t, f.typeExpr.substitute env = .ok t → r.LeadsOnlyTo P trail t) :
    Asking P fun inner => r.shapeFields inner.enter trail owner env fields := by
  simp only [shapeFields_eq]
  refine (asking_expandFields hP).bind fun found => .settled ?_
  unfold distinctFields
  split <;> simp [reports]

theorem expandTarget_eq (enter : Enter) (target : TypeExpr) :
    r.expandTarget enter trail owner env target =
      (target.substitute env >>= r.expandType enter trail).mapError
        (located owner "" trail.path) := by
  rw [expandTarget]
  cases target.substitute env with
  | error failure => rfl
  | ok t =>
    have hbind : (Except.ok t >>= r.expandType enter trail) = r.expandType enter trail t := rfl
    rw [hbind]
    dsimp only
    cases r.expandType enter trail t <;> rfl

theorem asking_expandTarget (hP : ∀ t, target.substitute env = .ok t → r.LeadsOnlyTo P trail t) :
    Asking P fun inner => r.expandTarget inner.enter trail owner env target := by
  simp only [expandTarget_eq]
  refine Asking.mapError ?_ (reports_located _ _ _ _)
  exact .settled_bind (not_repeats_of_objection (r := r) (failsOnly_substitute _ _)) fun t ht =>
    asking_expandType (hP t ht)

/-- A visit asks for what its body leads to. -/
theorem asking_inside (x : Visit) : Asking (r.Inlines x) fun inner => r.inside inner x := by
  have hleads : ∀ s ∈ x.decl.decl.body.inlined, ∀ t, s.substitute x.env = .ok t →
      r.LeadsOnlyTo (r.Inlines x) (x.trail.enter x.decl) t := by
    rintro s hs t ht n args e inner rfl hwrapper he hinner
    exact ⟨rfl, s, hs, n, args, ht, hwrapper, he, hinner⟩
  unfold inside
  cases htarget : x.decl.decl.body.target? with
  | some target => exact asking_expandTarget (hleads target (Body.target_mem_inlined htarget))
  | none =>
    refine (asking_shapeFields fun f hf hspread => ?_).bind fun out =>
      .settled (not_reports_ok _)
    exact hleads f.typeExpr (Body.mem_inlined_of_spread hf hspread)

end Operations

end Resolver

end SchemaCompiler
