import SchemaCompiler.Proofs.SubstitutionLaws
import SchemaCompiler.Proofs.Targets
import SchemaCompiler.Proofs.WrittenTypes

/-!
# What the type operations refuse

The operations on type expressions fail in few ways: a name is not known, a type
is missing, or a rule is broken.  The failure then knows no place yet, apart from
two cases.  A declaration that is used with the wrong number of arguments is
named, and so is an alias that leads back to itself.  Whatever calls these
operations can tell from this which places its own failures have.
-/

namespace SchemaCompiler

open List TypeExpr

variable {failure : Failure}

open Outcome (FailsOnly failsOnly_ok failsOnly_error)

/-! ## Names and bindings -/

theorem Store.failsOnly_resolve (s : Store) (n : ScopedName) :
    FailsOnly (· = .notFound "decl" (some n.text)) (s.resolve n) := by
  rw [resolve]
  split
  · exact failsOnly_ok
  · exact failsOnly_error.mpr rfl

theorem Env.failsOnly_bind (n : ScopedName) (params : List String) (args : List TypeExpr) :
    FailsOnly (fun failure => params.length ≠ args.length ∧
      failure = .resolve .arityMismatch n "" []
        (arityMessage n params.length args.length) none) (Env.bind n params args) := by
  rw [Env.bind]
  split_ifs with hcount
  · exact failsOnly_ok
  · exact failsOnly_error.mpr ⟨hcount, rfl⟩

theorem TypeExpr.failsOnly_substitute (env : Env) (t : TypeExpr) :
    FailsOnly (fun failure => ∃ param count, failure = appliedParam param count)
      (t.substitute env) := by
  intro failure h
  obtain ⟨name, args, _, _, _, rfl⟩ := exists_of_substitute_error h
  exact ⟨name, args.length, rfl⟩

namespace Resolver

variable {t : TypeExpr} {α : Type}

/-- How an operation on type expressions fails for other reasons than a missing
type. -/
inductive Objection (r : Resolver) : Failure → Prop
  /-- No declaration has the name. -/
  | unknown (n : ScopedName) : Objection r (.notFound "decl" (some n.text))
  /-- A rule is broken and nothing is known about the place. -/
  | unplaced {rule : Rule} (hrule : rule ≠ .unsupportedRootKind) (message : String) :
      Objection r (.resolve rule .blank "" [] message none)
  /-- A declaration is bound to the wrong number of arguments. -/
  | miscounted {n : ScopedName} {e : ScopedDecl} {supplied : Nat}
      (he : r.store.resolve n = .ok e) (hcount : e.decl.params.length ≠ supplied) :
      Objection r (.resolve .arityMismatch n "" []
        (Env.arityMessage n e.decl.params.length supplied) none)
  /-- An alias leads back to itself. -/
  | cyclic {n : ScopedName} {e : ScopedDecl} {params : List String} {target : TypeExpr}
      (he : r.store.resolve n = .ok e) (hbody : e.decl.body = .synonym params target) :
      Objection r (cyclicAlias n)

/-- How an operation on type expressions fails. -/
inductive Refusal (r : Resolver) : Failure → Prop
  | objection {failure : Failure} (h : r.Objection failure) : Refusal r failure
  | missing (message : Option String) : Refusal r (.panic message)

variable {r : Resolver}

/-! ## Operations that object -/

theorem failsOnly_resolve (n : ScopedName) : FailsOnly r.Objection (r.store.resolve n) :=
  (r.store.failsOnly_resolve n).imp fun _ h => h ▸ .unknown n

theorem failsOnly_bind {n : ScopedName} {e : ScopedDecl} (he : r.store.resolve n = .ok e)
    (args : List TypeExpr) : FailsOnly r.Objection (Env.bind n e.decl.params args) :=
  (Env.failsOnly_bind n e.decl.params args).imp fun _ ⟨hcount, h⟩ => h ▸ .miscounted he hcount

theorem failsOnly_substitute (env : Env) (t : TypeExpr) :
    FailsOnly r.Objection (t.substitute env) :=
  (t.failsOnly_substitute env).imp fun _ ⟨_, _, h⟩ => h ▸ .unplaced (by decide) _

theorem failsOnly_single (name : String) (args : List TypeExpr) :
    FailsOnly r.Objection (single name args) := by
  unfold single
  split
  · exact failsOnly_ok
  · exact failsOnly_error.mpr (.unplaced (by decide) _)

theorem failsOnly_checkHead (t : TypeExpr) : FailsOnly r.Objection (r.checkHead t) := by
  unfold checkHead
  split
  · exact failsOnly_ok
  · exact failsOnly_ok
  · split
    · exact (failsOnly_resolve _).error ‹_›
    · split_ifs
      · exact failsOnly_ok
      · exact failsOnly_error.mpr (.unplaced (by decide) _)
  · rename_i name args
    by_cases hcount : args.length = if r.wrappers.isParametric name then 1 else 0
    · simp only [if_pos hcount, failsOnly_ok]
    · simp only [if_neg hcount]
      exact failsOnly_error.mpr (.unplaced (by decide) _)

theorem failsOnly_checkArity (t : TypeExpr) : FailsOnly r.Objection (r.checkArity t) := by
  unfold checkArity
  induction t.walk with
  | nil => exact failsOnly_ok
  | cons t rest ih =>
    rw [checkHeads]
    split
    · exact (failsOnly_checkHead t).error ‹_›
    · exact ih

theorem failsOnly_expandWithin (budget : Nat) (seen : List ScopedName) (t : TypeExpr) :
    FailsOnly r.Objection (r.expandWithin budget seen t) := by
  induction budget using Nat.strongRecOn generalizing seen t with
  | ind budget ih =>
    unfold expandWithin
    split
    · exact failsOnly_ok
    · split
      · exact failsOnly_ok
      · split
        · exact (failsOnly_resolve _).error ‹_›
        · rename_i e he
          split
          · rename_i params target hbody
            have hparams : e.decl.params = params := by
              rw [Declaration.params, hbody, Body.params]
            split
            · exact failsOnly_error.mpr (.cyclic he hbody)
            · split
              · exact failsOnly_error.mpr (.cyclic he hbody)
              · split
                · exact (hparams ▸ failsOnly_bind he t.args).error ‹_›
                · split
                  · exact (failsOnly_substitute _ target).error ‹_›
                  · exact ih _ (Nat.lt_succ_self _) _ _
          · exact failsOnly_ok

theorem failsOnly_expandAliases (t : TypeExpr) : FailsOnly r.Objection (r.expandAliases t) :=
  failsOnly_expandWithin _ _ t

/-! ## Operations that also meet missing types -/

theorem failsOnly_refusal {x : Outcome α} (h : FailsOnly r.Objection x) : FailsOnly r.Refusal x :=
  h.imp fun _ => .objection

/-- How an operation on a type fails: it objects, or the type is not whole. -/
inductive RefusalOf (r : Resolver) (t : TypeExpr) : Failure → Prop
  | objection {failure : Failure} (h : r.Objection failure) : RefusalOf r t failure
  | missing (ht : ¬t.Whole) (message : Option String) : RefusalOf r t (.panic message)

theorem RefusalOf.refusal (h : r.RefusalOf t failure) : r.Refusal failure := by
  cases h with
  | objection h => exact .objection h
  | missing _ message => exact .missing message

theorem RefusalOf.of_arg {head : TypeRef} {args : List TypeExpr} {a : TypeExpr} (ha : a ∈ args)
    (h : r.RefusalOf a failure) : r.RefusalOf (.app head args) failure := by
  cases h with
  | objection h => exact .objection h
  | missing ht message => exact .missing (fun happ => ht (whole_app.mp happ a ha)) message

theorem failsOnly_refusalOf {x : Outcome α} (h : FailsOnly r.Objection x) :
    FailsOnly (r.RefusalOf t) x :=
  h.imp fun _ => .objection

theorem failsOnly_referenceTarget (n : ScopedName) (inner : TypeExpr) :
    FailsOnly (r.RefusalOf inner) (r.referenceTarget n inner) := by
  unfold referenceTarget
  split
  · exact failsOnly_error.mpr (.missing not_whole_missing _)
  · exact failsOnly_ok
  · exact failsOnly_error.mpr (.objection (.unplaced (by decide) _))
  · split
    · exact failsOnly_error.mpr (.objection (.unplaced (by decide) _))
    · split
      · exact (failsOnly_refusalOf (failsOnly_expandAliases _)).error ‹_›
      · split
        · split
          · exact failsOnly_error.mpr (.objection (.unplaced (by decide) _))
          · exact failsOnly_ok
        · exact failsOnly_ok

theorem failsOnly_classify (t : TypeExpr) : FailsOnly (r.RefusalOf t) (r.classify t) := by
  unfold classify
  split
  · exact failsOnly_error.mpr (.missing not_whole_missing _)
  · exact failsOnly_ok
  · split
    · exact failsOnly_ok
    · split
      · exact (failsOnly_refusalOf (failsOnly_single _ _)).error ‹_›
      · exact failsOnly_ok
  · split
    · split
      · exact (failsOnly_refusalOf (failsOnly_single _ _)).error ‹_›
      · exact failsOnly_ok
    · split
      · split
        · exact (failsOnly_refusalOf (failsOnly_single _ _)).error ‹_›
        · rename_i inner hinner
          rw [single_eq_ok.mp hinner]
          split
          · exact ((failsOnly_referenceTarget _ _).imp fun _ =>
              RefusalOf.of_arg mem_cons_self).error ‹_›
          · exact failsOnly_ok
      · exact failsOnly_ok

theorem failsOnly_references (t : TypeExpr) :
    FailsOnly (r.RefusalOf t) (r.references t) := by
  induction t using inductionOn with
  | hmissing =>
    unfold references
    exact failsOnly_error.mpr (.missing not_whole_missing _)
  | happ head args ih =>
    have hargs (a : TypeExpr) (ha : a ∈ args) :
        FailsOnly (r.RefusalOf (.app head args)) (r.references a) :=
      (ih a ha).imp fun _ => .of_arg ha
    -- Tails of the arguments are no arguments, so the inner induction is over sublists.
    have hall : ∀ as ⊆ args, FailsOnly (r.RefusalOf (.app head args)) (r.referencesAll as) := by
      intro as has
      induction as with
      | nil => exact failsOnly_ok
      | cons a as ihas =>
        obtain ⟨ha, has⟩ := cons_subset.mp has
        rw [referencesAll]
        split
        · exact (hargs a ha).error ‹_›
        · split
          · exact (ihas has).error ‹_›
          · exact failsOnly_ok
    unfold references
    split
    · exact (failsOnly_classify _).error ‹_›
    · split
      · exact failsOnly_ok
      · split
        · exact hall _ (Subset.refl _)
        · exact failsOnly_ok
      · cases args with
        | nil => exact failsOnly_ok
        | cons a as => exact hargs a mem_cons_self

theorem failsOnly_core (t : TypeExpr) : FailsOnly (r.RefusalOf t) (r.core t) := by
  induction t using inductionOn with
  | hmissing =>
    unfold core
    exact failsOnly_error.mpr (.missing not_whole_missing _)
  | happ head args ih =>
    rw [core]
    split
    · exact (failsOnly_classify _).error ‹_›
    · split
      · exact failsOnly_ok
      · exact failsOnly_ok
      · cases args with
        | nil => exact failsOnly_ok
        | cons a as => exact (ih a mem_cons_self).imp fun _ => .of_arg mem_cons_self

theorem failsOnly_link (t : TypeExpr) : FailsOnly r.Refusal (r.link t) := by
  have hlayer (t : TypeExpr) : FailsOnly r.Refusal (r.classifyExpanded t) := by
    unfold classifyExpanded
    split
    · exact (failsOnly_refusal (failsOnly_expandAliases _)).error ‹_›
    · exact (failsOnly_classify _).imp fun _ => RefusalOf.refusal
  unfold link
  split
  · exact (hlayer _).error ‹_›
  · split
    · split
      · exact (hlayer _).error ‹_›
      · exact failsOnly_ok
    · exact failsOnly_ok

theorem failsOnly_concreteField (owner : ScopedName) (f : Field) (t : TypeExpr) :
    FailsOnly r.Refusal (r.concreteField owner f t) := by
  refine ((failsOnly_classify t).imp fun _ => RefusalOf.refusal).bind fun _ _ => ?_
  refine ((failsOnly_references t).imp fun _ => RefusalOf.refusal).bind fun _ _ => ?_
  refine ((failsOnly_core t).imp fun _ => RefusalOf.refusal).bind fun _ _ => ?_
  exact (failsOnly_link t).bind fun _ _ => failsOnly_ok

end Resolver

end SchemaCompiler
