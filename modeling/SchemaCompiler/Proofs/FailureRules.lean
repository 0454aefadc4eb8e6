import SchemaCompiler.Proofs.Panics

/-!
# Every failure has one rule

Projecting, collecting and tracking instances fail because a name is not known,
or because one rule is broken: no failure beneath another breaks a rule of its
own.  A failed projection moreover names a declaration, and so does a failed
closure, as each visit on the way out fills in its own, where it has a name.
-/

namespace SchemaCompiler

open Outcome Standard Failure

open Outcome (FailsOnly failsOnly_ok failsOnly_error)

namespace Failure

variable {failure : Failure}

/-- A failure that stands for one condition; a panic stands for none. -/
inductive IsSingle : Failure → Prop
  | panic (message : Option String) : IsSingle (.panic message)
  | unknown {failure : Failure} (h : failure.IsUnknown) : IsSingle failure
  | broken (rule : Rule) (decl : ScopedName) (field : String) (path : List String)
      (message : String) : IsSingle (.resolve rule decl field path message none)

/-- The declaration that the outermost broken rule is reported at. -/
def brokenAt? (failure : Failure) : Option ScopedName :=
  failure.chain.findSome? fun
    | .resolve _ decl .. => some decl
    | _ => none

/-- Either a name is unknown and no rule is broken, or exactly one rule is. -/
def HasOneRule (failure : Failure) : Prop :=
  (failure.matches .notFound = true ∧ ∀ rule, failure.matches (.rule rule) = false) ∨
    failure.matches .notFound = false ∧ ∃! rule, failure.matches (.rule rule) = true

/-- A broken rule is reported at a declaration, which has a name unless `P` holds. -/
def NamesDecl (P : Prop) (failure : Failure) : Prop :=
  ∀ rule, failure.matches (.rule rule) = true →
    ∃ n, failure.brokenAt? = some n ∧ (n = .blank → P)

/-! ## What a failure stands for -/

theorem IsSingle.located (h : failure.IsSingle) (decl : ScopedName) (field : String)
    (path : List String) : (failure.located decl field path).IsSingle := by
  cases h with
  | panic message => exact .panic message
  | unknown h => exact .unknown (h.located decl field path)
  | broken rule d f p message => exact .broken ..

theorem IsUnknown.matches_iff (h : failure.IsUnknown) (c : Condition) :
    failure.matches c = true ↔ c = .notFound := by
  induction h with
  | name label id => simp [«matches», chain, stands]
  | within label _ ih =>
    rw [«matches», chain, List.any_cons, ← «matches», Bool.or_eq_true, ih]
    simp [stands]

theorem matches_broken_iff {rule : Rule} {decl : ScopedName} {field message : String}
    {path : List String} {c : Condition} :
    (resolve rule decl field path message none).matches c = true ↔ c = .rule rule := by
  simp [«matches», chain, causeChain, stands]

theorem IsSingle.hasOneRule (h : failure.IsSingle) (hpanic : failure.isPanic = false) :
    failure.HasOneRule := by
  cases h with
  | panic => cases hpanic
  | unknown h =>
    refine .inl ⟨(h.matches_iff _).mpr rfl, fun rule => ?_⟩
    rw [← Bool.not_eq_true, h.matches_iff]
    exact Condition.noConfusion
  | broken rule =>
    refine .inr ⟨?_, rule, matches_broken_iff.mpr rfl, fun other hother => ?_⟩
    · rw [← Bool.not_eq_true, matches_broken_iff]
      exact Condition.noConfusion
    · exact Condition.rule.inj (matches_broken_iff.mp hother)

theorem IsSingle.ofWorker (h : failure.IsSingle) : failure.ofWorker.IsSingle := by
  cases failure with
  | panic => exact .panic none
  | _ => exact h

theorem NamesDecl.imp {P Q : Prop} (h : failure.NamesDecl P) (hPQ : P → Q) :
    failure.NamesDecl Q := by
  intro rule hrule
  obtain ⟨n, hn, hblank⟩ := h rule hrule
  exact ⟨n, hn, fun h => hPQ (hblank h)⟩

theorem NamesDecl.ofWorker {P : Prop} (h : failure.NamesDecl P) :
    failure.ofWorker.NamesDecl P := by
  cases failure with
  | panic => exact fun rule hrule => by cases hrule
  | _ => exact h

theorem IsUnknown.namesDecl (h : failure.IsUnknown) (P : Prop) : failure.NamesDecl P := by
  intro rule hrule
  cases (h.matches_iff _).mp hrule

end Failure

/-! ## Projections -/

namespace Resolver

variable {r : Resolver} {x : Visit} {failure : Failure}

theorem Objection.isSingle (h : r.Objection failure) : failure.IsSingle := by
  cases h with
  | unknown n => exact .unknown (.name ..)
  | unplaced | miscounted | cyclic => exact .broken ..

theorem Refusal.isSingle (h : r.Refusal failure) : failure.IsSingle := by
  cases h with
  | missing message => exact .panic message
  | objection h => exact h.isSingle

theorem FailsAt.isSingle (h : r.FailsAt x failure) : failure.IsSingle := by
  induction h with
  | repeated | clash => exact .broken ..
  | refused _ hrefusal => exact hrefusal.isSingle.located ..
  | unfit => exact .broken ..
  | inner _ _ _ ih => exact ih.located ..

/-- A visit puts its own name where none is known. -/
theorem FailsAt.blank_of_broken {rule : Rule} {decl : ScopedName} {field message : String}
    {path : List String} {cause : Option Failure} (h : r.FailsAt x failure)
    (hfailure : failure = .resolve rule decl field path message cause)
    (hblank : decl = .blank) : x.decl.name = .blank := by
  cases h with
  | repeated | clash =>
    cases hfailure
    exact hblank
  | refused | unfit | inner =>
    obtain ⟨d, _, _, _, rfl, _⟩ := located_eq_resolve hfailure
    split_ifs at hblank with hd
    · exact hblank
    · exact absurd hblank hd

theorem FailsAt.namesDecl (h : r.FailsAt x failure) :
    failure.NamesDecl (x.decl.name = .blank) := by
  intro rule hrule
  cases hsingle : h.isSingle with
  | panic => cases hrule
  | unknown hunknown => exact hunknown.namesDecl _ rule hrule
  | broken rule decl => exact ⟨decl, rfl, h.blank_of_broken rfl⟩

theorem failsOnly_project (d : ScopedDecl) (env : Env) :
    FailsOnly IsSingle (r.project d env) :=
  fun _ h => (failsAt_of_project_error h).isSingle

theorem failsOnly_projectType (t : TypeExpr) : FailsOnly IsSingle (r.projectType t) := by
  unfold projectType
  split
  · exact failsOnly_error.mpr (.broken ..)
  · rename_i n _
    refine ((failsOnly_resolve n).imp fun _ => Objection.isSingle).bind fun d hd => ?_
    refine ((failsOnly_bind hd t.args).imp fun _ => Objection.isSingle).bind fun env _ => ?_
    exact (failsOnly_project d env).bind_pure

/-! ## Closures -/

theorem failsOnly_closure (roots : List ScopedDecl) (inFocus : ScopedName → Bool) :
    FailsOnly (fun failure => failure.IsSingle ∧
        failure.NamesDecl (∃ d ∈ roots ++ r.store.allDecls, d.name = .blank))
      (r.closure roots inFocus) := by
  -- The declarations of the first round are roots, those of a later round were looked up.
  refine failsOnly_closure_of (Q := (· ∈ roots ++ r.store.allDecls))
    (fun d hd => ?_) (fun p front => ?_)
    (fun n d hn => List.mem_append_right _ (Store.mem_allDecls_of_resolve_ok hn))
    fun d hd => List.mem_append_left _ hd
  · have hfails : FailsOnly (r.FailsAt (firstVisit d [])) (r.project d []) :=
      fun _ => failsAt_of_project_error
    refine hfails.mapError fun failure h => ⟨h.isSingle.ofWorker, ?_⟩
    exact (h.namesDecl.imp fun hblank => ⟨d, hd, hblank⟩).ofWorker
  · exact (failsOnly_enterTargets inFocus p front).imp fun _ h => ⟨.unknown h, h.namesDecl _⟩

end Resolver

/-! ## Runs of the tracker -/

namespace Tracker

variable {r : Resolver}

theorem failsOnly_record (t : Tracker) (owner : String) (f : ConcreteField) :
    FailsOnly IsSingle (t.record r owner f).2 := by
  have hname (siblings : List Instance) (application : TypeExpr) :
      FailsOnly IsSingle (Instance.uniqueName siblings application) := by
    unfold Instance.uniqueName
    split
    · exact ((Resolver.failsOnly_readableName application).imp fun _ h => h.2 ▸ .panic _).error ‹_›
    · split
      · exact failsOnly_ok
      · split <;> exact failsOnly_ok
  unfold record
  split
  · exact failsOnly_ok
  · split
    · exact ((Resolver.failsOnly_core _).imp fun _ h => h.refusal.isSingle).error ‹_›
    · dsimp only
      split
      · unfold recordUse
        dsimp only
        split
        · exact failsOnly_error.mpr (.panic _)
        · exact failsOnly_ok
      · unfold recordNew
        dsimp only
        split
        · exact (hname _ _).error ‹_›
        · split
          · exact failsOnly_error.mpr (.broken ..)
          · exact failsOnly_ok

theorem failsOnly_run (t : Tracker) (ps : List Projection) :
    FailsOnly IsSingle (run r t ps).2 := by
  have hsteps : Steps r (fun _ => True) (fun _ _ => True) (fun _ => True) IsSingle :=
    ⟨fun t owner f _ _ => ⟨trivial, by simp, by simp, failsOnly_record t owner f⟩,
      fun _ i _ _ => (Resolver.failsOnly_projectType i.typeExpr).bind_pure,
      by simp, fun decl field path _ h => h.located decl field path, fun _ => .broken ..⟩
  exact (hsteps.run (by simp) trivial).fails

end Tracker

namespace Resolver

variable {r : Resolver}

/-- A failure that is no panic says that a name is unknown and breaks no rule, or
it breaks exactly one: of projections, also of types, of runs of a tracker with
any past, and of closures.  A projection that breaks a rule names a declaration,
unless the one to be projected has no name itself; a closure does, unless one of
its roots or a declaration of the store has none. -/
theorem failures_have_one_rule {failure : Failure} (hpanic : failure.isPanic = false) :
    (∀ d env, r.project d env = .error failure →
      failure.HasOneRule ∧ failure.NamesDecl (d.name = .blank)) ∧
    (∀ t, r.projectType t = .error failure → failure.HasOneRule) ∧
    (∀ tracker ps, (Tracker.run r tracker ps).2 = .error failure → failure.HasOneRule) ∧
    ∀ roots inFocus, r.closure roots inFocus = .error failure →
      failure.HasOneRule ∧
        failure.NamesDecl (∃ d ∈ roots ++ r.store.allDecls, d.name = .blank) := by
  refine ⟨fun d env h => ?_, fun t h => ?_, fun tracker ps h => ?_, fun roots inFocus h => ?_⟩
  · have hfails := failsAt_of_project_error h
    exact ⟨hfails.isSingle.hasOneRule hpanic, hfails.namesDecl⟩
  · exact (failsOnly_projectType t failure h).hasOneRule hpanic
  · exact (Tracker.failsOnly_run tracker ps failure h).hasOneRule hpanic
  · obtain ⟨hsingle, hnames⟩ := failsOnly_closure roots inFocus failure h
    exact ⟨hsingle.hasOneRule hpanic, hnames⟩

/-- A spread field behind an alias breaks one rule, at a declaration with a name. -/
theorem failures_have_one_rule_tagged :
    ∃ failure, tagging.project tagged [] = .error failure ∧ failure.isPanic = false ∧
      failure.HasOneRule ∧ failure.matches (.rule .unsupportedRootKind) = true ∧
      ∃ n, failure.brokenAt? = some n ∧ n ≠ .blank := by
  obtain ⟨failure, hfails, hpanic, hrule⟩ : ∃ failure,
      tagging.project tagged [] = .error failure ∧ failure.isPanic = false ∧
        failure.matches (.rule .unsupportedRootKind) = true := ⟨_, rfl, rfl, rfl⟩
  obtain ⟨hone, hnames⟩ := (failures_have_one_rule hpanic).1 tagged [] hfails
  obtain ⟨n, hn, hblank⟩ := hnames _ hrule
  refine ⟨failure, hfails, hpanic, hone, hrule, n, hn, fun h => ?_⟩
  exact absurd (hblank h) (by decide)

/-- A struct with neither module nor name, which has a field twice. -/
def nameless : ScopedDecl :=
  ⟨"", (structDecl "" [] [field "id" text,
    field "id" text]).2⟩

/-- A struct with a reference to it. -/
def naming : ScopedDecl :=
  ⟨"app", (structDecl "Naming" [] [field "key"
    (.ref ⟨"common.db", "DbKey"⟩ [.ref ⟨"", "Thing"⟩])]).2⟩

/-- A struct with a field that has no type. -/
def untyped : ScopedDecl :=
  ⟨"app", (structDecl "Untyped" [] [field "total" .missing]).2⟩

def namelessly : Resolver :=
  ⟨⟨[moduleOf "" [("Thing", nameless.decl)],
    moduleOf "common.db" [newtypeDecl "DbKey" ["T"] text]]⟩, .standard⟩

/-- Failures without a name, of a projection and of a closure, and a projection
that breaks no rule but panics. -/
theorem nameless_failures :
    (∃ failure, namelessly.project nameless [] = .error failure ∧
      failure.matches (.rule .duplicateField) = true ∧ failure.brokenAt? = some .blank) ∧
    (∃ failure, namelessly.closure [naming] (fun _ => false) = .error failure ∧
      failure.matches (.rule .duplicateField) = true ∧ failure.brokenAt? = some .blank) ∧
    namelessly.project untyped [] = .error missingType := by
  exact ⟨⟨_, rfl, rfl, rfl⟩, ⟨_, rfl, rfl, rfl⟩, rfl⟩

end Resolver

end SchemaCompiler
