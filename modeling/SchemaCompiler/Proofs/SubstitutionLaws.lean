import SchemaCompiler.Proofs.Substitution

/-!
# Laws of substitution

Substitution fails exactly where a bound parameter is applied to arguments of
its own.  Where it succeeds, every expression inside the result is a
substituted expression from inside the original, or stands inside the value of
a parameter that occurs there; so the open parameters of the result are known.
Substituting twice and substituting once, with the bindings composed, succeed
together and agree.
-/

namespace SchemaCompiler.TypeExpr

variable {env : Env} {t s : TypeExpr} {name : String} {failure : Failure}

/-! ## Parameters inside an expression -/

theorem mem_paramNames_iff : name ∈ t.paramNames ↔ ∃ args, app (.param name) args ∈ t.walk := by
  rw [paramNames, List.mem_filterMap]
  constructor
  · rintro ⟨x, hx, hname⟩
    cases x with
    | missing => cases hname
    | app head args =>
      cases head with
      | param other =>
        obtain rfl := Option.some.inj hname
        exact ⟨args, hx⟩
      | primitive other | reference other => cases hname
  · rintro ⟨args, hx⟩
    exact ⟨_, hx, rfl⟩

theorem hasParams_iff : t.hasParams = true ↔ ∃ name, name ∈ t.paramNames := by
  constructor
  · induction t using inductionOn with
    | hmissing => intro h; cases h
    | happ head args ih =>
      have hargs : anyHasParams args = true → ∃ name, name ∈ (app head args).paramNames := by
        rw [anyHasParams_eq_any, List.any_eq_true]
        rintro ⟨a, ha, hopen⟩
        obtain ⟨name, hname⟩ := ih a ha hopen
        exact ⟨name, paramNames_arg_subset ha hname⟩
      cases head with
      | param name => exact fun _ => ⟨name, mem_paramNames_param name args⟩
      | primitive name | reference name => exact hargs
  · rintro ⟨name, hname⟩
    obtain ⟨args, hx⟩ := mem_paramNames_iff.mp hname
    by_contra hclosed
    exact head?_ne_param_of_hasParams (by simpa using hclosed) hx name rfl

/-! ## Expressions inside a substituted one -/

/-- What stands inside an expression stands, substituted, inside the result. -/
theorem exists_substitute_mem_walk (h : t.substitute env = .ok s) {x : TypeExpr}
    (hx : x ∈ t.walk) : ∃ y, x.substitute env = .ok y ∧ y ∈ s.walk := by
  induction t using inductionOn generalizing s with
  | hmissing =>
    obtain rfl : x = missing := by simpa [walk] using hx
    exact ⟨s, h, self_mem_walk s⟩
  | happ head args ih =>
    rcases mem_walk_app.mp hx with rfl | ⟨a, ha, hxa⟩
    · exact ⟨s, h, self_mem_walk s⟩
    · obtain ⟨bs, hbs, hhead⟩ := substitute_app_eq_ok.mp h
      obtain ⟨b, hb, hab⟩ := Outcome.forall₂_exists_right hbs ha
      obtain ⟨y, hy, hyb⟩ := ih a ha hab hxa
      rcases substituteHead_eq_ok.mp hhead with ⟨_, _, rfl, _⟩ | ⟨_, rfl⟩
      · cases hb
      · exact ⟨y, hy, walk_arg_subset hb hyb⟩

/-- A parameter that is not bound keeps its place, and its arguments are
substituted. -/
theorem substitute_free_param {args : List TypeExpr} (hfree : env.find? name = none)
    (h : (app (.param name) args).substitute env = .ok s) :
    ∃ bs, List.Forall₂ (fun a b => a.substitute env = .ok b) args bs ∧
      s = app (.param name) bs := by
  obtain ⟨bs, hbs, hhead⟩ := substitute_app_eq_ok.mp h
  rcases substituteHead_eq_ok.mp hhead with ⟨other, hother, _, hbound⟩ | ⟨_, rfl⟩
  · obtain rfl := TypeRef.param.inj hother
    rw [hfree] at hbound
    cases hbound
  · exact ⟨bs, hbs, rfl⟩

/-- A parameter that is bound stands alone and becomes its value. -/
theorem substitute_bound_param {args : List TypeExpr} {value : TypeExpr}
    (hbound : env.find? name = some value) (h : (app (.param name) args).substitute env = .ok s) :
    args = [] ∧ s = value := by
  obtain ⟨bs, hbs, hhead⟩ := substitute_app_eq_ok.mp h
  rcases substituteHead_eq_ok.mp hhead with ⟨other, hother, rfl, hfound⟩ | ⟨hfree, _⟩
  · obtain rfl := TypeRef.param.inj hother
    rw [hbound] at hfound
    exact ⟨List.forall₂_nil_right_iff.mp hbs, (Option.some.inj hfound).symm⟩
  · rw [hfree name rfl] at hbound
    cases hbound

/-- The parameters of the result: those that are not bound, and those of the
values of the others. -/
theorem mem_paramNames_substitute (h : t.substitute env = .ok s) :
    name ∈ s.paramNames ↔
      (name ∈ t.paramNames ∧ env.find? name = none) ∨
      ∃ param ∈ t.paramNames, ∃ value, env.find? param = some value ∧
        name ∈ value.paramNames := by
  constructor
  · intro hname
    obtain ⟨args, hx⟩ := mem_paramNames_iff.mp hname
    rcases mem_walk_substitute h hx with ⟨y, hy, hhead, -, hfree⟩ | ⟨b, -, hparam, hfind, hvalue⟩
    · cases y with
      | missing => cases hhead
      | app head as =>
        cases hhead
        exact .inl ⟨mem_paramNames_iff.mpr ⟨as, hy⟩, hfree name rfl⟩
    · exact .inr ⟨b.param, hparam, b.value, hfind, mem_paramNames_iff.mpr ⟨args, hvalue⟩⟩
  · rintro (⟨hmem, hnone⟩ | ⟨param, hmem, value, hbound, hname⟩)
    · obtain ⟨args, hx⟩ := mem_paramNames_iff.mp hmem
      obtain ⟨y, hy, hys⟩ := exists_substitute_mem_walk h hx
      obtain ⟨bs, _, rfl⟩ := substitute_free_param hnone hy
      exact mem_paramNames_iff.mpr ⟨bs, hys⟩
    · obtain ⟨args, hx⟩ := mem_paramNames_iff.mp hmem
      obtain ⟨y, hy, hys⟩ := exists_substitute_mem_walk h hx
      obtain ⟨_, rfl⟩ := substitute_bound_param hbound hy
      obtain ⟨bs, hbs⟩ := mem_paramNames_iff.mp hname
      exact mem_paramNames_iff.mpr ⟨bs, walk_subset hys hbs⟩

/-! ## Failures -/

/-- A bound parameter is applied to arguments of its own. -/
def AppliesBound (env : Env) (t : TypeExpr) : Prop :=
  ∃ name args, app (.param name) args ∈ t.walk ∧ args ≠ [] ∧ (env.find? name).isSome

theorem exists_of_substituteAll_error {as : List TypeExpr}
    (h : substituteAll env as = .error failure) : ∃ a ∈ as, a.substitute env = .error failure := by
  induction as with
  | nil => cases h
  | cons a as ih =>
    rw [substituteAll] at h
    split at h
    · rename_i other ha
      cases h
      exact ⟨a, List.mem_cons_self, ha⟩
    · split at h
      · rename_i hrest
        cases h
        obtain ⟨x, hx, hfails⟩ := ih hrest
        exact ⟨x, List.mem_cons_of_mem a hx, hfails⟩
      · cases h

/-- A failure tells which parameter is applied, and to how many arguments. -/
theorem exists_of_substitute_error (h : t.substitute env = .error failure) :
    ∃ name args, app (.param name) args ∈ t.walk ∧ args ≠ [] ∧ (env.find? name).isSome ∧
      failure = appliedParam name args.length := by
  induction t using inductionOn with
  | hmissing => cases h
  | happ head args ih =>
    rw [substitute] at h
    split at h
    · rename_i hall
      cases h
      obtain ⟨a, ha, hfails⟩ := exists_of_substituteAll_error hall
      obtain ⟨name, inner, hmem, hrest⟩ := ih a ha hfails
      exact ⟨name, inner, walk_arg_subset ha hmem, hrest⟩
    · rename_i bs hall
      have hlength : args.length = bs.length := (substituteAll_eq_ok.mp hall).length_eq
      cases head with
      | primitive name | reference name => cases h
      | param name =>
        rw [substituteHead] at h
        split at h
        · rename_i value hbound
          cases bs with
          | nil => cases h
          | cons b bs =>
            refine ⟨name, args, self_mem_walk _, ?_, by simp [hbound], ?_⟩
            · rintro rfl
              cases hlength
            · rw [hlength]
              exact (Except.error.inj h).symm
        · cases h

theorem not_appliesBound_of_substitute_ok (h : t.substitute env = .ok s) :
    ¬ t.AppliesBound env := by
  rintro ⟨name, args, hx, hne, hbound⟩
  obtain ⟨value, hvalue⟩ := Option.isSome_iff_exists.mp hbound
  obtain ⟨y, hy, _⟩ := exists_substitute_mem_walk h hx
  exact hne (substitute_bound_param hvalue hy).1

theorem exists_substitute_ok_iff : (∃ s, t.substitute env = .ok s) ↔ ¬ t.AppliesBound env := by
  constructor
  · rintro ⟨s, hs⟩
    exact not_appliesBound_of_substitute_ok hs
  · intro hnone
    cases hs : t.substitute env with
    | ok s => exact ⟨s, rfl⟩
    | error failure =>
      obtain ⟨name, args, hx, hne, hbound, _⟩ := exists_of_substitute_error hs
      exact absurd ⟨name, args, hx, hne, hbound⟩ hnone

/-! ## Composition -/

theorem isSome_find?_append (first later : Env) (name : String) :
    ((first ++ later : Env).find? name).isSome ↔
      (first.find? name).isSome ∨ (later.find? name).isSome := by
  cases hfirst : first.find? name with
  | none => simp [find?_append_of_none later hfirst]
  | some value => simp [find?_append_of_some later hfirst]

theorem Composes.isSome_find? {later first composed : Env} (h : Composes later first composed)
    (name : String) : (composed.find? name).isSome ↔ (first.find? name).isSome := by
  cases hfirst : first.find? name with
  | none => simp [h.find?_none hfirst]
  | some value =>
    obtain ⟨result, hresult, _⟩ := h.find?_some hfirst
    simp [hresult]

/-- Substituting twice and substituting the composed bindings, followed by the
later ones, give the same results. -/
theorem substitute_twice_iff {later first composed : Env} (h : Composes later first composed)
    {u : TypeExpr} :
    (∃ s, t.substitute first = .ok s ∧ s.substitute later = .ok u) ↔
      t.substitute (composed ++ later) = .ok u := by
  constructor
  · rintro ⟨s, hs, hu⟩
    have hnone : ¬ t.AppliesBound (composed ++ later) := by
      rintro ⟨name, args, hx, hne, hbound⟩
      obtain ⟨y, hy, hys⟩ := exists_substitute_mem_walk hs hx
      cases hfirst : first.find? name with
      | some value => exact hne (substitute_bound_param hfirst hy).1
      | none =>
        -- The parameter is left in place by the first bindings and refused by the later ones.
        obtain ⟨bs, hbs, rfl⟩ := substitute_free_param hfirst hy
        have hlater : (later.find? name).isSome := by
          rcases (isSome_find?_append composed later name).mp hbound with hcomposed | hlater
          · rw [h.isSome_find? name, hfirst] at hcomposed
            cases hcomposed
          · exact hlater
        refine not_appliesBound_of_substitute_ok hu ⟨name, bs, hys, ?_, hlater⟩
        rintro rfl
        exact hne (List.forall₂_nil_right_iff.mp hbs)
    obtain ⟨v, hv⟩ := exists_substitute_ok_iff.mpr hnone
    have hsame : s.substitute later = .ok v := substitute_of_composes h hs hv
    rw [hv, ← hsame, hu]
  · intro hu
    have hnone : ¬ t.AppliesBound first := by
      rintro ⟨name, args, hx, hne, hbound⟩
      refine not_appliesBound_of_substitute_ok hu ⟨name, args, hx, hne, ?_⟩
      exact (isSome_find?_append composed later name).mpr (.inl ((h.isSome_find? name).mpr hbound))
    obtain ⟨s, hs⟩ := exists_substitute_ok_iff.mpr hnone
    exact ⟨s, hs, substitute_of_composes h hs hu⟩

/-- Substitution fails exactly when a bound parameter is applied to arguments,
and that is the only failure.  A result has parameters exactly when a parameter
of the expression is not bound, or is bound to an expression with parameters.
Two substitutions are one, by the composed bindings followed by the later
ones. -/
theorem substitution_laws (t : TypeExpr) (first later : Env) :
    (((∃ failure, t.substitute first = .error failure) ↔ t.AppliesBound first) ∧
      ∀ failure, t.substitute first = .error failure →
        failure.matches (.rule .nonConcreteBinding) = true) ∧
    (∀ s, t.substitute first = .ok s →
      (s.hasParams = true ↔ ∃ name ∈ t.paramNames, first.find? name = none ∨
        ∃ value, first.find? name = some value ∧ value.hasParams = true)) ∧
    ∀ composed, Composes later first composed → ∀ u,
      (∃ s, t.substitute first = .ok s ∧ s.substitute later = .ok u) ↔
        t.substitute (composed ++ later) = .ok u := by
  refine ⟨⟨⟨?_, ?_⟩, ?_⟩, ?_, fun composed h u => substitute_twice_iff h⟩
  · rintro ⟨failure, hfails⟩
    obtain ⟨name, args, hx, hne, hbound, _⟩ := exists_of_substitute_error hfails
    exact ⟨name, args, hx, hne, hbound⟩
  · intro happlies
    cases hs : t.substitute first with
    | error failure => exact ⟨failure, rfl⟩
    | ok s => exact absurd happlies (not_appliesBound_of_substitute_ok hs)
  · intro failure hfails
    obtain ⟨name, args, _, _, _, rfl⟩ := exists_of_substitute_error hfails
    rfl
  · intro s hs
    rw [hasParams_iff]
    constructor
    · rintro ⟨name, hname⟩
      rcases (mem_paramNames_substitute hs).mp hname with ⟨hmem, hnone⟩ | ⟨p, hp, value, hv, hin⟩
      · exact ⟨name, hmem, .inl hnone⟩
      · exact ⟨p, hp, .inr ⟨value, hv, hasParams_iff.mpr ⟨name, hin⟩⟩⟩
    · rintro ⟨name, hmem, hnone | ⟨value, hv, hopen⟩⟩
      · exact ⟨name, (mem_paramNames_substitute hs).mpr (.inl ⟨hmem, hnone⟩)⟩
      · obtain ⟨inner, hinner⟩ := hasParams_iff.mp hopen
        exact ⟨inner, (mem_paramNames_substitute hs).mpr (.inr ⟨name, hmem, value, hv, hinner⟩)⟩

/-! ## A parameter that is bound twice -/

def pairType (left right : TypeExpr) : TypeExpr := .ref ⟨"app", "Pair"⟩ [left, right]

def boxType (inner : TypeExpr) : TypeExpr := .ref ⟨"app", "Box"⟩ [inner]

/-- The first binding of `A` counts, and it leads to the parameter `B`. -/
def shadowing : Env := [⟨"A", boxType (param "B")⟩, ⟨"A", param "C"⟩]

def filling : Env := [⟨"B", .prim "String"⟩, ⟨"A", .prim "Int32"⟩]

/-- The value of `A` that is not used stays open under the later bindings. -/
def filledShadowing : Env := [⟨"A", boxType (.prim "String")⟩, ⟨"A", param "C"⟩]

theorem substitution_laws_pair :
    (∃ failure,
      (boxType (app (.param "A") [.prim "Int32"])).substitute shadowing = .error failure) ∧
    (pairType (param "A") (.prim "Int32")).substitute shadowing =
      .ok (pairType (boxType (param "B")) (.prim "Int32")) ∧
    (pairType (boxType (param "B")) (.prim "Int32")).hasParams = true ∧
    Composes filling shadowing filledShadowing ∧
    ∃ s, (pairType (param "A") (param "B")).substitute shadowing = .ok s ∧
      s.substitute filling = .ok (pairType (boxType (.prim "String")) (.prim "String")) := by
  have hcomposes : Composes filling shadowing filledShadowing :=
    .cons ⟨rfl, rfl⟩ (.cons ⟨rfl, rfl⟩ .nil)
  refine ⟨?_, rfl, ?_, hcomposes, ?_⟩
  · apply (substitution_laws _ shadowing filling).1.1.mpr
    exact ⟨"A", [.prim "Int32"], .tail _ (.head _), List.cons_ne_nil _ _, rfl⟩
  · apply
      ((substitution_laws (pairType (param "A") (.prim "Int32")) shadowing filling).2.1 _ rfl).mpr
    exact ⟨"A", .head _, .inr ⟨boxType (param "B"), rfl, rfl⟩⟩
  · exact ((substitution_laws _ shadowing filling).2.2 _ hcomposes _).mpr rfl

end SchemaCompiler.TypeExpr
