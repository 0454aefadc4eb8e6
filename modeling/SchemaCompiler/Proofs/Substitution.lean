import SchemaCompiler.Proofs.Outcome
import SchemaCompiler.Wrapper

/-!
# Substitution in type expressions

Which names occur inside a type expression, and what substitution does to it.
Substituting is simultaneous: the values of bindings are not searched for
further parameters.  The main statement is the composition law: bindings
followed by others act as one list of bindings, the first ones with the others
substituted into their values, then the others.  A layer of wrappers has one
argument, so taking wrappers off ends at a part of the expression.
-/

namespace SchemaCompiler.TypeExpr

open List

variable {head : TypeRef} {t value a s : TypeExpr} {env first second : Env} {name : String}
  {as : List TypeExpr} {args : List TypeExpr}

/-- Induction with the hypothesis for every argument of an application. -/
@[elab_as_elim]
theorem inductionOn {motive : TypeExpr → Prop} (t : TypeExpr)
    (hmissing : motive missing)
    (happ : ∀ head args, (∀ a ∈ args, motive a) → motive (app head args)) :
    motive t :=
  @TypeExpr.rec motive (fun args => ∀ a ∈ args, motive a) hmissing happ nofun
    (fun _ _ ha has => forall_mem_cons.mpr ⟨ha, has⟩) t

/-! ## Names inside an expression -/

def param? : TypeExpr → Option String
  | app (.param name) _ => some name
  | _ => none

def paramNames (t : TypeExpr) : List String := t.walk.filterMap param?

def primitiveNames (t : TypeExpr) : List String := t.walk.filterMap primitive?

theorem walkAll_eq_flatMap (as : List TypeExpr) :
    walkAll as = as.flatMap walk := by
  induction as with
  | nil => rfl
  | cons a as ih => rw [walkAll, ih, flatMap_cons]

theorem mem_walk_app :
    s ∈ (app head args).walk ↔ s = app head args ∨ ∃ a ∈ args, s ∈ a.walk := by
  simp [walk, walkAll_eq_flatMap]

theorem self_mem_walk (t : TypeExpr) : t ∈ t.walk := by
  cases t <;> simp [walk]

theorem walk_arg_subset (ha : a ∈ args) : a.walk ⊆ (app head args).walk := by
  intro s hs
  exact mem_walk_app.mpr (.inr ⟨a, ha, hs⟩)

theorem walk_subset (h : s ∈ t.walk) : s.walk ⊆ t.walk := by
  induction t using inductionOn with
  | hmissing =>
    obtain rfl : s = missing := by simpa [walk] using h
    exact Subset.refl _
  | happ head args ih =>
    rcases mem_walk_app.mp h with rfl | ⟨a, ha, hs⟩
    · exact Subset.refl _
    · exact Subset.trans (ih a ha hs) (walk_arg_subset ha)

theorem anyHasParams_eq_any (as : List TypeExpr) :
    anyHasParams as = as.any hasParams := by
  induction as with
  | nil => rfl
  | cons a as ih => rw [anyHasParams, ih, any_cons]

theorem head?_ne_param_of_hasParams (ht : t.hasParams = false) (hs : s ∈ t.walk) (name : String) :
    s.head? ≠ some (.param name) := by
  induction t using inductionOn with
  | hmissing =>
    obtain rfl : s = missing := by simpa [walk] using hs
    nofun
  | happ head args ih =>
    have hhead : head ≠ .param name := by
      rintro rfl
      simp [hasParams] at ht
    have hargs : ∀ a ∈ args, a.hasParams = false := by
      cases head with
      | param other => simp [hasParams] at ht
      | primitive other | reference other => simpa [hasParams, anyHasParams_eq_any] using ht
    rcases mem_walk_app.mp hs with rfl | ⟨a, ha, hs⟩
    · simpa [head?] using hhead
    · exact ih a ha (hargs a ha) hs

theorem paramNames_arg_subset (ha : a ∈ args) :
    a.paramNames ⊆ (app head args).paramNames :=
  filterMap_subset param? (walk_arg_subset ha)

theorem mem_paramNames_param (name : String) (args : List TypeExpr) :
    name ∈ (app (.param name) args).paramNames :=
  mem_filterMap.mpr ⟨_, self_mem_walk _, rfl⟩

theorem names_of_head?_eq (h : s.head? = t.head?) :
    s.primitive? = t.primitive? ∧ s.reference? = t.reference? := by
  cases s with
  | missing => cases t <;> simp_all [head?]
  | app head args =>
    cases t with
    | missing => simp [head?] at h
    | app other rest =>
      obtain rfl : head = other := by simpa [head?] using h
      cases head <;> exact ⟨rfl, rfl⟩

/-! ## Successful substitutions -/

theorem substituteAll_eq_ok {bs : List TypeExpr} :
    substituteAll env as = .ok bs ↔
      Forall₂ (fun a b => a.substitute env = .ok b) as bs := by
  induction as generalizing bs with
  | nil => cases bs <;> simp [substituteAll]
  | cons a as ih =>
    rw [substituteAll]
    cases ha : a.substitute env with
    | error failure => cases bs <;> simp [ha]
    | ok b =>
      cases has : substituteAll env as with
      | error failure =>
        cases bs with
        | nil => simp
        | cons c cs => simp [← ih, has]
      | ok rest =>
        cases bs with
        | nil => simp
        | cons c cs => simp [← ih, has, ha]

/-- A bound parameter stands alone and becomes its value; every other head is
kept. -/
theorem substituteHead_eq_ok :
    substituteHead env head args = .ok t ↔
      (∃ name, head = .param name ∧ args = [] ∧ env.find? name = some t) ∨
      ((∀ name, head = .param name → env.find? name = none) ∧
        t = app head args) := by
  cases head with
  | primitive name | reference name => simp [substituteHead, eq_comm]
  | param name =>
    cases hfind : env.find? name with
    | none => simp [substituteHead, hfind, eq_comm]
    | some value =>
      cases args <;> simp [substituteHead, hfind]

theorem substitute_app_eq_ok : (app head args).substitute env = .ok t ↔
      ∃ bs, Forall₂ (fun a b => a.substitute env = .ok b) args bs ∧
        substituteHead env head bs = .ok t := by
  rw [substitute]
  cases hargs : substituteAll env args with
  | error failure | ok bs => simp [← substituteAll_eq_ok, hargs]

/-- A declaration at the head stays, and its arguments are substituted. -/
theorem substitute_reference_eq_ok {name : ScopedName} :
    (app (.reference name) args).substitute env = .ok t ↔
      ∃ bs, Forall₂ (fun a b => a.substitute env = .ok b) args bs ∧
        t = app (.reference name) bs := by
  simp [substitute_app_eq_ok, substituteHead_eq_ok]

/-! ## Which bindings matter -/

theorem substituteAll_congr (h : ∀ a ∈ as, a.substitute first = a.substitute second) :
    substituteAll first as = substituteAll second as := by
  induction as with
  | nil => rfl
  | cons a as ih =>
    rw [substituteAll, substituteAll, h a mem_cons_self, ih fun b hb => h b (mem_cons_of_mem a hb)]

theorem substituteHead_congr (h : ∀ name, head = .param name → first.find? name = second.find? name)
    (args : List TypeExpr) : substituteHead first head args = substituteHead second head args := by
  cases head with
  | primitive name | reference name => rfl
  | param name => simp [substituteHead, h name rfl]

/-- Only the bindings of parameters that occur have an effect. -/
theorem substitute_congr (h : ∀ name ∈ t.paramNames, first.find? name = second.find? name) :
    t.substitute first = t.substitute second := by
  induction t using inductionOn with
  | hmissing => rfl
  | happ head args ih =>
    have hargs : substituteAll first args = substituteAll second args :=
      substituteAll_congr fun a ha => ih a ha fun name hname =>
        h name (paramNames_arg_subset ha hname)
    have hhead : ∀ name, head = .param name →
        first.find? name = second.find? name := by
      rintro name rfl
      exact h name (mem_paramNames_param name args)
    rw [substitute, substitute, hargs]
    cases substituteAll second args with
    | error failure => rfl
    | ok bs => exact substituteHead_congr hhead bs

/-! ## Composition -/

/-- `composed` binds what `first` binds, to its values under `later`. -/
def Composes (later first composed : Env) : Prop :=
  Forall₂ (fun b c => b.param = c.param ∧
    b.value.substitute later = .ok c.value) first composed

namespace Composes

variable {later first composed : Env}

theorem find?_none (h : Composes later first composed) (hfirst : first.find? name = none) :
    composed.find? name = none := by
  induction h with
  | nil => rfl
  | @cons b c bs cs hbc hrest ih =>
    by_cases hname : b.param = name
    · simp [Env.find?, hname] at hfirst
    · have hname' : ¬ c.param = name := hbc.1 ▸ hname
      simp only [Env.find?, find?_cons, hname, hname', decide_false] at hfirst ⊢
      exact ih hfirst

theorem find?_some (h : Composes later first composed) (hfirst : first.find? name = some value) :
    ∃ result, composed.find? name = some result ∧
      value.substitute later = .ok result := by
  induction h with
  | nil => simp [Env.find?] at hfirst
  | @cons b c bs cs hbc hrest ih =>
    by_cases hname : b.param = name
    · have hname' : c.param = name := hbc.1 ▸ hname
      obtain rfl : b.value = value := by simpa [Env.find?, hname] using hfirst
      exact ⟨c.value, by simp [Env.find?, hname'], hbc.2⟩
    · have hname' : ¬ c.param = name := hbc.1 ▸ hname
      simp only [Env.find?, find?_cons, hname, hname', decide_false] at hfirst ⊢
      exact ih hfirst

end Composes

theorem find?_append_of_none (second : Env) (h : first.find? name = none) :
    Env.find? (first ++ second) name = second.find? name := by
  simp only [Env.find?, Option.map_eq_none_iff] at h
  simp [Env.find?, h]

theorem find?_append_of_some (second : Env) (h : first.find? name = some value) :
    Env.find? (first ++ second) name = some value := by
  obtain ⟨b, hb, rfl⟩ := Option.map_eq_some_iff.mp h
  simp [Env.find?, hb]

/-- Substituting twice gives what the composed bindings, followed by the later
ones, give at once. -/
theorem substitute_of_composes {later composed : Env} (hcomposes : Composes later first composed)
    {u : TypeExpr} (hs : t.substitute first = .ok s)
    (hu : t.substitute (composed ++ later) = .ok u) : s.substitute later = .ok u := by
  induction t using inductionOn generalizing s u with
  | hmissing =>
    simp only [substitute, Except.ok.injEq] at hs hu
    rw [← hs, ← hu, substitute]
  | happ head args ih =>
    obtain ⟨bs, hbs, hsHead⟩ := substitute_app_eq_ok.mp hs
    obtain ⟨cs, hcs, huHead⟩ := substitute_app_eq_ok.mp hu
    have hargs : Forall₂ (fun b c => b.substitute later = .ok c) bs cs :=
      Outcome.forall₂_of_common hbs hcs fun a ha b c hb hc => ih a ha hb hc
    rcases substituteHead_eq_ok.mp hsHead with ⟨name, rfl, rfl, hfind⟩ | ⟨hfree, rfl⟩
    · obtain ⟨result, hresult, hvalue⟩ := hcomposes.find?_some hfind
      have hbound := find?_append_of_some later hresult
      cases hargs
      simp only [substituteHead, hbound, isEmpty_nil, if_true, Except.ok.injEq] at huHead
      rw [hvalue, huHead]
    · refine substitute_app_eq_ok.mpr ⟨cs, hargs, ?_⟩
      rw [← huHead]
      apply substituteHead_congr
      intro name hname
      exact (find?_append_of_none later (hcomposes.find?_none (hfree name hname))).symm

/-! ## What a substituted expression is made of -/

/-- Inside the result stand heads of the expression that are not bound, with as many arguments, and
parts of the values of its parameters. -/
theorem mem_walk_substitute {u x : TypeExpr} (hu : t.substitute env = .ok u) (hx : x ∈ u.walk) :
    (∃ y ∈ t.walk, y.head? = x.head? ∧ y.args.length = x.args.length ∧
      ∀ name, x.head? = some (.param name) → env.find? name = none) ∨
    ∃ b ∈ env, b.param ∈ t.paramNames ∧ env.find? b.param = some b.value ∧ x ∈ b.value.walk := by
  induction t using inductionOn generalizing u with
  | hmissing =>
    cases hu
    obtain rfl : x = missing := by simpa [walk] using hx
    exact .inl ⟨_, hx, rfl, rfl, fun _ h => by cases h⟩
  | happ head args ih =>
    obtain ⟨bs, hbs, hhead⟩ := substitute_app_eq_ok.mp hu
    rcases substituteHead_eq_ok.mp hhead with ⟨name, rfl, rfl, hfind⟩ | ⟨hfree, rfl⟩
    · obtain ⟨b, hb, rfl⟩ := Option.map_eq_some_iff.mp hfind
      obtain rfl : b.param = name := by simpa using find?_some hb
      exact .inr ⟨b, mem_of_find?_eq_some hb, mem_paramNames_param _ _, hfind, hx⟩
    · rcases mem_walk_app.mp hx with rfl | ⟨b, hb, hxb⟩
      · exact .inl ⟨app head args, self_mem_walk _, rfl, hbs.length_eq,
          fun name hname => hfree name (Option.some.inj hname)⟩
      · obtain ⟨a, ha, hab⟩ := Outcome.forall₂_exists_left hbs hb
        rcases ih a ha hab hxb with ⟨y, hy, hyx⟩ | ⟨b, hb, hparam, hvalue⟩
        · exact .inl ⟨y, walk_arg_subset ha hy, hyx⟩
        · exact .inr ⟨b, hb, paramNames_arg_subset ha hparam, hvalue⟩

end SchemaCompiler.TypeExpr

/-! ## Layers of wrappers -/

namespace SchemaCompiler.Resolver

open TypeExpr

variable {r : Resolver} {head : TypeRef} {args : List TypeExpr} {w : Wrapped}

theorem single_eq_ok {name : String} {inner : TypeExpr} :
    single name args = .ok inner ↔ args = [inner] := by
  unfold single
  split
  · simp
  · rename_i hsingle
    simpa using fun heq => hsingle inner heq

/-- The kind of a layer, which only its head tells. -/
def headKind (r : Resolver) : TypeRef → WrapperKind
  | .param _ => .plain
  | .primitive name => r.wrappers.primitiveKind name
  | .reference n =>
    if r.wrappers.optionalRefs.contains n then .optional
    else if r.wrappers.isReference n then .reference
    else .plain

/-- One layer of an application. -/
inductive Layer (r : Resolver) (head : TypeRef) (args : List TypeExpr) : Wrapped → Prop
  | plain (hkind : r.headKind head = .plain) : Layer r head args ⟨.plain, .app head args, .blank⟩
  | wrapper {inner : TypeExpr} (hplain : r.headKind head ≠ .plain)
      (hreference : r.headKind head ≠ .reference) (hargs : args = [inner]) :
      Layer r head args ⟨r.headKind head, inner, .blank⟩
  | reference {n : ScopedName} {inner : TypeExpr} {target : ScopedName}
      (hhead : head = .reference n) (hkind : r.headKind head = .reference)
      (hargs : args = [inner]) (htarget : r.referenceTarget n inner = .ok target) :
      Layer r head args ⟨.reference, inner, target⟩

theorem primitiveKind_ne_reference (w : Wrappers) (name : String) :
    w.primitiveKind name ≠ .reference := by
  unfold Wrappers.primitiveKind
  split_ifs <;> nofun

theorem layer_of_classify_ok (h : r.classify (.app head args) = .ok w) : Layer r head args w := by
  cases head with
  | param name =>
    cases h
    exact .plain rfl
  | primitive name =>
    simp only [classify] at h
    split at h
    · rename_i hkind
      cases h
      exact .plain hkind
    · rename_i hkind
      split at h
      · cases h
      · rename_i inner hinner
        cases h
        exact .wrapper hkind (primitiveKind_ne_reference r.wrappers name) (single_eq_ok.mp hinner)
  | reference n =>
    simp only [classify] at h
    split_ifs at h with hoptional hreference
    · have hkind : r.headKind (.reference n) = .optional := if_pos hoptional
      split at h
      · cases h
      · rename_i inner hinner
        cases h
        rw [← hkind]
        exact .wrapper (by simp [hkind]) (by simp [hkind]) (single_eq_ok.mp hinner)
    · have hkind : r.headKind (.reference n) = .reference := by
        rw [headKind, if_neg hoptional, if_pos hreference]
      split at h
      · cases h
      · rename_i inner hinner
        split at h
        · cases h
        · rename_i target htarget
          cases h
          exact .reference rfl hkind (single_eq_ok.mp hinner) htarget
    · cases h
      exact .plain (by rw [headKind, if_neg hoptional, if_neg hreference])

theorem Layer.kind_eq (h : Layer r head args w) : w.kind = r.headKind head := by
  cases h with
  | plain hkind => exact hkind.symm
  | wrapper => rfl
  | reference _ hkind => exact hkind.symm

theorem Layer.args_eq (h : Layer r head args w) (hkind : w.kind ≠ .plain) : args = [w.inner] := by
  cases h with
  | plain => exact absurd rfl hkind
  | wrapper _ _ hargs | reference _ _ hargs => exact hargs

/-- A plain layer is the expression itself; any other takes one argument. -/
theorem inner_of_classify_ok {t : TypeExpr} (h : r.classify t = .ok w) :
    (w.kind = .plain ∧ w.inner = t) ∨ (w.kind ≠ .plain ∧ t.args = [w.inner]) := by
  cases t with
  | missing => cases h
  | app head args =>
    cases layer_of_classify_ok h with
    | plain => exact .inl ⟨rfl, rfl⟩
    | wrapper hplain _ hargs => exact .inr ⟨hplain, hargs⟩
    | reference _ _ hargs => exact .inr ⟨nofun, hargs⟩

theorem core_mem_walk {t core : TypeExpr} (h : r.core t = .ok core) : core ∈ t.walk := by
  induction t using inductionOn generalizing core with
  | hmissing => cases h
  | happ head args ih =>
    rw [Resolver.core] at h
    split at h
    · cases h
    · rename_i w hw
      split at h
      · obtain rfl : app head args = core := by simpa using h
        exact self_mem_walk _
      · obtain rfl : app head args = core := by simpa using h
        exact self_mem_walk _
      · rename_i hplain
        obtain ⟨hkind, _⟩ | ⟨_, hargs⟩ := inner_of_classify_ok hw
        · exact absurd hkind hplain
        · obtain rfl : args = [w.inner] := hargs
          exact walk_arg_subset List.mem_cons_self (ih _ List.mem_cons_self h)

end SchemaCompiler.Resolver
