import SchemaCompiler.Projection
import SchemaCompiler.Proofs.Substitution

/-!
# Successful projections

What it means that an expansion succeeds, one statement for each operation it
is made of, and where the fields of a projection come from: every field is the
substituted form of a declared field of a declaration that the expansion
visits.
-/

namespace SchemaCompiler

open Outcome List Env

variable {t : TypeExpr} {n : ScopedName} {f : Field} {args : List TypeExpr} {env : Env}

namespace Body

variable {b : Body}

def typeExprs (b : Body) : List TypeExpr :=
  b.target?.toList ++ b.fields.map (·.typeExpr)

theorem typeExpr_mem_typeExprs (hf : f ∈ b.fields) : f.typeExpr ∈ b.typeExprs :=
  mem_append_right _ (mem_map_of_mem hf)

theorem target_mem_typeExprs (ht : b.target? = some t) : t ∈ b.typeExprs := by
  simp [typeExprs, ht]

end Body

theorem TypeExpr.eq_app_of_reference? (h : t.reference? = some n) :
    t = .app (.reference n) t.args := by
  cases t with
  | missing => simp [reference?] at h
  | app head args =>
    cases head with
    | reference m =>
      obtain rfl : m = n := by simpa [reference?] using h
      rfl
    | primitive name | param name => simp [reference?] at h

theorem TypeExpr.primitive?_of_reference? (h : t.reference? = some n) : t.primitive? = none := by
  rw [eq_app_of_reference? h]
  rfl

theorem Env.bind_eq_ok {params : List String} :
    bind n params args = .ok env ↔
      params.length = args.length ∧ env = params.zipWith Binding.mk args := by
  unfold bind
  split <;> simp_all [eq_comm]

theorem Env.value_mem_of_bind_ok {params : List String} (h : bind n params args = .ok env)
    {b : Binding} (hb : b ∈ env) : b.value ∈ args := by
  obtain ⟨_, rfl⟩ := bind_eq_ok.mp h
  rw [← map_uncurry_zip_eq_zipWith, mem_map] at hb
  obtain ⟨⟨param, a⟩, hmem, rfl⟩ := hb
  exact (of_mem_zip hmem).2

namespace Resolver

variable {r : Resolver} {enter : Enter} {trail : Trail} {owner : ScopedName} {env : Env}
  {out : List ConcreteField} {d : ScopedDecl} {p : Projection} {x : Expansion} {fields : List Field}
  {c : ConcreteField} {P : ScopedDecl → Env → Prop} {budget : Nat}

/-- The expansion of an application substitutes its arguments into what its
declaration stands for. -/
theorem exists_of_expandOnce_ok {next : TypeExpr} (h : r.expandOnce t = .ok (some next)) :
    ∃ n d target env, t.reference? = some n ∧ r.store.resolve n = .ok d ∧
      d.decl.body.target? = some target ∧ bind n d.decl.params t.args = .ok env ∧
      target.substitute env = .ok next := by
  unfold expandOnce at h
  split at h
  · cases h
  · rename_i n hn
    split at h
    · cases h
    · rename_i d hd
      split at h
      · cases h
      · rename_i target htarget
        split at h
        · cases h
        · rename_i env henv
          split at h
          · cases h
          · rename_i u hu
            cases h
            exact ⟨n, d, target, env, hn, hd, htarget, henv, hu⟩

/-! ## One statement for each operation -/

theorem exists_of_expandType_ok (h : r.expandType enter trail t = .ok x) :
    ∃ n args target env, t = .app (.reference n) args ∧
      r.store.resolve n = .ok target ∧
      bind n target.decl.params args = .ok env ∧
      enter trail target env = .ok x := by
  unfold expandType at h
  split at h
  · cases h
  · rename_i n hn
    split at h
    · cases h
    · obtain ⟨target, htarget, h⟩ := bind_eq_ok.mp h
      obtain ⟨env, henv, h⟩ := bind_eq_ok.mp h
      exact ⟨n, t.args, target, env, TypeExpr.eq_app_of_reference? hn, htarget, henv, h⟩

theorem exists_of_concreteField_ok (h : r.concreteField owner f t = .ok c) :
    c.field = { f with typeExpr := t } ∧ c.origin = owner ∧
      ∃ core, r.core t = .ok core ∧
        c.monomorphized = (!t.hasParams && r.isApplication core) := by
  obtain ⟨layer, _, h⟩ := bind_eq_ok.mp h
  obtain ⟨references, _, h⟩ := bind_eq_ok.mp h
  obtain ⟨core, hcore, h⟩ := bind_eq_ok.mp h
  obtain ⟨link, _, rfl⟩ := bind_pure_eq_ok.mp h
  exact ⟨rfl, rfl, core, hcore, rfl⟩

/-- A field marked as spread contributes the fields of its type, every other
field itself. -/
theorem exists_of_expandField_ok {part : List ConcreteField}
    (h : r.expandField enter trail owner env f = .ok part) :
    ∃ t, f.typeExpr.substitute env = .ok t ∧ r.checkArity t = .ok () ∧
      ((f.annotations.has spreadKey = true ∧
          ∃ x, r.expandType enter trail t = .ok x ∧ part = x.fields) ∨
        (f.annotations.has spreadKey = false ∧
          ∃ c, r.concreteField owner f t = .ok c ∧ part = [c])) := by
  obtain ⟨t, ht, h⟩ := bind_eq_ok.mp h
  obtain ⟨⟨⟩, harity, h⟩ := bind_eq_ok.mp h
  refine ⟨t, ht, harity, ?_⟩
  cases hspread : f.annotations.has spreadKey with
  | true =>
    simp only [hspread, if_true] at h
    obtain ⟨x, hx, h⟩ := bind_eq_ok.mp h
    exact .inl ⟨rfl, x, hx, (pure_eq_ok.mp h).symm⟩
  | false =>
    simp only [hspread, Bool.false_eq_true, if_false] at h
    obtain ⟨c, hc, h⟩ := bind_eq_ok.mp h
    exact .inr ⟨rfl, c, hc, (pure_eq_ok.mp h).symm⟩

theorem exists_of_expandFields_ok (h : r.expandFields enter trail owner env fields = .ok out) :
    ∃ parts, Forall₂
        (fun f part => r.expandField enter trail owner env f = .ok part) fields parts ∧
      out = parts.flatten := by
  induction fields generalizing out with
  | nil =>
    obtain rfl : [] = out := by simpa [expandFields] using h
    exact ⟨[], .nil, rfl⟩
  | cons f rest ih =>
    rw [expandFields] at h
    split at h
    · cases h
    · rename_i part hpart
      split at h
      · cases h
      · rename_i more hmore
        obtain ⟨parts, hparts, rfl⟩ := ih hmore
        obtain rfl : part ++ parts.flatten = out := by simpa using h
        exact ⟨part :: parts, .cons hpart hparts, rfl⟩

theorem expandFields_of_shapeFields_ok (h : r.shapeFields enter trail owner env fields = .ok out) :
    r.expandFields enter trail owner env fields = .ok out := by
  unfold shapeFields at h
  split at h
  · cases h
  · rename_i found hfound
    split at h
    · exact hfound.trans h
    · cases h

theorem names_of_clash?_none {earlier fields : List ConcreteField}
    (h : clash? earlier fields = none) :
    (fields.map (·.name)).Nodup ∧ ∀ f ∈ fields, ∀ e ∈ earlier, e.name ≠ f.name := by
  induction fields generalizing earlier with
  | nil => exact ⟨nodup_nil, forall_mem_nil _⟩
  | cons f rest ih =>
    rw [clash?] at h
    split at h
    · cases h
    · rename_i hfind
      obtain ⟨hnodup, hapart⟩ := ih h
      have hf : ∀ e ∈ earlier, e.name ≠ f.name := by
        simpa using find?_eq_none.mp hfind
      constructor
      · refine nodup_cons.mpr ⟨?_, hnodup⟩
        intro hmem
        obtain ⟨x, hx, hname⟩ := mem_map.mp hmem
        exact hapart x hx f (mem_append_right earlier mem_cons_self) hname.symm
      · refine forall_mem_cons.mpr ⟨hf, ?_⟩
        intro x hx e he
        exact hapart x hx e (mem_append_left [f] he)

theorem names_of_shapeFields_ok (h : r.shapeFields enter trail owner env fields = .ok out) :
    (out.map (·.name)).Nodup := by
  rw [shapeFields] at h
  split at h
  · cases h
  · rename_i found _
    split at h
    · rename_i hclash
      obtain rfl := Except.ok.inj h
      exact (names_of_clash?_none hclash).1
    · cases h

theorem exists_of_expandTarget_ok {target : TypeExpr}
    (h : r.expandTarget enter trail owner env target = .ok x) :
    ∃ t, target.substitute env = .ok t ∧ r.expandType enter trail t = .ok x := by
  unfold expandTarget at h
  split at h
  · cases h
  · rename_i t ht
    split at h
    · cases h
    · rename_i y hy
      exact ⟨t, ht, hy.trans h⟩

/-- A struct or union is its own shape; an alias or new type has that of its
definition. -/
theorem exists_of_expand_ok (h : r.expand budget trail d env = .ok x) :
    ∃ rest, budget = rest + 1 ∧
      ((d.decl.body.target? = none ∧ ∃ out,
          r.shapeFields (r.expand rest) (trail.enter d) d.name env d.decl.body.fields =
            .ok out ∧
          x = ⟨d, (trail.enter d).path, out⟩) ∨
        ∃ target, d.decl.body.target? = some target ∧
          r.expandTarget (r.expand rest) (trail.enter d) d.name env target = .ok x) := by
  unfold expand at h
  simp only at h
  split at h
  · cases h
  · cases budget with
    | zero => cases h
    | succ rest =>
      refine ⟨rest, rfl, ?_⟩
      cases hbody : d.decl.body with
      | struct params fields | union params fields =>
        simp only [hbody] at h
        obtain ⟨out, hout, h⟩ := bind_eq_ok.mp h
        exact .inl ⟨rfl, out, hout, (pure_eq_ok.mp h).symm⟩
      | synonym params target | newtype params target default =>
        simp only [hbody] at h
        exact .inr ⟨target, rfl, h⟩

theorem exists_of_project_ok (h : r.project d env = .ok p) :
    ∃ x, r.expand r.expansionBudget ⟨[], []⟩ d env = .ok x ∧ p.name = d.name ∧
      p.kind = x.shape.decl.kind ∧ p.shape = x.shape.name ∧ p.fields = x.fields := by
  obtain ⟨x, hx, rfl⟩ := bind_pure_eq_ok.mp h
  exact ⟨x, hx, rfl, rfl, rfl, rfl⟩

theorem exists_of_projectType_ok (h : r.projectType t = .ok p) :
    ∃ n args d env q, t = .app (.reference n) args ∧ r.store.resolve n = .ok d ∧
      bind n d.decl.params args = .ok env ∧ r.project d env = .ok q ∧
      p = { q with typeExpr := t, generic := t.hasParams } := by
  unfold projectType at h
  split at h
  · cases h
  · rename_i n hn
    obtain ⟨d, hd, h⟩ := bind_eq_ok.mp h
    obtain ⟨env, henv, h⟩ := bind_eq_ok.mp h
    obtain ⟨q, hq, h⟩ := bind_eq_ok.mp h
    exact ⟨n, t.args, d, env, q, TypeExpr.eq_app_of_reference? hn, hd, henv, hq,
      (pure_eq_ok.mp h).symm⟩

theorem typeExpr_of_projectType_ok (h : r.projectType t = .ok p) : p.typeExpr = t := by
  obtain ⟨_, _, _, _, _, _, _, _, _, rfl⟩ := exists_of_projectType_ok h
  rfl

theorem checkHead_of_checkHeads_ok {ts : List TypeExpr} (h : r.checkHeads ts = .ok ())
    (ht : t ∈ ts) : r.checkHead t = .ok () := by
  induction ts with
  | nil => cases ht
  | cons s rest ih =>
    rw [checkHeads] at h
    split at h
    · cases h
    · rename_i hs
      rcases mem_cons.mp ht with rfl | ht
      · exact hs
      · exact ih h ht

/-- Types of the right arity only refer to what can be found. -/
theorem exists_resolve_of_checkArity_ok {s : TypeExpr} (h : r.checkArity t = .ok ())
    (hs : s ∈ t.walk) (hn : s.reference? = some n) : ∃ d, r.store.resolve n = .ok d := by
  have hhead := checkHead_of_checkHeads_ok h hs
  rw [TypeExpr.eq_app_of_reference? hn, checkHead] at hhead
  split at hhead
  · cases hhead
  · rename_i d hd
    exact ⟨d, hd⟩

/-! ## Where fields come from -/

/-- A declaration under bindings leads to another one through a type in its
body. -/
def Enters (r : Resolver) (d : ScopedDecl) (env : Env) (e : ScopedDecl) (env' : Env) : Prop :=
  ∃ s ∈ d.decl.body.typeExprs, ∃ n args, s.substitute env = .ok (.app (.reference n) args) ∧
    r.store.resolve n = .ok e ∧ bind n e.decl.params args = .ok env'

/-- The field is declared, up to substitution, in a declaration under bindings
of which `P` holds. -/
def Declared (r : Resolver) (P : ScopedDecl → Env → Prop) (c : ConcreteField) : Prop :=
  ∃ e env f t, P e env ∧ f ∈ e.decl.body.fields ∧ f.typeExpr.substitute env = .ok t ∧
    r.checkArity t = .ok () ∧ r.concreteField e.name f t = .ok c

theorem declared_of_mem_expand (hP : ∀ d env e env', P d env → r.Enters d env e env' → P e env')
    (hd : P d env) (h : r.expand budget trail d env = .ok x) (hc : c ∈ x.fields) :
    r.Declared P c := by
  induction budget generalizing trail d env x with
  | zero =>
    obtain ⟨_, hbudget, _⟩ := exists_of_expand_ok h
    cases hbudget
  | succ budget ih =>
    -- A type of the body is entered with the bindings that its arguments give.
    have hentered : ∀ {trail : Trail} {s t : TypeExpr} {y : Expansion},
        s ∈ d.decl.body.typeExprs → s.substitute env = .ok t →
        r.expandType (r.expand budget) trail t = .ok y → c ∈ y.fields → r.Declared P c := by
      intro trail s t y hs ht hy hc
      obtain ⟨n, args, target, env', rfl, htarget, henv, hy⟩ := exists_of_expandType_ok hy
      exact ih (hP d env target env' hd ⟨s, hs, n, args, ht, htarget, henv⟩) hy hc
    obtain ⟨_, hbudget, hcases⟩ := exists_of_expand_ok h
    obtain rfl := Nat.succ.inj hbudget
    rcases hcases with ⟨_, out, hout, rfl⟩ | ⟨target, htarget, hx⟩
    · obtain ⟨parts, hparts, rfl⟩ :=
        exists_of_expandFields_ok (expandFields_of_shapeFields_ok hout)
      obtain ⟨part, hpart, hc⟩ := mem_flatten.mp hc
      obtain ⟨f, hf, hfield⟩ := forall₂_exists_left hparts hpart
      obtain ⟨t, ht, harity, hcases⟩ := exists_of_expandField_ok hfield
      rcases hcases with ⟨_, y, hy, rfl⟩ | ⟨_, c', hc', rfl⟩
      · exact hentered (Body.typeExpr_mem_typeExprs hf) ht hy hc
      · obtain rfl := mem_singleton.mp hc
        exact ⟨d, env, f, t, hd, hf, ht, harity, hc'⟩
    · obtain ⟨t, ht, hx⟩ := exists_of_expandTarget_ok hx
      exact hentered (Body.target_mem_typeExprs htarget) ht hx hc

theorem declared_of_mem_project (hP : ∀ d env e env', P d env → r.Enters d env e env' → P e env')
    (hd : P d env) (h : r.project d env = .ok p) (hc : c ∈ p.fields) : r.Declared P c := by
  obtain ⟨x, hx, _, _, _, hfields⟩ := exists_of_project_ok h
  exact declared_of_mem_expand hP hd hx (hfields ▸ hc)

end Resolver

end SchemaCompiler
