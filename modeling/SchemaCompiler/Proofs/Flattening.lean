import SchemaCompiler.Proofs.AliasReferences
import SchemaCompiler.Proofs.SubstitutionLaws

/-!
# Projections are flattened declarations

Aliases and new types lead to a struct or union, and its fields are flattened:
a field that is spread gives way, in its place, to the flattened fields of the
struct or union that its type denotes, and every other field stays, with its
type substituted.  These relations know neither the declarations that are being
expanded nor a budget; what they relate to a declaration is unique, and it is
what a projection consists of.
-/

namespace SchemaCompiler

open Outcome Standard

/-- A projected field with the declaration it comes from. -/
def ConcreteField.placed (c : ConcreteField) : ScopedName × Field := (c.origin, c.field)

namespace Resolver

variable {r : Resolver} {env : Env} {d : ScopedDecl} {t : TypeExpr} {fields : List Field}
  {owner : ScopedName} {x : Expansion} {f : Field}

/-- A type, under bindings, becomes an application of a declaration, which binds
the parameters of that declaration. -/
def Denotes (r : Resolver) (env : Env) (t : TypeExpr) (d : ScopedDecl) (inner : Env) : Prop :=
  ∃ n args, t.substitute env = .ok (.app (.reference n) args) ∧ r.store.resolve n = .ok d ∧
    Env.bind n d.decl.params args = .ok inner

/-- The struct or union that a declaration under bindings stands for, and the
bindings that reach it. -/
inductive HasShape (r : Resolver) : ScopedDecl → Env → ScopedDecl → Env → Prop
  | itself {d : ScopedDecl} {env : Env} (h : d.decl.body.target? = none) : HasShape r d env d env
  | behind {d e s : ScopedDecl} {env inner last : Env} {target : TypeExpr}
      (htarget : d.decl.body.target? = some target) (hdenotes : r.Denotes env target e inner)
      (h : HasShape r e inner s last) : HasShape r d env s last

/-- The flattened form of the fields that a struct or union declares. -/
inductive Flattening (r : Resolver) :
    ScopedName → Env → List Field → List (ScopedName × Field) → Prop
  | nil {owner : ScopedName} {env : Env} : Flattening r owner env [] []
  | spread {owner : ScopedName} {env inner last : Env} {f : Field} {d s : ScopedDecl}
      {rest : List Field} {inlined more : List (ScopedName × Field)}
      (hspread : f.annotations.has spreadKey = true) (hdenotes : r.Denotes env f.typeExpr d inner)
      (hshape : r.HasShape d inner s last)
      (hinlined : Flattening r s.name last s.decl.fields inlined)
      (hrest : Flattening r owner env rest more) :
      Flattening r owner env (f :: rest) (inlined ++ more)
  | plain {owner : ScopedName} {env : Env} {f : Field} {t : TypeExpr} {rest : List Field}
      {more : List (ScopedName × Field)} (hplain : f.annotations.has spreadKey = false)
      (htype : f.typeExpr.substitute env = .ok t) (hrest : Flattening r owner env rest more) :
      Flattening r owner env (f :: rest) ((owner, { f with typeExpr := t }) :: more)

/-- The flattened fields of what a declaration under bindings stands for. -/
def Flattens (r : Resolver) (d : ScopedDecl) (env : Env) (placed : List (ScopedName × Field)) :
    Prop :=
  ∃ s last, r.HasShape d env s last ∧ r.Flattening s.name last s.decl.fields placed

/-! ## A declaration has one flattened form -/

theorem Denotes.unique {e : ScopedDecl} {inner other : Env} (h : r.Denotes env t d inner)
    (h' : r.Denotes env t e other) : d = e ∧ inner = other := by
  obtain ⟨n, args, ht, hd, hinner⟩ := h
  obtain ⟨m, args', ht', he, hother⟩ := h'
  rw [ht] at ht'
  cases ht'
  rw [hd] at he
  cases he
  rw [hinner] at hother
  exact ⟨rfl, Except.ok.inj hother⟩

theorem HasShape.unique {s s' : ScopedDecl} {last last' : Env} (h : r.HasShape d env s last)
    (h' : r.HasShape d env s' last') : s = s' ∧ last = last' := by
  induction h with
  | itself hnone =>
    cases h' with
    | itself => exact ⟨rfl, rfl⟩
    | behind htarget => rw [hnone] at htarget; cases htarget
  | behind htarget hdenotes _ ih =>
    cases h' with
    | itself hnone => rw [htarget] at hnone; cases hnone
    | behind htarget' hdenotes' hrest =>
      rw [htarget] at htarget'
      cases htarget'
      obtain ⟨rfl, rfl⟩ := hdenotes.unique hdenotes'
      exact ih hrest

theorem Flattening.unique {placed placed' : List (ScopedName × Field)}
    (h : r.Flattening owner env fields placed) (h' : r.Flattening owner env fields placed') :
    placed = placed' := by
  induction h generalizing placed' with
  | nil =>
    cases h'
    rfl
  | spread hspread hdenotes hshape _ _ ihInlined ihRest =>
    cases h' with
    | plain hplain => rw [hspread] at hplain; cases hplain
    | spread _ hdenotes' hshape' hinlined' hrest' =>
      obtain ⟨rfl, rfl⟩ := hdenotes.unique hdenotes'
      obtain ⟨rfl, rfl⟩ := hshape.unique hshape'
      rw [ihInlined hinlined', ihRest hrest']
  | plain hplain htype _ ihRest =>
    cases h' with
    | spread hspread => rw [hplain] at hspread; cases hspread
    | plain _ htype' hrest' =>
      rw [htype] at htype'
      cases htype'
      rw [ihRest hrest']

theorem Flattens.unique {placed placed' : List (ScopedName × Field)}
    (h : r.Flattens d env placed) (h' : r.Flattens d env placed') : placed = placed' := by
  obtain ⟨s, last, hshape, hfields⟩ := h
  obtain ⟨s', last', hshape', hfields'⟩ := h'
  obtain ⟨rfl, rfl⟩ := hshape.unique hshape'
  exact hfields.unique hfields'

/-! ## Expansions are flattened -/

/-- What an expansion of a declaration under bindings is: the shape, its
flattened fields, and no name twice. -/
structure IsFlat (r : Resolver) (d : ScopedDecl) (env : Env) (x : Expansion) : Prop where
  shaped : ∃ last, r.HasShape d env x.shape last ∧
    r.Flattening x.shape.name last x.shape.decl.fields (x.fields.map ConcreteField.placed)
  names : (x.fields.map (·.name)).Nodup

section Entered

variable {enter : Enter} {trail : Trail} {owner : ScopedName}
  (henter : ∀ trail d env x, enter trail d env = .ok x → r.IsFlat d env x)
include henter

/-- A type is expanded by way of the declaration that it denotes. -/
theorem exists_denotes_of_expandType_ok {s : TypeExpr} (ht : s.substitute env = .ok t)
    (h : r.expandType enter trail t = .ok x) :
    ∃ e inner, r.Denotes env s e inner ∧ r.IsFlat e inner x := by
  obtain ⟨n, args, e, inner, rfl, he, hinner, hx⟩ := exists_of_expandType_ok h
  exact ⟨e, inner, ⟨n, args, ht, he, hinner⟩, henter trail e inner x hx⟩

theorem flattening_of_expandField_ok {part : List ConcreteField} {rest : List Field}
    {more : List (ScopedName × Field)} (h : r.expandField enter trail owner env f = .ok part)
    (hrest : r.Flattening owner env rest more) :
    r.Flattening owner env (f :: rest) (part.map ConcreteField.placed ++ more) := by
  obtain ⟨t, ht, _, ⟨hspread, x, hx, rfl⟩ | ⟨hplain, c, hc, rfl⟩⟩ := exists_of_expandField_ok h
  · obtain ⟨e, inner, hdenotes, hflat⟩ := exists_denotes_of_expandType_ok henter ht hx
    obtain ⟨last, hshape, hfields⟩ := hflat.shaped
    exact .spread hspread hdenotes hshape hfields hrest
  · obtain ⟨hfield, horigin, _⟩ := exists_of_concreteField_ok hc
    have hplaced : c.placed = (owner, { f with typeExpr := t }) := by
      rw [ConcreteField.placed, horigin, hfield]
    rw [List.map_singleton, hplaced]
    exact .plain hplain ht hrest

theorem flattening_of_expandFields_ok {out : List ConcreteField}
    (h : r.expandFields enter trail owner env fields = .ok out) :
    r.Flattening owner env fields (out.map ConcreteField.placed) := by
  obtain ⟨parts, hparts, rfl⟩ := exists_of_expandFields_ok h
  clear h
  induction hparts with
  | nil => exact .nil
  | cons hpart _ ih =>
    rw [List.flatten_cons, List.map_append]
    exact flattening_of_expandField_ok henter hpart ih

end Entered

/-- Every expansion is flat, by induction on the budget. -/
theorem isFlat_of_expand_ok {budget : Nat} {trail : Trail}
    (h : r.expand budget trail d env = .ok x) : r.IsFlat d env x := by
  induction budget generalizing trail d env x with
  | zero =>
    obtain ⟨_, hbudget, _⟩ := exists_of_expand_ok h
    cases hbudget
  | succ budget ih =>
    have henter : ∀ trail d env x, r.expand budget trail d env = .ok x → r.IsFlat d env x :=
      fun trail d env x => ih
    obtain ⟨_, hbudget, hcases⟩ := exists_of_expand_ok h
    obtain rfl := Nat.succ.inj hbudget
    rcases hcases with ⟨hnone, out, hout, rfl⟩ | ⟨target, htarget, hx⟩
    · have hfields := flattening_of_expandFields_ok henter (expandFields_of_shapeFields_ok hout)
      exact ⟨⟨env, .itself hnone, hfields⟩, names_of_shapeFields_ok hout⟩
    · obtain ⟨t, ht, hx⟩ := exists_of_expandTarget_ok hx
      obtain ⟨e, inner, hdenotes, hflat⟩ := exists_denotes_of_expandType_ok henter ht hx
      obtain ⟨last, hshape, hfields⟩ := hflat.shaped
      exact ⟨⟨last, .behind htarget hdenotes hshape, hfields⟩, hflat.names⟩

/-! ## Single fields -/

/-- A head has the arguments it takes: as many as its declaration has
parameters, or one for a built-in wrapper and none for another primitive. -/
structure Fits (r : Resolver) (t : TypeExpr) : Prop where
  references : ∀ n args, .app (.reference n) args ∈ t.walk →
    ∃ e, r.store.resolve n = .ok e ∧ e.decl.params.length = args.length
  primitives : ∀ name args, .app (.primitive name) args ∈ t.walk →
    args.length = if r.wrappers.isParametric name then 1 else 0

theorem fits_of_checkArity_ok (h : r.checkArity t = .ok ()) : r.Fits t where
  references n args hmem := by
    have hhead := checkHead_of_checkHeads_ok h hmem
    rw [checkHead] at hhead
    split at hhead
    · cases hhead
    · rename_i e he
      split_ifs at hhead with hlength
      exact ⟨e, he, hlength⟩
  primitives name args hmem := by
    have hhead := checkHead_of_checkHeads_ok h hmem
    by_contra hlength
    rw [checkHead, if_neg hlength] at hhead
    cases hhead

theorem concrete_of_concreteField_ok {c : ConcreteField} (h : r.concreteField owner f t = .ok c) :
    c.concrete = !t.hasParams := by
  obtain ⟨_, _, h⟩ := bind_eq_ok.mp h
  obtain ⟨_, _, h⟩ := bind_eq_ok.mp h
  obtain ⟨_, _, h⟩ := bind_eq_ok.mp h
  obtain ⟨_, _, rfl⟩ := bind_pure_eq_ok.mp h
  rfl

/-- The fields of a projection are the flattened fields of the struct or union
that its declaration stands for, and no others; no name occurs twice.  In the
type of a field every reference is found and every head has the arguments it
takes.  A field is concrete when no parameter occurs in its type, and its link
is one of its references. -/
theorem project_flattens {p : Projection} (h : r.project d env = .ok p) :
    (∀ placed, r.Flattens d env placed ↔ placed = p.fields.map ConcreteField.placed) ∧
    (∀ s last, r.HasShape d env s last → p.shape = s.name ∧ p.kind = s.decl.kind) ∧
    (p.fields.map (·.name)).Nodup ∧
    ∀ c ∈ p.fields, r.Fits c.typeExpr ∧
      (c.concrete = true ↔ c.typeExpr.paramNames = []) ∧
      ∀ n, c.link = some n → n ∈ c.references := by
  obtain ⟨x, hx, _, hkind, hshape, hfields⟩ := exists_of_project_ok h
  have hflat := isFlat_of_expand_ok hx
  obtain ⟨last, hlast, hflattening⟩ := hflat.shaped
  rw [← hfields] at hflattening
  refine ⟨fun placed => ⟨fun hplaced => ?_, ?_⟩, ?_, hfields ▸ hflat.names, ?_⟩
  · exact hplaced.unique ⟨x.shape, last, hlast, hflattening⟩
  · rintro rfl
    exact ⟨x.shape, last, hlast, hflattening⟩
  · intro s other hs
    obtain ⟨rfl, _⟩ := hlast.unique hs
    exact ⟨hshape, hkind⟩
  · intro c hc
    obtain ⟨e, _, f, t, _, _, _, harity, hconcrete⟩ :=
      declared_of_mem_project (P := fun _ _ => True) (fun _ _ _ _ _ _ => trivial) trivial h hc
    obtain rfl : c.typeExpr = t := by
      rw [ConcreteField.typeExpr, (exists_of_concreteField_ok hconcrete).1]
    refine ⟨fits_of_checkArity_ok harity, ?_, fun n hn => ?_⟩
    · rw [concrete_of_concreteField_ok hconcrete, Bool.not_eq_true', ← Bool.not_eq_true,
        TypeExpr.hasParams_iff, not_exists, List.eq_nil_iff_forall_not_mem]
    · exact (mem_references_of_concreteField hconcrete).mpr (.inl hn)

/-! ## A new type for a struct with a spread field -/

def stamp : ScopedDecl :=
  ⟨"app", (structDecl "Stamp" ["T"]
    [field "at" (.param "T"), field "note" (.prim "Nullable" [.param "T"])]).2⟩

def stampField : Field :=
  { field "stamp" (.ref stamp.name [.param "K"]) with
    annotations := [⟨spreadKey, .absent⟩] }

def purchase : ScopedDecl :=
  ⟨"app", (structDecl "Purchase" ["K"] [field "id" (.param "K"), stampField,
    field "item" (.ref ⟨"common.db", "DbKey"⟩ [.ref stockItem.name])]).2⟩

def sold : ScopedDecl :=
  ⟨"app", (newtypeDecl "Sold" [] (.ref purchase.name [text])).2⟩

def shop : Resolver :=
  ⟨⟨[⟨"app", [], [stockItem, purchase, sold, stamp].map fun d => (d.decl.name, d.decl), []⟩,
    ⟨"common.db", [], [newtypeDecl "DbKey" ["T"] text], []⟩]⟩, .standard⟩

/-- The fields of the stamp stand between those of the purchase. -/
theorem project_flattens_sold :
    ∃ p, shop.project sold [] = .ok p ∧
      shop.Flattens sold [] [(purchase.name, Standard.field "id" Standard.text),
        (stamp.name, Standard.field "at" Standard.text),
        (stamp.name, Standard.field "note" (.prim "Nullable" [Standard.text])),
        (purchase.name,
          Standard.field "item" (.ref ⟨"common.db", "DbKey"⟩ [.ref stockItem.name]))] ∧
      ∃ c ∈ p.fields, c.link = some stockItem.name ∧ stockItem.name ∈ c.references := by
  obtain ⟨p, hp⟩ : ∃ p, shop.project sold [] = .ok p := ⟨_, rfl⟩
  obtain ⟨hflattens, _, _, hfields⟩ := project_flattens hp
  cases hp
  refine ⟨_, rfl, (hflattens _).mpr rfl, _, .tail _ (.tail _ (.tail _ (.head _))), rfl, ?_⟩
  exact (hfields _ (.tail _ (.tail _ (.tail _ (.head _))))).2.2 _ rfl

end Resolver

end SchemaCompiler
