import Mathlib.Data.Fintype.EquivFin
import SchemaCompiler.Output.GoModels
import SchemaCompiler.Proofs.GraphClosure
import SchemaCompiler.Sdl.Build

/-!
# Layers without end

A target maps the type of a field by taking its layers off: wrappers, and the
aliases and new types between them.  The mapping of a type comes back exactly
when its layers come to an end.  They do as long as no alias or new type
mentions itself, be it through others; a type that leads back to itself has no
last layer.
-/

namespace SchemaCompiler

open TypeExpr Relation

variable {t : TypeExpr} {g : Graph} {n : ScopedName}

namespace Graph

variable {g : Graph} {follows : WrapperKind → Bool} {t next : TypeExpr} {w : Wrapped}
  {kind : WrapperKind}

/-- What is left of a type when its outermost layer is taken off, by a mapping
that looks into wrappers of some kinds. -/
def nextLayer? (g : Graph) (follows : WrapperKind → Bool) (t : TypeExpr) : Option TypeExpr :=
  match g.resolver.classify t with
  | .error _ => none
  | .ok w =>
    if w.kind = .plain then
      match (g.shape [] t).2, g.resolver.expandOnce t with
      | .ok none, .ok next => next
      | _, _ => none
    else if follows w.kind then some w.inner else none

/-- One layer taken off a type leads to another type. -/
def Leads (g : Graph) (follows : WrapperKind → Bool) (t next : TypeExpr) : Prop :=
  g.nextLayer? follows t = some next

/-- The layers of a type come to an end. -/
def Ends (g : Graph) (follows : WrapperKind → Bool) (t : TypeExpr) : Prop :=
  Acc (fun next t => g.Leads follows t next) t

/-- A type that leads back to itself has no last layer. -/
theorem Ends.not_transGen (h : g.Ends follows t) :
    ¬ TransGen (g.Leads follows) t t := by
  induction h with
  | intro t _ ih =>
    intro hloop
    obtain ⟨next, hnext, hback⟩ := TransGen.head'_iff.mp hloop
    exact ih next hnext (TransGen.tail' hback hnext)

/-! ## Shapes and layers -/

theorem shapeOf_ne_none (g : Graph) (shapes : Shapes) (n : ScopedName) (t : TypeExpr) :
    (g.shapeOf shapes n t).2 ≠ .ok none := by
  intro h
  unfold shapeOf at h
  dsimp only at h
  split at h
  · cases h
  · split at h
    · cases h
    · split at h
      · cases h
      · split at h
        · cases h
        · cases h

/-- Whether a type denotes no shape does not depend on the shapes that are kept. -/
theorem shapeWithin_eq_none_iff (shapes others : Shapes) (budget : Nat) (t : TypeExpr) :
    (g.shapeWithin shapes budget t).2 = .ok none ↔
      (g.shapeWithin others budget t).2 = .ok none := by
  induction budget generalizing t with
  | zero => rfl
  | succ budget ih =>
    rw [shapeWithin, shapeWithin]
    split
    · rfl
    · split
      · rfl
      · split
        · rfl
        · split
          · rfl
          · exact iff_of_false (shapeOf_ne_none g _ _ _) (shapeOf_ne_none g _ _ _)
          · exact ih _

/-- A layer is taken off a wrapper that is looked into, or off an alias or new
type that denotes no shape. -/
theorem leads_iff :
    g.Leads follows t next ↔ ∃ w, g.resolver.classify t = .ok w ∧
      (w.kind ≠ .plain ∧ follows w.kind = true ∧ w.inner = next ∨
        w.kind = .plain ∧ (g.shape [] t).2 = .ok none ∧
          g.resolver.expandOnce t = .ok (some next)) := by
  unfold Leads nextLayer?
  cases g.resolver.classify t with
  | error failure => simp
  | ok w =>
    by_cases hkind : w.kind = .plain
    · simp only [hkind, if_true]
      split
      · simp_all
      · simp_all
    · simp [hkind]

theorem leads_of_wrapper (hw : g.resolver.classify t = .ok w) (hkind : w.kind = kind)
    (hwrapper : kind ≠ .plain) (hfollows : follows kind = true) : g.Leads follows t w.inner := by
  subst hkind
  exact leads_iff.mpr ⟨w, hw, .inl ⟨hwrapper, hfollows, rfl⟩⟩

/-- An alias or new type that denotes no shape is expanded. -/
theorem exists_expandOnce_of_shape (hname : t.reference? = some n)
    (hw : g.resolver.classify t = .ok w) (hkind : w.kind = .plain)
    (hshape : (g.shape [] t).2 = .ok none) : ∃ next, g.resolver.expandOnce t = .ok (some next) := by
  rw [shape, maxExpansion, shapeWithin] at hshape
  simp only [hname, hw, hkind, ne_eq, not_true, if_false] at hshape
  split at hshape
  · cases hshape
  · exact absurd hshape (shapeOf_ne_none g _ _ _)
  · rename_i next hnext
    exact ⟨next, hnext⟩

end Graph

/-- A worklist finds no shape exactly where there is none. -/
theorem Worklist.exists_use_iff (w : Worklist) (n : TypeNaming) :
    (∃ w', w.use n g t = .ok (none, w')) ↔ (g.shape [] t).2 = .ok none := by
  have hshapes : (g.shape [] t).2 = .ok none ↔ (g.shape w.shapes t).2 = .ok none :=
    Graph.shapeWithin_eq_none_iff [] w.shapes Graph.maxExpansion t
  rw [hshapes, use]
  generalize g.shape w.shapes t = found
  obtain ⟨shapes, result⟩ := found
  cases result with
  | error failure => simp
  | ok p =>
    cases p with
    | none => simp
    | some p =>
      dsimp only
      split
      · simp
      · split
        · simp
        · simp

/-- A declaration at the head is expanded unless it denotes a shape or fails to. -/
theorem Worklist.use_cases (n : TypeNaming) (w : Worklist) (follows : WrapperKind → Bool)
    {m : ScopedName} (hname : t.reference? = some m) {layer : Wrapped}
    (hlayer : g.resolver.classify t = .ok layer) (hkind : layer.kind = .plain) :
    (∃ w' next, w.use n g t = .ok (none, w') ∧ g.resolver.expandOnce t = .ok (some next) ∧
      g.Leads follows t next) ∨ ∀ w', w.use n g t ≠ .ok (none, w') := by
  by_cases hshape : (g.shape [] t).2 = .ok none
  · obtain ⟨w', huse⟩ := (w.exists_use_iff n).mpr hshape
    obtain ⟨next, hnext⟩ := Graph.exists_expandOnce_of_shape hname hlayer hkind hshape
    exact .inl ⟨w', next, huse, hnext,
      Graph.leads_iff.mpr ⟨layer, hlayer, .inr ⟨hkind, hshape, hnext⟩⟩⟩
  · exact .inr fun w' huse => hshape ((w.exists_use_iff n).mp ⟨w', huse⟩)

namespace Sdl

open Graph

/-- Query schemas look into optional values and lists. -/
def follows : WrapperKind → Bool
  | .optional | .list => true
  | _ => false

variable {g : Graph} {b : Builder} {t : TypeExpr} {required : Bool}

theorem Builder.ends_of_fieldType {result : Outcome (TypeRef × Builder)}
    (h : b.fieldType g t required = some result) : g.Ends follows t := by
  refine fieldType.partial_correctness g (fun _ t _ _ => g.Ends follows t) ?_ b t required result h
  intro rest ih b t required result h
  refine Acc.intro t fun next hnext => ?_
  obtain ⟨w, hw, ⟨hwrapper, hfollows, rfl⟩ | ⟨hkind, hshape, hnext⟩⟩ := leads_iff.mp hnext
  · cases hkind : w.kind with
    | optional =>
      simp only [hw, hkind] at h
      exact ih _ _ _ _ h
    | list =>
      simp only [hw, hkind] at h
      obtain ⟨item, hitem, _⟩ := Option.bind_eq_some_iff.mp h
      exact ih _ _ _ _ hitem
    | map | reference | plain => simp [hkind, follows] at hwrapper hfollows
  · obtain ⟨work, huse⟩ := (b.work.exists_use_iff naming).mpr hshape
    obtain ⟨n, _, _, _, hname, _⟩ := Resolver.exists_of_expandOnce_ok hnext
    simp only [hw, hkind, primitive?_of_reference? hname, hname, huse, hnext] at h
    exact ih _ _ _ _ h

theorem Builder.isSome_fieldType_of_ends (h : g.Ends follows t) (b : Builder) (required : Bool) :
    (b.fieldType g t required).isSome := by
  induction h generalizing b required with
  | intro t _ ih =>
    rw [fieldType]
    cases hw : g.resolver.classify t with
    | error failure => rfl
    | ok w =>
      dsimp only
      cases hkind : w.kind with
      | optional => exact ih _ (leads_of_wrapper hw hkind (by decide) rfl) b false
      | list =>
        obtain ⟨item, hitem⟩ := Option.isSome_iff_exists.mp
          (ih _ (leads_of_wrapper hw hkind (by decide) rfl) b true)
        simp [hitem]
      | map | reference => rfl
      | plain =>
        dsimp only
        split
        · rfl
        · rfl
        · rename_i m hprimitive hname
          rcases b.work.use_cases naming follows hname hw hkind with
            ⟨work, next, huse, hnext, hleads⟩ | huse
          · simp only [huse, hnext]
            exact ih _ hleads _ _
          · split
            · rfl
            · rfl
            · rename_i work hnone
              exact absurd hnone (huse work)

end Sdl

namespace GoModels

open Graph

/-- Models look into maps too. -/
def follows : WrapperKind → Bool
  | .optional | .list | .map => true
  | _ => false

variable {g : Graph} {w : Worklist} {t : TypeExpr}

theorem ends_of_goType {result : Outcome (GoSource.FieldType × Worklist)}
    (h : w.goType g t = some result) : g.Ends follows t := by
  refine Worklist.goType.partial_correctness g (fun _ t _ => g.Ends follows t) ?_ w t result h
  intro rest ih w t result h
  refine Acc.intro t fun next hnext => ?_
  obtain ⟨layer, hlayer, ⟨hwrapper, hfollows, rfl⟩ | ⟨hkind, hshape, hnext⟩⟩ :=
    leads_iff.mp hnext
  · cases hkind : layer.kind with
    | optional | list | map =>
      simp only [hlayer, hkind] at h
      obtain ⟨inner, hinner, _⟩ := Option.bind_eq_some_iff.mp h
      exact ih _ _ _ hinner
    | reference | plain => simp [hkind, follows] at hwrapper hfollows
  · obtain ⟨w', huse⟩ := (w.exists_use_iff naming).mpr hshape
    obtain ⟨n, _, _, _, hname, _⟩ := Resolver.exists_of_expandOnce_ok hnext
    simp only [hlayer, hkind, primitive?_of_reference? hname, hname, huse, hnext] at h
    exact ih _ _ _ h

theorem isSome_goType_of_ends (h : g.Ends follows t) (w : Worklist) :
    (w.goType g t).isSome := by
  induction h generalizing w with
  | intro t _ ih =>
    rw [Worklist.goType]
    cases hlayer : g.resolver.classify t with
    | error failure => rfl
    | ok layer =>
      dsimp only
      cases hkind : layer.kind with
      | optional | list | map =>
        obtain ⟨inner, hinner⟩ := Option.isSome_iff_exists.mp
          (ih _ (leads_of_wrapper hlayer hkind (by decide) rfl) w)
        simp [hinner]
      | reference => rfl
      | plain =>
        dsimp only
        split
        · split
          · rfl
          · rfl
        · rfl
        · rename_i m hprimitive hname
          rcases w.use_cases naming follows hname hlayer hkind with
            ⟨w', next, huse, hnext, hleads⟩ | huse
          · simp only [huse, hnext]
            exact ih _ hleads _
          · split
            · rfl
            · rfl
            · rename_i w' hnone
              exact absurd hnone (huse w')

end GoModels

/-! ## Stores in which nothing mentions itself -/

/-- An alias or new type names a declaration in what it stands for. -/
def Store.Mentions (s : Store) (n m : ScopedName) : Prop :=
  ∃ d target, s.resolve n = .ok d ∧ d.decl.body.target? = some target ∧
    ∃ x ∈ target.walk, x.reference? = some m

/-- Where no name mentions itself, following mentions comes to an end: there are
only so many names. -/
theorem Store.acc_mentions {s : Store} (h : ∀ n, ¬ TransGen s.Mentions n n)
    (n : ScopedName) : Acc (fun m n => s.Mentions n m) n := by
  have hunknown (m : ScopedName) (hm : m ∉ s.keys) : Acc (fun m n => s.Mentions n m) m := by
    refine Acc.intro m fun l hl => ?_
    obtain ⟨d, _, hd, _⟩ := hl
    exact absurd (mem_keys_of_resolve_ok hd) hm
  let below (m n : {n // n ∈ s.keys}) : Prop := TransGen s.Mentions n.1 m.1
  have : IsTrans _ below := ⟨fun _ _ _ hab hbc => hbc.trans hab⟩
  have : Std.Irrefl below := ⟨fun n => h n.1⟩
  have hknown (k : {n // n ∈ s.keys}) : Acc (fun m n => s.Mentions n m) k.1 := by
    induction k using (Finite.wellFounded_of_trans_of_irrefl below).induction with
    | _ k ih =>
      refine Acc.intro k.1 fun m hm => ?_
      by_cases hmember : m ∈ s.keys
      · exact ih ⟨m, hmember⟩ (.single hm)
      · exact hunknown m hmember
  by_cases hn : n ∈ s.keys
  · exact hknown ⟨n, hn⟩
  · exact hunknown n hn

namespace Graph

variable {g : Graph} {follows : WrapperKind → Bool} {args : List TypeExpr}

/-- The layers of a type and of all types inside it come to an end. -/
def EndsThroughout (g : Graph) (follows : WrapperKind → Bool) (t : TypeExpr) : Prop :=
  ∀ s ∈ t.walk, g.Ends follows s

theorem EndsThroughout.ends (h : g.EndsThroughout follows t) : g.Ends follows t :=
  h t t.self_mem_walk

theorem endsThroughout_missing : g.EndsThroughout follows .missing := by
  intro s hs
  obtain rfl : s = .missing := by simpa [walk] using hs
  refine Acc.intro _ fun next hnext => ?_
  obtain ⟨w, hw, _⟩ := leads_iff.mp hnext
  cases hw

/-- An application leads to one of its arguments or to its expansion. -/
theorem endsThroughout_app {head : TypeRef} (hargs : ∀ a ∈ args, g.EndsThroughout follows a)
    (hexpansion : ∀ next, g.resolver.expandOnce (.app head args) = .ok (some next) →
      g.Ends follows next) : g.EndsThroughout follows (.app head args) := by
  intro s hs
  rcases mem_walk_app.mp hs with rfl | ⟨a, ha, hs⟩
  · refine Acc.intro _ fun next hnext => ?_
    obtain ⟨w, hw, ⟨hwrapper, _, rfl⟩ | ⟨_, _, hnext⟩⟩ := leads_iff.mp hnext
    · rcases Resolver.inner_of_classify_ok hw with ⟨hplain, _⟩ | ⟨_, hinner⟩
      · exact absurd hplain hwrapper
      · have hmem : w.inner ∈ args := by
          rw [show args = [w.inner] from hinner]
          exact List.mem_singleton_self _
        exact (hargs _ hmem).ends
    · exact hexpansion next hnext
  · exact hargs a ha s hs

/-- What is substituted into a type ends when the values do and so does every
declaration that the type names, applied to what ends. -/
theorem endsThroughout_substitute {env : Env} {u : TypeExpr} (hu : t.substitute env = .ok u)
    (henv : ∀ b ∈ env, g.EndsThroughout follows b.value)
    (hnames : ∀ x ∈ t.walk, ∀ m, x.reference? = some m → ∀ args,
      (∀ a ∈ args, g.EndsThroughout follows a) →
        g.EndsThroughout follows (.app (.reference m) args)) : g.EndsThroughout follows u := by
  induction t using inductionOn generalizing u with
  | hmissing =>
    cases hu
    exact endsThroughout_missing
  | happ head args ih =>
    obtain ⟨bs, hbs, hhead⟩ := substitute_app_eq_ok.mp hu
    have hall : ∀ b ∈ bs, g.EndsThroughout follows b := by
      intro b hb
      obtain ⟨a, ha, hab⟩ := Outcome.forall₂_exists_left hbs hb
      exact ih a ha hab fun x hx => hnames x (walk_arg_subset ha hx)
    rcases substituteHead_eq_ok.mp hhead with ⟨name, _, _, hfind⟩ | ⟨_, rfl⟩
    · obtain ⟨b, hb, rfl⟩ := Option.map_eq_some_iff.mp hfind
      exact henv b (List.mem_of_find?_eq_some hb)
    · cases head with
      | reference m => exact hnames _ (self_mem_walk _) m rfl bs hall
      | primitive name
      | param name => exact endsThroughout_app hall fun next hnext => by cases hnext

theorem endsThroughout_reference (h : Acc (fun m n => g.store.Mentions n m) n)
    (hargs : ∀ a ∈ args, g.EndsThroughout follows a) :
    g.EndsThroughout follows (.app (.reference n) args) := by
  induction h generalizing args with
  | intro n _ ih =>
    refine endsThroughout_app hargs fun next hnext => ?_
    obtain ⟨_, d, target, env, hn, hd, htarget, henv, hu⟩ :=
      Resolver.exists_of_expandOnce_ok hnext
    obtain rfl := Option.some.inj hn
    refine (endsThroughout_substitute hu (fun b hb => ?_) fun x hx m hm args hargs => ?_).ends
    · exact hargs _ (Env.value_mem_of_bind_ok henv hb)
    · exact ih m ⟨d, target, hd, htarget, x, hx, hm⟩ hargs

/-- Where no alias or new type mentions itself, all layers come to an end. -/
theorem ends_of_not_mentions (h : ∀ n, ¬ TransGen g.store.Mentions n n) (t : TypeExpr) :
    g.Ends follows t := by
  suffices hall : g.EndsThroughout follows t from hall.ends
  induction t using inductionOn with
  | hmissing => exact endsThroughout_missing
  | happ head args ih =>
    cases head with
    | reference n => exact endsThroughout_reference (Store.acc_mentions h n) ih
    | primitive name | param name => exact endsThroughout_app ih fun next hnext => by cases hnext

/-- The type of a field is mapped to a result exactly when its layers come to an
end.  A type that leads back to itself has none; where no alias or new type
mentions itself, every type has one. -/
theorem field_types_return_iff (g : Graph) :
    (∀ (b : Sdl.Builder) (t : TypeExpr) (required : Bool),
      (b.fieldType g t required).isSome ↔ g.Ends Sdl.follows t) ∧
    (∀ (w : Worklist) (t : TypeExpr),
      (w.goType g t).isSome ↔ g.Ends GoModels.follows t) ∧
    ∀ follows : WrapperKind → Bool,
      (∀ t, TransGen (g.Leads follows) t t → ¬ g.Ends follows t) ∧
      ((∀ n, ¬ TransGen g.store.Mentions n n) → ∀ t, g.Ends follows t) := by
  refine ⟨fun b t required => ⟨fun h => ?_, fun h => ?_⟩, fun w t => ⟨fun h => ?_, fun h => ?_⟩,
    fun follows => ⟨fun t hloop hends => hends.not_transGen hloop, ends_of_not_mentions⟩⟩
  · obtain ⟨result, hresult⟩ := Option.isSome_iff_exists.mp h
    exact Sdl.Builder.ends_of_fieldType hresult
  · exact Sdl.Builder.isSome_fieldType_of_ends h b required
  · obtain ⟨result, hresult⟩ := Option.isSome_iff_exists.mp h
    exact GoModels.ends_of_goType hresult
  · exact GoModels.isSome_goType_of_ends h w

def tree : TypeExpr := .ref ⟨"app", "Tree"⟩

/-- Trees that are lists of trees, and a sale that has one. -/
def treeStore : Store :=
  ⟨[⟨"app", [], [Standard.structDecl "Sale" [] [Standard.field "tree" tree],
    Standard.newtypeDecl "Tree" [] (.prim "Vector" [tree])], []⟩]⟩

theorem tree_leads_to_itself (hstore : g.store = treeStore) (hsettings : g.settings = .standard)
    (hlist : follows .list = true) : TransGen (g.Leads follows) tree tree := by
  have hvector : g.nextLayer? follows tree = some (.prim "Vector" [tree]) := by
    obtain ⟨settings, store, decls, instances, metadata, tracker⟩ := g
    subst hstore hsettings
    rfl
  have hlayer : g.resolver.classify (.prim "Vector" [tree]) = .ok ⟨.list, tree, .blank⟩ := by
    rw [resolver, hstore, hsettings]
    rfl
  exact .tail (.single hvector) (leads_of_wrapper hlayer rfl (by decide) hlist)

/-- The graph of the sale is built, and neither mapping of its tree returns. -/
theorem field_types_return_iff_trees :
    ∃ g p f, build .standard treeStore = .ok g ∧ p ∈ g.concrete ∧ f ∈ p.fields ∧
      (∀ b required, Sdl.Builder.fieldType g b f.typeExpr required = none) ∧
      ∀ w, Worklist.goType g w f.typeExpr = none := by
  obtain ⟨g, p, f, hbuild, hstore, hsettings, hp, hf, htype⟩ :
      ∃ g p f, build .standard treeStore = .ok g ∧ g.store = treeStore ∧
        g.settings = .standard ∧ p ∈ g.all.filter (!·.generic) ∧ f ∈ p.fields ∧
        f.typeExpr = tree :=
    ⟨_, _, _, build_of_sorted rfl rfl rfl rfl rfl rfl (by decide), rfl, rfl,
      .head _, .head _, rfl⟩
  obtain ⟨hsdl, hgo, hloops⟩ := field_types_return_iff g
  refine ⟨g, p, f, hbuild, List.mem_mergeSort.mpr hp, hf, fun b required => ?_, fun w => ?_⟩
  · have hends := (hloops Sdl.follows).1 tree (tree_leads_to_itself hstore hsettings rfl)
    rw [htype, ← Option.not_isSome_iff_eq_none, hsdl]
    exact hends
  · have hends := (hloops GoModels.follows).1 tree (tree_leads_to_itself hstore hsettings rfl)
    rw [htype, ← Option.not_isSome_iff_eq_none, hgo]
    exact hends

end Graph

end SchemaCompiler
