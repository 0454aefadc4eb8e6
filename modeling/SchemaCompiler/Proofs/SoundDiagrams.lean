import SchemaCompiler.Proofs.AliasColumns
import SchemaCompiler.Proofs.DiagramLines
import SchemaCompiler.Proofs.FailurePlaces

/-!
# Diagrams of sound stores

A store is sound if its references resolve, its chains of aliases and new types are short, and its
structs and unions project.  A diagram takes the fields of generic structs as they are written, so
a reference wrapper around a type parameter gives an arrow to the blank name.  That name is passed
over like a module that is not drawn, unless all modules are drawn.
-/

namespace SchemaCompiler

open Outcome TypeExpr Standard Declaration Graph

/-- An alias or new type is defined by an application of another declaration. -/
def Store.Leads (s : Store) (d e : ScopedDecl) : Prop :=
  ∃ n, d.decl.body.target?.bind reference? = some n ∧ s.resolve n = .ok e

/-- References resolve with the right number of arguments, chains of aliases and new types are
short, and structs and unions project with open parameters. -/
structure Resolver.Sound (r : Resolver) : Prop where
  resolves : ∀ d ∈ r.store.allDecls, ∀ t ∈ d.decl.body.typeExprs, ∀ s ∈ t.walk,
    ∀ n ∈ s.reference?, ∃ e ∈ (r.store.resolve n).toOption, e.decl.params.length = s.args.length
  chains : ∀ d ∈ r.store.allDecls, ∀ rest, List.IsChain r.store.Leads (d :: rest) →
    rest.length < 64
  projects : ∀ d ∈ r.store.allDecls, d.decl.body.target? = none → (r.project d []).isOk

namespace Resolver

variable {r : Resolver} {t : TypeExpr}

theorem Sound.exists_resolve (h : r.Sound) {d : ScopedDecl} (hd : d ∈ r.store.allDecls)
    (ht : t ∈ d.decl.body.typeExprs) {s : TypeExpr} (hs : s ∈ t.walk) {n : ScopedName}
    (hn : s.reference? = some n) : ∃ e, r.store.resolve n = .ok e := by
  obtain ⟨e, he, _⟩ := h.resolves d hd t ht s hs n hn
  cases hresolve : r.store.resolve n with
  | error failure =>
    rw [hresolve] at he
    cases he
  | ok found => exact ⟨found, rfl⟩

/-- The layer of the type is known, and the references below it are, too. -/
def Layered (r : Resolver) (t : TypeExpr) : Prop :=
  ∃ w, r.classify t = .ok w ∧
    (w.kind ≠ .plain → w.kind ≠ .reference → ∃ found, r.references w.inner = .ok found)

theorem layered_of_references_ok {found : List ScopedName} (h : r.references t = .ok found) :
    r.Layered t := by
  cases t with
  | missing => cases h
  | app head args =>
    obtain ⟨w, hw⟩ := exists_refers_of_references_ok h
    exact ⟨w, hw.classified, fun hplain hreference => ⟨found, hw.inner hplain hreference⟩⟩

theorem inner_mem_walk {w : Wrapped} (h : r.classify t = .ok w) : w.inner ∈ t.walk := by
  rcases inner_of_classify_ok h with ⟨_, hinner⟩ | ⟨_, hargs⟩
  · exact hinner ▸ self_mem_walk t
  · cases t with
    | missing => cases hargs
    | app head args =>
      refine walk_arg_subset ?_ (self_mem_walk _)
      rw [show args = [w.inner] from hargs]
      exact List.mem_singleton_self _

/-- The target of a reference wrapper stands in the type, unless a parameter is wrapped. -/
theorem target_cases_of_classify_ok {w : Wrapped} (h : r.classify t = .ok w)
    (hkind : w.kind = .reference) :
    w.target = .blank ∨ w.inner.reference? = some w.target := by
  cases t with
  | missing => cases h
  | app head args =>
    cases layer_of_classify_ok h with
    | plain => cases hkind
    | wrapper _ hreference => exact absurd hkind hreference
    | reference _ _ _ htarget =>
      exact (referenceTarget_cases htarget).symm.imp And.right id

theorem layered_of_expandType_ok {enter : Enter} {trail : Trail} {x : Expansion}
    (h : r.expandType enter trail t = .ok x) : r.Layered t := by
  unfold expandType at h
  split at h
  · cases h
  · rename_i n hn
    split at h
    · cases h
    · rename_i hplain
      simp only [Bool.or_eq_true, not_or] at hplain
      refine ⟨⟨.plain, t, .blank⟩, ?_, fun hkind => absurd rfl hkind⟩
      rw [eq_app_of_reference? hn, classify, if_neg hplain.2, if_neg hplain.1]

/-- A struct or union projects only if the types of its fields can be taken apart. -/
theorem layered_of_project_ok {d : ScopedDecl} {p : Projection} (h : r.project d [] = .ok p)
    (hbody : d.decl.body.target? = none) {f : Field} (hf : f ∈ d.decl.body.fields) :
    r.Layered f.typeExpr := by
  obtain ⟨x, hx, _⟩ := exists_of_project_ok h
  obtain ⟨rest, _, ⟨_, out, hout, _⟩ | ⟨target, htarget, _⟩⟩ := exists_of_expand_ok hx
  · obtain ⟨parts, hparts, _⟩ := exists_of_expandFields_ok (expandFields_of_shapeFields_ok hout)
    obtain ⟨part, _, hpart⟩ := forall₂_exists_right hparts hf
    obtain ⟨t, ht, _, hcases⟩ := exists_of_expandField_ok hpart
    rw [substitute_nil] at ht
    obtain rfl := Except.ok.inj ht
    rcases hcases with ⟨_, y, hy, _⟩ | ⟨_, c, hc, _⟩
    · exact layered_of_expandType_ok hy
    · obtain ⟨_, _, hc⟩ := bind_eq_ok.mp hc
      obtain ⟨found, hfound, _⟩ := bind_eq_ok.mp hc
      exact layered_of_references_ok hfound
  · rw [hbody] at htarget
    cases htarget

end Resolver

namespace Diagram

open Resolver

variable {g : Graph} {d : ScopedDecl} {t : TypeExpr}

theorem fieldsWithin_of_shape (name : ScopedName) (budget : Nat) (h : d.decl.body.target? = none) :
    ∃ isUnion, fieldsWithin g name (budget + 1) d = .ok (d.decl.body.fields, isUnion) := by
  rw [fieldsWithin, kind, fields]
  cases hbody : d.decl.body with
  | struct params fields | union params fields => exact ⟨_, rfl⟩
  | synonym params target | newtype params target default => simp [hbody, Body.target?] at h

theorem fieldsWithin_of_target (name : ScopedName) (budget : Nat)
    (h : d.decl.body.target? = some t) (hn : t.reference? = none) :
    fieldsWithin g name (budget + 1) d = .ok ([], false) := by
  cases hbody : d.decl.body <;> simp_all [fieldsWithin, kind, Body.kind, Body.target?]

theorem fieldsWithin_of_leads (name : ScopedName) (budget : Nat) {e : ScopedDecl}
    (h : g.store.Leads d e) :
    fieldsWithin g name (budget + 1) d = fieldsWithin g name budget e := by
  obtain ⟨n, hn, he⟩ := h
  cases hbody : d.decl.body <;> simp_all [fieldsWithin, kind, Body.kind, Body.target?]

/-- A chain that is shorter than the budget ends at the fields of a struct or union, or at none. -/
theorem exists_fieldsWithin (hsound : g.resolver.Sound) (name : ScopedName) {budget : Nat}
    (hd : d ∈ g.store.allDecls)
    (hchains : ∀ rest, List.IsChain g.store.Leads (d :: rest) → rest.length < budget) :
    ∃ x, fieldsWithin g name budget d = .ok x ∧ ∀ f ∈ x.1,
      ∃ e ∈ g.store.allDecls, e.decl.body.target? = none ∧ f ∈ e.decl.body.fields := by
  induction budget generalizing d with
  | zero => exact absurd (hchains [] (List.isChain_singleton d)) (Nat.not_lt_zero _)
  | succ budget ih =>
    cases htarget : d.decl.body.target? with
    | none =>
      obtain ⟨isUnion, hfields⟩ := fieldsWithin_of_shape name budget htarget
      exact ⟨_, hfields, fun f hf => ⟨d, hd, htarget, hf⟩⟩
    | some t =>
      cases hn : t.reference? with
      | none => exact ⟨_, fieldsWithin_of_target name budget htarget hn, by simp⟩
      | some n =>
        obtain ⟨e, he⟩ := hsound.exists_resolve hd (Body.target_mem_typeExprs htarget)
          (self_mem_walk t) hn
        have hleads : g.store.Leads d e := ⟨n, by rw [htarget]; exact hn, he⟩
        rw [fieldsWithin_of_leads name budget hleads]
        refine ih (Store.mem_allDecls_of_resolve_ok he) fun rest hrest => ?_
        exact Nat.lt_of_succ_lt_succ
          (hchains (e :: rest) (List.isChain_cons_cons.mpr ⟨hleads, hrest⟩))

/-- What is held below lists and optional values, by its layer. -/
def held (t : TypeExpr) (w : Wrapped) : Option ScopedName :=
  if w.kind = .reference then some w.target
  else if w.kind = .plain then t.reference?
  else none

/-- A layer of the kind is taken off, if there is one. -/
def Strips (g : Graph) (kind : WrapperKind) (t s : TypeExpr) : Prop :=
  ∃ w, g.resolver.classify t = .ok w ∧ s = if w.kind = kind then w.inner else t

theorem exists_holds_of_strips {s u : TypeExpr} {w : Wrapped} (hlist : Strips g .list t s)
    (hoptional : Strips g .optional s u) (hw : g.resolver.classify u = .ok w) :
    ∃ card, holds g t = .ok (held u w, card) := by
  obtain ⟨v, hv, rfl⟩ := hlist
  obtain ⟨x, hx, rfl⟩ := hoptional
  -- The two layers are there or not; in each case one classification is left to go by.
  split_ifs at hx hw <;> simp_all [holds, held, bind, Except.bind, pure, Except.pure] <;>
    split <;> simp_all

theorem exists_strips (h : g.resolver.Layered t) (kind : WrapperKind) (hplain : kind ≠ .plain)
    (hreference : kind ≠ .reference) :
    ∃ s ∈ t.walk, Strips g kind t s ∧ g.resolver.Layered s := by
  obtain ⟨w, hw, hinner⟩ := h
  by_cases hkind : w.kind = kind
  · obtain ⟨found, hfound⟩ := hinner (hkind ▸ hplain) (hkind ▸ hreference)
    exact ⟨w.inner, inner_mem_walk hw, ⟨w, hw, (if_pos hkind).symm⟩,
      layered_of_references_ok hfound⟩
  · exact ⟨t, self_mem_walk t, ⟨w, hw, (if_neg hkind).symm⟩, w, hw, hinner⟩

/-- What a type holds is known if it can be taken apart: nothing, a declaration that it names, or
the blank name for a parameter that is still open. -/
theorem exists_holds (h : g.resolver.Layered t) :
    ∃ target card, holds g t = .ok (target, card) ∧
      ∀ n ∈ target, n = .blank ∨ ∃ s ∈ t.walk, s.reference? = some n := by
  obtain ⟨s, hs, hlist, h⟩ := exists_strips h .list (by simp) (by simp)
  obtain ⟨u, hu, hoptional, w, hw, _⟩ := exists_strips h .optional (by simp) (by simp)
  obtain ⟨card, hholds⟩ := exists_holds_of_strips hlist hoptional hw
  have hwalk := walk_subset (walk_subset hs hu)
  refine ⟨_, card, hholds, fun n hn => ?_⟩
  unfold held at hn
  split_ifs at hn with hreference hplain
  · obtain rfl := Option.some.inj hn
    exact (target_cases_of_classify_ok hw hreference).imp_right fun htarget =>
      ⟨w.inner, hwalk (inner_mem_walk hw), htarget⟩
  · exact .inr ⟨u, hwalk (self_mem_walk u), hn⟩
  · cases hn

/-- Whether a field has an arrow is known if its target resolves or is in a module that is not
drawn. -/
theorem exists_arrowOf_iff {isUnion : Bool} {f : Field} {target : Option ScopedName} {card : String}
    (hholds : holds g f.typeExpr = .ok (target, card))
    (hindex : (f.annotations.decode arrowIndexKey Json.readInt 0).isOk) :
    (∃ a, arrowOf g d isUnion f = .ok a) ↔ ∀ n ∈ target,
      g.settings.inModules n.moduleName = true → ∃ e, g.store.resolve n = .ok e := by
  obtain ⟨i, hi⟩ := isOk_iff.mp hindex
  rw [arrowOf, hholds]
  cases target with
  | none => simp [bind, Except.bind, pure, Except.pure]
  | some n =>
    cases hmodules : g.settings.inModules n.moduleName with
    | false => simp [bind, Except.bind, pure, Except.pure, hmodules]
    | true =>
      cases hresolve : g.store.resolve n with
      | error failure => simp [bind, Except.bind, hmodules, hresolve]
      | ok e =>
        simp only [bind, Except.bind, pure, Except.pure, hmodules, hresolve, hi]
        cases isHidden e <;> cases styleOf isUnion f <;> simp [hresolve]

/-- The type wraps a parameter that is still open as a reference. -/
def HoldsOpen (g : Graph) (t : TypeExpr) : Prop :=
  ∃ card, holds g t = .ok (some .blank, card)

/-- Whether a class of a sound store can be drawn is up to its open references: the blank name does
not resolve. -/
theorem drawable_iff (hsound : g.resolver.Sound) (hblank : ∀ e, g.store.resolve .blank ≠ .ok e)
    (hindexes : ∀ d ∈ g.store.allDecls, ∀ f ∈ d.decl.body.fields,
      (f.annotations.decode arrowIndexKey Json.readInt 0).isOk)
    (hd : d ∈ g.store.allDecls) :
    Drawable g d ↔ ∀ f ∈ (shown g d).1,
      g.settings.inModules "" = false ∨ ¬HoldsOpen g f.typeExpr := by
  obtain ⟨x, hx, hfields⟩ := exists_fieldsWithin hsound d.name hd (hsound.chains d hd)
  have hfields : ∀ f ∈ (shown g d).1,
      ∃ e ∈ g.store.allDecls, e.decl.body.target? = none ∧ f ∈ e.decl.body.fields := by
    rwa [shown, fieldsOf, maxChain, hx]
  refine (and_iff_right ⟨x, hx⟩).trans (forall₂_congr fun f hf => ?_)
  obtain ⟨e, he, hbody, hf⟩ := hfields f hf
  obtain ⟨p, hp⟩ := isOk_iff.mp (hsound.projects e he hbody)
  obtain ⟨target, card, hholds, htarget⟩ := exists_holds (layered_of_project_ok hp hbody hf)
  refine (exists_arrowOf_iff hholds (hindexes e he f hf)).trans ⟨fun h => ?_, fun h n hn hm => ?_⟩
  · rw [or_iff_not_imp_right, not_not, ← Bool.not_eq_true]
    rintro ⟨_, hopen⟩ hmodules
    cases hholds.symm.trans hopen
    obtain ⟨e, he⟩ := h .blank rfl hmodules
    exact hblank e he
  · rcases htarget n hn with rfl | ⟨s, hs, hsn⟩
    · cases hn
      exact absurd ⟨card, hholds⟩ (h.resolve_left (Bool.not_eq_false _ ▸ hm))
    · exact hsound.exists_resolve he (Body.typeExpr_mem_typeExprs hf) hs hsn

end Diagram

/-- The block of diagram options and the indexes of arrows are well-formed. -/
structure Graph.WellAnnotated (g : Graph) : Prop where
  options : ∀ block ∈ (g.store.firstBlock Diagram.optionsKey g.settings.focus).1,
    (ClassDiagram.directionOf block).isOk
  indexes : ∀ d ∈ g.store.allDecls, ∀ f ∈ d.decl.body.fields,
    (f.annotations.decode Diagram.arrowIndexKey Json.readInt 0).isOk

namespace ClassDiagram

open Diagram

variable {g : Graph}

theorem exists_build_iff (h : g.WellAnnotated) :
    (∃ c, (build g).2 = .ok c) ↔ ∀ d ∈ classes g, Drawable g d := by
  constructor
  · rintro ⟨c, hc⟩
    exact (exists_of_build_ok hc).1
  · intro hdrawable
    have hdirection : ∃ direction,
        ((g.store.firstBlock optionsKey g.settings.focus).1.map directionOf).getD
          (.ok standardDirection) = .ok direction := by
      cases hblock : (g.store.firstBlock optionsKey g.settings.focus).1 with
      | none => exact ⟨_, rfl⟩
      | some block => exact isOk_iff.mp (h.options block hblock)
    obtain ⟨direction, hdirection⟩ := hdirection
    obtain ⟨fields, hfields⟩ : ∃ fields, (classes g).mapM (fun d =>
        fieldsOf g d >>= fun x => pure (d, x.1)) = .ok fields := by
      refine exists_mapM_ok fun d hd => ?_
      obtain ⟨x, hx⟩ := (hdrawable d hd).1
      exact ⟨_, bind_eq_ok.mpr ⟨x, hx, rfl⟩⟩
    exact ⟨_, bind_eq_ok.mpr ⟨direction, hdirection, bind_eq_ok.mpr
      ⟨_, arrowsOf_eq_ok.mpr ⟨hdrawable, rfl⟩, bind_eq_ok.mpr ⟨fields, hfields, rfl⟩⟩⟩⟩

end ClassDiagram

theorem Graph.isSome_module?_of_checkModules_ok {store : Store} {names : List String}
    (h : checkModules store names = .ok ()) : ∀ name ∈ names, (store.module? name).isSome := by
  induction names with
  | nil => simp
  | cons name rest ih =>
    rw [checkModules] at h
    split_ifs at h with hname
    exact List.forall_mem_cons.mpr ⟨hname, ih h⟩

/-- The blank module is drawn only if all are. -/
theorem Graph.inModules_blank_iff {settings : Settings} {store : Store} {g : Graph}
    (h : build settings store = .ok g) (hnamed : ∀ m ∈ store.modules, m.name ≠ "") :
    settings.inModules "" = false ↔ settings.modules ≠ [] := by
  obtain ⟨⟨⟩, hmodules, _⟩ := bind_eq_ok.mp h
  have hblank : "" ∉ settings.modules := by
    intro hmem
    have hsome := isSome_module?_of_checkModules_ok hmodules _ hmem
    obtain ⟨m, hm⟩ := Option.isSome_iff_exists.mp hsome
    exact hnamed m (List.mem_of_find?_eq_some hm) (by simpa using List.find?_some hm)
  simp [Settings.inModules, hblank]

open Diagram in
/-- Where its annotations are well-formed, a sound store has a diagram for each choice of modules.
Without a choice it has one only if no field that is drawn refers to a type parameter. -/
theorem DiagramFile.sound_store_drawn_iff {modules : List SchemaModule} {settings : Settings}
    {store : Store} {g : Graph} (hstore : Store.ofModules modules = .ok store)
    (hsound : Resolver.Sound ⟨store, settings.wrappers⟩)
    (hgraph : build settings store = .ok g) (hannotated : g.WellAnnotated) (o : Options)
    (files : FileTree) (shapes : Shapes) :
    (∃ out, ((target o).render g files shapes).files = .ok out) ↔
      settings.modules ≠ [] ∨ ∀ d ∈ classes g, ∀ f ∈ (shown g d).1, ¬HoldsOpen g f.typeExpr := by
  have hnamed := Store.named_of_ofModules_ok hstore
  have hmodules := inModules_blank_iff hgraph hnamed
  obtain ⟨rfl, rfl, _⟩ := built_of_build_ok hgraph
  have hblank : ∀ e, g.store.resolve .blank ≠ .ok e :=
    fun e he => Store.key_ne_blank_of_resolve_ok hnamed he rfl
  calc (∃ out, ((target o).render g files shapes).files = .ok out)
    _ ↔ ∃ c, (ClassDiagram.build g).2 = .ok c := by
        simp [target, map_eq_ok]
    _ ↔ ∀ d ∈ classes g, Drawable g d := ClassDiagram.exists_build_iff hannotated
    _ ↔ ∀ d ∈ classes g, ∀ f ∈ (shown g d).1,
          g.settings.modules ≠ [] ∨ ¬HoldsOpen g f.typeExpr := by
        refine forall₂_congr fun d hd => ?_
        rw [drawable_iff hsound hblank hannotated.indexes (mem_classes_iff.mp hd).1.1, hmodules]
    _ ↔ _ := by simp only [forall_or_left]

namespace DiagramFile

/-- A struct with a parameter that a key refers to. -/
def linkModules : List SchemaModule :=
  [moduleOf "app" [structDecl "Link" ["T"]
      [field "target" (.ref ⟨"common.db", "DbKey"⟩ [.param "T"])]],
    moduleOf "common.db" [newtypeDecl "DbKey" ["T"] text]]

theorem sound_linkModules : Resolver.Sound ⟨⟨linkModules⟩, .standard⟩ where
  resolves := by decide
  chains := by
    have hends : ∀ d ∈ (⟨linkModules⟩ : Store).allDecls,
        d.decl.body.target?.bind reference? = none := by decide
    intro d hd rest hrest
    cases rest with
    | nil => decide
    | cons e rest =>
      obtain ⟨n, hn, _⟩ := (List.isChain_cons_cons.mp hrest).1
      rw [hends d hd] at hn
      cases hn
  projects := by decide

/-- All modules are drawn, and the target of the link is a parameter. -/
theorem sound_store_not_drawn :
    ∃ g, build .standard ⟨linkModules⟩ = .ok g ∧ ∀ files shapes,
      ¬∃ out, ((target standard).render g files shapes).files = .ok out := by
  obtain ⟨⟨_, _, decls, instances, metadata, tracker⟩, hbuild, ⟨⟩, ⟨⟩⟩ :
      ∃ g, build .standard ⟨linkModules⟩ = .ok g ∧ g.store = ⟨linkModules⟩ ∧
        g.settings = .standard :=
    ⟨_, build_of_sorted rfl rfl rfl rfl rfl rfl (by decide), rfl, rfl⟩
  refine ⟨_, hbuild, fun files shapes => ?_⟩
  have hstore : Store.ofModules linkModules = .ok ⟨linkModules⟩ := rfl
  rw [sound_store_drawn_iff hstore sound_linkModules hbuild
    ⟨by dsimp only; decide, by dsimp only; decide⟩]
  rintro (hmodules | hclosed)
  · exact hmodules rfl
  · exact hclosed _ (List.mem_cons_self ..) _ (List.mem_cons_self ..) ⟨"", rfl⟩

end DiagramFile

end SchemaCompiler
