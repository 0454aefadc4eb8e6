import SchemaCompiler.Proofs.InstanceTable
import SchemaCompiler.Proofs.Instantiation

/-!
# Targets of a substituted type

What a type points to comes from the reference wrappers inside it and from the
one that its aliases lead to.  Under a substitution it keeps its own targets.
What it gains was pointed to by a value, or is the declaration that a value
applies: a reference wrapper around a parameter has no target before.
-/

namespace SchemaCompiler

open Outcome List TypeExpr

variable {t u : TypeExpr}

theorem TypeExpr.substitute_cases {env : Env} (h : t.substitute env = .ok u) :
    (t = missing ∧ u = missing) ∨ (∃ b ∈ env, u = b.value) ∨
      ∃ head args bs, t = app head args ∧ u = app head bs ∧
        Forall₂ (fun a b => a.substitute env = .ok b) args bs := by
  cases t with
  | missing =>
    obtain rfl : missing = u := by simpa [substitute] using h
    exact .inl ⟨rfl, rfl⟩
  | app head args =>
    obtain ⟨bs, hbs, hhead⟩ := substitute_app_eq_ok.mp h
    rcases substituteHead_eq_ok.mp hhead with ⟨name, _, _, hfind⟩ | ⟨_, rfl⟩
    · obtain ⟨b, hb, rfl⟩ := Option.map_eq_some_iff.mp hfind
      exact .inr (.inl ⟨b, mem_of_find?_eq_some hb, rfl⟩)
    · exact .inr (.inr ⟨head, args, bs, rfl, rfl, hbs⟩)

theorem TypeExpr.reference?_app (head : TypeRef) (args bs : List TypeExpr) :
    (app head args).reference? = (app head bs).reference? := by
  cases head <;> rfl

namespace Resolver

variable {r : Resolver} {env : Env} {args : List TypeExpr} {n owner : ScopedName} {head : TypeRef}
  {w : Wrapped} {found seen : List ScopedName} {c : ConcreteField} {f : Field} {budget : Nat}
  {d : ScopedDecl} {p : Projection}

/-! ## Layers -/

theorem target?_eq_some : target? w = some n ↔ w.kind = .reference ∧ w.target = n ∧ n ≠ .blank := by
  unfold target? Wrapped.isOpen
  constructor
  · intro h
    split_ifs at h with hopen
    simp_all
  · rintro ⟨hkind, rfl, hblank⟩
    simp [hkind, hblank]

/-- The target is the declaration that the wrapper is applied to, and blank for a
parameter. -/
theorem referenceTarget_cases {target : ScopedName} {inner : TypeExpr}
    (h : r.referenceTarget n inner = .ok target) :
    inner.reference? = some target ∨ (inner.reference? = none ∧ target = .blank) := by
  cases inner with
  | missing => cases h
  | app head args =>
    cases head with
    | param name =>
      cases h
      exact .inr ⟨rfl, rfl⟩
    | primitive name => cases h
    | reference m =>
      left
      simp only [referenceTarget] at h
      split_ifs at h
      split at h
      · cases h
      · split at h
        · split_ifs at h
          cases h
          rfl
        · cases h
          rfl

theorem Layer.target_eq_some (h : Layer r head args w) :
    target? w = some n ↔
      r.headKind head = .reference ∧ w.inner.reference? = some n ∧ n ≠ .blank := by
  rw [target?_eq_some, h.kind_eq]
  refine and_congr_right fun hkind => and_congr_left fun hblank => ?_
  cases h with
  | plain hplain => simp [hkind] at hplain
  | wrapper _ hreference => exact absurd hkind hreference
  | reference _ _ _ htarget =>
    rcases referenceTarget_cases htarget with hinner | ⟨hinner, rfl⟩
    · rw [hinner, Option.some.injEq]
    · simpa [hinner] using Ne.symm hblank

section Substituted

variable {head : TypeRef} {args bs : List TypeExpr} {w w' : Wrapped}
  (hargs : Forall₂ (fun a b => a.substitute env = .ok b) args bs)
  (hw : Layer r head args w) (hw' : Layer r head bs w')
include hargs hw hw'

/-- The arguments of one layer are substituted into those of the other. -/
theorem Layer.substitute_inner (hkind : w.kind ≠ .plain) :
    w.inner.substitute env = .ok w'.inner := by
  have hkind' : w'.kind ≠ .plain := by rwa [hw'.kind_eq, ← hw.kind_eq]
  rw [hw.args_eq hkind, hw'.args_eq hkind'] at hargs
  exact (forall₂_cons.mp hargs).1

theorem Layer.target_cases (hn : target? w' = some n) :
    target? w = some n ∨ ∃ b ∈ env, b.value.reference? = some n := by
  obtain ⟨hkind, hname, hblank⟩ := hw'.target_eq_some.mp hn
  have hinner := Layer.substitute_inner hargs hw hw' (by simp [hw.kind_eq, hkind])
  rcases substitute_cases hinner with ⟨_, hmissing⟩ | ⟨b, hb, hvalue⟩ |
    ⟨inside, as, cs, hopen, hclosed, _⟩
  · rw [hmissing] at hname
    cases hname
  · exact .inr ⟨b, hb, hvalue ▸ hname⟩
  · rw [hw.target_eq_some, hopen]
    rw [hclosed, reference?_app inside cs as] at hname
    exact .inl ⟨hkind, hname, hblank⟩

end Substituted

/-! ## References inside a type -/

theorem referencesAll_eq_ok {as : List TypeExpr} (h : r.referencesAll as = .ok found) :
    ∃ parts, Forall₂ (fun a part => r.references a = .ok part) as parts ∧
      found = parts.flatten := by
  induction as generalizing found with
  | nil =>
    cases h
    exact ⟨[], .nil, rfl⟩
  | cons a as ih =>
    rw [referencesAll] at h
    split at h
    · cases h
    · rename_i first hfirst
      split at h
      · cases h
      · rename_i more hmore
        cases h
        obtain ⟨parts, hparts, rfl⟩ := ih hmore
        exact ⟨first :: parts, .cons hfirst hparts, rfl⟩

/-- Where the references inside an application stand, by the kind of its
layer. -/
structure Refers (r : Resolver) (head : TypeRef) (args : List TypeExpr) (w : Wrapped)
    (found : List ScopedName) : Prop where
  classified : r.classify (.app head args) = .ok w
  target : w.kind = .reference → found = (target? w).toList
  nothing : w.kind = .plain → (∀ n, head ≠ .reference n) → found = []
  inArgs : ∀ n, w.kind = .plain → head = .reference n → ∃ parts,
    Forall₂ (fun a part => r.references a = .ok part) args parts ∧ found = parts.flatten
  inner : w.kind ≠ .plain → w.kind ≠ .reference → r.references w.inner = .ok found

theorem Refers.layer (h : Refers r head args w found) : Layer r head args w :=
  layer_of_classify_ok h.classified

theorem exists_refers_of_references_ok (h : r.references (.app head args) = .ok found) :
    ∃ w, Refers r head args w found := by
  unfold references at h
  split at h
  · cases h
  · rename_i w hw
    have hlayer := layer_of_classify_ok hw
    refine ⟨w, hw, ?_, ?_, ?_, ?_⟩
    · intro hkind
      simp only [hkind] at h
      cases h
      rfl
    · intro hkind hhead
      simp only [hkind] at h
      cases h
      rfl
    · rintro n hkind rfl
      simp only [hkind] at h
      exact referencesAll_eq_ok h
    · intro hplain hreference
      rw [hlayer.args_eq hplain] at h
      split at h
      · contradiction
      · contradiction
      · rwa [referencesFirst] at h

/-- A reference in the result stands in the type, or in a value, or it is a
value that a wrapper is put around. -/
theorem references_substitute {found' : List ScopedName} (hu : t.substitute env = .ok u)
    (hfound : r.references t = .ok found) (hfound' : r.references u = .ok found')
    (hn : n ∈ found') :
    n ∈ found ∨ ∃ b ∈ env, b.value.reference? = some n ∨
      ∃ inside, r.references b.value = .ok inside ∧ n ∈ inside := by
  induction t using inductionOn generalizing u found found' with
  | hmissing => cases hfound
  | happ head args ih =>
    rcases substitute_cases hu with ⟨hmissing, _⟩ | ⟨b, hb, rfl⟩ |
      ⟨head', args', bs, happ, rfl, hbs⟩
    · cases hmissing
    · exact .inr ⟨b, hb, .inr ⟨found', hfound', hn⟩⟩
    obtain ⟨rfl, rfl⟩ : head = head' ∧ args = args' := by simpa using happ
    obtain ⟨w, hw⟩ := exists_refers_of_references_ok hfound
    obtain ⟨w', hw'⟩ := exists_refers_of_references_ok hfound'
    have hkind : w'.kind = w.kind := by rw [hw.layer.kind_eq, hw'.layer.kind_eq]
    by_cases hreference : w.kind = .reference
    · rw [hw'.target (hkind.trans hreference), Option.mem_toList] at hn
      rw [hw.target hreference, Option.mem_toList]
      rcases Layer.target_cases hbs hw.layer hw'.layer hn with hn | ⟨b, hb, hname⟩
      · exact .inl hn
      · exact .inr ⟨b, hb, .inl hname⟩
    by_cases hplain : w.kind = .plain
    · by_cases hhead : ∃ m, head = .reference m
      · obtain ⟨m, hm⟩ := hhead
        obtain ⟨parts, hparts, rfl⟩ := hw.inArgs m hplain hm
        obtain ⟨parts', hparts', rfl⟩ := hw'.inArgs m (hkind.trans hplain) hm
        obtain ⟨part', hpart', hn⟩ := mem_flatten.mp hn
        obtain ⟨b, hb, hfoundb⟩ := forall₂_exists_left hparts' hpart'
        obtain ⟨a, ha, hab⟩ := forall₂_exists_left hbs hb
        obtain ⟨part, hpart, hfounda⟩ := forall₂_exists_right hparts ha
        refine (ih a ha hab hfounda hfoundb hn).imp_left fun hn => ?_
        exact mem_flatten.mpr ⟨part, hpart, hn⟩
      · rw [hw'.nothing (hkind.trans hplain) (not_exists.mp hhead)] at hn
        cases hn
    · have hinner := Layer.substitute_inner hbs hw.layer hw'.layer hplain
      have harg : w.inner ∈ args := by
        rw [hw.layer.args_eq hplain]
        exact mem_cons_self
      exact ih w.inner harg hinner (hw.inner hplain hreference)
        (hw'.inner (hkind ▸ hplain) (hkind ▸ hreference)) hn

/-- A wrapper other than a reference is taken off. -/
theorem core_cases {core : TypeExpr} (h : r.core (.app head args) = .ok core) :
    ∃ w, r.classify (.app head args) = .ok w ∧
      ((w.kind = .plain ∨ w.kind = .reference) ∧ core = .app head args ∨
        w.kind ≠ .plain ∧ w.kind ≠ .reference ∧ w.inner ∈ args ∧ r.core w.inner = .ok core) := by
  unfold Resolver.core at h
  split at h
  · cases h
  · rename_i w hw
    refine ⟨w, hw, ?_⟩
    split at h
    · rename_i hkind
      exact .inl ⟨.inr hkind, (Except.ok.inj h).symm⟩
    · rename_i hkind
      exact .inl ⟨.inl hkind, (Except.ok.inj h).symm⟩
    · rename_i hreference hplain
      have hargs := (layer_of_classify_ok hw).args_eq hplain
      rw [hargs, coreFirst] at h
      exact .inr ⟨hplain, hreference, hargs ▸ mem_cons_self, h⟩

/-- Taking wrappers off keeps the references. -/
theorem references_core {core : TypeExpr} (hcore : r.core t = .ok core)
    (hfound : r.references t = .ok found) : r.references core = .ok found := by
  induction t using inductionOn with
  | hmissing => cases hcore
  | happ head args ih =>
    obtain ⟨w, hw, ⟨_, rfl⟩ | ⟨hplain, hreference, hinner, hcore⟩⟩ := core_cases hcore
    · exact hfound
    · obtain ⟨_, hrefers⟩ := exists_refers_of_references_ok hfound
      obtain rfl := Except.ok.inj (hw.symm.trans hrefers.classified)
      exact ih w.inner hinner hcore (hrefers.inner hplain hreference)

/-- Below all wrappers stands none but a reference. -/
theorem headKind_of_core_ok (h : r.core t = .ok (.app head args)) :
    r.headKind head = .plain ∨ r.headKind head = .reference := by
  induction t using inductionOn with
  | hmissing => cases h
  | happ head' args' ih =>
    obtain ⟨w, hw, ⟨hkind, happ⟩ | ⟨_, _, hinner, hcore⟩⟩ := core_cases h
    · cases happ
      rwa [(layer_of_classify_ok hw).kind_eq] at hkind
    · exact ih w.inner hinner hcore

/-! ## Behind aliases -/

/-- No alias stands at the head. -/
def AtHead (r : Resolver) (t : TypeExpr) : Prop :=
  ∀ n, t.reference? = some n → r.wrappers.isReference n = true ∨
    ∃ d, r.store.resolve n = .ok d ∧ ∀ params target, d.decl.body ≠ .synonym params target

/-- The alias at the head is replaced by its definition. -/
def Unfolds (r : Resolver) (t : TypeExpr) (n : ScopedName) (next : TypeExpr) : Prop :=
  t.reference? = some n ∧ r.wrappers.isReference n = false ∧
    ∃ d params target env, r.store.resolve n = .ok d ∧ d.decl.body = .synonym params target ∧
      Env.bind n params t.args = .ok env ∧ target.substitute env = .ok next

theorem expandWithin_of_atHead (h : r.AtHead t) (budget : Nat) (seen : List ScopedName) :
    r.expandWithin budget seen t = .ok t := by
  unfold expandWithin
  split
  · rfl
  · rename_i n hn
    rcases h n hn with hreference | ⟨d, hd, hbody⟩
    · rw [if_pos hreference]
    · by_cases hreference : r.wrappers.isReference n = true
      · rw [if_pos hreference]
      · rw [if_neg hreference]
        simp only [hd]

theorem expandWithin_of_unfolds {next : TypeExpr} (h : r.Unfolds t n next) (hn : n ∉ seen)
    (budget : Nat) :
    r.expandWithin (budget + 1) seen t = r.expandWithin budget (n :: seen) next := by
  obtain ⟨hname, hreference, d, params, target, env, hd, hbody, henv, hnext⟩ := h
  conv_lhs => unfold expandWithin
  simp [hname, hreference, hd, hbody, henv, hnext, hn]

/-- Aliases are followed while one stands at the head. -/
theorem expandWithin_cases {s : TypeExpr} (h : r.expandWithin budget seen t = .ok s) :
    (r.AtHead t ∧ s = t) ∨ ∃ n next rest, r.Unfolds t n next ∧ n ∉ seen ∧
      budget = rest + 1 ∧ r.expandWithin rest (n :: seen) next = .ok s := by
  unfold expandWithin at h
  split at h
  · rename_i hnone
    cases h
    exact .inl ⟨by simp [AtHead, hnone], rfl⟩
  · rename_i n hn
    by_cases hreference : r.wrappers.isReference n = true
    · rw [if_pos hreference] at h
      cases h
      refine .inl ⟨fun m hm => .inl ?_, rfl⟩
      rwa [← Option.some.inj (hn.symm.trans hm)]
    · rw [if_neg hreference] at h
      split at h
      · cases h
      · rename_i d hd
        split at h
        · rename_i params target hbody
          split at h
          · cases h
          · rename_i rest
            split_ifs at h with hseen
            split at h
            · cases h
            · rename_i env henv
              split at h
              · cases h
              · rename_i next hnext
                exact .inr ⟨n, next, rest, ⟨hn, by simpa using hreference, d, params, target, env,
                  hd, hbody, henv, hnext⟩, by simpa using hseen, rfl, h⟩
        · rename_i hbody
          cases h
          refine .inl ⟨fun m hm => .inr ⟨d, ?_, hbody⟩, rfl⟩
          rwa [← Option.some.inj (hn.symm.trans hm)]

/-- More visits and fewer declarations to keep away from change no success. -/
theorem expandWithin_mono {more : Nat} {fewer : List ScopedName} {s : TypeExpr}
    (hbudget : budget ≤ more) (hseen : fewer ⊆ seen) (h : r.expandWithin budget seen t = .ok s) :
    r.expandWithin more fewer t = .ok s := by
  induction budget generalizing more seen fewer t with
  | zero =>
    rcases expandWithin_cases h with ⟨hhead, rfl⟩ | ⟨_, _, _, _, _, hrest, _⟩
    · exact expandWithin_of_atHead hhead more fewer
    · cases hrest
  | succ budget ih =>
    rcases expandWithin_cases h with ⟨hhead, rfl⟩ | ⟨n, next, rest, hunfolds, hn, hrest, h⟩
    · exact expandWithin_of_atHead hhead more fewer
    · cases hrest
      obtain ⟨more, rfl⟩ := Nat.exists_eq_succ_of_ne_zero (Nat.ne_zero_of_lt hbudget)
      rw [expandWithin_of_unfolds hunfolds (fun hmem => hn (hseen hmem))]
      exact ih (Nat.le_of_succ_le_succ hbudget) (cons_subset_cons n hseen) h

theorem not_unfolds_of_atHead {next : TypeExpr} (h : r.AtHead t) : ¬r.Unfolds t n next := by
  rintro ⟨hname, hreference, d, params, target, _, hd, hbody, _⟩
  rcases h n hname with htrue | ⟨e, he, hnot⟩
  · simp [hreference] at htrue
  · obtain rfl := Except.ok.inj (hd.symm.trans he)
    exact hnot params target hbody

theorem AtHead.of_app (h : r.AtHead (.app head args)) (bs : List TypeExpr) :
    r.AtHead (.app head bs) := by
  intro n hn
  rw [reference?_app head bs args] at hn
  exact h n hn

section Substituted

variable (hscoped : r.store.WellScoped) {head : TypeRef} {args bs : List TypeExpr}
  (hargs : Forall₂ (fun a b => a.substitute env = .ok b) args bs)
include hscoped hargs

/-- An alias with substituted arguments has the substituted definition. -/
theorem Unfolds.substitute {m : ScopedName} {next next' : TypeExpr}
    (h : r.Unfolds (.app head args) n next) (h' : r.Unfolds (.app head bs) m next') :
    n = m ∧ next.substitute env = .ok next' := by
  obtain ⟨hname, _, d, params, target, generic, hd, hbody, hgeneric, hnext⟩ := h
  obtain ⟨hname', _, d', params', target', closed, hd', hbody', hclosed, hnext'⟩ := h'
  obtain rfl : n = m := by
    rw [reference?_app head args bs, hname'] at hname
    exact (Option.some.inj hname).symm
  obtain rfl := Except.ok.inj (hd.symm.trans hd')
  obtain ⟨rfl, rfl⟩ : params = params' ∧ target = target' := by simpa [hbody] using hbody'
  refine ⟨rfl, ?_⟩
  have hparams : target.paramNames ⊆ params := by
    have hwritten := hscoped d (Store.mem_allDecls_of_resolve_ok hd) target
      (Body.target_mem_typeExprs (by rw [hbody]; rfl))
    rwa [Declaration.params, hbody] at hwritten
  exact Env.refines_bind hargs hgeneric hclosed target next next' hparams hnext hnext'

end Substituted

/-- Following aliases commutes with a substitution, unless a parameter comes to
the head: then it goes on with the value of that parameter. -/
theorem expandWithin_substitute (hscoped : r.store.WellScoped)
    (hbudget : budget ≤ r.store.keys.length + 1) {s v : TypeExpr} (hu : t.substitute env = .ok u)
    (hs : r.expandWithin budget seen t = .ok s) (hv : r.expandWithin budget seen u = .ok v) :
    (∃ b ∈ env, r.expandAliases b.value = .ok v) ∨ (s = .missing ∧ v = .missing) ∨
      ∃ head args bs, s = .app head args ∧ v = .app head bs ∧
        Forall₂ (fun a b => a.substitute env = .ok b) args bs := by
  induction budget using Nat.strongRecOn generalizing seen t u with
  | ind budget ih =>
    rcases substitute_cases hu with ⟨rfl, rfl⟩ | ⟨b, hb, rfl⟩ |
      ⟨head, args, bs, rfl, rfl, hbs⟩
    · have hhead : r.AtHead .missing := nofun
      rw [expandWithin_of_atHead hhead] at hs hv
      exact .inr (.inl ⟨(Except.ok.inj hs).symm, (Except.ok.inj hv).symm⟩)
    · exact .inl ⟨b, hb, expandWithin_mono hbudget (nil_subset seen) hv⟩
    rcases expandWithin_cases hs with ⟨hhead, rfl⟩ | ⟨n, next, rest, hunfolds, _, rfl, hafter⟩
    · rw [expandWithin_of_atHead (hhead.of_app bs)] at hv
      exact .inr (.inr ⟨head, args, bs, rfl, (Except.ok.inj hv).symm, hbs⟩)
    rcases expandWithin_cases hv with ⟨hhead, _⟩ | ⟨m, next', rest', hunfolds', _, hrest, hafter'⟩
    · exact absurd hunfolds (not_unfolds_of_atHead (hhead.of_app args))
    cases hrest
    obtain ⟨rfl, hnext⟩ := hunfolds.substitute hscoped hbs hunfolds'
    exact ih rest (Nat.lt_succ_self rest) (Nat.le_of_succ_le hbudget) hnext hafter hafter'

theorem classifyExpanded_eq_ok :
    r.classifyExpanded t = .ok w ↔ ∃ s, r.expandAliases t = .ok s ∧ r.classify s = .ok w := by
  unfold classifyExpanded
  cases r.expandAliases t with
  | error failure | ok s => simp

/-- The layer behind aliases, before and after a substitution. -/
theorem classifyExpanded_substitute (hscoped : r.store.WellScoped) {w' : Wrapped}
    (hu : t.substitute env = .ok u) (hw : r.classifyExpanded t = .ok w)
    (hw' : r.classifyExpanded u = .ok w') :
    (∃ b ∈ env, r.classifyExpanded b.value = .ok w') ∨
      ∃ head args bs, Layer r head args w ∧ Layer r head bs w' ∧
        Forall₂ (fun a b => a.substitute env = .ok b) args bs := by
  obtain ⟨s, hs, hclassify⟩ := classifyExpanded_eq_ok.mp hw
  obtain ⟨v, hv, hclassify'⟩ := classifyExpanded_eq_ok.mp hw'
  rcases expandWithin_substitute hscoped (Nat.le_refl _) hu hs hv with ⟨b, hb, hvalue⟩ | ⟨rfl, _⟩ |
    ⟨head, args, bs, rfl, rfl, hbs⟩
  · exact .inl ⟨b, hb, classifyExpanded_eq_ok.mpr ⟨v, hvalue, hclassify'⟩⟩
  · cases hclassify
  · exact .inr ⟨head, args, bs, layer_of_classify_ok hclassify, layer_of_classify_ok hclassify',
      hbs⟩

/-- The target of a layer, or of the one under it when it is optional. -/
def layerLink (r : Resolver) (w : Wrapped) : Outcome (Option ScopedName) :=
  if w.kind = .optional then (r.classifyExpanded w.inner).map target? else .ok (target? w)

theorem link_eq_ok {found : Option ScopedName} :
    r.link t = .ok found ↔
      ∃ w, r.classifyExpanded t = .ok w ∧ r.layerLink w = .ok found := by
  unfold link
  cases r.classifyExpanded t with
  | error failure => simp
  | ok w =>
    simp only [Except.ok.injEq, exists_eq_left', layerLink]
    cases r.classifyExpanded w.inner with
    | error failure | ok inside => rfl

/-- The link of the result is that of the type, or that of a value, or it is a
value that a wrapper is put around. -/
theorem link_substitute (hscoped : r.store.WellScoped) {found : Option ScopedName}
    (hu : t.substitute env = .ok u) (hfound : r.link t = .ok found) (hn : r.link u = .ok (some n)) :
    found = some n ∨ ∃ b ∈ env, b.value.reference? = some n ∨ r.link b.value = .ok (some n) := by
  obtain ⟨w, hw, hfound⟩ := link_eq_ok.mp hfound
  obtain ⟨w', hw', hn⟩ := link_eq_ok.mp hn
  rcases classifyExpanded_substitute hscoped hu hw hw' with ⟨b, hb, hvalue⟩ |
    ⟨head, args, bs, hlayer, hlayer', hbs⟩
  · exact .inr ⟨b, hb, .inr (link_eq_ok.mpr ⟨w', hvalue, hn⟩)⟩
  have hkind : w'.kind = w.kind := by rw [hlayer.kind_eq, hlayer'.kind_eq]
  by_cases hoptional : w.kind = .optional
  · rw [layerLink, if_pos hoptional] at hfound
    rw [layerLink, if_pos (hkind.trans hoptional)] at hn
    obtain ⟨inside, hinside, rfl⟩ := map_eq_ok.mp hfound
    obtain ⟨inside', hinside', hn⟩ := map_eq_ok.mp hn
    have hinner := Layer.substitute_inner hbs hlayer hlayer' (by simp [hoptional])
    rcases classifyExpanded_substitute hscoped hinner hinside hinside' with ⟨b, hb, hvalue⟩ |
      ⟨_, _, _, hunder, hunder', hcs⟩
    · have hreference : inside'.kind = .reference := (target?_eq_some.mp hn).1
      refine .inr ⟨b, hb, .inr (link_eq_ok.mpr ⟨inside', hvalue, ?_⟩)⟩
      rw [layerLink, if_neg (by simp [hreference]), hn]
    · refine (Layer.target_cases hcs hunder hunder' hn).imp_right ?_
      exact fun ⟨b, hb, hname⟩ => ⟨b, hb, .inl hname⟩
  · rw [layerLink, if_neg hoptional] at hfound
    rw [layerLink, if_neg (hkind ▸ hoptional)] at hn
    obtain rfl := Except.ok.inj hfound
    refine (Layer.target_cases hbs hlayer hlayer' (Except.ok.inj hn)).imp_right ?_
    exact fun ⟨b, hb, hname⟩ => ⟨b, hb, .inl hname⟩

/-! ## The targets of a field -/

/-- The references of a field are those inside its type and its link. -/
theorem exists_references_of_concreteField_ok (h : r.concreteField owner f t = .ok c) :
    ∃ found link, r.references t = .ok found ∧ r.link t = .ok link ∧
      ∀ n, n ∈ c.references ↔ n ∈ found ∨ link = some n := by
  obtain ⟨layer, _, h⟩ := bind_eq_ok.mp h
  obtain ⟨found, hfound, h⟩ := bind_eq_ok.mp h
  obtain ⟨core, _, h⟩ := bind_eq_ok.mp h
  obtain ⟨link, hlink, rfl⟩ := bind_pure_eq_ok.mp h
  refine ⟨found, link, hfound, hlink, fun n => ?_⟩
  cases link with
  | none => simp
  | some target =>
    dsimp only
    split
    · rename_i hmem
      simp only [contains_iff_mem] at hmem
      constructor
      · exact .inl
      · rintro (hn | heq)
        · exact hn
        · rwa [← Option.some.inj heq]
    · simp [eq_comm]

theorem exists_concreteField_of_mem_project (h : r.project d env = .ok p) (hc : c ∈ p.fields) :
    ∃ owner f, r.concreteField owner f c.typeExpr = .ok c := by
  obtain ⟨e, _, f, t, _, _, _, _, hconcrete⟩ :=
    declared_of_mem_project (P := fun _ _ => True) (fun _ _ _ _ _ _ => trivial) trivial h hc
  obtain ⟨hfield, _⟩ := exists_of_concreteField_ok hconcrete
  have htype : c.typeExpr = t := by rw [ConcreteField.typeExpr, hfield]
  exact ⟨e.name, f, htype ▸ hconcrete⟩

/-- A type applies a declaration, refers to it, or links to it. -/
def Carries (r : Resolver) (t : TypeExpr) (n : ScopedName) : Prop :=
  t.reference? = some n ∨ (∃ found, r.references t = .ok found ∧ n ∈ found) ∨
    r.link t = .ok (some n)

/-- A projection under bindings has the targets of the open projection, and
others only as the values of the bindings carry them. -/
theorem mem_targets_of_project (hscoped : r.store.WellScoped) (hd : d ∈ r.store.allDecls)
    {q : Projection} (hp : r.project d [] = .ok p) (hq : r.project d env = .ok q)
    {e : ConcreteField} (he : e ∈ q.fields) (hn : n ∈ e.references) :
    (∃ c ∈ p.fields, n ∈ c.references) ∨ ∃ b ∈ env, r.Carries b.value n := by
  obtain ⟨x, hx, _, _, _, hpfields⟩ := exists_of_project_ok hp
  obtain ⟨y, hy, _, _, _, hqfields⟩ := exists_of_project_ok hq
  have hfields := (expand_instantiates hscoped env r.expansionBudget d hd ⟨[], []⟩ [] env x y
    (Env.refines_open env d.decl.params) hx hy).2
  rw [← hpfields, ← hqfields] at hfields
  obtain ⟨c, hc, hce⟩ := forall₂_exists_left hfields he
  obtain ⟨_, _, hconcrete⟩ := exists_concreteField_of_mem_project hp hc
  obtain ⟨_, _, hconcrete'⟩ := exists_concreteField_of_mem_project hq he
  obtain ⟨found, link, hfound, hlink, hmem⟩ := exists_references_of_concreteField_ok hconcrete
  obtain ⟨found', link', hfound', hlink', hmem'⟩ :=
    exists_references_of_concreteField_ok hconcrete'
  rcases (hmem' n).mp hn with hn | rfl
  · rcases references_substitute hce.typeExpr hfound hfound' hn with hn | ⟨b, hb, hcarries⟩
    · exact .inl ⟨c, hc, (hmem n).mpr (.inl hn)⟩
    · exact .inr ⟨b, hb, hcarries.imp_right .inl⟩
  · rcases link_substitute hscoped hce.typeExpr hlink hlink' with hn | ⟨b, hb, hcarries⟩
    · exact .inl ⟨c, hc, (hmem n).mpr (.inr hn)⟩
    · exact .inr ⟨b, hb, hcarries.imp_right .inr⟩

/-- The application that a field uses is what its type has below all wrappers,
and no wrapper itself. -/
theorem core_of_application (hc : r.concreteField owner f c.typeExpr = .ok c)
    (hu : r.application? c = some u) :
    r.core c.typeExpr = .ok u ∧ ∃ n args, u = .app (.reference n) args ∧ args ≠ [] ∧
      r.headKind (.reference n) = .plain := by
  obtain ⟨_, _, core, hcore, hmono⟩ := exists_of_concreteField_ok hc
  unfold application? at hu
  split_ifs at hu with hused
  rw [hcore] at hu
  obtain rfl : core = u := Option.some.inj hu
  rw [hmono, Bool.and_eq_true] at hused
  refine ⟨hcore, ?_⟩
  have happlied := hused.2
  unfold isApplication at happlied
  split at happlied
  · rename_i n args
    rw [Bool.and_eq_true, Bool.not_eq_true', Bool.not_eq_true'] at happlied
    refine ⟨n, args, rfl, isEmpty_eq_false_iff.mp happlied.1,
      (headKind_of_core_ok hcore).resolve_right ?_⟩
    rw [headKind, happlied.2, if_neg Bool.false_ne_true]
    split_ifs <;> simp
  · cases happlied

/-- A field that uses an application refers to what the arguments refer to. -/
theorem mem_references_of_application (hc : r.concreteField owner f c.typeExpr = .ok c)
    (hu : r.application? c = some u) {a : TypeExpr} (ha : a ∈ u.args) {inside : List ScopedName}
    (hinside : r.references a = .ok inside) (hn : n ∈ inside) : n ∈ c.references := by
  obtain ⟨found, _, hfound, _, hmem⟩ := exists_references_of_concreteField_ok hc
  obtain ⟨hcore, m, args, rfl, _, hplain⟩ := core_of_application hc hu
  obtain ⟨w, hw⟩ := exists_refers_of_references_ok (references_core hcore hfound)
  obtain ⟨parts, hparts, rfl⟩ := hw.inArgs m (hw.layer.kind_eq.trans hplain) rfl
  obtain ⟨part, hpart, hfounda⟩ := forall₂_exists_right hparts ha
  obtain rfl := Except.ok.inj (hinside.symm.trans hfounda)
  exact (hmem n).mpr (.inl (mem_flatten.mpr ⟨inside, hpart, hn⟩))

end Resolver

end SchemaCompiler
