import SchemaCompiler.Proofs.Targets

/-!
# References behind aliases

The references of a field are collected from its type as written: wrappers and
the arguments of declarations are entered, aliases are not.  Only the link of a
field follows aliases, at the head and under one optional layer.  So an alias
hides the references of its definition, all but the one that is the link, and
its arguments are searched even where the definition drops them.
-/

namespace SchemaCompiler.Resolver

open Outcome List TypeExpr Standard

variable {r : Resolver} {head : TypeRef} {n owner : ScopedName} {t s : TypeExpr} {w : Wrapped}
  {c : ConcreteField} {f : Field} {args : List TypeExpr}

/-! ## Where references are looked for -/

/-- Whether references are looked for in the arguments of a head. -/
def looksInside (r : Resolver) (head : TypeRef) : Bool :=
  match r.headKind head, head with
  | .reference, _ => false
  | .plain, .reference _ => true
  | .plain, _ => false
  | _, _ => true

mutual

/-- The parts of a type that references are looked for in, outermost first. -/
def searched (r : Resolver) : TypeExpr → List TypeExpr
  | .missing => [.missing]
  | .app head args => .app head args :: if r.looksInside head then r.searchedAll args else []

def searchedAll (r : Resolver) : List TypeExpr → List TypeExpr
  | [] => []
  | a :: as => r.searched a ++ r.searchedAll as

end

/-- The declaration that a reference wrapper is put around. -/
def pointed? (r : Resolver) : TypeExpr → Option ScopedName
  | .app head [inner] =>
    if r.headKind head = .reference then inner.reference?.filter (· ≠ .blank) else none
  | _ => none

/-- The targets of the reference wrappers that are found in a type. -/
def pointsTo (r : Resolver) (t : TypeExpr) : List ScopedName :=
  (r.searched t).filterMap r.pointed?

theorem searchedAll_eq_flatMap (as : List TypeExpr) :
    r.searchedAll as = as.flatMap r.searched := by
  induction as with
  | nil => rfl
  | cons a as ih => rw [searchedAll, ih, flatMap_cons]

theorem mem_searched_app :
    s ∈ r.searched (.app head args) ↔
      s = .app head args ∨ r.looksInside head = true ∧ ∃ a ∈ args, s ∈ r.searched a := by
  rw [searched, mem_cons]
  by_cases hinside : r.looksInside head = true
  · simp [hinside, searchedAll_eq_flatMap]
  · simp [hinside]

theorem self_mem_searched (t : TypeExpr) : t ∈ r.searched t := by
  cases t <;> simp [searched]

theorem pointed?_eq_some :
    r.pointed? t = some n ↔ ∃ head inner, t = .app head [inner] ∧
      r.headKind head = .reference ∧ inner.reference? = some n ∧ n ≠ .blank := by
  unfold pointed?
  split
  · rename_i head inner
    by_cases hkind : r.headKind head = .reference
    · simp [hkind, Option.filter_eq_some_iff]
    · simp [hkind]
  · rename_i hshape
    constructor
    · nofun
    · rintro ⟨head, inner, rfl, _⟩
      exact absurd rfl (hshape head inner)

theorem mem_pointsTo : n ∈ r.pointsTo t ↔ ∃ s ∈ r.searched t, r.pointed? s = some n := by
  rw [pointsTo, mem_filterMap]

theorem looksInside_of_reference (h : r.headKind head = .reference) :
    r.looksInside head = false := by
  simp [looksInside, h]

theorem looksInside_of_wrapper (hplain : r.headKind head ≠ .plain)
    (hreference : r.headKind head ≠ .reference) : r.looksInside head = true := by
  unfold looksInside
  split <;> simp_all

/-- Everything but a reference wrapper points to what its arguments point to, where
they are searched. -/
theorem mem_pointsTo_app (h : r.headKind head ≠ .reference) :
    n ∈ r.pointsTo (.app head args) ↔
      r.looksInside head = true ∧ ∃ a ∈ args, n ∈ r.pointsTo a := by
  have hself : r.pointed? (.app head args) ≠ some n := by
    intro hpointed
    obtain ⟨head', _, happ, hkind, _⟩ := pointed?_eq_some.mp hpointed
    cases happ
    exact h hkind
  simp only [mem_pointsTo, mem_searched_app]
  constructor
  · rintro ⟨s, rfl | ⟨hinside, a, ha, hs⟩, hn⟩
    · exact absurd hn hself
    · exact ⟨hinside, a, ha, s, hs, hn⟩
  · rintro ⟨hinside, a, ha, s, hs, hn⟩
    exact ⟨s, .inr ⟨hinside, a, ha, hs⟩, hn⟩

theorem mem_pointsTo_reference (h : r.headKind head = .reference) :
    n ∈ r.pointsTo (.app head args) ↔
      ∃ inner, args = [inner] ∧ inner.reference? = some n ∧ n ≠ .blank := by
  simp [mem_pointsTo, mem_searched_app, looksInside_of_reference h, pointed?_eq_some, h]

/-- The collected references are the targets of the wrappers that are found. -/
theorem mem_references_iff {found : List ScopedName} (h : r.references t = .ok found) :
    n ∈ found ↔ n ∈ r.pointsTo t := by
  induction t using inductionOn generalizing found with
  | hmissing => cases h
  | happ head args ih =>
    obtain ⟨w, hw⟩ := exists_refers_of_references_ok h
    have hkind := hw.layer.kind_eq
    by_cases hreference : w.kind = .reference
    · rw [hw.target hreference, Option.mem_toList, hw.layer.target_eq_some,
        mem_pointsTo_reference (hkind ▸ hreference), hw.layer.args_eq (by simp [hreference])]
      simp [← hkind, hreference]
    rw [mem_pointsTo_app (hkind ▸ hreference)]
    by_cases hplain : w.kind = .plain
    · by_cases hhead : ∃ m, head = .reference m
      · obtain ⟨m, rfl⟩ := hhead
        have hinside : r.looksInside (.reference m) = true := by
          simp [looksInside, ← hkind, hplain]
        obtain ⟨parts, hparts, rfl⟩ := hw.inArgs m hplain rfl
        simp only [hinside, true_and, mem_flatten]
        constructor
        · rintro ⟨part, hpart, hn⟩
          obtain ⟨a, ha, hfound⟩ := forall₂_exists_left hparts hpart
          exact ⟨a, ha, (ih a ha hfound).mp hn⟩
        · rintro ⟨a, ha, hn⟩
          obtain ⟨part, hpart, hfound⟩ := forall₂_exists_right hparts ha
          exact ⟨part, hpart, (ih a ha hfound).mpr hn⟩
      · have hinside : r.looksInside head = false := by
          unfold looksInside
          split <;> simp_all
        simp [hw.nothing hplain (not_exists.mp hhead), hinside]
    · have hargs := hw.layer.args_eq hplain
      have hfound := hw.inner hplain hreference
      rw [ih w.inner (hargs ▸ mem_cons_self) hfound, hargs]
      simp [looksInside_of_wrapper (hkind ▸ hplain) (hkind ▸ hreference)]

/-! ## Under a substitution -/

/-- What the bindings add to the targets found in a type: those of a value that comes
to a searched place, and the declaration at the head of a value that comes under a
reference wrapper. -/
inductive Gains (r : Resolver) (env : Env) (t : TypeExpr) (n : ScopedName) : Prop
  | value {param : String} {value : TypeExpr} (hplace : .param param ∈ r.searched t)
      (hvalue : env.find? param = some value) (hn : n ∈ r.pointsTo value)
  | wrapped {head : TypeRef} {param : String} {value : TypeExpr}
      (hplace : .app head [.param param] ∈ r.searched t) (hkind : r.headKind head = .reference)
      (hvalue : env.find? param = some value) (hn : value.reference? = some n)
      (hblank : n ≠ .blank)

section Substituted

variable {env : Env} {n : ScopedName} {args : List TypeExpr}

theorem Gains.of_arg {a : TypeExpr} (hinside : r.looksInside head = true) (ha : a ∈ args)
    (h : r.Gains env a n) : r.Gains env (.app head args) n := by
  cases h with
  | value hplace hvalue hn =>
    exact .value (mem_searched_app.mpr (.inr ⟨hinside, a, ha, hplace⟩)) hvalue hn
  | wrapped hplace hkind hvalue hn hblank =>
    exact .wrapped (mem_searched_app.mpr (.inr ⟨hinside, a, ha, hplace⟩)) hkind hvalue hn hblank

/-- A head that stays gains nothing itself. -/
theorem gains_app (hhead : ∀ name, head = .param name → env.find? name = none)
    (hreference : r.headKind head ≠ .reference) :
    r.Gains env (.app head args) n ↔
      r.looksInside head = true ∧ ∃ a ∈ args, r.Gains env a n := by
  constructor
  · intro h
    cases h with
    | value hplace hvalue hn =>
      rcases mem_searched_app.mp hplace with happ | ⟨hinside, a, ha, hplace⟩
      · cases happ
        simp [hhead _ rfl] at hvalue
      · exact ⟨hinside, a, ha, .value hplace hvalue hn⟩
    | wrapped hplace hkind hvalue hn hblank =>
      rcases mem_searched_app.mp hplace with happ | ⟨hinside, a, ha, hplace⟩
      · cases happ
        exact absurd hkind hreference
      · exact ⟨hinside, a, ha, .wrapped hplace hkind hvalue hn hblank⟩
  · rintro ⟨hinside, a, ha, h⟩
    exact h.of_arg hinside ha

theorem gains_reference (h : r.headKind head = .reference) :
    r.Gains env (.app head args) n ↔ ∃ param value, args = [.param param] ∧
      env.find? param = some value ∧ value.reference? = some n ∧ n ≠ .blank := by
  have hsearched : ∀ s, s ∈ r.searched (.app head args) ↔ s = .app head args := by
    simp [mem_searched_app, looksInside_of_reference h]
  constructor
  · intro hgains
    cases hgains with
    | value hplace =>
      cases (hsearched _).mp hplace
      cases h
    | wrapped hplace _ hvalue hn hblank =>
      cases (hsearched _).mp hplace
      exact ⟨_, _, rfl, hvalue, hn, hblank⟩
  · rintro ⟨param, value, rfl, hvalue, hn, hblank⟩
    exact .wrapped (self_mem_searched _) h hvalue hn hblank

/-- The declaration at the head after a substitution was there before, or a value
brought it. -/
theorem reference?_substitute {u : TypeExpr} (hu : t.substitute env = .ok u) :
    u.reference? = some n ↔ t.reference? = some n ∨
      ∃ param, t = .param param ∧ env.find? param = some u ∧ u.reference? = some n := by
  cases t with
  | missing =>
    simp only [substitute, Except.ok.injEq] at hu
    subst hu
    simp [reference?]
  | app head args =>
    obtain ⟨bs, hbs, hhead⟩ := substitute_app_eq_ok.mp hu
    rcases substituteHead_eq_ok.mp hhead with ⟨name, rfl, rfl, hfind⟩ | ⟨hfree, rfl⟩
    · cases hbs
      simp [reference?, TypeExpr.param, hfind]
    · rw [reference?_app head bs args]
      refine ⟨.inl, Or.rec id ?_⟩
      rintro ⟨param, happ, hfind, hn⟩
      cases happ
      simp [hfree param rfl] at hfind

/-- A substituted type points to what the type points to and what the bindings add. -/
theorem mem_pointsTo_substitute {u : TypeExpr} (hu : t.substitute env = .ok u) :
    n ∈ r.pointsTo u ↔ n ∈ r.pointsTo t ∨ r.Gains env t n := by
  induction t using inductionOn generalizing u with
  | hmissing =>
    simp only [substitute, Except.ok.injEq] at hu
    subst hu
    refine ⟨.inl, Or.rec id ?_⟩
    rintro (⟨hplace, _, _⟩ | ⟨hplace, _, _, _, _⟩)
    · simp [searched, TypeExpr.param] at hplace
    · simp [searched] at hplace
  | happ head args ih =>
    obtain ⟨bs, hbs, hhead⟩ := substitute_app_eq_ok.mp hu
    rcases substituteHead_eq_ok.mp hhead with ⟨name, rfl, rfl, hfind⟩ | ⟨hfree, rfl⟩
    · -- A bound parameter is nothing but a place for its value.
      cases hbs
      have hplain : r.headKind (.param name) ≠ .reference := by simp [headKind]
      simp only [mem_pointsTo_app hplain, not_mem_nil, false_and, exists_false, and_false, false_or]
      constructor
      · exact .value (self_mem_searched _) hfind
      · intro hgains
        cases hgains with
        | value hplace hvalue hn =>
          have happ := (mem_searched_app.mp hplace).resolve_right (by simp)
          cases happ
          rwa [Option.some.inj (hfind.symm.trans hvalue)]
        | wrapped hplace =>
          have happ := (mem_searched_app.mp hplace).resolve_right (by simp)
          cases happ
    by_cases hreference : r.headKind head = .reference
    · rw [mem_pointsTo_reference hreference, mem_pointsTo_reference hreference,
        gains_reference hreference]
      constructor
      · rintro ⟨inner, rfl, hn, hblank⟩
        obtain ⟨a, as, ha, has, rfl⟩ := forall₂_cons_right_iff.mp hbs
        cases forall₂_nil_right_iff.mp has
        rcases (reference?_substitute ha).mp hn with hn | ⟨param, rfl, hfind, hn⟩
        · exact .inl ⟨a, rfl, hn, hblank⟩
        · exact .inr ⟨param, inner, rfl, hfind, hn, hblank⟩
      · rintro (⟨inner, rfl, hn, hblank⟩ | ⟨param, value, rfl, hfind, hn, hblank⟩)
        · obtain ⟨b, cs, hb, hcs, rfl⟩ := forall₂_cons_left_iff.mp hbs
          cases forall₂_nil_left_iff.mp hcs
          exact ⟨b, rfl, (reference?_substitute hb).mpr (.inl hn), hblank⟩
        · obtain ⟨b, cs, hb, hcs, rfl⟩ := forall₂_cons_left_iff.mp hbs
          cases forall₂_nil_left_iff.mp hcs
          obtain rfl : value = b := by
            simpa [TypeExpr.param, substitute, substituteAll, substituteHead, hfind] using hb
          exact ⟨value, rfl, hn, hblank⟩
    · rw [mem_pointsTo_app hreference, mem_pointsTo_app hreference, gains_app hfree hreference,
        ← and_or_left]
      refine and_congr_right fun _ => ?_
      constructor
      · rintro ⟨b, hb, hn⟩
        obtain ⟨a, ha, hab⟩ := forall₂_exists_left hbs hb
        exact ((ih a ha hab).mp hn).imp (⟨a, ha, ·⟩) (⟨a, ha, ·⟩)
      · rintro (⟨a, ha, hn⟩ | ⟨a, ha, hn⟩)
        · obtain ⟨b, hb, hab⟩ := forall₂_exists_right hbs ha
          exact ⟨b, hb, (ih a ha hab).mpr (.inl hn)⟩
        · obtain ⟨b, hb, hab⟩ := forall₂_exists_right hbs ha
          exact ⟨b, hb, (ih a ha hab).mpr (.inr hn)⟩

end Substituted

/-! ## Replacing a part under wrappers -/

/-- A list, optional value or map, by a name that is no alias. -/
structure BuiltIn (r : Resolver) (head : TypeRef) : Prop where
  wraps : r.headKind head ≠ .plain
  holds : r.headKind head ≠ .reference
  atHead : ∀ args, r.AtHead (.app head args)

/-- One type has `e` where the other has `s`, at the head or under built-in wrappers. -/
inductive Replaces (r : Resolver) (s e : TypeExpr) : TypeExpr → TypeExpr → Prop
  | here : Replaces r s e s e
  | under {head : TypeRef} {t t' : TypeExpr} (hhead : r.BuiltIn head)
      (h : Replaces r s e t t') : Replaces r s e (.app head [t]) (.app head [t'])

/-- Aliases at the head are replaced, any number of times. -/
def UnfoldsTo (r : Resolver) : TypeExpr → TypeExpr → Prop :=
  Relation.ReflTransGen fun t next => ∃ n, r.Unfolds t n next

/-- What an alias stands for is what its definition stands for. -/
theorem expandAliases_of_unfolds {next : TypeExpr} (h : r.Unfolds t n next)
    (hs : r.expandAliases t = .ok s) : r.expandAliases next = .ok s := by
  rw [expandAliases, expandWithin_of_unfolds h (not_mem_nil)] at hs
  exact expandWithin_mono (Nat.le_succ _) (nil_subset _) hs

theorem expandAliases_of_unfoldsTo {e : TypeExpr} (h : r.UnfoldsTo t e)
    (hs : r.expandAliases t = .ok s) : r.expandAliases e = .ok s := by
  induction h with
  | refl => exact hs
  | tail _ hstep ih =>
    obtain ⟨n, hunfolds⟩ := hstep
    exact expandAliases_of_unfolds hunfolds ih

theorem classifyExpanded_of_unfoldsTo {e : TypeExpr} (h : r.UnfoldsTo t e)
    (hw : r.classifyExpanded t = .ok w) : r.classifyExpanded e = .ok w := by
  obtain ⟨s, hs, hlayer⟩ := classifyExpanded_eq_ok.mp hw
  exact classifyExpanded_eq_ok.mpr ⟨s, expandAliases_of_unfoldsTo h hs, hlayer⟩

/-- A built-in wrapper is what is seen behind aliases. -/
theorem BuiltIn.layer (h : r.BuiltIn head)
    (hw : r.classifyExpanded (.app head args) = .ok w) : Layer r head args w := by
  obtain ⟨s, hs, hlayer⟩ := classifyExpanded_eq_ok.mp hw
  rw [expandAliases, expandWithin_of_atHead (h.atHead args), Except.ok.injEq] at hs
  subst hs
  exact layer_of_classify_ok hlayer

theorem Layer.inner_eq {x : TypeExpr} (h : Layer r head [x] w) (hwraps : r.headKind head ≠ .plain) :
    w.inner = x := by
  have hargs := h.args_eq (h.kind_eq ▸ hwraps)
  exact (cons.inj hargs).1.symm

section Replaced

variable {s e t t' : TypeExpr}

/-- The layer behind aliases stays in its kind and target. -/
theorem layer_of_replaces (he : r.UnfoldsTo s e) (h : r.Replaces s e t t') {w' : Wrapped}
    (hw : r.classifyExpanded t = .ok w) (hw' : r.classifyExpanded t' = .ok w') :
    w'.kind = w.kind ∧ target? w' = target? w := by
  cases h with
  | here =>
    obtain rfl := Except.ok.inj (hw'.symm.trans (classifyExpanded_of_unfoldsTo he hw))
    exact ⟨rfl, rfl⟩
  | @under head x x' hhead h =>
    have hkind := (hhead.layer hw).kind_eq
    have hkind' := (hhead.layer hw').kind_eq
    have hnone : ∀ v : Wrapped, v.kind = r.headKind head → target? v = none := by
      intro v hv
      simp [target?, hv, hhead.holds]
    exact ⟨hkind'.trans hkind.symm, (hnone w' hkind').trans (hnone w hkind).symm⟩

/-- The link follows aliases, so it stays. -/
theorem link_of_replaces (he : r.UnfoldsTo s e) (h : r.Replaces s e t t')
    {found found' : Option ScopedName} (hfound : r.link t = .ok found)
    (hfound' : r.link t' = .ok found') : found' = found := by
  obtain ⟨w, hw, hlink⟩ := link_eq_ok.mp hfound
  obtain ⟨w', hw', hlink'⟩ := link_eq_ok.mp hfound'
  obtain ⟨hkind, htarget⟩ := layer_of_replaces he h hw hw'
  by_cases hoptional : w.kind = .optional
  · cases h with
    | here =>
      obtain rfl := Except.ok.inj (hw'.symm.trans (classifyExpanded_of_unfoldsTo he hw))
      exact Except.ok.inj (hlink'.symm.trans hlink)
    | under hhead h =>
      rw [layerLink, if_pos hoptional] at hlink
      rw [layerLink, if_pos (hkind.trans hoptional)] at hlink'
      obtain ⟨v, hv, rfl⟩ := map_eq_ok.mp hlink
      obtain ⟨v', hv', rfl⟩ := map_eq_ok.mp hlink'
      rw [(hhead.layer hw).inner_eq hhead.wraps] at hv
      rw [(hhead.layer hw').inner_eq hhead.wraps] at hv'
      exact (layer_of_replaces he h hv hv').2
  · rw [layerLink, if_neg hoptional, Except.ok.injEq] at hlink
    rw [layerLink, if_neg (hkind ▸ hoptional), Except.ok.injEq] at hlink'
    rw [← hlink, ← hlink', htarget]

theorem mem_pointsTo_of_replaces (h : r.Replaces s e t t') :
    (n ∈ r.pointsTo t ↔ n ∈ r.pointsTo s) ∧ (n ∈ r.pointsTo t' ↔ n ∈ r.pointsTo e) := by
  induction h with
  | here => exact ⟨Iff.rfl, Iff.rfl⟩
  | under hhead _ ih =>
    have hinside := looksInside_of_wrapper hhead.wraps hhead.holds
    simpa [mem_pointsTo_app hhead.holds, hinside] using ih

end Replaced

/-! ## Uses of aliases -/

/-- An alias that is no reference wrapper, applied to arguments, with its definition
and what it stands for there. -/
structure AliasUse (r : Resolver) where
  name : ScopedName
  args : List TypeExpr
  decl : ScopedDecl
  params : List String
  body : TypeExpr
  env : Env
  expansion : TypeExpr
  resolves : r.store.resolve name = .ok decl
  defines : decl.decl.body = .synonym params body
  noWrapper : r.wrappers.isReference name = false
  binds : Env.bind name params args = .ok env
  expands : body.substitute env = .ok expansion

namespace AliasUse

variable (u : r.AliasUse)

def written : TypeExpr := .ref u.name u.args

/-- The definition points to `n`, or the arguments add it to what the definition
points to. -/
def Brings (n : ScopedName) : Prop := n ∈ r.pointsTo u.body ∨ r.Gains u.env u.body n

theorem unfolds : r.Unfolds u.written u.name u.expansion :=
  ⟨rfl, u.noWrapper, u.decl, u.params, u.body, u.env, u.resolves, u.defines, u.binds, u.expands⟩

/-- Of an alias only the arguments are searched. -/
theorem mem_pointsTo_written : n ∈ r.pointsTo u.written ↔ ∃ a ∈ u.args, n ∈ r.pointsTo a := by
  have hholds : r.headKind (.reference u.name) ≠ .reference := by
    rw [headKind]
    split_ifs with _ hreference
    · simp
    · simp [u.noWrapper] at hreference
    · simp
  have hinside : r.looksInside (.reference u.name) = true := by
    unfold looksInside
    split <;> simp_all
  rw [written, ref, mem_pointsTo_app hholds, hinside, eq_self, true_and]

end AliasUse

theorem link_of_concreteField_ok (h : r.concreteField owner f t = .ok c) :
    r.link t = .ok c.link := by
  obtain ⟨layer, _, h⟩ := bind_eq_ok.mp h
  obtain ⟨found, _, h⟩ := bind_eq_ok.mp h
  obtain ⟨core, _, h⟩ := bind_eq_ok.mp h
  obtain ⟨link, hlink, rfl⟩ := bind_pure_eq_ok.mp h
  exact hlink

theorem mem_references_of_concreteField (h : r.concreteField owner f t = .ok c) :
    n ∈ c.references ↔ c.link = some n ∨ n ∈ r.pointsTo t := by
  obtain ⟨found, link, hfound, hlink, hmem⟩ := exists_references_of_concreteField_ok h
  obtain rfl := Except.ok.inj (hlink.symm.trans (link_of_concreteField_ok h))
  rw [hmem n, mem_references_iff hfound, or_comm]

/-- A field whose type has an alias, at the head or under built-in wrappers, and the
same field with the alias replaced by what it stands for have the same link.  Beyond
the link, the one refers to what the arguments of the alias point to and the other to
what its expansion points to, so the references are the same exactly when no target
but the link is in one of these and not in the other. -/
theorem references_behind_alias (u : r.AliasUse) {e t t' : TypeExpr}
    (he : r.UnfoldsTo u.expansion e) (hplace : r.Replaces u.written e t t')
    {owner : ScopedName} {f : Field} {c c' : ConcreteField}
    (hc : r.concreteField owner f t = .ok c) (hc' : r.concreteField owner f t' = .ok c') :
    c'.link = c.link ∧
      (∀ n, n ∈ c.references ↔ c.link = some n ∨ ∃ a ∈ u.args, n ∈ r.pointsTo a) ∧
      (∀ n, n ∈ c'.references ↔ c.link = some n ∨ n ∈ r.pointsTo e) ∧
      (∀ n, n ∈ r.pointsTo u.expansion ↔ u.Brings n) ∧
      ((∀ n, n ∈ c.references ↔ n ∈ c'.references) ↔
        ∀ n, c.link ≠ some n → ((∃ a ∈ u.args, n ∈ r.pointsTo a) ↔ n ∈ r.pointsTo e)) := by
  have hunfolds : r.UnfoldsTo u.written e := .head ⟨u.name, u.unfolds⟩ he
  have hsame : c'.link = c.link :=
    link_of_replaces hunfolds hplace (link_of_concreteField_ok hc) (link_of_concreteField_ok hc')
  have hwritten : ∀ n, n ∈ c.references ↔ c.link = some n ∨ ∃ a ∈ u.args, n ∈ r.pointsTo a := by
    intro n
    rw [mem_references_of_concreteField hc, (mem_pointsTo_of_replaces hplace).1,
      u.mem_pointsTo_written]
  have hexpanded : ∀ n, n ∈ c'.references ↔ c.link = some n ∨ n ∈ r.pointsTo e := by
    intro n
    rw [mem_references_of_concreteField hc', (mem_pointsTo_of_replaces hplace).2, hsame]
  refine ⟨hsame, hwritten, hexpanded, fun n => mem_pointsTo_substitute u.expands, ?_⟩
  constructor
  · intro h n hn
    have hiff := h n
    rwa [hwritten, hexpanded, or_iff_right hn, or_iff_right hn] at hiff
  · intro h n
    rw [hwritten, hexpanded]
    by_cases hn : c.link = some n
    · simp [hn]
    · rw [or_iff_right hn, or_iff_right hn]
      exact h n hn

/-! ## A list of keys -/

def keyOf : ScopedDecl :=
  ⟨"app", ⟨"KeyOf", none, .synonym ["T"] (.ref ⟨"common.db", "DbKey"⟩ [.param "T"]), []⟩⟩

def stockItem : ScopedDecl :=
  ⟨"app", ⟨"Item", none, .struct [] [field "id" text], []⟩⟩

def stock : Resolver :=
  ⟨⟨[⟨"app", [], [stockItem, keyOf].map fun d => (d.decl.name, d.decl), []⟩,
    ⟨"common.db", [], [newtypeDecl "DbKey" ["T"] text], []⟩]⟩, .standard⟩

def itemKey : stock.AliasUse where
  name := keyOf.name
  args := [.ref stockItem.name]
  decl := keyOf
  params := ["T"]
  body := .ref ⟨"common.db", "DbKey"⟩ [.param "T"]
  env := [⟨"T", .ref stockItem.name⟩]
  expansion := .ref ⟨"common.db", "DbKey"⟩ [.ref stockItem.name]
  resolves := rfl
  defines := rfl
  noWrapper := by decide
  binds := rfl
  expands := rfl

/-- A list of what is written; an alias with arguments counts as an instance. -/
def listOfKeys (written : TypeExpr) (monomorphized : Bool) (references : List ScopedName) :
    ConcreteField :=
  ⟨field "keys" (.prim "Vector" [written]), .many, true, monomorphized, none, references,
    ⟨"app", "Order"⟩⟩

theorem builtIn_vector : stock.BuiltIn (.primitive "Vector") where
  wraps := by decide
  holds := by decide
  atHead := nofun

/-- In a list of keys the alias hides the item: the field does not refer to it. -/
theorem references_behind_alias_itemKey :
    (stock.concreteField ⟨"app", "Order"⟩ (field "keys" .missing)
        (.prim "Vector" [itemKey.written]) = .ok (listOfKeys itemKey.written true []) ∧
      stock.concreteField ⟨"app", "Order"⟩ (field "keys" .missing)
        (.prim "Vector" [itemKey.expansion]) =
          .ok (listOfKeys itemKey.expansion false [stockItem.name])) ∧
      itemKey.Brings stockItem.name := by
  have hwritten : stock.concreteField ⟨"app", "Order"⟩ (field "keys" .missing)
      (.prim "Vector" [itemKey.written]) = .ok (listOfKeys itemKey.written true []) := rfl
  have hexpanded : stock.concreteField ⟨"app", "Order"⟩ (field "keys" .missing)
      (.prim "Vector" [itemKey.expansion]) =
        .ok (listOfKeys itemKey.expansion false [stockItem.name]) := rfl
  obtain ⟨_, _, hfound, hbrings, _⟩ := references_behind_alias itemKey .refl
    (.under builtIn_vector .here) hwritten hexpanded
  refine ⟨⟨hwritten, hexpanded⟩, (hbrings stockItem.name).mp ?_⟩
  exact ((hfound stockItem.name).mp mem_cons_self).resolve_left nofun

end SchemaCompiler.Resolver
