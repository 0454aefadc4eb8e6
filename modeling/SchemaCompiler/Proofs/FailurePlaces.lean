import SchemaCompiler.Proofs.ExpansionDepth
import SchemaCompiler.Proofs.Flattening

/-!
# The places that failures name

A failed projection was raised at one of the visits that the expansion went
through: the declaration is being expanded already, two of its flattened fields
have one name, a type of its body is refused, or the visit that such a type leads
to has failed.  On the way out each visit fills in what the failure does not know
yet, its own declaration and the field it was at.

Both are filled in apart from each other.  So the declaration that a failure names
is the one that declares the field it names, unless the failure was raised at a
place without a field: inside the definition of an alias or new type, at a field
with an empty name, or under a declaration that it named itself.  The field then
comes from a visit further out.
-/

namespace SchemaCompiler

open List Store Standard

open Outcome (FailsOnly failsOnly_ok failsOnly_error)

theorem Failure.located_eq_resolve {failure : Failure} {decl d : ScopedName} {field f : String}
    {path p : List String} {rule : Rule} {message : String} {cause : Option Failure}
    (h : failure.located decl field path = .resolve rule d f p message cause) :
    ∃ d' f' p', failure = .resolve rule d' f' p' message cause ∧
      d = (if d' = .blank then decl else d') ∧ f = if f' = "" then field else f' := by
  cases failure with
  | resolve rule d' f' p' message cause =>
    cases h
    exact ⟨d', f', p', rfl, rfl, rfl⟩
  | _ => cases h

namespace Store

variable {s : Store} {n : ScopedName} {d : ScopedDecl} {first second : ConcreteField}

theorem named_of_ofModules_ok {modules : List SchemaModule} (h : ofModules modules = .ok s) :
    ∀ m ∈ s.modules, m.name ≠ "" := by
  refine Outcome.of_foldlM_ok (P := fun s => ∀ m ∈ s.modules, m.name ≠ "") ?_ (forall_mem_nil _) h
  intro s m s' _ hs hadd x hx
  obtain ⟨hname, _, rfl⟩ := add_eq_ok.mp hadd
  rcases mem_of_mem_insertSorted hx with rfl | hx
  · exact hname
  · exact hs x hx

variable (hnamed : ∀ m ∈ s.modules, m.name ≠ "")
include hnamed

theorem key_ne_blank_of_resolve_ok (h : s.resolve n = .ok d) : n ≠ .blank := by
  obtain ⟨m, hm, hname, _⟩ := exists_of_resolve_ok h
  rintro rfl
  exact hnamed m hm hname

theorem name_ne_blank_of_resolve_ok (h : s.resolve n = .ok d) : d.name ≠ .blank := by
  obtain ⟨m, hm, _, hmodule, _⟩ := exists_of_resolve_ok h
  intro hblank
  exact hnamed m hm (hmodule.symm.trans (congrArg ScopedName.moduleName hblank))

end Store

namespace Resolver

variable {r : Resolver} {x y : Visit} {failure : Failure}

/-! ## How a visit fails -/

/-- A place of a visit where a type stands: a field under its name, or the definition of an alias or
new type under no name. -/
inductive Visit.HasPlace (x : Visit) : String → Prop
  | definition {target : TypeExpr} (htarget : x.decl.decl.body.target? = some target) :
      HasPlace x ""
  | field {f : Field} (hshape : x.decl.decl.body.target? = none) (hf : f ∈ x.decl.decl.fields) :
      HasPlace x f.name

/-- A visit fills in its declaration and a place. -/
def Visit.locate (x : Visit) (place : String) (failure : Failure) : Failure :=
  failure.located x.decl.name place (x.trail.enter x.decl).path

def duplication (x : Visit) (first second : ConcreteField) : Failure :=
  .resolve .duplicateField x.decl.name second.name (x.trail.enter x.decl).path
    ("declared by both " ++ first.origin.text ++ " and " ++ second.origin.text) none

/-- What makes a type of a visit fail: an operation that is refused in the ways of `F`, a type that
denotes no struct or union, or an inner visit. -/
inductive Raises (r : Resolver) (F : Failure → Prop) (inner : Inner) (x : Visit) : Failure → Prop
  | refused {failure : Failure} (h : F failure) : Raises r F inner x failure
  | unfit (message : String) : Raises r F inner x
      (.resolve .unsupportedRootKind .blank "" (x.trail.enter x.decl).path message none)
  | inner {y : Visit} {failure : Failure} (hy : r.Inlines x y) (h : inner y = .error failure) :
      Raises r F inner x failure

def RaisesAtPlace (r : Resolver) (F : Failure → Prop) (inner : Inner) (x : Visit)
    (failure : Failure) : Prop :=
  ∃ place cause, x.HasPlace place ∧ r.Raises F inner x cause ∧ failure = x.locate place cause

section Inner

variable {inner : Inner} {F : Failure → Prop} (hF : ∀ failure, r.Objection failure → F failure)

include hF

theorem failsOnly_raises {α : Type} {o : Outcome α} (h : FailsOnly r.Objection o) :
    FailsOnly (r.Raises F inner x) o :=
  h.imp fun failure h => .refused (hF failure h)

theorem failsOnly_expandType {s t : TypeExpr} (hs : s ∈ x.decl.decl.body.inlined)
    (ht : s.substitute x.env = .ok t) :
    FailsOnly (r.Raises F inner x) (r.expandType inner.enter (x.trail.enter x.decl) t) := by
  unfold expandType
  split
  · exact failsOnly_error.mpr (.unfit _)
  · rename_i n hn
    split
    · exact failsOnly_error.mpr (.unfit _)
    · rename_i hwrapper
      refine (failsOnly_raises hF (failsOnly_resolve n)).bind fun e he => ?_
      refine (failsOnly_raises hF (failsOnly_bind he t.args)).bind fun env henv => ?_
      refine fun failure hfailure => .inner ⟨rfl, s, hs, n, t.args, ?_, ?_, he, henv⟩ hfailure
      · rw [ht, ← TypeExpr.eq_app_of_reference? hn]
      · simpa using hwrapper

theorem failsOnly_expandTarget {target : TypeExpr}
    (htarget : x.decl.decl.body.target? = some target) :
    FailsOnly (r.RaisesAtPlace F inner x)
      (r.expandTarget inner.enter (x.trail.enter x.decl) x.decl.name x.env target) := by
  rw [expandTarget_eq]
  refine Outcome.FailsOnly.mapError (F := r.Raises F inner x) ?_ fun cause hcause =>
    ⟨"", cause, .definition htarget, hcause, rfl⟩
  refine (failsOnly_raises hF (failsOnly_substitute x.env target)).bind fun t ht => ?_
  exact failsOnly_expandType hF (Body.target_mem_inlined htarget) ht

variable (hfield : ∀ f ∈ x.decl.decl.fields, ∀ t, f.typeExpr.substitute x.env = .ok t →
  FailsOnly F (r.concreteField x.decl.name f t))

include hfield

theorem failsOnly_expandField {f : Field} (hf : f ∈ x.decl.decl.fields) :
    FailsOnly (r.Raises F inner x)
      (r.expandField inner.enter (x.trail.enter x.decl) x.decl.name x.env f) := by
  refine (failsOnly_raises hF (failsOnly_substitute x.env f.typeExpr)).bind fun t ht => ?_
  refine (failsOnly_raises hF (failsOnly_checkArity t)).bind fun _ _ => ?_
  cases hspread : f.annotations.has spreadKey with
  | true =>
    exact (failsOnly_expandType hF (Body.mem_inlined_of_spread hf hspread) ht).bind_pure
  | false => exact ((hfield f hf t ht).imp fun _ => .refused).bind_pure

theorem failsOnly_expandFields (hshape : x.decl.decl.body.target? = none) {fields : List Field}
    (hfields : fields ⊆ x.decl.decl.fields) :
    FailsOnly (r.RaisesAtPlace F inner x)
      (r.expandFields inner.enter (x.trail.enter x.decl) x.decl.name x.env fields) := by
  induction fields with
  | nil => exact failsOnly_ok
  | cons f rest ih =>
    obtain ⟨hf, hrest⟩ := cons_subset.mp hfields
    rw [expandFields_cons]
    refine ((failsOnly_expandField hF hfield hf).mapError fun cause hcause => ?_).bind
      fun found _ => ?_
    · exact ⟨f.name, cause, .field hshape hf, hcause, rfl⟩
    · exact (ih hrest).bind_pure

/-- Whatever the inner visits give, a visit fails at one of its places, or because two of the fields
that were found have one name. -/
theorem exists_of_inside_error (h : r.inside inner x = .error failure) :
    r.RaisesAtPlace F inner x failure ∨
    (x.decl.decl.body.target? = none ∧ ∃ found first second,
      r.expandFields inner.enter (x.trail.enter x.decl) x.decl.name x.env x.decl.decl.fields =
        .ok found ∧
      clash? [] found = some (first, second) ∧ failure = duplication x first second) := by
  unfold inside at h
  split at h
  · rename_i target htarget
    exact .inl (failsOnly_expandTarget hF htarget failure h)
  · rename_i hshape
    rcases Outcome.bind_eq_error.mp h with h | ⟨_, _, h⟩
    · rw [shapeFields_eq] at h
      rcases Outcome.bind_eq_error.mp h with h | ⟨found, hfound, h⟩
      · exact .inl (failsOnly_expandFields hF hfield hshape (Subset.refl _) failure h)
      · unfold distinctFields at h
        split at h
        · cases h
        · rename_i first second hclash
          exact .inr ⟨hshape, found, first, second, hfound, hclash, (Except.error.inj h).symm⟩
    · cases h

end Inner

/-- How the expansion of a declaration fails. -/
inductive FailsAt (r : Resolver) : Visit → Failure → Prop
  | repeated {x : Visit} (hactive : x.decl.name ∈ x.trail.active) : FailsAt r x (repetition x)
  | clash {x : Visit} {found : List ConcreteField} {first second : ConcreteField}
      (hshape : x.decl.decl.body.target? = none)
      (hfound : r.Flattening x.decl.name x.env x.decl.decl.fields
        (found.map ConcreteField.placed))
      (hclash : clash? [] found = some (first, second)) :
      FailsAt r x (duplication x first second)
  | refused {x : Visit} {place : String} {failure : Failure} (hplace : x.HasPlace place)
      (h : r.Refusal failure) : FailsAt r x (x.locate place failure)
  | unfit {x : Visit} {place : String} (hplace : x.HasPlace place) (message : String) :
      FailsAt r x (x.locate place
        (.resolve .unsupportedRootKind .blank "" (x.trail.enter x.decl).path message none))
  | inner {x y : Visit} {place : String} {failure : Failure} (hplace : x.HasPlace place)
      (hy : r.Inlines x y) (h : FailsAt r y failure) : FailsAt r x (x.locate place failure)

/-- By induction on the budget, which is not used up. -/
theorem failsAt_of_expand_error {budget : Nat} (hrank : r.visitRank x < budget)
    (h : r.expand budget x.trail x.decl x.env = .error failure) : r.FailsAt x failure := by
  induction budget generalizing x failure with
  | zero => cases hrank
  | succ budget ih =>
    rw [expand_succ, visit] at h
    split_ifs at h with hactive
    · cases h
      exact .repeated hactive
    rcases exists_of_inside_error (fun _ => .objection)
        (fun f _ t _ => failsOnly_concreteField x.decl.name f t) h with
      ⟨place, cause, hplace, hcause, rfl⟩ | ⟨hshape, found, first, second, hfound, hclash, rfl⟩
    · cases hcause with
      | refused hrefusal => exact .refused hplace hrefusal
      | unfit message => exact .unfit hplace message
      | inner hy hinner =>
        have hless := visitRank_of_calls ⟨hactive, hy⟩
        exact .inner hplace hy (ih (Nat.lt_of_lt_of_le hless (Nat.le_of_lt_succ hrank)) hinner)
    · refine .clash hshape ?_ hclash
      exact flattening_of_expandFields_ok (fun _ _ _ _ hx => isFlat_of_expand_ok hx) hfound

theorem failsAt_of_project_error {d : ScopedDecl} {env : Env}
    (h : r.project d env = .error failure) : r.FailsAt (firstVisit d env) failure := by
  rw [project_eq_map] at h
  cases hx : r.expand r.expansionBudget ⟨[], []⟩ d env with
  | ok x =>
    rw [hx] at h
    cases h
  | error cause =>
    rw [hx] at h
    cases h
    exact failsAt_of_expand_error (visitRank_firstVisit_lt d env) hx

/-! ## Where the place comes from -/

theorem exists_of_clash?_some {earlier fields : List ConcreteField}
    (h : clash? earlier fields = some (first, second)) :
    ∃ before after, fields = before ++ second :: after ∧ first ∈ earlier ++ before ∧
      first.name = second.name := by
  induction fields generalizing earlier with
  | nil => cases h
  | cons f rest ih =>
    rw [clash?] at h
    split at h
    · rename_i hfind
      cases h
      refine ⟨[], rest, rfl, ?_, by simpa using find?_some hfind⟩
      exact mem_append_left _ (mem_of_find?_eq_some hfind)
    · obtain ⟨before, after, rfl, hfirst, hname⟩ := ih h
      exact ⟨f :: before, after, rfl, by simpa using hfirst, hname⟩

/-- The flattened fields of a visited struct or union have a name twice. -/
def RepeatsName (r : Resolver) (x : Visit) (field : String) : Prop :=
  ∃ placed before after, r.Flattening x.decl.name x.env x.decl.decl.fields placed ∧
    placed.map (·.2.name) = before ++ field :: after ∧ field ∈ before

/-- A visit gives a failure the name of a declaration and leaves the field open. -/
inductive LeavesOpen (r : Resolver) (x : Visit) : Rule → ScopedName → String → Prop
  /-- It is the definition of an alias or new type that is at fault. -/
  | behind {rule : Rule} {message : String} (h : x.decl.decl.body.target?.isSome) :
      LeavesOpen r x rule x.decl.name message
  /-- The field at fault has an empty name. -/
  | nameless {rule : Rule} {message : String} {f : Field} (hf : f ∈ x.decl.decl.fields)
      (hname : f.name = "") : LeavesOpen r x rule x.decl.name message
  | namelessTwice {message : String} (h : r.RepeatsName x "") :
      LeavesOpen r x .duplicateField x.decl.name message
  /-- The declaration in use takes another number of arguments. -/
  | miscounted {n : ScopedName} {e : ScopedDecl} {supplied : Nat}
      (he : r.store.resolve n = .ok e) (hcount : e.decl.params.length ≠ supplied) :
      LeavesOpen r x .arityMismatch n (Env.arityMessage n e.decl.params.length supplied)
  | cyclic {n : ScopedName} {e : ScopedDecl} {params : List String} {target : TypeExpr}
      (he : r.store.resolve n = .ok e) (hbody : e.decl.body = .synonym params target) :
      LeavesOpen r x .unsupportedRootKind n "cyclic type alias"
  | repeated (hactive : x.decl.name ∈ x.trail.active) :
      LeavesOpen r x .unsupportedRootKind x.decl.name Failure.repetitionText

/-- The struct or union declares the field, and it is named, or a visit below it
left the field open. -/
def Declares (r : Resolver) (z : Visit) (rule : Rule) (decl : ScopedName) (field message : String) :
    Prop :=
  ∃ f ∈ z.decl.decl.fields, f.name = field ∧
    (decl = z.decl.name ∨
      ∃ y, Relation.ReflTransGen r.Inlines z y ∧ r.LeavesOpen y rule decl message)

/-- What the place in a failure of a visit says. -/
structure Placement (r : Resolver) (x : Visit) (rule : Rule) (decl : ScopedName)
    (field message : String) : Prop where
  named : decl = .blank → x.decl.name = .blank
  leftOpen : field = "" →
    ∃ y, Relation.ReflTransGen r.Inlines x y ∧ r.LeavesOpen y rule decl message
  declared : field ≠ "" → ∃ z, Relation.ReflTransGen r.Inlines x z ∧
    z.decl.decl.body.target? = none ∧
    ((rule = .duplicateField ∧ decl = z.decl.name ∧ r.RepeatsName z field) ∨
      r.Declares z rule decl field message)

section Placement

variable {rule : Rule} {decl : ScopedName} {place field message : String}

/-- A failure that knew no place. -/
theorem Placement.own (hplace : x.HasPlace place) :
    r.Placement x rule x.decl.name place message where
  named := id
  leftOpen hempty := by
    refine ⟨x, .refl, ?_⟩
    cases hplace with
    | definition htarget => exact .behind (Option.isSome_of_eq_some htarget)
    | field _ hf => exact .nameless hf hempty
  declared hne := by
    cases hplace with
    | definition => exact absurd rfl hne
    | @field f hshape hf => exact ⟨x, .refl, hshape, .inr ⟨f, hf, rfl, .inl rfl⟩⟩

/-- A failure that knew a declaration and no field. -/
theorem Placement.of_leavesOpen (hplace : x.HasPlace place) (hdecl : decl ≠ .blank)
    (hopen : ∃ y, Relation.ReflTransGen r.Inlines x y ∧ r.LeavesOpen y rule decl message) :
    r.Placement x rule decl place message where
  named hblank := absurd hblank hdecl
  leftOpen _ := hopen
  declared hne := by
    cases hplace with
    | definition => exact absurd rfl hne
    | @field f hshape hf => exact ⟨x, .refl, hshape, .inr ⟨f, hf, rfl, .inr hopen⟩⟩

/-- The place that an inner visit knew is kept, and completed by a field. -/
theorem Placement.outer (h : r.Placement y rule decl field message) (hplace : x.HasPlace place)
    (hxy : r.Inlines x y) (hy : y.decl.name ≠ .blank) :
    r.Placement x rule decl (if field = "" then place else field) message := by
  have hdecl : decl ≠ .blank := fun hblank => hy (h.named hblank)
  split_ifs with hempty
  · obtain ⟨z, hyz, hz⟩ := h.leftOpen hempty
    exact .of_leavesOpen hplace hdecl ⟨z, .head hxy hyz, hz⟩
  · refine ⟨fun hblank => absurd hblank hdecl, fun h => absurd h hempty, fun hne => ?_⟩
    obtain ⟨z, hyz, hz⟩ := h.declared hne
    exact ⟨z, .head hxy hyz, hz⟩

theorem repeatsName_of_clash {found : List ConcreteField}
    (hfound : r.Flattening x.decl.name x.env x.decl.decl.fields (found.map ConcreteField.placed))
    (hclash : clash? [] found = some (first, second)) : r.RepeatsName x second.name := by
  obtain ⟨before, after, rfl, hfirst, hname⟩ := exists_of_clash?_some hclash
  refine ⟨_, before.map (·.name), after.map (·.name), hfound, ?_, ?_⟩
  · rw [map_map, map_append, map_cons]
    rfl
  · rw [nil_append] at hfirst
    exact hname ▸ mem_map_of_mem hfirst

/-- By induction on how the failure came about: what is known stays, and the rest is filled in. -/
theorem FailsAt.placement (hnamed : ∀ m ∈ r.store.modules, m.name ≠ "")
    (h : r.FailsAt x failure) {path : List String} {cause : Option Failure}
    (hfailure : failure = .resolve rule decl field path message cause) :
    r.Placement x rule decl field message := by
  induction h generalizing rule decl field path message cause with
  | repeated hactive =>
    cases hfailure
    exact ⟨id, fun _ => ⟨_, .refl, .repeated hactive⟩, fun hne => absurd rfl hne⟩
  | clash hshape hfound hclash =>
    cases hfailure
    have hrepeats := repeatsName_of_clash hfound hclash
    exact ⟨id, fun hempty => ⟨_, .refl, .namelessTwice (hempty ▸ hrepeats)⟩,
      fun _ => ⟨_, .refl, hshape, .inl ⟨rfl, rfl, hrepeats⟩⟩⟩
  | refused hplace hrefusal =>
    obtain ⟨d, f, p, rfl, rfl, rfl⟩ := Failure.located_eq_resolve hfailure
    obtain ⟨hobjection⟩ := hrefusal
    cases hobjection with
    | unplaced => exact .own hplace
    | miscounted he hcount =>
      have hn := key_ne_blank_of_resolve_ok hnamed he
      rw [if_neg hn]
      exact .of_leavesOpen hplace hn ⟨_, .refl, .miscounted he hcount⟩
    | cyclic he hbody =>
      have hn := key_ne_blank_of_resolve_ok hnamed he
      rw [if_neg hn]
      exact .of_leavesOpen hplace hn ⟨_, .refl, .cyclic he hbody⟩
  | unfit hplace =>
    cases hfailure
    exact .own hplace
  | @inner x y place failure hplace hxy _ ih =>
    obtain ⟨d, f, p, rfl, rfl, rfl⟩ := Failure.located_eq_resolve hfailure
    obtain ⟨_, _, _, n, _, _, _, hresolve, _⟩ := id hxy
    have hy := name_ne_blank_of_resolve_ok hnamed hresolve
    have hinner := ih rfl
    rw [if_neg fun hblank => hy (hinner.named hblank)]
    exact hinner.outer hplace hxy hy

end Placement

/-- A failed projection that names a field names it as one that a visited struct
or union declares, or that its flattened fields have twice.  The declaration it
names is that struct or union, or the one of an inner visit that left the field
open. -/
theorem failure_names_field {modules : List SchemaModule}
    (hstore : ofModules modules = .ok r.store) {d : ScopedDecl} {env : Env} {rule : Rule}
    {decl : ScopedName} {field message : String} {path : List String} {cause : Option Failure}
    (h : r.project d env = .error (.resolve rule decl field path message cause))
    (hfield : field ≠ "") :
    ∃ z, Relation.ReflTransGen r.Inlines (firstVisit d env) z ∧
      z.decl.decl.body.target? = none ∧
      ((rule = .duplicateField ∧ decl = z.decl.name ∧ r.RepeatsName z field) ∨
        r.Declares z rule decl field message) := by
  have hplacement := (failsAt_of_project_error h).placement
    (named_of_ofModules_ok hstore) rfl
  exact hplacement.declared hfield

/-! ## A spread field behind an alias -/

def tag : ScopedDecl := ⟨"app", (aliasDecl "Tag" text).2⟩

def tagged : ScopedDecl :=
  ⟨"app", (structDecl "Tagged" [] [{ field "tag" (.ref tag.name []) with
    annotations := [⟨spreadKey, .absent⟩] }]).2⟩

def tagging : Resolver :=
  ⟨⟨[moduleOf "app" ([tag, tagged].map fun d => (d.decl.name, d.decl))]⟩, .standard⟩

/-- The failure names the alias, which has no fields, and the field of the struct. -/
theorem failure_names_field_tagged :
    ofModules tagging.store.modules = .ok tagging.store ∧
    tagging.project tagged [] = .error (.resolve .unsupportedRootKind tag.name "tag"
      ["struct_:Tagged", "type_:Tag"] "String does not denote a struct or union" none) ∧
    tag.decl.fields = [] ∧
    ∃ z, Relation.ReflTransGen tagging.Inlines (firstVisit tagged []) z ∧
      tagging.Declares z .unsupportedRootKind tag.name "tag"
        "String does not denote a struct or union" := by
  have hstore : ofModules tagging.store.modules = .ok tagging.store := rfl
  have hfails : tagging.project tagged [] = .error (.resolve .unsupportedRootKind tag.name "tag"
      ["struct_:Tagged", "type_:Tag"] "String does not denote a struct or union" none) := rfl
  refine ⟨hstore, hfails, rfl, ?_⟩
  obtain ⟨z, hz, _, ⟨hrule, _⟩ | hdeclares⟩ := failure_names_field hstore hfails (by decide)
  · cases hrule
  · exact ⟨z, hz, hdeclares⟩

end Resolver

end SchemaCompiler
