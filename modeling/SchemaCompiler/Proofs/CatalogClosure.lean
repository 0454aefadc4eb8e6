import SchemaCompiler.Ddl.Catalog
import SchemaCompiler.Proofs.ExpansionDepth

/-!
# What a catalog describes

A catalog describes the declarations of the tables and views of a schema and all
that these depend on.  Describing follows the references depth first and shares
one list of names that are done.  It is the same as working off one list of
waiting names, in front of which the references of a declaration are put when it
is described; so whatever a described declaration refers to is done or waiting.
-/

namespace SchemaCompiler

open Outcome List Standard

/-! ## References -/

/-- The declarations that a type names, outermost first. -/
def TypeExpr.declNames (t : TypeExpr) : List ScopedName :=
  t.walk.filterMap reference?

theorem TypeExpr.declNames_app (head : TypeRef) (args : List TypeExpr) :
    (app head args).declNames =
      (app head args).reference?.toList ++ args.flatMap declNames := by
  rw [declNames, walk, walkAll_eq_flatMap, filterMap_cons, filterMap_flatMap]
  cases (app head args).reference? with
  | none | some n => rfl

/-- The declarations that a declaration names anywhere in its fields, or in what it
stands for. -/
def ScopedDecl.declNames (d : ScopedDecl) : List ScopedName :=
  d.decl.body.typeExprs.flatMap TypeExpr.declNames

namespace Store

/-- One declaration names the other. -/
def DependsOn (s : Store) (d e : ScopedDecl) : Prop :=
  ∃ n ∈ d.declNames, s.resolve n = .ok e

/-- Whatever a declaration names is there. -/
def Complete (s : Store) : Prop :=
  ∀ d ∈ s.allDecls, ∀ n ∈ d.declNames, ∃ e, s.resolve n = .ok e

instance (s : Store) : Decidable s.Complete :=
  decidable_of_iff (∀ d ∈ s.allDecls, ∀ n ∈ d.declNames, (s.resolve n).isOk = true) (by
    simp only [Outcome.isOk_iff, Complete])

/-- One of the names, or what it depends on through any number of declarations. -/
def Reached (s : Store) (names : List ScopedName) (d : ScopedDecl) : Prop :=
  ∃ n ∈ names, ∃ e, s.resolve n = .ok e ∧ Relation.ReflTransGen s.DependsOn e d

end Store

/-- The text of a declaration in a catalog; a failure says which declaration it is. -/
def ScopedDecl.encoded (d : ScopedDecl) : Outcome String :=
  (d.decl.toJson.bind Json.encode).mapError fun failure =>
    .context ("encode " ++ d.name.text) failure

namespace Ddl

variable {store : Store} {n : ScopedName} {d : ScopedDecl} {so so' : Described} {budget : Nat}

theorem bodyTypes_eq (d : Declaration) : bodyTypes d = d.body.typeExprs := by
  rw [bodyTypes, Body.typeExprs, Declaration.fields]
  cases d.body with
  | struct | union | synonym | newtype => rfl

def Described.add (so : Described) (d : ScopedDecl) (text : String) : Described :=
  ⟨d.name :: so.done, so.rows ++ [declRow d text]⟩

/-! ## One step -/

/-- Describes the declaration of a name. -/
def describeName (store : Store) (describe : Describe) (so : Described) (n : ScopedName) :
    Outcome Described :=
  (store.resolve n).bind fun d => describe d so

theorem describeTypes_eq_of_forall {describe : Describe} {ts : List TypeExpr}
    (h : ∀ t ∈ ts, ∀ so, describeType store describe t so =
      t.declNames.foldlM (describeName store describe) so) (so : Described) :
    describeTypes store describe ts so =
      (ts.flatMap TypeExpr.declNames).foldlM (describeName store describe) so := by
  induction ts generalizing so with
  | nil => rfl
  | cons t ts ih =>
    rw [describeTypes, h t mem_cons_self so, flatMap_cons, foldlM_append]
    cases t.declNames.foldlM (describeName store describe) so with
    | error failure => rfl
    | ok so => exact ih (fun t ht => h t (mem_cons_of_mem _ ht)) so

theorem describeType_eq (describe : Describe) (t : TypeExpr) (so : Described) :
    describeType store describe t so = t.declNames.foldlM (describeName store describe) so := by
  induction t using TypeExpr.inductionOn generalizing so with
  | hmissing => rfl
  | happ head args ih =>
    rw [TypeExpr.declNames_app]
    cases head with
    | primitive name | param name => exact describeTypes_eq_of_forall ih so
    | reference m =>
      rw [describeType, foldlM_append]
      change _ = (describeName store describe so m >>= pure) >>= _
      rw [describeName]
      cases store.resolve m with
      | error failure => rfl
      | ok d =>
        change _ = (describe d so >>= pure) >>= _
        cases hd : describe d so with
        | error failure =>
          simp only [hd]
          rfl
        | ok so =>
          simp only [hd]
          exact describeTypes_eq_of_forall ih so

/-- A declaration is described unless it is done, and then what it names. -/
theorem describe_succ (budget : Nat) (d : ScopedDecl) (so : Described) :
    describe store (budget + 1) d so =
      if d.name ∈ so.done then .ok so
      else d.encoded.bind fun text =>
        d.declNames.foldlM (describeName store (describe store budget)) (so.add d text) := by
  rw [describe, contains_eq_mem, bodyTypes_eq, ScopedDecl.encoded]
  by_cases hdone : d.name ∈ so.done
  · rw [if_pos hdone, if_pos (decide_eq_true hdone)]
  · rw [if_neg hdone, if_neg (by simpa using hdone)]
    cases d.decl.toJson.bind Json.encode with
    | error failure => rfl
    | ok text =>
      exact describeTypes_eq_of_forall (fun t _ => describeType_eq _ t) (so.add d text)

/-- What every description keeps, describing a declaration with all it depends on
keeps. -/
theorem of_describe_ok {P : Described → Prop}
    (hadd : ∀ so d text, d.name ∉ so.done → d.encoded = .ok text → P so → P (so.add d text))
    (h : describe store budget d so = .ok so') (hso : P so) : P so' := by
  induction budget generalizing d so so' with
  | zero =>
    obtain rfl := pure_eq_ok.mp h
    exact hso
  | succ budget ih =>
    rw [describe_succ] at h
    split at h
    · obtain rfl := pure_eq_ok.mp h
      exact hso
    · rename_i hnew
      obtain ⟨text, htext, h⟩ := bind_eq_ok.mp h
      refine of_foldlM_ok (fun so n so' _ hso hstep => ?_) (hadd so d text hnew htext hso) h
      obtain ⟨e, _, he⟩ := bind_eq_ok.mp hstep
      exact ih he hso

theorem done_subset_of_describe_ok (h : describe store budget d so = .ok so') :
    so.done ⊆ so'.done :=
  of_describe_ok (P := fun x => so.done ⊆ x.done)
    (fun _ _ _ _ _ hso => subset_cons_of_subset _ hso) h (Subset.refl _)

/-! ## Waiting names -/

/-- Working off the waiting names without a bound on the steps.  A declaration that
is not done is described, and what it names waits in front of the rest. -/
inductive Walks (store : Store) : List ScopedName → Described → Outcome Described → Prop
  | finished (so : Described) : Walks store [] so (.ok so)
  | unknown {n : ScopedName} {waiting : List ScopedName} {so : Described} {failure : Failure}
      (hn : store.resolve n = .error failure) : Walks store (n :: waiting) so (.error failure)
  | known {n : ScopedName} {waiting : List ScopedName} {so : Described} {d : ScopedDecl}
      {outcome : Outcome Described} (hn : store.resolve n = .ok d) (hdone : d.name ∈ so.done)
      (hrest : Walks store waiting so outcome) : Walks store (n :: waiting) so outcome
  | refused {n : ScopedName} {waiting : List ScopedName} {so : Described} {d : ScopedDecl}
      {failure : Failure} (hn : store.resolve n = .ok d) (hnew : d.name ∉ so.done)
      (htext : d.encoded = .error failure) : Walks store (n :: waiting) so (.error failure)
  | described {n : ScopedName} {waiting : List ScopedName} {so : Described} {d : ScopedDecl}
      {text : String} {outcome : Outcome Described} (hn : store.resolve n = .ok d)
      (hnew : d.name ∉ so.done) (htext : d.encoded = .ok text)
      (hrest : Walks store (d.declNames ++ waiting) (so.add d text) outcome) :
      Walks store (n :: waiting) so outcome

variable {waiting names : List ScopedName} {outcome : Outcome Described}

theorem Walks.unique (h : Walks store waiting so outcome) {other : Outcome Described}
    (hother : Walks store waiting so other) : outcome = other := by
  induction h with
  | finished => cases hother; rfl
  | unknown hn
  | known hn hdone _ ih
  | refused hn hnew htext
  | described hn hnew htext _ ih => cases hother <;> simp_all

/-- An outcome from which working off the waiting names comes to the outcome of all. -/
def Resumes (store : Store) (waiting : List ScopedName) (outcome : Outcome Described) :
    Outcome Described → Prop
  | .error failure => outcome = .error failure
  | .ok so => Walks store waiting so outcome

theorem walks_of_foldlM {step : Describe}
    (hgrows : ∀ d so so', step d so = .ok so' → so.done ⊆ so'.done)
    (hstep : ∀ n d so waiting, store.resolve n = .ok d → unseen store.keys so.done < budget →
      Resumes store waiting outcome (step d so) → Walks store (n :: waiting) so outcome)
    (hso : unseen store.keys so.done < budget)
    (h : Resumes store waiting outcome (names.foldlM (describeName store step) so)) :
    Walks store (names ++ waiting) so outcome := by
  induction names generalizing so with
  | nil => exact h
  | cons n names ih =>
    rw [foldlM_cons, describeName] at h
    cases hn : store.resolve n with
    | error failure =>
      rw [hn] at h
      obtain rfl : outcome = .error failure := h
      exact .unknown hn
    | ok d =>
      rw [hn] at h
      apply hstep n d so (names ++ waiting) hn hso
      change Resumes store waiting outcome (step d so >>= _) at h
      cases hd : step d so with
      | error failure =>
        rw [hd] at h
        exact h
      | ok so' =>
        rw [hd] at h
        exact ih (lt_of_le_of_lt (unseen_le_of_subset (hgrows d so so' hd)) hso) h

theorem walks_of_describe (hnames : store.NamedByKeys) (hn : store.resolve n = .ok d)
    (hso : unseen store.keys so.done < budget)
    (h : Resumes store waiting outcome (describe store budget d so)) :
    Walks store (n :: waiting) so outcome := by
  induction budget generalizing n d so waiting with
  | zero => exact absurd hso (Nat.not_lt_zero _)
  | succ budget ih =>
    rw [describe_succ] at h
    split at h
    · rename_i hdone
      exact .known hn hdone h
    · rename_i hnew
      cases htext : d.encoded with
      | error failure =>
        rw [htext] at h
        obtain rfl : outcome = .error failure := h
        exact .refused hn hnew htext
      | ok text =>
        rw [htext] at h
        -- the budget exceeds the keys that are not done, and a description takes one of them
        have hkey : d.name ∈ store.keys := by
          rw [Store.name_eq_of_resolve_ok hnames hn]
          exact Store.mem_keys_of_resolve_ok hn
        have hless : unseen store.keys (so.add d text).done < unseen store.keys so.done :=
          unseen_cons_lt hkey hnew
        refine .described hn hnew htext (walks_of_foldlM
          (fun d so so' => done_subset_of_describe_ok) (fun n d so waiting => ih) ?_ h)
        omega

end Ddl

/-! ## All entries -/

/-- The declarations of the tables and views are those of the store. -/
structure Schema.Over (s : Schema) (store : Store) : Prop where
  tables : ∀ t ∈ s.tables, store.resolve t.decl.decl.name = .ok t.decl.decl
  views : ∀ v ∈ s.views, store.resolve v.decl.decl.name = .ok v.decl.decl

namespace Ddl

variable {store : Store} {s : Schema} {n : ScopedName} {d : ScopedDecl} {so so' : Described}
  {waiting names : List ScopedName} {failure : Failure} {written : List (ScopedDecl × String)}
  {script text : String}

theorem resolve_entry (hover : s.Over store) {e : Entry} (he : e ∈ entries s) :
    store.resolve e.decl.name = .ok e.decl := by
  rcases mem_append.mp he with he | he
  · obtain ⟨t, ht, rfl⟩ := mem_map.mp he
    exact hover.tables t (mem_of_mem_filter ht)
  · obtain ⟨v, hv, rfl⟩ := mem_map.mp he
    exact hover.views v hv

/-- The names that describing a schema starts from. -/
def entryNames (s : Schema) : List ScopedName :=
  (entries s).map (·.decl.name)

theorem foldlM_entries_eq {es : List Entry}
    (hes : ∀ e ∈ es, store.resolve e.decl.name = .ok e.decl) (step : Describe) (so : Described) :
    es.foldlM (fun so e => step e.decl so) so =
      (es.map (·.decl.name)).foldlM (describeName store step) so := by
  induction es generalizing so with
  | nil => rfl
  | cons e es ih =>
    have he : describeName store step so e.decl.name = step e.decl so := by
      rw [describeName, hes e mem_cons_self]
      rfl
    rw [foldlM_cons, map_cons, foldlM_cons, he]
    congr 1
    funext so
    exact ih (fun e he => hes e (mem_cons_of_mem _ he)) so

/-- Describing all entries is working off their names; the budget is never used up. -/
theorem walks_describeAll (hnames : store.NamedByKeys) (hover : s.Over store) :
    Walks store (entryNames s) ⟨[], []⟩ (describeAll store (entries s)) := by
  have hbudget : unseen store.keys [] < store.keys.length + 2 :=
    lt_of_le_of_lt (unseen_le _ _) (by omega)
  have hall : describeAll store (entries s) = (entryNames s).foldlM
      (describeName store (describe store (store.keys.length + 2))) ⟨[], []⟩ :=
    foldlM_entries_eq (fun e => resolve_entry hover) _ _
  rw [← append_nil (entryNames s)]
  refine walks_of_foldlM (fun d so so' => done_subset_of_describe_ok)
    (fun n d so waiting => walks_of_describe hnames) hbudget ?_
  rw [← hall]
  cases describeAll store (entries s) with
  | error failure => rfl
  | ok so => exact .finished so

/-! ## What is described in the end -/

section Steps

variable {P : List ScopedName → Described → Prop}
  (hknown : ∀ n waiting so d, store.resolve n = .ok d → d.name ∈ so.done →
    P (n :: waiting) so → P waiting so)
  (hdescribed : ∀ n waiting so d text, store.resolve n = .ok d → d.name ∉ so.done →
    d.encoded = .ok text → P (n :: waiting) so → P (d.declNames ++ waiting) (so.add d text))
include hknown hdescribed

/-- What every step keeps holds in the end, or where a failure comes up: at a name that is not
there, or at a declaration that has no text. -/
theorem Walks.rule (h : Walks store waiting so outcome) (hso : P waiting so) :
    (∀ so', outcome = .ok so' → P [] so') ∧
    ∀ failure, outcome = .error failure → ∃ n waiting so, P (n :: waiting) so ∧
      (store.resolve n = .error failure ∨
        ∃ d, store.resolve n = .ok d ∧ d.encoded = .error failure) := by
  induction h with
  | finished so => exact ⟨fun _ h => Except.ok.inj h ▸ hso, fun _ h => by cases h⟩
  | unknown hn =>
    refine ⟨fun _ h => (by cases h), fun _ h => ⟨_, _, _, hso, .inl ?_⟩⟩
    exact Except.error.inj h ▸ hn
  | known hn hdone _ ih => exact ih (hknown _ _ _ _ hn hdone hso)
  | refused hn hnew htext =>
    refine ⟨fun _ h => (by cases h), fun _ h => ⟨_, _, _, hso, .inr ⟨_, hn, ?_⟩⟩⟩
    exact Except.error.inj h ▸ htext
  | described hn hnew htext _ ih => exact ih (hdescribed _ _ _ _ _ hn hnew htext hso)

end Steps

/-- The declarations with their texts that have been described, in order. -/
structure Described.Lists (so : Described) (written : List (ScopedDecl × String)) : Prop where
  rows : so.rows = written.map fun x => declRow x.1 x.2
  done : so.done = (written.map (·.1.name)).reverse
  encoded : ∀ x ∈ written, x.1.encoded = .ok x.2

theorem Described.lists_nil : Described.Lists ⟨[], []⟩ [] :=
  ⟨rfl, rfl, forall_mem_nil _⟩

theorem Described.Lists.add (h : so.Lists written) (htext : d.encoded = .ok text) :
    (so.add d text).Lists (written ++ [(d, text)]) where
  rows := by simp [Described.add, h.rows]
  done := by simp [Described.add, h.done]
  encoded x hx := by
    rcases mem_append.mp hx with hx | hx
    · exact h.encoded x hx
    · obtain rfl := mem_singleton.mp hx
      exact htext

/-- Whatever was described was found in the store and is reached from the names.  The names
themselves, and all names in what was described, are done or wait, and no others wait. -/
structure Progress (store : Store) (names waiting : List ScopedName) (so : Described)
    (written : List (ScopedDecl × String)) : Prop where
  lists : so.Lists written
  nodup : so.done.Nodup
  found : ∀ x ∈ written, store.resolve x.1.name = .ok x.1
  reached : ∀ x ∈ written, store.Reached names x.1
  ahead : ∀ n ∈ waiting, n ∈ names ∨ ∃ x ∈ written, n ∈ x.1.declNames
  start : ∀ n ∈ names, n ∈ so.done ∨ n ∈ waiting
  closed : ∀ x ∈ written, ∀ n ∈ x.1.declNames, n ∈ so.done ∨ n ∈ waiting

theorem Progress.begin (store : Store) (names : List ScopedName) :
    Progress store names names ⟨[], []⟩ [] where
  lists := Described.lists_nil
  nodup := nodup_nil
  found := forall_mem_nil _
  reached := forall_mem_nil _
  ahead _ hn := .inl hn
  start _ hn := .inr hn
  closed := forall_mem_nil _

theorem Progress.reached_of_waiting (h : Progress store names waiting so written)
    (hmem : n ∈ waiting) (hn : store.resolve n = .ok d) : store.Reached names d := by
  rcases h.ahead n hmem with hmem | ⟨x, hx, hmem⟩
  · exact ⟨n, hmem, d, hn, .refl⟩
  · obtain ⟨start, hstart, first, hfirst, hpath⟩ := h.reached x hx
    exact ⟨start, hstart, first, hfirst, hpath.tail ⟨n, hmem, hn⟩⟩

section Steps

variable {written : List (ScopedDecl × String)} (hnames : store.NamedByKeys)
  (h : Progress store names (n :: waiting) so written) (hn : store.resolve n = .ok d)
include hnames h hn

theorem Progress.known (hdone : d.name ∈ so.done) : Progress store names waiting so written := by
  have hsettle {m : ScopedName} (hm : m ∈ so.done ∨ m ∈ n :: waiting) :
      m ∈ so.done ∨ m ∈ waiting := by
    rcases hm with hm | hm
    · exact .inl hm
    · rcases mem_cons.mp hm with rfl | hm
      · exact .inl (Store.name_eq_of_resolve_ok hnames hn ▸ hdone)
      · exact .inr hm
  exact { h with
    ahead := fun m hm => h.ahead m (mem_cons_of_mem n hm)
    start := fun m hm => hsettle (h.start m hm)
    closed := fun x hx m hm => hsettle (h.closed x hx m hm) }

theorem Progress.described (hnew : d.name ∉ so.done) (htext : d.encoded = .ok text) :
    Progress store names (d.declNames ++ waiting) (so.add d text) (written ++ [(d, text)]) := by
  have hname := Store.name_eq_of_resolve_ok hnames hn
  have hreached : store.Reached names d := h.reached_of_waiting mem_cons_self hn
  have hsettle {m : ScopedName} (hm : m ∈ so.done ∨ m ∈ n :: waiting) :
      m ∈ (so.add d text).done ∨ m ∈ d.declNames ++ waiting := by
    rcases hm with hm | hm
    · exact .inl (mem_cons_of_mem _ hm)
    · rcases mem_cons.mp hm with rfl | hm
      · exact .inl (hname ▸ mem_cons_self)
      · exact .inr (mem_append_right _ hm)
  refine {
    lists := h.lists.add htext
    nodup := nodup_cons.mpr ⟨hnew, h.nodup⟩
    found := ?_
    reached := ?_
    ahead := ?_
    start := fun m hm => hsettle (h.start m hm)
    closed := ?_ }
  · exact forall_mem_append.mpr ⟨h.found, forall_mem_singleton.mpr (hname ▸ hn)⟩
  · exact forall_mem_append.mpr ⟨h.reached, forall_mem_singleton.mpr hreached⟩
  · intro m hm
    rcases mem_append.mp hm with hm | hm
    · exact .inr ⟨_, mem_append_right _ (mem_singleton_self _), hm⟩
    · refine (h.ahead m (mem_cons_of_mem n hm)).imp_right fun ⟨x, hx, hm⟩ => ?_
      exact ⟨x, mem_append_left _ hx, hm⟩
  · refine forall_mem_append.mpr ⟨fun x hx m hm => hsettle (h.closed x hx m hm), ?_⟩
    exact forall_mem_singleton.mpr fun m hm => .inr (mem_append_left _ hm)

end Steps

/-- When nothing waits any more, what was described is what is reached. -/
theorem Progress.mem_iff (h : Progress store names [] so written) :
    d ∈ written.map (·.1) ↔ store.Reached names d := by
  have hdone {m : ScopedName} (hm : m ∈ so.done ∨ m ∈ []) {e : ScopedDecl}
      (he : store.resolve m = .ok e) : e ∈ written.map (·.1) := by
    rcases hm with hm | hm
    · rw [h.lists.done, mem_reverse] at hm
      obtain ⟨x, hx, rfl⟩ := mem_map.mp hm
      obtain rfl := Except.ok.inj (he.symm.trans (h.found x hx))
      exact mem_map_of_mem hx
    · cases hm
  constructor
  · intro hd
    obtain ⟨x, hx, rfl⟩ := mem_map.mp hd
    exact h.reached x hx
  · rintro ⟨m, hm, e, he, hpath⟩
    -- along the path, what has been described has only names that are done
    induction hpath with
    | refl => exact hdone (h.start m hm) he
    | tail _ hstep ih =>
      obtain ⟨x, hx, rfl⟩ := mem_map.mp ih
      obtain ⟨l, hl, hresolve⟩ := hstep
      exact hdone (h.closed x hx l hl) hresolve

/-- Nothing waits in the end; a failure comes up while its name waits. -/
theorem progress_of_walks (hnames : store.NamedByKeys) {outcome : Outcome Described}
    (h : Walks store names ⟨[], []⟩ outcome) :
    (∀ so, outcome = .ok so → ∃ written, Progress store names [] so written) ∧
    ∀ failure, outcome = .error failure → ∃ n waiting so,
      (∃ written, Progress store names (n :: waiting) so written) ∧
      (store.resolve n = .error failure ∨
        ∃ d, store.resolve n = .ok d ∧ d.encoded = .error failure) := by
  refine h.rule (P := fun waiting so => ∃ written, Progress store names waiting so written)
    ?_ ?_ ⟨[], .begin store names⟩
  · rintro n waiting so d hn hdone ⟨written, hso⟩
    exact ⟨written, hso.known hnames hn hdone⟩
  · rintro n waiting so d text hn hnew htext ⟨written, hso⟩
    exact ⟨_, hso.described hnames hn hnew htext⟩

/-- Where all names are there, only a declaration without a text can fail. -/
theorem exists_reached_of_error (hnames : store.NamedByKeys) (hcomplete : store.Complete)
    (hfound : ∀ n ∈ names, ∃ d, store.resolve n = .ok d)
    (h : Walks store names ⟨[], []⟩ (.error failure)) :
    ∃ d, store.Reached names d ∧ d.encoded = .error failure := by
  obtain ⟨n, waiting, so, ⟨written, hso⟩, hfails⟩ := (progress_of_walks hnames h).2 failure rfl
  rcases hfails with hunknown | ⟨d, hd, htext⟩
  · obtain ⟨d, hd⟩ : ∃ d, store.resolve n = .ok d := by
      rcases hso.ahead n mem_cons_self with hn | ⟨x, hx, hn⟩
      · exact hfound n hn
      · exact hcomplete x.1 (Store.mem_allDecls_of_resolve_ok (hso.found x hx)) n hn
    cases hd.symm.trans hunknown
  · exact ⟨d, hso.reached_of_waiting mem_cons_self hd, htext⟩

/-! ## The script -/

/-- The tables that a catalog describes. -/
def describedTables (s : Schema) : List Table :=
  s.tables.filter fun t => t.name ≠ "meta_table" ∧ t.name ≠ "meta_adl_decl"

/-- The script with the rows of the tables, of the views and of the declarations. -/
def scriptOf (s : Schema) (written : List (ScopedDecl × String)) : String :=
  "delete from meta_table;\n"
    ++ String.join ((describedTables s).map fun t => entryRow ⟨t.name, t.decl.decl⟩)
    ++ String.join (s.views.map fun v => entryRow ⟨v.name, v.decl.decl⟩)
    ++ "\ndelete from meta_adl_decl;\n" ++ String.join (written.map fun x => declRow x.1 x.2)

theorem entryRows_eq (s : Schema) :
    String.join ((entries s).map entryRow) =
      String.join ((describedTables s).map fun t => entryRow ⟨t.name, t.decl.decl⟩)
        ++ String.join (s.views.map fun v => entryRow ⟨v.name, v.decl.decl⟩) := by
  have htables : (s.tables.filter fun t => !catalogTables.contains t.name) = describedTables s := by
    apply filter_congr
    intro t _
    simp [catalogTables]
  rw [entries, htables, map_append, String.join_append, map_map, map_map]
  rfl

theorem catalogScript_eq_ok_iff :
    catalogScript store s = .ok script ↔ ∃ so, describeAll store (entries s) = .ok so ∧
      "delete from meta_table;\n" ++ String.join ((entries s).map entryRow)
        ++ "\ndelete from meta_adl_decl;\n" ++ String.join so.rows = script := by
  rw [catalogScript, bind_eq_ok]
  simp only [pure_eq_ok]

theorem catalogScript_eq_error_iff :
    catalogScript store s = .error failure ↔ describeAll store (entries s) = .error failure := by
  rw [catalogScript, bind_eq_error]
  constructor
  · rintro (h | ⟨so, _, h⟩)
    · exact h
    · cases h
  · exact .inl

/-- The rows of a script are those of what is reached. -/
theorem exists_written_of_ok (hnames : store.NamedByKeys) (hover : s.Over store)
    (h : catalogScript store s = .ok script) :
    ∃ written : List (ScopedDecl × String), (written.map (·.1.name)).Nodup ∧
      (∀ d, d ∈ written.map (·.1) ↔ store.Reached (entryNames s) d) ∧
      (∀ x ∈ written, x.1.encoded = .ok x.2) ∧ script = scriptOf s written := by
  have hwalks := walks_describeAll hnames hover
  obtain ⟨so, hso, rfl⟩ := catalogScript_eq_ok_iff.mp h
  rw [hso] at hwalks
  obtain ⟨written, hwritten⟩ := (progress_of_walks hnames hwalks).1 so rfl
  refine ⟨written, ?_, fun d => hwritten.mem_iff, hwritten.lists.encoded, ?_⟩
  · rw [← nodup_reverse, ← hwritten.lists.done]
    exact hwritten.nodup
  · rw [entryRows_eq, hwritten.lists.rows, ← String.append_assoc]
    rfl

theorem exists_untexted_of_error (hnames : store.NamedByKeys) (hcomplete : store.Complete)
    (hover : s.Over store) (h : catalogScript store s = .error failure) :
    ∃ d, store.Reached (entryNames s) d ∧ d.encoded = .error failure := by
  have hwalks := walks_describeAll hnames hover
  rw [catalogScript_eq_error_iff.mp h] at hwalks
  refine exists_reached_of_error hnames hcomplete (fun n hn => ?_) hwalks
  obtain ⟨e, he, rfl⟩ := mem_map.mp hn
  exact ⟨e.decl, resolve_entry hover he⟩

end Ddl

end SchemaCompiler
