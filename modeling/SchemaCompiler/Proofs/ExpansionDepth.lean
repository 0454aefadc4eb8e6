import Mathlib.Data.Set.Finite.Lattice
import SchemaCompiler.Proofs.InnerCalls

/-!
# The depth of an expansion

Following aliases and expanding declarations are recursions that end because of
their guards: a name is not visited again inside a visit of it, and each name
that can be visited is that of a declaration in the store, or of the one that was
projected.  So the budgets are never used up.  How large types grow on the way
plays no role.
-/

namespace SchemaCompiler

open Outcome List

/-! ## Recursions -/

section Recursion

variable {α β γ : Type} {step : (α → β) → α → β} {calls : α → α → Prop} {name : α → γ}
  {rank : α → Nat} {visited : α → List γ} {x : α} {depth : Nat}

/-- The recursion with the equation `f = step f` ends for one argument: its calls
reach finitely many others, no path of calls visits a name twice, and its result
is the same whatever stands in for calls below a depth.  The last argument of a
path need not be visited, as it may be refused. -/
structure EndsWith (step : (α → β) → α → β) (calls : α → α → Prop) (name : α → γ) (depth : Nat)
    (x : α) (y : β) : Prop where
  looks : ∀ f g z, (∀ w, calls z w → f w = g w) → step f z = step g z
  finite : {z | Relation.ReflTransGen calls x z}.Finite
  once : ∀ path, IsChain calls (x :: path) → ((x :: path).dropLast.map name).Nodup
  returns : ∀ rest, step^[depth] rest x = y

/-- The names that have been visited are kept, and none of them is visited
again. -/
structure Guards (calls : α → α → Prop) (name : α → γ) (visited : α → List γ) : Prop where
  adds : ∀ x y, calls x y → visited y = name x :: visited x
  fresh : ∀ x y, calls x y → name x ∉ visited x

theorem Guards.nodup_of_isChain (h : Guards calls name visited) {path : List α}
    (hpath : IsChain calls (x :: path)) :
    ((x :: path).dropLast.map name).Nodup ∧
      ∀ n ∈ (x :: path).dropLast.map name, n ∉ visited x := by
  induction path generalizing x with
  | nil => simp
  | cons y path ih =>
    obtain ⟨hxy, hpath⟩ := isChain_cons_cons.mp hpath
    obtain ⟨hnodup, hapart⟩ := ih hpath
    rw [h.adds x y hxy] at hapart
    rw [dropLast_cons_cons, map_cons, nodup_cons, forall_mem_cons]
    refine ⟨⟨fun hmem => hapart _ hmem mem_cons_self, hnodup⟩, h.fresh x y hxy, ?_⟩
    exact fun n hn hvisited => hapart n hn (mem_cons_of_mem _ hvisited)

/-- Calls that go down in rank are not seen below it. -/
theorem iterate_eq_of_rank_lt (hlooks : ∀ f g z, (∀ w, calls z w → f w = g w) → step f z = step g z)
    (hrank : ∀ x y, calls x y → rank y < rank x) (h : rank x < depth) (f g : α → β) :
    step^[depth] f x = step^[depth] g x := by
  induction depth generalizing x with
  | zero => cases h
  | succ depth ih =>
    rw [Function.iterate_succ_apply', Function.iterate_succ_apply']
    exact hlooks _ _ x fun y hy => ih (Nat.lt_of_lt_of_le (hrank x y hy) (Nat.le_of_lt_succ h))

theorem finite_reachable (hrank : ∀ x y, calls x y → rank y < rank x)
    (hcalls : ∀ x, {y | calls x y}.Finite) (x : α) :
    {z | Relation.ReflTransGen calls x z}.Finite := by
  induction hn : rank x using Nat.strongRecOn generalizing x with
  | ind n ih =>
    -- What is reached from `x` is `x`, or is reached from one of its finitely many calls.
    have hbelow : (⋃ y ∈ {y | calls x y}, {z | Relation.ReflTransGen calls y z}).Finite :=
      (hcalls x).biUnion fun y hy => ih _ (hn ▸ hrank x y hy) y rfl
    refine (hbelow.insert x).subset fun z hz => ?_
    rcases hz.cases_head with rfl | ⟨y, hxy, hyz⟩
    · exact Set.mem_insert _ _
    · exact Set.mem_insert_of_mem _ (Set.mem_biUnion hxy hyz)

/-- A guarded recursion ends above the rank of its argument. -/
theorem Guards.endsWith (hguards : Guards calls name visited)
    (hlooks : ∀ f g z, (∀ w, calls z w → f w = g w) → step f z = step g z)
    (hrank : ∀ x y, calls x y → rank y < rank x) (hcalls : ∀ x, {y | calls x y}.Finite)
    (h : rank x < depth) (f : α → β) :
    EndsWith step calls name depth x (step^[depth] f x) where
  looks := hlooks
  finite := finite_reachable hrank hcalls x
  once _ hpath := (hguards.nodup_of_isChain hpath).1
  returns rest := iterate_eq_of_rank_lt hlooks hrank h rest f

end Recursion

/-- How many of the names have not been seen. -/
def unseen (names seen : List ScopedName) : Nat :=
  (names.filter (· ∉ seen)).length

theorem unseen_le (names seen : List ScopedName) : unseen names seen ≤ names.length :=
  length_filter_le _ names

theorem unseen_cons_lt {names seen : List ScopedName} {n : ScopedName} (hmem : n ∈ names)
    (hn : n ∉ seen) : unseen names (n :: seen) < unseen names seen := by
  have hfilter : names.filter (· ∉ n :: seen) = (names.filter (· ∉ seen)).filter (· ≠ n) := by
    simp [filter_filter, mem_cons, not_or]
  rw [unseen, hfilter]
  refine length_filter_lt_length_iff_exists.mpr ⟨n, ?_, by simp⟩
  exact mem_filter.mpr ⟨hmem, by simpa using hn⟩

theorem unseen_le_of_subset {names seen more : List ScopedName} (h : seen ⊆ more) :
    unseen names more ≤ unseen names seen := by
  refine (monotone_filter_right names fun n hn => ?_).length_le
  simp only [decide_eq_true_eq] at hn ⊢
  exact fun hseen => hn (h hseen)

theorem unseen_cons_le (names seen : List ScopedName) (n : ScopedName) :
    unseen names (n :: seen) ≤ unseen names seen :=
  unseen_le_of_subset (subset_cons_self n seen)

namespace Resolver

variable {r : Resolver}

/-! ## Aliases -/

/-- The names of the aliases that were followed, and the type they led to. -/
abbrev Round := List ScopedName × TypeExpr

/-- The next round is about the definition of the alias at the head; there is none
where no alias stands at the head. -/
def nextRound? (r : Resolver) (x : Round) : Outcome (Option Round) :=
  match x.2.reference? with
  | none => .ok none
  | some n =>
    if r.wrappers.isReference n then .ok none
    else do
      match (← r.store.resolve n).decl.body with
      | .synonym params target =>
        if n ∈ x.1 then .error (cyclicAlias n)
        else
          let env ← Env.bind n params x.2.args
          return some (n :: x.1, ← target.substitute env)
      | _ => return none

/-- One round of following aliases. -/
def aliasRound (r : Resolver) (rest : Round → Outcome TypeExpr) (x : Round) :
    Outcome TypeExpr := do
  match ← r.nextRound? x with
  | none => return x.2
  | some y => rest y

def NextRound (r : Resolver) (x y : Round) : Prop :=
  r.nextRound? x = .ok (some y)

theorem NextRound.exists_unfolds {x y : Round} (h : r.NextRound x y) :
    ∃ n, r.Unfolds x.2 n y.2 ∧ n ∉ x.1 ∧ y.1 = n :: x.1 := by
  unfold NextRound nextRound? at h
  split at h
  · cases h
  · rename_i n hn
    by_cases hreference : r.wrappers.isReference n = true
    · rw [if_pos hreference] at h
      cases h
    rw [if_neg hreference] at h
    obtain ⟨d, hd, h⟩ := bind_eq_ok.mp h
    split at h
    · rename_i params target hbody
      by_cases hseen : n ∈ x.1
      · rw [if_pos hseen] at h
        cases h
      rw [if_neg hseen] at h
      obtain ⟨env, henv, h⟩ := bind_eq_ok.mp h
      obtain ⟨next, hnext, h⟩ := bind_eq_ok.mp h
      obtain rfl := Option.some.inj (pure_eq_ok.mp h)
      exact ⟨n, ⟨hn, by simpa using hreference, d, params, target, env, hd, hbody, henv, hnext⟩,
        hseen, rfl⟩
    · cases h

theorem expandWithin_succ (budget : Nat) (x : Round) :
    r.expandWithin (budget + 1) x.1 x.2 =
      r.aliasRound (fun y => r.expandWithin budget y.1 y.2) x := by
  rw [expandWithin, aliasRound, nextRound?]
  cases x.2.reference? with
  | none => rfl
  | some n =>
    by_cases hreference : r.wrappers.isReference n = true
    · simp [if_pos hreference, bind, Except.bind, pure, Except.pure]
    · simp only [if_neg hreference]
      cases r.store.resolve n with
      | error failure => rfl
      | ok d =>
        simp only [bind, Except.bind, contains_iff_mem]
        cases d.decl.body with
        | synonym params target =>
          by_cases hseen : n ∈ x.1
          · simp only [if_pos hseen]
          · simp only [if_neg hseen]
            cases Env.bind n params x.2.args with
            | error failure => rfl
            | ok env =>
              dsimp only
              cases target.substitute env <;> rfl
        | _ => rfl

theorem unseen_of_nextRound {x y : Round} (h : r.NextRound x y) :
    unseen r.store.keys y.1 < unseen r.store.keys x.1 := by
  obtain ⟨n, ⟨_, _, d, _, _, _, hd, _⟩, hseen, hy⟩ := h.exists_unfolds
  rw [hy]
  exact unseen_cons_lt (Store.mem_keys_of_resolve_ok hd) hseen

/-- A declaration that is not being expanded already leads to others. -/
def Calls (r : Resolver) (x y : Visit) : Prop :=
  x.decl.name ∉ x.trail.active ∧ r.Inlines x y

theorem visit_looks (f g : Inner) (x : Visit) (h : ∀ y, r.Calls x y → f y = g y) :
    r.visit f x = r.visit g x := by
  unfold visit
  split_ifs with hactive
  · rfl
  · exact (asking_inside x).congr fun y hy => h y ⟨hactive, hy⟩

theorem expand_eq_iterate (depth : Nat) (x : Visit) :
    r.expand depth x.trail x.decl x.env =
      r.visit^[depth] (fun y => r.expand 0 y.trail y.decl y.env) x := by
  induction depth generalizing x with
  | zero => rfl
  | succ depth ih =>
    rw [Function.iterate_succ_apply', expand_succ]
    exact congrFun (congrArg r.visit (funext ih)) x

theorem calls_guards : Guards r.Calls (·.decl.name) (·.trail.active) where
  adds := by
    rintro x y ⟨_, hy⟩
    rw [hy.trail, Trail.enter]
  fresh _ _ h := h.1

theorem finite_inlines (x : Visit) : {y | r.Inlines x y}.Finite := by
  -- Each type of the body leads to one declaration at most.
  let denoted (s : TypeExpr) : Set Visit := {y | y.trail = x.trail.enter x.decl ∧ ∃ n args,
    s.substitute x.env = .ok (.app (.reference n) args) ∧ r.store.resolve n = .ok y.decl ∧
    Env.bind n y.decl.decl.params args = .ok y.env}
  have hdenoted (s : TypeExpr) : (denoted s).Subsingleton := by
    rintro ⟨_, d, env⟩ ⟨rfl, n, args, hs, hd, henv⟩ ⟨_, e, env'⟩ ⟨rfl, m, bs, hs', he, henv'⟩
    obtain ⟨rfl, rfl⟩ : n = m ∧ args = bs := by simpa using hs.symm.trans hs'
    obtain rfl := Except.ok.inj (hd.symm.trans he)
    obtain rfl := Except.ok.inj (henv.symm.trans henv')
    rfl
  refine ((finite_toSet x.decl.decl.body.inlined).biUnion fun s _ =>
    (hdenoted s).finite).subset ?_
  rintro y ⟨htrail, s, hs, n, args, ht, _, hd, henv⟩
  exact Set.mem_biUnion hs ⟨htrail, n, args, ht, hd, henv⟩

/-- The names that a declaration in the store can have. -/
def declaredNames (r : Resolver) : List ScopedName :=
  r.store.allDecls.map (·.name)

/-- Declared names that are not being expanded, and one more for a declaration
from outside. -/
def visitRank (r : Resolver) (x : Visit) : Nat :=
  unseen r.declaredNames x.trail.active + if x.decl.name ∈ r.declaredNames then 0 else 1

theorem visitRank_of_calls {x y : Visit} (h : r.Calls x y) : r.visitRank y < r.visitRank x := by
  obtain ⟨hactive, htrail, _, _, n, _, _, _, hd, _⟩ := h
  have hy : y.decl.name ∈ r.declaredNames :=
    mem_map_of_mem (Store.mem_allDecls_of_resolve_ok hd)
  have hnames : y.trail.active = x.decl.name :: x.trail.active := by rw [htrail, Trail.enter]
  rw [visitRank, visitRank, if_pos hy, hnames]
  split_ifs with hx
  · exact unseen_cons_lt hx hactive
  · exact Nat.lt_succ_of_le (unseen_cons_le _ _ _)

/-- Where the projection of a declaration starts. -/
def firstVisit (d : ScopedDecl) (env : Env) : Visit :=
  ⟨⟨[], []⟩, d, env⟩

theorem visitRank_firstVisit_lt (d : ScopedDecl) (env : Env) :
    r.visitRank (firstVisit d env) < r.expansionBudget := by
  have hlength : r.declaredNames.length ≤ r.store.keys.length := by
    simp [declaredNames, Store.allDecls, Store.declsOf, Store.keys, length_flatMap]
  have hunseen := unseen_le r.declaredNames []
  rw [visitRank, expansionBudget]
  show unseen r.declaredNames [] + _ < _
  split_ifs <;> omega

/-- What a projection makes of an expansion. -/
def projectionOf (d : ScopedDecl) (env : Env) (x : Expansion) : Projection where
  name := d.name
  decl := d
  kind := x.shape.decl.kind
  shape := x.shape.name
  fields := x.fields
  annotations := d.decl.annotations
  generic := !d.decl.params.isEmpty && env.isEmpty
  external := false
  isInstance := false
  typeExpr := .missing
  path := if x.path.length < 2 then [] else x.path

theorem project_eq_map (d : ScopedDecl) (env : Env) :
    r.project d env =
      (r.expand r.expansionBudget ⟨[], []⟩ d env).map (projectionOf d env) := by
  rw [project]
  cases r.expand r.expansionBudget ⟨[], []⟩ d env <;> rfl

theorem expand_endsWith (d : ScopedDecl) (env : Env) :
    EndsWith r.visit r.Calls (·.decl.name) r.expansionBudget (firstVisit d env)
      (r.expand r.expansionBudget ⟨[], []⟩ d env) := by
  have hiterate := expand_eq_iterate (r := r) r.expansionBudget (firstVisit d env)
  rw [firstVisit] at hiterate ⊢
  rw [hiterate]
  exact calls_guards.endsWith visit_looks (fun _ _ => visitRank_of_calls)
    (fun x => (finite_inlines x).subset fun y hy => hy.2) (visitRank_firstVisit_lt d env) _

end Resolver

end SchemaCompiler
