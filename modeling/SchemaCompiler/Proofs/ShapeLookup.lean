import Mathlib.Data.List.Induction
import SchemaCompiler.Graph.Shape
import SchemaCompiler.Proofs.EmittedNames

/-!
# Looking up shapes

The struct or union behind a type is looked up in three tables: the graph by
name, the shapes kept from earlier calls by the text of the application, and the
tracker that gives applications their names.  Whatever was asked for before, an
answer has the name of the application that the type expands to, and it is the
projection of that application unless the graph has another one of that name.
-/

namespace SchemaCompiler

open Outcome List TypeExpr Standard

namespace Resolver

variable {r : Resolver} {steps : Nat} {t u v : TypeExpr} {name : ScopedName}

/-- Aliases and new types at the head are replaced, so many times, up to a
struct or union. -/
inductive Expands (r : Resolver) : Nat → TypeExpr → TypeExpr → Prop
  | done {t : TypeExpr} {n : ScopedName} {w : Wrapped} (hname : t.reference? = some n)
      (hw : r.classify t = .ok w) (hkind : w.kind = .plain)
      (hend : r.expandOnce t = .ok none) : Expands r 0 t t
  | step {steps : Nat} {t next u : TypeExpr} {n : ScopedName} {w : Wrapped}
      (hname : t.reference? = some n) (hw : r.classify t = .ok w) (hkind : w.kind = .plain)
      (hnext : r.expandOnce t = .ok (some next)) (hrest : Expands r steps next u) :
      Expands r (steps + 1) t u

/-- A type expands to one application at most. -/
theorem Expands.unique {others : Nat} (hu : r.Expands steps t u) (hv : r.Expands others t v) :
    u = v := by
  induction hu generalizing others with
  | done _ _ _ hend =>
    cases hv with
    | done => rfl
    | step _ _ _ hnext =>
      rw [hend] at hnext
      cases hnext
  | step _ _ _ hnext _ ih =>
    cases hv with
    | done _ _ _ hend =>
      rw [hend] at hnext
      cases hnext
    | step _ _ _ hnext' hrest =>
      rw [hnext] at hnext'
      cases hnext'
      exact ih hrest

theorem Expands.plain (hstore : r.store.PlainlyWritten) (h : r.Expands steps t u)
    (ht : t.Plain) : u.Plain := by
  induction h with
  | done => exact ht
  | step _ _ _ hnext _ ih => exact ih (plain_of_expandOnce hstore ht hnext)

/-- The application behind a type, within as many steps as are followed. -/
def ExpandsTo (r : Resolver) (t u : TypeExpr) : Prop :=
  ∃ steps, steps < Graph.maxExpansion ∧ r.Expands steps t u

theorem ExpandsTo.unique (hu : r.ExpandsTo t u) (hv : r.ExpandsTo t v) : u = v := by
  obtain ⟨_, _, hu⟩ := hu
  obtain ⟨_, _, hv⟩ := hv
  exact hu.unique hv

theorem ExpandsTo.plain (hstore : r.store.PlainlyWritten) (h : r.ExpandsTo t u)
    (ht : t.Plain) : u.Plain := by
  obtain ⟨_, _, h⟩ := h
  exact h.plain hstore ht

end Resolver

namespace Graph

variable {g : Graph} {p q : Projection} {args asked : List TypeExpr} {n : ScopedName}
  {shapes : Shapes} {x t : TypeExpr}

/-! ## Projections of applications -/

/-- The projection of an application on its own. -/
inductive Fresh (g : Graph) : TypeExpr → Projection → Prop
  | declared {n : ScopedName} {d : ScopedDecl} {q : Projection}
      (hd : g.store.resolve n = .ok d) (hq : g.resolver.project d [] = .ok q) :
      Fresh g (.app (.reference n) []) q
  | applied {n : ScopedName} {args : List TypeExpr} {q : Projection} (hargs : args ≠ [])
      (hq : g.resolver.projectType (.app (.reference n) args) = .ok q) :
      Fresh g (.app (.reference n) args) q

/-- The projection has the name of an application and what a fresh projection of
it has. -/
structure Shows (g : Graph) (p : Projection) (u : TypeExpr) : Prop where
  named : g.Emits u p.name
  content : ∃ q, g.Fresh u q ∧ p.kind = q.kind ∧ p.shape = q.shape ∧ p.fields = q.fields

section Tables

variable (h : g.Built) (hstore : g.store.Indexed)
include h hstore

/-- Each instance of the graph is the projection of a recorded application. -/
theorem Built.exists_recorded_of_instance (hp : p ∈ g.instances) :
    ∃ i ∈ g.tracker.recorded, ∃ n args q, i.typeExpr = .app (.reference n) args ∧ args ≠ [] ∧
      g.resolver.projectType i.typeExpr = .ok q ∧
      p = { q with name := ⟨n.moduleName, i.name⟩, isInstance := true, generic := false } := by
  obtain ⟨hout, all, hcompletes⟩ := Tracker.completes_of_run Tracker.consistent_empty h.run
  rw [hout, Tracker.instanceProjections, Projection.sort, mem_mergeSort] at hp
  obtain ⟨j, hj, hproject⟩ := hcompletes.exists_of_mem_projections hp
  obtain ⟨q, hq, hp⟩ := bind_eq_ok.mp hproject
  obtain ⟨n, args, htype, hargs⟩ := h.exists_args_of_needed hstore (hcompletes.needed hj)
  have hfaces : (g.tracker.recorded.map Instance.face).Perm (all.map Instance.face) :=
    hcompletes.map_recorded_perm fun _ => rfl
  obtain ⟨i, hi, hface⟩ := mem_map.mp (hfaces.mem_iff.mpr (mem_map_of_mem hj))
  obtain ⟨hname, hsame, hitype⟩ :
      i.name = j.name ∧ i.generic = j.generic ∧ i.typeExpr = j.typeExpr := by
    simpa [Instance.face] using hface
  have hgeneric : j.generic = n := by
    rw [← hsame, h.consistent.generic_of_mem hi, hitype, htype]
    rfl
  refine ⟨i, hi, n, args, q, hitype.trans htype, hargs, hitype ▸ hq, ?_⟩
  rw [hname, ← hgeneric]
  exact (pure_eq_ok.mp hp).symm

/-- What the graph has under a name is the projection of what it has by that
name. -/
theorem Built.shows_of_decl? (hp : g.decl? n = some p) :
    p.name = n ∧ ∃ v, g.Has v ∧ g.Shows p v := by
  have hname : p.name = n := by simpa using find?_some hp
  refine ⟨hname, ?_⟩
  have hmem : p ∈ g.all := mem_reverse.mp (mem_of_find?_eq_some hp)
  rcases mem_append.mp hmem with hdecl | hinstance
  · obtain ⟨d, q, hd, hq, hmarked, _⟩ := h.exists_project hstore hdecl
    refine ⟨.app (.reference p.name) [], .inl ⟨p, hdecl, rfl⟩, .declared p.name, q,
      .declared hd hq, ?_⟩
    rw [hmarked]
    exact ⟨rfl, rfl, rfl⟩
  · obtain ⟨i, hi, m, args, q, htype, hargs, hq, rfl⟩ :=
      h.exists_recorded_of_instance hstore hinstance
    have hlookup := h.consistent.lookup_of_mem hi
    rw [htype] at hlookup hq
    refine ⟨i.typeExpr, .inr ⟨i, hi, rfl⟩, ?_, q, ?_, rfl, rfl, rfl⟩
    · rw [htype]
      exact .applied hargs rfl (by rw [Tracker.nameOf, hlookup])
    · rw [htype]
      exact .applied hargs hq

end Tables

/-! ## One call -/

/-- The name that an application is looked up by in the graph. -/
def lookupName (g : Graph) (n : ScopedName) (u : TypeExpr) : Outcome ScopedName :=
  if u.args.isEmpty then .ok n
  else
    match g.tracker.nameOf u with
    | .error failure => .error failure
    | .ok name => .ok ⟨n.moduleName, name⟩

theorem lookupName_eq_ok {m name : ScopedName} :
    g.lookupName m (.app (.reference m) args) = .ok name ↔
      g.Emits (.app (.reference m) args) name := by
  constructor
  · intro h
    cases args with
    | nil =>
      cases h
      exact .declared m
    | cons a args =>
      rw [lookupName, if_neg (by simp [TypeExpr.args])] at h
      split at h
      · cases h
      · rename_i found hfound
        cases h
        exact .applied (cons_ne_nil a args) rfl hfound
  · intro h
    cases h with
    | declared => rfl
    | applied hargs hmodule hname =>
      rw [lookupName, if_neg (by simpa [TypeExpr.args] using hargs), hname, hmodule]

theorem shapeOf_eq (g : Graph) (shapes : Shapes) (n : ScopedName) (args : List TypeExpr) :
    g.shapeOf shapes n (.app (.reference n) args) =
      match g.lookupName n (.app (.reference n) args) with
      | .error failure => (shapes, .error failure)
      | .ok name =>
        match g.decl? name with
        | some p => (shapes, .ok (some p))
        | none =>
          match shapes.lookup (app (.reference n) args).scopedText with
          | some p => (shapes, .ok (some p))
          | none =>
            match g.projectOutside name n (.app (.reference n) args) with
            | .error failure => (shapes, .error failure)
            | .ok p => (((app (.reference n) args).scopedText, p) :: shapes,
                .ok (some p)) := by
  cases args with
  | nil | cons a args => rfl

/-- What a lookup in the tables gives and leaves. -/
inductive LookedUp (g : Graph) (shapes : Shapes) (n : ScopedName) (u : TypeExpr) :
    Shapes × Outcome (Option Projection) → Prop
  | failed (failure : Failure) : LookedUp g shapes n u (shapes, .error failure)
  | inGraph {name : ScopedName} {p : Projection} (hname : g.Emits u name)
      (hp : g.decl? name = some p) : LookedUp g shapes n u (shapes, .ok (some p))
  | kept {name : ScopedName} {p : Projection} (hname : g.Emits u name)
      (hp : (u.scopedText, p) ∈ shapes) : LookedUp g shapes n u (shapes, .ok (some p))
  | projected {name : ScopedName} {p : Projection} (hname : g.Emits u name)
      (hnone : g.decl? name = none) (hp : g.projectOutside name n u = .ok p) :
      LookedUp g shapes n u ((u.scopedText, p) :: shapes, .ok (some p))

theorem lookedUp_shapeOf (g : Graph) (shapes : Shapes) (n : ScopedName) (args : List TypeExpr) :
    g.LookedUp shapes n (.app (.reference n) args)
      (g.shapeOf shapes n (.app (.reference n) args)) := by
  rw [shapeOf_eq]
  cases hname : g.lookupName n (.app (.reference n) args) with
  | error failure => exact .failed failure
  | ok name =>
    have hemits := lookupName_eq_ok.mp hname
    dsimp only
    cases hdecl : g.decl? name with
    | some p => exact .inGraph hemits hdecl
    | none =>
      dsimp only
      cases hkept : shapes.lookup (app (.reference n) args).scopedText with
      | some p =>
        obtain ⟨before, after, hshapes, _⟩ := lookup_eq_some_iff.mp hkept
        exact .kept hemits (hshapes ▸ mem_append_right before mem_cons_self)
      | none =>
        dsimp only
        cases hproject : g.projectOutside name n (.app (.reference n) args) with
        | error failure => exact .failed failure
        | ok p => exact .projected hemits hdecl hproject

/-- A lookup follows the expansion of a type and looks up the application at its
end. -/
theorem shapeWithin_cases (g : Graph) (shapes : Shapes) (budget : Nat) (t : TypeExpr) :
    ((g.shapeWithin shapes budget t).1 = shapes ∧
      ∀ p, (g.shapeWithin shapes budget t).2 ≠ .ok (some p)) ∨
    ∃ steps n args, steps < budget ∧ g.resolver.Expands steps t (.app (.reference n) args) ∧
      g.LookedUp shapes n (.app (.reference n) args) (g.shapeWithin shapes budget t) := by
  have hstop (result : Outcome (Option Projection)) (hresult : ∀ p, result ≠ .ok (some p)) :
      (shapes, result).1 = shapes ∧ ∀ p, (shapes, result).2 ≠ .ok (some p) := ⟨rfl, hresult⟩
  induction budget generalizing t with
  | zero => exact .inl (hstop _ fun p hp => by cases hp)
  | succ budget ih =>
    rw [shapeWithin]
    cases hn : t.reference? with
    | none => exact .inl (hstop _ fun p hp => by cases hp)
    | some n =>
      cases hw : g.resolver.classify t with
      | error failure => exact .inl (hstop _ fun p hp => by cases hp)
      | ok w =>
        dsimp only
        by_cases hplain : w.kind = .plain
        · rw [if_neg (not_not.mpr hplain)]
          cases hnext : g.resolver.expandOnce t with
          | error failure => exact .inl (hstop _ fun p hp => by cases hp)
          | ok found =>
            cases found with
            | none =>
              have ht := eq_app_of_reference? hn
              have hlooked := lookedUp_shapeOf g shapes n t.args
              refine .inr ⟨0, n, t.args, Nat.succ_pos budget, ?_⟩
              rw [← ht] at hlooked ⊢
              exact ⟨.done hn hw hplain hnext, hlooked⟩
            | some next =>
              refine (ih next).imp_right ?_
              rintro ⟨steps, m, args, hsteps, hexpands, hlooked⟩
              exact ⟨steps + 1, m, args, Nat.succ_lt_succ hsteps,
                .step hn hw hplain hnext hexpands, hlooked⟩
        · rw [if_pos hplain]
          exact .inl (hstop _ fun p hp => by cases hp)

/-- A lookup gets to the end of an expansion that is within its budget. -/
theorem shapeWithin_of_expands (g : Graph) (shapes : Shapes) {steps budget : Nat} {u : TypeExpr}
    (h : g.resolver.Expands steps t u) (hbudget : steps < budget) :
    ∃ n args, u = .app (.reference n) args ∧
      g.shapeWithin shapes budget t = g.shapeOf shapes n u := by
  induction h generalizing budget with
  | done hn hw hkind hend =>
    obtain ⟨budget, rfl⟩ := Nat.exists_eq_succ_of_ne_zero (Nat.ne_zero_of_lt hbudget)
    refine ⟨_, _, eq_app_of_reference? hn, ?_⟩
    simp only [shapeWithin, hn, hw, hkind, hend, ne_eq, not_true, if_false]
  | step hn hw hkind hnext _ ih =>
    obtain ⟨budget, rfl⟩ := Nat.exists_eq_succ_of_ne_zero (Nat.ne_zero_of_lt hbudget)
    obtain ⟨m, args, hu, hrest⟩ := ih (Nat.lt_of_succ_lt_succ hbudget)
    refine ⟨m, args, hu, ?_⟩
    simp only [shapeWithin, hn, hw, hkind, hnext, ne_eq, not_true, if_false, hrest]

/-- Outside the graph a declaration is projected on its own, and an application gets the name
that was looked up. -/
theorem projectOutside_eq_ok : g.projectOutside name n t = .ok p ↔
    (t.args = [] ∧ ∃ d q, g.store.resolve n = .ok d ∧ g.resolver.project d [] = .ok q ∧
      { q with external := !g.settings.inFocus q.name } = p) ∨
    (t.args ≠ [] ∧ ∃ q, g.resolver.projectType t = .ok q ∧
      { q with name, isInstance := true, external := !g.settings.inFocus name } = p) := by
  unfold projectOutside
  by_cases hargs : t.args = []
  · simp [hargs, bind_eq_ok, pure_eq_ok, -bind_pure_comp]
  · simp [hargs, bind_eq_ok, pure_eq_ok, -bind_pure_comp]

theorem exists_projectOutside (hq : g.Fresh (.app (.reference n) args) q) (name : ScopedName) :
    ∃ p, g.projectOutside name n (.app (.reference n) args) = .ok p := by
  cases hq with
  | declared hd hq => exact ⟨_, projectOutside_eq_ok.mpr (.inl ⟨rfl, _, _, hd, hq, rfl⟩)⟩
  | applied hargs hq => exact ⟨_, projectOutside_eq_ok.mpr (.inr ⟨hargs, _, hq, rfl⟩)⟩

/-- An application that has a name and can be projected has a shape, whatever is
kept. -/
theorem exists_shapeOf (shapes : Shapes)
    (hname : g.Emits (.app (.reference n) args) name) (hq : g.Fresh (.app (.reference n) args) q) :
    ∃ p, (g.shapeOf shapes n (.app (.reference n) args)).2 = .ok (some p) := by
  rw [shapeOf_eq, lookupName_eq_ok.mpr hname]
  dsimp only
  cases g.decl? name with
  | some p => exact ⟨p, rfl⟩
  | none =>
    dsimp only
    cases shapes.lookup (app (.reference n) args).scopedText with
    | some p => exact ⟨p, rfl⟩
    | none =>
      obtain ⟨p, hp⟩ := exists_projectOutside hq name
      dsimp only
      rw [hp]
      exact ⟨p, rfl⟩

/-- What is projected outside the graph is the application that was asked for. -/
theorem shows_of_projectOutside (hnames : g.store.NamedByKeys)
    (hname : g.Emits (.app (.reference n) args) name)
    (h : g.projectOutside name n (.app (.reference n) args) = .ok p) :
    g.Shows p (.app (.reference n) args) := by
  rcases projectOutside_eq_ok.mp h with ⟨hnone, d, q, hd, hq, rfl⟩ | ⟨hargs, q, hq, rfl⟩
  · obtain rfl : args = [] := hnone
    have hqname : q.name = n := by
      rw [Resolver.project_name hq, Store.name_eq_of_resolve_ok hnames hd]
    refine ⟨?_, q, .declared hd hq, rfl, rfl, rfl⟩
    change g.Emits _ q.name
    rw [hqname]
    exact .declared n
  · exact ⟨hname, q, .applied hargs hq, rfl, rfl, rfl⟩

/-! ## Call after call -/

/-- The shapes that are kept after calls one after the other. -/
def shapesAfter (g : Graph) (asked : List TypeExpr) : Shapes :=
  asked.foldl (fun shapes t => (g.shape shapes t).1) []

/-- The kept shape was projected for an application that was asked for, by a name that the graph
does not have. -/
def ProjectedFor (g : Graph) (asked : List TypeExpr) (entry : String × Projection) : Prop :=
  ∃ t ∈ asked, ∃ n args name,
    g.resolver.ExpandsTo t (.app (.reference n) args) ∧
      (TypeExpr.app (.reference n) args).scopedText = entry.1 ∧
      g.Emits (.app (.reference n) args) name ∧ g.decl? name = none ∧
      g.projectOutside name n (.app (.reference n) args) = .ok entry.2

/-- What is kept has `P` as long as what is projected does; what is found has `P` or stands in
the graph by the name of the application that the type expands to. -/
theorem shape_rule {P : String × Projection → Prop} (hkept : ∀ entry ∈ shapes, P entry)
    (hprojected : ∀ entry, g.ProjectedFor [t] entry → P entry) :
    (∀ entry ∈ (g.shape shapes t).1, P entry) ∧
      ∀ p, (g.shape shapes t).2 = .ok (some p) → ∃ n args name,
        g.resolver.ExpandsTo t (.app (.reference n) args) ∧
        g.Emits (.app (.reference n) args) name ∧
        (P ((app (.reference n) args).scopedText, p) ∨ g.decl? name = some p) := by
  unfold Graph.shape
  rcases shapeWithin_cases g shapes maxExpansion t with ⟨hshapes, hnone⟩ |
    ⟨steps, n, args, hsteps, hexpands, hlooked⟩
  · rw [hshapes]
    exact ⟨hkept, fun p hp => absurd hp (hnone p)⟩
  have hx : g.resolver.ExpandsTo t (.app (.reference n) args) := ⟨steps, hsteps, hexpands⟩
  generalize g.shapeWithin shapes maxExpansion t = answer at hlooked ⊢
  cases hlooked with
  | failed => exact ⟨hkept, fun p hp => by cases hp⟩
  | inGraph hname hdecl =>
    exact ⟨hkept, fun p hp => ⟨n, args, _, hx, hname, .inr (by cases hp; exact hdecl)⟩⟩
  | kept hname hmem =>
    exact ⟨hkept, fun p hp => ⟨n, args, _, hx, hname, .inl (by cases hp; exact hkept _ hmem)⟩⟩
  | projected hname hnone hp =>
    have hnew := hprojected (_, _)
      ⟨t, mem_singleton_self t, n, args, _, hx, rfl, hname, hnone, hp⟩
    exact ⟨forall_mem_cons.mpr ⟨hnew, hkept⟩,
      fun p hp => ⟨n, args, _, hx, hname, .inl (by cases hp; exact hnew)⟩⟩

theorem ProjectedFor.mono {more : List TypeExpr} {entry : String × Projection}
    (h : g.ProjectedFor asked entry) (hmore : asked ⊆ more) : g.ProjectedFor more entry := by
  obtain ⟨t, ht, hrest⟩ := h
  exact ⟨t, hmore ht, hrest⟩

theorem projectedFor_of_mem_shapesAfter (g : Graph) (asked : List TypeExpr) :
    ∀ entry ∈ g.shapesAfter asked, g.ProjectedFor asked entry := by
  -- A call may be answered from an earlier one, so the last call is taken off.
  induction asked using reverseRecOn with
  | nil => exact forall_mem_nil _
  | append_singleton asked t ih =>
    rw [shapesAfter, foldl_append]
    exact (shape_rule (fun entry hentry => (ih entry hentry).mono (subset_append_left _ _))
      fun _ hentry => hentry.mono (subset_append_right _ _)).1

/-- A call with `t`, after calls with `asked`, returns `p`. -/
def Returns (g : Graph) (asked : List TypeExpr) (t : TypeExpr) (p : Projection) : Prop :=
  (g.shape (g.shapesAfter asked) t).2 = .ok (some p)

theorem exists_returns (hx : g.resolver.ExpandsTo t x) (hname : g.Emits x n) (hq : g.Fresh x q)
    (asked : List TypeExpr) : ∃ p, g.Returns asked t p := by
  obtain ⟨steps, hsteps, hx⟩ := hx
  obtain ⟨m, args, rfl, hshape⟩ := shapeWithin_of_expands g (g.shapesAfter asked) hx hsteps
  unfold Returns Graph.shape
  rw [hshape]
  exact exists_shapeOf _ hname hq

/-- What is returned was projected for a type that was asked for, or stands in the graph. -/
theorem Returns.cases (h : g.Returns asked t p) :
    ∃ n args name, g.resolver.ExpandsTo t (.app (.reference n) args) ∧
      g.Emits (.app (.reference n) args) name ∧
      (g.ProjectedFor (asked ++ [t]) ((app (.reference n) args).scopedText, p) ∨
        g.decl? name = some p) :=
  (shape_rule (fun entry hentry => (projectedFor_of_mem_shapesAfter g asked entry hentry).mono
    (subset_append_left _ _)) fun _ hentry => hentry.mono (subset_append_right _ _)).2 p h

/-- The answer has the name of an application, and it is the projection of that
application or of another one that the graph has under this name. -/
structure Answers (g : Graph) (x : TypeExpr) (p : Projection) : Prop where
  named : g.Emits x p.name
  shown : g.Shows p x ∨ ∃ v, g.Has v ∧ g.Clash p.name x v ∧ g.Shows p v

theorem Shows.answers (h : g.Shows p x) : g.Answers x p :=
  ⟨h.named, .inl h⟩

section Plain

variable (h : g.Built) (hstore : g.store.Indexed) (hplain : g.store.PlainlyWritten)
include h hstore hplain

/-- What the graph has under the name of an application answers for it. -/
theorem Built.answers_of_decl? (hx : x.Plain) (hname : g.Emits x name)
    (hp : g.decl? name = some p) : g.Answers x p := by
  obtain ⟨rfl, v, hv, hshows⟩ := h.shows_of_decl? hstore hp
  refine ⟨hname, ?_⟩
  rcases h.eq_or_clash hstore hplain hx (h.plain_of_has hstore hplain hv) hname hshows.named with
    rfl | hclash
  · exact .inl hshows
  · exact .inr ⟨v, hv, hclash, hshows⟩

theorem Built.exists_answers (hasked : ∀ s ∈ asked, s.Plain) (ht : t.Plain)
    (hp : g.Returns asked t p) : ∃ x, g.resolver.ExpandsTo t x ∧ g.Answers x p := by
  obtain ⟨n, args, name, hexpands, hname, hprojected | hdecl⟩ := hp.cases
  · -- The text that the shape was kept by tells which application it was.
    obtain ⟨s, hs, m, as, _, hy, htext, hname, _, hproject⟩ := hprojected
    have hs : s.Plain := by
      rcases mem_append.mp hs with hs | hs
      · exact hasked s hs
      · exact mem_singleton.mp hs ▸ ht
    have hsame := eq_of_scopedText_eq (hy.plain hplain hs) (hexpands.plain hplain ht) htext
    exact ⟨_, hexpands, (hsame ▸ shows_of_projectOutside hstore.named hname hproject).answers⟩
  · exact ⟨_, hexpands,
      h.answers_of_decl? hstore hplain (hexpands.plain hplain ht) hname hdecl⟩

end Plain

/-- Whatever was asked for before, a call returns something for a type that
expands to an application with a name and a projection.  What it returns is the
projection of the application that the type expands to, unless the graph has
another one of that name; and two calls that return one name have expanded to
one application or to two that clash. -/
theorem shape_returns {settings : Settings} {store : Store} {g : Graph}
    (hbuild : build settings store = .ok g) (hstore : store.Indexed)
    (hplain : store.PlainlyWritten) {asked : List TypeExpr} (hasked : ∀ s ∈ asked, s.Plain)
    {t : TypeExpr} (ht : t.Plain) :
    (∀ x n q, g.resolver.ExpandsTo t x → g.Emits x n → g.Fresh x q →
      ∃ p, g.Returns asked t p) ∧
    ∀ p, g.Returns asked t p → ∃ x, g.resolver.ExpandsTo t x ∧ g.Answers x p ∧
      ∀ others, (∀ s ∈ others, s.Plain) → ∀ t' p', t'.Plain → g.Returns others t' p' →
        p'.name = p.name → ∃ y, g.resolver.ExpandsTo t' y ∧ (x = y ∨ g.Clash p.name x y) := by
  obtain ⟨rfl, rfl, hbuilt⟩ := built_of_build_ok hbuild
  refine ⟨fun x n q hx hname hq => exists_returns hx hname hq asked, ?_⟩
  intro p hp
  obtain ⟨x, hexpands, hanswers⟩ := hbuilt.exists_answers hstore hplain hasked ht hp
  refine ⟨x, hexpands, hanswers, ?_⟩
  intro others hothers t' p' ht' hp' hname
  obtain ⟨y, hexpands', hanswers'⟩ := hbuilt.exists_answers hstore hplain hothers ht' hp'
  refine ⟨y, hexpands', ?_⟩
  exact hbuilt.eq_or_clash hstore hplain (hexpands.plain hplain ht) (hexpands'.plain hplain ht')
    hanswers.named (hname ▸ hanswers'.named)

/-- Boxes of two declarations of one name, behind aliases. -/
def boxed : ScopedDecl :=
  ⟨"app", ⟨"Box", none, .struct ["T"] [field "item" (.param "T")], []⟩⟩

def leftItem : ScopedDecl :=
  ⟨"a", ⟨"X", none, .struct [] [field "label" text], []⟩⟩

def rightItem : ScopedDecl :=
  ⟨"b", ⟨"X", none, .struct [] [field "label" text], []⟩⟩

def leftBox : TypeExpr := .ref boxed.name [.ref leftItem.name]

def rightBox : TypeExpr := .ref boxed.name [.ref rightItem.name]

def boxes : Store :=
  ⟨[⟨"a", [], [("X", leftItem.decl)], []⟩,
    ⟨"app", [], [("Box", boxed.decl), ("First", ⟨"First", none, .synonym [] leftBox, []⟩),
      ("Second", ⟨"Second", none, .synonym [] rightBox, []⟩)], []⟩,
    ⟨"b", [], [("X", rightItem.decl)], []⟩]⟩

def firstBox : TypeExpr := .ref ⟨"app", "First"⟩

def secondBox : TypeExpr := .ref ⟨"app", "Second"⟩

theorem boxes_returned :
    ∃ g p q, build .standard boxes = .ok g ∧ g.Returns [] firstBox p ∧
      g.Returns [firstBox] secondBox q ∧ q.name = p.name ∧
      g.resolver.ExpandsTo firstBox leftBox ∧ g.resolver.ExpandsTo secondBox rightBox := by
  have hbuild : build .standard boxes = .ok _ :=
    build_of_sorted rfl rfl rfl rfl rfl rfl (by decide)
  refine ⟨_, _, _, hbuild, rfl, rfl, rfl, ?_, ?_⟩
  · exact ⟨1, by decide, .step rfl rfl rfl rfl (.done rfl rfl rfl rfl)⟩
  · exact ⟨1, by decide, .step rfl rfl rfl rfl (.done rfl rfl rfl rfl)⟩

/-- Both boxes are emitted under one name. -/
theorem shape_returns_boxes :
    ∃ g p q, build .standard boxes = .ok g ∧ g.Returns [] firstBox p ∧
      g.Returns [firstBox] secondBox q ∧ q.name = p.name ∧ g.Answers leftBox p ∧
      g.Clash p.name leftBox rightBox := by
  have hplain : boxes.PlainlyWritten := ⟨by decide, by decide⟩
  have hfirst : firstBox.Plain := TypeExpr.plain_app.mpr ⟨⟨by decide, by decide⟩, nofun⟩
  have hsecond : secondBox.Plain := TypeExpr.plain_app.mpr ⟨⟨by decide, by decide⟩, nofun⟩
  obtain ⟨g, p, q, hbuild, hp, hq, hname, hleft, hright⟩ := boxes_returned
  obtain ⟨x, hx, hanswers, hothers⟩ :=
    (shape_returns hbuild (by decide) hplain (forall_mem_nil _) hfirst).2 p hp
  obtain ⟨y, hy, hclash⟩ := hothers [firstBox] (forall_mem_singleton.mpr hfirst)
    secondBox q hsecond hq hname
  obtain rfl := hx.unique hleft
  obtain rfl := hy.unique hright
  exact ⟨g, p, q, hbuild, hp, hq, hname, hanswers, hclash.resolve_left (by decide)⟩

end Graph

end SchemaCompiler
