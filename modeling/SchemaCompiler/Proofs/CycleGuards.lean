import SchemaCompiler.Proofs.ExpansionDepth

/-!
# Guards against cycles

The guards of alias expansion and of projections remember names and forget
arguments.  What they let through is what the expansion without guards gives.
They refuse a name that comes back, and it can come back on a way that ends: an
alias, new type or spread field that goes on with a type parameter leads to
whatever the argument is, which may be the same declaration again.  Without such
parameters a way that ends repeats no declaration.
-/

namespace SchemaCompiler

open Outcome List Standard TypeExpr Function

open Outcome (Repeats not_reports_ok repeats_error)

/-- The expansion goes on with a type parameter itself. -/
def Body.Passes (b : Body) : Prop :=
  ∃ p, param p ∈ b.inlined

theorem Body.fields_eq_nil {b : Body} {target : TypeExpr} (h : b.target? = some target) :
    b.fields = [] := by
  cases b with
  | struct | union => cases h
  | synonym | newtype => rfl

/-- A substitution keeps the head of everything but a parameter. -/
theorem TypeExpr.reference?_substitute {env : Env} {t u : TypeExpr}
    (h : t.substitute env = .ok u) (hparam : ∀ p, t ≠ param p) :
    u.reference? = t.reference? := by
  cases t with
  | missing =>
    obtain rfl : missing = u := by simpa [substitute] using h
    rfl
  | app head args =>
    obtain ⟨bs, hbs, hhead⟩ := substitute_app_eq_ok.mp h
    rcases substituteHead_eq_ok.mp hhead with ⟨p, rfl, rfl, _⟩ | ⟨_, rfl⟩
    · cases hbs
      exact absurd rfl (hparam p)
    · exact reference?_app head bs args

namespace Resolver

variable {r : Resolver} {e : Expansion} {x : Visit} {n : ScopedName} {depth : Nat} {inner : Inner}
  {s : TypeExpr}

/-! ## Aliases -/

/-- Replacing aliases at the head, with the names of those that are replaced. -/
inductive Unfolding (r : Resolver) : TypeExpr → List ScopedName → TypeExpr → Prop
  | here (t : TypeExpr) : Unfolding r t [] t
  | step {t next s : TypeExpr} {n : ScopedName} {names : List ScopedName}
      (h : r.Unfolds t n next) (hrest : Unfolding r next names s) : Unfolding r t (n :: names) s

/-- The declaration is an alias for a type parameter, or goes on with one in
another way. -/
def PassesOn (r : Resolver) (n : ScopedName) : Prop :=
  ∃ d, r.store.resolve n = .ok d ∧ d.decl.body.Passes

section Unfolding

variable {t s : TypeExpr} {names seen : List ScopedName} {budget : Nat}

theorem Unfolding.names_subset_keys (h : r.Unfolding t names s) : names ⊆ r.store.keys := by
  induction h with
  | here => exact nil_subset _
  | step h _ ih =>
    obtain ⟨_, _, d, _, _, _, hd, _⟩ := h
    exact cons_subset.mpr ⟨Store.mem_keys_of_resolve_ok hd, ih⟩

theorem Unfolding.expandWithin (h : r.Unfolding t names s) (hnodup : names.Nodup)
    (hseen : ∀ n ∈ names, n ∉ seen) (budget : Nat) :
    r.expandWithin (budget + names.length) seen t =
      r.expandWithin budget (names.reverse ++ seen) s := by
  induction h generalizing seen with
  | here => rfl
  | @step t next s n names h _ ih =>
    obtain ⟨hn, hnodup⟩ := nodup_cons.mp hnodup
    obtain ⟨hfresh, hseen⟩ := forall_mem_cons.mp hseen
    have hapart : ∀ m ∈ names, m ∉ n :: seen := by
      intro m hm hmem
      rcases mem_cons.mp hmem with rfl | hmem
      · exact hn hm
      · exact hseen m hm hmem
    calc r.expandWithin (budget + names.length + 1) seen t
        = r.expandWithin (budget + names.length) (n :: seen) next :=
          expandWithin_of_unfolds h hfresh _
      _ = r.expandWithin budget (names.reverse ++ n :: seen) s := ih hnodup hapart
      _ = r.expandWithin budget ((n :: names).reverse ++ seen) s := by simp

/-- A way without repetitions is followed to its end. -/
theorem Unfolding.expandAliases (h : r.Unfolding t names s) (hnodup : names.Nodup) :
    ∃ budget, r.expandAliases t = r.expandWithin (budget + 1) names.reverse s := by
  have hlength := (subperm_of_subset hnodup h.names_subset_keys).length_le
  refine ⟨r.store.keys.length - names.length, ?_⟩
  have hexpand := h.expandWithin hnodup (fun n _ => not_mem_nil)
    (r.store.keys.length - names.length + 1)
  rw [append_nil] at hexpand
  rw [← hexpand, Resolver.expandAliases]
  congr 1
  omega

theorem expandWithin_of_seen {next : TypeExpr} (h : r.Unfolds t n next) (hn : n ∈ seen)
    (budget : Nat) : r.expandWithin budget seen t = .error (cyclicAlias n) := by
  obtain ⟨hname, hreference, d, params, target, env, hd, hbody, henv, hnext⟩ := h
  unfold expandWithin
  cases budget <;> simp [hname, hreference, hd, hbody, hn]

/-- A name that comes back is refused. -/
theorem Unfolding.nodup_or_cyclic (h : r.Unfolding t names s)
    (hbudget : unseen r.store.keys seen < budget) :
    (names.Nodup ∧ ∀ n ∈ names, n ∉ seen) ∨
      ∃ n ∈ names, r.expandWithin budget seen t = .error (cyclicAlias n) := by
  induction h generalizing budget seen with
  | here => exact .inl ⟨nodup_nil, forall_mem_nil _⟩
  | @step t next s n names h _ ih =>
    by_cases hn : n ∈ seen
    · exact .inr ⟨n, mem_cons_self, expandWithin_of_seen h hn budget⟩
    obtain ⟨budget, rfl⟩ := Nat.exists_eq_succ_of_ne_zero (Nat.ne_zero_of_lt hbudget)
    obtain ⟨_, _, d, _, _, _, hd, _⟩ := id h
    have hless := unseen_cons_lt (Store.mem_keys_of_resolve_ok hd) hn
    rw [expandWithin_of_unfolds h hn]
    rcases ih (Nat.lt_of_lt_of_le hless (Nat.le_of_lt_succ hbudget)) with
      ⟨hnodup, hapart⟩ | ⟨m, hm, hcyclic⟩
    · left
      refine ⟨nodup_cons.mpr ⟨fun hmem => hapart n hmem mem_cons_self, hnodup⟩, ?_⟩
      refine forall_mem_cons.mpr ⟨hn, fun m hm hmem => ?_⟩
      exact hapart m hm (mem_cons_of_mem n hmem)
    · exact .inr ⟨m, mem_cons_of_mem n hm, hcyclic⟩

theorem head_of_nextRound?_cyclic {x : Round} (h : r.nextRound? x = .error (cyclicAlias n)) :
    x.2.reference? = some n ∧ n ∈ x.1 := by
  unfold nextRound? at h
  split at h
  · cases h
  · rename_i m hm
    by_cases hreference : r.wrappers.isReference m = true
    · rw [if_pos hreference] at h
      cases h
    rw [if_neg hreference] at h
    rcases bind_eq_error.mp h with h | ⟨d, _, h⟩
    · cases r.store.failsOnly_resolve m _ h
    split at h
    · rename_i params target hbody
      by_cases hseen : m ∈ x.1
      · rw [if_pos hseen] at h
        obtain rfl : m = n := by simpa [cyclicAlias] using h
        exact ⟨hm, hseen⟩
      rw [if_neg hseen] at h
      rcases bind_eq_error.mp h with h | ⟨env, _, h⟩
      · cases (Env.failsOnly_bind _ _ _ _ h).2
      rcases bind_eq_error.mp h with h | ⟨next, _, h⟩
      · obtain ⟨_, _, hparam⟩ := target.failsOnly_substitute _ _ h
        cases hparam
      · cases h
    · cases h

/-- What is refused comes back. -/
theorem exists_unfolding_of_cyclic (hbudget : unseen r.store.keys seen < budget)
    (h : r.expandWithin budget seen t = .error (cyclicAlias n)) :
    ∃ names s, r.Unfolding t names s ∧ s.reference? = some n ∧ (n ∈ names ∨ n ∈ seen) := by
  induction budget generalizing seen t with
  | zero => cases hbudget
  | succ budget ih =>
    rw [expandWithin_succ budget (seen, t), aliasRound] at h
    rcases bind_eq_error.mp h with h | ⟨next, hnext, h⟩
    · obtain ⟨hname, hseen⟩ := head_of_nextRound?_cyclic h
      exact ⟨[], t, .here t, hname, .inr hseen⟩
    · cases next with
      | none => cases h
      | some y =>
        have hless := unseen_of_nextRound hnext
        obtain ⟨m, hunfolds, _, hy⟩ := NextRound.exists_unfolds hnext
        obtain ⟨names, s, hrest, hname, hmem⟩ :=
          ih (Nat.lt_of_lt_of_le hless (Nat.le_of_lt_succ hbudget)) h
        refine ⟨m :: names, s, .step hunfolds hrest, hname, ?_⟩
        rw [hy] at hmem
        simp only [mem_cons] at hmem ⊢
        tauto

theorem Unfolding.exists_of_mem (h : r.Unfolding t names s) (hn : n ∈ names) :
    ∃ u rest, r.Unfolding u (n :: rest) s ∧ u.reference? = some n ∧ n :: rest <:+ names := by
  induction h with
  | here => cases hn
  | @step t next s m names h hrest ih =>
    rcases mem_cons.mp hn with rfl | hn
    · exact ⟨t, names, .step h hrest, h.1, suffix_refl _⟩
    · obtain ⟨u, rest, hu, hhead, hsuffix⟩ := ih hn
      exact ⟨u, rest, hu, hhead, hsuffix.trans (suffix_cons m names)⟩

/-- Where no alias goes on with a parameter, the head tells which ones follow. -/
theorem Unfolding.names_eq {t' s' : TypeExpr} {names' : List ScopedName}
    (h : r.Unfolding t names s) (hs : r.AtHead s) (h' : r.Unfolding t' names' s')
    (hs' : r.AtHead s') (hhead : t.reference? = t'.reference?)
    (hpasses : ∀ n ∈ names, ¬ r.PassesOn n) : names = names' := by
  induction h generalizing t' names' with
  | here t =>
    cases h' with
    | here => rfl
    | @step _ _ _ m _ hunfolds _ =>
      have hat : r.AtHead t' := fun n hn => hs n (hhead.trans hn)
      exact absurd hunfolds (not_unfolds_of_atHead hat)
  | @step t next s n names hunfolds _ ih =>
    obtain ⟨hn, hrest⟩ := forall_mem_cons.mp hpasses
    cases h' with
    | here =>
      have hat : r.AtHead t := fun n hn => hs' n (hhead.symm.trans hn)
      exact absurd hunfolds (not_unfolds_of_atHead hat)
    | @step _ next' _ m _ hunfolds' hrest' =>
      obtain ⟨hname, _, d, params, target, env, hd, hbody, _, hnext⟩ := hunfolds
      obtain ⟨hname', _, d', params', target', env', hd', hbody', _, hnext'⟩ := hunfolds'
      obtain rfl := Option.some.inj (hname.symm.trans (hhead.trans hname'))
      obtain rfl := Except.ok.inj (hd.symm.trans hd')
      obtain ⟨rfl, rfl⟩ : params = params' ∧ target = target' := by simpa [hbody] using hbody'
      have hparam : ∀ p, target ≠ .param p := by
        rintro p rfl
        exact hn ⟨d, hd, p, Body.target_mem_inlined (by rw [hbody]; rfl)⟩
      have hsame : next.reference? = next'.reference? := by
        rw [TypeExpr.reference?_substitute hnext hparam,
          TypeExpr.reference?_substitute hnext' hparam]
      rw [ih hs hrest' hsame hrest]

theorem Unfolding.nodup (h : r.Unfolding t names s) (hs : r.AtHead s)
    (hpasses : ∀ n ∈ names, ¬ r.PassesOn n) : names.Nodup := by
  induction h with
  | here => exact nodup_nil
  | @step t next s n names hunfolds hrest ih =>
    refine nodup_cons.mpr ⟨fun hmem => ?_, ih hs (forall_mem_cons.mp hpasses).2⟩
    -- From the second place of `n` on, the same names follow as from the first, so the way
    -- would be as long as its own rest.
    obtain ⟨u, rest, hu, hhead, hsuffix⟩ := hrest.exists_of_mem hmem
    have heq := (Unfolding.step hunfolds hrest).names_eq hs hu hs (hunfolds.1.trans hhead.symm)
      hpasses
    have hlength := hsuffix.length_le
    rw [← heq, length_cons] at hlength
    omega

end Unfolding

/-- What the guard of alias expansion does to the aliases of a type. -/
structure AliasGuard (r : Resolver) (t : TypeExpr) : Prop where
  /-- A way on which no alias comes twice is followed to its end. -/
  returns : ∀ names s, r.Unfolding t names s → names.Nodup → r.AtHead s →
    r.expandAliases t = .ok s
  unknown : ∀ names s n failure, r.Unfolding t names s → names.Nodup →
    s.reference? = some n → r.wrappers.isReference n = false →
    r.store.resolve n = .error failure → r.expandAliases t = .error failure
  /-- A way on which one comes twice is refused. -/
  refuses : ∀ names s, r.Unfolding t names s → ¬ names.Nodup →
    ∃ n ∈ names, r.expandAliases t = .error (cyclicAlias n)
  /-- Nothing else is refused. -/
  refused : ∀ n, r.expandAliases t = .error (cyclicAlias n) →
    ∃ names s, r.Unfolding t names s ∧ s.reference? = some n ∧ n ∈ names
  /-- A way that ends has an alias twice only by way of a parameter. -/
  parameter : ∀ names s, r.Unfolding t names s → r.AtHead s → ¬ names.Nodup →
    ∃ n ∈ names, r.PassesOn n

theorem aliasGuard (t : TypeExpr) : r.AliasGuard t where
  returns := by
    intro names s h hnodup hs
    obtain ⟨budget, hexpand⟩ := h.expandAliases hnodup
    rw [hexpand, expandWithin_of_atHead hs]
  unknown := by
    intro names s n failure h hnodup hname hreference hunknown
    obtain ⟨budget, hexpand⟩ := h.expandAliases hnodup
    rw [hexpand]
    unfold expandWithin
    simp [hname, hreference, hunknown]
  refuses := by
    intro names s h hrepeated
    rcases h.nodup_or_cyclic (Nat.lt_succ_of_le (unseen_le r.store.keys [])) with
      ⟨hnodup, _⟩ | hcyclic
    · exact absurd hnodup hrepeated
    · exact hcyclic
  refused := by
    intro n h
    obtain ⟨names, s, hunfolding, hname, hmem | hmem⟩ :=
      exists_unfolding_of_cyclic (Nat.lt_succ_of_le (unseen_le r.store.keys [])) h
    · exact ⟨names, s, hunfolding, hname, hmem⟩
    · cases hmem
  parameter := by
    intro names s h hs hrepeated
    by_contra hnone
    exact hrepeated (h.nodup hs fun n hn hpasses => hnone ⟨n, hn, hpasses⟩)

/-! ## Declarations -/

open Relation (ReflTransGen TransGen)

/-- The expansion without a guard comes to an end. -/
def FreelyReturns (r : Resolver) (x : Visit) (o : Outcome Expansion) : Prop :=
  ∃ depth, ∀ rest, r.inside^[depth] rest x = o

/-- A name that is visited comes back below. -/
structure ComesAround (r : Resolver) (x u v : Visit) : Prop where
  reached : ReflTransGen r.Inlines x u
  below : TransGen r.Inlines u v
  name_eq : u.decl.name = v.decl.name

/-- Stands in for visits that are too deep to be made. -/
def tooDeep : Inner := fun _ => .error (.panic none)

theorem FreelyReturns.unique {o o' : Outcome Expansion} (h : r.FreelyReturns x o)
    (h' : r.FreelyReturns x o') : o = o' := by
  obtain ⟨depth, hdepth⟩ := h
  obtain ⟨depth', hdepth'⟩ := h'
  calc o = r.inside^[depth] (r.inside^[depth'] tooDeep) x := (hdepth _).symm
    _ = r.inside^[depth'] (r.inside^[depth] tooDeep) x := by
      rw [← iterate_add_apply, ← iterate_add_apply, Nat.add_comm]
    _ = o' := hdepth' _

/-- With a guard an expansion ends as it does without one, or with a
repetition. -/
theorem visit_eq_or_repeats {f : Inner} (hf : ∀ y, Repeats (f y)) (g : Inner) (depth : Nat)
    (x : Visit) :
    r.visit^[depth] f x = r.inside^[depth] g x ∨ Repeats (r.visit^[depth] f x) := by
  induction depth generalizing x with
  | zero => exact .inr (hf x)
  | succ depth ih =>
    rw [iterate_succ_apply', iterate_succ_apply', visit]
    split_ifs with hactive
    · exact .inr (repeats_repetition x)
    · exact (asking_inside x).eq_or_repeats ih

theorem mem_active_of_inlines {u v : Visit} (h : TransGen r.Inlines u v) :
    u.decl.name ∈ v.trail.active := by
  induction h with
  | single h =>
    rw [h.trail]
    exact mem_cons_self
  | tail _ h ih =>
    rw [h.trail]
    exact mem_cons_of_mem _ ih

theorem exists_of_mem_active {v : Visit} (h : ReflTransGen r.Inlines x v)
    (hn : n ∈ v.trail.active) :
    n ∈ x.trail.active ∨
      ∃ u, ReflTransGen r.Inlines x u ∧ TransGen r.Inlines u v ∧ u.decl.name = n := by
  induction h with
  | refl => exact .inl hn
  | @tail w v hw h ih =>
    rw [h.trail, Trail.enter] at hn
    rcases mem_cons.mp hn with rfl | hn
    · exact .inr ⟨w, hw, .single h, rfl⟩
    · rcases ih hn with hn | ⟨u, hu, huw, hname⟩
      · exact .inl hn
      · exact .inr ⟨u, hu, huw.tail h, hname⟩

/-- A repetition is reported where a name comes back. -/
theorem exists_active_of_repeats (h : Repeats (r.visit^[depth] tooDeep x)) :
    ∃ v, ReflTransGen r.Inlines x v ∧ v.decl.name ∈ v.trail.active := by
  induction depth generalizing x with
  | zero =>
    have hpanic : (Failure.panic none).reports Failure.repetitionText = true :=
      repeats_error.mp h
    cases hpanic
  | succ depth ih =>
    rw [iterate_succ_apply', visit] at h
    split_ifs at h with hactive
    · exact ⟨x, .refl, hactive⟩
    · obtain ⟨y, hy, hrepeats⟩ := (asking_inside x).exists_repeats h
      obtain ⟨v, hv, hname⟩ := ih hrepeats
      exact ⟨v, .head hy hv, hname⟩

/-! ## Successful expansions -/

/-- A visit that succeeds has gone into all types of the body. -/
theorem expandType_of_inside_ok (h : r.inside inner x = .ok e) (hs : s ∈ x.decl.decl.body.inlined) :
    ∃ t y, s.substitute x.env = .ok t ∧
      r.expandType inner.enter (x.trail.enter x.decl) t = .ok y := by
  unfold inside at h
  cases htarget : x.decl.decl.body.target? with
  | some target =>
    have hfields := Body.fields_eq_nil htarget
    rw [htarget] at h
    obtain rfl : s = target := by simpa [Body.inlined, htarget, hfields] using hs
    obtain ⟨t, ht, hy⟩ := exists_of_expandTarget_ok h
    exact ⟨t, e, ht, hy⟩
  | none =>
    rw [htarget] at h
    obtain ⟨out, hout, _⟩ := bind_eq_ok.mp h
    obtain ⟨parts, hparts, _⟩ := exists_of_expandFields_ok (expandFields_of_shapeFields_ok hout)
    rw [Body.inlined, htarget] at hs
    obtain ⟨f, hf, rfl⟩ := mem_map.mp hs
    obtain ⟨hf, hspread⟩ := mem_filter.mp hf
    obtain ⟨part, _, hfield⟩ := forall₂_exists_right hparts hf
    obtain ⟨t, ht, _, ⟨_, y, hy, _⟩ | ⟨hplain, _⟩⟩ := exists_of_expandField_ok hfield
    · exact ⟨t, y, ht, hy⟩
    · rw [hspread] at hplain
      cases hplain

theorem inner_of_inside_ok {y : Visit} (h : r.inside inner x = .ok e) (hy : r.Inlines x y) :
    ∃ e', inner y = .ok e' := by
  obtain ⟨htrail, s, hs, n, args, ht, _, hd, henv⟩ := hy
  obtain ⟨t, e', ht', he'⟩ := expandType_of_inside_ok h hs
  obtain rfl := Except.ok.inj (ht.symm.trans ht')
  obtain ⟨m, bs, d, env, happ, hd', henv', he'⟩ := exists_of_expandType_ok he'
  obtain ⟨rfl, rfl⟩ : n = m ∧ args = bs := by simpa using happ
  obtain rfl := Except.ok.inj (hd.symm.trans hd')
  obtain rfl := Except.ok.inj (henv.symm.trans henv')
  obtain ⟨_, d, env⟩ := y
  cases htrail
  exact ⟨e', he'⟩

/-- A projection that succeeds meets no name again. -/
theorem not_active_of_visit_ok {v : Visit} (h : r.visit^[depth] tooDeep x = .ok e)
    (hv : ReflTransGen r.Inlines x v) : v.decl.name ∉ v.trail.active := by
  induction depth generalizing x e with
  | zero => cases h
  | succ depth ih =>
    rw [iterate_succ_apply', visit] at h
    split_ifs at h with hactive
    rcases hv.cases_head with rfl | ⟨y, hy, hv⟩
    · exact hactive
    · obtain ⟨e', he'⟩ := inner_of_inside_ok h hy
      exact ih he' hv

/-- The declarations that the body of another one names, whatever its parameters
are bound to. -/
def Leads (r : Resolver) (d e : ScopedDecl) : Prop :=
  ∃ s ∈ d.decl.body.inlined, ∃ n, s.reference? = some n ∧
    (r.wrappers.isReference n || r.wrappers.optionalRefs.contains n) = false ∧
    r.store.resolve n = .ok e

theorem Inlines.leads {y : Visit} (h : r.Inlines x y) (hpasses : ¬ x.decl.decl.body.Passes) :
    r.Leads x.decl y.decl := by
  obtain ⟨_, s, hs, n, args, ht, hwrapper, hd, _⟩ := h
  have hparam : ∀ p, s ≠ .param p := by
    rintro p rfl
    exact hpasses ⟨p, hs⟩
  exact ⟨s, hs, n, (TypeExpr.reference?_substitute ht hparam).symm, hwrapper, hd⟩

theorem Leads.exists_inlines {d : ScopedDecl} (h : r.Leads x.decl d)
    (hx : r.inside inner x = .ok e) : ∃ y, r.Inlines x y ∧ y.decl = d := by
  obtain ⟨s, hs, n, hname, hwrapper, hd⟩ := h
  obtain ⟨t, y, ht, hy⟩ := expandType_of_inside_ok hx hs
  obtain ⟨m, args, d', env, rfl, hd', henv, _⟩ := exists_of_expandType_ok hy
  have hparam : ∀ p, s ≠ .param p := by
    rintro p rfl
    cases hname
  obtain rfl : m = n := by
    have hsame := TypeExpr.reference?_substitute ht hparam
    rw [hname] at hsame
    exact Option.some.inj hsame
  obtain rfl := Except.ok.inj (hd.symm.trans hd')
  exact ⟨⟨x.trail.enter x.decl, d, env⟩, ⟨rfl, s, hs, m, args, ht, hwrapper, hd, henv⟩, rfl⟩

/-- A declaration whose body leads back to it has no successful expansion. -/
theorem not_ok_of_cycle (hcycle : TransGen r.Leads x.decl x.decl) (depth : Nat) (e : Expansion) :
    r.inside^[depth] tooDeep x ≠ .ok e := by
  induction depth generalizing x e with
  | zero =>
    intro h
    cases h
  | succ depth ih =>
    intro h
    rw [iterate_succ_apply'] at h
    -- The cycle is turned by one step, to start at the declaration that is visited next.
    obtain ⟨d, hd, hback⟩ := TransGen.head'_iff.mp hcycle
    obtain ⟨y, hy, rfl⟩ := hd.exists_inlines h
    obtain ⟨e', he'⟩ := inner_of_inside_ok h hy
    exact ih (TransGen.tail' hback hd) e' he'

theorem ok_of_reached {u : Visit} (h : r.inside^[depth] tooDeep x = .ok e)
    (hu : ReflTransGen r.Inlines x u) : ∃ depth e, r.inside^[depth] tooDeep u = .ok e := by
  induction hu using ReflTransGen.head_induction_on generalizing depth e with
  | refl => exact ⟨depth, e, h⟩
  | head hy _ ih =>
    cases depth with
    | zero => cases h
    | succ depth =>
      rw [iterate_succ_apply'] at h
      obtain ⟨e', he'⟩ := inner_of_inside_ok h hy
      exact ih he'

/-- Between two visits of one declaration something goes on with a parameter. -/
theorem exists_passes {u v : Visit} (h : r.inside^[depth] tooDeep u = .ok e)
    (hv : TransGen r.Inlines u v) (hdecl : u.decl = v.decl) :
    ∃ w, ReflTransGen r.Inlines u w ∧ TransGen r.Inlines w v ∧ w.decl.decl.body.Passes := by
  by_contra hnone
  have hleads : ∀ w, ReflTransGen r.Inlines u w → TransGen r.Inlines w v →
      TransGen r.Leads w.decl v.decl := by
    intro w hw hv
    induction hv using TransGen.head_induction_on with
    | single hwv => exact .single (hwv.leads fun hpasses => hnone ⟨_, hw, .single hwv, hpasses⟩)
    | head hwy hyv ih =>
      refine .head (hwy.leads fun hpasses => ?_) (ih (hw.tail hwy))
      exact hnone ⟨_, hw, .head hwy hyv, hpasses⟩
  have hcycle := hleads u .refl hv
  rw [← hdecl] at hcycle
  exact not_ok_of_cycle hcycle depth e h

/-- What the guard of projections does to the projection of a declaration. -/
structure ExpansionGuard (r : Resolver) (d : ScopedDecl) (env : Env) : Prop where
  /-- What is not refused is what the expansion without a guard gives. -/
  returns : ¬ Repeats (r.project d env) →
    ∃ o, r.FreelyReturns (firstVisit d env) o ∧ r.project d env = o.map (projectionOf d env)
  /-- Only a name that comes back is refused. -/
  refused : Repeats (r.project d env) → ∃ u v, r.ComesAround (firstVisit d env) u v
  /-- Where the expansion without a guard succeeds, all that come back are. -/
  refuses : ∀ e, r.FreelyReturns (firstVisit d env) (.ok e) →
    (∃ u v, r.ComesAround (firstVisit d env) u v) → Repeats (r.project d env)
  /-- There a declaration comes back only by way of a parameter. -/
  parameter : ∀ e u v, r.FreelyReturns (firstVisit d env) (.ok e) →
    r.ComesAround (firstVisit d env) u v → u.decl = v.decl →
    ∃ w, ReflTransGen r.Inlines u w ∧ TransGen r.Inlines w v ∧ w.decl.decl.body.Passes

section Projected

variable (d : ScopedDecl) (env : Env)

theorem repeats_project : Repeats (r.project d env) ↔
    Repeats (r.expand r.expansionBudget ⟨[], []⟩ d env) := by
  rw [project_eq_map]
  cases r.expand r.expansionBudget ⟨[], []⟩ d env with
  | error failure => exact repeats_error.trans repeats_error.symm
  | ok x => exact iff_of_false (not_reports_ok _) (not_reports_ok _)

/-- An expansion that is not refused is that without a guard. -/
theorem freelyReturns_of_not_repeats (h : ¬ Repeats (r.project d env)) :
    r.FreelyReturns (firstVisit d env) (r.expand r.expansionBudget ⟨[], []⟩ d env) := by
  rw [repeats_project] at h
  have hiterate := expand_eq_iterate (r := r) r.expansionBudget (firstVisit d env)
  rw [firstVisit] at hiterate ⊢
  rw [hiterate] at h ⊢
  have hbottom : ∀ y : Visit, Repeats (r.expand 0 y.trail y.decl y.env) := by
    intro y
    unfold expand
    dsimp only
    split_ifs <;> exact repeats_repetition y
  refine ⟨r.expansionBudget, fun rest => ?_⟩
  exact ((visit_eq_or_repeats hbottom rest _ _).resolve_right h).symm

theorem exists_comesAround_of_repeats (h : Repeats (r.project d env)) :
    ∃ u v, r.ComesAround (firstVisit d env) u v := by
  rw [repeats_project, ← (expand_endsWith d env).returns tooDeep] at h
  obtain ⟨v, hv, hactive⟩ := exists_active_of_repeats h
  rcases exists_of_mem_active hv hactive with hnone | ⟨u, hu, huv, hname⟩
  · cases hnone
  · exact ⟨u, v, hu, huv, hname⟩

theorem not_comesAround_of_ok {x : Expansion}
    (h : r.expand r.expansionBudget ⟨[], []⟩ d env = .ok x) {u v : Visit} :
    ¬ r.ComesAround (firstVisit d env) u v := by
  rw [← (expand_endsWith d env).returns tooDeep] at h
  intro hcomes
  refine not_active_of_visit_ok h (hcomes.reached.trans hcomes.below.to_reflTransGen) ?_
  rw [← hcomes.name_eq]
  exact mem_active_of_inlines hcomes.below

theorem expansionGuard : r.ExpansionGuard d env where
  returns h := ⟨_, freelyReturns_of_not_repeats d env h, project_eq_map d env⟩
  refused := exists_comesAround_of_repeats d env
  refuses := by
    rintro e hfree ⟨u, v, hcomes⟩
    by_contra hrepeats
    have hsame := (freelyReturns_of_not_repeats d env hrepeats).unique hfree
    exact not_comesAround_of_ok d env hsame hcomes
  parameter := by
    rintro e u v ⟨depth, hdepth⟩ hcomes hdecl
    obtain ⟨below, e', he'⟩ := ok_of_reached (hdepth tooDeep) hcomes.reached
    exact exists_passes he' hcomes.below hdecl

end Projected

/-- The guards let through what the unguarded expansions give and refuse names
that come back.  A name comes back on a way that ends only by way of a type
parameter. -/
theorem cycle_guards (r : Resolver) :
    (∀ t, r.AliasGuard t) ∧ ∀ d env, r.ExpansionGuard d env :=
  ⟨aliasGuard, expansionGuard⟩

/-! ## An alias for its own parameter -/

def sameAs : ScopedDecl :=
  ⟨"app", ⟨"Same", none, .synonym ["T"] (.param "T"), []⟩⟩

def wareItem : ScopedDecl :=
  ⟨"app", (structDecl "Item" [] [field "id" text]).2⟩

/-- The same twice over. -/
def twiceSame (t : TypeExpr) : TypeExpr :=
  .ref sameAs.name [.ref sameAs.name [t]]

def wareRow : ScopedDecl :=
  ⟨"app", (aliasDecl "Row" (twiceSame (.ref wareItem.name))).2⟩

def wares : Resolver :=
  ⟨⟨[⟨"app", [], [wareItem, wareRow, sameAs].map fun d => (d.decl.name, d.decl), []⟩]⟩, .standard⟩

/-- A visit of the alias below another visit. -/
def sameVisit (x : Visit) (t : TypeExpr) : Visit :=
  ⟨x.trail.enter x.decl, sameAs, [⟨"T", t⟩]⟩

theorem wares_inlines {t : TypeExpr} (hs : s ∈ x.decl.decl.body.inlined)
    (ht : s.substitute x.env = .ok (.ref sameAs.name [t])) : wares.Inlines x (sameVisit x t) :=
  ⟨rfl, s, hs, sameAs.name, [t], ht, rfl, rfl, rfl⟩

/-- An alias for its own parameter, applied twice, is refused as a cycle. -/
theorem cycle_guards_same :
    (∃ names, wares.Unfolding (twiceSame text) names text ∧
      wares.AtHead text ∧
      (∃ n ∈ names, wares.expandAliases (twiceSame text) = .error (cyclicAlias n)) ∧
      ∃ n ∈ names, wares.PassesOn n) ∧
    ∃ e, wares.FreelyReturns (firstVisit wareRow []) (.ok e) ∧ e.shape = wareItem ∧
      Repeats (wares.project wareRow []) := by
  have hunfolds (t : TypeExpr) : wares.Unfolds (.ref sameAs.name [t]) sameAs.name t :=
    ⟨rfl, rfl, sameAs, ["T"], .param "T", [⟨"T", t⟩], rfl, rfl, rfl, rfl⟩
  have htext : wares.AtHead text := by
    intro n hn
    cases hn
  have htwice : wares.Unfolding (twiceSame text) [sameAs.name, sameAs.name]
      text := .step (hunfolds _) (.step (hunfolds _) (.here _))
  have hguard := (cycle_guards wares).1 (twiceSame text)
  refine ⟨⟨_, htwice, htext, hguard.refuses _ _ htwice (by simp),
    hguard.parameter _ _ htwice htext (by simp)⟩, ?_⟩
  obtain ⟨e, hfree, hshape⟩ : ∃ e, wares.FreelyReturns (firstVisit wareRow []) (.ok e) ∧
      e.shape = wareItem := ⟨⟨wareItem, _, _⟩, ⟨4, fun rest => rfl⟩, rfl⟩
  refine ⟨e, hfree, hshape, ((cycle_guards wares).2 wareRow []).refuses e hfree ?_⟩
  let u := sameVisit (firstVisit wareRow []) (.ref sameAs.name [.ref wareItem.name])
  have hu : wares.Inlines (firstVisit wareRow []) u :=
    wares_inlines (s := twiceSame (.ref wareItem.name)) mem_cons_self rfl
  have hv : wares.Inlines u (sameVisit u (.ref wareItem.name)) :=
    wares_inlines (s := .param "T") mem_cons_self rfl
  exact ⟨u, _, .single hu, .single hv, rfl⟩

end Resolver

end SchemaCompiler
