import SchemaCompiler.Proofs.Projection
import SchemaCompiler.Proofs.Store
import SchemaCompiler.StandardModules

/-!
# The closure of a list of roots

Collecting goes round by round.  `Closes` is that loop without a bound on the
rounds; it ends on every list of roots, since each round but the last enters a
name that was not seen before.  What it collects is the least set of names that
holds the roots and, with a declaration, the targets outside the focus that its
projection refers to.
-/

namespace SchemaCompiler

open Outcome List Standard Projection Store

namespace Projection

/-- The targets of the reference wrappers in all fields. -/
def targets (p : Projection) : List ScopedName :=
  p.fields.flatMap (·.references)

/-- A projection with its place inside or outside the focus. -/
def marked (inFocus : ScopedName → Bool) (p : Projection) : Projection :=
  { p with external := !inFocus p.name }

@[simp]
theorem marked_name (inFocus : ScopedName → Bool) (p : Projection) :
    (p.marked inFocus).name = p.name := rfl

end Projection

namespace Resolver

variable {r : Resolver} {inFocus : ScopedName → Bool} {round roots decls : List ScopedDecl}
  {seen names : List ScopedName} {out projected : List Projection} {front front' : Frontier}
  {p : Projection} {n : ScopedName} {d : ScopedDecl} {outcome : Outcome (List Projection)}
  {budget : Nat} {targets : List ScopedName}

/-! ## Entering targets -/

theorem enterTarget_eq_ok (h : r.enterTarget inFocus front n = .ok front') :
    (front' = front ∧ (inFocus n = true ∨ n ∈ front.seen)) ∨
      ∃ d, r.store.resolve n = .ok d ∧ inFocus n = false ∧ n ∉ front.seen ∧
        front' = ⟨n :: front.seen, front.next ++ [d]⟩ := by
  unfold enterTarget at h
  split at h
  · rename_i hskip
    refine .inl ⟨by simpa using h.symm, ?_⟩
    simpa [or_comm] using hskip
  · rename_i hnew
    simp only [Bool.or_eq_true, contains_iff_mem, not_or, Bool.not_eq_true] at hnew
    split at h
    · cases h
    · rename_i d hd
      exact .inr ⟨d, hd, hnew.2, hnew.1, by simpa using h.symm⟩

/-- The names that a list of targets adds, in order, and their declarations. -/
structure Entered (r : Resolver) (inFocus : ScopedName → Bool) (targets : List ScopedName)
    (front front' : Frontier) (names : List ScopedName) (decls : List ScopedDecl) :
    Prop where
  seen_eq : front'.seen = names.reverse ++ front.seen
  next_eq : front'.next = front.next ++ decls
  resolves : Forall₂ (fun n d => r.store.resolve n = .ok d) names decls
  nodup : names.Nodup
  fresh : ∀ n ∈ names, n ∈ targets ∧ inFocus n = false ∧ n ∉ front.seen
  covers : ∀ n ∈ targets, inFocus n = true ∨ n ∈ front'.seen

theorem exists_entered (h : targets.foldlM (r.enterTarget inFocus) front = .ok front') :
    ∃ names decls, Entered r inFocus targets front front' names decls := by
  induction targets generalizing front with
  | nil =>
    obtain rfl : front = front' := pure_eq_ok.mp h
    exact ⟨[], [], by simp, by simp, .nil, .nil, by simp, by simp⟩
  | cons n targets ih =>
    obtain ⟨middle, hmiddle, hrest⟩ := bind_eq_ok.mp h
    obtain ⟨names, decls, hentered⟩ := ih hrest
    rcases enterTarget_eq_ok hmiddle with ⟨rfl, hskip⟩ | ⟨d, hd, hfocus, hseen, rfl⟩
    · refine ⟨names, decls, { hentered with fresh := ?_, covers := ?_ }⟩
      · intro m hm
        obtain ⟨htarget, hrest⟩ := hentered.fresh m hm
        exact ⟨mem_cons_of_mem n htarget, hrest⟩
      · intro m hm
        rcases mem_cons.mp hm with rfl | hm
        · refine hskip.imp_right fun hseen => ?_
          rw [hentered.seen_eq]
          exact mem_append_right _ hseen
        · exact hentered.covers m hm
    · have hn : n ∉ names := fun hn =>
        (hentered.fresh n hn).2.2 mem_cons_self
      refine ⟨n :: names, d :: decls, ?_, ?_, .cons hd hentered.resolves,
        nodup_cons.mpr ⟨hn, hentered.nodup⟩, ?_, ?_⟩
      · simp [hentered.seen_eq]
      · simp [hentered.next_eq]
      · intro m hm
        rcases mem_cons.mp hm with rfl | hm
        · exact ⟨mem_cons_self, hfocus, hseen⟩
        · obtain ⟨htarget, hout, hnew⟩ := hentered.fresh m hm
          exact ⟨mem_cons_of_mem n htarget, hout,
            fun hm => hnew (mem_cons_of_mem n hm)⟩
      · intro m hm
        rcases mem_cons.mp hm with rfl | hm
        · right
          rw [hentered.seen_eq]
          simp
        · exact hentered.covers m hm

theorem enterTargets_eq_ok :
    r.enterTargets inFocus p front = .ok front' ↔
      p.targets.foldlM (r.enterTarget inFocus) front = .ok front' := by
  unfold enterTargets Projection.targets
  apply foldlM_flatMap_eq_ok
  intro front f front'
  split <;> simp_all

/-! ## One round -/

theorem projectRound_eq_ok {ps : List Projection} :
    r.projectRound round = .ok ps ↔ Forall₂ (fun d p => r.project d [] = .ok p) round ps := by
  rw [projectRound, mapM_eq_ok]
  simp only [mapError_eq_ok]

/-- One round: the projections of its declarations and where it leaves off. -/
def closeRound (r : Resolver) (inFocus : ScopedName → Bool) (seen : List ScopedName)
    (round : List ScopedDecl) : Outcome (List Projection × Frontier) := do
  let projected ← r.projectRound round
  let front ← projected.foldlM (fun front p => r.enterTargets inFocus p front) ⟨seen, []⟩
  return (projected.map (·.marked inFocus), front)

theorem closeWithin_succ (budget : Nat) (seen : List ScopedName) (hround : round ≠ []) :
    r.closeWithin inFocus (budget + 1) seen round =
      (do
        let (found, front) ← r.closeRound inFocus seen round
        return found ++ (← r.closeWithin inFocus budget front.seen front.next)) := by
  obtain ⟨d, rest, rfl⟩ := exists_cons_of_ne_nil hround
  simp [closeWithin, closeRound, Projection.marked]

theorem exists_of_closeRound_ok {found : List Projection}
    (h : r.closeRound inFocus seen round = .ok (found, front)) :
    ∃ projected names decls,
      Forall₂ (fun d p => r.project d [] = .ok p) round projected ∧
      found = projected.map (·.marked inFocus) ∧
      Entered r inFocus (projected.flatMap (·.targets)) ⟨seen, []⟩ front names decls := by
  obtain ⟨projected, hprojected, h⟩ := bind_eq_ok.mp h
  obtain ⟨last, hlast, h⟩ := bind_eq_ok.mp h
  obtain ⟨rfl, rfl⟩ : projected.map (·.marked inFocus) = found ∧ last = front := by
    simpa using pure_eq_ok.mp h
  have hfold : (projected.flatMap (·.targets)).foldlM (r.enterTarget inFocus) ⟨seen, []⟩ =
      .ok last := by
    refine (foldlM_flatMap_eq_ok ?_).mp hlast
    exact fun _ _ _ => enterTargets_eq_ok
  obtain ⟨names, decls, hentered⟩ := exists_entered hfold
  exact ⟨projected, names, decls, projectRound_eq_ok.mp hprojected, rfl, hentered⟩

/-- The declarations of the next round are found in the store. -/
theorem Entered.next_mem_allDecls (h : Entered r inFocus targets ⟨seen, []⟩ front names decls) :
    ∀ d ∈ front.next, d ∈ r.store.allDecls := by
  intro d hd
  rw [h.next_eq, nil_append] at hd
  obtain ⟨_, _, hn⟩ := forall₂_exists_left h.resolves hd
  exact mem_allDecls_of_resolve_ok hn

/-- What holds of the names seen and the round ahead at the start of each
round. -/
structure RoundInvariant (r : Resolver) (seen : List ScopedName) (round : List ScopedDecl) :
    Prop where
  nodup : seen.Nodup
  known : seen ⊆ r.store.keys
  resolves : ∀ d ∈ round, r.store.resolve d.name = .ok d
  distinct : (round.map (·.name)).Nodup
  entered : ∀ d ∈ round, d.name ∈ seen

theorem Entered.map_name (hnames : r.store.NamedByKeys)
    (h : Entered r inFocus targets front front' names decls) : decls.map (·.name) = names := by
  have hresolves := h.resolves
  clear h
  induction hresolves with
  | nil => rfl
  | cons hd _ ih => rw [map_cons, name_eq_of_resolve_ok hnames hd, ih]

theorem RoundInvariant.next (hinv : RoundInvariant r seen round) (hnames : r.store.NamedByKeys)
    (h : Entered r inFocus targets ⟨seen, []⟩ front names decls) :
    RoundInvariant r front.seen front.next := by
  have hnext : front.next = decls := by simpa using h.next_eq
  have hresolves : ∀ d ∈ decls, r.store.resolve d.name = .ok d := by
    intro d hd
    obtain ⟨n, _, hn⟩ := forall₂_exists_left h.resolves hd
    rwa [name_eq_of_resolve_ok hnames hn]
  have hmap := h.map_name hnames
  rw [hnext, h.seen_eq]
  refine ⟨?_, ?_, hresolves, hmap ▸ h.nodup, ?_⟩
  · refine nodup_append.mpr ⟨nodup_reverse.mpr h.nodup, hinv.nodup, ?_⟩
    rintro n hn _ hseen rfl
    exact (h.fresh n (mem_reverse.mp hn)).2.2 hseen
  · intro n hn
    rcases mem_append.mp hn with hn | hn
    · rw [mem_reverse, ← hmap] at hn
      obtain ⟨d, hd, rfl⟩ := mem_map.mp hn
      exact mem_keys_of_resolve_ok (hresolves d hd)
    · exact hinv.known hn
  · intro d hd
    refine mem_append_left _ (mem_reverse.mpr ?_)
    rw [← hmap]
    exact mem_map_of_mem hd

/-! ## The loop -/

/-- The loop over rounds: it ends when a round is empty or fails. -/
inductive Closes (r : Resolver) (inFocus : ScopedName → Bool) :
    List ScopedName → List ScopedDecl → Outcome (List Projection) → Prop
  | done (seen : List ScopedName) : Closes r inFocus seen [] (.ok [])
  | refused {seen : List ScopedName} {round : List ScopedDecl} {failure : Failure} :
      round ≠ [] → r.closeRound inFocus seen round = .error failure →
      Closes r inFocus seen round (.error failure)
  | again {seen : List ScopedName} {round : List ScopedDecl} {found : List Projection}
      {front : Frontier} {rest : Outcome (List Projection)} :
      round ≠ [] → r.closeRound inFocus seen round = .ok (found, front) →
      Closes r inFocus front.seen front.next rest →
      Closes r inFocus seen round (rest.map (found ++ ·))

/-- The bound on the rounds is never what ends the loop: each round but the
first adds to the names seen, and there are no more of them than keys. -/
theorem closeWithin_closes (hnames : r.store.NamedByKeys) (hinv : RoundInvariant r seen round)
    (hbudget : round = [] ∨ r.store.keys.length < budget + seen.length) :
    Closes r inFocus seen round (r.closeWithin inFocus budget seen round) := by
  induction budget generalizing seen round with
  | zero =>
    have hlength : seen.length ≤ r.store.keys.length :=
      Nodup.length_le_of_subset hinv.nodup hinv.known
    obtain rfl : round = [] := hbudget.resolve_right (by omega)
    rw [closeWithin]
    exact .done seen
  | succ budget ih =>
    by_cases hround : round = []
    · subst hround
      rw [closeWithin]
      exact .done seen
    rw [closeWithin_succ budget seen hround]
    cases hclose : r.closeRound inFocus seen round with
    | error failure => exact .refused hround hclose
    | ok result =>
      obtain ⟨found, front⟩ := result
      obtain ⟨projected, names, decls, _, _, hentered⟩ := exists_of_closeRound_ok hclose
      refine .again hround hclose (ih (hinv.next hnames hentered) ?_)
      have hseen : front.seen.length = names.length + seen.length := by
        simp [hentered.seen_eq]
      have hnext : front.next.length = names.length := by
        simp [hentered.next_eq, hentered.resolves.length_eq]
      rcases names with _ | ⟨n, names⟩
      · exact .inl (eq_nil_of_length_eq_zero hnext)
      · right
        have := hbudget.resolve_left hround
        simp only [length_cons] at hseen
        omega

/-! ## What the loop collects -/

/-- The least set of names that holds the roots and, with a declaration, the
targets of its projection that lie outside the focus. -/
inductive Reached (r : Resolver) (inFocus : ScopedName → Bool) (roots : List ScopedDecl) :
    ScopedName → Prop
  | root {d : ScopedDecl} : d ∈ roots → Reached r inFocus roots d.name
  | target {m n : ScopedName} {d : ScopedDecl} {p : Projection} :
      Reached r inFocus roots m → r.store.resolve m = .ok d → r.project d [] = .ok p →
      n ∈ p.targets → inFocus n = false → Reached r inFocus roots n

theorem Reached.trans {others : List ScopedDecl} (h : Reached r inFocus others n)
    (hothers : ∀ d ∈ others, Reached r inFocus roots d.name) : Reached r inFocus roots n := by
  induction h with
  | root hd => exact hothers _ hd
  | target _ hresolve hproject hn hfocus ih => exact ih.target hresolve hproject hn hfocus

/-- What a round leaves for the next one is reached from its own declarations. -/
theorem Entered.reached
    (h : Entered r inFocus (projected.flatMap (·.targets)) ⟨seen, []⟩ front names decls)
    (hinv : RoundInvariant r seen round) (hnames : r.store.NamedByKeys)
    (hprojected : Forall₂ (fun d p => r.project d [] = .ok p) round projected) :
    ∀ d ∈ front.next, Reached r inFocus round d.name := by
  intro d hd
  rw [h.next_eq, nil_append] at hd
  have hname : d.name ∈ names := h.map_name hnames ▸ mem_map_of_mem hd
  obtain ⟨htarget, hfocus, _⟩ := h.fresh _ hname
  obtain ⟨p, hp, htarget⟩ := mem_flatMap.mp htarget
  obtain ⟨e, he, hep⟩ := forall₂_exists_left hprojected hp
  exact (Reached.root he).target (hinv.resolves e he) hep htarget hfocus

/-- What a loop that succeeds has collected, given the names seen before. -/
structure Collected (r : Resolver) (inFocus : ScopedName → Bool) (seen : List ScopedName)
    (round : List ScopedDecl) (out : List Projection) : Prop where
  projected : ∀ p ∈ out, ∃ d q, r.store.resolve d.name = .ok d ∧
    r.project d [] = .ok q ∧ p = q.marked inFocus
  distinct : (out.map (·.name)).Nodup
  fresh : ∀ p ∈ out, p.name ∈ round.map (·.name) ∨ p.name ∉ seen
  holds : ∀ d ∈ round, d.name ∈ out.map (·.name)
  closed : ∀ p ∈ out, ∀ n ∈ p.targets,
    inFocus n = true ∨ n ∈ seen ∨ n ∈ out.map (·.name)
  reached : ∀ p ∈ out, Reached r inFocus round p.name

theorem project_name {env : Env} (h : r.project d env = .ok p) : p.name = d.name := by
  obtain ⟨x, _, hname, _⟩ := exists_of_project_ok h
  exact hname

theorem map_name_of_projected
    (h : Forall₂ (fun d p => r.project d [] = .ok p) round projected) :
    projected.map (·.name) = round.map (·.name) := by
  induction h with
  | nil => rfl
  | cons hd _ ih => rw [map_cons, map_cons, project_name hd, ih]

section

variable {seen : List ScopedName} {targets : List ScopedName} {front : Frontier}
  {names : List ScopedName} {decls : List ScopedDecl} {rest : List Projection}
  (hrest : Collected r inFocus front.seen front.next rest) (hnames : r.store.NamedByKeys)
  (hentered : Entered r inFocus targets ⟨seen, []⟩ front names decls)
include hrest hnames hentered

/-- The rounds after one collect nothing that was seen before it. -/
theorem Collected.name_notMem_seen (hp : p ∈ rest) : p.name ∉ seen := by
  intro hold
  rcases hrest.fresh p hp with hname | hunseen
  · rw [hentered.next_eq, nil_append, hentered.map_name hnames] at hname
    exact (hentered.fresh _ hname).2.2 hold
  · rw [hentered.seen_eq] at hunseen
    exact hunseen (mem_append_right _ hold)

/-- The rounds after one collect what it has added to the names seen. -/
theorem Collected.mem_of_mem_seen (hn : n ∈ front.seen) : n ∈ seen ∨ n ∈ rest.map (·.name) := by
  rw [hentered.seen_eq, mem_append, mem_reverse] at hn
  rcases hn with hname | hold
  · right
    rw [← hentered.map_name hnames] at hname
    obtain ⟨d, hd, rfl⟩ := mem_map.mp hname
    refine hrest.holds d ?_
    rwa [hentered.next_eq, nil_append]
  · exact .inl hold

end

/-- One more round in front of what the rounds after it collect. -/
theorem Collected.again {rest : List Projection} (hinv : RoundInvariant r seen round)
    (hnames : r.store.NamedByKeys)
    (hprojected : Forall₂ (fun d p => r.project d [] = .ok p) round projected)
    (hentered : Entered r inFocus (projected.flatMap (·.targets)) ⟨seen, []⟩ front names decls)
    (hrest : Collected r inFocus front.seen front.next rest) :
    Collected r inFocus seen round (projected.map (·.marked inFocus) ++ rest) := by
  have hfound : (projected.map (·.marked inFocus)).map (·.name) = round.map (·.name) := by
    rw [← map_name_of_projected hprojected, map_map]
    rfl
  constructor
  case projected =>
    intro p hp
    rcases mem_append.mp hp with hp | hp
    · obtain ⟨q, hq, rfl⟩ := mem_map.mp hp
      obtain ⟨d, hd, hdq⟩ := forall₂_exists_left hprojected hq
      exact ⟨d, q, hinv.resolves d hd, hdq, rfl⟩
    · exact hrest.projected p hp
  case distinct =>
    rw [map_append, hfound]
    refine nodup_append.mpr ⟨hinv.distinct, hrest.distinct, ?_⟩
    rintro n hn m hm rfl
    obtain ⟨p, hp, rfl⟩ := mem_map.mp hm
    obtain ⟨d, hd, hname⟩ := mem_map.mp hn
    exact hrest.name_notMem_seen hnames hentered hp (hname ▸ hinv.entered d hd)
  case fresh =>
    intro p hp
    rcases mem_append.mp hp with hp | hp
    · left
      rw [← hfound]
      exact mem_map_of_mem hp
    · exact .inr (hrest.name_notMem_seen hnames hentered hp)
  case holds =>
    intro d hd
    rw [map_append, hfound]
    exact mem_append_left _ (mem_map_of_mem hd)
  case closed =>
    intro p hp n hn
    rw [map_append, mem_append]
    have hcover : inFocus n = true ∨ n ∈ front.seen ∨ n ∈ rest.map (·.name) := by
      rcases mem_append.mp hp with hp | hp
      · obtain ⟨q, hq, rfl⟩ := mem_map.mp hp
        exact (hentered.covers n (mem_flatMap.mpr ⟨q, hq, hn⟩)).imp_right .inl
      · exact hrest.closed p hp n hn
    rcases hcover with hfocus | hfront | hn
    · exact .inl hfocus
    · exact .inr ((hrest.mem_of_mem_seen hnames hentered hfront).imp_right .inr)
    · exact .inr (.inr (.inr hn))
  case reached =>
    intro p hp
    rcases mem_append.mp hp with hp | hp
    · have hname : p.name ∈ round.map (·.name) := hfound ▸ mem_map_of_mem hp
      obtain ⟨d, hd, hdp⟩ := mem_map.mp hname
      exact hdp ▸ .root hd
    · exact (hrest.reached p hp).trans (hentered.reached hinv hnames hprojected)

theorem Closes.collected (hnames : r.store.NamedByKeys) (h : Closes r inFocus seen round outcome)
    (hinv : RoundInvariant r seen round) (hout : outcome = .ok out) :
    Collected r inFocus seen round out := by
  induction h generalizing out with
  | done seen =>
    obtain rfl : [] = out := by simpa using hout
    constructor <;> simp
  | refused => cases hout
  | @again seen round found front rest _ hround _ ih =>
    obtain ⟨projected, names, decls, hprojected, rfl, hentered⟩ :=
      exists_of_closeRound_ok hround
    cases rest with
    | error failure => cases hout
    | ok rest =>
      obtain rfl : projected.map (·.marked inFocus) ++ rest = out := by
        simpa [Except.map] using hout
      exact .again hinv hnames hprojected hentered (ih (hinv.next hnames hentered) rfl)

/-- A collected projection belongs to the declaration of its name. -/
theorem Collected.eq_marked (h : Collected r inFocus seen round out) {q : Projection} (hp : p ∈ out)
    (hd : r.store.resolve p.name = .ok d) (hq : r.project d [] = .ok q) : p = q.marked inFocus := by
  obtain ⟨e, s, he, hs, rfl⟩ := h.projected p hp
  rw [Projection.marked_name, project_name hs] at hd
  obtain rfl : e = d := by simpa using he.symm.trans hd
  obtain rfl : s = q := by simpa using hs.symm.trans hq
  rfl

/-- Started with nothing seen but its own round, the loop collects every name
that is reached. -/
theorem Collected.exists_of_reached (h : Collected r inFocus (round.map (·.name)) round out)
    (hn : Reached r inFocus round n) : ∃ p ∈ out, p.name = n := by
  have hround : ∀ m ∈ round.map (·.name), m ∈ out.map (·.name) := by
    intro m hm
    obtain ⟨d, hd, rfl⟩ := mem_map.mp hm
    exact h.holds d hd
  rw [← mem_map]
  induction hn with
  | root hd => exact h.holds _ hd
  | @target m n d q _ hresolve hproject htarget hfocus ih =>
    obtain ⟨p, hp, rfl⟩ := mem_map.mp ih
    obtain rfl := h.eq_marked hp hresolve hproject
    rcases h.closed _ hp n htarget with hin | hn | hn
    · exact absurd hin (by simp [hfocus])
    · exact hround n hn
    · exact hn

theorem Collected.mem_iff (h : Collected r inFocus (round.map (·.name)) round out) :
    p ∈ out ↔ ∃ n d q, Reached r inFocus round n ∧ r.store.resolve n = .ok d ∧
      r.project d [] = .ok q ∧ p = { q with external := !inFocus n } := by
  constructor
  · intro hp
    obtain ⟨d, q, hd, hq, rfl⟩ := h.projected p hp
    have hname : q.name = d.name := project_name hq
    have hreached := h.reached _ hp
    rw [Projection.marked_name, hname] at hreached
    refine ⟨d.name, d, q, hreached, hd, hq, ?_⟩
    rw [Projection.marked, hname]
  · rintro ⟨n, d, q, hn, hd, hq, rfl⟩
    obtain ⟨p, hp, rfl⟩ := h.exists_of_reached hn
    have hmarked := h.eq_marked hp hd hq
    rw [hmarked] at hp ⊢
    exact hp

/-! ## When the loop succeeds -/

/-- A round of declarations that project, with targets that resolve, succeeds. -/
theorem exists_closeRound_ok (hinv : RoundInvariant r seen round)
    (hall : ∀ n, Reached r inFocus round n →
      ∃ d q, r.store.resolve n = .ok d ∧ r.project d [] = .ok q) :
    ∃ result, r.closeRound inFocus seen round = .ok result := by
  have hproject : ∀ d ∈ round, ∃ q, r.project d [] = .ok q := by
    intro d hd
    obtain ⟨e, q, he, hq⟩ := hall d.name (.root hd)
    obtain rfl : d = e := by simpa using (hinv.resolves d hd).symm.trans he
    exact ⟨q, hq⟩
  obtain ⟨projected, hprojected⟩ := exists_mapM_ok hproject
  have henter : ∀ n ∈ projected.flatMap (·.targets), ∀ front,
      ∃ front', r.enterTarget inFocus front n = .ok front' := by
    intro n hn front
    by_cases hskip : (front.seen.contains n || inFocus n) = true
    · exact ⟨front, by rw [enterTarget, if_pos hskip]⟩
    · obtain ⟨p, hp, htarget⟩ := mem_flatMap.mp hn
      obtain ⟨d, hd, hdp⟩ := forall₂_exists_left (mapM_eq_ok.mp hprojected) hp
      have hfocus : inFocus n = false := by
        cases hn : inFocus n <;> simp_all
      obtain ⟨e, _, he, _⟩ := hall n
        ((Reached.root hd).target (hinv.resolves d hd) hdp htarget hfocus)
      exact ⟨⟨n :: front.seen, front.next ++ [e]⟩, by rw [enterTarget, if_neg hskip, he]⟩
  obtain ⟨front, hfront⟩ := exists_foldlM_ok henter ⟨seen, []⟩
  refine ⟨(projected.map (·.marked inFocus), front), bind_eq_ok.mpr
    ⟨projected, projectRound_eq_ok.mpr (mapM_eq_ok.mp hprojected),
      bind_eq_ok.mpr ⟨front, ?_, rfl⟩⟩⟩
  refine (foldlM_flatMap_eq_ok ?_).mpr hfront
  exact fun _ _ _ => enterTargets_eq_ok

theorem Closes.exists_ok (hnames : r.store.NamedByKeys) (h : Closes r inFocus seen round outcome)
    (hinv : RoundInvariant r seen round)
    (hall : ∀ n, Reached r inFocus round n →
      ∃ d q, r.store.resolve n = .ok d ∧ r.project d [] = .ok q) : ∃ out, outcome = .ok out := by
  induction h with
  | done seen => exact ⟨[], rfl⟩
  | refused _ hround =>
    obtain ⟨result, hresult⟩ := exists_closeRound_ok hinv hall
    cases hround.symm.trans hresult
  | @again seen round found front rest _ hround _ ih =>
    obtain ⟨projected, names, decls, hprojected, rfl, hentered⟩ :=
      exists_of_closeRound_ok hround
    obtain ⟨out, rfl⟩ := ih (hinv.next hnames hentered) fun n hn =>
      hall n (hn.trans (hentered.reached hinv hnames hprojected))
    exact ⟨_, rfl⟩

/-! ## Roots -/

theorem distinctRoots_subset (hd : d ∈ distinctRoots seen roots) : d ∈ roots ∧ d.name ∉ seen := by
  induction roots generalizing seen with
  | nil => cases hd
  | cons e roots ih =>
    rw [distinctRoots] at hd
    split at hd
    · exact (ih hd).imp_left (mem_cons_of_mem e)
    · rename_i hseen
      rcases mem_cons.mp hd with rfl | hd
      · exact ⟨mem_cons_self, by simpa using hseen⟩
      · obtain ⟨hmem, hnot⟩ := ih hd
        exact ⟨mem_cons_of_mem e hmem, fun h => hnot (mem_cons_of_mem _ h)⟩

theorem exists_project_of_mem_closeWithin (hround : ∀ d ∈ round, d ∈ r.store.allDecls)
    (h : r.closeWithin inFocus budget seen round = .ok out) (hp : p ∈ out) :
    ∃ d ∈ r.store.allDecls, ∃ q, r.project d [] = .ok q ∧ p = q.marked inFocus := by
  induction budget generalizing seen round out with
  | zero => cases round <;> cases h <;> cases hp
  | succ budget ih =>
    by_cases hempty : round = []
    · subst hempty
      cases h
      cases hp
    · rw [closeWithin_succ budget seen hempty] at h
      obtain ⟨⟨found, front⟩, hfound, h⟩ := bind_eq_ok.mp h
      obtain ⟨rest, hrest, rfl⟩ := bind_pure_eq_ok.mp h
      obtain ⟨projected, _, _, hprojected, rfl, hentered⟩ := exists_of_closeRound_ok hfound
      rcases mem_append.mp hp with hp | hp
      · obtain ⟨q, hq, rfl⟩ := mem_map.mp hp
        obtain ⟨d, hd, hproject⟩ := forall₂_exists_left hprojected hq
        exact ⟨d, hround d hd, q, hproject, rfl⟩
      · exact ih hentered.next_mem_allDecls hrest hp

theorem exists_project_of_mem_closure (hroots : ∀ d ∈ roots, d ∈ r.store.allDecls)
    (h : r.closure roots inFocus = .ok out) (hp : p ∈ out) :
    ∃ d ∈ r.store.allDecls, ∃ q, r.project d [] = .ok q ∧ p = q.marked inFocus := by
  obtain ⟨found, hfound, hsorted⟩ := bind_eq_ok.mp h
  rw [← pure_eq_ok.mp hsorted, sort, mem_mergeSort] at hp
  exact exists_project_of_mem_closeWithin
    (fun d hd => hroots d (distinctRoots_subset hd).1) hfound hp

theorem distinctRoots_nodup (seen : List ScopedName) (roots : List ScopedDecl) :
    ((distinctRoots seen roots).map (·.name)).Nodup := by
  induction roots generalizing seen with
  | nil => exact .nil
  | cons e roots ih =>
    rw [distinctRoots]
    split
    · exact ih seen
    · refine nodup_cons.mpr ⟨?_, ih _⟩
      intro hmem
      obtain ⟨d, hd, hname⟩ := mem_map.mp hmem
      exact (distinctRoots_subset hd).2 (hname ▸ mem_cons_self)

theorem mem_distinctRoots_names (hd : d ∈ roots) (hseen : d.name ∉ seen) :
    d.name ∈ (distinctRoots seen roots).map (·.name) := by
  induction roots generalizing seen with
  | nil => cases hd
  | cons e roots ih =>
    rw [distinctRoots]
    by_cases hname : d.name = e.name
    · have : ¬ seen.contains e.name = true := by simpa [← hname] using hseen
      rw [if_neg this, hname]
      exact mem_cons_self
    · have hd : d ∈ roots := by
        rcases mem_cons.mp hd with rfl | hd
        · exact absurd rfl hname
        · exact hd
      split
      · exact ih hd hseen
      · refine mem_cons_of_mem _ (ih hd ?_)
        simp [hname, hseen]

theorem reached_distinctRoots :
    Reached r inFocus (distinctRoots [] roots) n ↔ Reached r inFocus roots n := by
  constructor
  · intro h
    exact h.trans fun d hd => .root (distinctRoots_subset hd).1
  · intro h
    refine h.trans fun d hd => ?_
    obtain ⟨e, he, hname⟩ := mem_map.mp (mem_distinctRoots_names hd not_mem_nil)
    exact hname ▸ .root he

theorem roundInvariant_roots (hnames : r.store.NamedByKeys)
    (hroots : ∀ d ∈ roots, ∃ n, r.store.resolve n = .ok d) :
    RoundInvariant r ((distinctRoots [] roots).map (·.name)) (distinctRoots [] roots) := by
  have hresolves : ∀ d ∈ distinctRoots [] roots, r.store.resolve d.name = .ok d := by
    intro d hd
    obtain ⟨n, hn⟩ := hroots d (distinctRoots_subset hd).1
    rwa [name_eq_of_resolve_ok hnames hn]
  refine ⟨distinctRoots_nodup [] roots, ?_, hresolves, distinctRoots_nodup [] roots,
    fun d hd => mem_map_of_mem hd⟩
  intro n hn
  obtain ⟨d, hd, rfl⟩ := mem_map.mp hn
  exact mem_keys_of_resolve_ok (hresolves d hd)

/-! ## The closure -/

/-- A list of projections that is, in strict order of names, the projections of
exactly the names reached from the roots. -/
structure IsClosure (r : Resolver) (inFocus : ScopedName → Bool) (roots : List ScopedDecl)
    (out : List Projection) : Prop where
  sorted : out.Pairwise fun p q => p.name.lt q.name = true
  mem_iff : ∀ p, p ∈ out ↔ ∃ n d q, Reached r inFocus roots n ∧
    r.store.resolve n = .ok d ∧ r.project d [] = .ok q ∧
    p = { q with external := !inFocus n }
  complete : ∀ n, Reached r inFocus roots n → ∃ p ∈ out, p.name = n

theorem IsClosure.eq {others : List Projection} (hout : IsClosure r inFocus roots out)
    (hothers : IsClosure r inFocus roots others) : out = others := by
  apply eq_of_pairwise_lt hout.sorted hothers.sorted
  intro p
  rw [hout.mem_iff, hothers.mem_iff]

theorem IsClosure.congr {others : List ScopedDecl} (hmem : ∀ d, d ∈ others ↔ d ∈ roots)
    (h : IsClosure r inFocus roots out) : IsClosure r inFocus others out := by
  have hreached : ∀ n, Reached r inFocus others n ↔ Reached r inFocus roots n := by
    intro n
    constructor
    · exact fun hn => hn.trans fun d hd => .root ((hmem d).mp hd)
    · exact fun hn => hn.trans fun d hd => .root ((hmem d).mpr hd)
  refine ⟨h.sorted, ?_, ?_⟩
  · intro p
    simp only [h.mem_iff, hreached]
  · intro n hn
    exact h.complete n ((hreached n).mp hn)

section

variable (hnames : r.store.NamedByKeys) {roots : List ScopedDecl}
  (hroots : ∀ d ∈ roots, ∃ n, r.store.resolve n = .ok d)
include hnames hroots

/-- Without a bound on its rounds, the loop ends on the roots, and its outcome
is the closure before sorting. -/
theorem exists_closes_closure (inFocus : ScopedName → Bool) :
    ∃ outcome, Closes r inFocus ((distinctRoots [] roots).map (·.name))
        (distinctRoots [] roots) outcome ∧
      r.closure roots inFocus = outcome.map sort := by
  have hbudget : r.store.keys.length <
      r.store.keys.length + 2 + ((distinctRoots [] roots).map (·.name)).length := by
    omega
  refine ⟨_, closeWithin_closes hnames (roundInvariant_roots hnames hroots) (.inr hbudget), ?_⟩
  dsimp only [closure]
  cases r.closeWithin inFocus (r.store.keys.length + 2)
      ((distinctRoots [] roots).map (·.name)) (distinctRoots [] roots) <;> rfl

theorem isClosure_of_closure_ok (h : r.closure roots inFocus = .ok out) :
    IsClosure r inFocus roots out := by
  obtain ⟨outcome, hcloses, hclosure⟩ := exists_closes_closure hnames hroots inFocus
  cases outcome with
  | error failure => cases hclosure.symm.trans h
  | ok found =>
    obtain rfl : sort found = out := by
      simpa [Except.map] using hclosure.symm.trans h
    have hfound := hcloses.collected hnames (roundInvariant_roots hnames hroots) rfl
    refine ⟨pairwise_lt_sort hfound.distinct, ?_, ?_⟩
    · intro p
      rw [sort, mem_mergeSort, hfound.mem_iff]
      simp only [reached_distinctRoots]
    · intro n hn
      obtain ⟨p, hp, hname⟩ := hfound.exists_of_reached (reached_distinctRoots.mpr hn)
      exact ⟨p, mem_mergeSort.mpr hp, hname⟩

theorem closure_ok_of_isClosure (h : IsClosure r inFocus roots out) :
    r.closure roots inFocus = .ok out := by
  obtain ⟨outcome, hcloses, hclosure⟩ := exists_closes_closure hnames hroots inFocus
  have hall : ∀ n, Reached r inFocus (distinctRoots [] roots) n →
      ∃ d q, r.store.resolve n = .ok d ∧ r.project d [] = .ok q := by
    intro n hn
    obtain ⟨p, hp, rfl⟩ := h.complete n (reached_distinctRoots.mp hn)
    obtain ⟨m, d, q, _, hd, hq, rfl⟩ := (h.mem_iff p).mp hp
    have hname : q.name = m := by
      rw [project_name hq, name_eq_of_resolve_ok hnames hd]
    exact ⟨d, q, hname ▸ hd, hq⟩
  obtain ⟨found, rfl⟩ :=
    hcloses.exists_ok hnames (roundInvariant_roots hnames hroots) hall
  have hsorted := isClosure_of_closure_ok hnames hroots hclosure
  rw [h.eq hsorted, hclosure]
  rfl

end

/-- Collecting ends, and succeeds exactly with the closure of its roots: the
projections of the least set of names that holds the roots and follows targets
out of the focus, in strict order of names and marked as external outside the
focus.  Order and repetition of the roots make no difference. -/
theorem closure_eq_ok_iff (hnames : r.store.NamedByKeys) {roots : List ScopedDecl}
    (hroots : ∀ d ∈ roots, ∃ n, r.store.resolve n = .ok d) (inFocus : ScopedName → Bool) :
    (∃ outcome, Closes r inFocus ((distinctRoots [] roots).map (·.name))
        (distinctRoots [] roots) outcome ∧
      r.closure roots inFocus = outcome.map Projection.sort) ∧
    (∀ out, r.closure roots inFocus = .ok out ↔ IsClosure r inFocus roots out) ∧
    ∀ others : List ScopedDecl, (∀ d, d ∈ others ↔ d ∈ roots) →
      ∀ out, r.closure others inFocus = .ok out ↔ r.closure roots inFocus = .ok out := by
  have hiff : ∀ out, r.closure roots inFocus = .ok out ↔ IsClosure r inFocus roots out :=
    fun out => ⟨isClosure_of_closure_ok hnames hroots, closure_ok_of_isClosure hnames hroots⟩
  refine ⟨exists_closes_closure hnames hroots inFocus, hiff, ?_⟩
  intro others hmem out
  have hothers : ∀ d ∈ others, ∃ n, r.store.resolve n = .ok d :=
    fun d hd => hroots d ((hmem d).mp hd)
  constructor
  · intro h
    exact (hiff out).mpr ((isClosure_of_closure_ok hnames hothers h).congr
      fun d => (hmem d).symm)
  · intro h
    exact closure_ok_of_isClosure hnames hothers (((hiff out).mp h).congr hmem)

/-- Orders and items lie in the focus; an order leads to its customer, the
customer to an account and the account back to the customer. -/
def item : ScopedDecl :=
  ⟨"app", ⟨"Item", none, .struct [] [field "sku" text], []⟩⟩

def customer : ScopedDecl :=
  ⟨"crm", ⟨"Customer", none, .struct []
    [field "account"
      (.prim "Nullable" [.ref ⟨"common.db", "DbKey"⟩ [.ref ⟨"billing", "Account"⟩]])], []⟩⟩

def account : ScopedDecl :=
  ⟨"billing", ⟨"Account", none, .struct []
    [field "owner" (.ref ⟨"common.db", "DbKey"⟩ [.ref customer.name])], []⟩⟩

def order : ScopedDecl :=
  ⟨"app", ⟨"Order", none, .struct []
    [field "customer" (.ref ⟨"common.db", "DbKey"⟩ [.ref customer.name]),
      field "items"
        (.prim "Vector" [.ref ⟨"common.db", "DbKey"⟩ [.ref item.name]])], []⟩⟩

def orders : Resolver :=
  ⟨⟨[⟨"app", [], [("Item", item.decl), ("Order", order.decl)], []⟩,
    ⟨"billing", [], [("Account", account.decl)], []⟩,
    ⟨"common.db", [], [newtypeDecl "DbKey" ["T"] text], []⟩,
    ⟨"crm", [], [("Customer", customer.decl)], []⟩]⟩, .standard⟩

/-- The four declarations make up the closure, with the roots in any order. -/
theorem closure_orders :
    ∃ out, orders.closure [order, item, order] (·.moduleName = "app") = .ok out ∧
      out.length = 4 ∧
      IsClosure orders (·.moduleName = "app") [order, item, order] out ∧
      orders.closure [item, order] (·.moduleName = "app") = .ok out := by
  have hroots : ∀ d ∈ [order, item, order], ∃ n, orders.store.resolve n = .ok d := by
    have horder : ∃ n, orders.store.resolve n = .ok order := ⟨order.name, rfl⟩
    have hitem : ∃ n, orders.store.resolve n = .ok item := ⟨item.name, rfl⟩
    simp [horder, hitem]
  have hsame : ∀ d, d ∈ [item, order] ↔ d ∈ [order, item, order] := by
    grind
  obtain ⟨_, hiff, hother⟩ :=
    closure_eq_ok_iff (r := orders) (by decide) hroots (·.moduleName = "app")
  refine ⟨_, rfl, ?_, (hiff _).mp rfl, (hother _ hsame _).mpr rfl⟩
  rw [Projection.sort, length_mergeSort]
  rfl

end Resolver

end SchemaCompiler
