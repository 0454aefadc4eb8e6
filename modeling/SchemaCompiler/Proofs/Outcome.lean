import Mathlib.Data.List.Forall2
import SchemaCompiler.Failure

/-!
# Outcomes of composed operations

When a sequence of operations succeeds, each of them did.  These are the facts
by which later proofs take a computation apart.
-/

namespace SchemaCompiler.Outcome

open List

variable {α β γ : Type} {as : List α} {R : α → β → Prop} {bs : List β} {f : α → Outcome β}
  {x : Outcome α} {step : β → α → Outcome β} {failure : Failure} {b init : β} {P : β → Prop}
  {p : α → Bool} {q : β → Bool} {cs : List γ} {a : α}

theorem bind_eq_ok : (x >>= f) = .ok b ↔ ∃ a, x = .ok a ∧ f a = .ok b := by
  cases x with
  | error failure | ok a => simp [bind, Except.bind]

/-- A sequence fails where its first step does, or where the rest does. -/
theorem bind_eq_error :
    (x >>= f) = .error failure ↔
      x = .error failure ∨ ∃ a, x = .ok a ∧ f a = .error failure := by
  cases x with
  | error other | ok a => simp [bind, Except.bind]

theorem pure_eq_ok {b : α} : (pure a : Outcome α) = .ok b ↔ a = b := by
  simp [pure, Except.pure]

theorem bind_pure_eq_ok {f : α → β} :
    (x >>= fun a => pure (f a)) = .ok b ↔ ∃ a, x = .ok a ∧ f a = b := by
  simp only [bind_eq_ok, pure_eq_ok]

theorem isOk_iff : x.isOk = true ↔ ∃ a, x = .ok a := by
  cases x with
  | error failure | ok a => simp [Except.isOk, Except.toBool]

theorem map_eq_ok {f : α → β} : x.map f = .ok b ↔ ∃ a, x = .ok a ∧ f a = b := by
  cases x with
  | error failure | ok a => simp [Except.map]

theorem map_eq_error {f : α → β} : x.map f = .error failure ↔ x = .error failure := by
  cases x <;> simp [Except.map]

theorem mapError_eq_ok {change : Failure → Failure} : x.mapError change = .ok a ↔ x = .ok a := by
  cases x <;> simp [Except.mapError]

/-- A traversal succeeds exactly when it succeeds on every element. -/
theorem mapM_eq_ok : as.mapM f = .ok bs ↔ Forall₂ (fun a b => f a = .ok b) as bs := by
  induction as generalizing bs with
  | nil => rw [mapM_nil, pure_eq_ok, forall₂_nil_left_iff, eq_comm]
  | cons a as ih =>
    rw [mapM_cons, bind_eq_ok, forall₂_cons_left_iff]
    constructor
    · rintro ⟨b, hb, hrest⟩
      obtain ⟨rest, hmap, hpure⟩ := bind_eq_ok.mp hrest
      exact ⟨b, rest, hb, ih.mp hmap, (pure_eq_ok.mp hpure).symm⟩
    · rintro ⟨b, rest, hb, hrest, rfl⟩
      exact ⟨b, hb, bind_eq_ok.mpr ⟨rest, ih.mpr hrest, rfl⟩⟩

/-- A traversal fails at the first element on which it fails. -/
theorem mapM_eq_error :
    as.mapM f = .error failure ↔ ∃ before a after, as = before ++ a :: after ∧
      (∀ x ∈ before, ∃ b, f x = .ok b) ∧ f a = .error failure := by
  induction as with
  | nil => simp [pure, Except.pure]
  | cons a as ih =>
    rw [mapM_cons, bind_eq_error]
    constructor
    · rintro (ha | ⟨b, hb, hrest⟩)
      · exact ⟨[], a, as, rfl, forall_mem_nil _, ha⟩
      · have hmap : as.mapM f = .error failure := by
          rcases bind_eq_error.mp hrest with hmap | ⟨_, _, hpure⟩
          · exact hmap
          · cases hpure
        obtain ⟨before, x, after, rfl, hbefore, hx⟩ := ih.mp hmap
        exact ⟨a :: before, x, after, rfl, forall_mem_cons.mpr ⟨⟨b, hb⟩, hbefore⟩, hx⟩
    · rintro ⟨before, x, after, heq, hbefore, hx⟩
      cases before with
      | nil =>
        obtain ⟨rfl, rfl⟩ := cons.inj heq
        exact .inl hx
      | cons first before =>
        obtain ⟨rfl, rfl⟩ := cons.inj heq
        obtain ⟨⟨b, hb⟩, hbefore⟩ := forall_mem_cons.mp hbefore
        have hmap := ih.mpr ⟨before, x, after, rfl, hbefore, hx⟩
        exact .inr ⟨b, hb, bind_eq_error.mpr (.inl hmap)⟩

/-- A traversal of optional values gives something exactly when every element does. -/
theorem mapM_eq_some {f : α → Option β} :
    as.mapM f = some bs ↔ Forall₂ (fun a b => f a = some b) as bs := by
  induction as generalizing bs with
  | nil => simp [eq_comm]
  | cons a as ih =>
    simp only [mapM_cons, Option.bind_eq_bind, Option.bind_eq_some_iff, ih,
      forall₂_cons_left_iff, Option.pure_def, Option.some.injEq]
    constructor
    · rintro ⟨b, hb, rest, hrest, rfl⟩
      exact ⟨b, rest, hb, hrest, rfl⟩
    · rintro ⟨b, rest, hb, hrest, rfl⟩
      exact ⟨b, hb, rest, hrest, rfl⟩

theorem exists_mapM_ok (h : ∀ a ∈ as, ∃ b, f a = .ok b) : ∃ bs, as.mapM f = .ok bs := by
  induction as with
  | nil => exact ⟨[], rfl⟩
  | cons a as ih =>
    obtain ⟨b, hb⟩ := h a mem_cons_self
    obtain ⟨bs, hbs⟩ := ih fun x hx => h x (mem_cons_of_mem a hx)
    exact ⟨b :: bs, mapM_eq_ok.mpr (.cons hb (mapM_eq_ok.mp hbs))⟩

theorem exists_mapM_ok_iff : (∃ bs, as.mapM f = .ok bs) ↔ ∀ a ∈ as, ∃ b, f a = .ok b := by
  refine ⟨?_, exists_mapM_ok⟩
  rintro ⟨bs, hbs⟩
  induction as generalizing bs with
  | nil => exact forall_mem_nil _
  | cons a as ih =>
    obtain ⟨b, rest, hb, hrest, rfl⟩ := forall₂_cons_left_iff.mp (mapM_eq_ok.mp hbs)
    exact forall_mem_cons.mpr ⟨⟨b, hb⟩, ih rest (mapM_eq_ok.mpr hrest)⟩

/-- A run succeeds where every step does, as long as it keeps what the next one needs. -/
theorem exists_foldlM_ok_of (h : ∀ a ∈ as, ∀ b, P b → ∃ c, step b a = .ok c ∧ P c)
    (hinit : P init) : ∃ result, as.foldlM step init = .ok result := by
  induction as generalizing init with
  | nil => exact ⟨init, rfl⟩
  | cons a as ih =>
    obtain ⟨next, hnext, hkept⟩ := h a mem_cons_self init hinit
    obtain ⟨result, hresult⟩ := ih (fun x hx => h x (mem_cons_of_mem a hx)) hkept
    exact ⟨result, bind_eq_ok.mpr ⟨next, hnext, hresult⟩⟩

theorem exists_foldlM_ok (h : ∀ a ∈ as, ∀ b, ∃ c, step b a = .ok c) (init : β) :
    ∃ result, as.foldlM step init = .ok result := by
  refine exists_foldlM_ok_of (P := fun _ => True) (fun a ha b _ => ?_) trivial
  obtain ⟨c, hc⟩ := h a ha b
  exact ⟨c, hc, trivial⟩

/-- What every step keeps, a run keeps. -/
theorem of_foldlM_ok (hstep : ∀ b a b', a ∈ as → P b → step b a = .ok b' → P b') {b' : β} (hb : P b)
    (h : as.foldlM step b = .ok b') : P b' := by
  induction as generalizing b with
  | nil =>
    obtain rfl := pure_eq_ok.mp h
    exact hb
  | cons a as ih =>
    rw [foldlM_cons] at h
    obtain ⟨next, hnext, h⟩ := bind_eq_ok.mp h
    refine ih (fun b x b' hx => hstep b x b' (.tail a hx)) ?_ h
    exact hstep b a next mem_cons_self hb hnext

/-- A fold over parts that are folds themselves is one fold over all parts. -/
theorem foldlM_flatMap_eq_ok {step : β → γ → Outcome β} {outer : β → α → Outcome β}
    {parts : α → List γ} (houter : ∀ b a c, outer b a = .ok c ↔ (parts a).foldlM step b = .ok c)
    {result : β} :
    as.foldlM outer init = .ok result ↔
      (as.flatMap parts).foldlM step init = .ok result := by
  induction as generalizing init with
  | nil => rfl
  | cons a as ih =>
    rw [foldlM_cons, flatMap_cons, foldlM_append, bind_eq_ok, bind_eq_ok]
    simp only [houter, ih]

/-- Operands that are computed on the way can be computed first. -/
theorem exists_mapM_of_foldlM_bind {operand : α → Outcome γ} {step : β → γ → Outcome β} {result : β}
    (h : as.foldlM (fun b a => do step b (← operand a)) init = .ok result) :
    ∃ cs, as.mapM operand = .ok cs ∧ cs.foldlM step init = .ok result := by
  induction as generalizing init with
  | nil => exact ⟨[], rfl, h⟩
  | cons a as ih =>
    rw [foldlM_cons] at h
    obtain ⟨b, hb, h⟩ := bind_eq_ok.mp h
    obtain ⟨c, hc, hstep⟩ := bind_eq_ok.mp hb
    obtain ⟨cs, hcs, hresult⟩ := ih h
    refine ⟨c :: cs, mapM_eq_ok.mpr (.cons hc (mapM_eq_ok.mp hcs)), ?_⟩
    rw [foldlM_cons]
    exact bind_eq_ok.mpr ⟨b, hstep, hresult⟩

/-! ## Lists related member by member -/

/-- Two relations on one list, combined member by member. -/
theorem forall₂_of_common {S : α → γ → Prop} {T : β → γ → Prop} (hR : Forall₂ R as bs)
    (hS : Forall₂ S as cs) (h : ∀ a ∈ as, ∀ b c, R a b → S a c → T b c) :
    Forall₂ T bs cs := by
  induction hR generalizing cs with
  | nil =>
    cases hS
    exact .nil
  | @cons a b as bs hab _ ih =>
    cases hS with
    | @cons _ c _ cs hac hrest =>
      exact .cons (h a mem_cons_self b c hab hac) (ih hrest fun x hx => h x (mem_cons_of_mem a hx))

theorem forall₂_exists_left (h : Forall₂ R as bs) (hb : b ∈ bs) : ∃ a ∈ as, R a b := by
  induction h with
  | nil => cases hb
  | @cons a c as bs hac _ ih =>
    rcases mem_cons.mp hb with rfl | hb
    · exact ⟨a, mem_cons_self, hac⟩
    · obtain ⟨x, hx, hxb⟩ := ih hb
      exact ⟨x, mem_cons_of_mem a hx, hxb⟩

theorem forall₂_exists_right (h : Forall₂ R as bs) (ha : a ∈ as) : ∃ b ∈ bs, R a b := by
  obtain ⟨b, hb, hab⟩ := forall₂_exists_left h.flip ha
  exact ⟨b, hb, hab⟩

/-- Members that are related have what follows from the relation. -/
theorem forall₂_imp_of_mem {S : α → β → Prop} (h : Forall₂ R as bs)
    (himp : ∀ a ∈ as, ∀ b ∈ bs, R a b → S a b) : Forall₂ S as bs := by
  induction h with
  | nil => exact .nil
  | @cons a b as bs hab _ ih =>
    refine .cons (himp a mem_cons_self b mem_cons_self hab) (ih fun x hx y hy => ?_)
    exact himp x (mem_cons_of_mem a hx) y (mem_cons_of_mem b hy)

/-- A relation that comes down to a property of the first members holds between
the lists when all of these have the property. -/
theorem forall₂_iff_of_forall₂ {S : α → β → Prop} {P : α → Prop} (h : Forall₂ R as bs)
    (hiff : ∀ a b, R a b → (S a b ↔ P a)) : Forall₂ S as bs ↔ ∀ a ∈ as, P a := by
  induction h with
  | nil => simp
  | cons hab _ ih => rw [forall₂_cons, forall_mem_cons, hiff _ _ hab, ih]

theorem forall₂_of_mapM {δ : Type} {S : γ → δ → Prop} {f : α → Outcome γ} {f' : β → Outcome δ}
    {ds : List δ} (h : Forall₂ R as bs) (hcs : as.mapM f = .ok cs) (hds : bs.mapM f' = .ok ds)
    (hstep : ∀ a b c d, R a b → f a = .ok c → f' b = .ok d → S c d) : Forall₂ S cs ds := by
  have hmiddle : Forall₂ (fun b c => ∃ a, R a b ∧ f a = .ok c) bs cs :=
    forall₂_of_common h (mapM_eq_ok.mp hcs) fun a _ b c hab hac => ⟨a, hab, hac⟩
  apply forall₂_of_common hmiddle (mapM_eq_ok.mp hds)
  rintro b _ c d ⟨a, hab, hac⟩ hbd
  exact hstep a b c d hab hac hbd

theorem forall₂_filter (h : Forall₂ R as bs) (hpq : ∀ a b, R a b → p a = q b) :
    Forall₂ R (as.filter p) (bs.filter q) := by
  apply rel_filter _ h
  intro a b hab
  simp only [hpq a b hab]

/-- Related lists are sorted alike when the order tells related members alike. -/
theorem forall₂_mergeSort {le : α → α → Bool} {le' : β → β → Bool} (h : Forall₂ R as bs)
    (hle : ∀ a b c d, R a b → R c d → le a c = le' b d) :
    Forall₂ R (as.mergeSort le) (bs.mergeSort le') := by
  obtain ⟨hlength, hzip⟩ := forall₂_iff_zip.mp h
  -- Both are projections of one sorted list of pairs.
  have hleft : as.mergeSort le =
      ((as.zip bs).mergeSort fun x y => le x.1 y.1).map Prod.fst := by
    rw [map_mergeSort (s := le) fun _ _ _ _ => rfl, map_fst_zip (Nat.le_of_eq hlength)]
  have hright : bs.mergeSort le' =
      ((as.zip bs).mergeSort fun x y => le x.1 y.1).map Prod.snd := by
    rw [map_mergeSort (s := le') fun x hx y hy => hle _ _ _ _ (hzip hx) (hzip hy),
      map_snd_zip (Nat.le_of_eq hlength.symm)]
  rw [hleft, hright, forall₂_map_left_iff, forall₂_map_right_iff, forall₂_same]
  intro x hx
  exact hzip (mem_mergeSort.mp hx)

theorem find?_of_forall₂ (h : Forall₂ R as bs) (hpq : ∀ a b, R a b → p a = q b) :
    Option.Rel R (as.find? p) (bs.find? q) := by
  induction h with
  | nil => exact .none
  | @cons a b as bs hab _ ih =>
    rw [find?_cons, find?_cons, hpq a b hab]
    cases q b with
    | true => exact .some hab
    | false => exact ih

/-! ## Kinds of failures -/

variable {F G : Failure → Prop}

/-- Every failure of the operation is of one kind. -/
def FailsOnly (F : Failure → Prop) (x : Outcome α) : Prop :=
  ∀ failure, x = .error failure → F failure

@[simp]
theorem failsOnly_ok : FailsOnly F (.ok a) := nofun

@[simp]
theorem failsOnly_error : FailsOnly F (.error failure : Outcome α) ↔ F failure := by
  simp [FailsOnly]

/-- A failure that is passed on keeps its kind. -/
theorem FailsOnly.error (hx : FailsOnly F x) (h : x = .error failure) :
    FailsOnly F (.error failure : Outcome β) :=
  failsOnly_error.mpr (hx failure h)

theorem FailsOnly.imp (hx : FailsOnly F x) (h : ∀ failure, F failure → G failure) :
    FailsOnly G x :=
  fun failure hfailure => h failure (hx failure hfailure)

theorem FailsOnly.bind (hx : FailsOnly F x) (hf : ∀ a, x = .ok a → FailsOnly F (f a)) :
    FailsOnly F (x >>= f) := by
  intro failure h
  rcases bind_eq_error.mp h with h | ⟨a, ha, h⟩
  · exact hx failure h
  · exact hf a ha failure h

/-- What is done with a result can no longer fail. -/
theorem FailsOnly.bind_pure {f : α → β} (hx : FailsOnly F x) :
    FailsOnly F (x >>= fun a => pure (f a)) :=
  hx.bind fun _ _ => failsOnly_ok

theorem FailsOnly.mapError {change : Failure → Failure} (hx : FailsOnly F x)
    (h : ∀ failure, F failure → G (change failure)) : FailsOnly G (x.mapError change) := by
  cases x with
  | error failure => exact failsOnly_error.mpr (h failure (hx failure rfl))
  | ok a => exact failsOnly_ok

theorem failsOnly_mapM (h : ∀ a ∈ as, FailsOnly F (f a)) : FailsOnly F (as.mapM f) := by
  induction as with
  | nil => exact failsOnly_ok
  | cons a as ih =>
    obtain ⟨ha, has⟩ := forall_mem_cons.mp h
    rw [mapM_cons]
    exact ha.bind fun _ _ => (ih has).bind_pure

theorem failsOnly_foldlM {step : β → α → Outcome β} (h : ∀ a ∈ as, ∀ b, FailsOnly F (step b a))
    (init : β) : FailsOnly F (as.foldlM step init) := by
  induction as generalizing init with
  | nil => exact failsOnly_ok
  | cons a as ih =>
    obtain ⟨ha, has⟩ := forall_mem_cons.mp h
    rw [foldlM_cons]
    exact (ha init).bind fun b _ => ih has b

end SchemaCompiler.Outcome
