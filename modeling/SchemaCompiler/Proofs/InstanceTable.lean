import Mathlib.Data.List.Nodup
import SchemaCompiler.Instance

/-!
# The table of instances

Recording a field does one of four things: it passes the field over, refuses
it, adds a use to a recorded instance, or enters a new instance.  Whatever the
calls, the table stays consistent: instances of one declaration differ in
their names, and the name of an application is the one it was recorded under.
-/

namespace SchemaCompiler

open List Instance

/-- The declaration that an application applies. -/
def TypeExpr.applied (t : TypeExpr) : ScopedName :=
  t.reference?.getD .blank

/-- The application that a field uses, if the field is to be recorded. -/
def Resolver.application? (r : Resolver) (f : ConcreteField) : Option TypeExpr :=
  if f.monomorphized then (r.core f.typeExpr).toOption else none

namespace Instance

/-- An instance without its uses. -/
def face (i : Instance) : Instance := { i with referencedBy := [] }

@[simp]
theorem face_name (i : Instance) : i.face.name = i.name := rfl

@[simp]
theorem face_generic (i : Instance) : i.face.generic = i.generic := rfl

@[simp]
theorem face_typeExpr (i : Instance) : i.face.typeExpr = i.typeExpr := rfl

/-- An instance after a further use of the one with a given name. -/
def addUse (generic : ScopedName) (name use : String) (i : Instance) : Instance :=
  if i.generic = generic ∧ i.name = name then { i with referencedBy := i.referencedBy ++ [use] }
  else i

@[simp]
theorem face_addUse (generic : ScopedName) (name use : String) (i : Instance) :
    (i.addUse generic name use).face = i.face := by
  unfold addUse
  split <;> rfl

@[simp]
theorem typeExpr_addUse (generic : ScopedName) (name use : String) (i : Instance) :
    (i.addUse generic name use).typeExpr = i.typeExpr := by
  rw [← face_typeExpr, face_addUse, face_typeExpr]

end Instance

namespace Tracker

variable {r : Resolver} {t t' : Tracker} {entries : List (ScopedName × List Instance)}
  {g : ScopedName} {i : Instance} {answer : Outcome (Option (Instance × Bool))} {is : List Instance}
  {a : TypeExpr} {name use : String}

/-- All instances, of whatever declaration. -/
def recorded (t : Tracker) : List Instance :=
  t.instances.flatMap (·.2)

/-- What is recorded, apart from the uses. -/
def faces (t : Tracker) : List Instance :=
  t.recorded.map face

/-! ## Entries by declaration -/

/-- Each declaration has one entry, with its own instances. -/
structure Filed (entries : List (ScopedName × List Instance)) : Prop where
  nodup : (entries.map (·.1)).Nodup
  generic_eq : ∀ entry ∈ entries, ∀ i ∈ entry.2, i.generic = entry.1

theorem Filed.of_cons {entry : ScopedName × List Instance} (h : Filed (entry :: entries)) :
    Filed entries ∧ entry.1 ∉ entries.map (·.1) ∧ ∀ i ∈ entry.2, i.generic = entry.1 := by
  obtain ⟨hkey, hnodup⟩ := nodup_cons.mp h.nodup
  obtain ⟨hentry, hrest⟩ := forall_mem_cons.mp h.generic_eq
  exact ⟨⟨hnodup, hrest⟩, hkey, hentry⟩

theorem Filed.generic_ne (h : Filed entries) (hg : g ∉ entries.map (·.1)) :
    ∀ i ∈ entries.flatMap (·.2), i.generic ≠ g := by
  intro i hi heq
  obtain ⟨entry, hentry, hi⟩ := mem_flatMap.mp hi
  exact hg (mem_map.mpr ⟨entry, hentry, (h.generic_eq entry hentry i hi).symm.trans heq⟩)

/-- An entry holds all recorded instances of its declaration. -/
theorem lookup_eq_filter (h : Filed entries) (g : ScopedName) :
    (entries.lookup g).getD [] = (entries.flatMap (·.2)).filter (·.generic = g) := by
  induction entries with
  | nil => rfl
  | cons entry rest ih =>
    obtain ⟨hrest, hkey, hentry⟩ := h.of_cons
    rw [lookup_cons, flatMap_cons, filter_append]
    by_cases heq : g = entry.1
    · have hall : entry.2.filter (·.generic = g) = entry.2 :=
        filter_eq_self.mpr (by simpa [heq] using hentry)
      have hnone : (rest.flatMap (·.2)).filter (·.generic = g) = [] :=
        filter_eq_nil_iff.mpr (by simpa [heq] using hrest.generic_ne hkey)
      rw [hall, hnone, append_nil]
      simp [heq]
    · have hnone : entry.2.filter (·.generic = g) = [] := by
        refine filter_eq_nil_iff.mpr fun i hi => ?_
        simpa [hentry i hi] using Ne.symm heq
      rw [hnone, nil_append, ← ih hrest, beq_eq_false_iff_ne.mpr heq]

theorem siblings_eq_filter (h : Filed t.instances) (g : ScopedName) :
    t.siblings g = t.recorded.filter (·.generic = g) :=
  lookup_eq_filter h g

theorem mem_siblings (h : Filed t.instances) :
    i ∈ t.siblings g ↔ i ∈ t.recorded ∧ i.generic = g := by
  rw [siblings_eq_filter h, mem_filter, decide_eq_true_iff]

/-- The entries with those of one declaration replaced. -/
def replaced (g : ScopedName) (is : List Instance)
    (entries : List (ScopedName × List Instance)) : List (ScopedName × List Instance) :=
  entries.map fun entry => if entry.1 = g then (entry.1, is) else entry

theorem replaced_cons (g : ScopedName) (is : List Instance)
    (entry : ScopedName × List Instance) (entries : List (ScopedName × List Instance)) :
    replaced g is (entry :: entries) =
      (if entry.1 = g then (entry.1, is) else entry) :: replaced g is entries :=
  rfl

theorem map_fst_replaced (g : ScopedName) (is : List Instance)
    (entries : List (ScopedName × List Instance)) :
    (replaced g is entries).map (·.1) = entries.map (·.1) := by
  rw [replaced, map_map]
  refine map_congr_left ?_
  intro entry _
  dsimp only [Function.comp]
  split <;> rfl

/-- Replacing the instances of a declaration keeps those of all others. -/
theorem flatMap_replaced_perm (h : Filed entries) (hg : g ∈ entries.map (·.1)) :
    ((replaced g is entries).flatMap (·.2)).Perm
      ((entries.flatMap (·.2)).filter (·.generic ≠ g) ++ is) := by
  induction entries with
  | nil => cases hg
  | cons entry rest ih =>
    obtain ⟨hrest, hkey, hentry⟩ := h.of_cons
    rw [replaced_cons, flatMap_cons, flatMap_cons, filter_append]
    by_cases heq : entry.1 = g
    · have hnone : entry.2.filter (·.generic ≠ g) = [] :=
        filter_eq_nil_iff.mpr (by simpa [heq] using hentry)
      have hall : (rest.flatMap (·.2)).filter (·.generic ≠ g) = rest.flatMap (·.2) :=
        filter_eq_self.mpr (by simpa [heq] using hrest.generic_ne hkey)
      have hsame : replaced g is rest = rest := by
        refine (map_congr_left ?_).trans (map_id rest)
        intro other hother
        exact if_neg fun hg => hkey (mem_map.mpr ⟨other, hother, hg.trans heq.symm⟩)
      rw [hnone, hall, if_pos heq, hsame]
      exact perm_append_comm
    · have hall : entry.2.filter (·.generic ≠ g) = entry.2 := by
        refine filter_eq_self.mpr fun i hi => ?_
        simpa [hentry i hi] using heq
      have hg : g ∈ rest.map (·.1) := by
        simpa [Ne.symm heq] using hg
      rw [hall, if_neg heq, append_assoc]
      exact (ih hrest hg).append_left entry.2

theorem withSiblings_instances (t : Tracker) (g : ScopedName) (is : List Instance) :
    (t.withSiblings g is).instances =
      if g ∈ t.instances.map (·.1) then replaced g is t.instances
      else t.instances ++ [(g, is)] := by
  have hkey : (t.instances.lookup g).isSome = true ↔ g ∈ t.instances.map (·.1) := by
    rw [← Option.ne_none_iff_isSome, ne_eq, lookup_eq_none_iff, mem_map]
    simp only [bne_iff_ne, ne_eq, not_forall, not_not, exists_prop]
    exact exists_congr fun entry => and_congr_right fun _ => eq_comm
  simp only [withSiblings, hkey]
  rfl

theorem filed_withSiblings (h : Filed t.instances) (his : ∀ i ∈ is, i.generic = g) :
    Filed (t.withSiblings g is).instances := by
  rw [withSiblings_instances]
  split_ifs with hg
  · refine ⟨by rw [map_fst_replaced]; exact h.nodup, ?_⟩
    intro entry hentry i hi
    obtain ⟨old, hold, rfl⟩ := mem_map.mp hentry
    split_ifs at hi ⊢ with hn
    · rw [his i hi, hn]
    · exact h.generic_eq old hold i hi
  · refine ⟨?_, ?_⟩
    · rw [map_append, nodup_append]
      refine ⟨h.nodup, by simp, ?_⟩
      rintro n hn _ hsingle rfl
      obtain rfl : n = g := by simpa using hsingle
      exact hg hn
    · intro entry hentry
      rcases mem_append.mp hentry with hentry | hentry
      · exact h.generic_eq entry hentry
      · obtain rfl := mem_singleton.mp hentry
        exact his

theorem recorded_withSiblings (h : Filed t.instances) :
    (t.withSiblings g is).recorded.Perm (t.recorded.filter (·.generic ≠ g) ++ is) := by
  rw [recorded, withSiblings_instances]
  split_ifs with hg
  · exact flatMap_replaced_perm h hg
  · have hall : t.recorded.filter (·.generic ≠ g) = t.recorded :=
      filter_eq_self.mpr fun i hi => decide_eq_true (h.generic_ne hg i hi)
    rw [hall, flatMap_append, flatMap_singleton, recorded]

/-- Changing the instances of a declaration one by one. -/
theorem recorded_withSiblings_map {change : Instance → Instance} (h : Filed t.instances)
    (hother : ∀ i, i.generic ≠ g → change i = i) :
    (t.withSiblings g ((t.siblings g).map change)).recorded.Perm (t.recorded.map change) := by
  have hkept : (t.recorded.filter (·.generic ≠ g)).map change =
      t.recorded.filter (·.generic ≠ g) := by
    refine (map_congr_left ?_).trans (map_id _)
    intro i hi
    exact hother i (by simpa using (mem_filter.mp hi).2)
  have hsplit : (t.recorded.filter (·.generic ≠ g) ++ t.siblings g).Perm t.recorded := by
    rw [siblings_eq_filter h]
    refine perm_append_comm.trans ?_
    simpa using filter_append_perm (fun i : Instance => decide (i.generic = g)) t.recorded
  calc (t.withSiblings g ((t.siblings g).map change)).recorded.Perm
        (t.recorded.filter (·.generic ≠ g) ++ (t.siblings g).map change) :=
        recorded_withSiblings h
    _ = (t.recorded.filter (·.generic ≠ g) ++ t.siblings g).map change := by
        rw [map_append, hkept]
    Perm _ (t.recorded.map change) := hsplit.map change

/-! ## What recording does -/

/-- The effect of recording a field, by the application that the field uses and
the answer. -/
inductive RecordEffect (t t' : Tracker) (use : String) :
    Option TypeExpr → Outcome (Option (Instance × Bool)) → Prop where
  | passed (hnames : t'.names = t.names) (hrecorded : t'.recorded.Perm t.recorded) :
      RecordEffect t t' use none (.ok none)
  | refused {application : Option TypeExpr} {failure : Failure} (hnames : t'.names = t.names)
      (hrecorded : t'.recorded.Perm t.recorded) :
      RecordEffect t t' use application (.error failure)
  | again {a : TypeExpr} {i : Instance} (hi : i ∈ t.recorded)
      (hgeneric : i.generic = a.applied)
      (hname : t.names.lookup a.scopedText = some i.name)
      (hnames : t'.names = t.names)
      (hrecorded : t'.recorded.Perm (t.recorded.map (addUse i.generic i.name use))) :
      RecordEffect t t' use (some a) (.ok (some (addUse i.generic i.name use i, false)))
  | new {a : TypeExpr} {name : String} (hunknown : t.names.lookup a.scopedText = none)
      (hname : uniqueName (t.siblings a.applied) a = .ok name)
      (hfree : ∀ i ∈ t.recorded, i.generic = a.applied → i.name ≠ name)
      (hnames : t'.names = (a.scopedText, name) :: t.names)
      (hrecorded : t'.recorded.Perm (t.recorded ++ [⟨name, a.applied, a, [use]⟩])) :
      RecordEffect t t' use (some a) (.ok (some (⟨name, a.applied, a, [use]⟩, true)))

/-- The instances of each declaration are filed under it and differ in their
names, and the index of names has exactly the recorded applications. -/
structure Consistent (t : Tracker) : Prop where
  filed : Filed t.instances
  distinct : (t.faces.map fun i => (i.generic, i.name)).Nodup
  generic_eq : ∀ i ∈ t.faces, i.generic = i.typeExpr.applied
  lookup_iff : ∀ text name, t.names.lookup text = some name ↔
    ∃ i ∈ t.faces, i.typeExpr.scopedText = text ∧ i.name = name
  named : ∀ i ∈ t.faces, ∃ others, uniqueName others i.typeExpr = .ok i.name

theorem mem_faces (h : i ∈ t.recorded) : i.face ∈ t.faces :=
  mem_map_of_mem h

theorem Consistent.generic_of_mem (h : t.Consistent) (hi : i ∈ t.recorded) :
    i.generic = i.typeExpr.applied :=
  h.generic_eq i.face (mem_faces hi)

theorem Consistent.lookup_of_mem (h : t.Consistent) (hi : i ∈ t.recorded) :
    t.names.lookup i.typeExpr.scopedText = some i.name :=
  (h.lookup_iff _ _).mpr ⟨i.face, mem_faces hi, rfl, rfl⟩

theorem Consistent.eq_of_name_eq (h : t.Consistent) {j : Instance} (hi : i ∈ t.recorded)
    (hj : j ∈ t.recorded) (hgeneric : i.generic = j.generic) (hname : i.name = j.name) : i = j := by
  have hnodup := h.distinct
  rw [faces, map_map] at hnodup
  exact inj_on_of_nodup_map hnodup hi hj (Prod.ext hgeneric hname)

/-- Each application is recorded once. -/
theorem Consistent.eq_of_typeExpr_eq (h : t.Consistent) {j : Instance} (hi : i ∈ t.recorded)
    (hj : j ∈ t.recorded) (htype : i.typeExpr = j.typeExpr) : i = j := by
  have hgeneric : i.generic = j.generic := by
    rw [h.generic_of_mem hi, h.generic_of_mem hj, htype]
  have hname : some i.name = some j.name := by
    rw [← h.lookup_of_mem hi, ← h.lookup_of_mem hj, htype]
  exact h.eq_of_name_eq hi hj hgeneric (Option.some.inj hname)

theorem consistent_empty : Consistent empty where
  filed := ⟨nodup_nil, by simp [empty]⟩
  distinct := nodup_nil
  generic_eq := by simp [empty, faces, recorded]
  lookup_iff := by simp [empty, faces, recorded]
  named := by simp [empty, faces, recorded]

theorem recorded_enter (h : Filed t.instances) (g : ScopedName) :
    (t.withSiblings g (t.siblings g)).recorded.Perm t.recorded := by
  have hmap := recorded_withSiblings_map (g := g) h fun (i : Instance) _ => id_eq i
  simpa using hmap

theorem filed_enter (h : Filed t.instances) (g : ScopedName) :
    Filed (t.withSiblings g (t.siblings g)).instances :=
  filed_withSiblings h fun _ hi => ((mem_siblings h).mp hi).2

/-- What every call keeps, whatever it does to the recorded instances. -/
structure Recorded (t : Tracker) (use : String) (application : Option TypeExpr)
    (result : Tracker × Outcome (Option (Instance × Bool))) : Prop where
  filed : Filed result.1.instances
  projections : result.1.projections = t.projections
  effect : RecordEffect t result.1 use application result.2

theorem recordUse_recorded (h : t.Consistent) (use : String)
    (hname : t.names.lookup a.scopedText = some name) :
    Recorded t use (some a) (t.recordUse a.applied name use) := by
  unfold recordUse
  dsimp only
  split
  · exact ⟨filed_enter h.filed _, rfl, .refused rfl (recorded_enter h.filed _)⟩
  · rename_i i hfind
    have hi := (mem_siblings h.filed).mp (mem_of_find?_eq_some hfind)
    obtain rfl : i.name = name := by simpa using find?_some hfind
    -- No sibling shares the name, so the update reaches this instance only.
    have hupdate : (t.siblings a.applied).map (fun j => if j.name = i.name then
          { i with referencedBy := i.referencedBy ++ [use] } else j) =
        (t.siblings a.applied).map (addUse i.generic i.name use) := by
      refine map_congr_left fun j hj => ?_
      have hj := (mem_siblings h.filed).mp hj
      rw [addUse, hj.2, hi.2]
      by_cases hsame : j.name = i.name
      · obtain rfl := h.eq_of_name_eq hj.1 hi.1 (hj.2.trans hi.2.symm) hsame
        simp
      · simp [hsame]
    have hself : { i with referencedBy := i.referencedBy ++ [use] } =
        addUse i.generic i.name use i := (if_pos ⟨rfl, rfl⟩).symm
    rw [hupdate, hself]
    refine ⟨filed_withSiblings h.filed ?_, rfl, .again hi.1 hi.2 hname rfl ?_⟩
    · intro j hj
      obtain ⟨k, hk, rfl⟩ := mem_map.mp hj
      rw [← face_generic, face_addUse, face_generic]
      exact ((mem_siblings h.filed).mp hk).2
    · refine recorded_withSiblings_map h.filed fun j hj => ?_
      exact if_neg fun hsame => hj (hsame.1.trans hi.2)

theorem recordNew_recorded (h : t.Consistent) (field use : String)
    (hunknown : t.names.lookup a.scopedText = none) :
    Recorded t use (some a) (t.recordNew a.applied a field use) := by
  unfold recordNew
  dsimp only
  split
  · exact ⟨filed_enter h.filed _, rfl, .refused rfl (recorded_enter h.filed _)⟩
  · rename_i name hname
    split
    · exact ⟨filed_enter h.filed _, rfl, .refused rfl (recorded_enter h.filed _)⟩
    · rename_i hfind
      have hfree : ∀ i ∈ t.recorded, i.generic = a.applied → i.name ≠ name := by
        intro i hi hgeneric
        simpa using find?_eq_none.mp hfind i ((mem_siblings h.filed).mpr ⟨hi, hgeneric⟩)
      refine ⟨filed_withSiblings h.filed ?_, rfl, .new hunknown hname hfree rfl ?_⟩
      · intro i hi
        rcases mem_append.mp hi with hi | hi
        · exact ((mem_siblings h.filed).mp hi).2
        · rw [mem_singleton.mp hi]
      · refine (recorded_withSiblings h.filed).trans ?_
        rw [← append_assoc]
        exact ((recorded_withSiblings h.filed).symm.trans (recorded_enter h.filed _)).append_right _

theorem record_recorded (h : t.Consistent) (owner : String) (f : ConcreteField) :
    Recorded t (owner ++ "::" ++ f.name) (r.application? f) (t.record r owner f) := by
  unfold record Resolver.application?
  cases hmono : f.monomorphized with
  | false => exact ⟨h.filed, rfl, .passed rfl (.refl _)⟩
  | true =>
    cases hcore : r.core f.typeExpr with
    | error failure => exact ⟨h.filed, rfl, .refused rfl (.refl _)⟩
    | ok a =>
      cases hlookup : t.names.lookup a.scopedText with
      | some name =>
        simp only [Bool.not_true, Bool.false_eq_true, if_false, if_true, hlookup]
        exact recordUse_recorded h _ hlookup
      | none =>
        simp only [Bool.not_true, Bool.false_eq_true, if_false, if_true, hlookup]
        exact recordNew_recorded h _ _ hlookup

theorem recorded_of_record {owner : String} {f : ConcreteField} (h : t.Consistent)
    (hrecord : t.record r owner f = (t', answer)) :
    Recorded t (owner ++ "::" ++ f.name) (r.application? f) (t', answer) :=
  hrecord ▸ record_recorded h owner f

/-- Consistency is about what is recorded, not about how often it is used. -/
theorem Consistent.of_perm (h : t.Consistent) (hfiled : Filed t'.instances)
    (hnames : t'.names = t.names) (hfaces : t'.faces.Perm t.faces) : t'.Consistent where
  filed := hfiled
  distinct := ((hfaces.map _).nodup_iff).mpr h.distinct
  generic_eq := fun i hi => h.generic_eq i (hfaces.mem_iff.mp hi)
  lookup_iff := by
    intro text name
    simp only [hnames, h.lookup_iff, hfaces.mem_iff]
  named := fun i hi => h.named i (hfaces.mem_iff.mp hi)

theorem faces_perm_append (hrecorded : t'.recorded.Perm (t.recorded ++ [i])) :
    t'.faces.Perm (t.faces ++ [i.face]) := by
  simpa [faces] using hrecorded.map face

theorem faces_perm_of_again {generic : ScopedName}
    (hrecorded : t'.recorded.Perm (t.recorded.map (addUse generic name use))) :
    t'.faces.Perm t.faces := by
  refine (hrecorded.map face).trans ?_
  rw [map_map]
  exact .of_eq (map_congr_left fun i _ => face_addUse ..)

/-- A new instance has a name that no other instance of its declaration has. -/
theorem Consistent.add {others : List Instance} (h : t.Consistent) (hfiled : Filed t'.instances)
    (hunknown : t.names.lookup a.scopedText = none)
    (hname : uniqueName others a = .ok name)
    (hfree : ∀ i ∈ t.recorded, i.generic = a.applied → i.name ≠ name)
    (hnames : t'.names = (a.scopedText, name) :: t.names)
    (hfaces : t'.faces.Perm (t.faces ++ [⟨name, a.applied, a, []⟩])) : t'.Consistent := by
  have hmem : ∀ i, i ∈ t'.faces ↔ i ∈ t.faces ∨ i = ⟨name, a.applied, a, []⟩ := fun i => by
    rw [hfaces.mem_iff, mem_append, mem_singleton]
  refine ⟨hfiled, ?_, ?_, ?_, ?_⟩
  · rw [(hfaces.map _).nodup_iff, map_append, nodup_append]
    refine ⟨h.distinct, nodup_singleton _, ?_⟩
    rintro x hx y hy rfl
    obtain ⟨j, hj, rfl⟩ := mem_map.mp hx
    obtain ⟨k, hk, rfl⟩ := mem_map.mp hj
    obtain ⟨hgeneric, hsame⟩ : k.generic = a.applied ∧ k.name = name := by
      simpa using mem_singleton.mp hy
    exact hfree k hk hgeneric hsame
  · intro i hi
    rcases (hmem i).mp hi with hi | rfl
    · exact h.generic_eq i hi
    · rfl
  · intro text other
    simp only [hnames, lookup_cons, hmem, or_and_right, exists_or, exists_eq_left,
      ← h.lookup_iff text other]
    by_cases htext : text = a.scopedText
    · simp [htext, hunknown]
    · rw [beq_eq_false_iff_ne.mpr htext]
      simp [Ne.symm htext]
  · intro i hi
    rcases (hmem i).mp hi with hi | rfl
    · exact h.named i hi
    · exact ⟨others, hname⟩

theorem Recorded.consistent {application : Option TypeExpr} (h : t.Consistent)
    (hrecord : Recorded t use application (t', answer)) : t'.Consistent := by
  obtain ⟨hfiled, _, heffect⟩ := hrecord
  cases heffect with
  | passed hnames hrecorded
  | refused hnames hrecorded => exact h.of_perm hfiled hnames (hrecorded.map _)
  | again _ _ _ hnames hrecorded =>
    exact h.of_perm hfiled hnames (faces_perm_of_again hrecorded)
  | new hunknown hname hfree hnames hrecorded =>
    exact h.add hfiled hunknown hname hfree hnames (faces_perm_append hrecorded)

/-- Recording keeps the table consistent, also when it fails. -/
theorem Consistent.record (h : t.Consistent) (owner : String) (f : ConcreteField) :
    (t.record r owner f).1.Consistent :=
  (record_recorded h owner f).consistent h

end Tracker

end SchemaCompiler
