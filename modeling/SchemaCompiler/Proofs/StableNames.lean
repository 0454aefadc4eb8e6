import Mathlib.Data.List.Induction
import SchemaCompiler.Proofs.InstanceTable
import SchemaCompiler.Proofs.QualifiedText
import SchemaCompiler.StandardModules

/-!
# Stable names of instances

The name that recording a field gives to the application it uses is the one that
was foretold before, and stays the name of that application whatever is recorded
later; the uses of an instance are only added to.  Names are kept by the text of
an application.  So two applications of one declaration have different names
except where one of them is written like an application of another declaration,
and takes the name of that one.
-/

namespace SchemaCompiler

open List Instance Standard TypeExpr

namespace Tracker

variable {r : Resolver} {t t' : Tracker} {answer : Option (Instance × Bool)} {c : TypeExpr}
  {g : ScopedName} {name : String} {uses : List Use}

/-- A field in use: the name of the projection that has it, and the field. -/
abbrev Use := String × ConcreteField

/-- A new tracker after recording fields in order. -/
def recording (r : Resolver) (uses : List Use) : Tracker :=
  uses.foldl (fun t use => (t.record r use.1 use.2).1) .empty

theorem recording_concat (uses : List Use) (use : Use) :
    recording r (uses ++ [use]) = ((recording r uses).record r use.1 use.2).1 := by
  rw [recording, foldl_append]
  rfl

theorem consistent_recording (r : Resolver) (uses : List Use) : (recording r uses).Consistent := by
  induction uses using reverseRecOn with
  | nil => exact consistent_empty
  | append_singleton uses use ih =>
    rw [recording_concat]
    exact ih.record use.1 use.2

/-! ## What stays -/

/-- Names are not given anew, and uses are added at the end. -/
structure Kept (t t' : Tracker) : Prop where
  names : ∀ text name, t.names.lookup text = some name → t'.names.lookup text = some name
  instances : ∀ i ∈ t.recorded, ∃ j ∈ t'.recorded, j.face = i.face ∧
    i.referencedBy <+: j.referencedBy

theorem Kept.refl (t : Tracker) : Kept t t :=
  ⟨fun _ _ h => h, fun i hi => ⟨i, hi, rfl, prefix_refl _⟩⟩

theorem Kept.trans {last : Tracker} (h : Kept t t') (h' : Kept t' last) : Kept t last where
  names text name hname := h'.names text name (h.names text name hname)
  instances i hi := by
    obtain ⟨j, hj, hface, huses⟩ := h.instances i hi
    obtain ⟨k, hk, hface', huses'⟩ := h'.instances j hj
    exact ⟨k, hk, hface'.trans hface, huses.trans huses'⟩

theorem kept_of_perm (hnames : t'.names = t.names) (hrecorded : t'.recorded.Perm t.recorded) :
    Kept t t' :=
  ⟨fun _ _ h => hnames ▸ h, fun i hi => ⟨i, hrecorded.mem_iff.mpr hi, rfl, prefix_refl _⟩⟩

theorem kept_record (h : t.Consistent) (owner : String) (f : ConcreteField) :
    Kept t (t.record r owner f).1 := by
  obtain ⟨_, _, heffect⟩ := record_recorded (r := r) h owner f
  generalize r.application? f = application at heffect
  generalize (t.record r owner f).2 = answer at heffect
  cases heffect with
  | passed hnames hrecorded | refused hnames hrecorded => exact kept_of_perm hnames hrecorded
  | again _ _ _ hnames hrecorded =>
    refine ⟨fun _ _ hname => hnames ▸ hname, fun j hj => ?_⟩
    refine ⟨_, hrecorded.mem_iff.mpr (mem_map_of_mem hj), face_addUse .., ?_⟩
    unfold addUse
    split_ifs
    · exact prefix_append _ _
    · exact prefix_refl _
  | new hunknown _ _ hnames hrecorded =>
    refine ⟨fun text name hname => ?_, fun i hi => ?_⟩
    · rw [hnames, lookup_cons]
      split
      · rename_i htext
        rw [beq_iff_eq.mp htext, hunknown] at hname
        cases hname
      · exact hname
    · exact ⟨i, hrecorded.mem_iff.mpr (mem_append_left _ hi), rfl, prefix_refl _⟩

theorem kept_recording (uses more : List Use) :
    Kept (recording r uses) (recording r (uses ++ more)) := by
  induction more using reverseRecOn with
  | nil =>
    rw [append_nil]
    exact .refl _
  | append_singleton more use ih =>
    rw [← append_assoc, recording_concat]
    exact ih.trans (kept_record (consistent_recording r _) use.1 use.2)

theorem Kept.nameOf (h : Kept t t') (hname : t.names.lookup c.scopedText = some name) :
    t'.nameOf c = .ok name := by
  rw [Tracker.nameOf, h.names _ _ hname]

/-! ## What recording answers -/

/-- What a successful call says of the application that the field uses. -/
structure Answered (r : Resolver) (t : Tracker) (owner : String) (f : ConcreteField)
    (c : TypeExpr) (i : Instance) : Prop where
  core : r.core f.typeExpr = .ok c
  foretold : t.nameOf c = .ok i.name
  generic : i.generic = c.applied
  recorded : i ∈ (t.record r owner f).1.recorded
  named : (t.record r owner f).1.names.lookup c.scopedText = some i.name

/-- A monomorphized field is answered with an instance, under the name that was
foretold. -/
theorem exists_answered (h : t.Consistent) {owner : String} {f : ConcreteField}
    (hmono : f.monomorphized = true) (hok : (t.record r owner f).2 = .ok answer) :
    ∃ c i added, answer = some (i, added) ∧ Answered r t owner f c i := by
  cases hcore : r.core f.typeExpr with
  | error failure => simp [record, hmono, hcore] at hok
  | ok c =>
    have happlication : r.application? f = some c := by
      simp [Resolver.application?, hmono, hcore, Except.toOption]
    obtain ⟨_, _, heffect⟩ := record_recorded (r := r) h owner f
    rw [happlication, hok] at heffect
    cases heffect with
    | @again _ i hi hgeneric hname hnames hrecorded =>
      have hface := face_addUse i.generic i.name (owner ++ "::" ++ f.name) i
      have hsame : (addUse i.generic i.name (owner ++ "::" ++ f.name) i).name = i.name := by
        rw [← face_name, hface, face_name]
      refine ⟨c, _, false, rfl, hcore, ?_, ?_, hrecorded.mem_iff.mpr (mem_map_of_mem hi), ?_⟩
      · rw [nameOf, hname, hsame]
      · rw [← face_generic, hface, face_generic, hgeneric]
      · rw [hnames, hname, hsame]
    | new hunknown hname _ hnames hrecorded =>
      refine ⟨c, _, true, rfl, hcore, ?_, rfl,
        hrecorded.mem_iff.mpr (mem_append_right _ (mem_singleton_self _)), ?_⟩
      · rw [nameOf, hunknown]
        exact hname
      · rw [hnames, lookup_cons_self]

/-! ## Applications with one name -/

/-- The application was recorded at some point. -/
def Entered (r : Resolver) (uses : List Use) (c : TypeExpr) : Prop :=
  ∃ before use rest answer, uses = before ++ use :: rest ∧ use.2.monomorphized = true ∧
    r.core use.2.typeExpr = .ok c ∧
    ((recording r before).record r use.1 use.2).2 = .ok answer

theorem Entered.concat (h : Entered r uses c) (use : Use) :
    Entered r (uses ++ [use]) c := by
  obtain ⟨before, first, rest, answer, rfl, hmono, hcore, hok⟩ := h
  exact ⟨before, first, rest ++ [use], answer, by simp, hmono, hcore, hok⟩

theorem Entered.exists_core (h : Entered r uses c) :
    ∃ use ∈ uses, r.core use.2.typeExpr = .ok c := by
  obtain ⟨before, use, rest, _, rfl, _, hcore, _⟩ := h
  exact ⟨use, mem_append_right before mem_cons_self, hcore⟩

/-- What was recorded is an instance of its declaration under a kept name. -/
theorem Entered.exists_instance (h : Entered r uses c) :
    ∃ i ∈ (recording r uses).recorded, i.generic = c.applied ∧
      (recording r uses).names.lookup c.scopedText = some i.name := by
  obtain ⟨before, use, rest, answer, rfl, hmono, hcore, hok⟩ := h
  obtain ⟨c', i, _, _, hanswered⟩ := exists_answered (consistent_recording r before) hmono hok
  obtain rfl := Except.ok.inj (hcore.symm.trans hanswered.core)
  have hkept : Kept ((recording r before).record r use.1 use.2).1
      (recording r (before ++ use :: rest)) := by
    have hrest := kept_recording (r := r) (before ++ [use]) rest
    rwa [recording_concat, ← append_cons] at hrest
  obtain ⟨j, hj, hface, _⟩ := hkept.instances i hanswered.recorded
  have hname : j.name = i.name := by rw [← face_name, hface, face_name]
  have hgeneric : j.generic = i.generic := by
    rw [← face_generic, hface, face_generic]
  refine ⟨j, hj, hgeneric.trans hanswered.generic, ?_⟩
  rw [hname]
  exact hkept.names _ _ hanswered.named

/-- Each instance was entered by recording its own application. -/
theorem entered_of_mem_recorded {i : Instance}
    (hi : i ∈ (recording r uses).recorded) : Entered r uses i.typeExpr := by
  induction uses using reverseRecOn generalizing i with
  | nil => cases hi
  | append_singleton uses use ih =>
    rw [recording_concat] at hi
    obtain ⟨_, _, heffect⟩ :=
      record_recorded (r := r) (consistent_recording r uses) use.1 use.2
    generalize happlication : r.application? use.2 = application at heffect
    generalize hanswer : ((recording r uses).record r use.1 use.2).2 = answer at heffect
    cases heffect with
    | passed _ hrecorded | refused _ hrecorded => exact (ih (hrecorded.mem_iff.mp hi)).concat use
    | again _ _ _ _ hrecorded =>
      obtain ⟨j, hj, rfl⟩ := mem_map.mp (hrecorded.mem_iff.mp hi)
      rw [typeExpr_addUse]
      exact (ih hj).concat use
    | new _ _ _ _ hrecorded =>
      rcases mem_append.mp (hrecorded.mem_iff.mp hi) with hi | hi
      · exact (ih hi).concat use
      · obtain rfl := mem_singleton.mp hi
        unfold Resolver.application? at happlication
        split_ifs at happlication with hmono
        refine ⟨uses, use, [], _, rfl, hmono, ?_, hanswer⟩
        cases hcore : r.core use.2.typeExpr with
        | error failure =>
          rw [hcore] at happlication
          cases happlication
        | ok c =>
          rw [hcore] at happlication
          exact congrArg Except.ok (Option.some.inj happlication)

/-- No two instances have applications that are written alike. -/
theorem nodup_texts (r : Resolver) (uses : List Use) :
    ((recording r uses).recorded.map (·.typeExpr.scopedText)).Nodup := by
  induction uses using reverseRecOn with
  | nil => exact nodup_nil
  | append_singleton uses use ih =>
    have hconsistent := consistent_recording r uses
    rw [recording_concat]
    obtain ⟨_, _, heffect⟩ := record_recorded (r := r) hconsistent use.1 use.2
    generalize r.application? use.2 = application at heffect
    generalize ((recording r uses).record r use.1 use.2).2 = answer at heffect
    cases heffect with
    | passed _ hrecorded | refused _ hrecorded => exact ((hrecorded.map _).nodup_iff).mpr ih
    | again _ _ _ _ hrecorded =>
      rw [(hrecorded.map _).nodup_iff, map_map]
      simpa only [Function.comp_def, typeExpr_addUse] using ih
    | new hunknown _ _ _ hrecorded =>
      rw [(hrecorded.map _).nodup_iff, map_append, nodup_append]
      refine ⟨ih, nodup_singleton _, ?_⟩
      rintro text htext _ hsingle rfl
      obtain ⟨i, hi, rfl⟩ := mem_map.mp htext
      have hlookup := hconsistent.lookup_of_mem hi
      rw [mem_singleton.mp hsingle] at hlookup
      rw [hunknown] at hlookup
      cases hlookup

/-- Recorded applications of a declaration that are written differently have
different names. -/
def NamedApart (r : Resolver) (uses : List Use) (g : ScopedName) : Prop :=
  ∀ c c', Entered r uses c → Entered r uses c' → c.applied = g → c'.applied = g →
    c.scopedText ≠ c'.scopedText → (recording r uses).nameOf c ≠ (recording r uses).nameOf c'

/-- Recorded applications of a declaration are not written like the applications
of another one. -/
def WrittenApart (r : Resolver) (uses : List Use) (g : ScopedName) : Prop :=
  ∀ c, Entered r uses c → c.applied = g → ∀ i ∈ (recording r uses).recorded,
    i.typeExpr.scopedText = c.scopedText → i.generic = g

theorem namedApart_iff (uses : List Use) (g : ScopedName) :
    NamedApart r uses g ↔ WrittenApart r uses g := by
  have hconsistent := consistent_recording r uses
  have hnameOf {c : TypeExpr} {name : String}
      (hname : (recording r uses).names.lookup c.scopedText = some name) :
      (recording r uses).nameOf c = .ok name := (Kept.refl _).nameOf hname
  constructor
  · intro hnamed c hc hg i hi htext
    obtain ⟨k, hk, hgeneric, hlookup⟩ := hc.exists_instance
    by_contra hother
    -- The instance that `c` was counted to has another text, for `i` has that of `c`.
    have hne : k.typeExpr.scopedText ≠ c.scopedText := by
      intro hsame
      obtain rfl := inj_on_of_nodup_map (nodup_texts r uses) hk hi (hsame.trans htext.symm)
      exact hother (hgeneric.trans hg)
    have happlied : k.typeExpr.applied = g :=
      (hconsistent.generic_of_mem hk).symm.trans (hgeneric.trans hg)
    refine hnamed _ c (entered_of_mem_recorded hk) hc happlied hg hne ?_
    rw [hnameOf (hconsistent.lookup_of_mem hk), hnameOf hlookup]
  · intro hwritten c c' hc hc' hg hg' htexts hnames
    have hfound {c : TypeExpr} (hc : Entered r uses c) (hg : c.applied = g) :
        ∃ i ∈ (recording r uses).recorded, i.generic = g ∧
          i.typeExpr.scopedText = c.scopedText ∧ (recording r uses).nameOf c = .ok i.name := by
      obtain ⟨_, _, _, hlookup⟩ := hc.exists_instance
      obtain ⟨face, hface, htext, hname⟩ := (hconsistent.lookup_iff _ _).mp hlookup
      obtain ⟨i, hi, rfl⟩ := mem_map.mp hface
      exact ⟨i, hi, hwritten c hc hg i hi htext, htext, hnameOf (hname ▸ hlookup)⟩
    obtain ⟨i, hi, hgeneric, htext, hname⟩ := hfound hc hg
    obtain ⟨j, hj, hgeneric', htext', hname'⟩ := hfound hc' hg'
    rw [hname, hname'] at hnames
    obtain rfl := hconsistent.eq_of_name_eq hi hj (hgeneric.trans hgeneric'.symm)
      (Except.ok.inj hnames)
    exact htexts (htext.symm.trans htext')

theorem writtenApart_of_plain (hplain : ∀ c, Entered r uses c → c.Plain)
    (g : ScopedName) : WrittenApart r uses g := by
  intro c hc hg i hi htext
  have hsame := eq_of_scopedText_eq (hplain _ (entered_of_mem_recorded hi))
    (hplain c hc) htext
  rw [(consistent_recording r uses).generic_of_mem hi, hsame, hg]

/-- Names of instances are foretold and stay, and uses are only added to.  Two
applications of a declaration share a name exactly if one of them is written like
an application of another declaration, so not where names are plain. -/
theorem stable_names (r : Resolver) (uses : List Use) :
    (∀ owner f answer, f.monomorphized = true →
      ((recording r uses).record r owner f).2 = .ok answer →
      ∃ c i added, answer = some (i, added) ∧ Answered r (recording r uses) owner f c i ∧
        ∀ more, (recording r (uses ++ (owner, f) :: more)).nameOf c = .ok i.name) ∧
    (∀ more, ∀ i ∈ (recording r uses).recorded, ∃ j ∈ (recording r (uses ++ more)).recorded,
      j.face = i.face ∧ i.referencedBy <+: j.referencedBy) ∧
    (∀ g, NamedApart r uses g ↔ WrittenApart r uses g) ∧
    ((∀ c, Entered r uses c → c.Plain) → ∀ g, NamedApart r uses g) := by
  refine ⟨?_, fun more => (kept_recording uses more).instances, namedApart_iff uses, ?_⟩
  · intro owner f answer hmono hok
    obtain ⟨c, i, added, hanswer, hanswered⟩ :=
      exists_answered (consistent_recording r uses) hmono hok
    refine ⟨c, i, added, hanswer, hanswered, fun more => ?_⟩
    have hkept := kept_recording (r := r) (uses ++ [(owner, f)]) more
    rw [recording_concat, ← append_cons] at hkept
    exact hkept.nameOf hanswered.named
  · exact fun hplain g => (namedApart_iff uses g).mpr (writtenApart_of_plain hplain g)

/-! ## Two declarations that are written alike -/

def dottedOuter : ScopedDecl :=
  ⟨"a.x_", (structDecl "x" ["T"] [field "v" (.param "T")]).2⟩

def dottedInner : ScopedDecl :=
  ⟨"a", (structDecl "x_.x" ["T"] [field "v" (.param "T")]).2⟩

/-- Written `a.x_.x<.x_Foo>`, as is the last type. -/
def dottedFirst : TypeExpr := .ref dottedOuter.name [.prim ".x_Foo"]

/-- Called `_x_.x_Foo`, as is the first type. -/
def dottedSecond : TypeExpr := .ref dottedInner.name [.prim "Foo"]

def dottedThird : TypeExpr := .ref dottedInner.name [.prim ".x_Foo"]

def dottedSale : ScopedDecl :=
  ⟨"app", (structDecl "Sale" [] [field "first" dottedFirst,
    field "second" dottedSecond, field "third" dottedThird]).2⟩

def dotted : Resolver :=
  ⟨⟨[⟨"a", [], [("x_.x", dottedInner.decl)], []⟩, ⟨"a.x_", [], [("x", dottedOuter.decl)], []⟩,
    ⟨"app", [], [("Sale", dottedSale.decl)], []⟩]⟩, .standard⟩

def dottedUse (name : String) (type : TypeExpr) : Use :=
  ("Sale", ⟨field name type, .one, true, true, none, [], dottedSale.name⟩)

def dottedUses : List Use :=
  [dottedUse "first" dottedFirst, dottedUse "second" dottedSecond]

def dottedAll : List Use :=
  dottedUses ++ [dottedUse "third" dottedThird]

/-- A type with plain names. -/
def dottedPlain : TypeExpr := .ref dottedOuter.name [text]

theorem entered_dottedThird : Entered dotted dottedAll dottedThird :=
  ⟨dottedUses, dottedUse "third" dottedThird, [], _, rfl, rfl, rfl, rfl⟩

theorem recorded_dottedAll : (recording dotted dottedAll).recorded =
    [⟨"_x_.x_Foo", dottedOuter.name, dottedFirst, ["Sale::first"]⟩,
      ⟨"_x_.x_Foo", dottedInner.name, dottedSecond, ["Sale::second", "Sale::third"]⟩] := rfl

/-- The third type is counted to the instance of the second one. -/
theorem stable_names_dotted :
    (∃ p, dotted.project dottedSale [] = .ok p ∧ p.fields.map (("Sale", ·)) = dottedAll) ∧
    (∃ i, Answered dotted (recording dotted dottedUses) "Sale" (dottedUse "third" dottedThird).2
      dottedThird i) ∧
    (∃ c c', Entered dotted dottedAll c ∧ Entered dotted dottedAll c' ∧
      c.applied = dottedInner.name ∧ c'.applied = dottedInner.name ∧
      c.scopedText ≠ c'.scopedText ∧
      (recording dotted dottedAll).nameOf c = (recording dotted dottedAll).nameOf c') ∧
    NamedApart dotted [dottedUse "plain" dottedPlain] dottedOuter.name := by
  refine ⟨⟨_, rfl, rfl⟩, ?_, ?_, ?_⟩
  · obtain ⟨c, i, _, _, hanswered, _⟩ := (stable_names dotted dottedUses).1 "Sale"
      (dottedUse "third" dottedThird).2 _ rfl rfl
    obtain rfl : dottedThird = c := Except.ok.inj hanswered.core
    exact ⟨i, hanswered⟩
  · have happart := (stable_names dotted dottedAll).2.2.1 dottedInner.name
    have hwritten : ¬ WrittenApart dotted dottedAll dottedInner.name := by
      intro h
      have hfirst := h dottedThird entered_dottedThird rfl
        ⟨"_x_.x_Foo", dottedOuter.name, dottedFirst, ["Sale::first"]⟩
        (recorded_dottedAll ▸ mem_cons_self) (by decide)
      exact absurd hfirst (by decide)
    rw [← happart] at hwritten
    unfold NamedApart at hwritten
    push Not at hwritten
    exact hwritten
  · refine (stable_names dotted [dottedUse "plain" dottedPlain]).2.2.2 (fun c hc => ?_) _
    obtain ⟨use, huse, hcore⟩ := hc.exists_core
    obtain rfl := mem_singleton.mp huse
    obtain rfl : dottedPlain = c := Except.ok.inj hcore
    have htext : PlainName "String" := by decide
    refine plain_app.mpr ⟨⟨by decide, by decide⟩, forall_mem_singleton.mpr ?_⟩
    exact plain_app.mpr ⟨htext, forall_mem_nil _⟩

end Tracker

end SchemaCompiler
