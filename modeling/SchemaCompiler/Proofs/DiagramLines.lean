import Mathlib.Data.List.Perm.Basic
import SchemaCompiler.Diagram.Text
import SchemaCompiler.Proofs.ArrowOrder
import SchemaCompiler.Proofs.GraphClosure

/-!
# The lines of a class diagram

A class diagram shows a class for each declaration, an arrow for each field that holds a class,
and a member for each other field.  Classes have identifiers of two kinds: that of the declaration,
which arrows go to, and that of the class that stands for it, which class lines and the tails of
arrows have.  Arrows and members come from two passes over the fields, and only the second looks
for fields that are hidden.
-/

namespace SchemaCompiler

open Outcome List

namespace Diagram

variable {g : Graph} {d : ScopedDecl} {isUnion : Bool} {f : Field} {fields : List Field}
  {arrows : List Arrow}

def classes (g : Graph) : List ScopedDecl := drawn g (considered g)

theorem mem_classes_iff :
    d ∈ classes g ↔ (d ∈ g.store.allDecls ∧ g.settings.inModules d.moduleName = true ∧
      (g.settings.filter.map (· d)).getD true = true) ∧ g.settings.inFocus d.name = true ∧
      isHidden d = false := by
  simp only [classes, drawn, considered, mem_filter, Bool.and_eq_true, Bool.not_eq_true']

theorem mem_classes_of_resolve_ok {n : ScopedName} (h : g.store.resolve n = .ok d)
    (hmodules : g.settings.inModules n.moduleName = true) (hfocus : g.settings.inFocus n = true)
    (hfilter : (g.settings.filter.map (· d)).getD true = true) (hhidden : isHidden d = false) :
    d ∈ classes g := by
  obtain ⟨m, _, hm, hmodule, _⟩ := Store.exists_of_resolve_ok h
  have hinside : d.moduleName = n.moduleName := hmodule.trans hm
  refine mem_classes_iff.mpr ⟨⟨Store.mem_allDecls_of_resolve_ok h, hinside ▸ hmodules, hfilter⟩,
    ?_, hhidden⟩
  rwa [Settings.inFocus, ScopedDecl.name, hinside]

/-- The fields of a class, and whether they are branches of a union; none where they are not
known. -/
def shown (g : Graph) (d : ScopedDecl) : List Field × Bool :=
  (fieldsOf g d).toOption.getD ([], false)

/-- The arrow of a field of a class. -/
def arrow? (g : Graph) (d : ScopedDecl) (f : Field) : Option Arrow :=
  (arrowOf g d (shown g d).2 f).toOption.join

/-- The fields of a class are known, and so is which of them have arrows. -/
def Drawable (g : Graph) (d : ScopedDecl) : Prop :=
  (∃ x, fieldsOf g d = .ok x) ∧ ∀ f ∈ (shown g d).1, ∃ a, arrowOf g d (shown g d).2 f = .ok a

theorem arrowsOfFields_eq_ok :
    arrowsOfFields g d isUnion fields = .ok arrows ↔
      (∀ f ∈ fields, ∃ a, arrowOf g d isUnion f = .ok a) ∧
        arrows = fields.flatMap fun f => (arrowOf g d isUnion f).toOption.join.toList := by
  induction fields generalizing arrows with
  | nil => simp [arrowsOfFields, eq_comm]
  | cons f rest ih =>
    rw [arrowsOfFields]
    cases ha : arrowOf g d isUnion f with
    | error failure => simp [ha]
    | ok a =>
      refine bind_eq_ok.trans ?_
      simp only [ih, pure_eq_ok, forall_mem_cons, ha, flatMap_cons]
      constructor
      · rintro ⟨_, ⟨hrest, rfl⟩, rfl⟩
        exact ⟨⟨⟨a, rfl⟩, hrest⟩, rfl⟩
      · rintro ⟨⟨_, hrest⟩, rfl⟩
        exact ⟨_, ⟨hrest, rfl⟩, rfl⟩

theorem arrowsOf_eq_ok {decls : List ScopedDecl} :
    arrowsOf g decls = .ok arrows ↔
      (∀ d ∈ decls, Drawable g d) ∧
        arrows = decls.flatMap fun d => (shown g d).1.flatMap fun f => (arrow? g d f).toList := by
  induction decls generalizing arrows with
  | nil => simp [arrowsOf, eq_comm]
  | cons d rest ih =>
    rw [arrowsOf]
    cases hd : fieldsOf g d with
    | error failure => simp [Drawable, hd, bind, Except.bind]
    | ok x =>
      have hshown : shown g d = x := by rw [shown, hd]; rfl
      refine bind_eq_ok.trans ?_
      simp only [bind_eq_ok, pure_eq_ok, arrowsOfFields_eq_ok, ih,
        forall_mem_cons, flatMap_cons, Drawable, arrow?, hshown, hd]
      constructor
      · rintro ⟨_, ⟨⟩, _, ⟨hfields, rfl⟩, _, ⟨hrest, rfl⟩, rfl⟩
        exact ⟨⟨⟨⟨x, rfl⟩, hfields⟩, hrest⟩, rfl⟩
      · rintro ⟨⟨⟨_, hfields⟩, hrest⟩, rfl⟩
        exact ⟨x, rfl, _, ⟨hfields, rfl⟩, _, ⟨hrest, rfl⟩, rfl⟩

end Diagram

namespace ClassDiagram

open Diagram

variable {g : Graph} {c : ClassDiagram}

theorem exists_of_build_ok (h : (build g).2 = .ok c) :
    (∀ d ∈ classes g, Drawable g d) ∧
      c.drawn = (classes g).map (fun d => (d, (shown g d).1)) ∧
      ∃ arrows, arrows = (classes g).flatMap (fun d =>
          (shown g d).1.flatMap fun f => (arrow? g d f).toList) ∧
        c.arrows = sortArrows arrows ∧
        c.outside = ((arrows.map (·.target)).filter (!g.settings.inFocus ·)).eraseDups := by
  obtain ⟨_, _, h⟩ := bind_eq_ok.mp h
  obtain ⟨arrows, harrows, h⟩ := bind_eq_ok.mp h
  obtain ⟨drawn, hdrawn, rfl⟩ := bind_pure_eq_ok.mp h
  obtain ⟨hdrawable, harrows⟩ := arrowsOf_eq_ok.mp harrows
  refine ⟨hdrawable, ?_, arrows, harrows, rfl, rfl⟩
  have hpairs : Forall₂ (fun d x => (d, (shown g d).1) = x) (classes g) drawn := by
    refine forall₂_imp_of_mem (mapM_eq_ok.mp hdrawn) fun d hd x _ hx => ?_
    obtain ⟨y, hy⟩ := (hdrawable d hd).1
    rw [hy] at hx
    rw [shown, hy]
    exact Except.ok.inj hx
  exact (forall₂_eq_eq_eq ▸ forall₂_map_left_iff.mpr hpairs).symm

/-! ## Ends of arrows -/

/-- A class line gives the identifier. -/
def Introduces (c : ClassDiagram) (name : String) : Prop :=
  ∃ label, Line.class' name label ∈ c.lines

theorem introduces_iff (h : (build g).2 = .ok c) {name : String} :
    c.Introduces name ↔
      (∃ d ∈ classes g, className d = name) ∨ ∃ n ∈ c.outside, identifier n = name := by
  obtain ⟨_, hdrawn, _⟩ := exists_of_build_ok h
  have hmem : ∀ label, Line.class' name label ∈ c.lines ↔
      (∃ d ∈ classes g, name = className d ∧ label = d.decl.name) ∨
        ∃ n ∈ c.outside, identifier n = name ∧
          Text.lastOf (Text.splitOn '.' n.moduleName) ++ "." ++ n.name = label := by
    intro label
    by_cases houtside : c.outside = [] <;>
      simp [lines, classLines, arrowLine, memberLines, outsideLines, groupLines, hdrawn, houtside]
  simp only [Introduces, hmem]
  constructor
  · rintro ⟨_, ⟨d, hd, rfl, _⟩ | ⟨n, hn, rfl, _⟩⟩
    · exact .inl ⟨d, hd, rfl⟩
    · exact .inr ⟨n, hn, rfl⟩
  · rintro (⟨d, hd, rfl⟩ | ⟨n, hn, rfl⟩)
    · exact ⟨_, .inl ⟨d, hd, rfl, rfl⟩⟩
    · exact ⟨_, .inr ⟨n, hn, rfl, rfl⟩⟩

/-- The line stands for a field. -/
def Line.showsField : Line → Bool
  | arrow .. | member .. => true
  | _ => false

theorem filter_showsField_lines (c : ClassDiagram) :
    c.lines.filter Line.showsField =
      c.arrows.map arrowLine ++ c.drawn.flatMap (fun x => c.memberLines x.1 x.2) := by
  have hclasses : c.drawn.flatMap (fun x => (classLines x.1).filter Line.showsField) = [] := by
    refine flatMap_eq_nil_iff.mpr fun x _ => ?_
    rw [classLines]
    split_ifs <;> rfl
  have hmembers : ∀ d fields, (c.memberLines d fields).filter Line.showsField =
      c.memberLines d fields := by
    intro d fields
    rw [memberLines, filter_map]
    exact congrArg _ (filter_eq_self.mpr fun _ _ => rfl)
  have houtside : c.outsideLines.filter Line.showsField = [] := by
    rw [outsideLines]
    split_ifs <;> simp [Line.showsField]
  have hgroups : c.focus.flatMap (fun m => (c.groupLines m).filter Line.showsField) = [] := by
    refine flatMap_eq_nil_iff.mpr fun m _ => ?_
    simp [groupLines, filter_map, Function.comp_def, Line.showsField]
  simp only [lines, filter_append, filter_flatMap, hclasses, hmembers, houtside, hgroups]
  simp [filter_map, Function.comp_def, Line.showsField, arrowLine]

variable {d : ScopedDecl} {f : Field} {a : Arrow}

/-- What an arrow says of its field. -/
theorem exists_of_arrow?_eq_some (h : arrow? g d f = some a) :
    a.source = d ∧ a.field = f.name ∧ g.settings.inModules a.target.moduleName = true ∧
      ∃ e, g.store.resolve a.target = .ok e ∧ isHidden e = false := by
  have hok : arrowOf g d (shown g d).2 f = .ok (some a) := by
    rw [arrow?, Option.join_eq_some_iff] at h
    cases harrow : arrowOf g d (shown g d).2 f with
    | error failure => rw [harrow] at h; cases h
    | ok found => rw [harrow] at h; exact congrArg _ (Option.some.inj h)
  obtain ⟨⟨target, card⟩, _, hok⟩ := bind_eq_ok.mp hok
  cases target with
  | none => cases hok
  | some n =>
    simp only at hok
    split at hok
    · cases hok
    · rename_i hmodules
      obtain ⟨e, he, hok⟩ := bind_eq_ok.mp hok
      split at hok
      · cases hok
      · rename_i hhidden
        split at hok
        · cases hok
        · obtain ⟨index, _, hok⟩ := bind_eq_ok.mp hok
          cases hok
          exact ⟨rfl, rfl, by simpa using hmodules, e, he, by simpa using hhidden⟩

theorem mem_arrows_iff (h : (build g).2 = .ok c) :
    a ∈ c.arrows ↔ ∃ d ∈ classes g, ∃ f ∈ (shown g d).1, arrow? g d f = some a := by
  obtain ⟨_, _, _, rfl, harrows, _⟩ := exists_of_build_ok h
  rw [harrows, (sortArrows_perm _).mem_iff]
  simp [mem_flatMap, Option.mem_toList]

theorem mem_outside_iff (h : (build g).2 = .ok c) {n : ScopedName} :
    n ∈ c.outside ↔ (∃ a ∈ c.arrows, a.target = n) ∧ g.settings.inFocus n = false := by
  obtain ⟨_, _, arrows, _, harrows, houtside⟩ := exists_of_build_ok h
  simp [houtside, harrows, (sortArrows_perm arrows).mem_iff]

/-- Every arrow comes from a class that is drawn.  What it goes to has a class line of its own if it
is out of focus, or if it passes the filter and no other class stands for it; else only where the
line of another one happens to have its identifier. -/
theorem arrows_connect_classes_iff (h : (build g).2 = .ok c)
    {source target field cardinality : String} {style : ArrowStyle}
    (hline : .arrow source style target field cardinality ∈ c.lines) :
    c.Introduces source ∧ ∃ n d, target = identifier n ∧ g.store.resolve n = .ok d ∧
      (c.Introduces target ↔ g.settings.inFocus n = false ∨
        ((g.settings.filter.map (· d)).getD true = true ∧ className d = target) ∨
        (∃ e ∈ classes g, e ≠ d ∧ className e = target) ∨
        ∃ m ∈ c.outside, m ≠ n ∧ identifier m = target) := by
  have hshows := mem_filter.mpr ⟨hline, (rfl : Line.showsField _ = true)⟩
  rw [filter_showsField_lines] at hshows
  obtain ⟨a, ha, hline⟩ : ∃ a ∈ c.arrows,
      arrowLine a = .arrow source style target field cardinality := by
    simpa [memberLines] using hshows
  cases hline
  obtain ⟨d, hd, f, _, harrow⟩ := (mem_arrows_iff h).mp ha
  obtain ⟨rfl, _, hmodules, e, he, hhidden⟩ := exists_of_arrow?_eq_some harrow
  rw [introduces_iff h, introduces_iff h]
  refine ⟨.inl ⟨_, hd, rfl⟩, a.target, e, rfl, he, ?_, ?_⟩
  · rintro (⟨x, hx, hname⟩ | ⟨m, hm, hname⟩)
    · by_cases hxe : x = e
      · subst hxe
        exact .inr (.inl ⟨(mem_classes_iff.mp hx).1.2.2, hname⟩)
      · exact .inr (.inr (.inl ⟨x, hx, hxe, hname⟩))
    · by_cases hma : m = a.target
      · exact .inl (hma ▸ ((mem_outside_iff h).mp hm).2)
      · exact .inr (.inr (.inr ⟨m, hm, hma, hname⟩))
  · have houtside : g.settings.inFocus a.target = false →
        ∃ n ∈ c.outside, identifier n = identifier a.target :=
      fun hfocus => ⟨_, (mem_outside_iff h).mpr ⟨⟨a, ha, rfl⟩, hfocus⟩, rfl⟩
    rintro (hfocus | ⟨hfilter, hname⟩ | ⟨x, hx, _, hname⟩ | ⟨m, hm, _, hname⟩)
    · exact .inr (houtside hfocus)
    · cases hfocus : g.settings.inFocus a.target with
      | false => exact .inr (houtside hfocus)
      | true =>
          have hdrawn := mem_classes_of_resolve_ok he hmodules hfocus hfilter hhidden
          exact .inl ⟨e, hdrawn, hname⟩
    · exact .inl ⟨x, hx, hname⟩
    · exact .inr ⟨m, hm, hname⟩

/-- A field that is hidden. -/
def pet : Field :=
  { Standard.field "pet" (.ref ⟨"app", "Cat"⟩) with annotations := [⟨hiddenKey, .absent⟩] }

def owner : ScopedDecl := ⟨"app", (Standard.structDecl "Owner" [] [pet]).2⟩

/-- A cat, for which the class of animals stands. -/
def cat : ScopedDecl :=
  ⟨"app", { (Standard.structDecl "Cat" [] []).2 with
    annotations := [⟨representedByKey, .json (.str "Animal")⟩] }⟩

def petStore : Store :=
  ⟨[Standard.moduleOf "app" ([cat, owner].map fun d => (d.decl.name, d.decl))]⟩

theorem exists_petDiagram :
    ∃ g c, Graph.build .standard petStore = .ok g ∧ (build g).2 = .ok c ∧
      classes g = [cat, owner] ∧ c.drawn = [(cat, []), (owner, [pet])] ∧ c.outside = [] ∧
      arrow? g owner pet = some ⟨owner, cat.name, .uses, "pet", "", none⟩ ∧
      .arrow "app_Owner" .uses "app_Cat" "pet" "" ∈ c.lines :=
  ⟨_, _, Graph.build_of_sorted rfl rfl rfl rfl rfl rfl (by decide), rfl, rfl, rfl, rfl,
    rfl, by decide⟩

/-- The arrow from the owner goes to the cat, and there is a class line for the animal only. -/
theorem arrows_connect_classes_pet :
    ∃ g c, Graph.build .standard petStore = .ok g ∧ (build g).2 = .ok c ∧
      .arrow "app_Owner" .uses "app_Cat" "pet" "" ∈ c.lines ∧ c.Introduces "app_Owner" ∧
      ¬c.Introduces "app_Cat" := by
  obtain ⟨g, c, hgraph, h, hclasses, _, houtside, _, hline⟩ := exists_petDiagram
  refine ⟨g, c, hgraph, h, hline, (arrows_connect_classes_iff h hline).1, ?_⟩
  rw [introduces_iff h, hclasses, houtside]
  decide

/-! ## Lines of fields -/

/-- The lines that a field of a class gives: an arrow if it has one, and a member line. -/
def fieldLines (g : Graph) (c : ClassDiagram) (d : ScopedDecl) (f : Field) : List Line :=
  (arrow? g d f).toList.map arrowLine ++ c.memberLines d [f]

theorem memberLines_eq_flatMap (c : ClassDiagram) (d : ScopedDecl) (fields : List Field) :
    c.memberLines d fields = fields.flatMap fun f => c.memberLines d [f] := by
  induction fields with
  | nil => rfl
  | cons f rest ih =>
    rw [flatMap_cons, ← ih, memberLines, ← singleton_append, filter_append, map_append]
    rfl

/-- The lines for fields are those that the fields of the classes give. -/
theorem fieldLines_perm (h : (build g).2 = .ok c) :
    (c.lines.filter Line.showsField).Perm
      (c.drawn.flatMap fun x => x.2.flatMap (fieldLines g c x.1)) := by
  obtain ⟨_, hdrawn, arrows, rfl, harrows, _⟩ := exists_of_build_ok h
  rw [filter_showsField_lines, hdrawn, flatMap_map, flatMap_map]
  refine ((harrows ▸ (sortArrows_perm _).map arrowLine).append_right _).trans ?_
  rw [map_flatMap]
  refine (flatMap_append_perm _ _ _).trans (Perm.flatMap_left _ fun d _ => ?_)
  rw [memberLines_eq_flatMap, map_flatMap]
  exact flatMap_append_perm _ _ _

theorem isMember_iff (hhidden : f.annotations.has hiddenKey = false)
    (hembed : f.annotations.has embedKey = false) :
    c.isMember d f = true ↔ ∀ a ∈ c.arrows, a.source.name = d.name → a.field ≠ f.name := by
  simp [isMember, hhidden, hembed]

/-- A field that is shown has one line, unless it gives way to the arrow of a namesake. -/
theorem length_fieldLines_eq_one_iff (h : (build g).2 = .ok c) (hd : d ∈ classes g)
    (hf : f ∈ (shown g d).1) (hhidden : f.annotations.has hiddenKey = false)
    (hembed : f.annotations.has embedKey = false) :
    (fieldLines g c d f).length = 1 ↔ arrow? g d f ≠ none ∨
      ∀ a ∈ c.arrows, a.source.name = d.name → a.field ≠ f.name := by
  rw [← isMember_iff hhidden hembed]
  cases harrow : arrow? g d f with
  | none =>
    simp only [fieldLines, memberLines, harrow, filter_cons]
    split_ifs <;> simp [*]
  | some a =>
    obtain ⟨hsource, hfield, _⟩ := exists_of_arrow?_eq_some harrow
    have ha := (mem_arrows_iff h).mpr ⟨d, hd, f, hf, harrow⟩
    have hnot : c.isMember d f = false := by
      rw [Bool.eq_false_iff, Ne, isMember_iff hhidden hembed]
      exact fun hall => hall a ha (congrArg _ hsource) hfield
    simp [fieldLines, memberLines, hnot, harrow]

/-- The lines for fields are what the fields of the classes give.  A hidden field gives none unless
it has an arrow.  A field that is neither hidden nor embedded gives one, unless it has no arrow and
there is one for another field of its name in a class of that name. -/
theorem fields_drawn_once_iff (h : (build g).2 = .ok c) :
    (c.lines.filter Line.showsField).Perm
        (c.drawn.flatMap fun x => x.2.flatMap (fieldLines g c x.1)) ∧
      ∀ x ∈ c.drawn, ∀ f ∈ x.2,
        (f.annotations.has hiddenKey = true →
          (fieldLines g c x.1 f = [] ↔ arrow? g x.1 f = none)) ∧
        (f.annotations.has hiddenKey = false → f.annotations.has embedKey = false →
          ((fieldLines g c x.1 f).length = 1 ↔ arrow? g x.1 f ≠ none ∨
            ∀ a ∈ c.arrows, a.source.name = x.1.name → a.field ≠ f.name)) := by
  refine ⟨fieldLines_perm h, fun x hx f hf => ⟨fun hhidden => ?_, fun hhidden hembed => ?_⟩⟩
  · simp [fieldLines, memberLines, isMember, hhidden]
  · rw [(exists_of_build_ok h).2.1] at hx
    obtain ⟨d, hd, rfl⟩ := mem_map.mp hx
    exact length_fieldLines_eq_one_iff h hd hf hhidden hembed

/-- The hidden field of the owner has an arrow. -/
theorem fields_drawn_once_pet :
    ∃ g c, Graph.build .standard petStore = .ok g ∧ (build g).2 = .ok c ∧
      (owner, [pet]) ∈ c.drawn ∧ pet.annotations.has hiddenKey = true ∧
      fieldLines g c owner pet ≠ [] := by
  obtain ⟨g, c, hgraph, h, _, hdrawn, _, harrow, _⟩ := exists_petDiagram
  have hmem : (owner, [pet]) ∈ c.drawn := by simp [hdrawn]
  refine ⟨g, c, hgraph, h, hmem, rfl, ?_⟩
  have hhidden := ((fields_drawn_once_iff h).2 _ hmem pet (mem_singleton_self _)).1 rfl
  simp [hhidden, harrow]

end ClassDiagram

end SchemaCompiler
