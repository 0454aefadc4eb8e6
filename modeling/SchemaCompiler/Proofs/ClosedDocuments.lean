import SchemaCompiler.Proofs.SuppliedArguments
import SchemaCompiler.Sdl.Build

/-!
# Closed documents

A query schema is written declaration by declaration, and declarations outside
the graph join when a field first uses them.  Every name that has been given out
is defined already or waits to be.  So a finished document defines all names that
it uses, but for those of generic declarations whose name stands for something
else too.
-/

namespace SchemaCompiler

open Outcome List Standard Worklist

variable {p : Projection} {t : TypeExpr} {x : String} {found : Option Projection} {n : ScopedName}

namespace Worklist

/-! ## Names of a worklist -/

variable {g : Graph} {w w' : Worklist}

/-- The names that have been given out. -/
def known (w : Worklist) : List String := w.names.map (·.1)

/-- The worklist has all concrete declarations of the graph, and its fields and
shapes supply their arguments. -/
structure Sound (g : Graph) (w : Worklist) : Prop where
  concrete : ∀ p ∈ g.concrete, p.name.name ∈ w.known
  shapes : ∀ entry ∈ w.shapes, g.Outside entry.2
  pending : ∀ p ∈ w.pending, ∀ f ∈ p.fields, g.store.Supplies f.typeExpr

/-- Names are never taken back, and what is named later waits to be written. -/
structure Grows (w w' : Worklist) : Prop where
  known : w.known ⊆ w'.known
  pending : w.pending ⊆ w'.pending
  waits : ∀ x ∈ w'.known, x ∈ w.known ∨ ∃ p ∈ w'.pending, p.name.name = x

theorem Grows.refl (w : Worklist) : w.Grows w :=
  ⟨Subset.refl _, Subset.refl _, fun _ hx => .inl hx⟩

theorem Grows.trans {w'' : Worklist} (h : w.Grows w') (h' : w'.Grows w'') : w.Grows w'' := by
  refine ⟨Subset.trans h.known h'.known, Subset.trans h.pending h'.pending, ?_⟩
  intro x hx
  rcases h'.waits x hx with hx | hx
  · exact (h.waits x hx).imp_right fun ⟨p, hp, hname⟩ => ⟨p, h'.pending hp, hname⟩
  · exact .inr hx

theorem mem_known_of_lookup (h : w.names.lookup x = some n) : x ∈ w.known := by
  obtain ⟨before, after, hnames, _⟩ := lookup_eq_some_iff.mp h
  rw [known, hnames]
  simp

/-- A declaration that is added has its name and, if that is new, waits. -/
theorem grows_of_add (h : w.add Sdl.naming p = .ok w') :
    w.Grows w' ∧ p.name.name ∈ w'.known ∧ w'.shapes = w.shapes ∧
      ∀ q ∈ w'.pending, q ∈ w.pending ∨ q = p := by
  unfold add at h
  dsimp only [Sdl.naming] at h
  split at h
  · rename_i earlier hearlier
    split at h
    · cases h
      refine ⟨.refl w, ?_, rfl, fun q hq => .inl hq⟩
      exact mem_known_of_lookup hearlier
    · cases h
  · cases h
    refine ⟨⟨subset_cons_self _ _, subset_append_left _ _, ?_⟩, mem_cons_self, rfl,
      ?_⟩
    · intro x hx
      rcases mem_cons.mp hx with rfl | hx
      · exact .inr ⟨p, mem_append_right _ (mem_singleton_self p), rfl⟩
      · exact .inl hx
    · intro q hq
      simpa using hq

/-- A worklist keeps what the lookup does, and takes in a shape that the graph does not have. -/
theorem exists_of_use_ok {n : TypeNaming} (h : w.use n g t = .ok (found, w')) :
    ∃ shapes, g.shape w.shapes t = (shapes, .ok found) ∧
      (w' = { w with shapes } ∧ (∀ p, found = some p → ∃ q, g.decl? p.name = some q) ∨
        ∃ p, found = some p ∧ g.decl? p.name = none ∧
          ({ w with shapes } : Worklist).add n p = .ok w') := by
  unfold use at h
  split at h
  · cases h
  · cases h
    exact ⟨_, ‹_›, .inl ⟨rfl, fun p hp => by cases hp⟩⟩
  · dsimp only at h
    split at h
    · rename_i q hq
      cases h
      exact ⟨_, ‹_›, .inl ⟨rfl, fun p hp => ⟨q, by cases hp; exact hq⟩⟩⟩
    · split at h
      · cases h
      · cases h
        exact ⟨_, ‹_›, .inr ⟨_, rfl, ‹_›, ‹_›⟩⟩

/-- A worklist gives a name to the shape that a type denotes, unless the graph has
something generic under it that is overlaid. -/
theorem Sound.use (hw : w.Sound g) (h : g.Built) (hstore : g.store.Supplied)
    (ht : g.store.Supplies t) (huse : w.use Sdl.naming g t = .ok (found, w')) :
    w'.Sound g ∧ w.Grows w' ∧
      ∀ p, found = some p → p.name.name ∈ w'.known ∨ g.OverlaidAt p.name.name := by
  obtain ⟨shapes, hshape, hcases⟩ := exists_of_use_ok huse
  have hlookup := Graph.outside_of_shape hw.shapes t
  have hoverlaid := fun p q hp => h.overlaid_of_shape hstore hw.shapes ht (p := p) (q := q) hp
  rw [hshape] at hlookup hoverlaid
  have hkept : ({ w with shapes } : Worklist).Sound g := ⟨hw.concrete, hlookup.1, hw.pending⟩
  have hsame : w.Grows { w with shapes } :=
    ⟨Subset.refl _, Subset.refl _, fun _ hx => .inl hx⟩
  rcases hcases with ⟨rfl, hgraph⟩ | ⟨p, rfl, hnone, hadd⟩
  · refine ⟨hkept, hsame, ?_⟩
    rintro p rfl
    obtain ⟨q, hq⟩ := hgraph p rfl
    obtain ⟨hmem, hname⟩ := Graph.mem_all_of_decl? hq
    cases hgeneric : q.generic with
    | true =>
      exact .inr ⟨q, (h.params_of_generic hmem hgeneric).1, hgeneric,
        congrArg ScopedName.name hname, hoverlaid p q rfl hq hgeneric⟩
    | false =>
      have hconcrete : q ∈ g.concrete :=
        mem_mergeSort.mpr (mem_filter.mpr ⟨hmem, by rw [hgeneric]; rfl⟩)
      exact .inl (hname ▸ hw.concrete q hconcrete)
  · obtain ⟨hgrows, hknown, hshapes, hpending⟩ := grows_of_add hadd
    refine ⟨⟨fun q hq => hgrows.known (hw.concrete q hq), hshapes ▸ hlookup.1, fun q hq => ?_⟩,
      hsame.trans hgrows, fun q hq => ?_⟩
    · rcases hpending q hq with hq | rfl
      · exact hw.pending q hq
      · obtain ⟨_, _, _, _, _, houtside | hdecl⟩ := hlookup.2 q rfl
        · exact houtside.fields
        · rw [(Graph.mem_all_of_decl? hdecl).2, hdecl] at hnone
          cases hnone
    · cases hq
      exact .inl hknown

theorem grows_of_addAll {ps : List Projection} (h : w.addAll Sdl.naming ps = .ok w') :
    w.Grows w' ∧ (∀ p ∈ ps, p.name.name ∈ w'.known) ∧ w'.shapes = w.shapes ∧
      ∀ q ∈ w'.pending, q ∈ w.pending ∨ q ∈ ps := by
  induction ps generalizing w with
  | nil =>
    cases h
    exact ⟨.refl _, forall_mem_nil _, rfl, fun q hq => .inl hq⟩
  | cons p ps ih =>
    rw [addAll] at h
    split at h
    · cases h
    · rename_i next hnext
      obtain ⟨hfirst, hname, hshapes, hpending⟩ := grows_of_add hnext
      obtain ⟨hgrows, hnames, hshapes', hpending'⟩ := ih h
      refine ⟨hfirst.trans hgrows, forall_mem_cons.mpr ⟨hgrows.known hname, hnames⟩,
        hshapes'.trans hshapes, fun q hq => ?_⟩
      rcases hpending' q hq with hq | hq
      · refine (hpending q hq).imp_right ?_
        rintro rfl
        exact mem_cons_self
      · exact .inr (mem_cons_of_mem p hq)

theorem outcome_eq_ok {α : Type} {x : Option (Outcome α)} {a : α} (h : outcome x = .ok a) :
    x = some (.ok a) := by
  cases x with
  | none => cases h
  | some result => exact congrArg some h

end Worklist

namespace Sdl

variable {required : Bool}

/-! ## Fields -/

namespace Builder

variable {g : Graph} {b b' : Builder} {names : List String} {m : Member}

/-- The name is built in, is the one of maps, has been given out or is overlaid. -/
def Covers (g : Graph) (b : Builder) (x : String) : Prop :=
  x ∈ builtinScalars ∨ (x = mapScalar ∧ b.usesMaps = true) ∨ x ∈ b.work.known ∨ g.OverlaidAt x

/-- Something was written that uses these names. -/
structure Uses (g : Graph) (b b' : Builder) (names : List String) : Prop where
  sound : b'.work.Sound g
  grows : b.work.Grows b'.work
  document : b'.document = b.document
  maps : b.usesMaps = true → b'.usesMaps = true
  covers : ∀ x ∈ names, b'.Covers g x

theorem Covers.mono (h : b.Covers g x) (hgrows : b.work.Grows b'.work)
    (hmaps : b.usesMaps = true → b'.usesMaps = true) : b'.Covers g x := by
  rcases h with hbuiltin | ⟨hmap, hused⟩ | hknown | hoverlaid
  · exact .inl hbuiltin
  · exact .inr (.inl ⟨hmap, hmaps hused⟩)
  · exact .inr (.inr (.inl (hgrows.known hknown)))
  · exact .inr (.inr (.inr hoverlaid))

theorem Uses.none (hb : b.work.Sound g) : Uses g b b [] :=
  ⟨hb, .refl _, rfl, id, forall_mem_nil _⟩

theorem Uses.append {b'' : Builder} {more : List String} (h : Uses g b b' names)
    (h' : Uses g b' b'' more) : Uses g b b'' (names ++ more) where
  sound := h'.sound
  grows := h.grows.trans h'.grows
  document := h'.document.trans h.document
  maps := h'.maps ∘ h.maps
  covers := by
    intro x hx
    rcases mem_append.mp hx with hx | hx
    · exact (h.covers x hx).mono h'.grows h'.maps
    · exact h'.covers x hx

theorem Uses.mono {fewer : List String} (h : Uses g b b' names) (hfewer : fewer ⊆ names) :
    Uses g b b' fewer :=
  { h with covers := fun x hx => h.covers x (hfewer hx) }

theorem scalar_mem_builtinScalars (primitive : String) :
    Naming.scalar primitive ∈ builtinScalars := by
  unfold Naming.scalar
  split_ifs <;> decide

/-- A type that needs nothing new. -/
theorem uses_builtin (hb : b.work.Sound g) (hx : x ∈ builtinScalars) : Uses g b b [x] :=
  ⟨hb, .refl _, rfl, id, forall_mem_singleton.mpr (.inl hx)⟩

section Fields

variable (h : g.Built) (hstore : g.store.Supplied) {owner : ScopedName}
  {fields : List ConcreteField}
include h hstore

/-- What a worklist finds for a type may be used. -/
theorem uses_of_use (hb : b.work.Sound g) (ht : g.store.Supplies t) {work : Worklist}
    (huse : b.work.use naming g t = .ok (found, work)) :
    Uses g b { b with work } (found.map (·.name.name)).toList := by
  obtain ⟨hsound, hgrows, hknown⟩ := hb.use h hstore ht huse
  refine ⟨hsound, hgrows, rfl, id, ?_⟩
  cases found with
  | none => exact forall_mem_nil _
  | some p => exact forall_mem_singleton.mpr (.inr (.inr (hknown p rfl)))

theorem uses_of_fieldType {type : TypeRef} (hb : b.work.Sound g) (ht : g.store.Supplies t)
    (hresult : b.fieldType g t required = some (.ok (type, b'))) : Uses g b b' [type.name] := by
  refine fieldType.partial_correctness g (fun b t _ result => b.work.Sound g →
    g.store.Supplies t → ∀ type b', result = .ok (type, b') → Uses g b b' [type.name]) ?_
    b t required _ hresult hb ht type b' rfl
  clear hresult ht hb
  intro rest ih b t required result hresult hb ht type b' hok
  subst hok
  cases hw : g.resolver.classify t with
  | error failure =>
    rw [hw] at hresult
    cases hresult
  | ok w =>
    have hinner := Resolver.supplies_of_classify ht hw
    cases hkind : w.kind with
    | optional =>
      simp only [hw, hkind] at hresult
      exact ih _ _ _ _ hresult hb hinner _ _ rfl
    | list =>
      simp only [hw, hkind] at hresult
      obtain ⟨item, hitem, hlist⟩ := Option.bind_eq_some_iff.mp hresult
      obtain ⟨⟨inner, c⟩, rfl, hsame⟩ := map_eq_ok.mp (Option.some.inj hlist)
      cases hsame
      exact ih _ _ _ _ hitem hb hinner inner c rfl
    | map =>
      simp only [hw, hkind] at hresult
      cases hresult
      exact ⟨hb, .refl _, rfl, fun _ => rfl, forall_mem_singleton.mpr (.inr (.inl ⟨rfl, rfl⟩))⟩
    | reference =>
      simp only [hw, hkind] at hresult
      cases hresult
      exact uses_builtin hb (show "ID" ∈ builtinScalars by decide)
    | plain =>
      simp only [hw, hkind] at hresult
      split at hresult
      · cases hresult
        exact uses_builtin hb (scalar_mem_builtinScalars _)
      · cases hresult
      · split at hresult
        · cases hresult
        · rename_i huse
          cases hresult
          exact uses_of_use h hstore hb ht huse
        · rename_i work huse
          have hused := uses_of_use h hstore hb ht huse
          split at hresult
          · cases hresult
          · rename_i next hnext
            have hnext : g.store.Supplies (next.getD t) := by
              cases next with
              | none => exact ht
              | some u => exact Resolver.supplies_of_expandOnce hstore ht hnext
            exact hused.append (ih _ _ _ _ hresult hused.sound hnext _ _ rfl)

theorem uses_of_memberOf {f : ConcreteField} (hb : b.work.Sound g)
    (hf : g.store.Supplies f.typeExpr) (hresult : b.memberOf g owner f = .ok (m, b')) :
    Uses g b b' [m.type.name] := by
  unfold memberOf at hresult
  split at hresult
  · cases hresult
  · cases hresult
  · rename_i htype
    cases hresult
    exact uses_of_fieldType h hstore hb hf (outcome_eq_ok htype)

theorem uses_of_membersOf {members : List Member} (hb : b.work.Sound g)
    (hfields : ∀ f ∈ fields, g.store.Supplies f.typeExpr)
    (hresult : b.membersOf g owner fields = .ok (members, b')) :
    Uses g b b' (members.map (·.type.name)) := by
  induction fields generalizing b members with
  | nil =>
    cases hresult
    exact .none hb
  | cons f rest ih =>
    obtain ⟨⟨m, c⟩, hm, hrest⟩ := bind_eq_ok.mp hresult
    obtain ⟨⟨more, e⟩, hmore, hpure⟩ := bind_eq_ok.mp hrest
    cases pure_eq_ok.mp hpure
    have hfirst := uses_of_memberOf h hstore hb (hfields f mem_cons_self) hm
    exact hfirst.append (ih hfirst.sound (fun f hf => hfields f (mem_cons_of_mem _ hf)) hmore)

/-! ## Branches -/

theorem uses_of_alternative {found : Option String} (hb : b.work.Sound g) (ht : g.store.Supplies t)
    (hresult : b.alternative g t = .ok (found, b')) : Uses g b b' found.toList := by
  unfold alternative at hresult
  split at hresult
  · cases hresult
    exact .none hb
  · obtain ⟨d, _, hresult⟩ := bind_eq_ok.mp hresult
    obtain ⟨⟨shape, work⟩, huse, hresult⟩ := bind_eq_ok.mp hresult
    have hused : Uses g b { b with work } (shape.map (·.name.name)).toList := by
      apply uses_of_use h hstore hb _ huse
      split
      · rename_i inner hargs
        split
        · exact ht.arg (hargs ▸ mem_cons_self)
        · exact ht
      · exact ht
    cases shape with
    | none =>
      cases hresult
      exact hused
    | some p =>
      dsimp only at hresult
      split at hresult
      · cases hresult
        exact hused.mono (nil_subset _)
      · cases hresult
        exact hused

theorem uses_of_alternatives {found : List String} (hb : b.work.Sound g)
    (hfields : ∀ f ∈ fields, g.store.Supplies f.typeExpr) (hfound : ∀ x ∈ found, b.Covers g x)
    (hresult : b.alternatives g owner found fields = .ok (names, b')) : Uses g b b' names := by
  induction fields generalizing b found with
  | nil =>
    cases hresult
    exact ⟨hb, .refl _, rfl, id, hfound⟩
  | cons f rest ih =>
    have hrest := fun f hf => hfields f (mem_cons_of_mem _ hf)
    unfold alternatives at hresult
    split at hresult
    · cases hresult
    · rename_i c hfirst
      have hused := uses_of_alternative h hstore hb (hfields f mem_cons_self) hfirst
      refine hused.append (ih hused.sound hrest (fun x hx => ?_) hresult)
      exact (hfound x hx).mono hused.grows hused.maps
    · rename_i name c hfirst
      have hused := uses_of_alternative h hstore hb (hfields f mem_cons_self) hfirst
      refine (hused.append (ih hused.sound hrest (fun x hx => ?_) hresult)).mono
        (subset_append_right _ _)
      have hx : x ∈ found ∨ x = name := by
        split at hx
        · exact .inl hx
        · simpa using hx
      rcases hx with hx | rfl
      · exact (hfound x hx).mono hused.grows hused.maps
      · exact hused.covers x mem_cons_self

end Fields

/-! ## Declarations -/

/-- Definitions were written, one of them under the name of a declaration, and
what they use is covered or among them. -/
structure Writes (g : Graph) (b b' : Builder) (p : Projection) : Prop where
  sound : b'.work.Sound g
  grows : b.work.Grows b'.work
  maps : b.usesMaps = true → b'.usesMaps = true
  document : ∃ ds, b'.document = b.document ++ ds ∧ (∃ d ∈ ds, d.name = p.name.name) ∧
    ∀ d ∈ ds, ∀ x ∈ d.uses, b'.Covers g x ∨ ∃ e ∈ ds, e.name = x

theorem Uses.define (hused : Uses g b b' names) {ds : List Definition}
    (hname : ∃ d ∈ ds, d.name = p.name.name)
    (hds : ∀ d ∈ ds, ∀ x ∈ d.uses, x ∈ names ∨ x ∈ builtinScalars ∨ ∃ e ∈ ds, e.name = x) :
    Writes g b (b'.define ds) p where
  sound := hused.sound
  grows := hused.grows
  maps := hused.maps
  document := by
    refine ⟨ds, congrArg (· ++ ds) hused.document, hname, fun d hd x hx => ?_⟩
    rcases hds d hd x hx with hx | hx | hx
    · exact .inl (hused.covers x hx)
    · exact .inl (.inl hx)
    · exact .inr hx

theorem builtin_of_mem_identifier (hm : m ∈ identifier g p) : m.type.name ∈ builtinScalars := by
  unfold identifier at hm
  split at hm
  · split at hm
    · obtain rfl := mem_singleton.mp hm
      decide
    · cases hm
  · cases hm

section Declarations

variable (h : g.Built) (hstore : g.store.Supplied)
include h hstore

theorem writes_of_object (hb : b.work.Sound g) (hp : ∀ f ∈ p.fields, g.store.Supplies f.typeExpr)
    (hresult : b.object g p = .ok b') : Writes g b b' p := by
  obtain ⟨⟨members, c⟩, hmembers, rfl⟩ := bind_pure_eq_ok.mp hresult
  refine (uses_of_membersOf h hstore hb hp hmembers).define ⟨_, mem_cons_self, rfl⟩ ?_
  refine forall_mem_singleton.mpr fun x hx => ?_
  obtain ⟨m, hm, rfl⟩ := mem_map.mp hx
  split at hm
  · obtain rfl := mem_singleton.mp hm
    exact .inr (.inl (by decide))
  · rcases mem_append.mp hm with hm | hm
    · exact .inr (.inl (builtin_of_mem_identifier hm))
    · exact .inl (mem_map_of_mem hm)

theorem writes_of_union (hb : b.work.Sound g) (hp : ∀ f ∈ p.fields, g.store.Supplies f.typeExpr)
    (hresult : b.union g p = .ok b') : Writes g b b' p := by
  obtain ⟨⟨found, c⟩, hfound, rfl⟩ := bind_pure_eq_ok.mp hresult
  refine (uses_of_alternatives h hstore hb hp (forall_mem_nil _) hfound).define
    ⟨_, mem_cons_self, rfl⟩ ?_
  intro d hd x hx
  cases found with
  | nil =>
    rcases mem_cons.mp hd with rfl | hd
    · rcases mem_cons.mp hx with rfl | hx
      · exact .inr (.inr ⟨_, mem_append_right _ mem_cons_self, rfl⟩)
      · obtain rfl := mem_singleton.mp hx
        exact .inr (.inl (show "String" ∈ builtinScalars by decide))
    · obtain rfl := mem_singleton.mp hd
      cases hx
  | cons first others =>
    rcases mem_cons.mp hd with rfl | hd
    · rcases mem_cons.mp hx with rfl | hx
      · exact .inr (.inr ⟨_, mem_append_right _ mem_cons_self, rfl⟩)
      · obtain rfl := mem_singleton.mp hx
        exact .inr (.inr ⟨_, mem_cons_of_mem _ mem_cons_self, rfl⟩)
    · rcases mem_cons.mp hd with rfl | hd
      · exact .inl hx
      · obtain rfl := mem_singleton.mp hd
        cases hx

theorem writes_of_declaration (hb : b.work.Sound g)
    (hp : ∀ f ∈ p.fields, g.store.Supplies f.typeExpr) (hresult : b.declaration g p = .ok b') :
    Writes g b b' p := by
  unfold declaration at hresult
  split at hresult
  · split at hresult
    · cases hresult
      refine (Uses.none hb).define ⟨_, mem_cons_self, rfl⟩ ?_
      exact forall_mem_singleton.mpr fun x hx => by cases hx
    · exact writes_of_union h hstore hb hp hresult
  · exact writes_of_object h hstore hb hp hresult

end Declarations

/-! ## Documents -/

/-- Every name that has been given out is defined or waits to be; every name that
is used is covered or defined. -/
structure Sound (g : Graph) (b : Builder) : Prop where
  work : b.work.Sound g
  defined : ∀ x ∈ b.work.known,
    (∃ d ∈ b.document, d.name = x) ∨ ∃ p ∈ b.work.pending, p.name.name = x
  closed : ∀ d ∈ b.document, ∀ x ∈ d.uses, b.Covers g x ∨ ∃ e ∈ b.document, e.name = x

theorem Sound.exists_of_known (hb : b.Sound g) (hdone : b.work.pending = [])
    (hx : x ∈ b.work.known) : ∃ d ∈ b.document, d.name = x := by
  rcases hb.defined x hx with hdefined | ⟨p, hp, _⟩
  · exact hdefined
  · rw [hdone] at hp
    cases hp

/-- A builder starts with the concrete declarations of the graph. -/
theorem sound_of_addAll (h : g.Built) (asked : List TypeExpr) {work : Worklist}
    (hwork : (start (g.shapesAfter asked)).addAll naming g.concrete = .ok work) :
    Sound g ⟨work, [], false⟩ := by
  obtain ⟨hgrows, hknown, hshapes, hpending⟩ := grows_of_addAll hwork
  refine ⟨⟨hknown, ?_, fun p hp => ?_⟩, fun x hx => ?_, forall_mem_nil _⟩
  · rw [hshapes]
    exact fun entry hentry =>
      Graph.outside_of_projectedFor (g.projectedFor_of_mem_shapesAfter asked entry hentry)
  · rcases hpending p hp with hp | hp
    · cases hp
    · exact fun f hf => h.supplies (mem_of_mem_filter (mem_mergeSort.mp hp)) hf
  · rcases hgrows.waits x hx with hx | hx
    · cases hx
    · exact .inr hx

section Documents

variable (h : g.Built) (hstore : g.store.Supplied)
include h hstore

/-- Writing the next declaration keeps a builder sound. -/
theorem Sound.declaration (hb : b.Sound g) {rest : List Projection}
    (hpending : b.work.pending = p :: rest)
    (hresult : declaration g { b with work := { b.work with pending := rest } } p = .ok b') :
    b'.Sound g := by
  have hrest : ∀ q ∈ rest, q ∈ b.work.pending := fun q hq => hpending ▸ mem_cons_of_mem p hq
  have hp := hb.work.pending p (hpending ▸ mem_cons_self)
  have hwork : ({ b.work with pending := rest } : Worklist).Sound g :=
    ⟨hb.work.concrete, hb.work.shapes, fun q hq => hb.work.pending q (hrest q hq)⟩
  obtain ⟨hsound, hgrows, hmaps, ds, hdocument, ⟨own, hown, hname⟩, hds⟩ :=
    writes_of_declaration (b := { b with work := { b.work with pending := rest } }) h hstore
      hwork hp hresult
  have hold : ∀ d ∈ b.document, d ∈ b'.document := fun d hd =>
    hdocument ▸ mem_append_left ds hd
  have hnew : ∀ d ∈ ds, d ∈ b'.document := fun d hd =>
    hdocument ▸ mem_append_right b.document hd
  refine ⟨hsound, fun x hx => ?_, fun d hd x hx => ?_⟩
  · rcases hgrows.waits x hx with hx | hwaits
    · rcases hb.defined x hx with ⟨d, hd, hx⟩ | ⟨q, hq, hx⟩
      · exact .inl ⟨d, hold d hd, hx⟩
      · rw [hpending] at hq
        rcases mem_cons.mp hq with rfl | hq
        · exact .inl ⟨own, hnew own hown, hname.trans hx⟩
        · exact .inr ⟨q, hgrows.pending hq, hx⟩
    · exact .inr hwaits
  · rw [hdocument] at hd
    rcases mem_append.mp hd with hd | hd
    · rcases hb.closed d hd x hx with hcovers | ⟨e, he, hx⟩
      · have hcovers : ({ b with work := { b.work with pending := rest } } : Builder).Covers g x :=
          hcovers
        exact .inl (hcovers.mono hgrows hmaps)
      · exact .inr ⟨e, hold e he, hx⟩
    · exact (hds d hd x hx).imp_right fun ⟨e, he, hx⟩ => ⟨e, hnew e he, hx⟩

/-- A run ends with nothing left to be written. -/
theorem Sound.run (hb : b.Sound g) (hresult : b.run g = some (.ok b')) :
    b'.Sound g ∧ b'.work.pending = [] := by
  refine run.partial_correctness g (fun b result => b.Sound g → ∀ b', result = .ok b' →
    b'.Sound g ∧ b'.work.pending = []) ?_ b _ hresult hb b' rfl
  clear hresult hb
  intro rest ih b result hresult hb b' hok
  subst hok
  cases hpending : b.work.pending with
  | nil =>
    simp only [hpending] at hresult
    cases hresult
    exact ⟨hb, hpending⟩
  | cons p later =>
    simp only [hpending] at hresult
    split at hresult
    · cases hresult
    · rename_i hdeclaration
      exact ih _ _ hresult (hb.declaration h hstore hpending hdeclaration) _ rfl

end Documents

end Builder

/-- A query schema defines every concrete declaration of its graph and every name
that it uses.  The exceptions are names of generic declarations that stand for
something else too; where every declaration is found under its own name alone,
that is an application with the name of an instance. -/
theorem build_defines {settings : Settings} {store : Store} {g : Graph}
    (hbuild : Graph.build settings store = .ok g) (hstore : store.Supplied)
    (asked : List TypeExpr) {document : Document} {shapes : Shapes}
    (hdocument : build g (g.shapesAfter asked) = .ok (document, shapes)) :
    (∀ p ∈ g.concrete, ∃ d ∈ document, d.name = p.name.name) ∧
    (∀ d ∈ document, ∀ x ∈ d.uses,
      x ∈ builtinScalars ∨ (∃ e ∈ document, e.name = x) ∨ g.OverlaidAt x) ∧
    (store.Indexed → ∀ p ∈ g.decls, g.Overlaid p → ∃ m d args, store.resolve m = .ok d ∧
      args ≠ [] ∧ d.decl.params.length = args.length ∧
      g.Emits (.app (.reference m) args) p.name) := by
  obtain ⟨rfl, rfl, hbuilt⟩ := Graph.built_of_build_ok hbuild
  obtain ⟨work, hwork, hrest⟩ := Outcome.bind_eq_ok.mp hdocument
  obtain ⟨b, hb, hpure⟩ := Outcome.bind_eq_ok.mp hrest
  obtain ⟨hsound, hdone⟩ := (Builder.sound_of_addAll hbuilt asked hwork).run hbuilt hstore
    (outcome_eq_ok hb)
  cases Outcome.pure_eq_ok.mp hpure
  refine ⟨fun p hp => ?_, fun d hd x hx => ?_, fun hindexed p hp => ?_⟩
  · obtain ⟨d, hd, hname⟩ := hsound.exists_of_known hdone (hsound.work.concrete p hp)
    exact ⟨d, mem_append_left _ hd, hname⟩
  · rcases mem_append.mp hd with hd | hd
    · have hcases : b.Covers g x ∨ ∃ e ∈ b.document, e.name = x := hsound.closed d hd x hx
      rcases hcases with (hbuiltin | ⟨rfl, hmaps⟩ | hknown | hoverlaid) | ⟨e, he, hname⟩
      · exact .inl hbuiltin
      · refine .inr (.inl ⟨⟨mapScalar, "", .scalar⟩, mem_append_right _ ?_, rfl⟩)
        rw [if_pos hmaps]
        exact mem_cons_self
      · obtain ⟨e, he, hname⟩ := hsound.exists_of_known hdone hknown
        exact .inr (.inl ⟨e, mem_append_left _ he, hname⟩)
      · exact .inr (.inr hoverlaid)
      · exact .inr (.inl ⟨e, mem_append_left _ he, hname⟩)
    · split at hd
      · obtain rfl := mem_singleton.mp hd
        cases hx
      · cases hd
  · exact hbuilt.exists_emits_of_overlaid hindexed hp

/-- A box, an alias of one that holds a number, and a generic declaration named
like that. -/
def boxStore : Store :=
  ⟨[⟨"app", [], [structDecl "Box" ["T"] [field "item" (.param "T")],
    ("First", ⟨"First", none, .synonym [] (.ref ⟨"app", "Box"⟩ [.prim "Int32"]), []⟩),
    structDecl "Sale" [] [field "first" (.ref ⟨"app", "First"⟩)],
    structDecl "_Box_Int32" ["T"] [field "label" (.param "T")]], []⟩]⟩

theorem Builder.fieldType_of_shape {g : Graph} {b : Builder} {w : Wrapped} {shapes : Shapes}
    {q : Projection} (hlayer : g.resolver.classify t = .ok w) (hkind : w.kind = .plain)
    (hprimitive : t.primitive? = none) (hreference : t.reference? = some n)
    (hshape : g.shape b.work.shapes t = (shapes, .ok (some p))) (hfound : g.decl? p.name = some q) :
    b.fieldType g t required =
      some (.ok (.named p.name.name required, { b with work := { b.work with shapes } })) := by
  rw [Builder.fieldType, hlayer]
  dsimp only
  rw [hkind, hprimitive, hreference]
  dsimp only
  rw [use, hshape]
  dsimp only
  rw [hfound]

theorem boxStore_document :
    ∃ g shapes, Graph.build .standard boxStore = .ok g ∧ build g [] =
      .ok ([⟨"Sale", "", .object [⟨"first", "", .named "_Box_Int32" true⟩]⟩], shapes) := by
  obtain ⟨g, p, f, w, n, shapes, q, r, hbuild, hp, hname, hstruct, hfields, hidentifier, hdoc,
      hfield, hfdoc, hlayer, hkind, hprimitive, hreference, hshape, hqname, hfound⟩ :
      ∃ g p f w n shapes q r, Graph.build .standard boxStore = .ok g ∧
        g.all.filter (!·.generic) = [p] ∧ p.name = ⟨"app", "Sale"⟩ ∧ p.kind = .struct ∧
        p.fields = [f] ∧ Builder.identifier g p = [] ∧ Builder.descriptionOf p.annotations = "" ∧
        f.name = "first" ∧ Builder.descriptionOf f.field.annotations = "" ∧
        g.resolver.classify f.typeExpr = .ok w ∧ w.kind = .plain ∧
        f.typeExpr.primitive? = none ∧ f.typeExpr.reference? = some n ∧
        g.shape [] f.typeExpr = (shapes, .ok (some q)) ∧ q.name = ⟨"app", "_Box_Int32"⟩ ∧
        g.decl? q.name = some r :=
    ⟨_, _, _, _, _, _, _, _, Graph.build_of_sorted rfl rfl rfl rfl rfl rfl (by decide),
      rfl, rfl, rfl, rfl, rfl, rfl, rfl, rfl, rfl, rfl, rfl, rfl, rfl, rfl, rfl⟩
  have hconcrete : g.concrete = [p] := by
    rw [Graph.concrete, hp]
    exact mergeSort_singleton p
  have hwork : (start []).addAll naming g.concrete =
      .ok ⟨[], [("Sale", p.name)], [p]⟩ := by
    rw [hconcrete, hname]
    simp only [addAll, add, hname]
    rfl
  have hmember : Builder.fieldType g ⟨⟨[], [("Sale", p.name)], []⟩, [], false⟩ f.typeExpr true =
      some (.ok (.named q.name.name true, ⟨⟨shapes, [("Sale", p.name)], []⟩, [], false⟩)) :=
    Builder.fieldType_of_shape hlayer hkind hprimitive hreference hshape hfound
  have hdeclaration : Builder.declaration g ⟨⟨[], [("Sale", p.name)], []⟩, [], false⟩ p =
      .ok ⟨⟨shapes, [("Sale", p.name)], []⟩,
        [⟨"Sale", "", .object [⟨"first", "", .named "_Box_Int32" true⟩]⟩], false⟩ := by
    rw [Builder.declaration, if_neg (by rw [hstruct]; decide), Builder.object, hfields,
      Builder.membersOf, Builder.memberOf, hmember, hidentifier, hdoc, hfield, hfdoc, hname, hqname]
    rfl
  refine ⟨g, shapes, hbuild, ?_⟩
  rw [build, hwork]
  dsimp only [bind, Except.bind]
  rw [Builder.run]
  dsimp only
  rw [hdeclaration]
  dsimp only
  rw [Builder.run]
  rfl

/-- The schema of the sale uses a name that it does not define. -/
theorem build_defines_boxes :
    ∃ g document shapes, Graph.build .standard boxStore = .ok g ∧
      build g [] = .ok (document, shapes) ∧ (∃ d ∈ document, "_Box_Int32" ∈ d.uses) ∧
      (∀ d ∈ document, d.name ≠ "_Box_Int32") ∧
      ∃ p ∈ g.decls, p.name.name = "_Box_Int32" ∧ g.Overlaid p ∧
        ∃ m d args, boxStore.resolve m = .ok d ∧ args ≠ [] ∧ d.decl.params.length = args.length ∧
          g.Emits (.app (.reference m) args) p.name := by
  obtain ⟨g, shapes, hbuild, hdocument⟩ := boxStore_document
  obtain ⟨_, huses, hoverlaid⟩ := build_defines hbuild (by decide) [] hdocument
  have hundefined : ∀ d ∈ [(⟨"Sale", "", .object [⟨"first", "", .named "_Box_Int32" true⟩]⟩ :
      Definition)], d.name ≠ "_Box_Int32" := by
    decide
  refine ⟨g, _, shapes, hbuild, hdocument, ⟨_, mem_cons_self, by decide⟩, hundefined, ?_⟩
  rcases huses _ mem_cons_self "_Box_Int32" (by decide) with hbuiltin | ⟨e, he, hname⟩ | hat
  · exact absurd hbuiltin (by decide)
  · exact absurd hname (hundefined e he)
  · obtain ⟨p, hp, _, hname, hover⟩ := hat
    exact ⟨p, hp, hname, hover, hoverlaid (by decide) p hp hover⟩

end Sdl

end SchemaCompiler
