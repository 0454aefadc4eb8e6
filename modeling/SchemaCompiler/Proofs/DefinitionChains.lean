import SchemaCompiler.Proofs.ClosedDocuments
import SchemaCompiler.Proofs.FieldLayers

/-!
# Fields behind definitions

An alias or a new type is written in a query schema as what it stands for.  The
mapping of field types looks up the shape behind the whole chain of definitions,
and where there is none goes on with the next definition alone; the lookup
follows the chain with a budget of its own.  As long as the chain is within that
budget, a type and its definition are mapped to the same type, and the mapping
leaves the same work behind.
-/

namespace SchemaCompiler

open Standard

namespace Resolver

variable {r : Resolver} {t next : TypeExpr}

/-- The alias or new type at the head is replaced by its definition. -/
structure Opens (r : Resolver) (t next : TypeExpr) : Prop where
  plain : ∃ w, r.classify t = .ok w ∧ w.kind = .plain
  expands : r.expandOnce t = .ok (some next)

theorem Opens.exists_reference (h : r.Opens t next) : ∃ n, t.reference? = some n := by
  obtain ⟨n, _, _, _, hn, _⟩ := exists_of_expandOnce_ok h.expands
  exact ⟨n, hn⟩

/-- Definitions take the place of aliases and new types, so many times. -/
inductive Chain (r : Resolver) : Nat → TypeExpr → TypeExpr → Prop
  | here (t : TypeExpr) : Chain r 0 t t
  | step {steps : Nat} {t next u : TypeExpr} (h : r.Opens t next) (hrest : Chain r steps next u) :
      Chain r (steps + 1) t u

/-- No chain of definitions from a type has as many steps. -/
def ChainsBelow (r : Resolver) (bound : Nat) (t : TypeExpr) : Prop :=
  ∀ steps u, r.Chain steps t u → steps < bound

theorem ChainsBelow.tail {bound : Nat} (h : r.ChainsBelow (bound + 1) t) (hnext : r.Opens t next) :
    r.ChainsBelow bound next := by
  intro steps u hchain
  exact Nat.lt_of_succ_lt_succ (h (steps + 1) u (.step hnext hchain))

theorem ChainsBelow.mono {bound more : Nat} (h : r.ChainsBelow bound t) (hmore : bound ≤ more) :
    r.ChainsBelow more t :=
  fun steps u hchain => (h steps u hchain).trans_le hmore

end Resolver

namespace Graph

variable {g : Graph} {t next : TypeExpr}

/-! ## Lookups along a chain -/

theorem shapeWithin_of_opens (h : g.resolver.Opens t next) (shapes : Shapes) (budget : Nat) :
    g.shapeWithin shapes (budget + 1) t = g.shapeWithin shapes budget next := by
  obtain ⟨n, hn⟩ := h.exists_reference
  obtain ⟨w, hw, hkind⟩ := h.plain
  simp only [shapeWithin, hn, hw, hkind, h.expands, ne_eq, not_true, if_false]

/-- More than the chain needs does not change a lookup. -/
theorem shapeWithin_succ {budget : Nat} (h : g.resolver.ChainsBelow budget t) (shapes : Shapes) :
    g.shapeWithin shapes (budget + 1) t = g.shapeWithin shapes budget t := by
  induction budget generalizing t with
  | zero => exact absurd (h 0 t (.here t)) (Nat.lt_irrefl 0)
  | succ budget ih =>
    by_cases hopens : ∃ next, g.resolver.Opens t next
    · obtain ⟨next, hnext⟩ := hopens
      rw [shapeWithin_of_opens hnext, shapeWithin_of_opens hnext, ih (h.tail hnext)]
    · rw [shapeWithin, shapeWithin]
      split
      · rfl
      · split
        · rfl
        · rename_i w hw
          split
          · rfl
          · rename_i hplain
            split
            · rfl
            · rfl
            · rename_i next hnext
              exact absurd ⟨next, ⟨w, hw, not_not.mp hplain⟩, hnext⟩ hopens

/-- A type and its definition have one shape. -/
theorem shape_of_opens (h : g.resolver.Opens t next)
    (hchains : g.resolver.ChainsBelow maxExpansion t) (shapes : Shapes) :
    g.shape shapes t = g.shape shapes next :=
  calc g.shape shapes t
    _ = g.shapeWithin shapes (maxExpansion - 1) next := shapeWithin_of_opens h shapes _
    _ = g.shape shapes next := (shapeWithin_succ (hchains.tail h) shapes).symm

/-- A lookup finds nothing at a head that names no declaration or wraps one,
passes on why a head has no layer, and goes on at any other. -/
theorem shape_cases (g : Graph) (shapes : Shapes) (t : TypeExpr) :
    g.shape shapes t = (shapes, .ok none) ∨
    (∃ failure, g.resolver.classify t = .error failure ∧
      g.shape shapes t = (shapes, .error failure)) ∨
    ∃ n w, t.reference? = some n ∧ g.resolver.classify t = .ok w ∧ w.kind = .plain := by
  rw [shape, maxExpansion, shapeWithin]
  cases hn : t.reference? with
  | none => exact .inl rfl
  | some n =>
    cases hw : g.resolver.classify t with
    | error failure => exact .inr (.inl ⟨failure, rfl, rfl⟩)
    | ok w =>
      by_cases hkind : w.kind = .plain
      · exact .inr (.inr ⟨n, w, rfl, rfl, hkind⟩)
      · exact .inl (if_pos hkind)

/-- A lookup that finds nothing keeps nothing. -/
theorem shapes_of_shape_none {shapes kept : Shapes} (h : g.shape shapes t = (kept, .ok none)) :
    kept = shapes := by
  rcases shapeWithin_cases g shapes maxExpansion t with ⟨hshapes, _⟩ | ⟨_, n, args, _, _, hlooked⟩
  · rw [← hshapes]
    exact (congrArg Prod.fst h).symm
  · rw [show g.shapeWithin shapes maxExpansion t = (kept, .ok none) from h] at hlooked
    cases hlooked

end Graph

namespace Worklist

variable {n : TypeNaming} {g : Graph} {w w' : Worklist} {t next : TypeExpr}

theorem use_of_opens (h : g.resolver.Opens t next)
    (hchains : g.resolver.ChainsBelow Graph.maxExpansion t) :
    w.use n g t = w.use n g next := by
  rw [use, use, Graph.shape_of_opens h hchains]

/-- A worklist that finds no shape stays as it is. -/
theorem eq_of_use_none (h : w.use n g t = .ok (none, w')) : w' = w := by
  obtain ⟨shapes, hshape, ⟨rfl, _⟩ | ⟨p, hp, _⟩⟩ := exists_of_use_ok h
  · rw [Graph.shapes_of_shape_none hshape]
  · cases hp

end Worklist

namespace Sdl.Builder

variable {g : Graph} {b : Builder} {t next : TypeExpr} {required : Bool}

/-! ## Types of fields -/

section Head

variable {n : ScopedName} {w : Wrapped} (hn : t.reference? = some n)
  (hw : g.resolver.classify t = .ok w) (hkind : w.kind = .plain)
include hn hw hkind

theorem fieldType_of_use_error {failure : Failure}
    (huse : b.work.use naming g t = .error failure) :
    b.fieldType g t required = some (.error failure) := by
  rw [fieldType]
  simp only [hw, hkind, TypeExpr.primitive?_of_reference? hn, hn, huse]

theorem fieldType_of_use_some {p : Projection} {work : Worklist}
    (huse : b.work.use naming g t = .ok (some p, work)) :
    b.fieldType g t required = some (.ok (.named p.name.name required, { b with work })) := by
  rw [fieldType]
  simp only [hw, hkind, TypeExpr.primitive?_of_reference? hn, hn, huse]

theorem fieldType_of_use_none (huse : b.work.use naming g t = .ok (none, b.work))
    (hnext : g.resolver.expandOnce t = .ok (some next)) :
    b.fieldType g t required = b.fieldType g next required := by
  rw [fieldType]
  simp only [hw, hkind, TypeExpr.primitive?_of_reference? hn, hn, huse, hnext, Option.getD_some]

end Head

/-- A type and its definition are mapped alike. -/
theorem fieldType_of_opens (h : g.resolver.Opens t next)
    (hchains : g.resolver.ChainsBelow Graph.maxExpansion t) (b : Builder) (required : Bool) :
    b.fieldType g t required = b.fieldType g next required := by
  obtain ⟨n, hn⟩ := h.exists_reference
  obtain ⟨w, hw, hkind⟩ := h.plain
  have huse : b.work.use naming g t = b.work.use naming g next := Worklist.use_of_opens h hchains
  rcases g.shape_cases b.work.shapes next with hnone | ⟨failure, hlayer, herror⟩ |
    ⟨m, v, hm, hv, hplain⟩
  · have hfound : b.work.use naming g next = .ok (none, b.work) := by rw [Worklist.use, hnone]
    rw [hfound] at huse
    exact fieldType_of_use_none hn hw hkind huse h.expands
  · have hfound : b.work.use naming g next = .error failure := by rw [Worklist.use, herror]
    rw [hfound] at huse
    rw [fieldType_of_use_error hn hw hkind huse, fieldType, hlayer]
  · -- both heads are looked up in the worklist, with one answer
    cases hfound : b.work.use naming g next with
    | error failure =>
      rw [hfound] at huse
      rw [fieldType_of_use_error hn hw hkind huse, fieldType_of_use_error hm hv hplain hfound]
    | ok answer =>
      obtain ⟨found, work⟩ := answer
      rw [hfound] at huse
      cases found with
      | none =>
        obtain rfl := Worklist.eq_of_use_none hfound
        exact fieldType_of_use_none hn hw hkind huse h.expands
      | some p =>
        rw [fieldType_of_use_some hn hw hkind huse, fieldType_of_use_some hm hv hplain hfound]

theorem fieldType_of_chain {steps : Nat} {u : TypeExpr} (h : g.resolver.Chain steps t u)
    (hchains : g.resolver.ChainsBelow Graph.maxExpansion t) (b : Builder) (required : Bool) :
    b.fieldType g t required = b.fieldType g u required := by
  induction h with
  | here => rfl
  | step hnext _ ih =>
    rw [fieldType_of_opens hnext hchains, ih ((hchains.tail hnext).mono (Nat.le_succ _))]

end Sdl.Builder

namespace Graph

/-- A query schema sees through definitions.  An alias or new type and its
definition are mapped to the same type or fail alike, and leave the same builder;
so do all types that the chain of definitions comes to. -/
theorem field_types_see_through {g : Graph} {t next : TypeExpr} {w : Wrapped}
    (hlayer : g.resolver.classify t = .ok w) (hplain : w.kind = .plain)
    (hnext : g.resolver.expandOnce t = .ok (some next))
    (hchains : g.resolver.ChainsBelow 64 t) (b : Sdl.Builder) (required : Bool) :
    b.fieldType g t required = b.fieldType g next required ∧
    ∀ steps u, g.resolver.Chain steps t u →
      b.fieldType g t required = b.fieldType g u required := by
  have hopens : g.resolver.Opens t next := ⟨⟨w, hlayer, hplain⟩, hnext⟩
  exact ⟨Sdl.Builder.fieldType_of_opens hopens hchains b required,
    fun steps u hchain => Sdl.Builder.fieldType_of_chain hchain hchains b required⟩

def label : TypeExpr := .ref ⟨"app", "Label"⟩

/-- A sale with a label, and an alias that stands for its argument. -/
def labelStore : Store :=
  ⟨[⟨"app", [], [newtypeDecl "Label" [] text,
    structDecl "Sale" [] [field "label" label],
    ("Same", ⟨"Same", none, .synonym ["T"] (.param "T"), []⟩)], []⟩]⟩

def sameLabel : TypeExpr := .ref ⟨"app", "Same"⟩ [label]

theorem chainsBelow_sameLabel {g : Graph} (hstore : g.store = labelStore)
    (hsettings : g.settings = .standard) :
    g.resolver.Opens sameLabel label ∧ g.resolver.Opens label text ∧
      g.resolver.ChainsBelow 64 sameLabel := by
  have hresolver : g.resolver = ⟨labelStore, Settings.standard.wrappers⟩ := by
    rw [resolver, hstore, hsettings]
  rw [hresolver]
  have hsame : Resolver.Opens ⟨labelStore, Settings.standard.wrappers⟩ sameLabel label :=
    ⟨⟨_, rfl, rfl⟩, rfl⟩
  have hlabel : Resolver.Opens ⟨labelStore, Settings.standard.wrappers⟩ label text :=
    ⟨⟨_, rfl, rfl⟩, rfl⟩
  refine ⟨hsame, hlabel, ?_⟩
  intro steps u hchain
  cases hchain with
  | here => decide
  | step hopens hrest =>
    cases hopens.expands
    cases hrest with
    | here => decide
    | step hopens hrest =>
      cases hopens.expands
      cases hrest with
      | here => decide
      | step hopens _ => cases hopens.expands

/-- The label of a sale is written as the text that it stands for. -/
theorem field_types_see_through_sameLabel :
    ∃ g, build .standard labelStore = .ok g ∧ g.resolver.expandOnce sameLabel = .ok (some label) ∧
      ∀ (b : Sdl.Builder) (required : Bool),
        b.fieldType g sameLabel required = b.fieldType g label required ∧
        b.fieldType g sameLabel required = some (.ok (.named "String" required, b)) := by
  obtain ⟨g, hbuild, hstore, hsettings⟩ :
      ∃ g, build .standard labelStore = .ok g ∧ g.store = labelStore ∧ g.settings = .standard :=
    ⟨_, build_of_sorted rfl rfl rfl rfl rfl rfl (by decide), rfl, rfl⟩
  obtain ⟨hsame, hlabel, hchains⟩ := chainsBelow_sameLabel hstore hsettings
  obtain ⟨w, hw, hkind⟩ := hsame.plain
  refine ⟨g, hbuild, hsame.expands, fun b required => ?_⟩
  obtain ⟨hnext, hchain⟩ := field_types_see_through hw hkind hsame.expands hchains b required
  refine ⟨hnext, ?_⟩
  have htext : g.resolver.classify Standard.text = .ok ⟨.plain, Standard.text, .blank⟩ := by
    rw [resolver, hsettings]
    rfl
  rw [hchain 2 Standard.text (.step hsame (.step hlabel (.here _))), Sdl.Builder.fieldType, htext]
  rfl

end Graph

end SchemaCompiler
