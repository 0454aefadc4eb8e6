import SchemaCompiler.Proofs.CompleteMetadata

/-!
# Derived annotations

Augmenting writes the derived annotations over those that are there.  A list of
annotations may have a key more than once and may have derived keys already;
each of them gets the derived value in its place.  So a second time changes
nothing, and every other key keeps its value.
-/

namespace SchemaCompiler

open Outcome List Graph

/-! ## Writing one key -/

namespace Annotations

variable {as : Annotations} {key : ScopedName} {value : RawValue}

def named (as : Annotations) (key : ScopedName) : Annotations :=
  as.filter (·.key = key)

theorem get?_eq_head? (as : Annotations) (key : ScopedName) :
    as.get? key = (as.named key).head?.map (·.value) := by
  rw [get?, named, head?_filter]

theorem has_iff : as.has key = true ↔ as.named key ≠ [] := by
  rw [has, get?_eq_head?, Option.isSome_map, isSome_head?]

/-- Wherever the key was, it has the value now. -/
theorem named_put_of_has (h : as.named key ≠ []) :
    (as.put key value).named key = (as.named key).map fun _ => ⟨key, value⟩ := by
  have hkeys : ∀ a ∈ as, ((fun a : Annotation => decide (a.key = key)) ∘
      fun a => if a.key = key then ⟨key, value⟩ else a) a = decide (a.key = key) := by
    intro a _
    by_cases ha : a.key = key <;> simp [ha]
  rw [put, if_pos (has_iff.mpr h), named, filter_map, filter_congr hkeys]
  exact map_congr_left fun a ha => if_pos (by simpa using (mem_filter.mp ha).2)

theorem named_put_of_lacks (h : as.named key = []) :
    (as.put key value).named key = [⟨key, value⟩] := by
  rw [put, if_neg (by simp [has_iff, h]), named, filter_append, ← named, h]
  simp

/-- The key is there and has the value wherever it is. -/
structure Holds (as : Annotations) (key : ScopedName) (value : RawValue) : Prop where
  has : as.named key ≠ []
  value : ∀ a ∈ as.named key, a.value = value

theorem Holds.get?_eq (h : as.Holds key value) : as.get? key = some value := by
  obtain ⟨a, rest, hnamed⟩ := exists_cons_of_ne_nil h.has
  have hvalue := h.value a (hnamed ▸ mem_cons_self)
  rw [get?_eq_head?, hnamed, head?_cons, Option.map_some, hvalue]

theorem holds_put (as : Annotations) (key : ScopedName) (value : RawValue) :
    (as.put key value).Holds key value := by
  by_cases h : as.named key = []
  · have hnamed := @named_put_of_lacks as key value h
    exact ⟨by simp [hnamed], by simp [hnamed]⟩
  · have hnamed := @named_put_of_has as key value h
    exact ⟨by simpa [hnamed] using h, by simp [hnamed]⟩

/-- Writing the value that a key holds changes nothing. -/
theorem Holds.put_eq_self (h : as.Holds key value) : as.put key value = as := by
  rw [put, if_pos (has_iff.mpr h.has)]
  refine (map_congr_left fun a ha => ?_).trans (map_id' as)
  split
  · rename_i hkey
    have hvalue := h.value a (mem_filter.mpr ⟨ha, by simpa using hkey⟩)
    rw [← hkey, ← hvalue]
  · rfl

end Annotations

/-! ## Writing all derived keys -/

namespace Metadata

open Annotations

variable {base derived : Annotations} {key : ScopedName}

theorem named_merge (hderived : ∀ a ∈ derived, a.key ≠ key) :
    (merge base derived).named key = base.named key :=
  filter_merge fun a ha b hb => by simpa [hb] using hderived a ha

theorem get?_merge_of_forall_ne (hderived : ∀ a ∈ derived, a.key ≠ key) :
    (merge base derived).get? key = base.get? key := by
  rw [get?_eq_head?, get?_eq_head?, named_merge hderived]

/-- Every derived key gets its value: no later one has the same key. -/
theorem holds_merge (hkeys : (derived.map (·.key)).Nodup) :
    ∀ a ∈ derived, (merge base derived).Holds a.key a.value := by
  induction derived generalizing base with
  | nil => exact forall_mem_nil _
  | cons a rest ih =>
    rw [map_cons, nodup_cons] at hkeys
    have hlater : ∀ b ∈ rest, b.key ≠ a.key := fun b hb hkey =>
      hkeys.1 (mem_map.mpr ⟨b, hb, hkey⟩)
    have hnamed : (merge base (a :: rest)).named a.key = (base.put a.key a.value).named a.key :=
      named_merge hlater
    obtain ⟨hhas, hvalue⟩ := holds_put base a.key a.value
    exact forall_mem_cons.mpr ⟨⟨hnamed ▸ hhas, hnamed ▸ hvalue⟩, ih hkeys.2⟩

theorem merge_eq_self (h : ∀ a ∈ derived, base.Holds a.key a.value) :
    merge base derived = base := by
  induction derived with
  | nil => rfl
  | cons a rest ih =>
    obtain ⟨ha, hrest⟩ := forall_mem_cons.mp h
    calc
      merge base (a :: rest) = merge (base.put a.key a.value) rest := rfl
      _ = merge base rest := by rw [ha.put_eq_self]
      _ = base := ih hrest

theorem merge_merge (hkeys : (derived.map (·.key)).Nodup) :
    merge (merge base derived) derived = merge base derived :=
  merge_eq_self (holds_merge hkeys)

/-- The derived keys give the derived values, and every other key gives what it
gave before. -/
structure Overlays (derived base result : Annotations) : Prop where
  written : ∀ a ∈ derived, result.get? a.key = some a.value
  kept : ∀ key, (∀ a ∈ derived, a.key ≠ key) → result.get? key = base.get? key

theorem overlays_merge (hkeys : (derived.map (·.key)).Nodup) :
    Overlays derived base (merge base derived) where
  written a ha := (holds_merge hkeys a ha).get?_eq
  kept _ hkey := get?_merge_of_forall_ne hkey

/-! ## Augmenting -/

variable {m : Metadata} {n : ScopedName}

theorem nodup_of_annotations_ok {as : Annotations} (h : m.annotations n = .ok as) :
    (as.map (·.key)).Nodup := by
  obtain ⟨d, _, rfl⟩ := bind_pure_eq_ok.mp h
  by_cases hinstances : d.instances.isEmpty = true
  · rw [if_pos hinstances]
    exact (by decide : [concreteKey, referencedKey].Nodup)
  · rw [if_neg hinstances]
    exact (by decide : [concreteKey, referencedKey, instancesKey].Nodup)

theorem nodup_of_fieldAnnotations_ok {name : String} {as : Annotations}
    (h : m.fieldAnnotations n name = .ok as) : (as.map (·.key)).Nodup := by
  obtain ⟨f, _, rfl⟩ := bind_pure_eq_ok.mp h
  exact (by decide : [cardinalityKey, monomorphizedKey, concreteKey].Nodup)

theorem overlaid_overlaid {c : ConcreteField} (hkeys : (derived.map (·.key)).Nodup) :
    overlaid (overlaid c derived) derived = overlaid c derived := by
  simp only [overlaid, merge_merge hkeys]

theorem augment_augment {p q : Projection} (h : m.augment p = .ok q) : m.augment q = .ok q := by
  obtain ⟨derived, fields, hderived, hfields, rfl⟩ := augment_eq_ok.mp h
  refine augment_eq_ok.mpr ⟨derived, fields, hderived, forall₂_same.mpr fun c' hc' => ?_, ?_⟩
  · obtain ⟨c, _, added, hadded, rfl⟩ := forall₂_exists_left hfields hc'
    exact ⟨added, hadded, (overlaid_overlaid (nodup_of_fieldAnnotations_ok hadded)).symm⟩
  · rw [merge_merge (nodup_of_annotations_ok hderived)]

/-- Augmenting is idempotent.  A projection that the table of metadata knows by
its name and its fields, whatever annotations it has, can be augmented; the
result is augmented to itself.  There and in every field, the derived keys give
the derived values, and all other keys give what they gave before. -/
theorem augmenting_twice {r : Resolver} {ps : List Projection} {tracker : Option Tracker}
    (h : derive r ps tracker = .ok m) {known p : Projection} (hknown : known ∈ ps)
    (hname : p.name = known.name)
    (hfields : ∀ c ∈ p.fields, ∃ c' ∈ known.fields, c'.name = c.name) :
    ∃ q derived, m.augment p = .ok q ∧ m.augment q = .ok q ∧
      m.annotations p.name = .ok derived ∧ Overlays derived p.annotations q.annotations ∧
      Forall₂ (fun c c' => ∃ added, m.fieldAnnotations p.name c.name = .ok added ∧
        Overlays added c.field.annotations c'.field.annotations) p.fields q.fields := by
  obtain ⟨q, hq⟩ := exists_augment h hknown hname hfields
  have hagain := augment_augment hq
  obtain ⟨derived, fields, hderived, haugmented, rfl⟩ := augment_eq_ok.mp hq
  refine ⟨_, derived, hq, hagain, hderived, overlays_merge (nodup_of_annotations_ok hderived),
    haugmented.imp ?_⟩
  rintro c _ ⟨added, hadded, rfl⟩
  exact ⟨added, hadded, overlays_merge (nodup_of_fieldAnnotations_ok hadded)⟩

/-- A projection that is said twice not to be concrete, with a note in between. -/
def misnoted (p : Projection) : Projection :=
  { p with annotations := [⟨concreteKey, .json (.bool false)⟩, ⟨thing.name, .absent⟩,
      ⟨concreteKey, .json .null⟩] }

/-- The thing is concrete and referred to, and keeps its note. -/
theorem augmenting_twice_things :
    ∃ g p q, build .standard things = .ok g ∧ p ∈ g.decls ∧
      g.metadata.augment (misnoted p) = .ok q ∧ g.metadata.augment q = .ok q ∧
      q.annotations.get? concreteKey = some (.json (.bool true)) ∧
      q.annotations.get? referencedKey = some (.json (.bool true)) ∧
      q.annotations.get? thing.name = some .absent := by
  have hbuild : build .standard things = .ok _ :=
    build_of_sorted rfl rfl rfl rfl rfl rfl (by decide)
  obtain ⟨q, derived, hq, hagain, hderived, hoverlays, _⟩ :=
    augmenting_twice (p := misnoted _) (derive_of_build_ok hbuild)
      (.tail _ (.tail _ (.head _))) rfl fun c hc => ⟨c, hc, rfl⟩
  have hnote : ∀ a ∈ derived, a.key ≠ thing.name := by
    intro a ha hkey
    have hmodule := derived_of_annotations_ok hderived a ha
    rw [hkey] at hmodule
    exact absurd hmodule (by decide)
  obtain rfl := Except.ok.inj hderived
  refine ⟨_, _, q, hbuild, .tail _ (.tail _ (.head _)), hq, hagain, ?_, ?_, ?_⟩
  · exact hoverlays.written ⟨concreteKey, _⟩ (.head _)
  · exact hoverlays.written ⟨referencedKey, _⟩ (.tail _ (.head _))
  · exact hoverlays.kept thing.name hnote

end Metadata

end SchemaCompiler
