import SchemaCompiler.Proofs.Bundle
import SchemaCompiler.Proofs.RoundTrip

/-!
# Bundles and documents

What a bundle gives back is compared with the modules by the documents that they
are written as.  A well-formed module can be written unless a type expression is
missing, which is also when it can be packed.  A bundle keeps all of it but the
imports of an empty name.
-/

namespace SchemaCompiler

open Outcome List SchemaModule Json

open RawValue (AllSound)

/-! ## What can be written -/

theorem RawValue.Sound.exists_toJson_ok {raw : RawValue} (h : raw.Sound) :
    ∃ k, raw.toJson = .ok k := by
  cases raw with
  | absent | json value => exact ⟨_, rfl⟩
  | unreadable text => exact h.elim

theorem Maybe.exists_toJson_ok {m : Option RawValue} (h : AllSound m.toList) :
    ∃ k, Maybe.toJson m = .ok k := by
  cases m with
  | none => exact ⟨_, rfl⟩
  | some raw =>
    have hraw : raw.Sound := by simpa [AllSound] using h
    cases raw with
    | absent | json value => exact ⟨_, rfl⟩
    | unreadable text => exact hraw.elim

theorem Annotations.exists_toJson_ok {as : Annotations} (h : AllSound as.rawValues) :
    ∃ k, as.toJson = .ok k := by
  have hone : ∀ a ∈ as, ∃ k, Annotation.toJson a = .ok k := by
    intro a ha
    obtain ⟨j, hj⟩ := (allSound_rawValues.mp h a ha).exists_toJson_ok
    exact ⟨_, bind_eq_ok.mpr ⟨j, hj, rfl⟩⟩
  obtain ⟨items, hitems⟩ := exists_mapM_ok hone
  exact ⟨_, encoding_eq_ok.mpr (bind_eq_ok.mpr ⟨items, hitems, rfl⟩)⟩

theorem TypeExpr.exists_toJson_ok {t : TypeExpr} (h : missing ∉ t.walk) :
    ∃ k, t.toJson = .ok k := by
  induction t using inductionOn with
  | hmissing => exact absurd (self_mem_walk missing) h
  | happ head args ih =>
    obtain ⟨items, hitems⟩ := exists_mapM_ok fun a ha =>
      ih a ha fun hmem => h (mem_walk_app.mpr (.inr ⟨a, ha, hmem⟩))
    rw [← toJsonAll_eq_mapM] at hitems
    exact ⟨_, encoding_eq_ok.mpr (bind_eq_ok.mpr ⟨items, hitems, rfl⟩)⟩

theorem Field.exists_toJson_ok {f : Field} (hf : AllSound f.rawValues)
    (htype : TypeExpr.missing ∉ f.typeExpr.walk) : ∃ k, f.toJson = .ok k := by
  obtain ⟨hdefault, hannotations⟩ := RawValue.allSound_append.mp hf
  obtain ⟨typeJson, htypeJson⟩ := TypeExpr.exists_toJson_ok htype
  obtain ⟨defaultJson, hdefaultJson⟩ := Maybe.exists_toJson_ok hdefault
  obtain ⟨annotationsJson, hannotationsJson⟩ := Annotations.exists_toJson_ok hannotations
  refine ⟨_, bind_eq_ok.mpr ⟨typeJson, htypeJson, bind_eq_ok.mpr ⟨defaultJson,
    hdefaultJson, bind_eq_ok.mpr ⟨annotationsJson, hannotationsJson, rfl⟩⟩⟩⟩

theorem Body.exists_toJson_ok {b : Body} (hb : AllSound b.rawValues)
    (htypes : ∀ t ∈ b.typeExprs, TypeExpr.missing ∉ t.walk) : ∃ k, b.toJson = .ok k := by
  have hfields : AllSound (b.fields.flatMap Field.rawValues) →
      ∃ items, b.fields.mapM Field.toJson = .ok items := fun hsound =>
    exists_mapM_ok fun f hf => Field.exists_toJson_ok
      (RawValue.allSound_flatMap.mp hsound f hf) (htypes _ (typeExpr_mem_typeExprs hf))
  cases b with
  | struct params fields | union params fields =>
    obtain ⟨items, hitems⟩ := hfields hb
    exact ⟨_, bind_eq_ok.mpr ⟨items, hitems, rfl⟩⟩
  | synonym params target =>
    obtain ⟨k, hk⟩ := TypeExpr.exists_toJson_ok (htypes target (target_mem_typeExprs rfl))
    exact ⟨_, bind_eq_ok.mpr ⟨k, hk, rfl⟩⟩
  | newtype params target default =>
    obtain ⟨k, hk⟩ := TypeExpr.exists_toJson_ok (htypes target (target_mem_typeExprs rfl))
    obtain ⟨d, hd⟩ := Maybe.exists_toJson_ok hb
    exact ⟨_, bind_eq_ok.mpr ⟨k, hk, bind_eq_ok.mpr ⟨d, hd, rfl⟩⟩⟩

theorem Declaration.exists_toJson_ok {d : Declaration} (hd : AllSound d.rawValues)
    (htypes : ∀ t ∈ d.body.typeExprs, TypeExpr.missing ∉ t.walk) : ∃ k, d.toJson = .ok k := by
  simp only [rawValues, RawValue.allSound_append] at hd
  obtain ⟨hversion, hbody, hannotations⟩ := hd
  obtain ⟨bodyJson, hbodyJson⟩ := Body.exists_toJson_ok hbody htypes
  obtain ⟨versionJson, hversionJson⟩ := Maybe.exists_toJson_ok hversion
  obtain ⟨annotationsJson, hannotationsJson⟩ := Annotations.exists_toJson_ok hannotations
  exact ⟨_, encoding_eq_ok.mpr (bind_eq_ok.mpr ⟨bodyJson, hbodyJson, bind_eq_ok.mpr
    ⟨versionJson, hversionJson, bind_eq_ok.mpr ⟨annotationsJson, hannotationsJson, rfl⟩⟩⟩)⟩

theorem Import.toJson_injective : Function.Injective Import.toJson := by
  intro i j h
  have hread := i.ofJson_toJson
  rw [h, j.ofJson_toJson] at hread
  cases hread
  rfl

namespace SchemaModule

variable {m : SchemaModule} {k : Json}

theorem exists_declsJson_ok {decls : List (String × Declaration)}
    (hsound : ∀ entry ∈ decls, AllSound entry.2.rawValues)
    (htypes : ∀ entry ∈ decls, ∀ t ∈ entry.2.body.typeExprs, TypeExpr.missing ∉ t.walk) :
    ∃ members, declsJson decls = .ok members := by
  induction decls with
  | nil => exact ⟨_, rfl⟩
  | cons entry decls ih =>
    obtain ⟨hentry, hrest⟩ := forall_mem_cons.mp hsound
    obtain ⟨htype, htypeRest⟩ := forall_mem_cons.mp htypes
    obtain ⟨k, hk⟩ := Declaration.exists_toJson_ok hentry htype
    obtain ⟨members, hmembers⟩ := ih hrest htypeRest
    exact ⟨_, bind_eq_ok.mpr ⟨k, hk, bind_eq_ok.mpr ⟨members, hmembers, rfl⟩⟩⟩

theorem toJson_eq_ok :
    m.toJson = .ok k ↔ ∃ members annotations, declsJson m.decls = .ok members ∧
      m.annotations.toJson = .ok annotations ∧
      obj [("name", .text m.name), ("imports", .arr (m.imports.map Import.toJson)),
        ("decls", .obj members), ("annotations", annotations)] = k := by
  rw [toJson, encoding_eq_ok]
  constructor
  · intro h
    obtain ⟨members, hmembers, h⟩ := bind_eq_ok.mp h
    obtain ⟨annotations, hannotations, hk⟩ := bind_eq_ok.mp h
    exact ⟨members, annotations, hmembers, hannotations, pure_eq_ok.mp hk⟩
  · rintro ⟨members, annotations, hmembers, hannotations, rfl⟩
    exact bind_eq_ok.mpr ⟨members, hmembers,
      bind_eq_ok.mpr ⟨annotations, hannotations, rfl⟩⟩

theorem WellFormed.exists_toJson_ok (h : m.WellFormed) (htyped : m.Typed) :
    ∃ k, m.toJson = .ok k := by
  obtain ⟨hdecls, hannotations⟩ := RawValue.allSound_append.mp h.sound
  obtain ⟨members, hmembers⟩ :=
    exists_declsJson_ok (RawValue.allSound_flatMap.mp hdecls) htyped
  obtain ⟨annotations, hannotationsJson⟩ := Annotations.exists_toJson_ok hannotations
  exact ⟨_, toJson_eq_ok.mpr ⟨members, annotations, hmembers, hannotationsJson, rfl⟩⟩

/-! ## Imports that a bundle keeps -/

/-- No import is one of an empty name. -/
def ImportsNamed (m : SchemaModule) : Prop :=
  ∀ name, Import.single name ∈ m.imports → name.name ≠ ""

theorem map_merged_eq_iff : m.imports.map Import.merged = m.imports ↔ m.ImportsNamed := by
  have hone (i : Import) : i.merged = i ↔ ∀ name, i = .single name → name.name ≠ "" := by
    cases i with
    | whole moduleName => simp [Import.merged]
    | single name =>
      by_cases hname : name.name = ""
      · simp [Import.merged, hname]
      · simp [Import.merged, hname]
  have hmap : m.imports.map Import.merged = m.imports ↔ ∀ i ∈ m.imports, i.merged = i := by
    conv_lhs => rhs; rw [← map_id m.imports]
    exact map_inj_left
  rw [hmap]
  simp only [hone]
  exact ⟨fun h name hname => h _ hname name rfl, fun h i hi name hname => h name (hname ▸ hi)⟩

theorem ImportsNamed.merged_eq (h : m.ImportsNamed) : m.merged = m := by
  rw [merged, map_merged_eq_iff.mpr h]

/-- A module is written like what a bundle gives back of it exactly when its
imports are named. -/
theorem toJson_merged_eq_iff (h : m.toJson = .ok k) :
    m.merged.toJson = m.toJson ↔ m.ImportsNamed := by
  constructor
  · intro heq
    obtain ⟨members, annotations, _, _, hk⟩ := toJson_eq_ok.mp h
    obtain ⟨members', annotations', _, _, hk'⟩ := toJson_eq_ok.mp (heq.trans h)
    have himports : (m.imports.map Import.merged).map Import.toJson =
        m.imports.map Import.toJson := by
      have hobj := hk'.trans hk.symm
      simp only [obj.injEq, cons.injEq, Prod.mk.injEq, arr.injEq, true_and] at hobj
      exact hobj.2.1
    exact map_merged_eq_iff.mp (map_injective_iff.mpr Import.toJson_injective himports)
  · intro hnamed
    rw [hnamed.merged_eq]

end SchemaModule

/-! ## One bundle -/

namespace Bundle

variable {modules : List SchemaModule} {bytes : List UInt8}

/-- Every length in the bundle of the modules fits in four bytes. -/
def Sized (modules : List SchemaModule) : Prop :=
  ∀ p, pack modules = .ok p → p.Sized

theorem encode_eq_ok : encode modules = .ok bytes ↔ ∃ p, pack modules = .ok p ∧ p.write = bytes :=
  map_eq_ok

theorem exists_encode_ok : (∃ bytes, encode modules = .ok bytes) ↔ ∀ m ∈ modules, m.Typed := by
  rw [← exists_pack_ok]
  constructor
  · rintro ⟨bytes, hbytes⟩
    obtain ⟨p, hp, _⟩ := encode_eq_ok.mp hbytes
    exact ⟨p, hp⟩
  · rintro ⟨p, hp⟩
    exact ⟨p.write, encode_eq_ok.mpr ⟨p, hp, rfl⟩⟩

theorem decode?_of_encode_ok (hmodules : ∀ m ∈ modules, m.WellFormed) (hsized : Sized modules)
    (h : encode modules = .ok bytes) : decode? bytes = some (modules.map merged) := by
  obtain ⟨p, hp, rfl⟩ := encode_eq_ok.mp h
  rw [decode?, (hsized p hp).read_write]
  exact unpack?_of_pack_ok hmodules hp

/-- A bundle gives back modules that are written the same exactly when none of
them lacks a type expression or imports an empty name. -/
theorem transparent_iff (hmodules : ∀ m ∈ modules, m.WellFormed) (hsized : Sized modules) :
    (∃ bytes back, encode modules = .ok bytes ∧ decode? bytes = some back ∧
      Forall₂ (fun m b => toJson b = toJson m) modules back) ↔
      ∀ m ∈ modules, m.Typed ∧ m.ImportsNamed := by
  constructor
  · rintro ⟨bytes, back, hencode, hdecode, hsame⟩ m hm
    have htyped : m.Typed := exists_encode_ok.mp ⟨bytes, hencode⟩ m hm
    rw [decode?_of_encode_ok hmodules hsized hencode] at hdecode
    cases hdecode
    obtain ⟨k, hk⟩ := (hmodules m hm).exists_toJson_ok htyped
    rw [forall₂_map_right_iff, forall₂_same] at hsame
    exact ⟨htyped, (toJson_merged_eq_iff hk).mp (hsame m hm)⟩
  · intro h
    obtain ⟨bytes, hencode⟩ := exists_encode_ok.mpr fun m hm => (h m hm).1
    refine ⟨bytes, _, hencode, decode?_of_encode_ok hmodules hsized hencode, ?_⟩
    rw [forall₂_map_right_iff, forall₂_same]
    intro m hm
    rw [(h m hm).2.merged_eq]

theorem map_merged_eq (h : ∀ m ∈ modules, m.ImportsNamed) :
    modules.map merged = modules := by
  conv_rhs => rw [← map_id modules]
  exact map_congr_left fun m hm => (h m hm).merged_eq

end Bundle

end SchemaCompiler
