import SchemaCompiler.Cache.Bundle
import SchemaCompiler.Proofs.Packed
import SchemaCompiler.Proofs.Projection
import SchemaCompiler.Proofs.RawValues

/-!
# Bundles give back the modules of a document

A bundle holds every module that was read from a document, apart from one
thing: an import of a name that is empty comes back as an import of the whole
module.  What cannot be packed at all is a module with a type expression that
is not there.
-/

namespace SchemaCompiler

open Outcome List Packed RawValue Keyed TypeExpr Declaration Bundle

variable {p item : Packed} {items : List Packed} {α : Type}

namespace Packed

/-! ## Texts and parts -/

theorem toList_loop (bytes : ByteArray) (i : Nat) (done : List UInt8) :
    ByteArray.toList.loop bytes i done = done.reverse ++ bytes.data.toList.drop i := by
  fun_induction ByteArray.toList.loop bytes i done with
  | case1 i done h ih =>
    have hlength : i < bytes.data.toList.length := h
    have hget : bytes.get! i = bytes.data.toList.get ⟨i, hlength⟩ := by
      change bytes.data[i]! = _
      rw [getElem!_pos bytes.data i h]
      rfl
    rw [ih, drop_eq_getElem_cons hlength, reverse_cons, append_assoc, hget]
    rfl
  | case2 i done h => rw [drop_eq_nil_of_le (Nat.not_lt.mp h), append_nil]

theorem toList_bytes (bytes : ByteArray) : bytes.toList = bytes.data.toList := by
  rw [ByteArray.toList, toList_loop, drop_zero, reverse_nil, nil_append]

@[simp]
theorem textOf_bytes (s : String) : textOf s.toByteArray.toList = s := by
  have hbytes : String.fromUTF8? (ByteArray.mk s.toByteArray.toList.toArray) = some s := by
    rw [toList_bytes, Array.toArray_toList]
    exact dif_pos s.isValidUTF8
  rw [textOf, hbytes]

theorem sized_text {s : String} : (text s).Sized ↔ s.utf8ByteSize < 0x100000000 := by
  have hlength : s.toUTF8.toList.length = s.utf8ByteSize := by
    rw [toList_bytes]
    rfl
  rw [← hlength]
  exact ⟨fun | .raw h => h, .raw⟩

@[simp]
theorem toText?_text (s : String) : (text s).toText? = some s :=
  congrArg some (textOf_bytes s)

@[simp]
theorem toText?_null : null.toText? = some "" := rfl

/-- The part of a record that counts: the last of its name, or else `last`. -/
def found (name : String) (last : Packed) : List (String × Packed) → Packed
  | [] => last
  | part :: rest => found name (if part.1 = name then part.2 else last) rest

theorem part_ofList (name : String) (parts : List (String × Packed)) :
    part name (ofList parts) = found name null parts := by
  have hinsertAll (entries : List (String × Packed)) :
      part name (insertAll entries parts) = found name (part name entries) parts := by
    induction parts generalizing entries with
    | nil => rfl
    | cons first rest ih =>
      rw [insertAll, foldl_cons, ← insertAll, ih, found]
      congr 1
      rw [part, find?_insert]
      by_cases hname : name = first.1
      · rw [if_pos hname, if_pos hname.symm, Option.getD_some]
      · rw [if_neg hname, if_neg (Ne.symm hname), part]
  exact hinsertAll []

@[simp]
theorem found_nil (name : String) (last : Packed) : found name last [] = last := rfl

@[simp]
theorem found_cons (name : String) (last : Packed) (part : String × Packed)
    (rest : List (String × Packed)) :
    found name last (part :: rest) = found name (if part.1 = name then part.2 else last) rest := rfl

@[simp]
theorem found_append (name : String) (last : Packed) (first second : List (String × Packed)) :
    found name last (first ++ second) = found name (found name last first) second := by
  induction first generalizing last with
  | nil => rfl
  | cons part first ih => exact ih _

/-- A list that is left out when it is empty. -/
def listOr (last : Packed) (items : List Packed) : Packed :=
  if items.isEmpty then last else list items

@[simp]
theorem toList?_listOr_null (items : List Packed) : (listOr null items).toList? = some items := by
  cases items with
  | nil | cons item items => rfl

@[simp]
theorem found_listPart (name key : String) (last : Packed) (items : List Packed) :
    found name last (listPart key items) =
      if key = name then listOr last items else last := by
  cases items with
  | nil =>
    simp [listPart, listOr]
  | cons item items => rfl

/-- A text that is left out when it is empty. -/
def textOr (last : Packed) (s : String) : Packed :=
  if s = "" then last else text s

@[simp]
theorem toText?_textOr_null (s : String) : (textOr null s).toText? = some s := by
  by_cases hs : s = ""
  · simp [textOr, hs]
  · simp [textOr, hs]

@[simp]
theorem found_textPart (name key : String) (last : Packed) (s : String) :
    found name last (textPart key s) = if key = name then textOr last s else last := by
  by_cases hs : s = ""
  · simp [textPart, textOr, hs]
  · simp [textPart, textOr, hs]

/-! ## Nesting -/

theorem depth_item_lt (h : item ∈ items) : item.depth < (list items).depth := by
  rw [depth, Nat.lt_succ_iff]
  induction items with
  | nil => cases h
  | cons first items ih =>
    rw [depthAll]
    rcases mem_cons.mp h with rfl | h
    · exact Nat.le_max_left _ _
    · exact Nat.le_trans (ih h) (Nat.le_max_right _ _)

theorem depth_entry_lt {entry : Packed × Packed} {entries : List (Packed × Packed)}
    (h : entry ∈ entries) : entry.2.depth < (record entries).depth := by
  rw [depth, Nat.lt_succ_iff]
  induction entries with
  | nil => cases h
  | cons first entries ih =>
    rw [depthEntries]
    rcases mem_cons.mp h with rfl | h
    · exact Nat.le_max_left _ _
    · exact Nat.le_trans (ih h) (Nat.le_max_right _ _)

end Packed

open Packed (found)

/-- A traversal of what was made one by one. -/
theorem mapM_eq_some_of_forall₂ {β γ : Type} {f : β → Option γ} {g : α → γ} {as : List α}
    {bs : List β} (h : Forall₂ (fun a b => f b = some (g a)) as bs) :
    bs.mapM f = some (as.map g) :=
  mapM_eq_some.mpr (forall₂_map_right_iff.mpr h.flip)

namespace Bundle

variable {t : TypeExpr} {parts : List (String × Packed)} {b : Body} {d : Declaration} {f : Field}

theorem toKeyed?_record (parts : List (String × Packed)) :
    (record parts).toKeyed? = some (ofList parts) := by
  have hparts : Forall₂ (fun part entry =>
      (do return (← toText? entry.1, entry.2)) = some (id part)) parts
      (parts.map fun part => (Packed.text part.1, part.2)) := by
    rw [forall₂_map_right_iff, forall₂_same]
    intro part _
    simp
  have hmap := mapM_eq_some_of_forall₂ hparts
  rw [map_id] at hmap
  rw [record, toKeyed?]
  exact Option.bind_eq_some_iff.mpr ⟨parts, hmap, rfl⟩

theorem parts?_record (names : List String) (parts : List (String × Packed)) :
    (record parts).parts? names = some (ofList parts) :=
  toKeyed?_record parts

/-! ## Values -/

theorem unpackValue?_packValue {raw : RawValue} (h : raw.Sound) :
    unpackValue? (packValue raw) = some raw := by
  cases raw with
  | absent => rfl
  | json value =>
    have hvalue : Json.parse? value.render = some value := Json.Sound.parse?_render h
    simp [unpackValue?, packValue, bytesOf, compact, binary, toBytes?, ofText, hvalue]
  | unreadable text => exact h.elim

theorem bytesOf_json (value : Json) (h : value.Sound) :
    ∃ byte bytes, bytesOf (.json value) = some (byte :: bytes) ∧
      Packed.textOf (byte :: bytes) = value.render := by
  have hbytes : bytesOf (.json value) = some value.render.toByteArray.toList := rfl
  cases hlist : value.render.toByteArray.toList with
  | nil =>
    have hempty := Packed.textOf_bytes value.render
    rw [hlist] at hempty
    have hparse := Json.Sound.parse?_render h
    rw [← hempty] at hparse
    cases hparse
  | cons byte bytes =>
    refine ⟨byte, bytes, by rw [hbytes, hlist], ?_⟩
    rw [← hlist, Packed.textOf_bytes]

theorem unpackMaybe?_packMaybe {m : Option RawValue} (h : RawValue.AllSound m.toList) :
    unpackMaybe? (packMaybe m) = some m := by
  cases m with
  | none =>
    rw [packMaybe, unpackMaybe?, parts?_record]
    simp [Packed.part_ofList, unpackValue?, toBytes?, toBool?]
  | some raw =>
    have hraw : raw.Sound := by simpa [RawValue.AllSound] using h
    cases raw with
    | absent =>
      rw [packMaybe, bytesOf, unpackMaybe?, parts?_record]
      simp [Packed.part_ofList, unpackValue?, toBytes?, toBool?]
    | json value =>
      obtain ⟨byte, bytes, hbytes, htext⟩ := bytesOf_json value hraw
      have hparse : Json.parse? value.render = some value := Json.Sound.parse?_render hraw
      simp only [packMaybe, hbytes]
      rw [unpackMaybe?, parts?_record]
      simp [Packed.part_ofList, unpackValue?, toBytes?, toBool?, binary, ofText, htext, hparse]
    | unreadable text => exact hraw.elim

theorem unpackAnnotation?_packAnnotation {a : Annotation} (h : a.value.Sound) :
    unpackAnnotation? (packNote a) = some a := by
  rw [packNote, unpackAnnotation?, parts?_record]
  simp [Packed.part_ofList, unpackValue?_packValue h]

theorem unpackAnnotations?_packed {as : Annotations} (h : RawValue.AllSound as.rawValues) :
    unpackAnnotations? (Packed.listOr .null (as.map packNote)) = some as := by
  have hone : Forall₂ (fun a p => unpackAnnotation? p = some (id a)) as
      (as.map packNote) := by
    rw [forall₂_map_right_iff, forall₂_same]
    exact fun a ha => unpackAnnotation?_packAnnotation (Annotations.allSound_rawValues.mp h a ha)
  simp [unpackAnnotations?, mapM_eq_some_of_forall₂ hone]

/-! ## Types -/

theorem packTypes_eq_mapM (args : List TypeExpr) : packTypes args = args.mapM packType := by
  induction args with
  | nil => rfl
  | cons a args ih =>
    rw [packTypes, mapM_cons, ih]
    cases packType a with
    | error failure => rfl
    | ok p =>
      cases args.mapM packType with
      | error failure | ok ps => rfl

theorem packType_app_eq_ok {head : TypeRef} {args : List TypeExpr} :
    packType (.app head args) = .ok p ↔
      ∃ items, args.mapM packType = .ok items ∧
        record (packHead head ++ listPart "p" items) = p := by
  rw [packType, packTypes_eq_mapM]
  cases args.mapM packType with
  | error failure | ok items => simp

/-- An expression can be packed exactly when no part of it is missing. -/
theorem exists_packType_ok : (∃ p, packType t = .ok p) ↔ TypeExpr.missing ∉ t.walk := by
  induction t using inductionOn with
  | hmissing => simp [packType, walk]
  | happ head args ih =>
    constructor
    · rintro ⟨p, hp⟩ hmissing
      obtain ⟨items, hitems, _⟩ := packType_app_eq_ok.mp hp
      rcases mem_walk_app.mp hmissing with hself | ⟨a, ha, hmem⟩
      · cases hself
      · obtain ⟨q, _, hq⟩ := forall₂_exists_right (mapM_eq_ok.mp hitems) ha
        exact (ih a ha).mp ⟨q, hq⟩ hmem
    · intro hmissing
      obtain ⟨items, hitems⟩ := exists_mapM_ok fun a ha =>
        (ih a ha).mpr fun hmem => hmissing (mem_walk_app.mpr (.inr ⟨a, ha, hmem⟩))
      exact ⟨_, packType_app_eq_ok.mpr ⟨items, hitems, rfl⟩⟩

theorem unpackHead_packHead (head : TypeRef) :
    ∃ kind moduleName name,
      (found "k" .null (packHead head)).toText? = some kind ∧
      (found "m" .null (packHead head)).toText? = some moduleName ∧
      (found "n" .null (packHead head)).toText? = some name ∧
      found "p" .null (packHead head) = .null ∧ unpackHead kind moduleName name = head := by
  cases head with
  | primitive name =>
    exact ⟨"primitive", "", name, by simp [packHead], by simp [packHead], by simp [packHead],
      by simp [packHead], rfl⟩
  | reference name =>
    exact ⟨"reference", name.moduleName, name.name, by simp [packHead], by simp [packHead],
      by simp [packHead], by simp [packHead], rfl⟩
  | param name =>
    exact ⟨"typeParam", "", name, by simp [packHead], by simp [packHead], by simp [packHead],
      by simp [packHead], rfl⟩

theorem depth_part_lt {part : String × Packed} (h : part ∈ parts) :
    part.2.depth < (record parts).depth := by
  have hentry : (Packed.text part.1, part.2) ∈
      parts.map fun part => (Packed.text part.1, part.2) := mem_map.mpr ⟨part, h, rfl⟩
  exact Packed.depth_entry_lt hentry

theorem depth_arg_lt (parts : List (String × Packed)) (h : item ∈ items) :
    item.depth + 1 < (record (parts ++ listPart "p" items)).depth := by
  have hempty : items.isEmpty = false := isEmpty_eq_false_iff_exists_mem.mpr ⟨item, h⟩
  have hpart : ("p", Packed.list items) ∈ parts ++ listPart "p" items := by
    simp [listPart, hempty]
  have hitem := Packed.depth_item_lt h
  have hlist : (Packed.list items).depth < _ := depth_part_lt hpart
  omega

theorem unpackTypeWithin_of_packType_ok (h : packType t = .ok p) {levels : Nat}
    (hlevels : p.depth ≤ levels) : unpackTypeWithin levels p = some t := by
  induction t using inductionOn generalizing p levels with
  | hmissing => cases h
  | happ head args ih =>
    obtain ⟨items, hitems, rfl⟩ := packType_app_eq_ok.mp h
    obtain ⟨kind, moduleName, name, hkind, hmodule, hname, hnull, hhead⟩ :=
      unpackHead_packHead head
    obtain ⟨levels, rfl⟩ : ∃ n, levels = n + 1 := by
      refine Nat.exists_eq_succ_of_ne_zero ?_
      rw [record, Packed.depth] at hlevels
      omega
    have hargs : Forall₂ (fun a q => unpackTypeWithin levels q = some (id a)) args items :=
      forall₂_imp_of_mem (mapM_eq_ok.mp hitems) fun a ha q hq hpack =>
        ih a ha hpack (by have := depth_arg_lt (packHead head) hq; omega)
    rw [unpackTypeWithin, parts?_record]
    simp [Packed.part_ofList, hkind, hmodule, hname, hnull, hhead, mapM_eq_some_of_forall₂ hargs]

theorem unpackType?_of_packType_ok (h : packType t = .ok p) : unpackType? p = some t :=
  unpackTypeWithin_of_packType_ok h (Nat.le_refl _)

/-! ## Fields and declarations -/

theorem unpackField?_of_packField_ok (hf : RawValue.AllSound f.rawValues)
    (h : packField f = .ok p) : unpackField? p = some f := by
  obtain ⟨hdefault, hannotations⟩ := allSound_append.mp hf
  obtain ⟨packed, htype, rfl⟩ := bind_pure_eq_ok.mp h
  rw [unpackField?, parts?_record]
  simp [Packed.part_ofList, packAnnotations, unpackType?_of_packType_ok htype,
    unpackMaybe?_packMaybe hdefault, unpackAnnotations?_packed hannotations]

theorem exists_packField_ok : (∃ p, packField f = .ok p) ↔ TypeExpr.missing ∉ f.typeExpr.walk := by
  rw [← exists_packType_ok]
  constructor
  · rintro ⟨p, hp⟩
    obtain ⟨packed, htype, _⟩ := bind_eq_ok.mp hp
    exact ⟨packed, htype⟩
  · rintro ⟨packed, htype⟩
    exact ⟨_, bind_eq_ok.mpr ⟨packed, htype, rfl⟩⟩

theorem unpackParams_texts (params : List String) :
    params.mapM (toText? ∘ Packed.text) = some params := by
  have hone : Forall₂ (fun param other => (toText? ∘ Packed.text) other =
      some (id param)) params params :=
    forall₂_same.mpr fun param _ => Packed.toText?_text param
  rw [mapM_eq_some_of_forall₂ hone, map_id]

theorem unpackFields_of_mapM_ok {fields : List Field}
    (hfields : RawValue.AllSound (fields.flatMap Field.rawValues))
    (h : fields.mapM packField = .ok items) : items.mapM unpackField? = some fields := by
  have hone : Forall₂ (fun f p => unpackField? p = some (id f)) fields items :=
    forall₂_imp_of_mem (mapM_eq_ok.mp h) fun f hf _ _ hpack =>
      unpackField?_of_packField_ok (allSound_flatMap.mp hfields f hf) hpack
  rw [mapM_eq_some_of_forall₂ hone, map_id]

theorem unpackTarget?_of_packType_ok (h : packType t = .ok p) : unpackTarget? p = some t := by
  cases t with
  | missing => cases h
  | app head args =>
    have htype := unpackType?_of_packType_ok h
    obtain ⟨items, _, rfl⟩ := packType_app_eq_ok.mp h
    exact htype

theorem packTarget_eq_ok :
    packTarget b = .ok parts ↔ (b.target? = none ∧ parts = []) ∨
      ∃ t p, b.target? = some t ∧ packType t = .ok p ∧ [("t", p)] = parts := by
  have hbind (t : TypeExpr) : (do return [("t", ← packType t)] :
      Outcome (List (String × Packed))) = .ok parts ↔
      ∃ p, packType t = .ok p ∧ [("t", p)] = parts := by
    simp only [bind_eq_ok, pure_eq_ok]
  cases b with
  | struct params fields | union params fields => simp [packTarget, Body.target?, eq_comm]
  | synonym params t | newtype params t default => simpa [packTarget, Body.target?] using hbind t

theorem allSound_fields (h : RawValue.AllSound b.rawValues) :
    RawValue.AllSound (b.fields.flatMap Field.rawValues) ∧
      RawValue.AllSound (defaultOf b).toList := by
  cases b with
  | struct params fields | union params fields => exact ⟨h, by simp [defaultOf]⟩
  | synonym params t => exact ⟨by simp [Body.fields], by simp [defaultOf]⟩
  | newtype params t default => exact ⟨by simp [Body.fields], h⟩

theorem unpackDeclaration?_of_packDeclaration_ok (hd : RawValue.AllSound d.rawValues)
    (h : packDeclaration d = .ok p) : unpackDeclaration? p = some d := by
  obtain ⟨name, version, body, annotations⟩ := d
  simp only [rawValues, allSound_append] at hd
  obtain ⟨hversion, hbody, hannotations⟩ := hd
  obtain ⟨hfields, hdefault⟩ := allSound_fields hbody
  obtain ⟨items, hitems, h⟩ := bind_eq_ok.mp h
  obtain ⟨parts, hparts, rfl⟩ := bind_pure_eq_ok.mp h
  have hkind (kind : DeclKind) : Body.kindOf? kind.tag = some kind := by cases kind <;> decide
  have hitems : items.mapM unpackField? = some body.fields := unpackFields_of_mapM_ok hfields hitems
  rw [unpackDeclaration?, parts?_record]
  rcases packTarget_eq_ok.mp hparts with ⟨hnone, rfl⟩ | ⟨t, packed, hsome, htype, rfl⟩
  · simp [Packed.part_ofList, packAnnotations, kind, params,
      unpackParams_texts, hitems, unpackTarget?, unpackMaybe?_packMaybe hdefault, hkind,
      unpackMaybe?_packMaybe hversion, unpackAnnotations?_packed hannotations]
    cases body with
    | struct params fields | union params fields => rfl
    | synonym params t | newtype params t default => cases hnone
  · simp [Packed.part_ofList, packAnnotations, kind, params,
      unpackParams_texts, hitems, unpackTarget?_of_packType_ok htype,
      unpackMaybe?_packMaybe hdefault, hkind, unpackMaybe?_packMaybe hversion,
      unpackAnnotations?_packed hannotations]
    cases body with
    | struct params fields | union params fields => cases hsome
    | synonym params t | newtype params t default =>
      cases hsome
      rfl

theorem exists_packTarget_ok :
    (∃ parts, packTarget b = .ok parts) ↔ ∀ t ∈ b.target?, TypeExpr.missing ∉ t.walk := by
  simp only [packTarget_eq_ok, ← exists_packType_ok]
  cases b.target? with
  | none | some t => simp

/-- A declaration can be packed exactly when it is written with no missing type
expression. -/
theorem exists_packDeclaration_ok :
    (∃ p, packDeclaration d = .ok p) ↔
      ∀ t ∈ d.body.typeExprs, TypeExpr.missing ∉ t.walk := by
  constructor
  · rintro ⟨p, hp⟩ t ht
    obtain ⟨items, hitems, hrest⟩ := bind_eq_ok.mp hp
    obtain ⟨parts, hparts, _⟩ := bind_eq_ok.mp hrest
    rcases mem_append.mp ht with ht | ht
    · exact exists_packTarget_ok.mp ⟨parts, hparts⟩ t (Option.mem_toList.mp ht)
    · obtain ⟨f, hf, rfl⟩ := mem_map.mp ht
      obtain ⟨q, _, hq⟩ := forall₂_exists_right (mapM_eq_ok.mp hitems) hf
      exact exists_packField_ok.mp ⟨q, hq⟩
  · intro h
    obtain ⟨items, hitems⟩ := exists_mapM_ok fun f hf =>
      exists_packField_ok.mpr (h _ (Body.typeExpr_mem_typeExprs hf))
    obtain ⟨parts, hparts⟩ := exists_packTarget_ok.mpr fun t ht =>
      h t (Body.target_mem_typeExprs ht)
    exact ⟨_, bind_eq_ok.mpr ⟨items, hitems, bind_eq_ok.mpr ⟨parts, hparts, rfl⟩⟩⟩

end Bundle

/-! ## Modules -/

/-- An import of an empty name counts as one of the whole module. -/
def Import.merged : Import → Import
  | .whole moduleName => .whole moduleName
  | .single name => if name.name = "" then .whole name.moduleName else .single name

/-- The module with the imports that a bundle gives back. -/
def SchemaModule.merged (m : SchemaModule) : SchemaModule :=
  { m with imports := m.imports.map Import.merged }

/-- Every type expression that the module is written with is there. -/
def SchemaModule.Typed (m : SchemaModule) : Prop :=
  ∀ entry ∈ m.decls, ∀ t ∈ entry.2.body.typeExprs, TypeExpr.missing ∉ t.walk

namespace Bundle

variable {modules : List SchemaModule} {decls : List (String × Declaration)}
  {packed : List (String × Packed)} {m : SchemaModule}

theorem unpackImport?_packImport (i : Import) : unpackImport? (packImport i) = some i.merged := by
  cases i with
  | whole moduleName | single name =>
    rw [packImport, unpackImport?, parts?_record]
    simp [Packed.part_ofList, Import.merged]

/-- A declaration under its key. -/
def packEntry (entry : String × Declaration) : Outcome (String × Packed) := do
  return (entry.1, ← packDeclaration entry.2)

theorem packEntry_eq_ok {entry : String × Declaration} {packed : String × Packed} :
    packEntry entry = .ok packed ↔ packed.1 = entry.1 ∧ packDeclaration entry.2 = .ok packed.2 := by
  constructor
  · intro h
    obtain ⟨p, hp, rfl⟩ := bind_pure_eq_ok.mp h
    exact ⟨rfl, hp⟩
  · rintro ⟨hkey, hp⟩
    refine bind_eq_ok.mpr ⟨packed.2, hp, pure_eq_ok.mpr ?_⟩
    rw [← hkey]

theorem keys_of_packed (h : Forall₂ (fun e p => packEntry e = .ok p) decls packed) :
    packed.map (·.1) = decls.map (·.1) := by
  induction h with
  | nil => rfl
  | cons hp _ ih => rw [map_cons, map_cons, ih, (packEntry_eq_ok.mp hp).1]

theorem ordered_of_packed (hordered : Keyed.Ordered decls)
    (h : Forall₂ (fun e p => packEntry e = .ok p) decls packed) : Keyed.Ordered packed := by
  have hkeys : (packed.map (·.1)).Pairwise (· < ·) := by
    rw [keys_of_packed h]
    exact pairwise_map.mpr hordered
  exact pairwise_map.mp hkeys

theorem unpackModule?_of_packModule_ok (hm : m.WellFormed) (h : packModule m = .ok p) :
    unpackModule? p = some m.merged := by
  obtain ⟨hdecls, hannotations⟩ := allSound_append.mp hm.sound
  obtain ⟨packed, hpacked, rfl⟩ := bind_pure_eq_ok.mp h
  have hentries : Forall₂ (fun e p => packEntry e = .ok p) m.decls packed :=
    mapM_eq_ok.mp hpacked
  have hkeyed : ofList packed = packed :=
    insertAll_eq_append (ordered_of_packed hm.ordered hentries)
  have hunpack : packed.mapM (fun entry =>
      (unpackDeclaration? entry.2).bind fun d => some (entry.1, d)) = some (m.decls.map id) := by
    refine mapM_eq_some_of_forall₂ (forall₂_imp_of_mem hentries fun e he p _ hp => ?_)
    obtain ⟨hkey, hdecl⟩ := packEntry_eq_ok.mp hp
    have hback := unpackDeclaration?_of_packDeclaration_ok (allSound_flatMap.mp hdecls e he) hdecl
    simp [hback, hkey]
  rw [map_id] at hunpack
  have himports : m.imports.mapM (unpackImport? ∘ packImport) =
      some (m.imports.map Import.merged) :=
    mapM_eq_some_of_forall₂ (forall₂_same.mpr fun i _ => unpackImport?_packImport i)
  rw [unpackModule?, parts?_record]
  simp [Packed.part_ofList, packAnnotations, toKeyed?_record, hkeyed, himports, hunpack,
    unpackAnnotations?_packed hannotations, SchemaModule.merged]

/-- A module can be packed exactly when no type expression is missing. -/
theorem exists_packModule_ok : (∃ p, packModule m = .ok p) ↔ m.Typed := by
  constructor
  · rintro ⟨p, hp⟩ entry hentry
    obtain ⟨packed, hpacked, _⟩ := bind_eq_ok.mp hp
    obtain ⟨q, _, hq⟩ := forall₂_exists_right (mapM_eq_ok.mp hpacked) hentry
    exact exists_packDeclaration_ok.mp ⟨q.2, (packEntry_eq_ok.mp hq).2⟩
  · intro h
    have hentries : ∀ entry ∈ m.decls, ∃ q, packEntry entry = .ok q := by
      intro entry hentry
      obtain ⟨q, hq⟩ := exists_packDeclaration_ok.mpr (h entry hentry)
      exact ⟨(entry.1, q), packEntry_eq_ok.mpr ⟨rfl, hq⟩⟩
    obtain ⟨packed, hpacked⟩ := exists_mapM_ok hentries
    exact ⟨_, bind_eq_ok.mpr ⟨packed, hpacked, rfl⟩⟩

theorem pack_eq_ok :
    pack modules = .ok p ↔ ∃ items, modules.mapM packModule = .ok items ∧
      record [("v", .int version), ("m", .list items)] = p := by
  constructor
  · intro h
    obtain ⟨items, hitems, hp⟩ := bind_eq_ok.mp h
    exact ⟨items, hitems, pure_eq_ok.mp hp⟩
  · rintro ⟨items, hitems, rfl⟩
    exact bind_eq_ok.mpr ⟨items, hitems, rfl⟩

theorem exists_pack_ok : (∃ p, pack modules = .ok p) ↔ ∀ m ∈ modules, m.Typed := by
  constructor
  · rintro ⟨p, hp⟩ m hm
    obtain ⟨items, hitems, _⟩ := pack_eq_ok.mp hp
    obtain ⟨q, _, hq⟩ := forall₂_exists_right (mapM_eq_ok.mp hitems) hm
    exact exists_packModule_ok.mp ⟨q, hq⟩
  · intro h
    obtain ⟨items, hitems⟩ := exists_mapM_ok fun m hm => exists_packModule_ok.mpr (h m hm)
    exact ⟨_, pack_eq_ok.mpr ⟨items, hitems, rfl⟩⟩

theorem unpack?_of_pack_ok (hmodules : ∀ m ∈ modules, m.WellFormed) (h : pack modules = .ok p) :
    unpack? p = some (modules.map SchemaModule.merged) := by
  obtain ⟨items, hitems, rfl⟩ := pack_eq_ok.mp h
  have hunpack : items.mapM unpackModule? = some (modules.map SchemaModule.merged) :=
    mapM_eq_some_of_forall₂ (forall₂_imp_of_mem (mapM_eq_ok.mp hitems)
      fun m hm _ _ hp => unpackModule?_of_packModule_ok (hmodules m hm) hp)
  rw [unpack?, parts?_record]
  simp [Packed.part_ofList, toList?, toInt?, version, hunpack]

/-! ## Failures -/

/-- All that can go wrong is that a part is missing. -/
def Panics {α : Type} : Outcome α → Prop := FailsOnly (· = .panic none)

theorem panics_packType (t : TypeExpr) : Panics (packType t) := by
  induction t using inductionOn with
  | hmissing => exact failsOnly_error.mpr rfl
  | happ head args ih =>
    rw [packType, packTypes_eq_mapM]
    split
    · rename_i hitems
      exact FailsOnly.error (failsOnly_mapM ih) hitems
    · exact failsOnly_ok

theorem panics_packDeclaration (d : Declaration) : Panics (packDeclaration d) := by
  have hfield (f : Field) : Panics (packField f) := (panics_packType f.typeExpr).bind_pure
  have htarget : Panics (packTarget d.body) := by
    cases d.body with
    | struct | union => exact failsOnly_ok
    | synonym _ t | newtype _ t => exact (panics_packType t).bind_pure
  exact (failsOnly_mapM fun f _ => hfield f).bind fun _ _ => htarget.bind_pure

theorem panics_pack (modules : List SchemaModule) : Panics (pack modules) := by
  have hmodule (m : SchemaModule) : Panics (packModule m) :=
    (failsOnly_mapM fun entry _ => (panics_packDeclaration entry.2).bind_pure).bind_pure
  exact (failsOnly_mapM fun m _ => hmodule m).bind_pure

theorem eq_panic_of_encode_error {failure : Failure} (h : encode modules = .error failure) :
    failure = .panic none :=
  panics_pack modules failure (map_eq_error.mp h)

end Bundle

end SchemaCompiler
