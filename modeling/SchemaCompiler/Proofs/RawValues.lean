import SchemaCompiler.Model.Codec
import SchemaCompiler.Proofs.Keyed
import SchemaCompiler.Proofs.Reading

/-!
# Values inside documents

Annotations, versions and defaults hold arbitrary JSON.  Every such value of a
document that was read from a text can be written again: it is absent, or a
value that can stand in a text.
-/

namespace SchemaCompiler

open Json Body Keyed Tagged

open Json (Reading)
open Json.Reading Outcome

variable {j value : Json} {parts : Parts} {name : String}

namespace RawValue

/-- The value is absent, or has the property. -/
def Holds (S : Json → Prop) : RawValue → Prop
  | absent => True
  | json value => S value
  | unreadable _ => False

/-- The value was read from a text, or is absent. -/
def Sound (raw : RawValue) : Prop := raw.Holds Json.Sound

/-- Every one of the values was read from a text. -/
def AllSound (raws : List RawValue) : Prop := ∀ raw ∈ raws, raw.Sound

@[simp]
theorem allSound_nil : AllSound [] := by simp [AllSound]

@[simp]
theorem allSound_append {first second : List RawValue} :
    AllSound (first ++ second) ↔ AllSound first ∧ AllSound second := by
  simp only [AllSound, List.mem_append, or_imp, forall_and]

@[simp]
theorem allSound_flatMap {α : Type} {f : α → List RawValue} {as : List α} :
    AllSound (as.flatMap f) ↔ ∀ a ∈ as, AllSound (f a) := by
  simp only [AllSound, List.mem_flatMap]
  constructor
  · intro h a ha raw hraw
    exact h raw ⟨a, ha, hraw⟩
  · rintro h raw ⟨a, ha, hraw⟩
    exact h a ha raw hraw

end RawValue

open RawValue (AllSound)

/-! ## The values of a document -/

def Annotations.rawValues (as : Annotations) : List RawValue := as.map (·.value)

theorem Annotations.allSound_rawValues {as : Annotations} :
    AllSound as.rawValues ↔ ∀ a ∈ as, a.value.Sound := by
  simp [AllSound, rawValues]

def Field.rawValues (f : Field) : List RawValue :=
  f.default.toList ++ f.annotations.rawValues

def Body.rawValues : Body → List RawValue
  | .struct _ fields | .union _ fields => fields.flatMap Field.rawValues
  | .synonym _ _ => []
  | .newtype _ _ default => default.toList

def Declaration.rawValues (d : Declaration) : List RawValue :=
  d.version.toList ++ (d.body.rawValues ++ d.annotations.rawValues)

def SchemaModule.rawValues (m : SchemaModule) : List RawValue :=
  m.decls.flatMap (fun entry => entry.2.rawValues) ++ m.annotations.rawValues

/-! ## Reading gives sound values -/

section Holds

variable {S : Json → Prop}

theorem Tagged.holds_read {old : Tagged} (hj : ∀ key value, j.HasMember key value → S value)
    (hold : old.value.Holds S) : (read old j).Yields fun t => t.value.Holds S := by
  refine yields_readRecord_of_members hold fun t key name value hmember _ ht => ?_
  split
  · exact yields_map fun _ => ht
  · exact yields_clean (hj key value hmember)

theorem Maybe.holds_of_ofJson_ok {m : Option RawValue}
    (hj : ∀ key value, j.HasMember key value → S value) (h : Maybe.ofJson j = .ok m) :
    ∀ raw ∈ m.toList, raw.Holds S := by
  obtain ⟨t, ht, hkind⟩ := bind_eq_ok.mp h
  have hblank : blank.value.Holds S := trivial
  have hvalue : t.value.Holds S := (holds_read hj hblank).of_finish ht
  split at hkind
  · cases hkind
    simp
  · split at hkind
    · cases hkind
      simpa using hvalue
    · cases hkind

theorem Annotation.holds_read {old : Annotation}
    (hj : ∀ key value, j.HasMember key value → S value) (hold : old.value.Holds S) :
    (old.read j).Yields fun a => a.value.Holds S := by
  refine yields_readRecord_of_members hold fun a key name value hmember _ ha => ?_
  split
  · exact yields_map fun _ => ha
  · exact yields_clean (hj key value hmember)

end Holds

theorem Tagged.sound_read {old : Tagged} (hj : j.Sound) (hold : old.value.Sound) :
    (read old j).Yields fun t => t.value.Sound :=
  holds_read (fun _ _ hmember => hmember.sound hj) hold

theorem Maybe.sound_of_ofJson_ok {m : Option RawValue} (hj : j.Sound) (h : Maybe.ofJson j = .ok m) :
    AllSound m.toList :=
  holds_of_ofJson_ok (fun _ _ hmember => hmember.sound hj) h

theorem Annotations.sound_read {old : Annotations} (hj : j.Sound) (hold : AllSound old.rawValues) :
    (Annotations.read old j).Yields fun as => AllSound as.rawValues := by
  have hread : (Annotations.read old j).Yields fun as => ∀ a ∈ as, a.value.Sound :=
    yields_readList hj trivial (allSound_rawValues.mp hold) fun _ _ ha hvalue =>
      Annotation.holds_read (fun _ _ hmember => hmember.sound hvalue) ha
  exact fun as fits has => allSound_rawValues.mpr (hread as fits has)

theorem Field.sound_read {old : Field} (hj : j.Sound) (hold : AllSound old.rawValues) :
    (Field.read old j).Yields fun f => AllSound f.rawValues := by
  refine yields_readRecord hj hold fun f name value hf hvalue => ?_
  obtain ⟨hdefault, hannotations⟩ := RawValue.allSound_append.mp hf
  split_ifs
  · exact yields_map fun _ => hf
  · exact yields_map fun _ => hf
  · exact yields_map fun _ => hf
  · exact (yields_ofOutcome fun _ hm => Maybe.sound_of_ofJson_ok hvalue hm).map fun _ hm =>
      RawValue.allSound_append.mpr ⟨hm, hannotations⟩
  · exact (Annotations.sound_read hvalue hannotations).map fun _ has =>
      RawValue.allSound_append.mpr ⟨hdefault, has⟩

/-- The values of the parts that a body may use. -/
def Body.Parts.Sound (parts : Parts) : Prop :=
  (∀ f ∈ parts.fields, AllSound f.rawValues) ∧ AllSound parts.default.toList

theorem Body.Parts.sound_blank : Parts.blank.Sound :=
  ⟨by simp [Parts.blank], by simp [Parts.blank]⟩

theorem Body.sound_readFields (hparts : parts.Sound) (hvalue : value.Sound) :
    (readFields parts name value).Yields Parts.Sound := by
  unfold readFields
  split_ifs
  · exact yields_map fun _ => hparts
  · have hblank : AllSound Field.blank.rawValues := by
      simp [Field.blank, Field.rawValues, Annotations.rawValues]
    exact (yields_readList (P := fun f => AllSound f.rawValues) hvalue hblank hparts.1
      fun _ _ hf hj => Field.sound_read hj hf).map fun _ hfields => ⟨hfields, hparts.2⟩

theorem Body.sound_readTarget (hparts : parts.Sound) (hvalue : value.Sound) :
    (readTarget parts name value).Yields Parts.Sound := by
  unfold readTarget
  split_ifs
  · exact yields_map fun _ => hparts
  · exact yields_map fun _ => hparts
  · exact (yields_ofOutcome fun _ hm => Maybe.sound_of_ofJson_ok hvalue hm).map fun _ hm =>
      ⟨hparts.1, hm⟩

/-- A body is made of parts that were read one after another. -/
theorem Body.exists_parts_of_readAs_ok {P : Parts → Prop} {kind : DeclKind} {body : Body}
    (hj : j.Sound) (hblank : P .blank)
    (hfields : ∀ parts name value, P parts → value.Sound → (readFields parts name value).Yields P)
    (htarget : ∀ parts name value, P parts → value.Sound → (readTarget parts name value).Yields P)
    (h : readAs kind j = .ok body) :
    ∃ parts, P parts ∧ (body = struct parts.params parts.fields ∨
      body = union parts.params parts.fields ∨ body = synonym parts.params parts.target ∨
      body = newtype parts.params parts.target parts.default) := by
  cases kind with
  | struct | union =>
    obtain ⟨parts, hparts, hbody⟩ := bind_eq_ok.mp h
    cases hbody
    exact ⟨parts, (yields_readRecord hj hblank hfields).of_finish hparts, by simp⟩
  | synonym | newtype =>
    obtain ⟨parts, hparts, hbody⟩ := bind_eq_ok.mp h
    cases hbody
    exact ⟨parts, (yields_readRecord hj hblank htarget).of_finish hparts, by simp⟩

theorem Body.sound_of_readAs_ok {kind : DeclKind} {body : Body} (hj : j.Sound)
    (h : readAs kind j = .ok body) : AllSound body.rawValues := by
  obtain ⟨parts, hparts, rfl | rfl | rfl | rfl⟩ := exists_parts_of_readAs_ok hj Parts.sound_blank
    (fun _ _ _ => sound_readFields) (fun _ _ _ => sound_readTarget) h
  · exact RawValue.allSound_flatMap.mpr hparts.1
  · exact RawValue.allSound_flatMap.mpr hparts.1
  · exact RawValue.allSound_nil
  · exact hparts.2

theorem RawValue.Sound.of_parse {raw : RawValue} (h : raw.Sound) (hj : raw.parse = .ok j) :
    j.Sound := by
  cases raw with
  | absent => cases hj
  | json value =>
    cases hj
    exact h
  | unreadable text => cases hj

/-- The values of the parts of a declaration; its body is still a value itself. -/
def Declaration.Parts.Sound (parts : Declaration.Parts) : Prop :=
  AllSound parts.version.toList ∧ parts.body.value.Sound ∧ AllSound parts.annotations.rawValues

theorem Declaration.sound_readPart {parts : Declaration.Parts}
    (hparts : parts.Sound) (hvalue : value.Sound) :
    (Declaration.readPart parts name value).Yields Declaration.Parts.Sound := by
  obtain ⟨hversion, hbody, hannotations⟩ := hparts
  unfold Declaration.readPart
  split_ifs
  · exact yields_map fun _ => ⟨hversion, hbody, hannotations⟩
  · exact (yields_ofOutcome fun _ hm => Maybe.sound_of_ofJson_ok hvalue hm).map fun _ hm =>
      ⟨hm, hbody, hannotations⟩
  · exact (sound_read hvalue hbody).map fun _ ht => ⟨hversion, ht, hannotations⟩
  · exact (Annotations.sound_read hvalue hannotations).map fun _ has => ⟨hversion, hbody, has⟩

theorem Declaration.exists_parts_of_ofJson_ok {d : Declaration} (hj : j.Sound)
    (h : Declaration.ofJson j = .ok d) :
    AllSound d.version.toList ∧ AllSound d.annotations.rawValues ∧
      ∃ kind value, value.Sound ∧ readAs kind value = .ok d.body := by
  obtain ⟨parts, hparts, hrest⟩ := bind_eq_ok.mp h
  have hblank : Declaration.Parts.Sound ⟨"", none, .blank, []⟩ :=
    ⟨by simp, trivial, by simp [Annotations.rawValues]⟩
  obtain ⟨hversion, hvalue, hannotations⟩ : parts.Sound :=
    (yields_readRecord hj hblank fun _ _ _ => Declaration.sound_readPart).of_finish hparts
  split at hrest
  · cases hrest
  · split at hrest
    · cases hrest
    · rename_i body hbody
      cases hrest
      obtain ⟨value, hparse, hread⟩ := bind_eq_ok.mp hbody
      exact ⟨hversion, hannotations, _, value, hvalue.of_parse hparse, hread⟩

theorem Declaration.sound_of_ofJson_ok {d : Declaration} (hj : j.Sound)
    (h : Declaration.ofJson j = .ok d) : AllSound d.rawValues := by
  obtain ⟨hversion, hannotations, _, _, hvalue, hread⟩ := exists_parts_of_ofJson_ok hj h
  simp only [Declaration.rawValues, RawValue.allSound_append]
  exact ⟨hversion, sound_of_readAs_ok hvalue hread, hannotations⟩

/-! ## Modules -/

namespace SchemaModule

variable {modules : List SchemaModule} {m : SchemaModule} {members : List (String × Json)}
  {source : String}

/-- What holds of a module that was read: its values can be written again, its
declarations stand in order of their keys, and none is without a name. -/
structure WellFormed (m : SchemaModule) : Prop where
  sound : AllSound m.rawValues
  ordered : Ordered m.decls
  named : ∀ entry ∈ m.decls, nameByKey entry = entry

/-- A module before its declarations are named. -/
def Readable (m : SchemaModule) : Prop :=
  AllSound m.rawValues ∧ Ordered m.decls

theorem yields_readDecls {P : String × Declaration → Prop} {old : List (String × Declaration)}
    (hold : ∀ entry ∈ old, P entry)
    (hmembers : ∀ member ∈ members, ∀ d, Declaration.ofJson member.2 = .ok d →
      P (Json.unescape member.1, d)) :
    (readDecls old members).Yields fun decls =>
      (∀ entry ∈ decls, P entry) ∧ (Ordered old → Ordered decls) := by
  induction members generalizing old with
  | nil => exact yields_clean ⟨hold, id⟩
  | cons member members ih =>
    obtain ⟨hmember, hrest⟩ := List.forall_mem_cons.mp hmembers
    refine (yields_ofOutcome hmember).bind fun d hd decls fits hread => ?_
    refine (ih ?_ hrest decls fits hread).imp_right fun hkept hordered => hkept hordered.insert
    intro entry hentry
    rcases mem_insert hentry with rfl | hentry
    · exact hd
    · exact hold entry hentry

theorem Readable.readPart (hm : m.Readable) (hvalue : value.Sound) :
    (m.readPart name value).Yields Readable := by
  obtain ⟨hsound, hordered⟩ := hm
  obtain ⟨hdecls, hannotations⟩ := RawValue.allSound_append.mp hsound
  unfold SchemaModule.readPart
  split_ifs
  · exact yields_map fun _ => ⟨hsound, hordered⟩
  · exact yields_map fun _ => ⟨hsound, hordered⟩
  · split
    · exact yields_clean ⟨RawValue.allSound_append.mpr ⟨by simp, hannotations⟩, .nil⟩
    · refine (yields_readDecls (P := fun entry => AllSound entry.2.rawValues)
        (RawValue.allSound_flatMap.mp hdecls) fun _ hmember _ hd =>
          Declaration.sound_of_ofJson_ok (hvalue.member hmember) hd).map fun decls hread => ?_
      exact ⟨RawValue.allSound_append.mpr ⟨RawValue.allSound_flatMap.mpr hread.1, hannotations⟩,
        hread.2 hordered⟩
    · exact yields_mismatch ⟨hsound, hordered⟩
  · exact (Annotations.sound_read hvalue hannotations).map fun _ has =>
      ⟨RawValue.allSound_append.mpr ⟨hdecls, has⟩, hordered⟩

@[simp]
theorem fst_nameByKey (entry : String × Declaration) : (nameByKey entry).1 = entry.1 := by
  unfold nameByKey
  split_ifs <;> rfl

@[simp]
theorem rawValues_nameByKey (entry : String × Declaration) :
    (nameByKey entry).2.rawValues = entry.2.rawValues := by
  unfold nameByKey
  split_ifs <;> rfl

@[simp]
theorem body_nameByKey (entry : String × Declaration) :
    (nameByKey entry).2.body = entry.2.body := by
  unfold nameByKey
  split_ifs <;> rfl

@[simp]
theorem nameByKey_nameByKey (entry : String × Declaration) :
    nameByKey (nameByKey entry) = nameByKey entry := by
  by_cases hname : entry.2.name = ""
  · by_cases hkey : entry.1 = ""
    · simp [nameByKey, hname, hkey]
    · simp [nameByKey, hname, hkey]
  · simp [nameByKey, hname]

theorem Readable.wellFormed (h : m.Readable) :
    WellFormed { m with decls := m.decls.map nameByKey } where
  sound := by
    have hsound := h.1
    simp only [rawValues, List.flatMap_map, rawValues_nameByKey] at hsound ⊢
    exact hsound
  ordered := by
    refine List.pairwise_map.mpr (h.2.imp fun hlt => ?_)
    rwa [fst_nameByKey, fst_nameByKey]
  named := by
    rintro entry hentry
    obtain ⟨read, _, rfl⟩ := List.mem_map.mp hentry
    exact nameByKey_nameByKey read

theorem wellFormed_of_ofJson_ok (hj : j.Sound) (h : SchemaModule.ofJson j = .ok m) :
    m.WellFormed := by
  obtain ⟨parts, hparts, hm⟩ := bind_eq_ok.mp h
  cases hm
  have hempty : SchemaModule.empty.Readable :=
    ⟨by simp [rawValues, empty, Annotations.rawValues], .nil⟩
  have hread : parts.Readable :=
    (yields_readRecord hj hempty fun _ _ _ hm hvalue => hm.readPart hvalue).of_finish hparts
  exact hread.wellFormed

theorem wellFormed_of_ofEntry_ok {key : String} (hj : j.Sound) (h : ofEntry key j = .ok m) :
    m.WellFormed := by
  unfold ofEntry at h
  split at h
  · cases h
  · rename_i found hfound
    have hwell := wellFormed_of_ofJson_ok hj hfound
    cases h
    split_ifs
    · exact ⟨hwell.sound, hwell.ordered, hwell.named⟩
    · exact hwell

theorem hasMember_of_mem_ofList {entry : String × Json}
    (h : entry ∈ ofList (members.map fun (key, value) => (unescape key, value))) :
    (Json.obj members).HasMember entry.1 entry.2 := by
  have hmem : entry ∈ members.map fun (key, value) => (unescape key, value) := by
    simpa using mem_insertAll h
  obtain ⟨member, hmember, rfl⟩ := List.mem_map.mp hmem
  exact ⟨members, member.1, rfl, hmember, rfl⟩

theorem wellFormed_of_ofDocument_ok (hj : j.Sound) (h : ofDocument j = .ok modules) :
    ∀ m ∈ modules, m.WellFormed := by
  cases j with
  | null =>
    cases h
    simp
  | obj members =>
    rw [ofDocument] at h
    split_ifs at h
    · obtain ⟨m, hm, hmodules⟩ := bind_eq_ok.mp h
      cases hmodules
      simpa using wellFormed_of_ofJson_ok hj hm
    · intro m hm
      obtain ⟨entry, hentry, hread⟩ :=
        forall₂_exists_left (mapM_eq_ok.mp h) hm
      exact wellFormed_of_ofEntry_ok ((hasMember_of_mem_ofList hentry).sound hj) hread
  | _ => cases h

theorem decode_eq_ok_iff {text : String} (hj : parse text = .ok j) :
    decode source text = .ok modules ↔ ofDocument j = .ok modules := by
  have hread : (parse text).bind ofDocument = ofDocument j := by rw [hj]; rfl
  rw [decode, hread]
  cases ofDocument j with
  | ok found | error failure => simp

theorem decode_of_ofDocument_error {text : String} (hj : parse text = .ok j)
    {failure : Failure} (h : ofDocument j = .error failure) :
    decode source text = .error (.decode source (some failure)) := by
  have hread : (parse text).bind ofDocument = .error failure := by rw [hj]; exact h
  rw [decode, hread]

/-- The text of a document is read as the document. -/
theorem decode_render (hj : j.Sound) (h : ofDocument j = .ok modules) :
    decode source j.render = .ok modules :=
  (decode_eq_ok_iff hj.parse_render).mpr h

/-- Every module of a document that was read is well formed. -/
theorem wellFormed_of_decode_ok {text : String} (h : decode source text = .ok modules) :
    ∀ m ∈ modules, m.WellFormed := by
  unfold decode at h
  split at h
  · rename_i found hfound
    cases h
    obtain ⟨j, hj, hdocument⟩ := bind_eq_ok.mp hfound
    exact wellFormed_of_ofDocument_ok (sound_of_parse_ok hj) hdocument
  · cases h

end SchemaModule

end SchemaCompiler
