import SchemaCompiler.Proofs.WrittenTypes

/-!
# Documents are read as they were written

Each writer is paired with its reader: what a writer makes of a value, the
reader takes as that value again, with the values inside annotations, versions
and defaults in their normal form.  Writing the normal form gives the same
text.
-/

namespace SchemaCompiler

open List Json Keyed SchemaModule

open Json (ReadsAs)
open Json.Reading Outcome
open RawValue (AllSound)

variable {k j : Json} {items : List Json} {raw : RawValue} {α : Type}

/-! ## Normal forms -/

/-- A value as it is read back from a document: an absent one as `null`, any
other with the characters that are special in markup as escapes. -/
def RawValue.normal : RawValue → RawValue
  | absent => json .null
  | json value => json value.shielded
  | unreadable text => unreadable text

def Annotation.normal (a : Annotation) : Annotation := { a with value := a.value.normal }

def Annotations.normal (as : Annotations) : Annotations := as.map Annotation.normal

def Field.normal (f : Field) : Field :=
  { f with default := f.default.map RawValue.normal, annotations := f.annotations.normal }

def Body.normal : Body → Body
  | struct params fields => struct params (fields.map Field.normal)
  | union params fields => union params (fields.map Field.normal)
  | synonym params target => synonym params target
  | newtype params target default => newtype params target (default.map RawValue.normal)

def Declaration.normal (d : Declaration) : Declaration :=
  { d with
    version := d.version.map RawValue.normal
    body := d.body.normal
    annotations := d.annotations.normal }

def SchemaModule.normal (m : SchemaModule) : SchemaModule :=
  { m with
    decls := mapValues Declaration.normal m.decls
    annotations := m.annotations.normal }

/-! ## Writing a normal form -/

@[simp]
theorem RawValue.toJson_normal (raw : RawValue) : raw.normal.toJson = raw.toJson := by
  cases raw with
  | absent => rfl
  | json value => simp [normal, toJson]
  | unreadable text => rfl

@[simp]
theorem Maybe.toJson_normal (m : Option RawValue) :
    Maybe.toJson (m.map RawValue.normal) = Maybe.toJson m := by
  rcases m with _ | (_ | value | text)
  · rfl
  · rfl
  · simp [toJson, RawValue.normal, RawValue.isEmpty, RawValue.toJson]
  · rfl

@[simp]
theorem Annotation.toJson_normal (a : Annotation) : a.normal.toJson = a.toJson := by
  simp [toJson, normal]

@[simp]
theorem Annotations.toJson_normal (as : Annotations) : as.normal.toJson = as.toJson := by
  simp [toJson, normal, Function.comp_def]

@[simp]
theorem Field.toJson_normal (f : Field) : f.normal.toJson = f.toJson := by
  simp [toJson, normal]

@[simp]
theorem Body.toJson_normal (b : Body) : b.normal.toJson = b.toJson := by
  cases b <;> simp [toJson, normal, Function.comp_def]

@[simp]
theorem Body.kind_normal (b : Body) : b.normal.kind = b.kind := by
  cases b <;> rfl

@[simp]
theorem Declaration.toJson_normal (d : Declaration) : d.normal.toJson = d.toJson := by
  simp [toJson, normal, kind]

@[simp]
theorem SchemaModule.toJson_normal (m : SchemaModule) : m.normal.toJson = m.toJson := by
  have hdecls (decls : List (String × Declaration)) :
      declsJson (mapValues Declaration.normal decls) = declsJson decls := by
    induction decls with
    | nil => rfl
    | cons entry decls ih =>
      rw [mapValues, map_cons, declsJson, declsJson, ← mapValues, ih]
      simp
  simp [toJson, normal, hdecls]

/-! ## Tagged values and names -/

theorem Tagged.read_toJson (old : Tagged) (kind : String) (value : Json) :
    Tagged.read old (Tagged.toJson kind value) = .clean ⟨kind, .json value⟩ := by
  rw [Tagged.read, Tagged.toJson, readRecord,
    readMembers_cons rfl (by simp; rfl), readMembers_cons rfl (by simp; rfl)]
  rfl

theorem Tagged.spelled_toJson {value : Json} (kind : String) (h : value.Spelled) :
    (Tagged.toJson kind value).Spelled :=
  .record (by simp [h])

theorem ScopedName.readsAs_toJson (n : ScopedName) : ReadsAs ScopedName.read n n.toJson where
  read_eq old := by
    rw [ScopedName.read, ScopedName.toJson, readRecord,
      readMembers_cons rfl (by simp; rfl),
      readMembers_cons rfl (by simp; rfl)]
    rfl
  spelled := .record (by simp)

/-! ## Values inside documents -/

theorem RawValue.normal_of_toJson_ok (h : raw.toJson = .ok j) : raw.normal = .json j := by
  cases raw with
  | absent | json value =>
    cases h
    rfl
  | unreadable text => cases h

theorem RawValue.Sound.spelled_of_toJson_ok (hraw : raw.Sound) (h : raw.toJson = .ok j) :
    j.Spelled := by
  cases raw with
  | absent =>
    cases h
    exact .null
  | json value =>
    cases h
    exact hraw.spelled.shielded
  | unreadable text => cases h

theorem Maybe.exists_of_toJson_ok {S : Json → Prop} (hraw : raw.Holds S)
    (h : Maybe.toJson (some raw) = .ok k) :
    ∃ j, raw.toJson = .ok j ∧ Tagged.toJson "just" j = k := by
  cases raw with
  | absent => exact ⟨.null, rfl, pure_eq_ok.mp h⟩
  | json value =>
    rw [toJson, encoding_eq_ok] at h
    obtain ⟨j, hj, hk⟩ := bind_eq_ok.mp h
    exact ⟨j, hj, pure_eq_ok.mp hk⟩
  | unreadable text => exact hraw.elim

theorem Maybe.ofJson_of_toJson_ok {m : Option RawValue} (hm : AllSound m.toList)
    (h : Maybe.toJson m = .ok k) : Maybe.ofJson k = .ok (m.map RawValue.normal) ∧ k.Spelled := by
  cases m with
  | none =>
    cases h
    exact ⟨rfl, .record (by simp)⟩
  | some raw =>
    have hraw : raw.Sound := by simpa [AllSound] using hm
    obtain ⟨j, hj, rfl⟩ := exists_of_toJson_ok hraw h
    refine ⟨?_, Tagged.spelled_toJson _ (hraw.spelled_of_toJson_ok hj)⟩
    rw [ofJson, Tagged.read_toJson, Option.map_some, RawValue.normal_of_toJson_ok hj]
    rfl

theorem Annotation.readsAs_of_toJson_ok {a : Annotation} (ha : a.value.Sound)
    (h : a.toJson = .ok k) : ReadsAs Annotation.read a.normal k := by
  obtain ⟨j, hj, rfl⟩ := bind_pure_eq_ok.mp h
  constructor
  · intro old
    unfold Annotation.read
    rw [readRecord,
      readMembers_cons rfl (by simp [a.key.readsAs_toJson.read_eq]; rfl),
      readMembers_cons rfl (by simp; rfl), normal,
      RawValue.normal_of_toJson_ok hj]
    rfl
  · exact .record (by simp [a.key.readsAs_toJson.spelled, ha.spelled_of_toJson_ok hj])

theorem Annotations.readsAs_of_toJson_ok {as : Annotations} (has : AllSound as.rawValues)
    (h : as.toJson = .ok k) : ReadsAs Annotations.read as.normal k := by
  obtain ⟨items, hitems, rfl⟩ := bind_pure_eq_ok.mp (encoding_eq_ok.mp h)
  exact readsAs_arr hitems (fun a ha _ hj =>
    Annotation.readsAs_of_toJson_ok (allSound_rawValues.mp has a ha) hj) _ _

/-! ## Type expressions -/

theorem TypeRef.exists_read_toJson (head : TypeRef) (old : Tagged) :
    ∃ t, Tagged.read old head.toJson = .clean t ∧ TypeRef.ofTagged t = .ok head := by
  cases head with
  | primitive name =>
    refine ⟨_, Tagged.read_toJson old "primitive" (.text name), ?_⟩
    simp [ofTagged, readValue, RawValue.parse, bind, Except.bind, pure, Except.pure]
  | reference name =>
    refine ⟨_, Tagged.read_toJson old "reference" name.toJson, ?_⟩
    simp [ofTagged, readValue, RawValue.parse, name.readsAs_toJson.read_eq, bind, Except.bind,
      pure, Except.pure]
  | param name =>
    refine ⟨_, Tagged.read_toJson old "typeParam" (.text name), ?_⟩
    simp [ofTagged, readValue, RawValue.parse, bind, Except.bind, pure, Except.pure]

theorem TypeRef.spelled_toJson (head : TypeRef) : head.toJson.Spelled := by
  cases head with
  | primitive name => exact Tagged.spelled_toJson _ (spelled_text name)
  | reference name => exact Tagged.spelled_toJson _ name.readsAs_toJson.spelled
  | param name => exact Tagged.spelled_toJson _ (spelled_text name)

theorem TypeExpr.toJsonAll_eq_mapM (args : List TypeExpr) : toJsonAll args = args.mapM toJson := by
  induction args with
  | nil => rfl
  | cons a args ih => rw [toJsonAll, mapM_cons, ih]

theorem TypeExpr.readAll_of_toJsonAll_ok {args : List TypeExpr}
    (hone : ∀ a ∈ args, ∀ k, toJson a = .ok k → ofJson k = .ok a ∧ k.Spelled)
    (h : toJsonAll args = .ok items) :
    readAll items = .clean args ∧ ∀ item ∈ items, item.Spelled := by
  induction args generalizing items with
  | nil =>
    cases h
    exact ⟨rfl, by simp⟩
  | cons a args ih =>
    obtain ⟨k, hk, hrest⟩ := bind_eq_ok.mp h
    obtain ⟨rest, hargs, rfl⟩ := bind_pure_eq_ok.mp hrest
    obtain ⟨hread, hspelled⟩ := hone a mem_cons_self k hk
    obtain ⟨hreads, hspelleds⟩ := ih (fun x hx => hone x (mem_cons_of_mem a hx)) hargs
    refine ⟨?_, forall_mem_cons.mpr ⟨hspelled, hspelleds⟩⟩
    rw [readAll, hread, hreads]
    simp

theorem TypeExpr.ofJson_of_toJson_ok {t : TypeExpr} (h : t.toJson = .ok k) :
    ofJson k = .ok t ∧ k.Spelled := by
  induction t using inductionOn generalizing k with
  | hmissing => cases h
  | happ head args ih =>
    obtain ⟨items, hitems, rfl⟩ := bind_pure_eq_ok.mp (encoding_eq_ok.mp h)
    obtain ⟨hreads, hspelleds⟩ := readAll_of_toJsonAll_ok (fun a ha _ hk => ih a ha hk) hitems
    obtain ⟨tagged, hread, htagged⟩ := head.exists_read_toJson .blank
    constructor
    · have hparts : readParts ⟨.blank, []⟩
          [("typeRef", head.toJson), ("parameters", .arr items)] =
          .clean ⟨tagged, args⟩ := by
        have htypeRef : nameOf? ["typeRef", "parameters"] (unescape "typeRef") =
            some "typeRef" := by decide
        have hparameters : nameOf? ["typeRef", "parameters"] (unescape "parameters") =
            some "parameters" := by decide
        simp [readParts, htypeRef, hparameters, hread, readArgs, hreads]
      rw [ofJson, hparts, Parts.assemble]
      simp [htagged, bind, Except.bind, pure, Except.pure]
    · exact .record (by simp [head.spelled_toJson, Json.Spelled.arr hspelleds])

/-! ## Fields and declarations -/

theorem Field.readsAs_of_toJson_ok {f : Field} (hf : AllSound f.rawValues) (h : f.toJson = .ok k) :
    ReadsAs Field.read f.normal k := by
  obtain ⟨hdefault, hannotations⟩ := RawValue.allSound_append.mp hf
  obtain ⟨typeJson, htype, h⟩ := bind_eq_ok.mp h
  obtain ⟨defaultJson, hmaybe, h⟩ := bind_eq_ok.mp h
  obtain ⟨annotationsJson, hlist, rfl⟩ := bind_pure_eq_ok.mp h
  obtain ⟨hreadType, hspelledType⟩ := TypeExpr.ofJson_of_toJson_ok htype
  obtain ⟨hreadDefault, hspelledDefault⟩ := Maybe.ofJson_of_toJson_ok hdefault hmaybe
  obtain ⟨hread, hspelled⟩ := Annotations.readsAs_of_toJson_ok hannotations hlist
  constructor
  · intro old
    rw [Field.read, readRecord,
      readMembers_cons rfl (by simp; rfl),
      readMembers_cons rfl (by simp; rfl),
      readMembers_cons rfl (by simp [hreadType]; rfl),
      readMembers_cons rfl (by simp [hreadDefault]; rfl),
      readMembers_cons rfl (by simp [hread]; rfl)]
    rfl
  · exact .record (by simp [hspelledType, hspelledDefault, hspelled])

theorem Body.fieldsReadAs {params : List String} {fields : List Field} {type : ScopedName}
    (hfields : AllSound (fields.flatMap Field.rawValues))
    (hitems : fields.mapM Field.toJson = .ok items) :
    (Json.obj [("typeParams", paramsJson params), ("fields", .arr items)]).readRecord
        type ["typeParams", "fields"] readFields .blank =
      .clean { Parts.blank with params, fields := fields.map Field.normal } ∧
    (Json.obj [("typeParams", paramsJson params), ("fields", .arr items)]).Spelled := by
  have hread := readsAs_arr hitems (fun f hf _ hj => Field.readsAs_of_toJson_ok
    (RawValue.allSound_flatMap.mp hfields f hf) hj) "[]adlast.Field" .blank
  constructor
  · rw [readRecord,
      readMembers_cons rfl (by simp [readFields, paramsJson, (readsAs_texts params).read_eq]; rfl),
      readMembers_cons rfl (by simp [readFields, hread.read_eq]; rfl)]
    rfl
  · exact .record (by simp [paramsJson, (readsAs_texts params).spelled, hread.spelled])

theorem Body.readAs_of_toJson_ok {b : Body} (hb : AllSound b.rawValues) (h : b.toJson = .ok k) :
    readAs b.kind k = .ok b.normal ∧ k.Spelled := by
  cases b with
  | struct params fields | union params fields =>
    obtain ⟨items, hitems, rfl⟩ := bind_pure_eq_ok.mp h
    obtain ⟨hread, hspelled⟩ := fieldsReadAs hb hitems
    refine ⟨?_, hspelled⟩
    rw [kind, readAs, hread]
    rfl
  | synonym params target =>
    obtain ⟨typeJson, htype, rfl⟩ := bind_pure_eq_ok.mp h
    obtain ⟨hreadType, hspelledType⟩ := TypeExpr.ofJson_of_toJson_ok htype
    constructor
    · rw [kind, readAs, readRecord,
        readMembers_cons rfl
          (by simp [readTarget, paramsJson, (readsAs_texts params).read_eq]; rfl),
        readMembers_cons rfl (by simp [readTarget, hreadType]; rfl)]
      rfl
    · exact .record (by simp [paramsJson, (readsAs_texts params).spelled, hspelledType])
  | newtype params target default =>
    obtain ⟨typeJson, htype, h⟩ := bind_eq_ok.mp h
    obtain ⟨defaultJson, hmaybe, rfl⟩ := bind_pure_eq_ok.mp h
    obtain ⟨hreadType, hspelledType⟩ := TypeExpr.ofJson_of_toJson_ok htype
    obtain ⟨hreadDefault, hspelledDefault⟩ := Maybe.ofJson_of_toJson_ok hb hmaybe
    constructor
    · rw [kind, readAs, readRecord,
        readMembers_cons rfl
          (by simp [readTarget, paramsJson, (readsAs_texts params).read_eq]; rfl),
        readMembers_cons rfl (by simp [readTarget, hreadType]; rfl),
        readMembers_cons rfl (by simp [readTarget, hreadDefault]; rfl)]
      rfl
    · exact .record
        (by simp [paramsJson, (readsAs_texts params).spelled, hspelledType, hspelledDefault])

theorem Body.kindOf?_tag (kind : DeclKind) : Body.kindOf? kind.tag = some kind := by
  cases kind <;> decide

theorem Declaration.ofJson_of_toJson_ok {d : Declaration} (hd : AllSound d.rawValues)
    (h : d.toJson = .ok k) : Declaration.ofJson k = .ok d.normal ∧ k.Spelled := by
  simp only [rawValues, RawValue.allSound_append] at hd
  obtain ⟨hversion, hbody, hannotations⟩ := hd
  obtain ⟨bodyJson, hbodyJson, h⟩ := bind_eq_ok.mp (encoding_eq_ok.mp h)
  obtain ⟨versionJson, hmaybe, h⟩ := bind_eq_ok.mp h
  obtain ⟨annotationsJson, hlist, rfl⟩ := bind_pure_eq_ok.mp h
  obtain ⟨hreadBody, hspelledBody⟩ := Body.readAs_of_toJson_ok hbody hbodyJson
  obtain ⟨hreadVersion, hspelledVersion⟩ := Maybe.ofJson_of_toJson_ok hversion hmaybe
  obtain ⟨hread, hspelled⟩ := Annotations.readsAs_of_toJson_ok hannotations hlist
  constructor
  · rw [Declaration.ofJson, readRecord,
      readMembers_cons rfl (by simp [readPart]; rfl),
      readMembers_cons rfl (by simp [readPart, hreadVersion]; rfl),
      readMembers_cons rfl (by simp [readPart, Tagged.read_toJson]; rfl),
      readMembers_cons rfl (by simp [readPart, hread]; rfl)]
    simp [readMembers, bind, Except.bind, Body.kindOf?_tag, RawValue.parse, kind, hreadBody, normal]
  · exact .record
      (by simp [hspelledVersion, Tagged.spelled_toJson _ hspelledBody, hspelled])

/-! ## Modules -/

theorem Import.ofJson_toJson (i : Import) : Import.ofJson i.toJson = .ok i := by
  cases i with
  | whole moduleName =>
    simp [ofJson, toJson, Tagged.read_toJson, RawValue.parse, bind, Except.bind, pure, Except.pure]
  | single name =>
    simp [ofJson, toJson, Tagged.read_toJson, RawValue.parse, name.readsAs_toJson.read_eq, bind,
      Except.bind, pure, Except.pure]

theorem Import.spelled_toJson (i : Import) : i.toJson.Spelled := by
  cases i with
  | whole moduleName => exact Tagged.spelled_toJson _ (spelled_text moduleName)
  | single name => exact Tagged.spelled_toJson _ name.readsAs_toJson.spelled

namespace SchemaModule

theorem readsAs_imports (imports : List Import) :
    ReadsAs (fun old j => j.readList "[]adlast.Import" (fun _ j => ofOutcome (Import.ofJson j))
      (.whole "") old) imports (.arr (imports.map Import.toJson)) :=
  readsAs_arr_map (fun i => ⟨fun _ => by rw [i.ofJson_toJson]; rfl, i.spelled_toJson⟩)
    imports "[]adlast.Import" (.whole "")

theorem readDecls_of_declsJson_ok {decls : List (String × Declaration)}
    {members : List (String × Json)} (hdecls : ∀ entry ∈ decls, AllSound entry.2.rawValues)
    (h : declsJson decls = .ok members) :
    (∀ old, readDecls old members =
      .clean (insertAll old (mapValues Declaration.normal decls))) ∧
    (Json.obj members).Spelled := by
  induction decls generalizing members with
  | nil =>
    cases h
    exact ⟨fun old => rfl, .obj (by simp) (by simp)⟩
  | cons entry decls ih =>
    obtain ⟨hentry, hrest⟩ := forall_mem_cons.mp hdecls
    obtain ⟨k, hk, h⟩ := bind_eq_ok.mp h
    obtain ⟨rest, hmembers, rfl⟩ := bind_pure_eq_ok.mp h
    obtain ⟨hread, hspelled⟩ := Declaration.ofJson_of_toJson_ok hentry hk
    obtain ⟨hreads, hspelleds⟩ := ih hrest hmembers
    cases hspelleds with
    | obj hkeys hvalues =>
      refine ⟨fun old => ?_, .obj ?_ ?_⟩
      · rw [readDecls, hread, ofOutcome_ok, clean_andThen, hreads, unescape_escape]
        rfl
      · exact forall_mem_cons.mpr ⟨spelling_escape entry.1, hkeys⟩
      · exact forall_mem_cons.mpr ⟨hspelled, hvalues⟩

theorem map_nameByKey_normal {decls : List (String × Declaration)}
    (h : ∀ entry ∈ decls, nameByKey entry = entry) :
    (mapValues Declaration.normal decls).map nameByKey =
      mapValues Declaration.normal decls := by
  have hcomm (entry : String × Declaration) :
      nameByKey (entry.1, entry.2.normal) = ((nameByKey entry).1, (nameByKey entry).2.normal) := by
    by_cases hname : entry.2.name = ""
    · simp [nameByKey, hname, Declaration.normal]
    · simp [nameByKey, hname, Declaration.normal]
  rw [mapValues, map_map]
  apply map_congr_left
  intro entry hentry
  change nameByKey (entry.1, entry.2.normal) = (entry.1, entry.2.normal)
  rw [hcomm, h entry hentry]

theorem WellFormed.ofJson_of_toJson_ok {m : SchemaModule} (hm : m.WellFormed)
    (h : m.toJson = .ok k) : ofJson k = .ok m.normal ∧ k.Spelled := by
  obtain ⟨hdecls, hannotations⟩ := RawValue.allSound_append.mp hm.sound
  obtain ⟨members, hmembers, h⟩ := bind_eq_ok.mp (encoding_eq_ok.mp h)
  obtain ⟨annotationsJson, hlist, rfl⟩ := bind_pure_eq_ok.mp h
  obtain ⟨hreadDecls, hspelledDecls⟩ :=
    readDecls_of_declsJson_ok (RawValue.allSound_flatMap.mp hdecls) hmembers
  obtain ⟨hread, hspelled⟩ := Annotations.readsAs_of_toJson_ok hannotations hlist
  obtain ⟨hreadImports, hspelledImports⟩ := readsAs_imports m.imports
  have hinserted : insertAll [] (mapValues Declaration.normal m.decls) =
      mapValues Declaration.normal m.decls :=
    insertAll_eq_append (pairwise_map.mpr hm.ordered)
  constructor
  · rw [ofJson, readRecord,
      readMembers_cons rfl (by simp [readPart]; rfl),
      readMembers_cons rfl (by simp [readPart, hreadImports]; rfl),
      readMembers_cons rfl (by simp [readPart, hreadDecls]; rfl),
      readMembers_cons rfl (by simp [readPart, hread]; rfl)]
    simp [readMembers, empty, hinserted, map_nameByKey_normal hm.named, bind, Except.bind,
      pure, Except.pure, normal]
  · exact .record (by simp [hspelledImports, hspelledDecls, hspelled])

end SchemaModule

/-! ## Whole values -/

def Field.ofJson (j : Json) : Outcome Field := (Field.read .blank j).finish

def Annotations.ofJson (j : Json) : Outcome Annotations := (Annotations.read [] j).finish

/-! ## Levels

A type that stands an even number of levels deep may be written one level deeper
than it was read: a reference without a name is read from `null` and written as an
object.  What is inside a field has an odd number of levels at most, so the field is
written within the depth that a reader follows. -/

theorem Json.depth_shielded_le (j : Json) : j.shielded.depth ≤ j.depth := by
  induction j using inductionOn with
  | null | bool value | num spelling | str spelling => exact Nat.le_refl _
  | arr items ih =>
    rw [shielded, shieldedItems_eq_map]
    refine depth_arr_le.mpr (forall_mem_map.mpr fun item hitem => ?_)
    exact (ih item hitem).trans (depthItems_le.mp (Nat.le_refl _) item hitem)
  | obj members ih =>
    rw [shielded, shieldedMembers_eq_map]
    refine depth_obj_le.mpr (forall_mem_map.mpr fun m hm => ?_)
    exact (ih m hm).trans (depthMembers_le.mp (Nat.le_refl _) m hm)

theorem TypeRef.depth_toJson_le (head : TypeRef) : head.toJson.depth ≤ 2 := by
  cases head <;> exact Nat.le_of_ble_eq_true rfl

theorem TypeExpr.depth_of_toJson_ok {t : TypeExpr} (hread : ofJson j = .ok t)
    (hk : toJson t = .ok k) : k.depth ≤ 2 * (j.depth / 2) + 1 := by
  induction t using inductionOn generalizing j k with
  | hmissing => cases hk
  | happ head args ih =>
    obtain ⟨_, _, ht, hdeep, hargs⟩ := exists_app_of_ofJson_ok hread
    cases ht
    obtain ⟨items, hitems, rfl⟩ := bind_pure_eq_ok.mp (encoding_eq_ok.mp hk)
    have hitem : ∀ item ∈ items, item.depth ≤ 2 * (j.depth / 2) - 1 := by
      intro item hitem
      rw [toJsonAll_eq_mapM] at hitems
      obtain ⟨a, ha, hone⟩ := forall₂_exists_left (mapM_eq_ok.mp hitems) hitem
      obtain ⟨source, hsource, hread⟩ := hargs a ha
      have := ih a ha hread hone
      omega
    have harr : (arr items).depth ≤ 2 * (j.depth / 2) - 1 + 1 := depth_arr_le.mpr hitem
    have hhead := head.depth_toJson_le
    refine depth_obj_le.mpr ?_
    simp only [forall_mem_cons]
    exact ⟨by omega, by omega, forall_mem_nil _⟩

theorem RawValue.depth_of_toJson_ok {n : Nat} (hraw : raw.Holds (·.depth ≤ n))
    (h : raw.toJson = .ok j) : j.depth ≤ n := by
  cases raw with
  | absent =>
    cases h
    exact Nat.zero_le n
  | json value =>
    cases h
    exact value.depth_shielded_le.trans hraw
  | unreadable text => cases h

theorem Maybe.depth_of_toJson_ok {m : Option RawValue} {n : Nat}
    (hm : ∀ raw ∈ m.toList, raw.Holds (·.depth ≤ n)) (h : Maybe.toJson m = .ok k) :
    k.depth ≤ n + 1 := by
  cases m with
  | none =>
    cases h
    exact Nat.succ_le_succ (Nat.zero_le n)
  | some raw =>
    have hraw : raw.Holds (·.depth ≤ n) := hm raw (by simp)
    obtain ⟨j, hj, rfl⟩ := exists_of_toJson_ok hraw h
    refine depth_obj_le.mpr ?_
    simp only [forall_mem_cons]
    exact ⟨Nat.zero_le n, RawValue.depth_of_toJson_ok hraw hj, forall_mem_nil _⟩

theorem Annotations.depth_of_toJson_ok {as : Annotations} {n : Nat}
    (has : ∀ a ∈ as, a.value.Holds (·.depth ≤ n + 1)) (h : as.toJson = .ok k) :
    k.depth ≤ n + 3 := by
  obtain ⟨items, hitems, rfl⟩ := bind_pure_eq_ok.mp (encoding_eq_ok.mp h)
  refine depth_arr_le.mpr fun item hitem => ?_
  obtain ⟨a, ha, hone⟩ := forall₂_exists_left (mapM_eq_ok.mp hitems) hitem
  obtain ⟨value, hvalue, rfl⟩ := bind_pure_eq_ok.mp hone
  refine depth_obj_le.mpr ?_
  simp only [forall_mem_cons]
  exact ⟨Nat.succ_le_succ (Nat.zero_le n), RawValue.depth_of_toJson_ok (has a ha) hvalue,
    forall_mem_nil _⟩

/-- What the parts of a field have room for inside so many levels. -/
structure Field.Within (n : Nat) (f : Field) : Prop where
  type : ∀ k, f.typeExpr.toJson = .ok k → k.depth ≤ n + 3
  default : ∀ raw ∈ f.default.toList, raw.Holds (·.depth ≤ n + 2)
  annotations : ∀ a ∈ f.annotations, a.value.Holds (·.depth ≤ n + 1)

theorem Field.within_read {n : Nat} {old : Field} (hj : j.depth ≤ 2 * n + 4)
    (hold : old.Within (2 * n)) : (Field.read old j).Yields (Field.Within (2 * n)) := by
  refine yields_readRecord_of_members hold fun f key name value hmember _ hf => ?_
  have hvalue := hmember.depth_lt
  split_ifs
  · exact yields_map fun _ => ⟨hf.type, hf.default, hf.annotations⟩
  · exact yields_map fun _ => ⟨hf.type, hf.default, hf.annotations⟩
  · refine (yields_ofOutcome fun _ h => h).map
      fun t ht => ⟨fun k hk => ?_, hf.default, hf.annotations⟩
    have := TypeExpr.depth_of_toJson_ok ht hk
    omega
  · refine (yields_ofOutcome fun _ h => h).map fun m hm => ⟨hf.type, ?_, hf.annotations⟩
    refine Maybe.holds_of_ofJson_ok (fun _ inner hinner => ?_) hm
    have := hinner.depth_lt
    omega
  · refine Yields.map ?_ fun as has => ⟨hf.type, hf.default, has⟩
    refine yields_readList_of_items trivial hf.annotations fun a item ha hitem => ?_
    refine Annotation.holds_read (fun _ inner hinner => ?_) ha
    have := hitem.depth_lt
    have := hinner.depth_lt
    omega

theorem Field.Within.depth_of_toJson_ok {n : Nat} {f : Field} (hf : f.Within n)
    (h : f.toJson = .ok k) : k.depth ≤ n + 4 := by
  obtain ⟨typeJson, htype, h⟩ := bind_eq_ok.mp h
  obtain ⟨defaultJson, hmaybe, h⟩ := bind_eq_ok.mp h
  obtain ⟨annotationsJson, hlist, rfl⟩ := bind_pure_eq_ok.mp h
  refine depth_obj_le.mpr ?_
  simp only [forall_mem_cons]
  exact ⟨Nat.zero_le _, Nat.zero_le _, hf.type _ htype, Maybe.depth_of_toJson_ok hf.default hmaybe,
    Annotations.depth_of_toJson_ok hf.annotations hlist, forall_mem_nil _⟩

/-- A field that was read from a text is written no deeper than a reader follows. -/
theorem Field.depth_le_of_ofJson_ok {f : Field} (hj : j.depth ≤ maxDepth)
    (hread : Field.ofJson j = .ok f) (h : f.toJson = .ok k) : k.depth ≤ maxDepth := by
  have hblank : Field.blank.Within (2 * 4998) :=
    ⟨by simp [blank, TypeExpr.toJson, encoding], by simp [blank], by simp [blank]⟩
  exact ((within_read hj hblank).of_finish hread).depth_of_toJson_ok h

/-! ## Round trips -/

/-- What is read from a text and written is read as its normal form, and the
normal form is written the same. -/
def RoundTrips {α : Type} (read : Json → Outcome α) (write : α → Outcome Json)
    (normal : α → α) : Prop :=
  ∀ (text written : String) (a : α), (parse text).bind read = .ok a →
    (write a).bind encode = .ok written →
    (parse written).bind read = .ok (normal a) ∧
      (write (normal a)).bind encode = .ok written

/-- The reader takes as a normal form whatever is written of a value that it
read. -/
def Undoes {α : Type} (read : Json → Outcome α) (write : α → Outcome Json)
    (normal : α → α) : Prop :=
  ∀ (j k : Json) (a : α), j.Sound → read j = .ok a → write a = .ok k →
    read k = .ok (normal a) ∧ k.Spelled

theorem Undoes.parse_render {read : Json → Outcome α} {write : α → Outcome Json} {normal : α → α}
    (h : Undoes read write normal) {text : String} {a : α}
    (hread : (parse text).bind read = .ok a) (hk : write a = .ok k)
    (hdepth : k.depth ≤ maxDepth) : (parse k.render).bind read = .ok (normal a) := by
  obtain ⟨j, hj, hread⟩ := bind_eq_ok.mp hread
  obtain ⟨hback, hspelled⟩ := h j k a (sound_of_parse_ok hj) hread hk
  have hsound : k.Sound := ⟨hspelled, hdepth⟩
  exact bind_eq_ok.mpr ⟨k, hsound.parse_render, hback⟩

theorem Undoes.roundTrips {read : Json → Outcome α} {write : α → Outcome Json} {normal : α → α}
    (h : Undoes read write normal) (hnormal : ∀ a, write (normal a) = write a) :
    RoundTrips read write normal := by
  intro text written a hread hencode
  obtain ⟨k, hk, hwritten⟩ := bind_eq_ok.mp hencode
  obtain ⟨hdepth, rfl⟩ := encode_eq_ok.mp hwritten
  refine ⟨h.parse_render hread hk hdepth, ?_⟩
  rw [hnormal]
  exact hencode

theorem Field.undoes : Undoes Field.ofJson Field.toJson Field.normal := by
  intro j k f hj hread hk
  have hblank : AllSound Field.blank.rawValues := by
    simp [blank, rawValues, Annotations.rawValues]
  have hback := readsAs_of_toJson_ok ((sound_read hj hblank).of_finish hread) hk
  refine ⟨?_, hback.spelled⟩
  rw [ofJson, hback.read_eq, finish_clean]

theorem Annotations.undoes :
    Undoes Annotations.ofJson Annotations.toJson Annotations.normal := by
  intro j k as hj hread hk
  have hblank : AllSound (rawValues []) := by simp [rawValues]
  have hback := readsAs_of_toJson_ok ((sound_read hj hblank).of_finish hread) hk
  refine ⟨?_, hback.spelled⟩
  rw [ofJson, hback.read_eq, finish_clean]

/-- Modules, declarations, type expressions, imports, optional values,
annotations and fields that were read and written are read again in normal
form and then written the same.  A field is an object whose members are encoded
one by one, so that nothing looks at its own level. -/
theorem documents_round_trip :
    RoundTrips ofJson toJson normal ∧
    RoundTrips Declaration.ofJson Declaration.toJson Declaration.normal ∧
    RoundTrips TypeExpr.ofJson TypeExpr.toJson id ∧
    RoundTrips Import.ofJson (fun i => .ok i.toJson) id ∧
    RoundTrips Maybe.ofJson Maybe.toJson (Option.map RawValue.normal) ∧
    RoundTrips Annotations.ofJson Annotations.toJson Annotations.normal ∧
    ∀ (text written : String) (f : Field),
      (Json.parse text).bind Field.ofJson = .ok f →
      f.toJson.bind Json.encodeMembers = .ok written →
      (Json.parse written).bind Field.ofJson = .ok f.normal ∧
        f.normal.toJson.bind Json.encodeMembers = .ok written := by
  refine ⟨?_, ?_, ?_, ?_, ?_, ?_, ?_⟩
  · refine Undoes.roundTrips (fun j k m hj hread hk => ?_) toJson_normal
    exact (wellFormed_of_ofJson_ok hj hread).ofJson_of_toJson_ok hk
  · refine Undoes.roundTrips (fun j k d hj hread hk => ?_) Declaration.toJson_normal
    exact Declaration.ofJson_of_toJson_ok (Declaration.sound_of_ofJson_ok hj hread) hk
  · exact Undoes.roundTrips (fun _ _ _ _ _ hk => TypeExpr.ofJson_of_toJson_ok hk) fun _ => rfl
  · refine Undoes.roundTrips (fun j k i _ _ hk => ?_) fun _ => rfl
    cases hk
    exact ⟨i.ofJson_toJson, i.spelled_toJson⟩
  · refine Undoes.roundTrips (fun j k m hj hread hk => ?_) Maybe.toJson_normal
    exact Maybe.ofJson_of_toJson_ok (Maybe.sound_of_ofJson_ok hj hread) hk
  · exact Annotations.undoes.roundTrips Annotations.toJson_normal
  · intro text written f hread hencode
    obtain ⟨k, hk, hwritten⟩ := bind_eq_ok.mp hencode
    obtain rfl := Json.render_of_encodeMembers_ok hwritten
    obtain ⟨j, hj, hfield⟩ := bind_eq_ok.mp hread
    have hdepth := Field.depth_le_of_ofJson_ok (sound_of_parse_ok hj).depth_le hfield hk
    refine ⟨Field.undoes.parse_render hread hk hdepth, ?_⟩
    rw [Field.toJson_normal]
    exact hencode

/-- Annotations as they may be spelled: members in any order, keys in any letter
case, markup in a value, a value left out. -/
def markupDocument : Json :=
  .arr [.obj [("value", .str "<b>"), ("KEY", .obj [("name", .text "Doc")])],
    .obj [("key", .obj [("name", .text "Flag")])]]

def markup : Annotations :=
  [⟨⟨"", "Doc"⟩, .json (.str "<b>")⟩, ⟨⟨"", "Flag"⟩, .absent⟩]

theorem documents_round_trip_markup :
    (Json.parse markupDocument.render).bind Annotations.ofJson = .ok markup ∧
    ∃ written, markup.toJson.bind Json.encode = .ok written ∧
      (Json.parse written).bind Annotations.ofJson =
        .ok [⟨⟨"", "Doc"⟩, .json (.str "\\u003cb\\u003e")⟩, ⟨⟨"", "Flag"⟩, .json .null⟩] :=
  ⟨rfl, _, rfl, (documents_round_trip.2.2.2.2.2.1 markupDocument.render _ markup rfl rfl).1⟩

end SchemaCompiler
