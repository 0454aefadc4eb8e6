import SchemaCompiler.Proofs.Projection
import SchemaCompiler.Proofs.RawValues
import SchemaCompiler.Proofs.Store

/-!
# Types in documents

A document may leave out the type of a field, or what an alias or new type
stands for.  A type that is written is written as a whole: no argument inside
it is left out.  Every declaration that is read was given under its key in the
document.
-/

namespace SchemaCompiler

open List SchemaModule

open Json (Reading)
open Json.Reading Outcome

variable {m : SchemaModule} {j value : Json} {documents : List (String × String)} {d : Declaration}
  {parts : List (List SchemaModule)} {members : List (String × Json)}

namespace TypeExpr

variable {t : TypeExpr}

/-- No type is missing inside. -/
def Whole (t : TypeExpr) : Prop := missing ∉ t.walk

instance (t : TypeExpr) : Decidable t.Whole :=
  inferInstanceAs (Decidable (missing ∉ t.walk))

theorem not_whole_missing : ¬Whole missing := by
  simp [Whole, walk]

theorem whole_app {head : TypeRef} {args : List TypeExpr} :
    (app head args).Whole ↔ ∀ a ∈ args, a.Whole := by
  simp [Whole, mem_walk_app]

theorem Whole.of_mem_walk {s : TypeExpr} (h : t.Whole) (hs : s ∈ t.walk) : s.Whole :=
  fun hmissing => h (walk_subset hs hmissing)

/-- A whole type stays whole when whole types are put in place of its parameters. -/
theorem Whole.substitute {env : Env} {u : TypeExpr} (ht : t.Whole) (henv : ∀ b ∈ env, b.value.Whole)
    (hu : t.substitute env = .ok u) : u.Whole := by
  intro hmissing
  rcases mem_walk_substitute hu hmissing with ⟨s, hs, hhead, -⟩ | ⟨b, hb, -, -, hvalue⟩
  · cases s with
    | missing => exact ht hs
    | app head args => cases hhead
  · exact henv b hb hvalue

/-- The type was left out, or it is there as a whole. -/
def Written (t : TypeExpr) : Prop := t = missing ∨ t.Whole

/-! ## Reading types -/

/-- What is held by parts that were read of members no deeper than `n`: a kind was
read from an object, and each argument from an item of an array. -/
def Parts.Within (n : Nat) (parts : Parts) : Prop :=
  (parts.head.kind ≠ "" → 0 < n) ∧
    ∀ a ∈ parts.args, ∃ item : Json, item.depth < n ∧ ofJson item = .ok a

theorem yields_readAll (items : List Json) :
    (readAll items).Yields fun args => ∀ a ∈ args, ∃ item ∈ items, ofJson item = .ok a := by
  induction items with
  | nil => exact yields_clean (forall_mem_nil _)
  | cons item rest ih =>
    refine (yields_ofOutcome fun _ h => h).bind fun first hfirst => ?_
    refine ih.bind fun others hothers => ?_
    refine yields_clean (forall_mem_cons.mpr ⟨⟨item, mem_cons_self, hfirst⟩, fun a ha => ?_⟩)
    obtain ⟨other, hother, hread⟩ := hothers a ha
    exact ⟨other, mem_cons_of_mem item hother, hread⟩

theorem Parts.Within.readParts {n : Nat} {old : Parts} (hold : old.Within n)
    (h : ∀ m ∈ members, m.2.depth ≤ n) : (readParts old members).Yields (Parts.Within n) := by
  induction members generalizing old with
  | nil => exact yields_clean hold
  | cons member rest ih =>
    obtain ⟨key, value⟩ := member
    obtain ⟨hvalue, hrest⟩ := forall_mem_cons.mp h
    rw [TypeExpr.readParts]
    split
    · have hhead : (Tagged.read old.head value).Yields fun head => head.kind ≠ "" → 0 < n := by
        cases value with
        | null => exact yields_clean hold.1
        | obj members => exact fun _ _ _ _ => Nat.lt_of_lt_of_le (Nat.succ_pos _) hvalue
        | _ => exact yields_mismatch hold.1
      exact (hhead.inField _).bind fun head hkind => ih ⟨hkind, hold.2⟩ hrest
    · have hargs : (readArgs old.args value).Yields fun args =>
          ∀ a ∈ args, ∃ item : Json, item.depth < n ∧ ofJson item = .ok a := by
        cases value with
        | null => exact yields_clean (forall_mem_nil _)
        | arr items =>
          intro args first hread a ha
          obtain ⟨item, hitem, hone⟩ := yields_readAll items args first hread a ha
          exact ⟨item, Nat.lt_of_lt_of_le (Json.depth_item_lt hitem) hvalue, hone⟩
        | _ => exact yields_mismatch hold.2
      exact (hargs.inField _).bind fun args hread => ih ⟨hold.1, hread⟩ hrest
    · exact ih hold hrest

theorem exists_app_of_assemble_ok {n : Nat} {r : Reading Parts} (h : r.Yields (Parts.Within n))
    (ht : Parts.assemble r = .ok t) :
    ∃ head args, t = app head args ∧ 0 < n ∧
      ∀ a ∈ args, ∃ item : Json, item.depth < n ∧ ofJson item = .ok a := by
  obtain ⟨parts, hparts, ht⟩ := bind_eq_ok.mp ht
  obtain ⟨head, hhead, ht⟩ := bind_eq_ok.mp ht
  obtain ⟨hkind, hargs⟩ := h.of_finish hparts
  refine ⟨head, parts.args, (pure_eq_ok.mp ht).symm, hkind fun hempty => ?_, hargs⟩
  simp [TypeRef.ofTagged, hempty] at hhead

/-- A type that is read has a head, and each of its arguments was read from a value
two levels below. -/
theorem exists_app_of_ofJson_ok (h : ofJson j = .ok t) :
    ∃ head args, t = app head args ∧ 2 ≤ j.depth ∧
      ∀ a ∈ args, ∃ item : Json, item.depth + 2 ≤ j.depth ∧ ofJson item = .ok a := by
  have hblank (n : Nat) : (⟨.blank, []⟩ : Parts).Within n :=
    ⟨fun hkind => absurd rfl hkind, forall_mem_nil _⟩
  cases j with
  | null =>
    obtain ⟨_, _, _, hdeep, _⟩ := exists_app_of_assemble_ok (yields_clean (hblank 0)) h
    exact absurd hdeep (Nat.lt_irrefl 0)
  | obj members =>
    have hread := (hblank _).readParts (Json.depthMembers_le.mp (Nat.le_refl _) : ∀ m ∈ members, _)
    obtain ⟨head, args, ht, hdeep, hargs⟩ := exists_app_of_assemble_ok hread h
    refine ⟨head, args, ht, Nat.succ_le_succ hdeep, fun a ha => ?_⟩
    obtain ⟨item, hitem, hone⟩ := hargs a ha
    exact ⟨item, Nat.succ_le_succ hitem, hone⟩
  | _ => cases h

theorem whole_of_ofJson_ok (h : ofJson j = .ok t) : t.Whole := by
  induction t using inductionOn generalizing j with
  | hmissing =>
    obtain ⟨_, _, ht, _⟩ := exists_app_of_ofJson_ok h
    cases ht
  | happ head args ih =>
    obtain ⟨_, _, ht, _, hargs⟩ := exists_app_of_ofJson_ok h
    cases ht
    refine whole_app.mpr fun a ha => ?_
    obtain ⟨item, _, hitem⟩ := hargs a ha
    exact ih a ha hitem

end TypeExpr

/-! ## Reading declarations -/

/-- Every type of a body was left out or is there as a whole. -/
def Body.Written (b : Body) : Prop := ∀ t ∈ b.typeExprs, t.Written

theorem Field.written_read {old : Field} (hj : j.Sound) (hold : old.typeExpr.Written) :
    (Field.read old j).Yields fun f => f.typeExpr.Written := by
  refine Json.yields_readRecord hj hold fun f name value hf _ => ?_
  split_ifs
  · exact yields_map fun _ => hf
  · exact yields_map fun _ => hf
  · exact (yields_ofOutcome fun _ => TypeExpr.whole_of_ofJson_ok).map fun _ ht => .inr ht
  · exact yields_map fun _ => hf
  · exact yields_map fun _ => hf

namespace Body

variable {name : String}

/-- The types of the parts that a body may use. -/
def Parts.Written (parts : Parts) : Prop :=
  (∀ f ∈ parts.fields, f.typeExpr.Written) ∧ parts.target.Written

theorem Parts.written_blank : Parts.blank.Written :=
  ⟨forall_mem_nil _, .inl rfl⟩

theorem written_readFields {parts : Parts} (hparts : parts.Written) (hvalue : value.Sound) :
    (readFields parts name value).Yields Parts.Written := by
  rw [readFields]
  split_ifs
  · exact yields_map fun _ => hparts
  · exact (Json.yields_readList (P := fun f => f.typeExpr.Written) hvalue (.inl rfl) hparts.1
      fun _ _ hold hj => Field.written_read hj hold).map fun _ hfields => ⟨hfields, hparts.2⟩

theorem written_readTarget {parts : Parts} (hparts : parts.Written) :
    (readTarget parts name value).Yields Parts.Written := by
  rw [readTarget]
  split_ifs
  · exact yields_map fun _ => hparts
  · exact (yields_ofOutcome fun _ => TypeExpr.whole_of_ofJson_ok).map
      fun _ ht => ⟨hparts.1, .inr ht⟩
  · exact yields_map fun _ => hparts

theorem written_of_readAs_ok {kind : DeclKind} {body : Body} (hj : j.Sound)
    (h : readAs kind j = .ok body) : body.Written := by
  obtain ⟨parts, hparts, rfl | rfl | rfl | rfl⟩ := exists_parts_of_readAs_ok hj Parts.written_blank
    (fun _ _ _ => written_readFields) (fun _ _ _ hold _ => written_readTarget hold) h
  · simpa [Written, typeExprs, target?, fields] using hparts.1
  · simpa [Written, typeExprs, target?, fields] using hparts.1
  · simpa [Written, typeExprs, target?, fields] using hparts.2
  · simpa [Written, typeExprs, target?, fields] using hparts.2

end Body

theorem Declaration.written_of_ofJson_ok (hj : j.Sound) (h : Declaration.ofJson j = .ok d) :
    d.body.Written := by
  obtain ⟨_, _, _, _, hvalue, hread⟩ := exists_parts_of_ofJson_ok hj h
  exact Body.written_of_readAs_ok hvalue hread

/-! ## Reading modules -/

namespace SchemaModule

variable {entry : String × Declaration} {modules : List SchemaModule} {key : String}

/-- The value of a module gives the declaration under the key. -/
def Gives (j : Json) (key : String) (d : Declaration) : Prop :=
  ∃ part decls value, j.HasMember part decls ∧
    Json.nameOf? ["name", "imports", "decls", "annotations"] part = some "decls" ∧
    decls.HasMember key value ∧ Declaration.ofJson value = .ok d

/-- A document gives the declaration under the key, in its only module or in one of several. -/
def DocumentGives (text key : String) (d : Declaration) : Prop :=
  ∃ j, Json.parse text = .ok j ∧
    (Gives j key d ∨ ∃ name inner, j.HasMember name inner ∧ Gives inner key d)

theorem Gives.written (h : Gives j key d) (hj : j.Sound) : d.body.Written := by
  obtain ⟨part, decls, value, hdecls, _, hvalue, hread⟩ := h
  exact Declaration.written_of_ofJson_ok (hvalue.sound (hdecls.sound hj)) hread

theorem DocumentGives.written {text : String} (h : DocumentGives text key d) : d.body.Written := by
  obtain ⟨j, hj, hgives | ⟨name, inner, hinner, hgives⟩⟩ := h
  · exact hgives.written (Json.sound_of_parse_ok hj)
  · exact hgives.written (hinner.sound (Json.sound_of_parse_ok hj))

/-- Whatever part is read next, all declarations read so far were given. -/
theorem gives_readPart {part name : String} (hm : ∀ entry ∈ m.decls, Gives j entry.1 entry.2)
    (hvalue : j.HasMember part value)
    (hname : Json.nameOf? ["name", "imports", "decls", "annotations"] part = some name) :
    (m.readPart name value).Yields fun m => ∀ entry ∈ m.decls, Gives j entry.1 entry.2 := by
  unfold readPart
  split_ifs with _ _ hdecls
  · exact yields_map fun _ => hm
  · exact yields_map fun _ => hm
  · subst hdecls
    cases value with
    | null => exact yields_clean (forall_mem_nil _)
    | obj members =>
      refine (yields_readDecls hm fun member hmember d hd => ?_).map fun _ hdecls => hdecls.1
      exact ⟨part, _, member.2, hvalue, hname, ⟨members, member.1, rfl, hmember, rfl⟩, hd⟩
    | _ => exact yields_mismatch hm
  · exact yields_map fun _ => hm

/-- Every declaration of a module that was read was given under its key, and called by it if it
came without a name. -/
theorem exists_gives_of_ofJson_ok (h : ofJson j = .ok m) (hentry : entry ∈ m.decls) :
    ∃ d, Gives j entry.1 d ∧ entry = nameByKey (entry.1, d) := by
  obtain ⟨parts, hparts, hm⟩ := bind_eq_ok.mp h
  cases hm
  have hempty : ∀ entry ∈ empty.decls, Gives j entry.1 entry.2 :=
    forall_mem_nil _
  have hgives : ∀ entry ∈ parts.decls, Gives j entry.1 entry.2 :=
    (Json.yields_readRecord_of_members hempty fun _ _ _ _ hvalue hname hm =>
      gives_readPart hm hvalue hname).of_finish hparts
  obtain ⟨first, hfirst, rfl⟩ := mem_map.mp hentry
  rw [fst_nameByKey]
  exact ⟨first.2, hgives first hfirst, rfl⟩

theorem exists_gives_of_ofEntry_ok (h : ofEntry key j = .ok m) (hentry : entry ∈ m.decls) :
    ∃ d, Gives j entry.1 d ∧ entry = nameByKey (entry.1, d) := by
  unfold ofEntry at h
  split at h
  · cases h
  · rename_i found hfound
    have hdecls : m.decls = found.decls := by
      cases h
      split_ifs <;> rfl
    exact exists_gives_of_ofJson_ok hfound (hdecls ▸ hentry)

theorem exists_documentGives_of_decode_ok {source text : String}
    (h : decode source text = .ok modules) (hm : m ∈ modules) (hentry : entry ∈ m.decls) :
    ∃ d, DocumentGives text entry.1 d ∧ entry = nameByKey (entry.1, d) := by
  rw [decode] at h
  split at h
  · rename_i found hfound
    cases h
    obtain ⟨j, hj, hdocument⟩ := bind_eq_ok.mp hfound
    cases j with
    | null =>
      cases hdocument
      cases hm
    | obj members =>
      rw [ofDocument] at hdocument
      split_ifs at hdocument
      · obtain ⟨only, honly, hmodules⟩ := bind_eq_ok.mp hdocument
        cases hmodules
        obtain rfl := mem_singleton.mp hm
        obtain ⟨d, hgives, hnamed⟩ := exists_gives_of_ofJson_ok honly hentry
        exact ⟨d, ⟨_, hj, .inl hgives⟩, hnamed⟩
      · obtain ⟨inner, hinner, hread⟩ :=
          forall₂_exists_left (mapM_eq_ok.mp hdocument) hm
        obtain ⟨d, hgives, hnamed⟩ := exists_gives_of_ofEntry_ok hread hentry
        exact ⟨d, ⟨_, hj, .inr ⟨_, _, hasMember_of_mem_ofList hinner, hgives⟩⟩, hnamed⟩
    | _ => cases hdocument
  · cases h

/-- Every type of a document was left out or is there as a whole. -/
theorem written_of_decode_ok {source text : String} (h : decode source text = .ok modules) :
    ∀ m ∈ modules, ∀ entry ∈ m.decls, entry.2.body.Written := by
  intro m hm entry hentry
  obtain ⟨d, hgives, hnamed⟩ := exists_documentGives_of_decode_ok h hm hentry
  have hbody : entry.2.body = d.body := by rw [hnamed, body_nameByKey]
  exact hbody ▸ hgives.written

/-- Modules that were read stand in one of the documents. -/
theorem exists_document_of_mem
    (hdecode : documents.mapM (fun document => decode document.1 document.2) = .ok parts)
    (hm : m ∈ parts.flatten) :
    ∃ document ∈ documents, ∃ modules, decode document.1 document.2 = .ok modules ∧
      m ∈ modules := by
  obtain ⟨part, hpart, hm⟩ := mem_flatten.mp hm
  obtain ⟨document, hdocument, hread⟩ :=
    forall₂_exists_left (mapM_eq_ok.mp hdecode) hpart
  exact ⟨document, hdocument, part, hread, hm⟩

end SchemaModule

/-! ## Stores of documents -/

namespace Store

variable {s : Store}

theorem mem_of_mem_insertSorted {x : SchemaModule} {ms : List SchemaModule}
    (h : x ∈ insertSorted m ms) : x = m ∨ x ∈ ms := by
  induction ms with
  | nil => exact .inl (by simpa [insertSorted] using h)
  | cons first rest ih =>
    rw [insertSorted] at h
    split_ifs at h
    · exact mem_cons.mp h
    · rcases mem_cons.mp h with rfl | h
      · exact .inr mem_cons_self
      · exact (ih h).imp_right (mem_cons_of_mem first)

theorem add_eq_ok {s' : Store} :
    s.add m = .ok s' ↔
      m.name ≠ "" ∧ s.module? m.name = none ∧ s' = ⟨insertSorted m s.modules⟩ := by
  rw [add]
  split_ifs with hname hmodule
  · simp [hname]
  · simp [Option.isSome_iff_ne_none.mp hmodule]
  · have hnone : s.module? m.name = none := by simpa using hmodule
    simp [hname, hnone, eq_comm]

/-- A store holds nothing but the modules it was made of. -/
theorem mem_of_ofModules_ok {modules : List SchemaModule} (h : ofModules modules = .ok s)
    (hm : m ∈ s.modules) : m ∈ modules := by
  refine of_foldlM_ok (P := fun s => ∀ x ∈ s.modules, x ∈ modules) ?_ (forall_mem_nil _) h m hm
  intro s added s' hadded hs hadd x hx
  obtain ⟨_, _, rfl⟩ := add_eq_ok.mp hadd
  rcases mem_of_mem_insertSorted hx with rfl | hx
  · exact hadded
  · exact hs x hx

/-- A declaration of the store lacks a type. -/
def LacksType (s : Store) : Prop :=
  ∃ d ∈ s.allDecls, TypeExpr.missing ∈ d.decl.body.typeExprs

instance (s : Store) : Decidable s.LacksType :=
  inferInstanceAs (Decidable (∃ d ∈ s.allDecls, TypeExpr.missing ∈ d.decl.body.typeExprs))

/-- Every type in the store is there as a whole. -/
def Typed (s : Store) : Prop :=
  ∀ d ∈ s.allDecls, ∀ t ∈ d.decl.body.typeExprs, t.Whole

/-- A store of documents in which no declaration lacks a type is typed throughout. -/
theorem typed_of_not_lacksType
    (hdecode : documents.mapM (fun document => decode document.1 document.2) =
      .ok parts) (hstore : ofModules parts.flatten = .ok s) (h : ¬s.LacksType) : s.Typed := by
  intro d hd t ht
  obtain ⟨m, hm, hdecl⟩ := mem_flatMap.mp hd
  obtain ⟨⟨key, decl⟩, hentry, rfl⟩ := mem_map.mp hdecl
  obtain ⟨document, _, modules, hread, hmem⟩ :=
    exists_document_of_mem hdecode (mem_of_ofModules_ok hstore hm)
  have hwritten := written_of_decode_ok hread m hmem (key, decl) hentry
  rcases hwritten t ht with rfl | hwhole
  · exact absurd ⟨_, hd, ht⟩ h
  · exact hwhole

end Store

end SchemaCompiler
