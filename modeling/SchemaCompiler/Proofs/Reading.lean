import SchemaCompiler.Json.Reading
import SchemaCompiler.Proofs.JsonText
import SchemaCompiler.Proofs.Outcome

/-!
# Readers

What every reader of a part keeps, the reader of the whole keeps.  A part that
is refused refuses the whole.  And a reader that takes each written part as
what was written takes the whole so.  The text of a value over several lines
holds the value too: line breaks and indentation stand between tokens only.
-/

namespace SchemaCompiler.Json

open List

variable {α β : Type} {read : α → String → Json → Reading α} {names : List String} {j value : Json}
  {members : List (String × Json)} {old blank : α} {items : List Json} {written name : String}
  {type : ScopedName} {P : α → Prop}

namespace Reading

variable {P : α → Prop} {r : Reading α} {a : α} {Q : β → Prop}

/-- Whatever is read, also beside a mismatch, has the property. -/
def Yields (P : α → Prop) (r : Reading α) : Prop :=
  ∀ a first, r = .ok (a, first) → P a

theorem yields_clean (h : P a) : (clean a).Yields P := by
  intro b fits heq
  cases heq
  exact h

theorem yields_mismatch {m : Mismatch} (h : P a) : (mismatch a m).Yields P := by
  intro b fits heq
  cases heq
  exact h

theorem Yields.bind {next : α → Reading β} (h : r.Yields P) (hnext : ∀ a, P a → (next a).Yields Q) :
    (r >>= next).Yields Q := by
  intro b fits heq
  change r.andThen next = .ok (b, fits) at heq
  unfold andThen at heq
  split at heq
  · cases heq
  · rename_i a first
    split at heq
    · cases heq
    · rename_i second hsecond
      cases heq
      exact hnext a (h a first rfl) _ second hsecond

/-- A property of what is made of a part that was read. -/
theorem Yields.map {f : α → β} (h : r.Yields P) (hf : ∀ a, P a → Q (f a)) :
    (r >>= fun a => pure (f a)).Yields Q :=
  h.bind fun a ha => yields_clean (hf a ha)

theorem yields_map {f : α → β} (hf : ∀ a, Q (f a)) : (r >>= fun a => pure (f a)).Yields Q :=
  Yields.map (P := fun _ => True) (fun _ _ _ => trivial) fun a _ => hf a

theorem yields_ofOutcome {result : Outcome α} (h : ∀ a, result = .ok a → P a) :
    (ofOutcome result).Yields P := by
  intro a fits heq
  cases result with
  | error failure => cases heq
  | ok b =>
    cases heq
    exact h a rfl

theorem Yields.of_finish (h : r.Yields P) (hfinish : r.finish = .ok a) : P a := by
  unfold finish at hfinish
  split at hfinish
  · cases hfinish
  · cases hfinish
    exact h _ none rfl
  · cases hfinish

@[simp]
theorem clean_bind (a : α) (next : α → Reading β) : (clean a >>= next) = next a := by
  change (clean a).andThen next = next a
  unfold andThen clean
  cases hnext : next a with
  | error failure =>
    simp only [hnext]
    rfl
  | ok result =>
    simp only [hnext, Option.none_or]
    rfl

@[simp]
theorem clean_andThen (a : α) (next : α → Reading β) : (clean a).andThen next = next a :=
  clean_bind a next

theorem Yields.inField (h : r.Yields P) (field : String) : (r.inField type field).Yields P := by
  rintro a first heq
  obtain ⟨read, hread, hpair⟩ := Outcome.map_eq_ok.mp heq
  cases hpair
  exact h read.1 read.2 hread

@[simp]
theorem inField_clean (field : String) : (clean a).inField type field = clean a := rfl

@[simp]
theorem ofOutcome_ok (a : α) : ofOutcome (.ok a) = clean a := rfl

@[simp]
theorem finish_clean (a : α) : (clean a).finish = .ok a := rfl

end Reading

open Reading Outcome

/-! ## What is read has the properties of its parts -/

/-- An object has a member with that value, whose key is meant so. -/
def HasMember (j : Json) (key : String) (value : Json) : Prop :=
  ∃ members spelling, j = obj members ∧ (spelling, value) ∈ members ∧ unescape spelling = key

theorem HasMember.sound {key : String} (h : j.HasMember key value) (hj : j.Sound) :
    value.Sound := by
  obtain ⟨members, spelling, rfl, hmember, _⟩ := h
  exact hj.member hmember

theorem HasMember.depth_lt {key : String} (h : j.HasMember key value) : value.depth < j.depth := by
  obtain ⟨members, spelling, rfl, hmember, _⟩ := h
  exact depth_member_lt hmember

/-- An array holds the value. -/
def HasItem (j value : Json) : Prop := ∃ items, j = arr items ∧ value ∈ items

theorem HasItem.depth_lt (h : j.HasItem value) : value.depth < j.depth := by
  obtain ⟨items, rfl, hitem⟩ := h
  exact depth_item_lt hitem

theorem yields_readMembers (hold : P old)
    (hread : ∀ old member name, member ∈ members → nameOf? names (unescape member.1) = some name →
      P old → (read old name member.2).Yields P) :
    (readMembers type names read old members).Yields P := by
  induction members generalizing old with
  | nil => exact yields_clean hold
  | cons member members ih =>
    have hrest : ∀ new, P new → (readMembers type names read new members).Yields P := by
      intro new hnew
      exact ih hnew fun old other name hother => hread old other name (.tail member hother)
    rw [readMembers]
    split
    · rename_i name hname
      exact ((hread old member name mem_cons_self hname hold).inField name).bind hrest
    · exact hrest old hold

/-- What every member keeps that is read as a part, the reader of the record keeps. -/
theorem yields_readRecord_of_members (hold : P old)
    (hread : ∀ old key name value, j.HasMember key value → nameOf? names key = some name →
      P old → (read old name value).Yields P) : (j.readRecord type names read old).Yields P := by
  cases j with
  | null => exact yields_clean hold
  | obj members =>
    refine yields_readMembers hold fun old member name hmember => ?_
    exact hread old _ name member.2 ⟨members, member.1, rfl, hmember, rfl⟩
  | _ => exact yields_mismatch hold

theorem yields_readRecord (hj : j.Sound) (hold : P old)
    (hread : ∀ old name value, P old → value.Sound → (read old name value).Yields P) :
    (j.readRecord type names read old).Yields P :=
  yields_readRecord_of_members hold fun old _ name value hmember _ hold =>
    hread old name value hold (hmember.sound hj)

theorem yields_readItems {read : α → Json → Reading α} {old : List α}
    (hblank : P blank) (hold : ∀ a ∈ old, P a)
    (hread : ∀ old, ∀ value ∈ items, P old → (read old value).Yields P) :
    (readItems read blank old items).Yields fun as => ∀ a ∈ as, P a := by
  induction items generalizing old with
  | nil => exact yields_clean (by simp)
  | cons item items ih =>
    have hhead : P (old.headD blank) := by
      cases old with
      | nil => exact hblank
      | cons a old => exact hold a mem_cons_self
    have htail : ∀ a ∈ old.tail, P a := fun a ha => hold a (mem_of_mem_tail ha)
    exact (hread _ item mem_cons_self hhead).bind fun first hfirst =>
      (ih htail fun old value hvalue => hread old value (mem_cons_of_mem item hvalue)).bind
        fun others hothers => yields_clean (forall_mem_cons.mpr ⟨hfirst, hothers⟩)

/-- What every item keeps, the reader of the list keeps. -/
theorem yields_readList_of_items {read : α → Json → Reading α} {old : List α}
    {listType : String} (hblank : P blank) (hold : ∀ a ∈ old, P a)
    (hread : ∀ old value, P old → j.HasItem value → (read old value).Yields P) :
    (j.readList listType read blank old).Yields fun as => ∀ a ∈ as, P a := by
  cases j with
  | null => exact yields_clean (by simp)
  | arr items =>
    exact yields_readItems hblank hold fun old value hvalue hP =>
      hread old value hP ⟨items, rfl, hvalue⟩
  | _ => exact yields_mismatch hold

theorem yields_readList {read : α → Json → Reading α} {old : List α}
    {listType : String} (hj : j.Sound)
    (hblank : P blank) (hold : ∀ a ∈ old, P a)
    (hread : ∀ old value, P old → value.Sound → (read old value).Yields P) :
    (j.readList listType read blank old).Yields fun as => ∀ a ∈ as, P a := by
  refine yields_readList_of_items hblank hold fun old value hP hvalue => ?_
  obtain ⟨items, rfl, hitem⟩ := hvalue
  exact hread old value hP (hj.item hitem)

/-! ## What is refused -/

namespace Reading

variable {r : Reading α}

/-- The reading ends at once. -/
def Refuses (r : Reading α) : Prop := ∃ failure, r = .error failure

theorem Refuses.bind (h : r.Refuses) (next : α → Reading β) : (r >>= next).Refuses := by
  obtain ⟨failure, rfl⟩ := h
  exact ⟨failure, rfl⟩

theorem refuses_bind (r : Reading α) {next : α → Reading β} (h : ∀ a, (next a).Refuses) :
    (r >>= next).Refuses := by
  cases r with
  | error failure => exact ⟨failure, rfl⟩
  | ok read =>
    obtain ⟨failure, hnext⟩ := h read.1
    refine ⟨failure, ?_⟩
    change andThen (.ok read) next = .error failure
    rw [andThen, hnext]

theorem Refuses.inField (h : r.Refuses) (field : String) : (r.inField type field).Refuses := by
  obtain ⟨failure, rfl⟩ := h
  exact ⟨failure, rfl⟩

theorem Refuses.finish (h : r.Refuses) : ∃ failure, r.finish = .error failure := by
  obtain ⟨failure, rfl⟩ := h
  exact ⟨failure, rfl⟩

end Reading

/-- A part that is refused, whatever was read before it, refuses the whole. -/
theorem refuses_readMembers {member : String × Json} (hmember : member ∈ members)
    (hname : nameOf? names (unescape member.1) = some name)
    (hread : ∀ old, (read old name member.2).Refuses) (old : α) :
    (readMembers type names read old members).Refuses := by
  induction members generalizing old with
  | nil => cases hmember
  | cons first rest ih =>
    rw [readMembers]
    rcases mem_cons.mp hmember with rfl | hmember
    · rw [hname]
      exact ((hread old).inField name).bind _
    · split
      · exact refuses_bind _ (ih hmember)
      · exact ih hmember old

/-! ## Whole texts -/

theorem sound_of_parse_ok {text : String} (h : parse text = .ok j) : j.Sound := by
  unfold parse at h
  split at h
  · rename_i value hvalue
    cases h
    exact sound_of_parse? hvalue
  · cases h

theorem Sound.parse_render (h : j.Sound) : parse j.render = .ok j := by
  rw [parse, h.parse?_render]

theorem encode_eq_ok : j.encode = .ok written ↔ j.depth ≤ maxDepth ∧ j.render = written := by
  unfold encode writable
  split_ifs with hdepth
  · simp [hdepth, bind, Except.bind, pure, Except.pure]
  · simp [hdepth, bind, Except.bind]

theorem render_of_encodeMembers_ok (h : j.encodeMembers = .ok written) : j.render = written := by
  cases j with
  | obj members =>
    obtain ⟨_, _, hwritten⟩ := bind_eq_ok.mp h
    exact pure_eq_ok.mp hwritten
  | _ => exact (encode_eq_ok.mp h).2

/-! ## What was written is read -/

theorem encoding_eq_ok {type : String} {result : Outcome α} {a : α} :
    encoding type result = .ok a ↔ result = .ok a := by
  unfold encoding
  split <;> simp

theorem readMembers_cons {new : α} {rest : List (String × Json)}
    (hname : (names.contains name && plainName name) = true)
    (hread : read old name value = .clean new) :
    readMembers type names read old ((name, value) :: rest) =
      readMembers type names read new rest := by
  rw [Bool.and_eq_true, contains_iff_mem] at hname
  rw [readMembers, unescape_of_plainName hname.2, nameOf?, if_pos hname.1]
  simp [hread]

@[simp]
theorem readText_text (old meaning : String) : readText old (text meaning) = .clean meaning := by
  rw [text, readText, unescape_escape]

/-- A reader takes the value as `a`, whatever it held before, and the value can
be spelled. -/
structure ReadsAs (read : α → Json → Reading α) (a : α) (j : Json) : Prop where
  read_eq : ∀ old, read old j = .clean a
  spelled : j.Spelled

/-- Values that were written one by one are read one by one. -/
theorem readsAs_arr {read : α → Json → Reading α} {write : β → Outcome Json} {f : β → α}
    {bs : List β} (hwrite : bs.mapM write = .ok items)
    (hread : ∀ b ∈ bs, ∀ j, write b = .ok j → ReadsAs read (f b) j) (type : String)
    (blank : α) : ReadsAs (fun old j => j.readList type read blank old) (bs.map f) (arr items) := by
  have hwritten := mapM_eq_ok.mp hwrite
  clear hwrite
  constructor
  · intro old
    rw [readList]
    induction hwritten generalizing old with
    | nil => rfl
    | @cons b j bs items hj _ ih =>
      have hone := hread b mem_cons_self j hj
      have hrest := ih (fun x hx => hread x (mem_cons_of_mem b hx)) old.tail
      rw [readItems, hone.read_eq, hrest]
      rfl
  · refine .arr fun item hitem => ?_
    obtain ⟨b, hb, hj⟩ := forall₂_exists_left hwritten hitem
    exact (hread b hb item hj).spelled

theorem readsAs_arr_map {read : α → Json → Reading α} {write : α → Json}
    (hread : ∀ a, ReadsAs read a (write a)) (as : List α) (type : String) (blank : α) :
    ReadsAs (fun old j => j.readList type read blank old) as (arr (as.map write)) := by
  have hwrite : as.mapM (fun a => (.ok (write a) : Outcome Json)) = .ok (as.map write) := by
    rw [mapM_eq_ok, forall₂_map_right_iff, forall₂_same]
    exact fun _ _ => rfl
  have hlist := readsAs_arr (f := id) hwrite (fun a _ j hj => by
    cases hj
    exact hread a) type blank
  rwa [map_id] at hlist

theorem readsAs_texts (texts : List String) :
    ReadsAs (fun old j => j.readTexts old) texts (arr (texts.map text)) :=
  readsAs_arr_map (fun meaning => ⟨fun old => readText_text old meaning, spelled_text meaning⟩)
    texts "[]string" ""

/-! ## Indented texts -/

variable {rest : List Char} {c : Char}

theorem lexed_blank (rest : List Char) (done : List Token) (h : isBlank c = true) :
    lexed (.between, done) (c :: rest) = lexed (.between, done) rest := by
  apply lexed_cons
  simp [lexStep, lexBetween, h]

theorem lexed_blanks {blanks : List Char} (h : ∀ c ∈ blanks, isBlank c = true)
    (rest : List Char) (done : List Token) :
    lexed (.between, done) (blanks ++ rest) = lexed (.between, done) rest := by
  induction blanks with
  | nil => rfl
  | cons c blanks ih =>
    obtain ⟨hc, hblanks⟩ := forall_mem_cons.mp h
    rw [cons_append, lexed_blank _ _ hc, ih hblanks]

theorem lexed_lineBreak (level : Nat) (rest : List Char) (done : List Token) :
    lexed (.between, done) (lineBreak level ++ rest) = lexed (.between, done) rest := by
  refine lexed_blanks (fun c hc => ?_) rest done
  rcases mem_cons.mp hc with rfl | hc
  · rfl
  · rw [eq_of_mem_replicate hc]
    rfl

theorem stops_of_blank (h : isBlank c = true) : Stops (c :: rest) := by
  intro x hx
  obtain rfl : c = x := by simpa using hx
  simp [inWord, h]

theorem stops_lineBreak (level : Nat) (rest : List Char) : Stops (lineBreak level ++ rest) :=
  stops_of_blank rfl

/-! ## Values -/

theorem CutsInto.lineBreak {text : List Char} {found : List Token} (h : CutsInto text found)
    (level : Nat) : CutsInto (Json.lineBreak level ++ text) found := by
  intro rest done hrest
  rw [append_assoc, lexed_lineBreak, h rest done hrest]

theorem cutsInto_indentItems {items : List Json} {level : Nat}
    (h : ∀ item ∈ items, CutsInto (indentChars level item) item.tokens) :
    CutsInto (indentItems level items) (itemTokens items) :=
  cutsInto_commas ⟨rfl, rfl⟩ (fun _ => ⟨rfl, rfl⟩) (fun _ _ _ => ⟨rfl, rfl⟩)
    fun item hitem => (h item hitem).lineBreak level

theorem cutsInto_indentMembers {members : List (String × Json)} {level : Nat}
    (hkeys : ∀ m ∈ members, Spelling m.1.toList)
    (h : ∀ m ∈ members, CutsInto (indentChars level m.2) m.2.tokens) :
    CutsInto (indentMembers level members) (memberTokens members) := by
  have hmember : ∀ m ∈ members,
      CutsInto ('"' :: (m.1.toList ++ '"' :: ':' :: ' ' :: indentChars level m.2))
        (.str m.1 :: .colon :: m.2.tokens) := by
    intro m hm rest done hrest
    simp only [cons_append, append_assoc]
    rw [lexed_quoted _ _ (hkeys m hm), lexed_punctuation rfl rfl, lexed_blank _ _ rfl,
      h m hm rest _ hrest]
    simp
  exact cutsInto_commas ⟨rfl, rfl⟩ (fun _ => ⟨rfl, rfl⟩)
    (fun _ _ _ => by simp [indentMembers, memberTokens])
    fun m hm => (hmember m hm).lineBreak level

theorem Spelled.cutsInto_indent (h : j.Spelled) (level : Nat) :
    CutsInto (indentChars level j) j.tokens := by
  intro rest done hrest
  induction h generalizing level rest done with
  | null => exact Spelled.null.cutsInto rest done hrest
  | bool value => exact (Spelled.bool value).cutsInto rest done hrest
  | num h => exact (Spelled.num h).cutsInto rest done hrest
  | str h => exact (Spelled.str h).cutsInto rest done hrest
  | @arr items h ih =>
    cases items with
    | nil => exact (Spelled.arr h).cutsInto rest done hrest
    | cons item items =>
      simp only [indentChars, cons_append, append_assoc, nil_append]
      rw [lexed_punctuation rfl rfl,
        cutsInto_indentItems (fun a ha => ih a ha _) _ _ (stops_lineBreak _ _), lexed_lineBreak,
        lexed_punctuation rfl rfl]
      simp [tokens]
  | @obj members hkeys hvalues ih =>
    cases members with
    | nil => exact (Spelled.obj hkeys hvalues).cutsInto rest done hrest
    | cons member members =>
      simp only [indentChars, cons_append, append_assoc, nil_append]
      rw [lexed_punctuation rfl rfl,
        cutsInto_indentMembers hkeys (fun m hm => ih m hm _) _ _ (stops_lineBreak _ _),
        lexed_lineBreak, lexed_punctuation rfl rfl]
      simp [tokens]

/-- The text of a value over several lines, with a line break at its end, holds the value. -/
theorem Sound.parse_indent (h : j.Sound) : parse (j.indent ++ "\n") = .ok j := by
  have htokens : tokens? (j.indent ++ "\n").toList = some j.tokens := by
    have hcut := h.spelled.cutsInto_indent 0 ['\n'] [] (stops_of_blank rfl)
    rw [tokens?_eq_lexed, String.toList_append, indent, String.toList_ofList]
    refine hcut.trans ((lexed_blank [] _ rfl).trans ?_)
    simp [lexed, lastToken]
  rw [parse, h.parse?_of_tokens? htokens]

end SchemaCompiler.Json
