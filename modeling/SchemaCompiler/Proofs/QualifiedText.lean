import SchemaCompiler.Proofs.Substitution

/-!
# Qualified text as a key

Expressions without parameters whose names keep clear of the marks that the
text itself uses can be told apart by their qualified text: no two of them are
written alike.  Every identifier is such a name, and every dotted identifier
such a module name.
-/

namespace SchemaCompiler

open List

def Avoids (marks : List Char) (text : String) : Prop :=
  ∀ c ∈ text.toList, c ∉ marks

instance (marks : List Char) (text : String) : Decidable (Avoids marks text) :=
  decidableBAll (fun c => c ∉ marks) text.toList

/-- A name of something declared: not empty, and without a mark of the text. -/
def PlainName (name : String) : Prop :=
  name ≠ "" ∧ Avoids ['.', '<', '>', ','] name

/-- A name of a module: as a declared name, but with dots. -/
def PlainModule (name : String) : Prop :=
  name ≠ "" ∧ Avoids ['<', '>', ','] name

instance (name : String) : Decidable (PlainName name) :=
  inferInstanceAs (Decidable (_ ∧ _))

instance (name : String) : Decidable (PlainModule name) :=
  inferInstanceAs (Decidable (_ ∧ _))

/-- Closed heads with plain names. -/
def TypeRef.Plain : TypeRef → Prop
  | .primitive name => PlainName name
  | .reference name => PlainModule name.moduleName ∧ PlainName name.name
  | .param _ => False

namespace TypeExpr

variable {head : TypeRef} {name : String} {rest : List Char}

/-- Closed expressions with plain names. -/
def Plain (t : TypeExpr) : Prop :=
  ∀ s ∈ t.walk, ∀ head ∈ s.head?, head.Plain

theorem plain_app {args : List TypeExpr} :
    (app head args).Plain ↔ head.Plain ∧ ∀ a ∈ args, a.Plain := by
  constructor
  · intro h
    exact ⟨h _ (self_mem_walk _) head rfl,
      fun a ha s hs => h s (walk_arg_subset ha hs)⟩
  · rintro ⟨hhead, hargs⟩ s hs other hother
    rcases mem_walk_app.mp hs with rfl | ⟨a, ha, hsa⟩
    · obtain rfl : head = other := by simpa [head?] using hother
      exact hhead
    · exact hargs a ha s hsa other hother

/-! ## Heads -/

/-- Where characters of one kind end, a text splits in one way. -/
theorem append_inj_of_boundary {p : Char → Bool} {left left' rest' : List Char}
    (hleft : ∀ c ∈ left, p c = true) (hleft' : ∀ c ∈ left', p c = true)
    (hrest : ∀ c ∈ rest.head?, p c = false) (hrest' : ∀ c ∈ rest'.head?, p c = false)
    (heq : left ++ rest = left' ++ rest') : left = left' ∧ rest = rest' := by
  induction left generalizing left' with
  | nil =>
    cases left' with
    | nil => exact ⟨rfl, heq⟩
    | cons c left' =>
      have hc : p c = false := hrest c (by simp_all)
      simp [hleft' c mem_cons_self] at hc
  | cons c left ih =>
    cases left' with
    | nil =>
      have hc : p c = false := hrest' c (by rw [← nil_append rest', ← heq]; rfl)
      simp [hleft c mem_cons_self] at hc
    | cons c' left' =>
      obtain ⟨rfl, htail⟩ : c = c' ∧ left ++ rest = left' ++ rest' := by simpa using heq
      obtain ⟨rfl, hrest⟩ := ih (fun x hx => hleft x (mem_cons_of_mem c hx))
        (fun x hx => hleft' x (mem_cons_of_mem c hx)) htail
      exact ⟨rfl, hrest⟩

/-- The last separator parts a text in one way. -/
theorem append_inj_of_last {sep : Char} {left left' right right' : List Char}
    (hright : sep ∉ right) (hright' : sep ∉ right')
    (heq : left ++ sep :: right = left' ++ sep :: right') : left = left' ∧ right = right' := by
  have hreverse := congrArg reverse heq
  simp only [reverse_append, reverse_cons, append_assoc, singleton_append] at hreverse
  obtain ⟨hlast, hfirst⟩ := append_inj_of_boundary (p := (· ≠ sep))
    (by simpa using fun c hc => ne_of_mem_of_not_mem hc hright)
    (by simpa using fun c hc => ne_of_mem_of_not_mem hc hright')
    (by simp) (by simp) hreverse
  exact ⟨reverse_injective (cons.inj hfirst).2, reverse_injective hlast⟩

/-- A character that can stand in a head. -/
def isHeadChar (c : Char) : Bool :=
  c ∉ ['<', '>', ',']

/-- What follows a complete expression. -/
def Stops (rest : List Char) : Prop :=
  ∀ c ∈ rest.head?, c = ',' ∨ c = '>'

def headChars (head : TypeRef) : List Char :=
  (headText ScopedName.text head).toList

theorem headChars_primitive (name : String) : headChars (.primitive name) = name.toList := rfl

theorem headChars_reference {name : ScopedName} (h : PlainModule name.moduleName) :
    headChars (.reference name) = name.moduleName.toList ++ '.' :: name.name.toList := by
  simp [headChars, headText, ScopedName.text, h.1]

theorem isHeadChar_of_plainName (h : PlainName name) : ∀ c ∈ name.toList, isHeadChar c = true := by
  intro c hc
  have := h.2 c hc
  simp_all [isHeadChar]

theorem isHeadChar_of_plain (h : head.Plain) : ∀ c ∈ headChars head, isHeadChar c = true := by
  cases head with
  | primitive name => exact isHeadChar_of_plainName h
  | param name => exact h.elim
  | reference name =>
    intro c hc
    rw [headChars_reference h.1, mem_append, mem_cons] at hc
    rcases hc with hc | rfl | hc
    · simpa [isHeadChar] using h.1.2 c hc
    · decide
    · exact isHeadChar_of_plainName h.2 c hc

theorem headChars_ne_nil (h : head.Plain) : headChars head ≠ [] := by
  cases head with
  | primitive name => simpa [headChars_primitive] using h.1
  | param name => exact h.elim
  | reference name => simp [headChars_reference h.1]

theorem dot_notMem (h : PlainName name) : '.' ∉ name.toList :=
  fun hmem => h.2 '.' hmem (by simp)

/-- The last dot parts the module from the name. -/
theorem eq_of_dotted_eq {left right : ScopedName} (hleft : PlainName left.name)
    (hright : PlainName right.name)
    (heq : left.moduleName.toList ++ '.' :: left.name.toList =
      right.moduleName.toList ++ '.' :: right.name.toList) : left = right := by
  obtain ⟨hmodule, hname⟩ := append_inj_of_last (dot_notMem hleft) (dot_notMem hright) heq
  exact ScopedName.ext (String.toList_injective hmodule) (String.toList_injective hname)

/-- A dot tells a declaration from a primitive. -/
theorem headChars_injective {left right : TypeRef} (hleft : left.Plain) (hright : right.Plain)
    (heq : headChars left = headChars right) : left = right := by
  cases left with
  | param name => exact hleft.elim
  | primitive left =>
    cases right with
    | param name => exact hright.elim
    | primitive right =>
      rw [headChars_primitive, headChars_primitive] at heq
      rw [String.toList_injective heq]
    | reference right =>
      rw [headChars_primitive, headChars_reference hright.1] at heq
      exact absurd (heq ▸ by simp) (dot_notMem hleft)
  | reference left =>
    cases right with
    | param name => exact hright.elim
    | primitive right =>
      rw [headChars_primitive, headChars_reference hleft.1] at heq
      exact absurd (heq.symm ▸ by simp) (dot_notMem hright)
    | reference right =>
      rw [headChars_reference hleft.1, headChars_reference hright.1] at heq
      rw [eq_of_dotted_eq hleft.2 hright.2 heq]

/-! ## Whole expressions -/

/-- The text of arguments, each with a comma before it. -/
def moreChars (args : List TypeExpr) : List Char :=
  (writeMore ScopedName.text args).toList

/-- The text of the arguments of an application. -/
def argChars : List TypeExpr → List Char
  | [] => []
  | a :: as => '<' :: (a.scopedText.toList ++ moreChars as ++ ['>'])

theorem toList_scopedText_missing : missing.scopedText.toList = [] := by
  rw [scopedText, write]
  rfl

theorem toList_scopedText_app (head : TypeRef) (args : List TypeExpr) :
    (app head args).scopedText.toList = headChars head ++ argChars args := by
  cases args with
  | nil => simp [scopedText, write, headChars, argChars]
  | cons a as => simp [scopedText, write, headChars, argChars, moreChars]

theorem moreChars_cons (a : TypeExpr) (as : List TypeExpr) :
    moreChars (a :: as) = ',' :: (a.scopedText.toList ++ moreChars as) := by
  simp [moreChars, writeMore, scopedText]

theorem stops_moreChars (args : List TypeExpr) (rest : List Char) :
    Stops (moreChars args ++ '>' :: rest) := by
  cases args with
  | nil => simp [Stops, moreChars, writeMore]
  | cons a as => simp [Stops, moreChars_cons]

theorem isHeadChar_argChars (args : List TypeExpr) (h : Stops rest) :
    ∀ c ∈ (argChars args ++ rest).head?, isHeadChar c = false := by
  cases args with
  | nil =>
    intro c hc
    rcases h c hc with rfl | rfl <;> decide
  | cons a as => simp [argChars, isHeadChar]

/-- The text of an expression shows where it ends and which plain expression it is. -/
def Readable (s : TypeExpr) : Prop :=
  ∀ {t : TypeExpr} {rest rest' : List Char}, s.Plain → t.Plain → Stops rest → Stops rest' →
    s.scopedText.toList ++ rest = t.scopedText.toList ++ rest' → s = t ∧ rest = rest'

theorem moreChars_append_inj {args args' : List TypeExpr} {rest' : List Char}
    (hread : ∀ a ∈ args, Readable a) (hargs : ∀ a ∈ args, a.Plain) (hargs' : ∀ a ∈ args', a.Plain)
    (heq : moreChars args ++ '>' :: rest = moreChars args' ++ '>' :: rest') :
    args = args' ∧ rest = rest' := by
  induction args generalizing args' with
  | nil =>
    cases args' with
    | nil => simpa [moreChars] using heq
    | cons a' as' => simp [moreChars, writeMore] at heq
  | cons a as ih =>
    cases args' with
    | nil => simp [moreChars, writeMore] at heq
    | cons a' as' =>
      simp only [forall_mem_cons] at hread hargs hargs'
      simp only [moreChars_cons, cons_append, append_assoc, cons.injEq, true_and] at heq
      obtain ⟨rfl, htail⟩ := hread.1 hargs.1 hargs'.1
        (stops_moreChars as rest) (stops_moreChars as' rest') heq
      obtain ⟨rfl, hrest⟩ := ih hread.2 hargs.2 hargs'.2 htail
      exact ⟨rfl, hrest⟩

theorem argChars_append_inj {args args' : List TypeExpr} {rest' : List Char}
    (hread : ∀ a ∈ args, Readable a) (hargs : ∀ a ∈ args, a.Plain) (hargs' : ∀ a ∈ args', a.Plain)
    (hrest : Stops rest) (hrest' : Stops rest')
    (heq : argChars args ++ rest = argChars args' ++ rest') : args = args' ∧ rest = rest' := by
  have hopen : ∀ {rest : List Char}, Stops rest → rest.head? ≠ some '<' := by
    intro rest hstops hhead
    simpa using hstops '<' hhead
  cases args with
  | nil =>
    cases args' with
    | nil => exact ⟨rfl, heq⟩
    | cons a' as' =>
      simp only [argChars, nil_append] at heq
      exact absurd (by rw [heq]; rfl) (hopen hrest)
  | cons a as =>
    cases args' with
    | nil =>
      simp only [argChars, nil_append] at heq
      exact absurd (by rw [← heq]; rfl) (hopen hrest')
    | cons a' as' =>
      -- A comma in place of the bracket makes the first argument one of the others.
      refine moreChars_append_inj hread hargs hargs' ?_
      simpa [argChars, moreChars_cons] using heq

theorem readable (s : TypeExpr) : Readable s := by
  induction s using inductionOn with
  | hmissing =>
    intro t rest rest' _ ht hrest hrest' heq
    cases t with
    | missing => exact ⟨rfl, by simpa [toList_scopedText_missing] using heq⟩
    | app head args =>
      rw [plain_app] at ht
      rw [toList_scopedText_missing, toList_scopedText_app, append_assoc] at heq
      have hhead := append_inj_of_boundary (by simp) (isHeadChar_of_plain ht.1)
        (isHeadChar_argChars [] hrest) (isHeadChar_argChars args hrest') heq
      exact absurd hhead.1.symm (headChars_ne_nil ht.1)
  | happ head args ih =>
    intro t rest rest' hs ht hrest hrest' heq
    rw [plain_app] at hs
    cases t with
    | missing =>
      rw [toList_scopedText_missing, toList_scopedText_app, append_assoc] at heq
      have hhead := append_inj_of_boundary (isHeadChar_of_plain hs.1) (by simp)
        (isHeadChar_argChars args hrest) (isHeadChar_argChars [] hrest') heq
      exact absurd hhead.1 (headChars_ne_nil hs.1)
    | app head' args' =>
      rw [plain_app] at ht
      simp only [toList_scopedText_app, append_assoc] at heq
      obtain ⟨hhead, htail⟩ := append_inj_of_boundary (isHeadChar_of_plain hs.1)
        (isHeadChar_of_plain ht.1) (isHeadChar_argChars args hrest)
        (isHeadChar_argChars args' hrest') heq
      obtain ⟨rfl, hrest⟩ := argChars_append_inj ih hs.2 ht.2 hrest hrest' htail
      rw [headChars_injective hs.1 ht.1 hhead]
      exact ⟨rfl, hrest⟩

/-- The qualified text tells plain expressions apart. -/
theorem eq_of_scopedText_eq {s t : TypeExpr} (hs : s.Plain) (ht : t.Plain)
    (heq : s.scopedText = t.scopedText) : s = t := by
  have hempty : Stops [] := by simp [Stops]
  exact (readable s hs ht hempty hempty (by rw [heq])).1

/-- Plain expressions are equal exactly when they are written alike. -/
theorem scopedText_eq_iff_equal {s t : TypeExpr} (hs : s.Plain) (ht : t.Plain) :
    s.scopedText = t.scopedText ↔ equal s t = true := by
  rw [equal_iff]
  exact ⟨eq_of_scopedText_eq hs ht, congrArg scopedText⟩

def boxOf (args : List TypeExpr) : TypeExpr := ref ⟨"app.model", "Box"⟩ args

/-- The same names in the same order, nested and side by side. -/
theorem scopedText_eq_iff_equal_boxes :
    ∃ s t, s = boxOf [boxOf [prim "Int32"]] ∧ t = boxOf [boxOf [], prim "Int32"] ∧ s.Plain ∧
      t.Plain ∧ s.scopedText ≠ t.scopedText := by
  have hbox : ∀ {args : List TypeExpr}, (∀ a ∈ args, a.Plain) → (boxOf args).Plain :=
    fun h => plain_app.mpr ⟨⟨by decide, by decide⟩, h⟩
  have hint : (prim "Int32").Plain :=
    plain_app.mpr ⟨show PlainName "Int32" by decide, forall_mem_nil _⟩
  have hs := hbox (forall_mem_singleton.mpr (hbox (forall_mem_singleton.mpr hint)))
  have ht := hbox (forall_mem_cons.mpr ⟨hbox (forall_mem_nil _), forall_mem_singleton.mpr hint⟩)
  exact ⟨_, _, rfl, rfl, hs, ht, (scopedText_eq_iff_equal hs ht).not.mpr (by decide +kernel)⟩

end TypeExpr

end SchemaCompiler
