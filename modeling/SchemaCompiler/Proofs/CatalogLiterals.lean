import SchemaCompiler.Proofs.CatalogClosure

/-!
# Catalog scripts read back

A catalog script is read by the rules of SQL, character by character: a literal runs
from a quote to the next quote that is not followed by another, and a doubled quote
stands for one.  What a script was made from comes back, whatever the texts in it
are: none of them ends its literal early, and none reaches behind it.  So the rows
that are read are those of the tables, the views and all that these depend on.
-/

namespace SchemaCompiler.Ddl

open List Standard

/-! ## Tokens -/

inductive Token
  | word (text : String)
  | literal (text : String)
  | mark (c : Char)
deriving DecidableEq

namespace Token

def word? : Token → Option String
  | word text => some text
  | _ => none

def literal? : Token → Option String
  | literal text => some text
  | _ => none

/-- Items with commas between them and a parenthesis behind them. -/
def listed (item : String → Token) (xs : List String) : List Token :=
  (xs.map item).intersperse (mark ',') ++ [mark ')']

/-- Reads items up to the closing parenthesis. -/
def readListed (item? : Token → Option String) : List Token → Option (List String × List Token)
  | item :: mark c :: rest =>
    (item? item).bind fun x =>
      if c = ',' then (readListed item? rest).map fun r => (x :: r.1, r.2)
      else if c = ')' then some ([x], rest)
      else none
  | _ => none

theorem readListed_listed {item : String → Token} {item? : Token → Option String}
    (hitem : ∀ x, item? (item x) = some x) {xs : List String} (hxs : xs ≠ [])
    (rest : List Token) : readListed item? (listed item xs ++ rest) = some (xs, rest) := by
  induction xs with
  | nil => exact absurd rfl hxs
  | cons x xs ih =>
    cases xs with
    | nil => simp [listed, readListed, hitem]
    | cons y ys =>
      have hrest : listed item (x :: y :: ys) = item x :: mark ',' :: listed item (y :: ys) := rfl
      rw [hrest, cons_append, cons_append, readListed, hitem, ih (cons_ne_nil y ys)]
      rfl

end Token

/-! ## Statements -/

/-- The statements of a catalog script. -/
inductive Statement
  | clear (table : String)
  | insert (table : String) (columns values : List String)
deriving DecidableEq

namespace Statement

def tokens : Statement → List Token
  | clear table => [.word "delete", .word "from", .word table]
  | insert table columns values =>
    [.word "insert", .word "into", .word table, .mark '('] ++ (Token.listed .word columns
      ++ ([.word "values", .mark '('] ++ Token.listed .literal values))

/-- Reads the values of a row, which ends at its closing parenthesis. -/
def readValues : List Token → Option (List String)
  | .word "values" :: .mark '(' :: rest =>
    match Token.readListed Token.literal? rest with
    | some (values, []) => some values
    | _ => none
  | _ => none

def ofTokens? : List Token → Option Statement
  | [.word "delete", .word "from", .word table] => some (.clear table)
  | .word "insert" :: .word "into" :: .word table :: .mark '(' :: rest =>
    (Token.readListed Token.word? rest).bind fun r => (readValues r.2).map (.insert table r.1)
  | _ => none

/-- No list of a statement is empty. -/
def Filled : Statement → Prop
  | clear _ => True
  | insert _ columns values => columns ≠ [] ∧ values ≠ []

theorem ofTokens?_tokens {st : Statement} (h : st.Filled) : ofTokens? st.tokens = some st := by
  cases st with
  | clear table => rfl
  | insert table columns values =>
    have hvalues : Token.readListed Token.literal? (Token.listed .literal values) =
        some (values, []) := by
      rw [← append_nil (Token.listed _ _)]
      exact Token.readListed_listed (fun _ => rfl) h.2 []
    change (Token.readListed Token.word? (Token.listed .word columns ++ _)).bind _ = _
    rw [Token.readListed_listed (fun _ => rfl) h.1]
    change (readValues (.word "values" :: .mark '(' :: Token.listed .literal values)).map _ = _
    rw [readValues, hvalues]
    rfl

end Statement

/-! ## Characters -/

/-- What the next character belongs to. -/
inductive Scan.Mode
  | between
  | word (letters : List Char)
  | literal (text : List Char)
  /-- Behind a quote in a literal, which ends the literal unless it is doubled. -/
  | quote (text : List Char)
deriving DecidableEq

/-- The statements that have ended, and the tokens of the one that has not. -/
structure Scan where
  statements : List (List Token)
  tokens : List Token
  mode : Scan.Mode

namespace Scan

def isLetter (c : Char) : Bool := c.isAlphanum || c = '_'

def put (s : Scan) (t : Token) : Scan :=
  { s with tokens := s.tokens ++ [t], mode := .between }

/-- Reads a character outside of words and literals. -/
def start (s : Scan) (c : Char) : Scan :=
  if c = '\'' then { s with mode := .literal [] }
  else if isLetter c then { s with mode := .word [c] }
  else if c.isWhitespace then { s with mode := .between }
  else if c = ';' then ⟨s.statements ++ [s.tokens], [], .between⟩
  else s.put (.mark c)

def step (s : Scan) (c : Char) : Scan :=
  match s.mode with
  | .between => s.start c
  | .word letters =>
    if isLetter c then { s with mode := .word (letters ++ [c]) }
    else (s.put (.word (String.ofList letters))).start c
  | .literal text => { s with mode := if c = '\'' then .quote text else .literal (text ++ [c]) }
  | .quote text =>
    if c = '\'' then { s with mode := .literal (text ++ [c]) }
    else (s.put (.literal (String.ofList text))).start c

def run (s : Scan) (text : String) : Scan := text.toList.foldl step s

/-- Between two statements. -/
def ready (statements : List (List Token)) : Scan := ⟨statements, [], .between⟩

@[simp]
theorem run_append (s : Scan) (a b : String) : s.run (a ++ b) = (s.run a).run b := by
  rw [run, String.toList_append, foldl_append]
  rfl

variable (sts : List (List Token)) (ts : List Token)

/-- The quotes of a text are doubled, so none of them ends the literal. -/
theorem foldl_step_doubled (text before : List Char) :
    (text.flatMap fun c => if c = '\'' then "''".toList else [c]).foldl step
        ⟨sts, ts, .literal before⟩ =
      ⟨sts, ts, .literal (before ++ text)⟩ := by
  induction text generalizing before with
  | nil => rw [append_nil]; rfl
  | cons c text ih =>
    have hstep : (if c = '\'' then "''".toList else [c]).foldl step ⟨sts, ts, .literal before⟩ =
        ⟨sts, ts, .literal (before ++ [c])⟩ := by
      by_cases hc : c = '\''
      · -- the second quote leads back into the literal
        simp [hc, step]
      · simp [hc, step]
    rw [flatMap_cons, foldl_append, hstep, ih, append_assoc]
    rfl

/-- A literal is read as its text, up to the quote behind it. -/
@[simp]
theorem run_literal (text : String) :
    run ⟨sts, ts, .between⟩ (Ddl.literal text) = ⟨sts, ts, .quote text.toList⟩ := by
  have hopen : run ⟨sts, ts, .between⟩ "'" = ⟨sts, ts, .literal []⟩ := by
    simp [run, step, start]
  have hbody : run ⟨sts, ts, .literal []⟩ (Text.replaceChar '\'' "''" text) =
      ⟨sts, ts, .literal text.toList⟩ := by
    rw [run, Text.replaceChar, String.toList_ofList]
    exact foldl_step_doubled sts ts text.toList []
  rw [Ddl.literal, run_append, run_append, hopen, hbody]
  simp [run, step]

/-- A comma behind a literal ends it. -/
@[simp]
theorem run_comma (text : String) :
    run ⟨sts, ts, .quote text.toList⟩ "," = ⟨sts, ts ++ [.literal text, .mark ','], .between⟩ := by
  simp [run, step, start, put, isLetter, Char.isAlphanum]

@[simp]
theorem run_comma_blank (text : String) :
    run ⟨sts, ts, .quote text.toList⟩ ", " = ⟨sts, ts ++ [.literal text, .mark ','], .between⟩ := by
  simp [run, step, start, put, isLetter, Char.isAlphanum]

/-- The parenthesis behind the last literal of a row. -/
@[simp]
theorem run_row_end (text : String) :
    run ⟨sts, ts, .quote text.toList⟩ ");\n" =
      ready (sts ++ [ts ++ [.literal text, .mark ')']]) := by
  simp [run, step, start, put, isLetter, Char.isAlphanum, ready]

/-! ## Rows -/

/-- Between two statements, a text is read as some statements. -/
def Reads (text : String) (statements : List (List Token)) : Prop :=
  ∀ before, run (ready before) text = ready (before ++ statements)

theorem Reads.append {a b : String} {as bs : List (List Token)} (ha : Reads a as)
    (hb : Reads b bs) : Reads (a ++ b) (as ++ bs) := by
  intro before
  rw [run_append, ha, hb, append_assoc]

theorem reads_join {α : Type} {row : α → String} {tokens : α → List Token}
    (h : ∀ x, Reads (row x) [tokens x]) (xs : List α) :
    Reads (String.join (xs.map row)) (xs.map tokens) := by
  induction xs with
  | nil => intro before; simp [run]
  | cons x xs ih => simpa using (h x).append ih

end Scan

/-- The documentation of a table or view. -/
def Entry.description (e : Entry) : String :=
  (e.decl.decl.annotations.text? Relational.docKey).getD ""

def Entry.statement (e : Entry) : Statement :=
  .insert "meta_table" ["name", "description", "decl_module_name", "decl_name"]
    [e.name, e.description, e.decl.moduleName, e.decl.decl.name]

def declStatement (d : ScopedDecl) (encoded : String) : Statement :=
  .insert "meta_adl_decl" ["module_name", "name", "decl"] [d.moduleName, d.decl.name, encoded]

open Scan

theorem reads_clear_tables :
    Reads "delete from meta_table;\n" [(Statement.clear "meta_table").tokens] := by
  intro before
  simp [run, step, start, put, isLetter, ready, Statement.tokens]

theorem reads_clear_decls :
    Reads "\ndelete from meta_adl_decl;\n" [(Statement.clear "meta_adl_decl").tokens] := by
  intro before
  simp [run, step, start, put, isLetter, ready, Statement.tokens]

theorem reads_entryRow (e : Entry) : Reads (entryRow e) [e.statement.tokens] := by
  intro before
  have hhead : run (ready before)
      "insert into meta_table(name,description,decl_module_name, decl_name) values (" =
      ⟨before, [.word "insert", .word "into", .word "meta_table", .mark '(', .word "name",
        .mark ',', .word "description", .mark ',', .word "decl_module_name", .mark ',',
        .word "decl_name", .mark ')', .word "values", .mark '('], .between⟩ := by
    simp [run, step, start, put, isLetter, ready]
  change run _ (_ ++ literal e.name ++ "," ++ literal e.description ++ ","
    ++ literal e.decl.moduleName ++ "," ++ literal e.decl.decl.name ++ ");\n") = _
  simp only [run_append, hhead, run_literal, run_comma, run_row_end]
  rfl

theorem reads_declRow (d : ScopedDecl) (encoded : String) :
    Reads (declRow d encoded) [(declStatement d encoded).tokens] := by
  intro before
  have hhead : run (ready before) "insert into meta_adl_decl(module_name,name,decl) values (" =
      ⟨before, [.word "insert", .word "into", .word "meta_adl_decl", .mark '(', .word "module_name",
        .mark ',', .word "name", .mark ',', .word "decl", .mark ')', .word "values", .mark '('],
        .between⟩ := by
    simp [run, step, start, put, isLetter, ready]
  change run _ (_ ++ literal d.moduleName ++ "," ++ literal d.decl.name ++ ", "
    ++ literal encoded ++ ");\n") = _
  simp only [run_append, hhead, run_literal, run_comma, run_comma_blank, run_row_end]
  rfl

/-! ## Scripts -/

/-- The statements of a script; behind the last of them nothing is left open. -/
def readScript (text : String) : Option (List Statement) :=
  let s := run (ready []) text
  if s.tokens = [] ∧ s.mode = .between then s.statements.mapM Statement.ofTokens? else none

theorem mapM_ofTokens?_eq_some {sts : List Statement} (hfilled : ∀ st ∈ sts, st.Filled) :
    (sts.map Statement.tokens).mapM Statement.ofTokens? = some sts := by
  induction sts with
  | nil => rfl
  | cons st sts ih =>
    obtain ⟨hst, hsts⟩ := forall_mem_cons.mp hfilled
    rw [map_cons, mapM_cons, Statement.ofTokens?_tokens hst, ih hsts]
    rfl

theorem readScript_eq_some {text : String} {sts : List Statement}
    (h : Reads text (sts.map Statement.tokens)) (hfilled : ∀ st ∈ sts, st.Filled) :
    readScript text = some sts := by
  rw [readScript, h [], nil_append]
  exact (if_pos ⟨rfl, rfl⟩).trans (mapM_ofTokens?_eq_some hfilled)

/-- What a catalog script of a schema is to say. -/
def catalogStatements (s : Schema) (written : List (ScopedDecl × String)) : List Statement :=
  [.clear "meta_table"]
    ++ ((describedTables s).map fun t => Entry.statement ⟨t.name, t.decl.decl⟩)
    ++ (s.views.map fun v => Entry.statement ⟨v.name, v.decl.decl⟩)
    ++ [.clear "meta_adl_decl"] ++ written.map fun x => declStatement x.1 x.2

theorem filled_of_mem_catalogStatements {s : Schema} {written : List (ScopedDecl × String)} :
    ∀ st ∈ catalogStatements s written, st.Filled := by
  have hinsert (table x y : String) (columns values : List String) :
      (Statement.insert table (x :: columns) (y :: values)).Filled :=
    ⟨cons_ne_nil _ _, cons_ne_nil _ _⟩
  simp only [catalogStatements, forall_mem_append, forall_mem_map, forall_mem_singleton]
  exact ⟨⟨⟨⟨trivial, fun t _ => hinsert ..⟩, fun v _ => hinsert ..⟩, trivial⟩,
    fun x _ => hinsert ..⟩

theorem readScript_scriptOf (s : Schema) (written : List (ScopedDecl × String)) :
    readScript (scriptOf s written) = some (catalogStatements s written) := by
  refine readScript_eq_some ?_ filled_of_mem_catalogStatements
  have htables := reads_join (fun t : Table => reads_entryRow ⟨t.name, t.decl.decl⟩)
    (describedTables s)
  have hviews := reads_join (fun v : View => reads_entryRow ⟨v.name, v.decl.decl⟩) s.views
  have hdecls := reads_join (fun x : ScopedDecl × String => reads_declRow x.1 x.2) written
  unfold scriptOf
  simpa [catalogStatements, Function.comp_def] using
    (((reads_clear_tables.append htables).append hviews).append reads_clear_decls).append hdecls

theorem exists_lists_of_describeAll {store : Store} {es : List Entry} {so : Described}
    (h : describeAll store es = .ok so) : ∃ written, so.Lists written := by
  refine Outcome.of_foldlM_ok (P := fun so => ∃ written, so.Lists written) ?_
    ⟨[], Described.lists_nil⟩ h
  intro so e so' _ hso hstep
  refine of_describe_ok (P := fun so => ∃ written, so.Lists written) ?_ hstep hso
  rintro so d text - htext ⟨written, hwritten⟩
  exact ⟨_, hwritten.add htext⟩

/-- Every row that a catalog script inserts is read back as the values that it was
made from, and ends at its closing parenthesis; and a whole script is read back as
its statements, with the rows of all tables, views and declarations. -/
theorem catalog_values_read_back (store : Store) (s : Schema) :
    (∀ e : Entry, readScript (entryRow e) = some [e.statement]) ∧
    (∀ d encoded, readScript (declRow d encoded) = some [declStatement d encoded]) ∧
    ∀ script, catalogScript store s = .ok script →
      ∃ so written, describeAll store (entries s) = .ok so ∧ so.Lists written ∧
        readScript script = some (catalogStatements s written) := by
  refine ⟨fun e => ?_, fun d encoded => ?_, fun script h => ?_⟩
  · exact readScript_eq_some (reads_entryRow e) (by simp [Entry.statement, Statement.Filled])
  · exact readScript_eq_some (reads_declRow d encoded) (by simp [declStatement, Statement.Filled])
  · obtain ⟨so, hso, rfl⟩ := catalogScript_eq_ok_iff.mp h
    obtain ⟨written, hwritten⟩ := exists_lists_of_describeAll hso
    refine ⟨so, written, hso, hwritten, ?_⟩
    rw [entryRows_eq, hwritten.rows, ← String.append_assoc]
    exact readScript_scriptOf s written

/-! ## What is described -/

section Closure

variable {store : Store} {s : Schema}

/-- Describing a schema ends, however its declarations refer to each other.  It
succeeds exactly when all that is reached from the tables and views has a text, and
a failure is that of a declaration that has none.  The script then has a row for
each described table, one for each view, and one for each declaration that is
reached, and is read back as these rows. -/
theorem catalog_describes_closure (hnames : store.NamedByKeys) (hcomplete : store.Complete)
    (hover : s.Over store) :
    (∀ outcome, Walks store (entryNames s) ⟨[], []⟩ outcome ↔
      outcome = describeAll store (entries s)) ∧
    ((∃ script, catalogScript store s = .ok script) ↔
      ∀ d, store.Reached (entryNames s) d → ∃ text, d.encoded = .ok text) ∧
    (∀ failure, catalogScript store s = .error failure →
      ∃ d, store.Reached (entryNames s) d ∧ d.encoded = .error failure) ∧
    ∀ script, catalogScript store s = .ok script → ∃ written : List (ScopedDecl × String),
      (written.map (·.1.name)).Nodup ∧
      (∀ d, d ∈ written.map (·.1) ↔ store.Reached (entryNames s) d) ∧
      (∀ x ∈ written, x.1.encoded = .ok x.2) ∧ script = scriptOf s written ∧
      readScript script = some (catalogStatements s written) := by
  have hwalks := walks_describeAll hnames hover
  refine ⟨fun outcome => ⟨fun h => h.unique hwalks, fun h => h ▸ hwalks⟩, ⟨?_, ?_⟩,
    fun _ => exists_untexted_of_error hnames hcomplete hover, fun script h => ?_⟩
  · rintro ⟨script, h⟩ d hd
    obtain ⟨written, _, hmem, hencoded, _⟩ := exists_written_of_ok hnames hover h
    obtain ⟨x, hx, rfl⟩ := mem_map.mp ((hmem d).mpr hd)
    exact ⟨x.2, hencoded x hx⟩
  · intro htexts
    cases h : catalogScript store s with
    | ok script => exact ⟨script, rfl⟩
    | error failure =>
        obtain ⟨d, hd, hfailure⟩ := exists_untexted_of_error hnames hcomplete hover h
        obtain ⟨text, htext⟩ := htexts d hd
        cases htext.symm.trans hfailure
  · obtain ⟨written, hnodup, hmem, hencoded, rfl⟩ := exists_written_of_ok hnames hover h
    exact ⟨written, hnodup, hmem, hencoded, rfl, readScript_scriptOf s written⟩

end Closure

/-! ## Pets and their tags -/

def noteDecl : ScopedDecl :=
  ⟨"app", (structDecl "Note" [] [field "name" Standard.text]).2⟩

/-- A pet, which may have a mate, and its tag in a box. -/
def petDecl : ScopedDecl :=
  ⟨"app", (structDecl "Pet" [] [field "id" Standard.text,
    field "mate" (.prim "Nullable" [.ref ⟨"app", "Pet"⟩]),
    field "tag" (.ref ⟨"app", "Box"⟩ [.ref ⟨"app", "Tag"⟩])]).2⟩

def tagDecl (target : TypeExpr) : ScopedDecl :=
  ⟨"app", (newtypeDecl "Tag" [] target).2⟩

def petStore (tag : TypeExpr) : Store :=
  ⟨[⟨"app", [], [structDecl "Box" ["T"] [field "value" (.param "T")],
    ("Note", noteDecl.decl), ("Pet", petDecl.decl), ("Tag", (tagDecl tag).decl)], []⟩]⟩

def petRow (d : ScopedDecl) : Projection :=
  ⟨d.name, d, .struct, d.name, [], [], false, false, false, .missing, []⟩

/-- The notes are kept in a table of the catalog; pets have a table and a view. -/
def petSchema : Schema where
  profile := .postgresql2
  modules := ["app"]
  tables := [⟨petRow noteDecl, "meta_table", [], [], [], [], [], []⟩,
    ⟨petRow petDecl, "pet", [], [], [], [], [], []⟩]
  views := [⟨petRow petDecl, "young_pet", []⟩]

theorem over_petStore (tag : TypeExpr) : petSchema.Over (petStore tag) where
  tables := forall_mem_cons.mpr ⟨rfl, forall_mem_singleton.mpr rfl⟩
  views := forall_mem_singleton.mpr rfl

/-- A tag that stands for no type has no text, and nothing is described. -/
theorem untyped_tag_refused :
    (petStore .missing).NamedByKeys ∧ (petStore .missing).Complete ∧
      petSchema.Over (petStore .missing) ∧
      (petStore .missing).Reached (entryNames petSchema) (tagDecl .missing) ∧
      catalogScript (petStore .missing) petSchema =
        .error (.context "encode app.Tag" (.json <|
          "json: error calling MarshalJSON for type adlast.Decl: " ++
          "json: error calling MarshalJSON for type adlast.TypeExpr: " ++
          "adlast: cannot encode type ref <nil>")) := by
  refine ⟨by decide, by decide, over_petStore .missing, ?_, rfl⟩
  refine ⟨petDecl.name, mem_cons_self, petDecl, rfl, .single ⟨⟨"app", "Tag"⟩, ?_, rfl⟩⟩
  decide

/-- Of a pet that may be its own mate, everything is described once. -/
theorem catalog_describes_closure_pets :
    (petStore Standard.text).NamedByKeys ∧ (petStore Standard.text).Complete ∧
      petSchema.Over (petStore Standard.text) ∧
      ∃ script written, catalogScript (petStore Standard.text) petSchema = .ok script ∧
        (written.map (·.1.name)).Nodup ∧
        (∀ d, d ∈ written.map (·.1) ↔
          (petStore Standard.text).Reached (entryNames petSchema) d) ∧
        readScript script = some (catalogStatements petSchema written) := by
  have hnames : (petStore Standard.text).NamedByKeys := by decide
  have hcomplete : (petStore Standard.text).Complete := by decide
  have hover := over_petStore Standard.text
  obtain ⟨-, -, -, hscript⟩ := catalog_describes_closure hnames hcomplete hover
  have hok : (catalogScript (petStore Standard.text) petSchema).isOk = true := by decide +kernel
  obtain ⟨script, h⟩ := Outcome.isOk_iff.mp hok
  obtain ⟨written, hnodup, hmem, -, -, hread⟩ := hscript script h
  exact ⟨hnames, hcomplete, hover, script, written, h, hnodup, hmem, hread⟩

/-! ## Texts full of quotes -/

/-- A declaration whose texts try to leave their literals. -/
def quotedDecl : ScopedDecl :=
  ⟨"o'shop", { (Standard.structDecl "It''s" [] [Standard.field "id'" Standard.text]).2 with
    annotations := [⟨Relational.docKey, .json (.str "'); delete from meta_table;\\n--''")⟩] }⟩

def quotedStore : Store := ⟨[⟨"o'shop", [], [("It''s", quotedDecl.decl)], []⟩]⟩

def quotedSchema : Schema where
  profile := .postgresql2
  modules := ["o'shop"]
  tables := [⟨petRow quotedDecl, "'its',('", [], [], [], [], [], []⟩]
  views := []

theorem catalog_values_read_back_quoted :
    readScript (entryRow ⟨"'its',('", quotedDecl⟩) = some [.insert "meta_table"
      ["name", "description", "decl_module_name", "decl_name"]
      ["'its',('", "'); delete from meta_table;\n--''", "o'shop", "It''s"]] ∧
    ∃ script so written, catalogScript quotedStore quotedSchema = .ok script ∧
      describeAll quotedStore (entries quotedSchema) = .ok so ∧ so.Lists written ∧
      readScript script = some (catalogStatements quotedSchema written) := by
  obtain ⟨hentry, -, hscript⟩ := catalog_values_read_back quotedStore quotedSchema
  refine ⟨hentry ⟨"'its',('", quotedDecl⟩, ?_⟩
  have hok : (catalogScript quotedStore quotedSchema).isOk = true := by decide +kernel
  obtain ⟨script, h⟩ := Outcome.isOk_iff.mp hok
  obtain ⟨so, written, hread⟩ := hscript script h
  exact ⟨script, so, written, h, hread⟩

end SchemaCompiler.Ddl
