import SchemaCompiler.Relational.Schema

/-!
# Catalog scripts

The statements that describe a schema in tables of its own: one row for each table and view, and
one for each declaration that they depend on.
-/

namespace SchemaCompiler.Ddl

/-- A text literal: quotes inside are doubled. -/
def literal (text : String) : String :=
  "'" ++ Text.replaceChar '\'' "''" text ++ "'"

/-- The tables of the catalog, which are not described themselves. -/
def catalogTables : List String := ["meta_table", "meta_adl_decl"]

/-- A table or view and its declaration. -/
structure Entry where
  name : String
  decl : ScopedDecl

def entries (s : Schema) : List Entry :=
  ((s.tables.filter fun t => !catalogTables.contains t.name).map fun t => ⟨t.name, t.decl.decl⟩)
    ++ s.views.map fun v => ⟨v.name, v.decl.decl⟩

def entryRow (e : Entry) : String :=
  let description := (e.decl.decl.annotations.text? Relational.docKey).getD ""
  "insert into meta_table(name,description,decl_module_name, decl_name) values ("
    ++ literal e.name ++ "," ++ literal description ++ "," ++ literal e.decl.moduleName ++ ","
    ++ literal e.decl.decl.name ++ ");\n"

def declRow (d : ScopedDecl) (encoded : String) : String :=
  "insert into meta_adl_decl(module_name,name,decl) values (" ++ literal d.moduleName ++ ","
    ++ literal d.decl.name ++ ", " ++ literal encoded ++ ");\n"

/-- The declarations described so far and their rows. -/
structure Described where
  done : List ScopedName
  rows : List String

abbrev Describe := ScopedDecl → Described → Outcome Described

mutual

/-- Describes every declaration inside a type, outermost first. -/
def describeType (store : Store) (describe : Describe) : TypeExpr → Described → Outcome Described
  | .missing, so => .ok so
  | .app (.reference n) args, so =>
    match store.resolve n with
    | .error failure => .error failure
    | .ok d =>
      match describe d so with
      | .error failure => .error failure
      | .ok so => describeTypes store describe args so
  | .app _ args, so => describeTypes store describe args so

def describeTypes (store : Store) (describe : Describe) :
    List TypeExpr → Described → Outcome Described
  | [], so => .ok so
  | t :: rest, so =>
    match describeType store describe t so with
    | .error failure => .error failure
    | .ok so => describeTypes store describe rest so

end

def bodyTypes (d : Declaration) : List TypeExpr :=
  match d.body.target? with
  | some t => [t]
  | none => d.fields.map (·.typeExpr)

/-- Describes a declaration and all it depends on, each once.  No declaration is entered twice,
so one step of the budget for each name suffices. -/
def describe (store : Store) : (budget : Nat) → Describe
  | 0, _, so => .ok so
  | budget + 1, d, so =>
    if so.done.contains d.name then .ok so
    else
      match d.decl.toJson.bind Json.encode with
      | .error failure => .error (.context ("encode " ++ d.name.text) failure)
      | .ok encoded =>
        describeTypes store (describe store budget) (bodyTypes d.decl)
          ⟨d.name :: so.done, so.rows ++ [declRow d encoded]⟩

def describeAll (store : Store) (entries : List Entry) : Outcome Described :=
  entries.foldlM (fun so e => describe store (store.keys.length + 2) e.decl so) ⟨[], []⟩

def catalogScript (store : Store) (s : Schema) : Outcome String := do
  let described ← describeAll store (entries s)
  return "delete from meta_table;\n" ++ String.join ((entries s).map entryRow)
    ++ "\ndelete from meta_adl_decl;\n" ++ String.join described.rows

end SchemaCompiler.Ddl
