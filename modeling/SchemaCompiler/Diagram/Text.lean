import SchemaCompiler.Diagram.Class
import SchemaCompiler.Output.Target

/-!
# The text of a class diagram

A diagram is a list of lines: classes, arrows, members, bare classes outside the focus and the
grouping of classes by module.
-/

namespace SchemaCompiler.ClassDiagram

open Diagram

inductive Line where
  | blank
  | header (modules : List String)
  | opening
  | direction (name : String)
  | class' (name label : String)
  | stereotype (name kind : String)
  | arrow (source : String) (style : ArrowStyle) (target field cardinality : String)
  | member (name field cardinality : String)
  | group (name : String)
  | grouped (indent name : String)
  | groupEnd
  deriving DecidableEq, Repr

def Line.text : Line → String
  | blank => ""
  | header modules => "    %% Auto-generated from adl modules: " ++ Text.joinWith " " modules
  | opening => "classDiagram"
  | direction name => "    direction " ++ name ++ ";"
  | class' name label => "    class " ++ name ++ "[\"" ++ label ++ "\"]"
  | stereotype name kind => "    <<" ++ kind ++ ">> " ++ name
  | arrow source style target field cardinality =>
    "    " ++ source ++ " " ++ style.text ++ " " ++ target ++ " : " ++ field ++ cardinality
  | member name field cardinality => "    " ++ name ++ " : " ++ field ++ cardinality
  | group name => "    namespace " ++ name ++ " \x7b"
  | grouped indent name => indent ++ "class " ++ name
  | groupEnd => "    \x7d"

/-- A module name as part of an identifier. -/
def flat (moduleName : String) : String := Text.replaceChar '.' "_" moduleName

/-- The identifier of a declaration. -/
def identifier (n : ScopedName) : String := flat n.moduleName ++ "_" ++ n.name

/-- The identifier of a class, which another class may stand for. -/
def className (d : ScopedDecl) : String :=
  match d.decl.annotations.text? representedByKey with
  | some other => if other = "" then identifier d.name else flat d.moduleName ++ "_" ++ other
  | none => identifier d.name

def classLines (d : ScopedDecl) : List Line :=
  [.class' (className d) d.decl.name]
    ++ (if d.decl.kind = .union then
        [.stereotype (className d) (if d.decl.isEnum then "enum" else "union")]
      else [])

def arrowLine (a : Arrow) : Line :=
  .arrow (className a.source) a.style (identifier a.target) a.field a.cardinality

/-- A field is a member unless it has an arrow or is not shown. -/
def isMember (c : ClassDiagram) (d : ScopedDecl) (f : Field) : Bool :=
  !(c.arrows.any fun a => a.source.name = d.name && a.field = f.name)
    && !f.annotations.has hiddenKey && !f.annotations.has embedKey

def memberLines (c : ClassDiagram) (d : ScopedDecl) (fields : List Field) : List Line :=
  (fields.filter (c.isMember d)).map fun f =>
    .member (className d) f.name (c.cardinality f.typeExpr)

def outsideLines (c : ClassDiagram) : List Line :=
  if c.outside.isEmpty then []
  else
    c.outside.map (fun n => Line.class' (identifier n)
      (Text.lastOf (Text.splitOn '.' n.moduleName) ++ "." ++ n.name))
      ++ [.group "_out_"] ++ c.outside.map (fun n => Line.grouped "    " (identifier n))
      ++ [.groupEnd]

/-- The classes of a module that stand for themselves. -/
def groupLines (c : ClassDiagram) (moduleName : String) : List Line :=
  [.group (flat moduleName)]
    ++ ((c.decls.filter fun d =>
        d.moduleName = moduleName && !isHidden d
          && !d.decl.annotations.has representedByKey).map
      fun d => Line.grouped "        " (className d))
    ++ [.groupEnd]

def lines (c : ClassDiagram) : List Line :=
  [.header c.modules, .opening, .direction c.direction, .blank]
    ++ c.drawn.flatMap (fun (d, _) => classLines d) ++ [.blank]
    ++ c.arrows.map arrowLine ++ [.blank]
    ++ c.drawn.flatMap (fun (d, fields) => c.memberLines d fields) ++ [.blank]
    ++ c.outsideLines ++ c.focus.flatMap c.groupLines

def text (c : ClassDiagram) : String :=
  String.join (c.lines.map fun l => l.text ++ "\n")

end SchemaCompiler.ClassDiagram

/-!
## Diagram files

The class diagram of a graph as a file.
-/

namespace SchemaCompiler.DiagramFile

structure Options where
  file : String

def standard : Options := ⟨"classdiagram.mmd"⟩

def withFile (o : Options) (file : String) : Outcome Options :=
  if file = "" then .error (.config "File" (some "") "file name cannot be empty")
  else .ok { o with file }

def target (o : Options) : Target where
  name := "mermaid"
  render g _ shapes :=
    let (logs, diagram) := ClassDiagram.build g
    ⟨shapes, logs, diagram.map fun c => [⟨o.file, .text c.text⟩]⟩

end SchemaCompiler.DiagramFile
