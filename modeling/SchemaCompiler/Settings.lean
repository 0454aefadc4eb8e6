import SchemaCompiler.Projection

/-!
# Settings

What a run of the compiler works on: the modules that seed it, the modules in focus, the wrappers
and the annotations that make aliases roots.  Settings are built by choices applied one after the
other; a choice that is refused changes nothing.
-/

namespace SchemaCompiler

structure Settings where
  /-- The directory for outputs. -/
  target : String
  /-- The comment at the top of source files. -/
  header : String
  /-- The modules that seed the graph; none stands for all. -/
  modules : List String
  /-- The modules in focus; none stands for all. -/
  focus : List String
  filter : Option (ScopedDecl → Bool)
  wrappers : Wrappers
  /-- The annotations under which aliases and new types are roots. -/
  tableKeys : List ScopedName
  verbose : Bool

def tableKey : ScopedName := ⟨"common.db", "DbTable"⟩
def viewKey : ScopedName := ⟨"common.db", "DbView"⟩

/-- A choice in the settings. -/
inductive Choice where
  | target (directory : String)
  | header (text : String)
  | modules (names : List String)
  | focus (names : List String)
  | filter (keep : ScopedDecl → Bool)
  | wrappers (wrappers : Wrappers)
  | referenceWrappers (names : List String)
  | tableKeys (keys : List ScopedName)
  | workers (count : Int)
  | noLogger
  | verbose (on : Bool)

namespace Settings

def standard : Settings where
  target := ""
  header := ""
  modules := []
  focus := []
  filter := none
  wrappers := .standard
  tableKeys := [tableKey, viewKey]
  verbose := false

def inModules (c : Settings) (moduleName : String) : Bool :=
  c.modules.isEmpty || c.modules.contains moduleName

def inFocus (c : Settings) (n : ScopedName) : Bool :=
  c.focus.isEmpty || c.focus.contains n.moduleName

/-- Whether a declaration seeds the graph. -/
def accepts (c : Settings) (d : ScopedDecl) : Bool :=
  c.inModules d.moduleName && c.inFocus d.name && (c.filter.map (· d)).getD true

/-- The qualified names of reference wrappers. -/
def qualified : List String → Outcome (List ScopedName)
  | [] => .ok []
  | text :: rest =>
    let n := ScopedName.parse text
    if n.moduleName = "" then
      .error (.config "ReferenceWrappers" (some text) "name must be qualified with its module")
    else
      match qualified rest with
      | .error failure => .error failure
      | .ok more => .ok (n :: more)

def apply (c : Settings) : Choice → Outcome Settings
  | .target directory =>
    if directory = "" then .error (.config "Target" none "target directory cannot be empty")
    else .ok { c with target := directory }
  | .header text => .ok { c with header := text }
  | .modules names =>
    if names.contains "" then .error (.config "Modules" none "module name cannot be empty")
    else .ok { c with modules := c.modules ++ names }
  | .focus names =>
    if names.contains "" then .error (.config "Focus" none "module name cannot be empty")
    else .ok { c with focus := c.focus ++ names }
  | .filter keep => .ok { c with filter := some keep }
  | .wrappers w =>
    if w.references.isEmpty then
      .error (.config "Wrappers" none "at least one reference wrapper is required")
    else .ok { c with wrappers := w }
  | .referenceWrappers names =>
    if names.isEmpty then
      .error (.config "ReferenceWrappers" none "at least one reference wrapper is required")
    else
      match qualified names with
      | .error failure => .error failure
      | .ok references => .ok { c with wrappers := { c.wrappers with references } }
  | .tableKeys keys => .ok { c with tableKeys := keys }
  | .workers count =>
    if count ≤ 0 then .error (.config "Workers" (some (toString count)) "workers must be positive")
    else .ok c
  | .noLogger => .error (.config "Logger" none "logger cannot be nil")
  | .verbose on => .ok { c with verbose := on }

/-- Applies choices up to the first that is refused. -/
def applyChoices (c : Settings) : List Choice → Settings × Option Failure
  | [] => (c, none)
  | choice :: rest =>
    match c.apply choice with
    | .error failure => (c, some failure)
    | .ok c => applyChoices c rest

/-- Applies all choices and collects the refusals. -/
def applyEach (c : Settings) : List Choice → Settings × List Failure
  | [] => (c, [])
  | choice :: rest =>
    match c.apply choice with
    | .error failure =>
      let (c, failures) := applyEach c rest
      (c, failure :: failures)
    | .ok c => applyEach c rest

def joinFailures : List Failure → Option Failure
  | [] => none
  | failures => some (.joined failures)

def ofChoices (choices : List Choice) : Outcome Settings :=
  match standard.applyChoices choices with
  | (c, none) => .ok c
  | (_, some failure) => .error failure

end Settings

end SchemaCompiler
