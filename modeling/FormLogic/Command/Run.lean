import FormLogic.Command.Arguments
import FormLogic.Command.Failure
import FormLogic.Command.Terminal
import FormLogic.Form.Jobs
import FormLogic.Form.Table

/-!
Carrying out a request. Files are reached through two operations that the caller supplies;
everything else, down to the exit code and the lines of both streams, is computed here.
-/
namespace FormLogic.Command

open Text Conversion

/-- Access to files in some monad. Writing replaces what a file held. -/
structure Files (m : Type → Type) where
  read : Text → m (Except FileError Text)
  write : Text → Text → m (Except FileError Unit)

/-- What a run leaves behind besides files. -/
structure Result where
  code : Nat
  stdout : Text
  stderr : List Text
  deriving DecidableEq, Repr

section

variable {m : Type → Type} [Monad m] (files : Files m)

/-- A file parsed as something whose problems are noted with the file's name. -/
def readParsed {α : Type} (path : Text) (parse : Text → Except Problem α) :
    ExceptT Problem m α := do
  match ← files.read path with
  | .error e => throw (e.toProblem path)
  | .ok text =>
    match parse text with
    | .error problem => throw (problem.withContext path)
    | .ok value => return value

/-- The registry of a list of declarations in a file. -/
def readRegistry (path : Text) : ExceptT Problem m Field.Registry := do
  match ← files.read path with
  | .error e => throw (e.toProblem path)
  | .ok text => ExceptT.mk (pure (Field.Registry.parse text))

/-- The options of a file, if one is given, overridden by those given one by one. -/
def loadOptions (config : Option Text) (policy : Option QuotePolicy) (current : Option Text) :
    ExceptT Failure m Options := do
  let options ←
    match config with
    | some path => (readParsed files path Options.parse).adapt (Failure.options path)
    | none => pure .default
  return ⟨policy.getD options.quotePolicy, current.or options.currentField⟩

/-- Declares a field written as a path, or as path and identifier with `=` between them. -/
def declareField (r : Field.Registry) (field : Text) : Except Problem Field.Registry :=
  let (declared, r) :=
    match cutAt? '=' field with
    | some (path, identifier) => r.register (trim path) (trim identifier)
    | none => r.registerDerived (trim field)
  match declared with
  | .ok _ => .ok r
  | .error e => .error (.ofRegistryError e)

def declareFields (r : Field.Registry) (fields : List Text) : Except Failure Field.Registry :=
  fields.foldlM (fun r field => (declareField r field).mapError (Failure.declaration field)) r

/-- The registry of the form in a file. -/
def readFormRegistry (path : Text) : ExceptT Problem m Field.Registry := do
  let form ← readParsed files path Form.parse
  ExceptT.mk (pure form.registry)

/-- The registry of a form, if one is given, with further fields. -/
def buildRegistry (form : Option Text) (fields : List Text) :
    ExceptT Failure m Field.Registry := do
  let registry ←
    match form with
    | some path => (readFormRegistry files path).adapt (Failure.form path)
    | none => pure .empty
  ExceptT.mk (pure (declareFields registry fields))

/-- A run that ends with a failure. -/
def failed (colored : Bool) (notes : List Text) (failure : Failure) : Result :=
  ⟨1, [], notes ++ [errorLine colored failure.message]⟩

/-- Writes the outcome to the output file or else to standard output, and gives the notes that were
made up to then. -/
def deliver (colored : Bool) (notes : List Text) (output : Option Text) (text : Text) :
    m (Except Failure Result) := do
  match output with
  | none => return .ok ⟨0, text ++ ['\n'], notes⟩
  | some path =>
    match ← files.write path text with
    | .error e => return .error (.outputFile path e)
    | .ok () =>
      return .ok ⟨0, [], notes ++ [successLine colored ("Output written to ".toList ++ path)]⟩

/-- Converts one expression. -/
def runExpression (colored : Bool) (format : OutputFormat) (request : Request) (source : Text)
    (fields : List Text) (form current : Option Text) : m Result := do
  let prepared : Except Failure Converted ← (do
    let options ← loadOptions files request.config request.quotePolicy current
    let registry ← buildRegistry files form fields
    ExceptT.mk (pure (((⟨registry, .builtin, options⟩ : Converter).convert source).mapError
      Failure.conversion)) : ExceptT Failure m Converted).run
  match prepared with
  | .error failure => return failed colored [] failure
  | .ok converted =>
    let notes := converted.diagnostics.map (diagnosticLines colored "expression".toList)
    match ← deliver files colored notes request.output (converted.render format) with
    | .error failure => return failed colored notes failure
    | .ok result => return result

/-- Whether a diagnostic is shown: warnings are, the rest only to users who want to know more. -/
def isShown (verbose : Bool) (d : Diagnostic) : Bool := d.severity != .info || verbose

def rowNotes (colored verbose : Bool) (row : Form.Row) : List Text :=
  (row.diagnostics.filter (isShown verbose)).map
    (diagnosticLines colored (row.field ++ '/' :: row.column.name))

def countWarnings (rows : List Form.Row) : Nat :=
  (rows.flatMap Form.Row.diagnostics).countP (·.severity != .info)

/-- The end of a run over a form's expressions that were delivered. -/
def concludeForm (colored verbose strict : Bool) (rows : List Form.Row) (result : Result) :
    Result :=
  let warnings := countWarnings rows
  if warnings > 0 then
    if strict then
      { result with
        code := 1
        stderr := result.stderr ++
          [errorLine colored (Failure.warnings rows.length warnings).message] }
    else
      { result with
        stderr := result.stderr ++ [warningLine colored (warningCount rows.length warnings)] }
  else if verbose then
    { result with
      stderr := result.stderr ++
        [successLine colored (Text.ofNat rows.length ++ " expressions converted".toList)] }
  else result

/-- Converts all expressions of a form. -/
def runForm (colored : Bool) (format : OutputFormat) (request : Request) (path : Text)
    (strict : Bool) : m Result := do
  let prepared : Except Failure (List Form.Row) ← (do
    let options ← loadOptions files request.config request.quotePolicy none
    let form ← (readParsed files path Form.parse).adapt (Failure.form path)
    let registry ← ExceptT.mk (pure (form.registry.mapError (Failure.formFields path)))
    ExceptT.mk (pure ((form.convert registry options).mapError Failure.conversion))
      : ExceptT Failure m (List Form.Row)).run
  match prepared with
  | .error failure => return failed colored [] failure
  | .ok rows =>
    let notes := rows.flatMap (rowNotes colored request.verbose)
    match ← deliver files colored notes request.output (Form.renderRows format rows) with
    | .error failure => return failed colored notes failure
    | .ok result => return concludeForm colored request.verbose strict rows result

/-- Carries out a request. `terminal` says whether messages go to a terminal. -/
def run (terminal : Bool) (request : Request) : m Result := do
  let colored := isColored request.color terminal
  match OutputFormat.parse request.format with
  | .error name => return failed colored [] (.unknownFormat name)
  | .ok format =>
    match request.task with
    | .expression source fields form current =>
      runExpression files colored format request source fields form current
    | .form path strict => runForm files colored format request path strict

def versionLine : Text := "formscript 0.1.0".toList

/-- Reads the arguments and carries out what they ask for. -/
def runArguments (terminal : Bool) (arguments : List Text) : m Result :=
  match Request.ofArguments arguments with
  | .ok request => run files terminal request
  | .error .version => pure ⟨0, versionLine ++ ['\n'], []⟩
  | .error .help => pure ⟨0, [], []⟩
  | .error .usage => pure ⟨2, [], []⟩

end

end FormLogic.Command
