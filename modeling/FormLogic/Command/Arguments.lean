import FormLogic.Conversion.Options

/-!
The arguments of the command line. Options of the program stand before or after the command; a value
given after it counts. An option takes its value from the next argument, or behind `=`, or, in its
short form, directly behind its letter. Short flags may share one hyphen, and behind `--` every
argument is an operand. An option may be given once at each of the two places.
-/
namespace FormLogic.Command

open Text

inductive Flag where
  | verbose
  | strict
  | help
  | version
  deriving DecidableEq, Repr

inductive Setting where
  | format
  | output
  | color
  | config
  | quotePolicy
  | field
  | form
  | current
  deriving DecidableEq, Repr

inductive OptionKind where
  | flag (flag : Flag)
  | setting (setting : Setting)
  deriving DecidableEq, Repr

/-- Where an argument stands: before the command, or behind one of the two commands. -/
inductive Place where
  | program
  | expression
  | form
  deriving DecidableEq, Repr

/-- Options that are known at every place. -/
def commonOption? (name : Text) : Option OptionKind :=
  if name = "verbose".toList then some (.flag .verbose)
  else if name = "help".toList then some (.flag .help)
  else if name = "format".toList then some (.setting .format)
  else if name = "output".toList then some (.setting .output)
  else if name = "color".toList then some (.setting .color)
  else if name = "config".toList then some (.setting .config)
  else if name = "quote-policy".toList then some (.setting .quotePolicy)
  else none

/-- Options that are known at one place only. -/
def Place.ownOption? (place : Place) (name : Text) : Option OptionKind :=
  match place with
  | program => if name = "version".toList then some (.flag .version) else none
  | expression =>
    if name = "field".toList then some (.setting .field)
    else if name = "form".toList then some (.setting .form)
    else if name = "current".toList then some (.setting .current)
    else none
  | form => if name = "strict".toList then some (.flag .strict) else none

def Place.longOption? (place : Place) (name : Text) : Option OptionKind :=
  (commonOption? name).or (place.ownOption? name)

def Place.shortOption? (place : Place) (letter : Char) : Option OptionKind :=
  match place, letter with
  | _, 'v' => some (.flag .verbose)
  | _, 'h' => some (.flag .help)
  | _, 'f' => some (.setting .format)
  | _, 'o' => some (.setting .output)
  | _, 'c' => some (.setting .config)
  | _, 'q' => some (.setting .quotePolicy)
  | program, 'V' => some (.flag .version)
  | form, 's' => some (.flag .strict)
  | _, _ => none

/-- What was given at one place. -/
structure Given where
  verbose : Bool
  strict : Bool
  format : Option Text
  output : Option Text
  color : Option Text
  config : Option Text
  quotePolicy : Option QuotePolicy
  fields : List Text
  form : Option Text
  current : Option Text
  operand : Option Text
  deriving DecidableEq, Repr

def Given.nothing : Given :=
  ⟨false, false, none, none, none, none, none, [], none, none, none⟩

/-- Why reading the arguments ends early. -/
inductive Stop where
  | usage
  | help
  | version
  deriving DecidableEq, Repr

/-- Gives an option its value, unless it has one. -/
def setOnce (old : Option Text) (value : Text) : Except Stop (Option Text) :=
  if old.isSome then .error .usage else .ok (some value)

/-- Gives an option a file name, which must not be empty. -/
def setFile (old : Option Text) (value : Text) : Except Stop (Option Text) :=
  if value = [] then .error .usage else setOnce old value

namespace Given

def setFlag (g : Given) : Flag → Except Stop Given
  | .verbose => if g.verbose then .error .usage else .ok { g with verbose := true }
  | .strict => if g.strict then .error .usage else .ok { g with strict := true }
  | .help => .error .help
  | .version => .error .version

def setPolicy (g : Given) (value : Text) : Except Stop Given :=
  match QuotePolicy.parse value with
  | .ok policy =>
    if g.quotePolicy.isSome then .error .usage else .ok { g with quotePolicy := some policy }
  | .error _ => .error .usage

def set (g : Given) (setting : Setting) (value : Text) : Except Stop Given :=
  match setting with
  | .format => do return { g with format := ← setOnce g.format value }
  | .output => do return { g with output := ← setFile g.output value }
  | .color => do return { g with color := ← setOnce g.color value }
  | .config => do return { g with config := ← setFile g.config value }
  | .quotePolicy => g.setPolicy value
  | .field => .ok { g with fields := g.fields ++ [value] }
  | .form => do return { g with form := ← setFile g.form value }
  | .current => do return { g with current := ← setOnce g.current value }

/-- Takes an operand. Each command takes one; a form's file name must not be empty. -/
def setOperand (g : Given) (place : Place) (value : Text) : Except Stop Given :=
  match place with
  | .program => .error .usage
  | .expression => do return { g with operand := ← setOnce g.operand value }
  | .form => do return { g with operand := ← setFile g.operand value }

/-- Takes an option written with two hyphens. An option without its value waits for it. -/
def takeLong (g : Given) (place : Place) (argument : Text) : Except Stop (Given × Option Setting) :=
  let (name, attached) :=
    match cutAt? '=' argument with
    | some (name, value) => (name, some value)
    | none => (argument, none)
  match place.longOption? name, attached with
  | some (.flag flag), none => do return (← g.setFlag flag, none)
  | some (.setting setting), some value => do return (← g.set setting value, none)
  | some (.setting setting), none => .ok (g, some setting)
  | _, _ => .error .usage

/-- Takes options written as letters behind one hyphen. The letter of a setting is the last one;
what stands behind it is its value. -/
def takeShort (g : Given) (place : Place) : Text → Except Stop (Given × Option Setting)
  | [] => .ok (g, none)
  | letter :: rest =>
    match place.shortOption? letter with
    | none => .error .usage
    | some (.flag flag) => do (← g.setFlag flag).takeShort place rest
    | some (.setting setting) =>
      match rest with
      | [] => .ok (g, some setting)
      | '=' :: value => do return (← g.set setting value, none)
      | value => do return (← g.set setting value, none)

end Given

inductive Kind where
  | separator
  | long (body : Text)
  | short (letters : Text)
  | word
  deriving DecidableEq, Repr

/-- What an argument looks like. A single hyphen is a word. -/
def kindOf : Text → Kind
  | ['-', '-'] => .separator
  | '-' :: '-' :: body => .long body
  | '-' :: letter :: letters => .short (letter :: letters)
  | _ => .word

/-- Reads the arguments behind a command. `waiting` is a setting whose value comes next. -/
def readCommand (place : Place) (waiting : Option Setting) (g : Given) :
    List Text → Except Stop Given
  | [] => if waiting.isSome then .error .usage else .ok g
  | argument :: rest =>
    match kindOf argument, waiting with
    | .word, some setting => do readCommand place none (← g.set setting argument) rest
    | .word, none => do readCommand place none (← g.setOperand place argument) rest
    | _, some _ => .error .usage
    | .separator, none => rest.foldlM (fun g operand => g.setOperand place operand) g
    | .long body, none => do
      let (g, waiting) ← g.takeLong place body
      readCommand place waiting g rest
    | .short letters, none => do
      let (g, waiting) ← g.takeShort place letters
      readCommand place waiting g rest

def commandNames : List Text := ["expr".toList, "convert".toList, "help".toList]

/-- How the command `help` ends the reading. It takes nothing but the name of one command. -/
def stopAtHelp : List Text → Stop
  | [] => .help
  | [name] => if commandNames.contains name then .help else .usage
  | _ => .usage

/-- Reads all arguments: what was given before the command, the command, and what was given behind
it. -/
def readProgram (waiting : Option Setting) (g : Given) :
    List Text → Except Stop (Given × Place × Given)
  | [] => .error .usage
  | argument :: rest =>
    match kindOf argument, waiting with
    | .word, some setting => do readProgram none (← g.set setting argument) rest
    | .word, none =>
      if argument = "expr".toList then do
        return (g, .expression, ← readCommand .expression none .nothing rest)
      else if argument = "convert".toList then do
        return (g, .form, ← readCommand .form none .nothing rest)
      else if argument = "help".toList then .error (stopAtHelp rest)
      else .error .usage
    | _, some _ => .error .usage
    | .separator, none => .error .usage
    | .long body, none => do
      let (g, waiting) ← g.takeLong .program body
      readProgram waiting g rest
    | .short letters, none => do
      let (g, waiting) ← g.takeShort .program letters
      readProgram waiting g rest

/-- What the program is asked to do. -/
inductive Task where
  /-- Convert one expression; the fields are given one by one and by a form. -/
  | expression (source : Text) (fields : List Text) (form current : Option Text)
  /-- Convert all expressions of a form. -/
  | form (path : Text) (strict : Bool)
  deriving DecidableEq, Repr

structure Request where
  task : Task
  verbose : Bool
  format : Text
  color : Text
  output : Option Text
  config : Option Text
  quotePolicy : Option QuotePolicy
  deriving DecidableEq, Repr

def taskOf (place : Place) (g : Given) : Except Stop Task :=
  match place, g.operand with
  | .expression, some source => .ok (.expression source g.fields g.form g.current)
  | .form, some path => .ok (.form path g.strict)
  | _, _ => .error .usage

/-- The request that the arguments make. -/
def Request.ofArguments (arguments : List Text) : Except Stop Request := do
  let (before, place, behind) ← readProgram none .nothing arguments
  let task ← taskOf place behind
  return {
    task
    verbose := before.verbose || behind.verbose
    format := (behind.format.or before.format).getD "text".toList
    color := (behind.color.or before.color).getD "auto".toList
    output := behind.output.or before.output
    config := behind.config.or before.config
    quotePolicy := behind.quotePolicy.or before.quotePolicy }

end FormLogic.Command
