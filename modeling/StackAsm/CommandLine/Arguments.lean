/-
Command-line arguments. Switches have no value; settings have one, given
behind an equals sign, right behind a short name, or as the next
argument. All else names an input, and so does everything behind `--`.

A setting given as two arguments is only checked when the next argument
has been looked at, so an argument that makes no sense there is refused
first. Giving a switch or a setting twice is refused.
-/

namespace StackAsm.CommandLine

/-- Why a command line is not carried out: it is refused, or it asks for
help or for the version. -/
inductive Usage where
  | unknownArgument
  | invalidValue
  | missingInput
  | repeated
  | unneededValue
  | help
  | version
deriving DecidableEq, Repr

inductive Switch where
  | force
  | quiet
  | warningsAsErrors
  | verbose
  | inlining
  | omitDebugNames
  | unchecked
  | unguarded
  | help
  | version
deriving DecidableEq, Repr

inductive Setting where
  | output
  | stackCode
  | listing
  | format
  | errorFile
deriving DecidableEq, Repr

/-- The long names of switches. -/
def longSwitches : List (String × Switch) :=
  [("force", .force), ("quiet", .quiet), ("Werror", .warningsAsErrors), ("verbose", .verbose),
   ("inline", .inlining), ("omit-debug-info", .omitDebugNames),
   ("unsafe-codegen", .unchecked), ("allow-stack-overflow", .unguarded),
   ("help", .help), ("version", .version)]

def shortSwitches : List (Char × Switch) :=
  [('q', .quiet), ('v', .verbose), ('h', .help), ('V', .version)]

def longSettings : List (String × Setting) :=
  [("out", .output), ("emit-ir", .stackCode), ("list", .listing), ("format", .format),
   ("error", .errorFile)]

def shortSettings : List (Char × Setting) :=
  [('o', .output), ('l', .listing), ('E', .errorFile)]

-- ==== older spellings

/-- The present spelling of an argument. -/
def modernize (argument : String) : String :=
  if argument = "-out" then "--out"
  else if argument = "/?" then "--help"
  else if "-out=".toList.isPrefixOf argument.toList then "-" ++ argument
  else argument

-- ==== reading

/-- What was given so far. -/
structure Given where
  /-- Inputs, the last one first. -/
  inputs : List String := []
  switches : List Switch := []
  settings : List (Setting × String) := []
  /-- A setting whose value is still to come, or to be checked. -/
  waiting : Option (Setting × Option String) := none
deriving DecidableEq, Repr

/-- The values `--format` may have. -/
def formats : List String := ["text", "json"]

def Setting.admits (value : String) : Setting → Bool
  | .format => formats.contains value
  | _ => !value.isEmpty

namespace Given

def setting? (given : Given) (setting : Setting) : Option String := given.settings.lookup setting

/-- Record the value of a setting. -/
def set (given : Given) (setting : Setting) (value : String) : Except Usage Given :=
  if (given.setting? setting).isSome then .error .repeated
  else if setting.admits value then
    .ok { given with settings := given.settings ++ [(setting, value)] }
  else .error .invalidValue

/-- Check the setting that waits. -/
def settle (given : Given) : Except Usage Given :=
  let settled := { given with waiting := none }
  match given.waiting with
  | none => .ok settled
  | some (_, none) => .error .invalidValue
  | some (setting, some value) => settled.set setting value

def input (given : Given) (path : String) : Except Usage Given := do
  let given ← given.settle
  return { given with inputs := path :: given.inputs }

def switch (given : Given) (which : Switch) : Except Usage Given := do
  let given ← given.settle
  if which = .help then .error .help
  else if which = .version then .error .version
  else if given.switches.contains which then .error .repeated
  else return { given with switches := given.switches ++ [which] }

/-- Take a setting, with its value if that is part of the argument. -/
def start (given : Given) (setting : Setting) (value : Option String) : Except Usage Given := do
  let given ← given.settle
  match value with
  | some value => given.set setting value
  | none => return { given with waiting := some (setting, none) }

/-- An argument that starts with two dashes, given without them. -/
def long (given : Given) (text : List Char) : Except Usage Given :=
  let (name, rest) := text.span (· != '=')
  let value := rest.tail?.map String.ofList
  let name := String.ofList name
  match longSwitches.lookup name, longSettings.lookup name with
  | some which, _ => if value.isSome then .error .unneededValue else given.switch which
  | none, some setting => given.start setting value
  | none, none => .error .unknownArgument

/-- The value right behind a short name; an equals sign may stand between
them. -/
def attached : List Char → Option String
  | [] => none
  | '=' :: value => some (String.ofList value)
  | value => some (String.ofList value)

/-- Short names behind one dash. -/
def short (given : Given) : List Char → Except Usage Given
  | [] => .ok given
  | c :: rest =>
    match shortSwitches.lookup c, shortSettings.lookup c with
    | some which, _ => do (← given.switch which).short rest
    | none, some setting => given.start setting (attached rest)
    | none, none => .error .unknownArgument

/-- A text that is no option: the value that is waited for, or an
input. -/
def plain (given : Given) (text : String) : Except Usage Given :=
  match given.waiting with
  | some (setting, none) => .ok { given with waiting := some (setting, some text) }
  | _ => given.input text

def argument (given : Given) (text : String) : Except Usage Given :=
  match text.toList with
  | '-' :: '-' :: rest => given.long rest
  | '-' :: c :: rest => given.short (c :: rest)
  | _ => given.plain text

/-- Take all arguments. -/
def all (given : Given) : List String → Except Usage Given
  | [] => given.settle
  | "--" :: inputs => do (← inputs.foldlM input given).settle
  | text :: rest => do (← given.argument text).all rest

end Given

/-- Read the arguments behind the program's name; there must be an
input. -/
def read (arguments : List String) : Except Usage Given := do
  let given ← Given.all {} (arguments.map modernize)
  if given.inputs.isEmpty then .error .missingInput else return given

end StackAsm.CommandLine
