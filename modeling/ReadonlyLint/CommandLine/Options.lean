/-!
The command line as data: a command with its options, read from words. Options may stand before or
after the path; a long option takes its value after `=` or in the next word, a short one right after
its letter, after `=` or in the next word; flags may share a dash; after `--` every word is a path.
A value in the next word is looked at only when the next option or path, or the end, settles it.
-/
namespace ReadonlyLint.CommandLine

/-- The form of a report. -/
inductive Format where
  | terminal
  | json
  deriving DecidableEq, Inhabited

def Format.ofName? (name : String) : Option Format :=
  if name = "terminal" then some .terminal else if name = "json" then some .json else none

/-- What to analyze, and how to report it. -/
structure AnalyzeCommand where
  path : String
  format : Format := .terminal
  /-- The file that the report goes to. -/
  output : Option String := none
  /-- The file that holds the settings. -/
  settings : Option String := none
  explain : Bool := false
  jobs : Nat := 0
  noParallel : Bool := false
  verbosity : Nat := 0
  deriving DecidableEq, Inhabited

/-- What to fix. -/
structure FixCommand where
  path : String
  dryRun : Bool := false
  /-- The file that holds the settings. -/
  settings : Option String := none
  verbosity : Nat := 0
  deriving DecidableEq, Inhabited

/-- A command with its options. -/
inductive Command where
  | analyze (command : AnalyzeCommand)
  | fix (command : FixCommand)
  /-- Writes default settings, over old ones if forced. -/
  | init (force : Bool)
  deriving DecidableEq, Inhabited

/-- Why words are no command. The last two ask for information instead. -/
inductive UsageError where
  | invalidValue
  | valueValidation
  | argumentConflict
  | tooManyValues
  | unknownArgument
  | missingRequiredArgument
  | invalidSubcommand
  | displayHelpOnMissing
  | displayHelp
  | displayVersion
  deriving DecidableEq, Inhabited

/-! ## Options -/

/-- What a command can be given. -/
inductive Parameter where
  | path
  | format
  | output
  | settings
  | explain
  | jobs
  | noParallel
  | verbose
  | dryRun
  | force
  | help
  | version
  deriving DecidableEq, Inhabited

namespace Parameter

/-- The name after two dashes. -/
def long : Parameter → String
  | .path => ""
  | .format => "format"
  | .output => "output"
  | .settings => "config"
  | .explain => "explain"
  | .jobs => "jobs"
  | .noParallel => "no-parallel"
  | .verbose => "verbose"
  | .dryRun => "dry-run"
  | .force => "force"
  | .help => "help"
  | .version => "version"

/-- The letter after one dash. -/
def short? : Parameter → Option Char
  | .format | .force => some 'f'
  | .output => some 'o'
  | .settings => some 'c'
  | .jobs => some 'j'
  | .verbose => some 'v'
  | .help => some 'h'
  | .version => some 'V'
  | .path | .explain | .noParallel | .dryRun => none

def takesValue : Parameter → Bool
  | .path | .format | .output | .settings | .jobs => true
  | _ => false

end Parameter

/-- The commands by name. -/
inductive Subcommand where
  | analyze
  | fix
  | init
  deriving DecidableEq, Inhabited

namespace Subcommand

def ofName? (name : String) : Option Subcommand :=
  if name = "analyze" then some .analyze
  else if name = "fix" then some .fix
  else if name = "init" then some .init
  else none

/-- The options of a command. -/
def options : Subcommand → List Parameter
  | .analyze => [.format, .output, .settings, .explain, .jobs, .noParallel, .verbose, .help]
  | .fix => [.dryRun, .settings, .verbose, .help]
  | .init => [.force, .help]

def takesPath : Subcommand → Bool
  | .analyze | .fix => true
  | .init => false

end Subcommand

/-! ## Values -/

/-- A whole number of 64 bits, with or without a plus sign. -/
def number? (text : String) : Option Nat :=
  let digits := match text.toList with
    | '+' :: digits => digits
    | digits => digits
  if digits.isEmpty || !digits.all (·.isDigit) then none
  else
    let n := digits.foldl (fun n c => n * 10 + (c.toNat - '0'.toNat)) 0
    if n < UInt64.size then some n else none

/-- Checks the value of a parameter. -/
def checkValue (parameter : Parameter) (value : String) : Except UsageError Unit :=
  match parameter with
  | .path | .output | .settings => if value = "" then .error .invalidValue else .ok ()
  | .format => if (Format.ofName? value).isSome then .ok () else .error .invalidValue
  | .jobs => if (number? value).isSome then .ok () else .error .valueValidation
  | _ => .ok ()

/-! ## Reading words -/

/-- What has been read of a command. -/
structure Reading where
  /-- The parameters with a value or set, with their values. -/
  given : List (Parameter × String) := []
  verbosity : Nat := 0
  /-- A parameter whose value, if it has one yet, is not looked at so far. -/
  pending : Option (Parameter × Option String) := none
  /-- The path has been read, looked at or not. -/
  pathSeen : Bool := false
  /-- A `--` has been read. -/
  onlyPaths : Bool := false
  deriving DecidableEq, Inhabited

namespace Reading

/-- Gives a parameter its value; it can be given only once. -/
def give (r : Reading) (parameter : Parameter) (value : String) : Except UsageError Reading := do
  if (r.given.lookup parameter).isSome then throw .argumentConflict
  checkValue parameter value
  return { r with given := r.given ++ [(parameter, value)] }

/-- Looks at the pending value. -/
def settle (r : Reading) : Except UsageError Reading :=
  match r.pending with
  | none => .ok r
  | some (_, none) => .error .invalidValue
  | some (parameter, some value) => { r with pending := none }.give parameter value

/-- Takes an option without a value. -/
def flag (r : Reading) (parameter : Parameter) : Except UsageError Reading := do
  let r ← r.settle
  match parameter with
  | .help => throw .displayHelp
  | .version => throw .displayVersion
  | .verbose => return { r with verbosity := min (r.verbosity + 1) 255 }
  | _ => r.give parameter ""

/-- Takes an option with a value: one that stands with it is looked at at once. -/
def option (r : Reading) (parameter : Parameter) (value : Option String) :
    Except UsageError Reading := do
  let r ← r.settle
  match value with
  | some value => r.give parameter value
  | none => return { r with pending := some (parameter, none) }

/-- Takes a long option, given without its dashes. -/
def long (r : Reading) (options : List Parameter) (word : List Char) : Except UsageError Reading :=
  let name := String.ofList (word.takeWhile (· ≠ '='))
  let value := match word.dropWhile (· ≠ '=') with
    | [] => none
    | _ :: value => some (String.ofList value)
  match options.find? (·.long = name) with
  | none => .error .unknownArgument
  | some parameter =>
    if parameter.takesValue then r.option parameter value
    else if value.isSome then .error .tooManyValues
    else r.flag parameter

/-- Takes the letters after one dash. The first that takes a value has the rest for it. -/
def short (r : Reading) (options : List Parameter) : List Char → Except UsageError Reading
  | [] => .ok r
  | letter :: rest =>
    match options.find? (·.short? = some letter) with
    | none => .error .unknownArgument
    | some parameter =>
      if parameter.takesValue then
        r.option parameter (match rest with
          | [] => none
          | '=' :: value => some (String.ofList value)
          | value => some (String.ofList value))
      else do (← r.flag parameter).short options rest

/-- Takes a word that is a path. -/
def path (r : Reading) (takesPath : Bool) (word : String) : Except UsageError Reading := do
  if !takesPath || r.pathSeen then throw .unknownArgument
  let r ← r.settle
  return { r with pathSeen := true, pending := some (.path, some word) }

/-- Takes a word of a command. -/
def word (r : Reading) (command : Subcommand) (word : String) : Except UsageError Reading :=
  if r.onlyPaths then r.path command.takesPath word
  else
    match word.toList with
    | ['-', '-'] => .ok { r with onlyPaths := true }
    | '-' :: '-' :: rest => r.long command.options rest
    | '-' :: letter :: rest => r.short command.options (letter :: rest)
    | _ =>
      match r.pending with
      | some (parameter, none) => .ok { r with pending := some (parameter, some word) }
      | _ => r.path command.takesPath word

/-- The value of a parameter, if it was given. -/
def value? (r : Reading) (parameter : Parameter) : Option String := r.given.lookup parameter

def has (r : Reading) (parameter : Parameter) : Bool := (r.value? parameter).isSome

/-- The command that was read. -/
def command (r : Reading) (sub : Subcommand) : Except UsageError Command :=
  match sub, r.value? .path with
  | .init, _ => .ok (.init (r.has .force))
  | _, none => .error .missingRequiredArgument
  | .analyze, some path =>
    .ok (.analyze
      { path
        format := ((r.value? .format).bind Format.ofName?).getD .terminal
        output := r.value? .output
        settings := r.value? .settings
        explain := r.has .explain
        jobs := ((r.value? .jobs).bind number?).getD 0
        noParallel := r.has .noParallel
        verbosity := r.verbosity })
  | .fix, some path =>
    .ok (.fix
      { path
        dryRun := r.has .dryRun
        settings := r.value? .settings
        verbosity := r.verbosity })

end Reading

/-! ## Commands -/

/-- The command that the words after its name describe. -/
def ofWords (sub : Subcommand) (words : List String) : Except UsageError Command := do
  let r : Reading ← words.foldlM (fun r word => Reading.word r sub word) {}
  (← r.settle).command sub

/-- What `help` shows for the words after it. -/
def helpFor : List String → UsageError
  | [] => .displayHelp
  | [name] => if name = "help" || (Subcommand.ofName? name).isSome then .displayHelp
    else .invalidSubcommand
  | _ => .invalidSubcommand

/-- The options before a command, each of which ends the reading. -/
def outerOptions : List Parameter := [.help, .version]

/-- Why the words after a `--` are no command. -/
def afterDashes : List String → UsageError
  | [] => .displayHelpOnMissing
  | word :: _ =>
    if word = "help" || (Subcommand.ofName? word).isSome then .unknownArgument
    else .invalidSubcommand

/-- The command that the words after the program's name describe. -/
def parse : List String → Except UsageError Command
  | [] => .error .displayHelpOnMissing
  | word :: words =>
    match Subcommand.ofName? word with
    | some sub => ofWords sub words
    | none =>
      if word = "help" then .error (helpFor words)
      else
        match word.toList with
        | ['-', '-'] => .error (afterDashes words)
        | '-' :: '-' :: rest =>
          (Reading.long {} outerOptions rest).bind fun _ => .error .displayHelpOnMissing
        | '-' :: letter :: rest =>
          (Reading.short {} outerOptions (letter :: rest)).bind fun _ =>
            .error .displayHelpOnMissing
        | _ => .error .invalidSubcommand

/-! ## What options mean -/

/-- How much is logged. -/
def logLevel (verbosity : Nat) : String :=
  match verbosity with
  | 0 => "WARN"
  | 1 => "INFO"
  | 2 => "DEBUG"
  | _ => "TRACE"

/-- The number of workers that a number of jobs asks for; no jobs leave it to the machine. -/
def workers? (jobs : Nat) : Option Nat := if jobs = 0 then none else some jobs

/-- How often the command asks for more to be logged. -/
def Command.verbosity : Command → Nat
  | .analyze command => command.verbosity
  | .fix command => command.verbosity
  | .init _ => 0

end ReadonlyLint.CommandLine
