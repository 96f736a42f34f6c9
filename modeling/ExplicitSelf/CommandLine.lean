import ExplicitSelf.Lint.Prepare

/-!
# The command line

`CommandLine.parse` reads the arguments of the program from left to right. An option takes its value
from the same argument, after an equals sign, or from the next one, unless that is an option itself.
No option may be given twice, and there is at most one argument without a name: the log. The first
thing that is wrong ends the reading, and so does a request for the version or for help.

`CommandLine.execute` carries out what the arguments say.
-/
namespace ExplicitSelf.CommandLine

def version : String := "selfish 0.1.0"

inductive Format where
  | text
  | json
  deriving DecidableEq, Repr

structure Arguments where
  options : Lint.Options
  level : Level := .warn
  format : Format := .text

/-- How a reading of arguments ends. -/
inductive Parsed where
  /-- The arguments are wrong. -/
  | usage
  | version
  | help
  | run (arguments : Arguments)

/-! ## Values -/

/-- A number of 64 bits, with a plus sign or without. -/
def natural? (s : String) : Option Nat :=
  let ds := match s.toList with
    | '+' :: r => r
    | r => r
  (Text.number? 10 ds).filter (· < UInt64.size)

def path? (s : String) : Option Path :=
  if s.isEmpty then none else some s

def level? (s : String) : Option Level :=
  match s with
  | "trace" => some .trace
  | "debug" => some .debug
  | "info" => some .info
  | "warn" => some .warn
  | "error" => some .error
  | _ => none

def format? (s : String) : Option Format :=
  match s with
  | "text" => some .text
  | "json" => some .json
  | _ => none

/-! ## Options -/

/-- The arguments read so far: each option at most once. -/
structure Seen where
  log : Option Path := none
  path : Option Path := none
  overwrite : Bool := false
  jobs : Option Nat := none
  config : Option Path := none
  sourcekitten : Option Path := none
  timeout : Option Nat := none
  level : Option Level := none
  format : Option Format := none

/-- Fills in what was not given. -/
def Seen.arguments (s : Seen) : Arguments where
  options :=
    { log := s.log
      path := s.path.getD "."
      overwrite := s.overwrite
      jobs := s.jobs
      config := s.config
      sourcekitten := s.sourcekitten
      timeout := s.timeout }
  level := s.level.getD .warn
  format := s.format.getD .text

def valueOptions : List String :=
  ["path", "jobs", "config", "sourcekitten", "timeout", "log-level", "log-format"]

/-- A value that was not given before. -/
def once {α β : Type} (before : Option α) (value : Option α) (put : Option α → β) : Option β :=
  match before, value with
  | none, some v => some (put (some v))
  | _, _ => none

/-- Takes the value of an option. -/
def Seen.take (s : Seen) (name value : String) : Option Seen :=
  match name with
  | "path" => once s.path (path? value) fun v => { s with path := v }
  | "jobs" => once s.jobs (natural? value) fun v => { s with jobs := v }
  | "config" => once s.config (path? value) fun v => { s with config := v }
  | "sourcekitten" => once s.sourcekitten (path? value) fun v => { s with sourcekitten := v }
  | "timeout" => once s.timeout (natural? value) fun v => { s with timeout := v }
  | "log-level" => once s.level (level? value) fun v => { s with level := v }
  | "log-format" => once s.format (format? value) fun v => { s with format := v }
  | _ => none

def Seen.takeLog (s : Seen) (value : String) : Option Seen :=
  once s.log (path? value) fun v => { s with log := v }

/-- Reads arguments after which only the log can come. -/
def parseRest : Seen → List String → Parsed
  | s, [] => .run s.arguments
  | s, a :: as =>
    match s.takeLog a with
    | some s => parseRest s as
    | none => .usage

def isOption (a : String) : Bool :=
  match a.toList with
  | '-' :: _ :: _ => true
  | _ => false

def parseFrom : Seen → List String → Parsed
  | s, [] => .run s.arguments
  | s, a :: as =>
    match a.toList with
    | ['-', '-'] => parseRest s as
    | '-' :: '-' :: cs =>
      let name := String.ofList (cs.takeWhile (· ≠ '='))
      match cs.dropWhile (· ≠ '=') with
      | _ :: value =>
        match s.take name (.ofList value) with
        | some s => parseFrom s as
        | none => .usage
      | [] =>
        if name = "version" then .version
        else if name = "help" then .help
        else if name = "overwrite" then
          if s.overwrite then .usage else parseFrom { s with overwrite := true } as
        else if valueOptions.contains name then
          match as with
          | [] => .usage
          | v :: as =>
            if isOption v then .usage
            else
              match s.take name v with
              | some s => parseFrom s as
              | none => .usage
        else .usage
    | '-' :: 'v' :: _ => .version
    | '-' :: 'h' :: _ => .help
    | '-' :: _ :: _ => .usage
    | _ =>
      match s.takeLog a with
      | some s => parseFrom s as
      | none => .usage

def parse (arguments : List String) : Parsed := parseFrom {} arguments

/-! ## Writing records -/

def escapeChar (c : Char) : List Char :=
  match c with
  | '"' => ['\\', '"']
  | '\\' => ['\\', '\\']
  | '\n' => ['\\', 'n']
  | '\r' => ['\\', 'r']
  | '\t' => ['\\', 't']
  | '\x08' => ['\\', 'b']
  | '\x0c' => ['\\', 'f']
  | c =>
    let n := c.toNat
    if n < 32 then ['\\', 'u', '0', '0', Digest.hexDigit (n / 16), Digest.hexDigit (n % 16)]
    else [c]

def quoted (s : String) : String :=
  .ofList ('"' :: s.toList.flatMap escapeChar ++ ['"'])

def Format.line (f : Format) (r : Record) : String :=
  match f with
  | .text => s!"{r.level.name} {r.message}"
  | .json =>
    "\x7b\"level\":" ++ quoted r.level.name ++ ",\"fields\":\x7b\"message\":" ++ quoted r.message
      ++ "\x7d\x7d"

/-! ## Carrying out -/

/-- What the program does: its exit code, the lines that it prints, the report after them, the
records that it shows, the failure that ends it, and the files after it. -/
structure Execution where
  exit : Nat
  output : List String := []
  report : List Lint.Block := []
  records : List Record := []
  format : Format := .text
  failure : Option String := none
  tree : FileTree
  queries : List Service.Query := []
  /-- The service that was asked. -/
  service : Option Service.SourceKitten := none

/-- Carries out the arguments of the program. mirrors `main` -/
def execute (launch : Service.Launcher) (t : FileTree) (env : Lint.Environment)
    (arguments : List String) : Execution :=
  match parse arguments with
  | .usage => { exit := 2, tree := t }
  | .version => { exit := 0, output := [version], tree := t }
  | .help => { exit := 0, tree := t }
  | .run a =>
    let f := Lint.run launch t env a.options
    let ending : Nat × Option String × List Record :=
      match f.result with
      | .ok summary => (summary.exitCode a.options.mode, none, [])
      | .error e => (e.exitCode, some s!"selfish: {e.message}", [⟨.error, e.message⟩])
    { exit := ending.1
      report := f.report
      records := (f.records ++ ending.2.2).filter (·.isShown a.level)
      format := a.format
      failure := ending.2.1
      tree := f.tree
      queries := f.queries
      service := f.program }

def Execution.printed (e : Execution) : List String :=
  e.output ++ e.report.flatMap (·.lines)

/-- The lines that the program writes beside its output: the records, and the failure. -/
def Execution.told (e : Execution) : List String :=
  e.records.map e.format.line ++ e.failure.toList

/-- The files that have a new content, with it. -/
def Execution.changed (e : Execution) (before : FileTree) : List (Place × Text.Octets) :=
  e.tree.entries.filterMap fun
    | (place, .file content mode time) =>
      if before.entryAt? place = some (.file content mode time) then none else some (place, content)
    | _ => none

end ExplicitSelf.CommandLine
