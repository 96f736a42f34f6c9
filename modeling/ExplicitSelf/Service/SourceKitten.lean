import ExplicitSelf.Service.Basic
import ExplicitSelf.Text.Blank
import ExplicitSelf.Yaml.Writer

/-!
# The `sourcekitten` service

The service runs the program `sourcekitten` once for each query and reads what it writes. How a
program is started is left to a `Launcher`; this module says which program, with which arguments,
and what its end means.
-/
namespace ExplicitSelf.Service

open Text (Octets)

/-! ## Programs -/

inductive Status where
  | exited (code : Nat)
  | signaled (signal : Nat)
  deriving DecidableEq, Repr

/-- The names of signals, from the first. -/
def signalNames : List String :=
  ["SIGHUP", "SIGINT", "SIGQUIT", "SIGILL", "SIGTRAP", "SIGABRT", "SIGBUS", "SIGFPE", "SIGKILL",
   "SIGUSR1", "SIGSEGV", "SIGUSR2", "SIGPIPE", "SIGALRM", "SIGTERM", "SIGSTKFLT", "SIGCHLD",
   "SIGCONT", "SIGSTOP", "SIGTSTP", "SIGTTIN", "SIGTTOU", "SIGURG", "SIGXCPU", "SIGXFSZ",
   "SIGVTALRM", "SIGPROF", "SIGWINCH", "SIGIO", "SIGPWR", "SIGSYS"]

def Status.message : Status → String
  | .exited code => s!"exit status: {code}"
  | .signaled n =>
    match (if n = 0 then none else signalNames[n - 1]?) with
    | some name => s!"signal: {n} ({name})"
    | none => s!"signal: {n}"

inductive Reply where
  | notStarted (cause : IoError)
  | timedOut
  | finished (status : Status) (output errors : Octets)

/-- Starts a program with arguments and waits for it, so many seconds at most. -/
abbrev Launcher := FileTree → (program : Path) → (arguments : List String) → (seconds : Nat) → Reply

abbrev SearchPath := List Path

/-- Whether a path leads to a file that can be run. -/
def isExecutable (t : FileTree) (p : Path) : Bool :=
  match t.stat p with
  | .ok (.file _ mode _) => mode &&& 0o111 ≠ 0
  | _ => false

/-- The first program of a name on the search path. -/
def which? (t : FileTree) (search : SearchPath) (name : Name) : Option Path :=
  (search.map fun d => d.child name).find? (isExecutable t)

/-- The content of the program that starting it at a path would run. -/
def programAt (t : FileTree) (p : Path) : Except IoError Octets :=
  match t.stat p with
  | .error e => .error e
  | .ok (.file content mode _) =>
    if mode &&& 0o111 ≠ 0 then .ok content else .error .permissionDenied
  | .ok _ => .error .permissionDenied

/-- The content of the first program of a name that can be run, in the directories `search`. A file
that cannot be run is remembered as `failure`; where there is none, the search goes on. -/
def programNamed (t : FileTree) (name : Name) :
    (search : SearchPath) → (failure : IoError) → Except IoError Octets
  | [], failure => .error failure
  | d :: ds, failure =>
    match programAt t (d.child name) with
    | .error .permissionDenied => programNamed t name ds .permissionDenied
    | .error .notFound => programNamed t name ds failure
    | .error .notADirectory => programNamed t name ds failure
    | found => found

/-- The content of the program that a command starts. A name without a slash is searched for. -/
def program (t : FileTree) (search : SearchPath) (command : Path) (arguments : List String) :
    Except IoError Octets :=
  if command.octets.contains 0 ∨ arguments.any fun s => s.toList.contains '\x00' then
    .error .nulInArgument
  else if command.octets.contains Path.slash then programAt t command
  else if command.octets.isEmpty then .error .notFound
  else programNamed t ⟨command.octets⟩ search .notFound

/-! ## The service -/

/-- The program and how long a query may take. mirrors `SourceKitten` -/
structure SourceKitten where
  executable : Path
  /-- Seconds. -/
  timeout : Nat
  deriving DecidableEq, Repr

namespace SourceKitten

def programName : String := "sourcekitten"

/-- Finds the program: the configured one, or else one on the search path.
mirrors `SourceKitten.locate` -/
def locate (t : FileTree) (search : SearchPath) (configured : Option Path) (timeout : Nat) :
    Except Error SourceKitten :=
  match configured with
  | some path =>
    if t.isFile path then .ok ⟨path, timeout⟩
    else .error (.unavailable s!"{path.text} does not exist")
  | none =>
    match which? t search programName with
    | some path => .ok ⟨path, timeout⟩
    | none => .error (.unavailable s!"{programName} not found on PATH: cannot find binary path")

def requestName : Query → String
  | .index file _ => s!"index {file.text}"
  | .cursor file offset _ => s!"cursorinfo {file.text}:{offset}"

/-- The request of a cursor query. mirrors `cursor_info_request` -/
def cursorRequest (file : Path) (offset : Nat) (arguments : List String) : String :=
  Yaml.render
    [("key.request", .text "source.request.cursorinfo"), ("key.sourcefile", .text file.text),
     ("key.offset", .number offset), ("key.compilerargs", .list arguments)]

/-- The arguments of the program for a query. -/
def commandLine : Query → List String
  | .index file arguments => ["index", "--file", file.text, "--"] ++ arguments
  | .cursor file offset arguments => ["request", "--yaml", cursorRequest file offset arguments]

/-- What a program that failed has to say. -/
def failureMessage (status : Status) (errors : Octets) : String :=
  match Text.trimBlank (Text.decodeLossy errors) with
  | [] => s!"exited with {status.message}"
  | cs => .ofList cs

/-- Runs the program for a query and reads its output. mirrors `SourceKitten.run` -/
def ask {α : Type} (launch : Launcher) (t : FileTree) (k : SourceKitten) (q : Query)
    (decode? : Octets → Option α) : Except Error α :=
  match launch t k.executable (commandLine q) k.timeout with
  | .notStarted cause => .error (.unavailable s!"cannot run {k.executable.text}: {cause.message}")
  | .timedOut => .error (.timeout (requestName q) (1000 * k.timeout))
  | .finished status output errors =>
    if status = .exited 0 then
      match decode? output with
      | some a => .ok a
      | none => .error (.decode (requestName q))
    else .error (.query (requestName q) (failureMessage status errors))

/-- The service that the program gives. -/
def service (launch : Launcher) (k : SourceKitten) : Service where
  index t file arguments := (t, k.ask launch t (.index file arguments) Index.Node.decode?)
  cursor t file offset arguments := k.ask launch t (.cursor file offset arguments) Cursor.decode?

end SourceKitten

end ExplicitSelf.Service
