import ExplicitSelf.Arguments.Normalize
import ExplicitSelf.Arguments.Tokenize
import ExplicitSelf.Path.Basic
import ExplicitSelf.Record
import ExplicitSelf.Text.Blank

/-!
# Compiler invocations in a build log

The lines of a log end in a carriage return or a line feed. A line invokes the compiler for a source
file if it names the module, names the compiler, and has the path of the file as a whole word, with
its spaces escaped. The arguments are those after the compiler's name. `scan` looks for the first
such line that can be read, and keeps the errors of those before it.
-/
namespace ExplicitSelf.BuildLog

open Arguments (UnterminatedQuote)

/-- The name of the compiler, as it stands before its arguments. -/
def compilerMarker : List Char := "swiftc ".toList

/-- The flag that full invocations have. -/
def moduleMarker : List Char := " -module-name ".toList

/-- Puts a backslash before each space. -/
def escapeSpaces (cs : List Char) : List Char :=
  cs.flatMap fun c => if c = ' ' then ['\\', ' '] else [c]

/-- The path as logs write it. mirrors `escape_path` -/
def escapePath (p : Path) : String :=
  .ofList (escapeSpaces p.text.toList)

/-- Whether a text has a word between blanks or its ends; `start` tells whether a word may start in
front. -/
def hasWord (word : List Char) : (start : Bool) → List Char → Bool
  | start, [] => start && word.isEmpty
  | start, c :: cs =>
    (start &&
        match Text.afterPrefix? word (c :: cs) with
        | some [] => true
        | some (d :: _) => Text.isBlank d
        | none => false)
      || hasWord word (Text.isBlank c) cs

def lines (contents : List Char) : List (List Char) :=
  Text.splitWhere (fun c => c = '\r' || c = '\n') contents

/-- The argument text of a line that invokes the compiler for the file with this escaped path. -/
def invocation? (escaped line : List Char) : Option (List Char) :=
  if Text.occursIn moduleMarker line && hasWord escaped true line then
    Text.afterFirst? compilerMarker line
  else none

/-- What a log says about a file: the arguments, and the errors of lines that cannot be read. -/
structure Scan where
  arguments : Option (List String)
  malformed : List UnterminatedQuote
  deriving DecidableEq, Repr

/-- Reads argument texts up to the first that can be read. -/
def scanTails : List (List Char) → Scan
  | [] => ⟨none, []⟩
  | t :: ts =>
    match Arguments.tokenize (.ofList t) with
    | .ok args => ⟨some (Arguments.normalize args), []⟩
    | .error e =>
      let s := scanTails ts
      { s with malformed := e :: s.malformed }

/-- Looks for the invocation of a file in a log. A log without the escaped path has none. -/
def scan (contents : String) (file : Path) : Scan :=
  let escaped := escapeSpaces file.text.toList
  let cs := contents.toList
  if Text.occursIn escaped cs then scanTails ((lines cs).filterMap (invocation? escaped))
  else ⟨none, []⟩

/-- The arguments that a scan found; its first error if it found none but met one. -/
def Scan.result (s : Scan) : Except UnterminatedQuote (Option (List String)) :=
  match s.arguments, s.malformed with
  | none, e :: _ => .error e
  | args, _ => .ok args

def Scan.records (file : Path) (s : Scan) : List Record :=
  s.malformed.map fun e =>
    ⟨.warn, s!"Skipping malformed invocation for {file.text}: {e.message}"⟩

/-- The arguments of the compiler for a file, by the contents of a log. mirrors `compile_command` -/
def compileCommand (contents : String) (file : Path) :
    Except UnterminatedQuote (Option (List String)) :=
  (scan contents file).result

end ExplicitSelf.BuildLog
