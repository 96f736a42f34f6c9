import ExplicitSelf.Arguments.Normalize
import ExplicitSelf.Arguments.Tokenize
import ExplicitSelf.Path.Normalize
import ExplicitSelf.Plan.Command

/-!
# Build plans: the arguments of each source file

A compile step is a command that names the compiler, by its key or its tool. Its arguments, without
what leads up to them, hold for each source file among its inputs. Steps count in the order of their
keys: the last one with a file gives its arguments, and the first malformed one is the error.
-/
namespace ExplicitSelf

/-- The arguments of source files, by normalized path. mirrors `BuildPlan` -/
structure Plan where
  files : List (Path × List String)
  deriving DecidableEq, Repr

namespace Plan

/-! ## Errors -/

/-- Why the arguments of a step are malformed. -/
inductive Malformed where
  | quote (e : Arguments.UnterminatedQuote)
  | noDelimiter (delimiter : String)
  deriving DecidableEq, Repr

def Malformed.message : Malformed → String
  | .quote e => e.message
  | .noDelimiter d => "delimiter `" ++ d ++ "` not found"

inductive Fault where
  | parse
  | noCommands
  | malformed (command : String) (reason : Malformed)
  deriving DecidableEq, Repr

/-- The wording of a fault, in the plan at a path if it has one. mirrors `PlanError` -/
def Fault.message (path : Option Path) (f : Fault) : String :=
  let place := match path with
    | some p => " " ++ p.text
    | none => ""
  match f with
  | .parse => "cannot parse build plan" ++ place
  | .noCommands => "build plan" ++ place ++ " has no `commands` mapping"
  | .malformed command reason =>
    "malformed arguments for command `" ++ command ++ "`" ++ place ++ ": " ++ reason.message

/-! ## Steps -/

def compilerNames : List String := ["swift-compiler", "swiftc"]

def namesCompiler (s : String) : Bool :=
  compilerNames.any fun n => Text.occursIn n.toList s.toList

/-- mirrors `is_compile_step` -/
def isCompileStep (key : String) (c : Command) : Bool :=
  namesCompiler key || c.tool.any namesCompiler

/-- The arguments after the first that equals a delimiter. -/
def afterDelimiter? (delimiter : String) : List String → Option (List String)
  | [] => none
  | a :: as => if a = delimiter then some as else afterDelimiter? delimiter as

/-- The arguments without a compiler in front. -/
def dropCompiler : List String → List String
  | [] => []
  | a :: as => if (Path.ofText a).fileName? = some ("swiftc" : Name) then as else a :: as

/-- The arguments as they are written. -/
def rawArguments (c : Command) : Except Malformed (List String) :=
  match c.arguments with
  | none => .ok []
  | some (.list as) => .ok as
  | some (.line text) =>
    match Arguments.tokenize text with
    | .ok as => .ok as
    | .error e => .error (.quote e)

/-- The arguments of the compiler in a step. mirrors `strip_driver_prefix` -/
def compilerArguments (delimiter : Option String) (c : Command) :
    Except Malformed (List String) :=
  match rawArguments c with
  | .error e => .error e
  | .ok as =>
    match delimiter with
    | none => .ok (Arguments.normalize (dropCompiler as))
    | some d =>
      match afterDelimiter? d as with
      | some as => .ok (Arguments.normalize as)
      | none => .error (.noDelimiter d)

def sources (c : Command) : List Path :=
  (c.inputs.filter fun i => Text.endsWith i.toList ".swift".toList).map fun i =>
    (Path.ofText i).normalize

/-- Adds the files of steps in order. -/
def addSteps (delimiter : Option String) :
    List (String × Command) → Plan → Except Fault Plan
  | [], plan => .ok plan
  | (key, c) :: rest, plan =>
    if isCompileStep key c then
      match compilerArguments delimiter c with
      | .error e => .error (.malformed key e)
      | .ok as =>
        let files := (sources c).foldl (fun fs p => Keyed.put Path.same p as fs) plan.files
        addSteps delimiter rest ⟨files⟩
    else addSteps delimiter rest plan

/-- The plan of a list of commands, in the order of their keys. -/
def ofCommands (delimiter : Option String) (commands : List (String × Command)) :
    Except Fault Plan :=
  addSteps delimiter (commands.mergeSort fun a b => a.1 ≤ b.1) ⟨[]⟩

/-- mirrors `BuildPlan.parse` -/
def parse (delimiter : Option String) (text : String) : Except Fault Plan :=
  match commands? text with
  | none => .error .parse
  | some none => .error .noCommands
  | some (some commands) => ofCommands delimiter commands

/-- The arguments of a source file. mirrors `BuildPlan.arguments` -/
def arguments? (plan : Plan) (file : Path) : Option (List String) :=
  Keyed.get? Path.same file plan.files

def size (plan : Plan) : Nat := plan.files.length

end Plan

end ExplicitSelf
