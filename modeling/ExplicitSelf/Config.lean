import ExplicitSelf.FileTree.Basic
import ExplicitSelf.Glob.Match
import ExplicitSelf.Toml.Document

/-!
# Configuration

A configuration file is a TOML document with a table `selfish`. Every setting has a default, and
keys that are not settings are skipped. The table may also be written as an array of the settings in
order, or as a time, which holds no settings.
-/
namespace ExplicitSelf

/-- mirrors `SelfishConfig` -/
structure Config where
  sourcekitten : Option Path := none
  /-- Seconds that one query may take. -/
  queryTimeout : Nat := 60
  /-- How many files are linted at once; zero leaves the choice to the run. -/
  jobs : Nat := 0
  exclude : List String := []
  derivedData : Option Path := none
  planDelimiter : Option String := none
  deriving DecidableEq, Repr

namespace Config

def fileName : String := ".selfish.toml"

/-! ## Errors -/

/-- mirrors `ConfigError` -/
inductive Error where
  | read (path : Path) (cause : IoError)
  | parse (path : Path)
  | exclude (e : Excludes.Invalid)
  deriving DecidableEq, Repr

def Error.message : Error → String
  | .read path cause => s!"failed to read config file {path.text}: {cause.message}"
  | .parse path => s!"failed to parse config file {path.text}"
  | .exclude e => e.message

def Error.path? : Error → Option Path
  | .read path _ => some path
  | .parse path => some path
  | .exclude _ => none

/-! ## Reading -/

open Toml (Value Entries)

def text? : Value → Option String
  | .scalar (.text s) => some s
  | _ => none

def path? (v : Value) : Option Path :=
  (text? v).map Path.ofText

def natural? : Value → Option Nat
  | .scalar (.whole n) => if 0 ≤ n then some n.toNat else none
  | _ => none

def texts? : Value → Option (List String)
  | .array items => items.mapM text?
  | _ => none

/-- A setting with its default. -/
def setting {α : Type} (default : α) (read : Value → Option α) : Option Value → Option α
  | none => some default
  | some v => read v

def settingNames : List String :=
  ["sourcekitten", "query_timeout_secs", "jobs", "exclude", "derived_data", "plan_delimiter"]

/-- Reads the settings, in the order of their names. -/
def ofSettings? (value : Nat → Option Value) : Option Config := do
  let d : Config := {}
  let sourcekitten ← setting d.sourcekitten (fun v => (path? v).map some) (value 0)
  let queryTimeout ← setting d.queryTimeout natural? (value 1)
  let jobs ← setting d.jobs natural? (value 2)
  let exclude ← setting d.exclude texts? (value 3)
  let derivedData ← setting d.derivedData (fun v => (path? v).map some) (value 4)
  let planDelimiter ← setting d.planDelimiter (fun v => (text? v).map some) (value 5)
  return { sourcekitten, queryTimeout, jobs, exclude, derivedData, planDelimiter }

/-- Reads the table of settings. A time counts as a table without any. -/
def ofValue? : Value → Option Config
  | .table _ es => ofSettings? fun i => (settingNames[i]?).bind fun n => Toml.lookup? n es
  | .array items => ofSettings? fun i => items[i]?
  | .tables items => ofSettings? fun i => (items[i]?).map (.table .header)
  | .scalar .time => some {}
  | .scalar _ => none

def parse? (text : String) : Option Config := do
  match Toml.lookup? "selfish" (← Toml.read? text.toList) with
  | none => return {}
  | some v => ofValue? v

/-- mirrors `Config.load` -/
def load (t : FileTree) (path : Path) : Except Error Config :=
  match t.readText path with
  | .error cause => .error (.read path cause)
  | .ok text =>
    match parse? text with
    | some c => .ok c
    | none => .error (.parse path)

/-- The configuration of a directory; the default if it has none. mirrors `Config.load_from_root` -/
def loadFrom (t : FileTree) (directory : Path) : Except Error Config :=
  let path := directory.child fileName
  if t.isFile path then load t path else .ok {}

/-- The patterns of files to leave out. mirrors `build_excludes` -/
def excludes (c : Config) : Except Error Excludes :=
  match Excludes.parse c.exclude with
  | .ok e => .ok e
  | .error e => .error (.exclude e)

end Config

end ExplicitSelf
