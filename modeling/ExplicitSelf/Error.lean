import ExplicitSelf.Path.Basic
import ExplicitSelf.Service.Error

/-!
# Errors of a run

Errors of one file (`resolution`, `classification`, `write`) are logged and the run goes on; the
others end it, with an exit code of their own.
-/
namespace ExplicitSelf

/-- mirrors `SelfishError` -/
inductive Error where
  | invalidArguments (message : String)
  | setup (message : String) (path : Option Path)
  | resolution (path : Path) (reason : String)
  | classification (path : Path) (offset : Nat) (message : String)
  | write (path : Path) (message : String)
  | serviceUnavailable (message : String)
  | noInput (path : Path)
  | internal (message : String)
  deriving DecidableEq, Repr

namespace Error

def message : Error → String
  | .invalidArguments message => s!"invalid arguments: {message}"
  | .setup message _ => s!"setup error: {message}"
  | .resolution path reason => s!"cannot resolve compiler arguments for {path.text}: {reason}"
  | .classification path offset message =>
    s!"cursor query failed at {path.text}:{offset}: {message}"
  | .write path message => s!"failed to write {path.text}: {message}"
  | .serviceUnavailable message => s!"semantic service unavailable: {message}"
  | .noInput path => s!"no Swift files found under {path.text}"
  | .internal message => s!"internal error: {message}"

def path? : Error → Option Path
  | .setup _ path => path
  | .resolution path _ => some path
  | .classification path _ _ => some path
  | .write path _ => some path
  | .noInput path => some path
  | _ => none

/-- The exit code of a run that ends in an error. mirrors `error_code` -/
def exitCode : Error → Nat
  | .invalidArguments _ => 2
  | .setup _ _ => 3
  | .noInput _ => 4
  | .serviceUnavailable _ => 5
  | _ => 10

def ofService (e : Service.Error) : Error :=
  if e.isFatal then .serviceUnavailable e.message else .internal e.message

end Error

end ExplicitSelf
