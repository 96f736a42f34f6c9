/-!
# Failures of a semantic service

A query can fail in four ways. Only a service that is not there at all ends a run; the other
failures concern one query.
-/
namespace ExplicitSelf.Service

/-- mirrors `ServiceError` -/
inductive Error where
  /-- The service cannot be reached. -/
  | unavailable (message : String)
  /-- No answer within so many milliseconds. -/
  | timeout (request : String) (milliseconds : Nat)
  /-- The service refused the query. -/
  | query (request message : String)
  /-- The answer cannot be read. -/
  | decode (request : String)
  deriving DecidableEq, Repr

namespace Error

def message : Error → String
  | .unavailable message => message
  | .timeout request milliseconds => s!"{request} timed out after {milliseconds / 1000}s"
  | .query request message => s!"{request} failed: {message}"
  | .decode request => s!"cannot decode {request} response"

/-- Whether the failure ends a run. mirrors `ServiceError.is_fatal` -/
def isFatal : Error → Bool
  | .unavailable _ => true
  | _ => false

end Error

end ExplicitSelf.Service
