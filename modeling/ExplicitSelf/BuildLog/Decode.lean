import ExplicitSelf.Gzip.Member

/-!
# Reading a build log

A log is stored as text, or as text in a gzip stream; the first two octets tell which.
-/
namespace ExplicitSelf.BuildLog

open Text (Octets)

/-- mirrors `DecodeError` -/
inductive DecodeError where
  | gzip
  | utf8 (fault : Text.Fault)
  deriving DecidableEq, Repr

def DecodeError.message : DecodeError → String
  | .gzip => "gzip decompression failed"
  | .utf8 fault => s!"log is not valid UTF-8: {fault.message}"

def decodeText (bs : Octets) : Except DecodeError String :=
  match Text.decode bs with
  | .ok cs => .ok (.ofList cs)
  | .error fault => .error (.utf8 fault)

/-- The text of a log. mirrors `decode_log` -/
def decode (bs : Octets) : Except DecodeError String :=
  if Gzip.magic.isPrefixOf bs then
    match Gzip.gunzip bs with
    | some content => decodeText content
    | none => .error .gzip
  else decodeText bs

end ExplicitSelf.BuildLog
