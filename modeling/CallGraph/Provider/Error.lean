import CallGraph.Files.Tree
import CallGraph.Path
import CallGraph.Text.Outlay

/-!
# Failed questions

A `ProviderError` is why a provider gives no answer to a question.  It has a text for the user
(`ProviderError.message`) and one with all its parts (`ProviderError.parts`).
-/

namespace CallGraph

/-- What sort of failure of the outside world it was. -/
inductive OutsideKind where
  | notFound
  | invalidData
  | other
  deriving DecidableEq, Repr

/-- A failure of the outside world. -/
inductive OutsideFault where
  | files (cause : FileError)
  | stated (kind : OutsideKind) (text : String)
  deriving DecidableEq, Repr

namespace OutsideFault

/-- The fault in words. -/
def message : OutsideFault → String
  | files cause => cause.message
  | stated _ text => text

/-- The sort of the fault. -/
def kind : OutsideFault → OutsideKind
  | files .notFound => .notFound
  | files .notText => .invalidData
  | files (.undecodable _ _) => .invalidData
  | files _ => .other
  | stated kind _ => kind

/-- The sort's name. -/
def kindName : OutsideKind → String
  | .notFound => "NotFound"
  | .invalidData => "InvalidData"
  | .other => "Other"

/-- A fault reported under a number by the system. -/
def numbered (code : Nat) (kind text : String) : Outlay :=
  .record "Os" [("code", .number code), ("kind", .atom kind), ("message", .text text)]

/-- The fault of octets that are no text. -/
def undecodableParts (octets : List UInt8) (fault : Utf8.Fault) : Outlay :=
  let (index, length) := match fault with
    | .invalid index length => (index, some length)
    | .incomplete index => (index, none)
  .record "FromUtf8Error" [
    ("bytes", .items (octets.map fun b => .number b.toNat)),
    ("error", .record "Utf8Error" [
      ("valid_up_to", .number index), ("error_len", .optional (length.map Outlay.number))])]

/-- The fault with all its parts. -/
def parts : OutsideFault → Outlay
  | files .notFound => numbered 2 "NotFound" "No such file or directory"
  | files .isDirectory => numbered 21 "IsADirectory" "Is a directory"
  | files .notDirectory => numbered 20 "NotADirectory" "Not a directory"
  | files .exists => numbered 17 "AlreadyExists" "File exists"
  | files .directoryNotEmpty => numbered 39 "DirectoryNotEmpty" "Directory not empty"
  | files .intoItself => numbered 22 "InvalidInput" "Invalid argument"
  | files .tooManyLinks => numbered 40 "FilesystemLoop" "Too many levels of symbolic links"
  | files .invalidName =>
    .record "Error" [("kind", .atom "InvalidInput"), ("message", .text FileError.invalidName.message)]
  | files .notText =>
    .record "Error" [("kind", .atom "InvalidData"), ("message", .text FileError.notText.message)]
  | files (.undecodable octets fault) =>
    .record "Custom" [("kind", .atom "InvalidData"), ("error", undecodableParts octets fault)]
  | stated kind text => .record "Custom" [("kind", .atom (kindName kind)), ("error", .text text)]

end OutsideFault

/-- Why a question has no answer. -/
inductive ProviderError where
  | cancelled
  | failed (message : String)
  /-- There is nothing of that name. -/
  | notFound (name : String)
  | unparsable (path : Path)
  | outside (fault : OutsideFault)

namespace ProviderError

/-- The error in words. -/
def message : ProviderError → String
  | cancelled => "search cancelled"
  | failed message => message
  | notFound name => s!"cannot find {name}"
  | unparsable path => s!"cannot parse {path}"
  | outside fault => fault.message

/-- Whether the question was given up because its search was cancelled. -/
def isCancelled : ProviderError → Bool
  | cancelled => true
  | _ => false

/-- The error with all its parts. -/
def parts : ProviderError → Outlay
  | cancelled => .atom "Cancelled"
  | failed message => .record "Failed" [("message", .text message)]
  | notFound name => .record "NotFound" [("name", .text name)]
  | unparsable path => .record "Parse" [("path", .atom (Quoted.path path.spelling))]
  | outside fault => .wrap "Io" fault.parts

end ProviderError

end CallGraph
