import FileGraph.Json.Basic
import FileGraph.Language
import FileGraph.Source.Extent.Braces
/-!
# Settings — what a user may change about an analysis

Settings are read from documents in which every field is optional (`ofJson?`), and checked separately (`check`): the
first rule that is broken is reported.
-/
namespace FileGraph

structure Settings where
  /-- The extensions of the files that are admitted, in lower case. -/
  extensions        : List String
  /-- The basenames that are never admitted. -/
  lockfiles         : List String
  importScore       : UInt32
  /-- The lines after a signature on which the opening brace may stand. -/
  braceLookahead    : Nat
  /-- The lines on which a block has to close. -/
  scanWindow        : Nat
  /-- The bytes of each file that are searched for the names of others, all of them if absent. -/
  maxScanBytes      : Option Nat
  /-- The number of workers. -/
  threads           : Option Nat
  /-- The seconds after which a categorization is given up. -/
  timeoutSeconds    : Nat
  deriving DecidableEq, Repr

namespace Settings

/-- The settings where nothing is said. -/
def default : Settings where
  extensions :=
    ["js", "jsx", "mjs", "cjs", "ts", "tsx", "py", "java", "c", "h", "cpp", "cc", "cxx", "hpp", "hh", "go", "rs",
     "php", "rb", "css", "scss", "html", "htm", "json", "yaml", "yml"]
  lockfiles :=
    ["package-lock.json", "yarn.lock", "pnpm-lock.yaml", "Cargo.lock", "poetry.lock", "Pipfile.lock",
     "composer.lock", "Gemfile.lock", "go.sum"]
  importScore := 5
  braceLookahead := 3
  scanWindow := 200
  maxScanBytes := some 1048576
  threads := none
  timeoutSeconds := 30

instance : Inhabited Settings := ⟨default⟩

/-- What can be wrong with settings. -/
inductive Fault where
  | noExtension
  | zeroImportScore
  | zeroScanWindow
  | zeroThreads
  | zeroScanBytes
  deriving DecidableEq, Repr

def Fault.rule : Fault → String
  | .noExtension => "at least one extension must be allowed"
  | .zeroImportScore => "direct_import_score must be positive"
  | .zeroScanWindow => "scan_window must be at least 1"
  | .zeroThreads => "threads must be at least 1"
  | .zeroScanBytes => "max_scan_bytes must be positive when set"

def Fault.message (f : Fault) : String := "config validation error: " ++ f.rule

/-- The first rule that the settings break. -/
def check (s : Settings) : Except Fault Unit :=
  if s.extensions.isEmpty then .error .noExtension
  else if s.importScore = 0 then .error .zeroImportScore
  else if s.scanWindow = 0 then .error .zeroScanWindow
  else if s.threads = some 0 then .error .zeroThreads
  else if s.maxScanBytes = some 0 then .error .zeroScanBytes
  else .ok ()

/-- Whether files of an extension are admitted. -/
def allowsExtension (s : Settings) (extension : String) : Bool :=
  s.extensions.contains (Language.lowerCase extension)

/-- Whether a basename is one of the names that are never admitted. -/
def isLockfile (s : Settings) (basename : String) : Bool := s.lockfiles.contains basename

/-- The limits on the extents of blocks.  A window has at least one line. -/
def limits (s : Settings) : Source.Limits := ⟨s.braceLookahead, max s.scanWindow 1⟩

/-! ## Documents -/

def fields : List String :=
  ["extensions", "lockfiles", "direct_import_score", "brace_lookahead", "scan_window", "max_scan_bytes", "threads",
   "categorization_timeout_secs"]

def toJson (s : Settings) : Json :=
  let orNull (n : Option Nat) : Json := (n.map Json.ofNat).getD .null
  .ofMembers [("extensions", .array (s.extensions.map .ofString)), ("lockfiles", .array (s.lockfiles.map .ofString)),
    ("direct_import_score", .ofNat s.importScore.toNat), ("brace_lookahead", .ofNat s.braceLookahead),
    ("scan_window", .ofNat s.scanWindow), ("max_scan_bytes", orNull s.maxScanBytes), ("threads", orNull s.threads),
    ("categorization_timeout_secs", .ofNat s.timeoutSeconds)]

open Json in
/-- The settings of a document; a field that is missing has its default. -/
def ofJson? (j : Json) : Option Settings :=
  match j.record? fields with
  | some [extensions, lockfiles, importScore, lookahead, window, scanBytes, threads, timeout] => do
    let extensions ← optional? (listOf? string?) default.extensions extensions
    let lockfiles ← optional? (listOf? string?) default.lockfiles lockfiles
    let importScore ←
      optional? (fun j => (j.natural?.filter (· < UInt32.size)).map .ofNat) default.importScore importScore
    let lookahead ← optional? natural? default.braceLookahead lookahead
    let window ← optional? natural? default.scanWindow window
    let scanBytes ← optional? (orNull? natural?) default.maxScanBytes scanBytes
    let threads ← optional? (orNull? natural?) default.threads threads
    let timeout ← optional? natural? default.timeoutSeconds timeout
    return ⟨extensions, lockfiles, importScore, lookahead, window, scanBytes, threads, timeout⟩
  | _ => none

end Settings

end FileGraph
