import FileGraph.CommandLine.Host
import FileGraph.Graph.Document
import FileGraph.Report.Summary
import FileGraph.Repository
import FileGraph.Session.Background
import FileGraph.Settings.File
/-!
# Run — an analysis from its options to its output

A run loads the settings, reads the archive and the categories, analyses the files, categorizes the graph, and writes
it.  The first step that fails ends the run; what was said and written before stays.  Only two steps may fail without
ending it: a folder for kept analyses that cannot be made is not used, and a categorization that is refused is left
out.
-/
namespace FileGraph.CommandLine

/-- Why a run ends early. -/
inductive Failure where
  | settingsFile (path : String)
  | settings (fault : Settings.Fault)
  | unreadable (path : String)
  | emptyFile (path : String)
  | categories (path : String)
  | archive (fault : Archive.Fault)
  | unwritable (path : String)
  deriving DecidableEq, Repr

def Failure.message : Failure → String
  | .settingsFile path => "failed to load config " ++ path
  | .settings fault => fault.message
  | .unreadable path => "failed to read archive " ++ path
  | .emptyFile path => "archive " ++ path ++ " is empty"
  | .categories path => "failed to load categories " ++ path
  | .archive fault => fault.message
  | .unwritable path => "failed to write " ++ path

variable {m : Type → Type} [Monad m]

/-- The settings of a run: those of the file, or the default ones, with the given number of workers. -/
def settingsFor (h : Host m) (o : Options) : ExceptT Failure m Settings := do
  let s ←
    match o.settings with
    | none => pure .default
    | some path =>
      match Settings.load (← h.read path) with
      | .ok s => pure s
      | .error _ => throw (.settingsFile path)
  let s := { s with threads := o.threads.or s.threads }
  match s.check with
  | .ok () => return s
  | .error f => throw (.settings f)

/-- Says what is going to be done. -/
def announce (h : Host m) (o : Options) : m Unit := do
  h.say .title
  h.say (.input o.input)
  h.say (.output o.output)
  h.say (.format o.format)
  match o.root with
  | some root => h.say (.root root)
  | none => pure ()

def archiveOf (h : Host m) (o : Options) : ExceptT Failure m ByteArray := do
  match ← h.read o.input with
  | none => throw (.unreadable o.input)
  | some [] => throw (.emptyFile o.input)
  | some bytes => return ⟨bytes.toArray⟩

/-- The adapter that categorizes the graph, if it is to be categorized. -/
def categorizerOf (h : Host m) (o : Options) : ExceptT Failure m (Option Categorizer) := do
  match o.grouping with
  | .none => return none
  | .byFolder => return some .directory
  | .file path =>
    match ((← h.read path).bind Text.decode?).map Categorization.read with
    | some (.ok c) => return some (.fixed c)
    | _ => throw (.categories path)

/-! ## Kept analyses -/

/-- The name of the folder for kept analyses while a run works on them. -/
def keptFolder : String := "kept"

def keptPath (folder name : String) : String := folder ++ "/" ++ name

/-- The kept analyses of files: the bytes under the name of each. -/
def keptFor (h : Host m) (folder : String) (entries : List Archive.Entry) : m (List (String × List UInt8)) := do
  let names := entries.map fun e => Cache.fileName (Cache.key (Language.ofPath e.path) e.content)
  let found ← names.mapM fun name => do return (← h.read (keptPath folder name)).map fun bytes => (name, bytes)
  return found.filterMap id

/-- The graph of files, with the analyses that are kept in a folder.  New ones are written into it. -/
def analyzeKept (h : Host m) (folder : String) (s : Settings) (entries : List Archive.Entry) : m Graph := do
  let kept ← keptFor h folder entries
  let storage : Storage := .ofFolder keptFolder (.ofList kept)
  let (g, _, storage) := Repository.analyzeFiles s ⟨.empty, some keptFolder⟩ storage 1 entries
  let files := (storage.files? keptFolder).getD .empty
  let new := files.entries.filter fun f => !(kept.any fun k => k.1 == f.1)
  let _ ← new.mapM fun f => h.write (keptPath folder f.1) f.2
  return g

def graphOf (h : Host m) (o : Options) (s : Settings) (data : ByteArray) : ExceptT Failure m Graph := do
  let folder ←
    match o.cache with
    | none => pure none
    | some folder =>
      if ← h.makeFolder folder then pure (some folder)
      else
        h.warn ("cannot keep analyses in " ++ folder)
        pure none
  match Archive.load s data o.root with
  | .error f => throw (.archive f)
  | .ok entries =>
    match folder with
    | some folder => ExceptT.lift (analyzeKept h folder s entries)
    | none => return (Repository.analyzeFiles s .inMemory .empty 1 entries).1

/-! ## Runs -/

/-- Categorizes the graph of a session, which is left as it is if the answer is refused. -/
def categorizeIn (h : Host m) (s : Settings) (session : Session) (categorizer : Categorizer) : m Session := do
  match Task.spawn? session categorizer (some 0) (s.timeoutSeconds * 1000) with
  | none => return session
  | some t =>
    match t.finish session with
    | (session, .applied n) =>
      h.say (.categorized n)
      return session
    | (session, .failed cause) =>
      h.warn ("not categorized: " ++ cause.message)
      return session
    | (session, .stale ..) => return session

/-- The text of a graph in a format. -/
def Format.write (f : Format) (g : Graph) : String :=
  match f with
  | .json => g.write .pretty
  | .compactJson => g.write .compact
  | .summary => Report.summary g Report.defaultTop

def writeOutput (h : Host m) (o : Options) (session : Session) : ExceptT Failure m Unit := do
  match session.current with
  | none => return
  | some g =>
    if ← h.write o.output (o.format.write g).toUTF8.data.toList then h.say (.written o.output)
    else throw (.unwritable o.output)

/-- An analysis from its options to its output. -/
def run (h : Host m) (o : Options) : ExceptT Failure m Unit := do
  let start ← h.now
  let s ← settingsFor h o
  ExceptT.lift (announce h o)
  let data ← archiveOf h o
  let categorizer ← categorizerOf h o
  let analysisStart ← h.now
  let g ← graphOf h o s data
  h.say (.analyzed ((← h.now) - analysisStart) g.nodes.length g.edges.length)
  let session := Session.empty.install g
  let session ←
    match categorizer with
    | none => pure session
    | some c => ExceptT.lift (categorizeIn h s session c)
  writeOutput h o session
  h.say (.finished ((← h.now) - start))

/-! ## Command lines -/

/-- How a command line ends. -/
inductive Ending where
  | misused (error : UsageError)
  | version
  | failed (failure : Failure)
  | completed
  deriving DecidableEq, Repr

def Ending.code : Ending → Nat
  | .misused _ => 2
  | .failed _ => 1
  | .version | .completed => 0

def versionText : String := "repograph 0.1.0"

/-- Carries out a command line. -/
def execute (h : Host m) (arguments : List String) : m Ending := do
  match Request.ofArguments arguments with
  | .error e => return .misused e
  | .ok .version => return .version
  | .ok (.analysis o) =>
    match ← run h o with
    | .ok () => return .completed
    | .error f => return .failed f

/-- Carries out a command line on a storage. -/
def executeOn (storage : Storage) (arguments : List String) : Ending × Scene :=
  (execute .onStorage arguments).run ⟨storage, []⟩

end FileGraph.CommandLine
