import FileGraph.Archive.Selection
import FileGraph.Cache.Basic
import FileGraph.Graph.Builder
import FileGraph.Resolution
import FileGraph.Source.Analysis
/-!
# Repository — from an archive to its graph

Each file of the archive is analysed, or its analysis is taken from the cache; the dependencies between the files are
resolved; and the graph is built, a node for each file in the order of the archive.

The files are analysed one after another here.  Workers that take turns in any order find the same
(`Proofs.Repository.Interleaving`), so the number of threads in the settings has no part in it.
-/
namespace FileGraph

open Source Archive

namespace Repository

/-- The analysis of a file, from the cache if it is there and stored in it if not. -/
def analyzeEntry (limits : Limits) (c : Cache) (s : Storage) (e : Entry) : Analysis × Cache × Storage :=
  let language := Language.ofPath e.path
  let key := Cache.key language e.content
  match c.get s key with
  | (some a, c) => (a, c, s)
  | (none, c) =>
    let a := analyzeFile limits language e.content
    let (c, s, _) := c.store s key a
    (a, c, s)

/-- The analyses of files, in order. -/
def analyzeEntries (limits : Limits) : Cache → Storage → List Entry → List Analysis × Cache × Storage
  | c, s, [] => ([], c, s)
  | c, s, e :: es =>
    let (a, c, s) := analyzeEntry limits c s e
    let (as, c, s) := analyzeEntries limits c s es
    (a :: as, c, s)

/-- What resolution has to know of analysed files. -/
def referrers (files : List (Entry × Analysis)) : List Referrer :=
  files.map fun f => ⟨f.1.path, f.1.content, f.2.imports⟩

def nodeOf (e : Entry) (a : Analysis) (dependencies : List String) : FileNode :=
  { FileNode.ofContent e.path e.content with functions := a.functions, dependencies := dependencies }

def resolution (settings : Settings) (files : List (Entry × Analysis)) : Resolution :=
  Resolution.resolve settings.importScore settings.maxScanBytes (referrers files)

def nodesOf (files : List (Entry × Analysis)) (r : Resolution) : List FileNode :=
  (files.zip r.dependencies).map fun f => nodeOf f.1.1 f.1.2 f.2

def assemble (settings : Settings) (epoch : Epoch) (files : List (Entry × Analysis)) : Graph :=
  let r := resolution settings files
  let b := (nodesOf files r).foldl (fun b n => (b.addNode n).1) Builder.empty
  let b := r.edges.foldl (fun b e => (b.addEdge e).1) b
  b.build epoch

/-- The graph of files, with the cache and the storage afterwards. -/
def analyzeFiles (settings : Settings) (c : Cache) (s : Storage) (epoch : Epoch) (entries : List Entry) :
    Graph × Cache × Storage :=
  let (analyses, c, s) := analyzeEntries settings.limits c s entries
  (assemble settings epoch (entries.zip analyses), c, s)

/-- The graph of the raw files of an archive, with the cache and the storage afterwards. -/
def analyzeRaw (settings : Settings) (c : Cache) (s : Storage) (epoch : Epoch) (files : List RawFile)
    (root : Option String) : Except Fault (Graph × Cache × Storage) :=
  match entriesOf settings root files with
  | .error f => .error f
  | .ok entries => .ok (analyzeFiles settings c s epoch entries)

/-- The graph of an archive, with the cache and the storage afterwards. -/
def analyze (settings : Settings) (c : Cache) (s : Storage) (epoch : Epoch) (data : ByteArray)
    (root : Option String) : Except Fault (Graph × Cache × Storage) :=
  match rawFiles data with
  | .error f => .error f
  | .ok files => analyzeRaw settings c s epoch files root

end Repository

end FileGraph
