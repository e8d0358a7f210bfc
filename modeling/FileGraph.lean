import FileGraph.Main
import FileGraph.Session.Workspace
import FileGraph.Proofs.Resolution.Scores
import FileGraph.Proofs.Resolution.References
import FileGraph.Proofs.Resolution.Pairs
import FileGraph.Proofs.Resolution.Rows
import FileGraph.Proofs.Session.Run
import FileGraph.Proofs.Weight
import FileGraph.Proofs.Session.Guard
import FileGraph.Proofs.Session.Shown
import FileGraph.Proofs.Session.Steps
import FileGraph.Proofs.Session.Epochs
import FileGraph.Proofs.Session.Validity
import FileGraph.Proofs.Session.RoundTrip
import FileGraph.Proofs.Decimal.Digits
import FileGraph.Proofs.Decimal.Shortest
import FileGraph.Proofs.Decimal.Numeral
import FileGraph.Proofs.Json.Scalars
import FileGraph.Proofs.Json.RoundTrip
import FileGraph.Proofs.Decimal.Binary
import FileGraph.Proofs.Decimal.Rounding
import FileGraph.Proofs.Decimal.Arithmetic
import FileGraph.Proofs.Decimal.Reading
import FileGraph.Proofs.Archive.Selection
import FileGraph.Proofs.Archive.Roots
import FileGraph.Proofs.Path
import FileGraph.Proofs.Archive.FirstPaths
import FileGraph.Proofs.Cache.Lookup
import FileGraph.Proofs.Graph.Builder
import FileGraph.Proofs.Graph.Validity
import FileGraph.Proofs.Graph.Document
import FileGraph.Proofs.Graph.Reread
import FileGraph.Proofs.Graph.Calls
import FileGraph.Proofs.Graph.Simple
import FileGraph.Proofs.Text.Lines
import FileGraph.Proofs.Repository.Entries
import FileGraph.Proofs.Repository.Assembly
import FileGraph.Proofs.Bytes
import FileGraph.Proofs.Cache.Codec
import FileGraph.Proofs.Cache.FileName
import FileGraph.Proofs.Cache.Retention
import FileGraph.Proofs.Cache.Message
import FileGraph.Proofs.Cache.Truncation
import FileGraph.Proofs.Cache.Writes
import FileGraph.Proofs.Repository.Shared
import FileGraph.Proofs.Repository.Workers
import FileGraph.Proofs.Repository.Interleaving
import FileGraph.Proofs.Repository.Alone
import FileGraph.Proofs.Repository.Isolation
import FileGraph.Proofs.Repository.Arrangement
import FileGraph.Proofs.Source.Extents
import FileGraph.Proofs.Text.Matching
import FileGraph.Proofs.Source.Nesting
import FileGraph.Proofs.Resolution.Mentions
import FileGraph.Proofs.Source.Crossing
import FileGraph.Proofs.Source.FirstBlock
import FileGraph.Proofs.Source.Rewording
import FileGraph.Proofs.Source.KeywordBlocks
import FileGraph.Proofs.Source.FirstSignatures
import FileGraph.Proofs.Source.Preamble
import FileGraph.Proofs.Text.Places
import FileGraph.Proofs.Resolution.Links
import FileGraph.Proofs.Resolution.Budgets
import FileGraph.Proofs.Resolution.Spellings
import FileGraph.Proofs.Text.ByteOrder
import FileGraph.Proofs.Categorization.Repointing
import FileGraph.Proofs.Categorization.Folders
import FileGraph.Proofs.Storage
import FileGraph.Proofs.Cache.Uses
import FileGraph.Proofs.Cache.Succession
import FileGraph.Proofs.Decimal.Order
import FileGraph.Proofs.Text.Greedy
import FileGraph.Proofs.Cache.Reloading
import FileGraph.Proofs.Report.Cycle
import FileGraph.Proofs.Report.Tally
import FileGraph.Proofs.Report.Ranking
import FileGraph.Proofs.Source.Modules
import FileGraph.Proofs.Source.ImportLists
import FileGraph.Proofs.Source.ImportLines
import FileGraph.Proofs.Sorting
import FileGraph.Proofs.Source.FirstPlaces
import FileGraph.Proofs.Archive.PlainPaths
