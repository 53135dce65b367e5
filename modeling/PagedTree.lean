import PagedTree.Bytes
import PagedTree.SparseFile
import PagedTree.Text.Blank
import PagedTree.Text.Utf8
import PagedTree.Text.Quoted
import PagedTree.Decimal.Notation
import PagedTree.Row.Codec
import PagedTree.Call
import PagedTree.PageStore.Basic
import PagedTree.Node.Decode
import PagedTree.Tree.Insert
import PagedTree.Tree.Erase
import PagedTree.Tree.Cursor
import PagedTree.Tree.Dump
import PagedTree.Shell.Basic
import PagedTree.Main
import PagedTree.Proofs.Search
import PagedTree.Proofs.NodeCodec
import PagedTree.Proofs.Pages
import PagedTree.Proofs.LeafChain
import PagedTree.Proofs.Standing
import PagedTree.Proofs.Insertion
import PagedTree.Proofs.InsertionChain
import PagedTree.Proofs.RootGrowth
import PagedTree.Proofs.Erasure
import PagedTree.Proofs.Tidying
import PagedTree.Proofs.Arenas
import PagedTree.Proofs.Memory
import PagedTree.Proofs.Handle
import PagedTree.Proofs.Reading
import PagedTree.Proofs.Answers
import PagedTree.Proofs.Branches
import PagedTree.Proofs.Inserting
import PagedTree.Proofs.Raising
import PagedTree.Proofs.Erasing
import PagedTree.Proofs.Histories
import PagedTree.Proofs.Occupancy
import PagedTree.Proofs.Balance
import PagedTree.Proofs.Strictness
import PagedTree.Proofs.Stacks
import PagedTree.Proofs.Draining
import PagedTree.Proofs.Territory
import PagedTree.Proofs.Confinement
import PagedTree.Proofs.Multimap
import PagedTree.Proofs.Agreement
import PagedTree.Proofs.Interruption
import PagedTree.Proofs.Rightmost
import PagedTree.Proofs.Stranding
import PagedTree.Proofs.Truncation
import PagedTree.Proofs.Lookups
import PagedTree.Proofs.Forest
import PagedTree.Proofs.Isolation
import PagedTree.Proofs.Frames
import PagedTree.Proofs.Threads
import PagedTree.Proofs.Unfailing
import PagedTree.Proofs.RowCodec
import PagedTree.Proofs.CanonicalRows
import PagedTree.Proofs.Appending
import PagedTree.Proofs.CatalogContents
import PagedTree.Proofs.CatalogAdding
import PagedTree.Proofs.CatalogHistory
import PagedTree.Proofs.RowIds
import PagedTree.Proofs.PageContents
import PagedTree.Proofs.Drafts
import PagedTree.Proofs.NodeCapacity
import PagedTree.Proofs.Intact
import PagedTree.Proofs.SafeReading
import PagedTree.Proofs.SafeInserting
import PagedTree.Proofs.SafeErasing
import PagedTree.Proofs.HostileFiles
import PagedTree.Proofs.LayeredHandle
import PagedTree.Proofs.LayeredReading
import PagedTree.Proofs.LayeredChanges
import PagedTree.Proofs.Journals
import PagedTree.Proofs.Databases
import PagedTree.Proofs.Shells
import PagedTree.Proofs.ShellRuns
import PagedTree.Proofs.LargestKeys
import PagedTree.Proofs.Cursors
import PagedTree.Proofs.Stepping
import PagedTree.Proofs.Circles
import PagedTree.Proofs.Asking
import PagedTree.Proofs.Walks
import PagedTree.Proofs.EndlessReads
import PagedTree.Proofs.RejectedTables
import PagedTree.Proofs.LookupPaths
import PagedTree.Proofs.Allocation
import PagedTree.Proofs.Words
import PagedTree.Proofs.CommandGrammar
import PagedTree.Proofs.ColumnTexts
import PagedTree.Proofs.SplitPoints
import PagedTree.Proofs.DecodedNodes
import PagedTree.Proofs.OneNode
import PagedTree.Proofs.PagePlaces
