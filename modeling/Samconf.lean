import Samconf.Foundation.Base64
import Samconf.Foundation.Delimiters
import Samconf.Foundation.Drawing
import Samconf.Foundation.Exec
import Samconf.Foundation.Extension
import Samconf.Foundation.Graft
import Samconf.Foundation.GraftView
import Samconf.Foundation.KeyPath
import Samconf.Foundation.MaximalRuns
import Samconf.Foundation.Mirroring
import Samconf.Foundation.Outline
import Samconf.Foundation.Overlay
import Samconf.Foundation.Priority
import Samconf.Foundation.Ratchet
import Samconf.Foundation.Refinement
import Samconf.Foundation.Regex
import Samconf.Foundation.RoseTree
import Samconf.Foundation.Runs
import Samconf.Foundation.Segments
import Samconf.Foundation.Stopping
import Samconf.Model.Env
import Samconf.Model.FromString
import Samconf.Model.Getters
import Samconf.Model.Heap
import Samconf.Model.HeapInsert
import Samconf.Model.HeapMerge
import Samconf.Model.Json
import Samconf.Model.Load
import Samconf.Model.Lookup
import Samconf.Model.Merge
import Samconf.Model.Node
import Samconf.Model.Path
import Samconf.Model.PathArray
import Samconf.Model.Signature
import Samconf.Model.TreeDump
import Samconf.Model.Types
import Samconf.Model.Uri
import Samconf.Spec.Attempts
import Samconf.Spec.Base64
import Samconf.Spec.Copy
import Samconf.Spec.Create
import Samconf.Spec.Deletion
import Samconf.Spec.Document
import Samconf.Spec.DocumentMerge
import Samconf.Spec.Dump
import Samconf.Spec.Env
import Samconf.Spec.Extension
import Samconf.Spec.Find
import Samconf.Spec.Graft
import Samconf.Spec.GraftView
import Samconf.Spec.Growth
import Samconf.Spec.Heap
import Samconf.Spec.HeapComplete
import Samconf.Spec.HeapCopy
import Samconf.Spec.HeapDelete
import Samconf.Spec.HeapInsert
import Samconf.Spec.HeapRounds
import Samconf.Spec.HeapTraversal
import Samconf.Spec.Held
import Samconf.Spec.Insert
import Samconf.Spec.Json
import Samconf.Spec.JsonFailure
import Samconf.Spec.Keeping
import Samconf.Spec.Layout
import Samconf.Spec.LayoutChange
import Samconf.Spec.Load
import Samconf.Spec.Lookup
import Samconf.Spec.Losses
import Samconf.Spec.Merge
import Samconf.Spec.MergeList
import Samconf.Spec.NodeFaults
import Samconf.Spec.Numeral
import Samconf.Spec.ParentLinks
import Samconf.Spec.Path
import Samconf.Spec.PathArray
import Samconf.Spec.Presence
import Samconf.Spec.Shape
import Samconf.Spec.Traversal
import Samconf.Spec.Tree
import Samconf.Spec.TreeDump
import Samconf.Spec.Uri
import Samconf.Spec.UriInit
import Samconf.Spec.UriPattern
import Samconf.Properties.AllocationFailure
import Samconf.Properties.BackendChoice
import Samconf.Properties.Base64Decoding
import Samconf.Properties.Climb
import Samconf.Properties.Completeness
import Samconf.Properties.DirectoryOrder
import Samconf.Properties.DocumentMerge
import Samconf.Properties.EntryPoints
import Samconf.Properties.Environment
import Samconf.Properties.Getters
import Samconf.Properties.Grafting
import Samconf.Properties.Influence
import Samconf.Properties.Insertion
import Samconf.Properties.IntegerWidth
import Samconf.Properties.JsonIntegers
import Samconf.Properties.JsonRoundTrip
import Samconf.Properties.LoadStatus
import Samconf.Properties.MemoryMerge
import Samconf.Properties.MergeOrder
import Samconf.Properties.Overlay
import Samconf.Properties.PathRoundTrip
import Samconf.Properties.PathSplitting
import Samconf.Properties.Provenance
import Samconf.Properties.QueryLookup
import Samconf.Properties.ReadBack
import Samconf.Properties.Resolution
import Samconf.Properties.Shield
import Samconf.Properties.SiblingKeys
import Samconf.Properties.Signature
import Samconf.Properties.SignatureBounds
import Samconf.Properties.Store
import Samconf.Properties.StringTyping
import Samconf.Properties.Traversal
import Samconf.Properties.TreeDump
import Samconf.Properties.TreeShape
import Samconf.Properties.TypeAgreement
import Samconf.Properties.UnionTag
import Samconf.Properties.UriRoundTrip
