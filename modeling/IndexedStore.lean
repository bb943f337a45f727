import IndexedStore.Decimal.Literal
import IndexedStore.Decimal.Shortest
import IndexedStore.Descriptor
import IndexedStore.Direction
import IndexedStore.Double
import IndexedStore.Entry
import IndexedStore.Error
import IndexedStore.Fault
import IndexedStore.FieldType
import IndexedStore.Handle
import IndexedStore.Index.AddressGrid
import IndexedStore.Index.Basic
import IndexedStore.Index.GroupHeaps
import IndexedStore.Index.HashChains
import IndexedStore.Index.Heap
import IndexedStore.Index.KeyRows
import IndexedStore.Index.Kind
import IndexedStore.Index.ScanList
import IndexedStore.Index.Settled
import IndexedStore.Index.Source
import IndexedStore.KeyRange
import IndexedStore.Layout
import IndexedStore.Mixing
import IndexedStore.OrderedTable
import IndexedStore.OrderedTable.Lemmas
import IndexedStore.Projection
import IndexedStore.Projection.Order
import IndexedStore.Proofs.Acceptance
import IndexedStore.Proofs.Accumulations
import IndexedStore.Proofs.AddressGrids
import IndexedStore.Proofs.AddressOrders
import IndexedStore.Proofs.Arrivals
import IndexedStore.Proofs.Bystanders
import IndexedStore.Proofs.Checked
import IndexedStore.Proofs.ContentComparison
import IndexedStore.Proofs.Contents
import IndexedStore.Proofs.Descriptions
import IndexedStore.Proofs.Drains
import IndexedStore.Proofs.EntryEdits
import IndexedStore.Proofs.EntryWrites
import IndexedStore.Proofs.Extrema
import IndexedStore.Proofs.Faultless
import IndexedStore.Proofs.FirstFit
import IndexedStore.Proofs.GroupHeaps
import IndexedStore.Proofs.Groups
import IndexedStore.Proofs.Growth
import IndexedStore.Proofs.Handlings
import IndexedStore.Proofs.HashChains
import IndexedStore.Proofs.HeapHistories
import IndexedStore.Proofs.HeapPlaces
import IndexedStore.Proofs.HeapRetractions
import IndexedStore.Proofs.HeapRuns
import IndexedStore.Proofs.Heaps
import IndexedStore.Proofs.HeapsOnDemand
import IndexedStore.Proofs.IndexChanges
import IndexedStore.Proofs.IndexHistories
import IndexedStore.Proofs.IndexRuns
import IndexedStore.Proofs.Indices
import IndexedStore.Proofs.InsertionOrders
import IndexedStore.Proofs.Invariants
import IndexedStore.Proofs.KeyComparisons
import IndexedStore.Proofs.KeyFields
import IndexedStore.Proofs.KeyHashes
import IndexedStore.Proofs.KeyRanges
import IndexedStore.Proofs.KeyRows
import IndexedStore.Proofs.KeyWalks
import IndexedStore.Proofs.Keys
import IndexedStore.Proofs.KindAgreement
import IndexedStore.Proofs.LateIndices
import IndexedStore.Proofs.Lookups
import IndexedStore.Proofs.Mixing
import IndexedStore.Proofs.Placements
import IndexedStore.Proofs.PointLookups
import IndexedStore.Proofs.RangeWalks
import IndexedStore.Proofs.RecordedLayouts
import IndexedStore.Proofs.Refills
import IndexedStore.Proofs.Registrations
import IndexedStore.Proofs.RejectedUpdates
import IndexedStore.Proofs.Retractions
import IndexedStore.Proofs.Rollbacks
import IndexedStore.Proofs.RowHistories
import IndexedStore.Proofs.Runs
import IndexedStore.Proofs.ScanLists
import IndexedStore.Proofs.SharedContents
import IndexedStore.Proofs.SlabHistories
import IndexedStore.Proofs.Slabs
import IndexedStore.Proofs.SliceUpdates
import IndexedStore.Proofs.StableOrders
import IndexedStore.Proofs.Steps
import IndexedStore.Proofs.Tables
import IndexedStore.Proofs.Tallies
import IndexedStore.Proofs.Tandem
import IndexedStore.Proofs.Tolerance
import IndexedStore.Proofs.TypedEntries
import IndexedStore.Proofs.UndoneInsertions
import IndexedStore.Proofs.ValueOrder
import IndexedStore.Proofs.WildcardSlices
import IndexedStore.Registry
import IndexedStore.Shape
import IndexedStore.Slab
import IndexedStore.Store.Basic
import IndexedStore.Store.Change
import IndexedStore.Store.Contents
import IndexedStore.Store.Grow
import IndexedStore.Store.Settled
import IndexedStore.Tally
import IndexedStore.Text.Invisible
import IndexedStore.Text.Quoted
import IndexedStore.Value.Basic
import IndexedStore.Value.Order
import IndexedStore.Value.Tagged
import IndexedStore.Value.Text
import IndexedStore.Workspace
