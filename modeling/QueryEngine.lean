import QueryEngine.Library.TwosComplement
import QueryEngine.Library.Fallible
import QueryEngine.Library.Kleene
import QueryEngine.Library.Numerals
import QueryEngine.Library.SelfDelimiting
import QueryEngine.Library.Lookup
import QueryEngine.Library.Bitmap
import QueryEngine.Library.Dedup
import QueryEngine.Library.Tiling
import QueryEngine.Library.Transitions
import QueryEngine.Library.WorkTally
import QueryEngine.Library.Selection
import QueryEngine.Library.Spans
import QueryEngine.Arrays
import QueryEngine.Errors
import QueryEngine.Integers
import QueryEngine.Catalog
import QueryEngine.Output.Encoder
import QueryEngine.Scan.Predicate
import QueryEngine.Scan.RowSemantics
import QueryEngine.Scan.IntegerFilters
import QueryEngine.Output.IntegerRendering
import QueryEngine.Scan.Batches
import QueryEngine.Scan.KeyColumns
import QueryEngine.Scan.Pairs
import QueryEngine.Scan.PairSets
import QueryEngine.Scan.Addresses
import QueryEngine.Scan.AddressSpans
import QueryEngine.Scan.Keys
import QueryEngine.Scan.BlockBounds
import QueryEngine.Library.Clusters
import QueryEngine.Scan.RangeEnds
import QueryEngine.Scan.Rows
import QueryEngine.Scan.ColumnCache
import QueryEngine.Join.SemiJoin
import QueryEngine.Output.RowOrder
import QueryEngine.Join.Hierarchical
import QueryEngine.Join.BlockAgreement
import QueryEngine.Parallel.Stages
import QueryEngine.Parallel.InOrder
import QueryEngine.Parallel.RunsOnce
import QueryEngine.Parallel.NoDeadlock
import QueryEngine.Scan.RowTests
import QueryEngine.Scan.RowPredicate
import QueryEngine.Scan.ScanRequest
import QueryEngine.Scan.PreparedItems
import QueryEngine.Scan.RowGroupReader
import QueryEngine.Scan.DecodedColumns
import QueryEngine.Scan.Statistics
import QueryEngine.Scan.Columnar
import QueryEngine.Scan.Positions
import QueryEngine.Scan.Scanned
import QueryEngine.Library.Saturating
import QueryEngine.Library.JsonGrammar
import QueryEngine.Library.JsonStrings
import QueryEngine.Library.ByteLanes
import QueryEngine.Library.FixedPoint
import QueryEngine.Library.RunLength
import QueryEngine.Library.Segments
import QueryEngine.Library.ByteBits
import QueryEngine.Output.BlockSelection
import QueryEngine.Scan.Chunk
import QueryEngine.Output.Fork
import QueryEngine.Output.Weight
import QueryEngine.Query.Surface
import QueryEngine.Query.Filters
import QueryEngine.Query.ListValues
import QueryEngine.Query.Plan
import QueryEngine.Query.Aliases
import QueryEngine.Query.Sets
import QueryEngine.Query.SetText
import QueryEngine.Query.FilterMeaning
import QueryEngine.Query.ItemMeaning
import QueryEngine.Scan.BloomFilters
import QueryEngine.Scan.ListedUnion
import QueryEngine.Scan.NullRule
import QueryEngine.Scan.FilterOrder
import QueryEngine.Output.RowWriter
import QueryEngine.Output.ObjectKeys
import QueryEngine.Output.NestedEncoder
import QueryEngine.Output.Page
import QueryEngine.Output.MergedSources
import QueryEngine.Library.CountingSort
import QueryEngine.Output.BlockIndex
import QueryEngine.Output.Base58
import QueryEngine.Library.Framing
import QueryEngine.Output.ArrowFrames
import QueryEngine.Library.OrderKeys
import QueryEngine.Output.SortKeys
import QueryEngine.Output.ContainerEncoders
import QueryEngine.Output.SelectionWeights
import QueryEngine.Query.RequestKeys
import QueryEngine.Scan.SetLookups
import QueryEngine.Scan.AlignedRows
import QueryEngine.Output.EscapeTest
import QueryEngine.Output.DecimalRendering
import QueryEngine.Query.HexSpellings
import QueryEngine.Scan.ArrowBuffers
import QueryEngine.Scan.SizeEstimate
import QueryEngine.Execution.Ranges
import QueryEngine.Execution.RangeRows
import QueryEngine.Execution.PageRows
import QueryEngine.Execution.PageLoop
import QueryEngine.Execution.SelectPage
import QueryEngine.Output.Writer
import QueryEngine.Execution.Paging
import QueryEngine.Execution.Relations
import QueryEngine.Execution.RelationRows
import QueryEngine.Execution.RelationRanges
import QueryEngine.Execution.RelationKeys
import QueryEngine.Execution.TableScans
import QueryEngine.Execution.ScannedRanges
import QueryEngine.Execution.Materialize
