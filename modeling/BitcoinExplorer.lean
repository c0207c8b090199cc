import BitcoinExplorer.Lib.Outcome
import BitcoinExplorer.Lib.Prog
import BitcoinExplorer.Lib.Pipeline
import BitcoinExplorer.Lib.Schedules
import BitcoinExplorer.Lib.Outline
import BitcoinExplorer.Lib.Delivery
import BitcoinExplorer.Lib.Keeps
import BitcoinExplorer.Lib.Onto
import BitcoinExplorer.Lib.Cutoff
import BitcoinExplorer.Lib.ParMap
import BitcoinExplorer.Lib.Lockstep
import BitcoinExplorer.Lib.SpendMap
import BitcoinExplorer.Lib.Bytes
import BitcoinExplorer.Lib.Stream
import BitcoinExplorer.Lib.Codec
import BitcoinExplorer.Lib.Items
import BitcoinExplorer.Lib.Varint
import BitcoinExplorer.Lib.KeyStream
import BitcoinExplorer.Lib.Backtrace
import BitcoinExplorer.Lib.FileSystem
import BitcoinExplorer.Basic
import BitcoinExplorer.LegacyCodec
import BitcoinExplorer.Parser.Script
import BitcoinExplorer.Parser.Instructions
import BitcoinExplorer.Parser.Multisig
import BitcoinExplorer.Parser.ScriptKinds
import BitcoinExplorer.Parser.Templates
import BitcoinExplorer.Parser.BlockTypes
import BitcoinExplorer.Parser.Reader
import BitcoinExplorer.Parser.Xor
import BitcoinExplorer.Parser.XorCalls
import BitcoinExplorer.Parser.BlkFile
import BitcoinExplorer.Parser.BlocksDir
import BitcoinExplorer.Parser.BlockIndex
import BitcoinExplorer.Parser.DiskBlockIndex
import BitcoinExplorer.Parser.BestChain
import BitcoinExplorer.Parser.TxIndex
import BitcoinExplorer.Parser.ConnectedBlock
import BitcoinExplorer.Api
import BitcoinExplorer.DataDir
import BitcoinExplorer.Reload
import BitcoinExplorer.BlockCount
import BitcoinExplorer.Iter.VecMap
import BitcoinExplorer.Iter.Ledger
import BitcoinExplorer.Iter.OnDisk
import BitcoinExplorer.Iter.OnDiskRuns
import BitcoinExplorer.Iter.InMem
import BitcoinExplorer.Iter.InMemInv
import BitcoinExplorer.Iter.InMemRuns
import BitcoinExplorer.Iter.Agreement
import BitcoinExplorer.Iter.LookAhead
import BitcoinExplorer.Iter.InputCounts
import BitcoinExplorer.Iter.Provenance
import BitcoinExplorer.Iter.OnDiskFaults
import BitcoinExplorer.Iter.InMemSafety
import BitcoinExplorer.Iter.Deliveries
import BitcoinExplorer.Iter.AnyEnd
import BitcoinExplorer.Iter.Footprint
import BitcoinExplorer.CoreData
import BitcoinExplorer.TxLookup
import BitcoinExplorer.Paths
import BitcoinExplorer.PointQueries
import BitcoinExplorer.BlockViews
import BitcoinExplorer.CoreDir
import BitcoinExplorer.NodeQueries
import BitcoinExplorer.Iter.BlockIter
import BitcoinExplorer.Iter.NodeIterators
import BitcoinExplorer.Unmasked
import BitcoinExplorer.Grown
import BitcoinExplorer.Consistency
import BitcoinExplorer.Formats
import BitcoinExplorer.Iter.FormatRuns
