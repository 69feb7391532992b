import DVELevelDB.DirectAndBatched
import DVELevelDB.LongWrites
import DVELevelDB.BatchPrograms
import DVELevelDB.DefaultOptions
import DVELevelDB.Snapshots
import DVELevelDB.FilterBlock
import DVELevelDB.StringOrder
import DVELevelDB.UnchangedKeys
import DVELevelDB.OptionValues
import DVELevelDB.FilteredReads
import DVELevelDB.FailedReads
import DVELevelDB.AcceptedRuns
import DVELevelDB.ComparatorNames
import DVELevelDB.Properties
import DVELevelDB.ContiguousBytes
import DVELevelDB.Scans
import DVELevelDB.SurvivingWrites
import DVELevelDB.LogReader
import DVELevelDB.EditFormat
import DVELevelDB.WriterQueue
import DVELevelDB.BlockFormat
import DVELevelDB.Merger
import DVELevelDB.TwoLevel
import DVELevelDB.InternalTables
