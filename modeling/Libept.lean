import Libept.Apt.CacheUpdates.Recent
import Libept.Apt.PackageRecord.Independent
import Libept.Apt.Queries
import Libept.Apt.RecordIterator.Sound
import Libept.Apt.RecordIterator.Walk
import Libept.Apt.RecordParser.Lookup
import Libept.Apt.RecordParser.Lossless
import Libept.Apt.Version.Upstream
import Libept.Debtags.Coll.Fast.DrillDown
import Libept.Debtags.Coll.Fast.InsertOrder
import Libept.Debtags.Coll.Fast.Reachable
import Libept.Debtags.Coll.Set
import Libept.Debtags.Coll.TextFormat.Element
import Libept.Debtags.Coll.TextFormat.LeftOver
import Libept.Debtags.Coll.TextFormat.Newline
import Libept.Debtags.Debtags
import Libept.Debtags.Vocabulary.Descriptions
import Libept.Debtags.Vocabulary.Load
import Libept.Debtags.Vocabulary.NextRecord
import Libept.Debtags.Vocabulary.Read
import Libept.Utils.String.Base64.RoundTrip
import Libept.Utils.String.CString
import Libept.Utils.String.Split.SkipEmpty
import Libept.Utils.String.Url
import Libept.Utils.Sys.Descriptors
import Libept.Utils.Sys.Makedirs.Removing
import Libept.Utils.Sys.Makedirs.Together
import Libept.Utils.Sys.Mappings
import Libept.Utils.Sys.Normpath
import Libept.Utils.Sys.Rmtree.Ending
import Libept.Utils.Sys.Sharing.ReadFile
import Libept.Utils.Sys.WriteFile
