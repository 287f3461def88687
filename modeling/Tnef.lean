import Tnef.Alloc
import Tnef.Util
import Tnef.Utf8
import Tnef.MapiAttr
import Tnef.MapiSafe
import Tnef.MapiCodec
import Tnef.RtfStored
import Tnef.Attr
import Tnef.Stream
import Tnef.PathSafe
import Tnef.FileStrings
import Tnef.ParseGroups
import Tnef.Main
import Tnef.RtfMachine
import Tnef.NoClobber
import Tnef.StreamEnds
import Tnef.MapiDump
import Tnef.Debug
import Tnef.Bodies
import Tnef.Preference
import Tnef.Lib.Fields
import Tnef.MapiForm
import Tnef.MapiInert
import Tnef.Lib.Crc
import Tnef.RtfCrc
import Tnef.Lib.Escape
import Tnef.PathEscape
import Tnef.RtfGuard
import Tnef.MapiSkip
import Tnef.FileOrder
import Tnef.SkippedList
import Tnef.Lib.Heap
import Tnef.BodyHeap
import Tnef.FreeNumber
import Tnef.Utf8Machine
import Tnef.Utf8Cursors
import Tnef.RtfCursors
import Tnef.IntCursors
import Tnef.RtfWindow
import Tnef.Backups
import Tnef.Checksums
import Tnef.DryRun
import Tnef.Interleaving
import Tnef.Truncation
import Tnef.Confined
import Tnef.Faults
import Tnef.RunLeaks
