import LibSources.HashLookup
import LibSources.NetRun
import LibSources.ClientSync
import LibSources.TreeCursor
import LibSources.DecimalRemainder
import LibSources.DecimalRoundModes
import LibSources.DecimalText
import LibSources.Password
import LibSources.Strntoull10rndExact
import LibSources.QsortRun
import LibSources.EscapeString
import LibSources.RowPacket
import LibSources.WaitingThreads
import LibSources.ThrLockRun
import LibSources.Radixsort
import LibSources.PriorityQueue
import LibSources.Base64
import LibSources.DynamicArray
import LibSources.BitmapCalls
import LibSources.TreeParents
import LibSources.DecimalBinCheck
import LibSources.DecimalInt
import LibSources.IntegerPrint
import LibSources.NetCommand
import LibSources.FrmBlob
import LibSources.ClientFlush
import LibSources.ResultCursor
import LibSources.WildCompare
import LibSources.Typelib
