import Rpcs3.Lib.Transition
import Rpcs3.Lib.Replay
import Rpcs3.Lib.Select
import Rpcs3.Lib.Bits
import Rpcs3.Lib.Word
import Rpcs3.Lib.Leb128
import Rpcs3.Lib.Count
import Rpcs3.Lib.Path
import Rpcs3.Lib.Chain
import Rpcs3.Lib.Flag
import Rpcs3.Lib.Loop
import Rpcs3.Lib.Align
import Rpcs3.Lib.SortedMap
import Rpcs3.Lib.ListSearch
import Rpcs3.Lib.Digits
import Rpcs3.Lib.Deposit
import Rpcs3.Util.Asm
import Rpcs3.Lv2.Sync
import Rpcs3.Lv2.Mutex
import Rpcs3.Lv2.Cond
import Rpcs3.Lv2.MutexSystem
import Rpcs3.Lv2.Semaphore
import Rpcs3.Lv2.EventFlag
import Rpcs3.Lv2.EventFlagSystem
import Rpcs3.Lv2.Rwlock
import Rpcs3.Lv2.RwlockSystem
import Rpcs3.Lv2.EventQueue
import Rpcs3.Lv2.PpuThread
import Rpcs3.Memory.VmBlock
import Rpcs3.Memory.RangeLock
import Rpcs3.Memory.PageTable
import Rpcs3.Memory.BlockAlloc
import Rpcs3.Cell.PpuReservation
import Rpcs3.Cell.PpuReservationSystem
import Rpcs3.Cell.PpuInterpreter
import Rpcs3.Cell.PpuFeedData
import Rpcs3.Cell.PpuRotate
import Rpcs3.Cell.SpuChannel
import Rpcs3.Cell.SpuChannel4
import Rpcs3.Cell.SpuMfc
import Rpcs3.Cell.Rtc
import Rpcs3.Cell.SyncQueue
import Rpcs3.Emu.IdManager
import Rpcs3.Emu.Vfs
import Rpcs3.Loader.Tar
import Rpcs3.Crypto.Unpkg
import Rpcs3.Util.Serialization
import Rpcs3.Util.SharedMutex
import Rpcs3.Util.AddressRange
import Rpcs3.Rsx.DataHeap
import Rpcs3.Rsx.RangedMap
import Rpcs3.Rsx.SimpleArray
import Rpcs3.Util.LfQueue
import Rpcs3.Util.LfArray
import Rpcs3.Lv2.Memory
import Rpcs3.Lv2.P2ps
import Rpcs3.Util.StrFmt
import Rpcs3.Rsx.Swizzle
import Rpcs3.Loader.TarSave
import Rpcs3.Loader.TarRoundTrip
import Rpcs3.Lv2.SleepQueue
import Rpcs3.Lib.BitField
import Rpcs3.Rsx.TiledDma
import Rpcs3.Rsx.TiledDmaRoundTrip
