import Pintos.Threads.PageAllocator
import Pintos.Threads.Condition
import Pintos.Threads.TimeSlice
import Pintos.Userprog.Elf
import Pintos.Devices.Partition
import Pintos.Vm.StackGrowth
import Pintos.Vm.Registered
import Pintos.Vm.Rekey
import Pintos.Vm.SwapSpace
import Pintos.Vm.FrameReuse
import Pintos.Vm.Purge
import Pintos.Vm.EvictFails
import Pintos.Vm.EvictRace
import Pintos.Vm.FrameOwners
import Pintos.Vm.SlotOwners
import Pintos.Vm.Pinning
import Pintos.Userprog.Execute
import Pintos.Userprog.Wait
import Pintos.Userprog.SegmentImage
import Pintos.Userprog.ThreadPages
import Pintos.Userprog.FileSema
import Pintos.Userprog.Buffers
import Pintos.Kernel.BitmapCalls
import Pintos.Kernel.ListSort
import Pintos.Kernel.HashLinks
import Pintos.Threads.BlockSizes
import Pintos.Filesys.DirMap
import Pintos.Userprog.Descriptors
import Pintos.Userprog.PageMap
import Pintos.Devices.IntqFifo
import Pintos.Stdlib.Arithmetic
import Pintos.Filesys.Append
import Pintos.Stdlib.Search
import Pintos.Stdlib.String
