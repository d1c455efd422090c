import JungeyOs.Lib.Run
import JungeyOs.Jlfs.Crash
import JungeyOs.Jlfs.DeviceErrors
import JungeyOs.Sha256
import JungeyOs.Ota.PowerCuts
import JungeyOs.Revocation
import JungeyOs.Receive
import JungeyOs.Delivery
import JungeyOs.Sched.Handover
import JungeyOs.RoundTrip
import JungeyOs.Virtio
import JungeyOs.Kv.Undisturbed
import JungeyOs.Kv.Policy
import JungeyOs.Kv.Budget
import JungeyOs.Mm.Race
import JungeyOs.Ota.Boot
import JungeyOs.Ota.LostWrites
import JungeyOs.Audit.Reboots
import JungeyOs.Audit.Tamper
import JungeyOs.Audit.Fields
import JungeyOs.Jlfs.History
import JungeyOs.Jlfs.ReadBack
import JungeyOs.Intents
import JungeyOs.Undone
import JungeyOs.Mm.Conservation
import JungeyOs.Mm.HeapTotal
import JungeyOs.Mm.Paging
import JungeyOs.Mm.Space
import JungeyOs.Mm.Asid
import JungeyOs.Regions
import JungeyOs.Sizes
import JungeyOs.Boot.ReadErrors
import JungeyOs.Display.Frame
import JungeyOs.Display.Replies
import JungeyOs.Syscall.Authority
import JungeyOs.Syscall.Arithmetic
import JungeyOs.Tensor.Admission
import JungeyOs.Tensor.Preemption
import JungeyOs.Tensor.Wait
import JungeyOs.Sha256.Stream
import JungeyOs.Audit.Appends
import JungeyOs.Devices
import JungeyOs.Irq
import JungeyOs.ModelStore.Loading
import JungeyOs.ModelStore.Transparent
import JungeyOs.Mm.HalfMapped
import JungeyOs.Mm.HighHalf
import JungeyOs.Mm.UserBytes
import JungeyOs.Elf
import JungeyOs.Elf.Bounds
import JungeyOs.Time
import JungeyOs.Tensor.Cooling
import JungeyOs.Blkdrv
import JungeyOs.Display.Moves
import JungeyOs.Display.Stale
import JungeyOs.Dtb.Devices
import JungeyOs.Dtb.Bounds
import JungeyOs.Tensor.Pick
import JungeyOs.Lineage
import JungeyOs.Sealed
import JungeyOs.Mm.UserCopies
import JungeyOs.Sched.Tickless
import JungeyOs.Inputdrv.Events
import JungeyOs.Mm.HeapGrowth
import JungeyOs.Sched.Fairness
import JungeyOs.Sched.Resume
import JungeyOs.Sync
import JungeyOs.Boot.Start
import JungeyOs.Sched.AddressSpace
import JungeyOs.Display.Session
import JungeyOs.Storage.Latest
import JungeyOs.Storage.Stack
