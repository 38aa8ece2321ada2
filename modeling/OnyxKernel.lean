import OnyxKernel.OnyxFs.Crash
import OnyxKernel.OnyxFs.Compress
import OnyxKernel.OnyxFs.Allocator
import OnyxKernel.OnyxFs.Readdir
import OnyxKernel.Proc.SignalMask
import OnyxKernel.Proc.RootCount
import OnyxKernel.Proc.Orphans
import OnyxKernel.Proc.LockOrder
import OnyxKernel.Ipc.Access
import OnyxKernel.Ipc.WaitLists
import OnyxKernel.Mm.Confined
import OnyxKernel.Mm.FrameLedger
import OnyxKernel.Mm.PmmRun
import OnyxKernel.Mm.Translation
import OnyxKernel.Net.Tcp.Release
import OnyxKernel.Net.Tcp.Stream
import OnyxKernel.Net.OwnershipRun
import OnyxKernel.Net.Arp
import OnyxKernel.Net.Interfaces
import OnyxKernel.Net.Datagrams
import OnyxKernel.Vfs.Spelling
import OnyxKernel.Vfs.Pipe
import OnyxKernel.Vfs.PtyRun
import OnyxKernel.Net.Lock
import OnyxKernel.Syscall.PollRead
import OnyxKernel.OnyxFs.Truncate
import OnyxKernel.Auth.Login
import OnyxKernel.Video.AltScreen
import OnyxKernel.Usb.Rings
