import KernelR.Mm.HeapRuns
import KernelR.Proc.WaitQueues
import KernelR.Proc.Orphans
import KernelR.Mm.BuddyCanonical
import KernelR.Mm.SpaceTeardown
import KernelR.Sync.Mutex
import KernelR.Sync.Mailbox
import KernelR.Sync.RingBuffer
import KernelR.Interrupts.KernelHalf
import KernelR.Proc.Contexts
import KernelR.Proc.Weights
import KernelR.Proc.SharedHalf
import KernelR.Proc.FileLocks
import KernelR.Proc.Deadlines
import KernelR.Proc.ThreadArena
import KernelR.Mm.BootMap
import KernelR.Proc.SequentialRead
import KernelR.Proc.Listing
import KernelR.Boot.TagWalk
import KernelR.User.Shell
