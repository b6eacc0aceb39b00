import Ferros.Async.Keyboard
import Ferros.Async.Overflow
import Ferros.Drivers.Receive
import Ferros.Drivers.Settled
import Ferros.Exec.Image
import Ferros.Exec.Stack
import Ferros.Fat.Agreement
import Ferros.Fat.Allocated
import Ferros.Fat.Geometry
import Ferros.Fat.Leaks
import Ferros.Fat.Termination
import Ferros.Files.Cursor
import Ferros.Files.Listing
import Ferros.Files.Normal
import Ferros.Files.Rmdir
import Ferros.Files.Stream
import Ferros.Files.Vectored
import Ferros.Kernel.Children
import Ferros.Kernel.Locks
import Ferros.Kernel.PipeEnds
import Ferros.Mm.Worlds
import Ferros.Net.Client
import Ferros.Net.Sockets
import Ferros.Sched.Runs
import Ferros.Syscall.Cstr
import Ferros.Syscall.Writev
import Ferros.User.Heap
import Ferros.User.Memory
