import ChefOs.Mm.Clients
import ChefOs.Mm.PmmInit
import ChefOs.Mm.PmmCalls
import ChefOs.Mm.HeapFit
import ChefOs.Mm.VmmFailure
import ChefOs.Mm.VmmAccesses
import ChefOs.Fs.Lookup
import ChefOs.Fs.Paths
import ChefOs.Fs.Kinds
import ChefOs.Fs.Cursors
import ChefOs.Fs.Create
import ChefOs.Fs.Limits
import ChefOs.Sys.Descriptors
import ChefOs.Sys.FileTable
import ChefOs.Sys.Formats
import ChefOs.User.Cat
import ChefOs.Arch.Isr
import ChefOs.Arch.SyscallEntry
import ChefOs.Sys.UserMemory
import ChefOs.Drivers.Mouse
import ChefOs.Drivers.Ata
import ChefOs.Drivers.Rtc
import ChefOs.Video.Console
import ChefOs.Boot.MainLoop
import ChefOs.Compositor.Sizes
import ChefOs.Compositor.Render
import ChefOs.Compositor.Leaks
import ChefOs.Compositor.Focus
import ChefOs.Compositor.Fills
import ChefOs.Compositor.Idempotent
import ChefOs.CString.Order
import ChefOs.CString.Copies
import ChefOs.Compositor.Cycling
import ChefOs.User.Echo
import ChefOs.Drivers.Sleep
import ChefOs.Video.Present
import ChefOs.Compositor.ShellUi
import ChefOs.Compositor.Frame
import ChefOs.Drivers.Serial
import ChefOs.Proc.Process
import ChefOs.Drivers.Pci
import ChefOs.Lib.Ps2
import ChefOs.Lib.I8042
import ChefOs.Drivers.Packets
import ChefOs.Drivers.MouseInit
import ChefOs.Lib.Protection
import ChefOs.Arch.Gdt
