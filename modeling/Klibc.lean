import Klibc.Env.Putenv
import Klibc.Fstype.Identify
import Klibc.Fstype.Sizes
import Klibc.Ipconfig.Bounds
import Klibc.Ipconfig.Checksum
import Klibc.Ipconfig.Components
import Klibc.Ipconfig.Datagrams
import Klibc.Ipconfig.Delivery
import Klibc.Ipconfig.Independence
import Klibc.Ipconfig.Loop
import Klibc.Ipconfig.Requests
import Klibc.Ipconfig.WriteOption
import Klibc.Kinit.Initrd
import Klibc.Kinit.Readfile
import Klibc.Kinit.TwoPasses
import Klibc.Libgcc.Division
import Klibc.Libgcc.Shifts
import Klibc.Malloc.AllOrNothing
import Klibc.Malloc.Coalescing
import Klibc.Md.Major
import Klibc.Md.Raid
import Klibc.Md.Setup
import Klibc.Mem.Memmem
import Klibc.Mem.Strlcat
import Klibc.Mem.Strtok
import Klibc.Nfsmount.NfsMount
import Klibc.Nfsmount.PmapReplies
import Klibc.Nfsmount.Strays
import Klibc.Options.LongOptions
import Klibc.Options.Posix
import Klibc.Options.Rescan
import Klibc.RunInit.Device
import Klibc.Stdio.BufferModes
import Klibc.Stdio.FailedFlush
import Klibc.Stdio.FieldWidth
import Klibc.Stdio.IntegerText
import Klibc.Stdio.NoConversion
import Klibc.Stdio.Position
import Klibc.Stdio.RoundTrip
import Klibc.Stdio.Suppression
import Klibc.Stdlib.Bsearch
import Klibc.Stdlib.Exit
import Klibc.Stdlib.Qsort
import Klibc.Utils.DdOperands
import Klibc.Wildcard.Overrun
import Klibc.Wildcard.Separators
