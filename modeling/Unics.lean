import Unics.Lib.Run
import Unics.Lib.Words
import Unics.Lib.Ledger
import Unics.Lib.Forest
import Unics.Lib.Contents
import Unics.Lib.Scan
import Unics.Lib.TwoLevel
import Unics.Lib.Windows
import Unics.Lib.Sha256
import Unics.Lib.Checked
import Unics.Lib.EditLine
import Unics.Lib.Layout
import Unics.Lib.Search
import Unics.Lib.Stretch
import Unics.Lib.TailQueue
import Unics.Lib.Recent
import Unics.Lib.Fields
import Unics.Lib.Lomuto
import Unics.Lib.Bisect
import Unics.Lib.Numerals
import Unics.Lib.Turns
import Unics.Lib.Reading
import Unics.Lib.NumberText
import Unics.Lib.PrefixCode
import Unics.Lib.TrialDivision
import Unics.Types
import Unics.Libc.CString
import Unics.Libc.String
import Unics.Drivers.Pmm
import Unics.Drivers.Vmm
import Unics.Drivers.Paging
import Unics.Drivers.Sha2
import Unics.Drivers.Vga
import Unics.Drivers.Fs
import Unics.Drivers.Hdmi
import Unics.Laws.Pmm.Bits
import Unics.Laws.Pmm.Pages
import Unics.Laws.Pmm.Calls
import Unics.Laws.Pmm.Ownership
import Unics.Laws.Pmm.Fresh
import Unics.Laws.Pmm.RoundTrip
import Unics.Laws.Pmm.Contiguous
import Unics.Laws.Pmm.Exhaustive
import Unics.Laws.Pmm.Attempts
import Unics.Laws.Pmm.Failure
import Unics.Laws.Pmm.Freeing
import Unics.Laws.Pmm.Extent
import Unics.Laws.Pmm.Reserve
import Unics.Laws.Vmm.FirstFit
import Unics.Laws.Vmm.Calls
import Unics.Laws.Vmm.Isolation
import Unics.Laws.Vmm.Release
import Unics.Laws.Vmm.Aligned
import Unics.Laws.Vmm.Asserts
import Unics.Laws.Vmm.Counts
import Unics.Laws.Vmm.Identity
import Unics.Laws.Vmm.Stats
import Unics.Laws.Vmm.Largest
import Unics.Laws.Vmm.Permanent
import Unics.Laws.Paging.Frames
import Unics.Laws.Paging.Map
import Unics.Laws.Paging.Rights
import Unics.Laws.Sha2.Transform
import Unics.Laws.Sha2.Stream
import Unics.Laws.Vga.Invariant
import Unics.Laws.Vga.Text
import Unics.Laws.Vga.Console
import Unics.Laws.Vga.Typing
import Unics.Laws.Fs.Effects
import Unics.Laws.Fs.Calls
import Unics.Laws.Fs.Tree
import Unics.Laws.Fs.Names
import Unics.Laws.Fs.Blocks
import Unics.Laws.Fs.Overlay
import Unics.Laws.Fs.Failures
import Unics.Laws.Fs.Inodes
import Unics.Laws.Fs.Creates
import Unics.Laws.Fs.Paths
import Unics.Laws.Fs.Store
import Unics.Laws.Fs.StoreCalls
import Unics.Laws.Fs.Refines
import Unics.Laws.Hdmi.Mirror
import Unics.Arch.Cpu
import Unics.Laws.Arch.Cpu
import Unics.Sbin.Boot
import Unics.Laws.Sbin.Init
import Unics.Sbin.Process
import Unics.Sbin.Login
import Unics.Sbin.LoginScreen
import Unics.Laws.Sbin.Boot
import Unics.Laws.Sbin.Process
import Unics.Laws.Sbin.Login
import Unics.Laws.Sbin.LoginScreen
import Unics.Bin.Files
import Unics.Laws.Bin.Rmdir
import Unics.Bin.Cd
import Unics.Laws.Bin.Cd
import Unics.Laws.Bin.Cwd
import Unics.Laws.Bin.Show
import Unics.Laws.Bin.Mv
import Unics.Bin.Cp
import Unics.Laws.Bin.Cp
import Unics.Bin.Ed
import Unics.Laws.Bin.EdWrite
import Unics.Laws.Bin.EdSessions
import Unics.Laws.Bin.EdStore
import Unics.Laws.Bin.Ls
import Unics.Laws.Bin.Touch
import Unics.Laws.Bin.Rm
import Unics.Libc.Unistd
import Unics.Laws.Libc.Calls
import Unics.Laws.Libc.Descriptors
import Unics.Laws.Libc.Independence
import Unics.Laws.Libc.Permissions
import Unics.Laws.Libc.Agreement
import Unics.Laws.Libc.FailedOpen
import Unics.Laws.Libc.Lseek
import Unics.Dev.Keyboard
import Unics.Dev.Shell
import Unics.Dev.ShellRun
import Unics.Libc.Strings
import Unics.Libc.Stdlib
import Unics.Libc.Sorting
import Unics.Libc.Stdio
import Unics.Libc.Printf
import Unics.Libc.Scanf
import Unics.Libc.Numbers
import Unics.Libc.Vprintf
import Unics.Libc.Fnmatch
import Unics.Laws.Libc.Strings
import Unics.Laws.Shell.Turns
import Unics.Laws.Shell.Editor
import Unics.Laws.Shell.Display
import Unics.Laws.Shell.History
import Unics.Laws.Shell.Tokens
import Unics.Laws.Shell.Commands
import Unics.Laws.Shell.Session
import Unics.Laws.Shell.Builtins
import Unics.Laws.Crypto.Arc4
import Unics.Laws.Dev.Keyboard
import Unics.Laws.Libc.Getchar
import Unics.Laws.Libc.Console
import Unics.Laws.Libc.Numbers
import Unics.Laws.Libc.Printf
import Unics.Laws.Libc.Fields
import Unics.Laws.Libc.Vprintf
import Unics.Laws.Libc.Unsigned
import Unics.Laws.Libc.Scan
import Unics.Laws.Libc.Truncation
import Unics.Laws.Libc.Patterns
import Unics.Laws.Libc.FnmatchRuns
import Unics.Laws.Libc.Fnmatch
import Unics.Laws.Libc.FnmatchPathname
import Unics.Laws.Libc.FnmatchPeriod
import Unics.Laws.Libc.Heap
import Unics.Laws.Libc.Sorting
import Unics.Laws.Libc.Copies
import Unics.Kern.Pclock
import Unics.Kern.Srp
import Unics.Kern.Vis
import Unics.Laws.Kern.Mprod
import Unics.Laws.Kern.Snapshot
import Unics.Laws.Kern.Quiescent
import Unics.Laws.Kern.Srp
import Unics.Laws.Kern.Vis
import Unics.Bin.Numbers
import Unics.Libc.Time
import Unics.Laws.Kern.VisCodes
import Unics.Laws.Libc.Strtol
import Unics.Laws.Libc.ScanFields
import Unics.Laws.Libc.ScanReaders
import Unics.Laws.Libc.Scanf
import Unics.Laws.Bin.Factor
import Unics.Laws.Bin.Bc
import Unics.Laws.Libc.Time
import Unics.Laws.Libc.Sleep
import Unics.Laws.Bin.Expr
import Unics.Laws.Bin.Traps
import Unics.Lib.Congruential
import Unics.Laws.Bin.Rand
import Unics.Laws.Libc.Rand
import Unics.Laws.Libc.ReadBack
import Unics.Laws.Libc.Terminal
import Unics.Laws.Pmm.FirstZero
import Unics.Lib.Blocks
import Unics.Kern.Intrmap
import Unics.Laws.Kern.Intrmap
import Unics.Lib.Rows
import Unics.Laws.Vga.Lines
import Unics.Laws.Pmm.Regular
import Unics.Laws.Pmm.Accounts
