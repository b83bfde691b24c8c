import DamnOS.Framework.Program
import DamnOS.Framework.Bytes
import DamnOS.FileSystem.Code
import DamnOS.FileSystem.Create
import DamnOS.FileSystem.Removal
import DamnOS.FileSystem.Truncation
import DamnOS.FileSystem.FailedCreate
import DamnOS.FileSystem.FailedWrite
import DamnOS.FileSystem.Namespace
import DamnOS.FileSystem.EmptyDirectory
import DamnOS.FileSystem.DirectoryGrowth
import DamnOS.Server.RequestPage
import DamnOS.Server.OpenDiscipline
import DamnOS.Server.FileIds
import DamnOS.Programs.Curpath
import DamnOS.Programs.ShellPaths
import DamnOS.User.Pipe
import DamnOS.User.PageFault
import DamnOS.Framework.Chain
import DamnOS.Framework.References
import DamnOS.Kernel.Messages
import DamnOS.Kernel.Privilege
import DamnOS.Kernel.WriteAccess
import DamnOS.Kernel.Authority
import DamnOS.Kernel.Startup
import DamnOS.Kernel.Window
import DamnOS.Kernel.UserPointers
import DamnOS.Kernel.Unmapped
import DamnOS.Kernel.Exhaustion
import DamnOS.Kernel.SentPages
import DamnOS.Kernel.RoundRobin
import DamnOS.Kernel.Reclaim
import DamnOS.Kernel.ExceptionStack
import DamnOS.Kernel.PageInsert
import DamnOS.User.FaultIsolation
import DamnOS.User.Spawn
import DamnOS.Programs.OpenResult
import DamnOS.Server.ReadOnly
import DamnOS.Server.Orphans
import DamnOS.Server.Holding
import DamnOS.Kernel.EnvIds
import DamnOS.Kernel.PageInit
import DamnOS.Kernel.RegionAlloc
import DamnOS.User.SharedCopies
import DamnOS.User.FaultCheck
import DamnOS.User.PipePositions
import DamnOS.Framework.AddressSpaces
import DamnOS.User.Pages
import DamnOS.User.Descriptors
import DamnOS.User.PagingKernel
import DamnOS.User.PipeCreate
import DamnOS.User.Dup
import DamnOS.Framework.Asking
import DamnOS.User.PageCalls
import DamnOS.User.FileReads
import DamnOS.User.StoredFile
import DamnOS.User.MapSegment
import DamnOS.User.SpawnProgram
import DamnOS.User.SpawnCleanup
import DamnOS.User.SpawnHeaders
import DamnOS.Framework.CStrings
import DamnOS.Programs.Gettoken
import DamnOS.Programs.Args
import DamnOS.Programs.Vprintfmt
import DamnOS.Programs.FormatText
import DamnOS.Programs.Numerals
import DamnOS.User.Cat
import DamnOS.Programs.Cd
import DamnOS.Programs.CdDirectory
import DamnOS.Programs.Runcmd
import DamnOS.Programs.ArgumentVector
import DamnOS.Programs.PathBuffers
import DamnOS.Programs.ShellLines
import DamnOS.Programs.StringFields
import DamnOS.Programs.Sinks
import DamnOS.Programs.Vsnprintf
import DamnOS.Framework.Copies
import DamnOS.Programs.Memmove
import DamnOS.Programs.ConsoleOutput
import DamnOS.Framework.Rings
import DamnOS.Kernel.ConsoleInput
import DamnOS.FileSystem.Bitmaps
import DamnOS.Framework.Loops
import DamnOS.Framework.Holes
import DamnOS.HostTool.Image
import DamnOS.HostTool.Finders
import DamnOS.HostTool.Termination
import DamnOS.HostTool.Unlink
import DamnOS.HostTool.RemoveFile
import DamnOS.Framework.Windows
import DamnOS.Framework.Scans
import DamnOS.Kernel.Screen
import DamnOS.Programs.Readline
import DamnOS.Kernel.Typing
import DamnOS.Kernel.Keyboard
import DamnOS.Kernel.ConsoleLine
import DamnOS.Kernel.Monitor
import DamnOS.Kernel.SpinLock
import DamnOS.Kernel.BootLoader
import DamnOS.Programs.Strtol
import DamnOS.Programs.ArgValues
import DamnOS.Programs.Fprintf
import DamnOS.HostTool.Edits
import DamnOS.Programs.Strings
