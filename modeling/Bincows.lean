import Bincows.Memory.BootMap
import Bincows.Memory.HeapSizes
import Bincows.Memory.PageUnmapping
import Bincows.Sched.SchedulerRuns
import Bincows.Fs.FatSectors
import Bincows.Fs.HandleRuns
import Bincows.Fs.PipeFifo
import Bincows.Fs.FatCacheView
import Bincows.Fs.FileMetadata
import Bincows.Drivers.NvmeCommands
import Bincows.Drivers.BlockCacheFetches
import Bincows.Drivers.BlockCacheRanges
import Bincows.Fs.FileAccess
import Bincows.Syscalls.ProgramBreak
import Bincows.Fs.PipeWaits
import Bincows.Syscalls.Futexes
import Bincows.Syscalls.PathArguments
import Bincows.Syscalls.DirectoryReads
import Bincows.Syscalls.Duplication
import Bincows.Sched.SharedMemoryRuns
import Bincows.Sched.ThreadStacks
import Bincows.Sched.ThreadIds
import Bincows.Fs.DirectoryListing
import Bincows.Drivers.KeyboardRing
import Bincows.Blibc.ThreadRecords
import Bincows.Sched.SleepingRuns
import Bincows.Sched.SignalMasks
import Bincows.Drivers.TerminalRange
import Bincows.Drivers.EscapeSequences
import Bincows.Syscalls.ExecFailure
import Bincows.Fs.Opening
import Bincows.Fs.Partitions
import Bincows.Fs.BootSector
import Bincows.Fs.PathTokens
import Bincows.Blibc.Environment
import Bincows.Blibc.SignalDispositions
import Bincows.Programs.TextEditor
import Bincows.Sched.ElfReads
import Bincows.Lib.Strings
import Bincows.Blibc.Streams
