import HobbyOs.Lib.Riscv
import HobbyOs.Lib.Interrupts
import HobbyOs.Lib.Outcome
import HobbyOs.Lib.Transition
import HobbyOs.Lib.Ring
import HobbyOs.Lib.Hoare
import HobbyOs.Lib.References
import HobbyOs.Lib.Radix
import HobbyOs.Config
import HobbyOs.State
import HobbyOs.Memory
import HobbyOs.PageAlloc
import HobbyOs.Vm
import HobbyOs.Sched
import HobbyOs.Pipe
import HobbyOs.Uart
import HobbyOs.Bakedinfs
import HobbyOs.Splitting
import HobbyOs.Paths
import HobbyOs.Exact
import HobbyOs.Fs
import HobbyOs.Proc
import HobbyOs.Syscall
import HobbyOs.Machine
import HobbyOs.Core
import HobbyOs.Frame
import HobbyOs.Steady
import HobbyOs.Pages
import HobbyOs.Mark
import HobbyOs.PipeOps
import HobbyOs.Effect
import HobbyOs.Calls
import HobbyOs.Fork
import HobbyOs.Step
import HobbyOs.PipeRun
import HobbyOs.Boot
import HobbyOs.Base
import HobbyOs.Lives
import HobbyOs.Locks
import HobbyOs.Parts
import HobbyOs.Frames
import HobbyOs.CallFrames
import HobbyOs.FileObjects
import HobbyOs.Lookup
import HobbyOs.Inspect
import HobbyOs.KernelStep
import HobbyOs.FileCalls
import HobbyOs.Recycled
import HobbyOs.OpenFiles
import HobbyOs.Failures
import HobbyOs.Moves
import HobbyOs.Kinship
import HobbyOs.SlotStates
import HobbyOs.Entries
import HobbyOs.Procfs
import HobbyOs.Births
import HobbyOs.Waits
import HobbyOs.UartRing
import HobbyOs.UartQueue
import HobbyOs.UartWakeup
import HobbyOs.PipeEnds
import HobbyOs.PageLedger
import HobbyOs.Argv
import HobbyOs.Balance
import HobbyOs.Sv39
import HobbyOs.Fifo
import HobbyOs.PipeAccounts
import HobbyOs.PipeSleep
import HobbyOs.PipeBooks
import HobbyOs.Preempt
import HobbyOs.EarlyWakeup
import HobbyOs.LostWakeup
import HobbyOs.Targets
import HobbyOs.Pids
import HobbyOs.Churn
import HobbyOs.Tree
import HobbyOs.ForkFailure
import HobbyOs.UserPages
import HobbyOs.Scheduler
import HobbyOs.Listing
import HobbyOs.Reads
import HobbyOs.Shell
import HobbyOs.ShellParse
import HobbyOs.ShellTraverse
import HobbyOs.ShellScript
import HobbyOs.Printf
import HobbyOs.PrintRadix
import HobbyOs.PrintfText
import HobbyOs.PrintfBounds
import HobbyOs.Fdt
import HobbyOs.FdtTree
import HobbyOs.FdtWalk
import HobbyOs.OwnedTables
import HobbyOs.FreeTable
import HobbyOs.CopyTable
import HobbyOs.ArgvBounds
import HobbyOs.InjectArgv
import HobbyOs.Lcd
import HobbyOs.LcdLines
import HobbyOs.Gpio
import HobbyOs.LcdPins
import HobbyOs.LcdCells
import HobbyOs.NumberText
import HobbyOs.Ustr
import HobbyOs.DecimalText
import HobbyOs.Strncmp
import HobbyOs.ShellCode
import HobbyOs.Wiring
import HobbyOs.InUse
import HobbyOs.Pipeline
import HobbyOs.Traps
import HobbyOs.Swtch
import HobbyOs.TimerTrap
import HobbyOs.TablePages
