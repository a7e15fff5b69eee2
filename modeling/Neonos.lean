import Neonos.Runs
import Neonos.Fallible
import Neonos.StableChoice
import Neonos.Sweep
import Neonos.ByteMemory
import Neonos.WhileLoop
import Neonos.SortedLine
import Neonos.Separators
import Neonos.Rv64
import Neonos.Rv64User
import Neonos.Model.TrapFrame
import Neonos.Model.Scheduler
import Neonos.Model.Batch
import Neonos.Model.UserTask
import Neonos.Model.UserScheduler
import Neonos.Model.Assembly
import Neonos.Model.Scheduling
import Neonos.Model.Mlfq
import Neonos.ReadyQueue
import Neonos.BatchSteps
import Neonos.ReadyInvariant
import Neonos.QueueCalls
import Neonos.QueueOrder
import Neonos.BudgetLedger
import Neonos.TaskIsolation
import Neonos.TrapRoundTrip
import Neonos.RunTask
import Neonos.SchedulingPass
import Neonos.SchedulingTrace
import Neonos.RoundRobin
import Neonos.FirstCome
import Neonos.OneMachine
import Neonos.SchedulingTable
import Neonos.ShortestFirst
import Neonos.MlfqEntry
import Neonos.MlfqPass
import Neonos.MlfqTrace
import Neonos.BusyTime
import Neonos.SameRoundRobin
import Neonos.SchedulingPast
import Neonos.MlfqPast
import Neonos.Model.Process
import Neonos.Model.UserErrors
import Neonos.Model.UserSyscalls
import Neonos.ProcessRuns
import Neonos.ResumePc
import Neonos.LabGrading
import Neonos.BoostWindow
import Neonos.NoStarvation
import Neonos.TrapAccounts
import Neonos.FixedQuantum
import Neonos.ReportCounters
import Neonos.TimeArithmetic
import Neonos.TimerLimit
import Neonos.MlfqHistory
import Neonos.PriorityOrder
import Neonos.FullQuantum
import Neonos.InputOrder
import Neonos.FileFraming
import Neonos.LineSearch
import Neonos.Model.LabTemplate
import Neonos.TemplateEdit
import Neonos.UserChecksum
import Neonos.UserExits
import Neonos.IdealClock
import Neonos.MlfqTurn
import Neonos.SameTurn
import Neonos.SameMlfq
import Neonos.Inevitable
import Neonos.Rv64Linked
import Neonos.Model.Boot
import Neonos.BootImage
import Neonos.Model.UserPrograms
import Neonos.LessonSteps
import Neonos.UserBatch
import Neonos.BatchEnds
import Neonos.SharedMemory
import Neonos.SyscallLessons
import Neonos.SchedulerRun
import Neonos.AssemblyTurn
