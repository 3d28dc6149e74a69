import OsbKernel.Proc.Partition
import OsbKernel.Proc.ForkFailure
import OsbKernel.Proc.Affinity
import OsbKernel.Proc.SlotReuse
import OsbKernel.Smp.Dispatch
import OsbKernel.Smp.Deadlock
import OsbKernel.Smp.WakeupExact
import OsbKernel.Fs.LogGroup
import OsbKernel.Fs.LogRecovery
import OsbKernel.Fs.Balanced
import OsbKernel.Proc.Kill
import OsbKernel.Smp.CasCounter
import OsbKernel.Ipc.PipeSleep
import OsbKernel.Dev.Console
import OsbKernel.Vm.PageMaps
import OsbKernel.Vm.ExecCorrect
import OsbKernel.Fs.FileWrite
import OsbKernel.Fs.Consistency
import OsbKernel.User.Memmove
import OsbKernel.Ipc.PipeRead
import OsbKernel.User.GrepRead
import OsbKernel.User.MallocSafe
import OsbKernel.Vm.MemoryRuns
import OsbKernel.Smp.Discipline
