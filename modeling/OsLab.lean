import OsLab.Jos.MapCalls
import OsLab.Jos.IpcPerm
import OsLab.Jos.SendChecks
import OsLab.Jos.RoundRobin
import OsLab.Jos.Authority
import OsLab.Jos.FreeList
import OsLab.Jos.Printfmt
import OsLab.Jos.ForkSpec
import OsLab.Jos.UpcallSpec
import OsLab.Jos.Pipe
import OsLab.Jos.PipeClosed
import OsLab.Jos.OpenFiles
import OsLab.Jos.Readline
import OsLab.Jos.Memmove
import OsLab.Lab5.Pmap
import OsLab.Xv6.IdeQueue
import OsLab.Xv6.Admission
import OsLab.Xv6.LogCrash
import OsLab.Xv6.ProcLife
import OsLab.Xv6.Kill
import OsLab.Xv6.Priority
import OsLab.Xv6.ProcTimes
import OsLab.Xv6.Sleep
import OsLab.Xv6.Pipe
import OsLab.Xv6.Filewrite
import OsLab.Xv6.Console
import OsLab.Xv6.MallocSize
import OsLab.Xv6.Grep
import OsLab.Xv6.Memmove
