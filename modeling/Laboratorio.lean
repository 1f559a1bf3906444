import Laboratorio.Xv6.Pipe.Fifo
import Laboratorio.Xv6.Pipe.Wakeup
import Laboratorio.Xv6.Proc.Kill
import Laboratorio.Xv6.Log.Crash
import Laboratorio.Xv6.Log.Protocol
import Laboratorio.Lab07.Storage
import Laboratorio.Shell.Lab02
import Laboratorio.Xv6.Mem.Places
import Laboratorio.Lab05.Buf
import Laboratorio.Xv6.Sleeplock.Safety
import Laboratorio.Xv6.Console.Discipline
import Laboratorio.Xv6.Sched.Handover
import Laboratorio.Xv6.Mkfs.Readable
import Laboratorio.Xv6.Ide.Queue
import Laboratorio.Xv6.Proc.Pids
import Laboratorio.Xv6.Uthread.Rounds
import Laboratorio.Xv6.Inode.ByteArray
import Laboratorio.Xv6.File.Shared
import Laboratorio.Xv6.Bio.Exhaustion
import Laboratorio.Shell.Redirect
import Laboratorio.Xv6.Fs.Namei
import Laboratorio.Xv6.File.Reservation
import Laboratorio.Lab05.Canvas
import Laboratorio.Lab05.Msgbox
import Laboratorio.Xv6.Grep
import Laboratorio.Xv6.Memmove
import Laboratorio.Xv6.Mp
import Laboratorio.Xv6.Syscall
import Laboratorio.Xv6.Vm.Refines
import Laboratorio.Lab05.Wordheap
