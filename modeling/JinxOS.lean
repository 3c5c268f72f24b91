import JinxOS.Klib.HashtableGrows
import JinxOS.Klib.KeyBytes
import JinxOS.Thread.Termination
import JinxOS.Synch.CvDepth
import JinxOS.Thread.JoinSafety
import JinxOS.Klib.QueueTs
import JinxOS.Klib.BitmapTs
import JinxOS.Mem.Pagereg
import JinxOS.Proc.Members
import JinxOS.Synch.WchanTable
import JinxOS.Kern.Syscall
import JinxOS.Mem.DoubleFree
import JinxOS.Proc.Image
import JinxOS.Klib.BitmapSet
import JinxOS.Thread.ThreadLists
import JinxOS.Klib.ListCalls
import JinxOS.Klib.ArrayCalls
import JinxOS.Proc.PidExhaust
import JinxOS.Mem.Rights
import JinxOS.Mem.Mmio
import JinxOS.Klib.HeapValid
import JinxOS.Debug.StabContract
import JinxOS.Klib.StrFields
import JinxOS.Klib.Atoi
import JinxOS.Console.Input
import JinxOS.Console.Readline
import JinxOS.Console.Runcmd
import JinxOS.Hw.Terminal
import JinxOS.Hw.Pit
import JinxOS.Klib.Time
import JinxOS.Hw.E820
import JinxOS.Cpu.Smp
import JinxOS.Kern.Descriptors
import JinxOS.Klib.Random
import JinxOS.Boot.Bmain
import JinxOS.Debug.StabReads
import JinxOS.Thread.Stack
import JinxOS.Klib.StringOrder
