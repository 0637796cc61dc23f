import TuixOS.Lib.Chain
import TuixOS.GiveUp
import TuixOS.Handover
import TuixOS.MkfsLimits
import TuixOS.MkfsRoundTrip
import TuixOS.BootPool
import TuixOS.Syscall
import TuixOS.RoundRobin
import TuixOS.Pic
import TuixOS.Queue
import TuixOS.SleepLock
import TuixOS.FreeRange
import TuixOS.MapRange
import TuixOS.UvmExhaustion
import TuixOS.AllocProcess
import TuixOS.IappendSplit
import TuixOS.RootSize
import TuixOS.Strncat
import TuixOS.TagWalk
import TuixOS.SysFile
import TuixOS.IdeErrors
import TuixOS.SerialPrintf
import TuixOS.MkfsFaults
import TuixOS.Strstr
import TuixOS.StrOrder
import TuixOS.IntToStr
import TuixOS.Printers
import TuixOS.Gdt
import TuixOS.Idt
import TuixOS.InService
import TuixOS.Interrupts
import TuixOS.InterruptEntry
import TuixOS.IrqRun
import TuixOS.StrCopy
import TuixOS.StrChr
import TuixOS.InitUser
import TuixOS.BootUser
import TuixOS.SleepOnce
import TuixOS.Isolation
import TuixOS.Fairness
import TuixOS.FlatSegments
import TuixOS.Lib.Grid
import TuixOS.Mappings
import TuixOS.ScreenGrid
import TuixOS.SerialChip
import TuixOS.DeviceInit
import TuixOS.ProcessLife
import TuixOS.Dispatch
