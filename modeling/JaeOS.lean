import JaeOS.Model.Init
import JaeOS.Refine.AslMap
import JaeOS.Lib.FifoSem
import JaeOS.Lib.LeadsTo
import JaeOS.Refine.Effect
import JaeOS.Refine.Passage
import JaeOS.Properties.Deadlock
import JaeOS.Properties.CurrentProcess
import JaeOS.Properties.ContextSwitch
import JaeOS.Properties.SemopEffect
import JaeOS.Properties.Termination
import JaeOS.Properties.Tick
import JaeOS.Properties.Descendants
import JaeOS.Properties.TimeSlice
import JaeOS.Properties.CpuTime
import JaeOS.Properties.PassUp
import JaeOS.Properties.PidFreshness
import JaeOS.Properties.UserTrap
import JaeOS.Properties.ClockCounter
import JaeOS.Properties.DeviceSem
import JaeOS.Properties.ListMacros
import JaeOS.Properties.ProcessTree
import JaeOS.Properties.OutBlocked
import JaeOS.Properties.ValueRange
import JaeOS.Properties.SoftCount
import JaeOS.Properties.PseudoClock
import JaeOS.Properties.Preemption
import JaeOS.Properties.StatusWord
import JaeOS.Properties.Handlers
import JaeOS.Properties.Synchronous
import JaeOS.Properties.Stranded
import JaeOS.Properties.Family
import JaeOS.Properties.Rotation
import JaeOS.Properties.Outside
import JaeOS.Properties.Isolation
import JaeOS.Properties.Waiters
import JaeOS.Properties.Exclusion
import JaeOS.Properties.Supply
import JaeOS.Properties.Progress
import JaeOS.Properties.Resume
import JaeOS.Properties.Newborn
import JaeOS.Properties.Confinement
import JaeOS.Properties.Endings
import JaeOS.Properties.Secrecy
import JaeOS.Properties.Naming
