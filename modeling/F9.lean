import F9.Theorems.AssignCovers
import F9.Theorems.AssignEnds
import F9.Theorems.AssignPools
import F9.Theorems.Authority
import F9.Theorems.CallWrites
import F9.Theorems.ChainMinimal
import F9.Theorems.ChainTiles
import F9.Theorems.Completeness
import F9.Theorems.Confinement
import F9.Theorems.ConsoleOrder
import F9.Theorems.Grant
import F9.Theorems.InitHooks
import F9.Theorems.Isolation
import F9.Theorems.KernelPools
import F9.Theorems.KprobeEvents
import F9.Theorems.Ksym
import F9.Theorems.LivePages
import F9.Theorems.MapRings
import F9.Theorems.MemDescs
import F9.Theorems.MessageWords
import F9.Theorems.Messages
import F9.Theorems.MpuLists
import F9.Theorems.PageRemoval
import F9.Theorems.Partners
import F9.Theorems.QueueFifo
import F9.Theorems.RemovedThreads
import F9.Theorems.Scheduler
import F9.Theorems.SleepPeriods
import F9.Theorems.Softirqs
import F9.Theorems.SpaceSharing
import F9.Theorems.SplitPage
import F9.Theorems.TableElements
import F9.Theorems.ThreadLookup
import F9.Theorems.ThreadTable
import F9.Theorems.ThreadTree
import F9.Theorems.Tickless
import F9.Theorems.Timeouts
import F9.Theorems.TimerQueue
import F9.Theorems.TimerRuns
import F9.Theorems.TimerStorage
import F9.Theorems.TypedItems
