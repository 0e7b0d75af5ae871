import LixRtos.HeapObservers
import LixRtos.FreeListInsertion
import LixRtos.DoubleFree
import LixRtos.TimerText
import LixRtos.SemaphoreRace
import LixRtos.SerialRuns
import LixRtos.SerialProgress
import LixRtos.SemaphoreConservation
import LixRtos.ShmRace
import LixRtos.MutexRuns
import LixRtos.CondOwner
import LixRtos.TimedWaits
import LixRtos.RegistryRuns
import LixRtos.LinkListFailures
import LixRtos.MsgQBroadcast
import LixRtos.MsgQRequests
import LixRtos.MsgQClear
import LixRtos.MsgQTimeouts
import LixRtos.MsgQReregistration
import LixRtos.MsgQSizes
import LixRtos.MsgQRounds
import LixRtos.MsgQRingRuns
import LixRtos.MsgQEventRuns
import LixRtos.MsgQIndependence
import LixRtos.MsgQDestroy
import LixRtos.ObjectRuns
import LixRtos.LinklistLocking
import LixRtos.LinklistLinearizability
import LixRtos.LinklistLifeCycle
import LixRtos.MsgQClasses
import LixRtos.MsgQNames
import LixRtos.OptionDispatch
import LixRtos.RunCmd
import LixRtos.RtosListRuns
import LixRtos.HeapSharing
import LixRtos.ShmLife
import LixRtos.SerialLink
import LixRtos.LocalTime
import LixRtos.WallClock
