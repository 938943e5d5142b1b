import FDemo.MapServer.Handler
import FDemo.MapServer.HandlerSafety
import FDemo.MapServer.DownloadAnswer
import FDemo.MapServer.SaveFailure
import FDemo.MapServer.ConcurrentUploads
import FDemo.MapServer.SharedLength
import FDemo.MapServer.Undecodable
import FDemo.MapServer.MapRoot
import FDemo.MapServer.SameTarget
import FDemo.MapModel.ProxyObserver
import FDemo.MapModel.ProxyFilter
import FDemo.MapServer.Replication
import FDemo.MapServer.Connections
import FDemo.Fsm.ElevatorRuns
import FDemo.Libhv.TimerAlarms
