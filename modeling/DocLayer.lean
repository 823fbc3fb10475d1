import DocLayer.Key
import DocLayer.Stream
import DocLayer.Predicate
import DocLayer.WouldBeLast
import DocLayer.Actor
import DocLayer.Checkpoint
import DocLayer.Exec
import DocLayer.Scans
import DocLayer.Queues
import DocLayer.Operators
import DocLayer.Plan
import DocLayer.Stop
import DocLayer.Run
import DocLayer.SplitBound
import DocLayer.Frame
import DocLayer.Execute
import DocLayer.ScanOrder
import DocLayer.ReadOrder
import DocLayer.Permits
import DocLayer.Update
import DocLayer.LastEntry
import DocLayer.Stages
import DocLayer.PKScan
import DocLayer.IndexScan
import DocLayer.NonIsolated
import DocLayer.NonIsolatedScan
import DocLayer.FindAndModify
import DocLayer.Pushdown
import DocLayer.PushdownCorrect
import DocLayer.Resume
import DocLayer.Union
import DocLayer.Retry
import DocLayer.Sort
import DocLayer.StreamEnd
import DocLayer.Skip
import DocLayer.ObjectId
import DocLayer.IndexStatus
import DocLayer.Network
import DocLayer.Adequacy
