import AscendShmem.AccLinks.FrameSync
import AscendShmem.AccLinks.MessageQueue
import AscendShmem.AccLinks.Receive
import AscendShmem.AccLinks.WorkerLoad
import AscendShmem.Barriers.SlotBounds
import AscendShmem.CompletionQueue.ConsumedOnce
import AscendShmem.CompositeTransport.AllOrNothing
import AscendShmem.ConfigStore.ClientMatching
import AscendShmem.ConfigStore.EveryRequest
import AscendShmem.ConfigStore.MessageCodec
import AscendShmem.ConfigStore.Refinement
import AscendShmem.ConfigStore.TimerIndex
import AscendShmem.GroupEngine.AllGather
import AscendShmem.GroupEngine.Barrier
import AscendShmem.GroupEngine.Membership
import AscendShmem.Heap.AlignedAllocate
import AscendShmem.Heap.BestFit
import AscendShmem.Heap.ResizeTheorems
import AscendShmem.NicAffinity.Selection
import AscendShmem.PointToPoint.WaitResults
import AscendShmem.PullV2.CompiledIndex
import AscendShmem.PullV2.CoordinatorTheorems
import AscendShmem.PullV2.DeviceDigest
import AscendShmem.PullV2.EndToEnd
import AscendShmem.PullV2.JournalReservation
import AscendShmem.PullV2.MetadataInbox
import AscendShmem.PullV2.ParserScratch
import AscendShmem.PullV2.ReductionOrder
import AscendShmem.PullV2.SourceOrder
import AscendShmem.PullV2.UniformWave
import AscendShmem.RdmaQueue.OverrunTail
import AscendShmem.RdmaQueue.RingSafety
import AscendShmem.SessionApi.Accounting
import AscendShmem.Teams.Grid
import AscendShmem.Teams.IndexAgreement
import AscendShmem.TopoReader.RootInfoReadBack
import AscendShmem.TopoReader.RouteAgreement
import AscendShmem.TopoXml.Completeness
import AscendShmem.UdmaQueue.RingSafety
import AscendShmem.UidBootstrap.BarrierV2
import AscendShmem.UidBootstrap.PluginInit
import AscendShmem.VmmSegment.AddressTable
import AscendShmem.VmmSegment.AllocAtomic
