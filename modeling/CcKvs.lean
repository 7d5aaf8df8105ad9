import CcKvs.Lin.Coherence
import CcKvs.Lin.Values
import CcKvs.Mica.Map
import CcKvs.Sc.Buffers
import CcKvs.Sc.Consistency
import CcKvs.Worker
import CcKvs.Mica.Log
import CcKvs.Mica.Index
import CcKvs.Requests
import CcKvs.Sc.Stamps
import CcKvs.Cache.Memory
import CcKvs.Mica.Values
import CcKvs.Lin.Metadata
import CcKvs.Sc.Pool
import CcKvs.Lib.CreditLink
import CcKvs.Lin.Credits
import CcKvs.Lin.Conservation
import CcKvs.Client.Fill
import CcKvs.Client.Coalescing
import CcKvs.Client.Cold
import CcKvs.Client.Fates
import CcKvs.Client.Iteration
import CcKvs.Client.Order
import CcKvs.Client.Loop
import CcKvs.Client.Combining
import CcKvs.Cache.Effects
import CcKvs.Cache.Batch
import CcKvs.Lin.Queues
import CcKvs.Lin.Lossless
import CcKvs.Lib.RingBuffer
import CcKvs.Lin.Inbox
import CcKvs.Lin.Receives
import CcKvs.Lib.Signalling
import CcKvs.Lin.Posting
import CcKvs.Lin.Signals
import CcKvs.Lin.CreditRecvs
import CcKvs.Lib.Handoff
import CcKvs.Local.Window
import CcKvs.Local.Handover
import CcKvs.WakeUp.Machine
import CcKvs.WakeUp.Asleep
import CcKvs.Client.Scan
import CcKvs.Client.Bounds
import CcKvs.Client.Overrun
import CcKvs.Cache.Atomic
import CcKvs.Lin.Linearizable
import CcKvs.Lin.Progress
import CcKvs.Traces.Split
import CcKvs.Erpc.Client
import CcKvs.Erpc.Delivery
