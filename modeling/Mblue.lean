import Mblue.Clock.CustomClock
import Mblue.Common.Block
import Mblue.Common.ListHead
import Mblue.Common.ListRuns
import Mblue.Common.Pools
import Mblue.Common.SmartData
import Mblue.Delivery.FanOut
import Mblue.Delivery.Hop
import Mblue.Delivery.Order
import Mblue.Delivery.Progress
import Mblue.Delivery.Senders
import Mblue.Delivery.Subscriptions
import Mblue.Delivery.Work
import Mblue.Events.Changes
import Mblue.Events.EventQueue
import Mblue.Events.Invariant
import Mblue.Events.Operations
import Mblue.Events.Timer
import Mblue.Ipc.LogWrite
import Mblue.Ledger.Accounts
import Mblue.Ledger.Broadcast
import Mblue.Ledger.Handed
import Mblue.Ledger.Notifier
import Mblue.Ledger.Opening
import Mblue.Ledger.Payload
import Mblue.Library.Bitmaps
import Mblue.Library.CyclicBuffer
import Mblue.Library.ErrorDetection
import Mblue.Library.Gregorian
import Mblue.Library.Horner
import Mblue.Library.KeyedList
import Mblue.Library.LinkedRing
import Mblue.Library.NorFlash
import Mblue.Library.Outcome
import Mblue.Library.PointerChain
import Mblue.Library.RefPool
import Mblue.Library.Runs
import Mblue.Library.ShiftRegister
import Mblue.Library.Threads
import Mblue.Library.Varint
import Mblue.Library.While
import Mblue.Map.PayloadVector
import Mblue.Message.Basic
import Mblue.Persistence.Frontier
import Mblue.Persistence.Heads
import Mblue.Persistence.Logger
import Mblue.Persistence.LoggerRuns
import Mblue.Persistence.Reading
import Mblue.Persistence.Restart
import Mblue.Persistence.Section
import Mblue.Properties.BlockOwnership
import Mblue.Properties.BoundedQueue
import Mblue.Properties.BoundedWork
import Mblue.Properties.BroadcastDelivery
import Mblue.Properties.BroadcastPayload
import Mblue.Properties.BurstErrors
import Mblue.Properties.ByteFifo
import Mblue.Properties.CalendarConversion
import Mblue.Properties.CallFailure
import Mblue.Properties.CallMatching
import Mblue.Properties.ConcurrentFifo
import Mblue.Properties.Crc32c
import Mblue.Properties.DeadlockFreedom
import Mblue.Properties.ErrorCodes
import Mblue.Properties.EventCallbacks
import Mblue.Properties.EventDispatch
import Mblue.Properties.EventQueue
import Mblue.Properties.EventTimers
import Mblue.Properties.EventualDelivery
import Mblue.Properties.FlashReadBack
import Mblue.Properties.FlashRestart
import Mblue.Properties.FlashWrites
import Mblue.Properties.LinkedLists
import Mblue.Properties.LogBuffer
import Mblue.Properties.Marshalling
import Mblue.Properties.MessageLeaks
import Mblue.Properties.MethodName
import Mblue.Properties.MonoBuffer
import Mblue.Properties.OneAnswer
import Mblue.Properties.ParserLookup
import Mblue.Properties.PayloadVector
import Mblue.Properties.Pools
import Mblue.Properties.PublishSubscribe
import Mblue.Properties.RecordOrder
import Mblue.Properties.Recycling
import Mblue.Properties.RemoteCall
import Mblue.Properties.RemoteHeap
import Mblue.Properties.RequestContainment
import Mblue.Properties.ReturnMatching
import Mblue.Properties.SendMessage
import Mblue.Properties.SerializedRequest
import Mblue.Properties.SignalExhaustion
import Mblue.Properties.StrandedCallers
import Mblue.Properties.StringHash
import Mblue.Properties.TaskMailbox
import Mblue.Properties.WriteReport
import Mblue.Queue.MblueQueue
import Mblue.Queue.Memory
import Mblue.RingBuffer.Concurrent
import Mblue.RingBuffer.Fifo
import Mblue.Schema.Containment
import Mblue.Schema.Decoding
import Mblue.Schema.Encoding
import Mblue.Schema.EncodingRoom
import Mblue.Schema.Nanopb
import Mblue.Schema.PbSchema
import Mblue.Schema.Records
import Mblue.Schema.RoundTrip
import Mblue.Schema.StructBuffer
import Mblue.StateMachine.StateMachine
import Mblue.System.CallEvents
import Mblue.System.Calls
import Mblue.System.Custody
import Mblue.System.Drawn
import Mblue.System.Effects
import Mblue.System.Forwarding
import Mblue.System.HeapEvents
import Mblue.System.Invariant
import Mblue.System.Machine
import Mblue.System.Pending
import Mblue.System.Reduction
import Mblue.System.Replies
import Mblue.System.SignalEvents
import Mblue.System.State
import Mblue.System.Tariff
import Mblue.System.Tokens
import Mblue.System.Trace
import Mblue.System.Wakeups
import Mblue.Task.Mailbox
import Mblue.Util.Crc
import Mblue.Util.Hash
