import Tickle.Loop
import Tickle.Run
import Tickle.MinHeap
import Tickle.Scheduler
import Tickle.Timers
import Tickle.Serial
import Tickle.Pieces
import Tickle.RingArena
import Tickle.Writer.Record
import Tickle.Writer.Cache
import Tickle.Writer.Held
import Tickle.Writer.Reserve
import Tickle.Writer.Fragments
import Tickle.Writer.Sample
import Tickle.Writer.Grow
import Tickle.Writer.Window
import Tickle.Writer.History
import Tickle.Writer.Publisher
import Tickle.Writer.Layout
import Tickle.Writer.Resend
import Tickle.Writer.Runs
import Tickle.Writer.Depth
import Tickle.Writer.SampleCount
import Tickle.Writer.Shortfall
import Tickle.Writer.Assured
import Tickle.Writer.Reported
import Tickle.Writer.Admits
import Tickle.Writer.KeepAll
import Tickle.Writer.Owed
import Tickle.Writer.KeepAllRuns
import Tickle.Writer.NothingOwed
import Tickle.Writer.Waiting
import Tickle.Writer.Retry
import Tickle.Writer.Claims
import Tickle.Tx.Walk
import Tickle.Tx.Buffer
import Tickle.Tx.Framing
import Tickle.Tx.Retried
import Tickle.Tx.Batched
import Tickle.Reassembly.Units
import Tickle.Reassembly.Slot
import Tickle.Reassembly.Delivered
import Tickle.Reassembly.Arrived
import Tickle.Segment.Indices
import Tickle.Segment.Ring
import Tickle.Segment.Owned
import Tickle.Segment.Moves
import Tickle.Segment.Steps
import Tickle.Segment.Reading
import Tickle.Segment.Records
import Tickle.Segment.Refused
import Tickle.Segment.Delivered
import Tickle.Segment.Publish
import Tickle.Service.Call
import Tickle.Service.Client
import Tickle.Service.Calls
import Tickle.Service.CallRuns
import Tickle.Service.Server
import Tickle.Service.Deferred
import Tickle.Service.Rmw
import Tickle.Service.Exchange
import Tickle.Service.Kept
import Tickle.Service.Answers
import Tickle.Discovery.Announce
import Tickle.Discovery.Liveliness
import Tickle.Discovery.Silence
import Tickle.Discovery.Superseded
import Tickle.Discovery.Applied
import Tickle.Discovery.Matched
import Tickle.Cursor
import Tickle.Codec.Wire
import Tickle.Codec.Generated
import Tickle.Codec.RoundTrip
import Tickle.Codec.Direct
import Tickle.Codec.DirectImage
import Tickle.Codec.Hostile
import Tickle.Bits
import Tickle.Watermark
import Tickle.Reader.Bitmap
import Tickle.Reader.Proxy
import Tickle.Reader.Tracks
import Tickle.Reader.Tracker
import Tickle.Reader.Follows
import Tickle.Reader.Losses
import Tickle.Reader.Requests
import Tickle.Reader.Reorder
import Tickle.Reader.Slots
import Tickle.Reader.Drain
import Tickle.Reader.Watched
import Tickle.Reader.Ordered
import Tickle.Reader.Settled
import Tickle.Reader.Arrivals
import Tickle.Reader.Fragments
import Tickle.Reader.Behind
import Tickle.Reader.Pivot
import Tickle.Reader.OwnSlots
import Tickle.Discovery.Entity
import Tickle.Discovery.Split
import Tickle.Discovery.Parts
import Tickle.Discovery.Summary
import Tickle.Discovery.Table
import Tickle.Qos.Profile
import Tickle.Qos.BestAvailable
import Tickle.Qos.Agreement
import Tickle.Qos.Again
import Tickle.Tx.Pacing
import Tickle.Tx.Single
import Tickle.Spans
import Tickle.Writer.Backlog
import Tickle.Tx.Large
import Tickle.Tx.Pump
import Tickle.Tx.Destinations
import Tickle.Codec.Bound
import Tickle.Codec.InPlace
import Tickle.Codec.Strings
import Tickle.Codec.TwoStep
import Tickle.Overlay
import Tickle.Codec.Aliased
import Tickle.Endpoints.Index
import Tickle.Endpoints.Walk
import Tickle.Endpoints.Find
import Tickle.Rmw.Client
import Tickle.Rmw.Compatible
import Tickle.Rmw.Deadline
import Tickle.Rmw.Lost
import Tickle.Reader.Handed
import Tickle.Reader.Onward
import Tickle.Reader.Serves
import Tickle.Reader.InOrder
import Tickle.Rmw.Queue
