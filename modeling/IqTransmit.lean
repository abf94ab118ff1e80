import IqTransmit.Binary32
import IqTransmit.CommandLine.Arguments
import IqTransmit.CommandLine.Numeral
import IqTransmit.CommandLine.Program
import IqTransmit.Cs8.Converter
import IqTransmit.Cs8.Lanes
import IqTransmit.Cs8.Quantize
import IqTransmit.Duration
import IqTransmit.Engine.Closure
import IqTransmit.Engine.File
import IqTransmit.Engine.Output
import IqTransmit.Engine.Steered
import IqTransmit.Fault
import IqTransmit.Files
import IqTransmit.Groups
import IqTransmit.Input
import IqTransmit.Main
import IqTransmit.Notice
import IqTransmit.Pace
import IqTransmit.Proofs.Binary32.Order
import IqTransmit.Proofs.Binary32.Rounding
import IqTransmit.Proofs.Cs8.Converter
import IqTransmit.Proofs.Cs8.Integers
import IqTransmit.Proofs.Cs8.Lanes
import IqTransmit.Proofs.Cs8.Quantize
import IqTransmit.Proofs.Engine.Calls
import IqTransmit.Proofs.Engine.Custody
import IqTransmit.Proofs.Engine.Device
import IqTransmit.Proofs.Engine.Duty
import IqTransmit.Proofs.Engine.File
import IqTransmit.Proofs.Engine.Lively
import IqTransmit.Proofs.Engine.Output
import IqTransmit.Proofs.Engine.Sessions
import IqTransmit.Proofs.Engine.Start
import IqTransmit.Proofs.Engine.Stop
import IqTransmit.Proofs.Engine.Streaming
import IqTransmit.Proofs.Groups
import IqTransmit.Proofs.Input
import IqTransmit.Proofs.Input.Position
import IqTransmit.Proofs.Ring.Contents
import IqTransmit.Proofs.Ring.Refinement
import IqTransmit.Proofs.Sink.Accounting
import IqTransmit.Proofs.Sink.AfterStop
import IqTransmit.Proofs.Sink.Agree
import IqTransmit.Proofs.Sink.Alike
import IqTransmit.Proofs.Sink.Blocking
import IqTransmit.Proofs.Sink.Calls
import IqTransmit.Proofs.Sink.Checks
import IqTransmit.Proofs.Sink.Delivery
import IqTransmit.Proofs.Sink.Drains
import IqTransmit.Proofs.Sink.EndOfStream
import IqTransmit.Proofs.Sink.FailedStart
import IqTransmit.Proofs.Sink.Failure
import IqTransmit.Proofs.Sink.Flow
import IqTransmit.Proofs.Sink.Flush
import IqTransmit.Proofs.Sink.Frame
import IqTransmit.Proofs.Sink.Integrity
import IqTransmit.Proofs.Sink.Lifecycle
import IqTransmit.Proofs.Sink.Live
import IqTransmit.Proofs.Sink.Lively
import IqTransmit.Proofs.Sink.Lockstep
import IqTransmit.Proofs.Sink.Operation
import IqTransmit.Proofs.Sink.Outcome
import IqTransmit.Proofs.Sink.Phases
import IqTransmit.Proofs.Sink.Positions
import IqTransmit.Proofs.Sink.Prefill
import IqTransmit.Proofs.Sink.Progress
import IqTransmit.Proofs.Sink.Reachable
import IqTransmit.Proofs.Sink.Restart
import IqTransmit.Proofs.Sink.Room
import IqTransmit.Proofs.Sink.Schedule
import IqTransmit.Proofs.Sink.Scratch
import IqTransmit.Proofs.Sink.Start
import IqTransmit.Proofs.Sink.Statistics
import IqTransmit.Proofs.Sink.Steps
import IqTransmit.Proofs.Sink.Stop
import IqTransmit.Proofs.Sink.StopRun
import IqTransmit.Proofs.Sink.Waits
import IqTransmit.Proofs.Sink.Work
import IqTransmit.Proofs.Transmission.Decoding
import IqTransmit.Proofs.Transmission.Feeding
import IqTransmit.Proofs.Transmission.Sending
import IqTransmit.Proofs.Transmission.Stream
import IqTransmit.Proofs.Transmission.Supply
import IqTransmit.Radio
import IqTransmit.Ring
import IqTransmit.Sample
import IqTransmit.Session
import IqTransmit.Silence
import IqTransmit.Sink.Basic
import IqTransmit.Sink.Call
import IqTransmit.Sink.Config
import IqTransmit.Sink.Engine
import IqTransmit.Sink.Feed
import IqTransmit.Sink.Stop
import IqTransmit.Sink.Work
import IqTransmit.Transmission
