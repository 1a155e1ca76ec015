import FrameMachine.Config
import FrameMachine.Dump
import FrameMachine.LineWriter
import FrameMachine.TraceStore
import FrameMachine.Proofs.Allocation
import FrameMachine.Proofs.Collision
import FrameMachine.Proofs.FrameChain
import FrameMachine.Proofs.HeapWords
import FrameMachine.Proofs.StackTop
import FrameMachine.Proofs.Stepping
import FrameMachine.Proofs.ByteStrings
import FrameMachine.Proofs.CborItems
import FrameMachine.Proofs.StoredFrames
import FrameMachine.Proofs.EntryCodec
import FrameMachine.Proofs.StoreMap
import FrameMachine.Proofs.TracedRuns
import FrameMachine.Proofs.Halting
import FrameMachine.Proofs.CycleOutcomes
import FrameMachine.Proofs.ObservedRuns
import FrameMachine.Proofs.Interference
import FrameMachine.Proofs.ListStack
import FrameMachine.Proofs.Interruptions
import FrameMachine.Proofs.Widening
import FrameMachine.Proofs.OpcodeTable
import FrameMachine.Proofs.Requests
import FrameMachine.Proofs.BlockCopy
import FrameMachine.Proofs.Shortcuts
import FrameMachine.Proofs.Activations
import FrameMachine.Proofs.Remains
import FrameMachine.Proofs.Factorial
import FrameMachine.Proofs.CanonicalEncoding
import FrameMachine.Proofs.DigestText
import FrameMachine.Proofs.Dumps
import FrameMachine.Proofs.LineSplitting
import FrameMachine.Proofs.Transcript
