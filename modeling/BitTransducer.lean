import BitTransducer.Bench
import BitTransducer.BitBuffer.Tracked
import BitTransducer.BitReader
import BitTransducer.Main
import BitTransducer.Proofs.BitBuffer.Accumulation
import BitTransducer.Proofs.Channel.Batches
import BitTransducer.Proofs.Channel.Blocks
import BitTransducer.Proofs.Channel.Overrun
import BitTransducer.Proofs.RoundTrip
import BitTransducer.Proofs.Recoding
import BitTransducer.Proofs.BitBuffer.Margin
import BitTransducer.Proofs.BitBuffer.GrowthLoops
import BitTransducer.Proofs.BitReader.Calls
import BitTransducer.Proofs.WidthIndependence
import BitTransducer.Proofs.Channel.Convergence
import BitTransducer.Proofs.Window.Bounds
import BitTransducer.Proofs.Window.Coverage
import BitTransducer.Proofs.Session.History
import BitTransducer.Proofs.Session.Acceptance
import BitTransducer.Proofs.Session.Refusal
import BitTransducer.Proofs.Session.Lockstep
import BitTransducer.Proofs.Recognizer.Identity
