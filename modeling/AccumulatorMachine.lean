import AccumulatorMachine.Main
import AccumulatorMachine.Proofs.BreakpointHits
import AccumulatorMachine.Proofs.CommentParity
import AccumulatorMachine.Proofs.Concatenation
import AccumulatorMachine.Proofs.ErrorPlaces
import AccumulatorMachine.Proofs.ExactArithmetic
import AccumulatorMachine.Proofs.ForwardJumps
import AccumulatorMachine.Proofs.Layout
import AccumulatorMachine.Proofs.ListingRoundTrip
import AccumulatorMachine.Proofs.MarkedListings
import AccumulatorMachine.Proofs.ReadingProgress
import AccumulatorMachine.Proofs.ResetSessions
import AccumulatorMachine.Proofs.Retargeting
import AccumulatorMachine.Proofs.SourcePlaces
import AccumulatorMachine.Proofs.StepLimits
import AccumulatorMachine.Proofs.Passages
import AccumulatorMachine.Proofs.PrintedTexts
import AccumulatorMachine.Proofs.Separators
import AccumulatorMachine.Proofs.Tracing
