import SessionGraph.Flag
import SessionGraph.Main
import SessionGraph.Workspace
import SessionGraph.Proofs.Interleaving
import SessionGraph.Proofs.Operations
import SessionGraph.Proofs.Preorder
import SessionGraph.Proofs.Cancellation
import SessionGraph.Proofs.Judging
import SessionGraph.Proofs.Routes
import SessionGraph.Proofs.Ending
import SessionGraph.Proofs.Renaming
import SessionGraph.Proofs.Splicing
import SessionGraph.Proofs.Describing
import SessionGraph.Proofs.RoundTrip
import SessionGraph.Proofs.Growing
import SessionGraph.Proofs.Guarded
import SessionGraph.Proofs.Duality
import SessionGraph.Proofs.Shape
import SessionGraph.Proofs.Binders
import SessionGraph.Proofs.LoopTree
import SessionGraph.Proofs.Assumed
import SessionGraph.Proofs.Grafting
import SessionGraph.Proofs.Grammar
