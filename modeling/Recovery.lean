import Recovery.Architecture.X86
import Recovery.Binding
import Recovery.ControlFlow.Construction
import Recovery.ControlFlow.Dominators
import Recovery.ControlFlow.DominatorLoop
import Recovery.ControlFlow.EdgeMaps
import Recovery.ControlFlow.OrderLoop
import Recovery.Exchange.DataModel
import Recovery.Structure.Session
import Recovery.Proofs.ControlFlow.Dominance
import Recovery.Proofs.ControlFlow.DominatorLoop
import Recovery.Proofs.Program
import Recovery.Proofs.Structure.NaturalLoop
import Recovery.Proofs.Structure.PostDominators
import Recovery.Proofs.Structure.DeadEnds
import Recovery.Proofs.Idempotence
import Recovery.Proofs.Signature.Listing
import Recovery.Proofs.Signature.Layout
import Recovery.Proofs.Interface
import Recovery.Proofs.Scheduling
import Recovery.Proofs.ControlFlow.Nesting
import Recovery.Proofs.Structure.Numbers
import Recovery.Proofs.Structure.Members
import Recovery.Proofs.Structure.LoopFollow
import Recovery.Proofs.Structure.SharedLatches
import Recovery.Proofs.Structure.SwitchBodies
import Recovery.Proofs.Structure.SwitchBorders
import Recovery.Proofs.Structure.Cycles
import Recovery.Proofs.Separation
import Recovery.Proofs.ExternalOffset
import Recovery.Proofs.Register.Histories
import Recovery.Proofs.Signature.Narrowing
import Recovery.Proofs.Frame.Keyed
import Recovery.Proofs.Frame.Fitting
import Recovery.Loop
import Recovery.Proofs.Loop
import Recovery.Proofs.Structure.Indexed.Analysis
import Recovery.Proofs.Structure.Intakes
import Recovery.Proofs.Structure.Reducible
import Recovery.Proofs.ControlFlow.Padding
import Recovery.Proofs.Structure.DeadCode
import Recovery.Proofs.ControlFlow.OrderLoop
import Recovery.Proofs.Structure.Ordering
import Recovery.Proofs.OutArgumentUses
import Recovery.Proofs.Signature.Additions
import Recovery.Proofs.ControlFlow.NamedBlocks
import Recovery.Proofs.ControlFlow.Tour
import Recovery.Proofs.Structure.Indexed.Search
