import FlatCircuit.Main
import FlatCircuit.Command.Workspace
import FlatCircuit.Evaluation.Session
import FlatCircuit.Lowering.Session
import FlatCircuit.Proofs.Contract.Lowered
import FlatCircuit.Proofs.Contract.Safety
import FlatCircuit.Proofs.Lowering.Blocks
import FlatCircuit.Proofs.Contract.Equations
import FlatCircuit.Proofs.Contract.Dropping
import FlatCircuit.Proofs.Lowering.Solution
import FlatCircuit.Proofs.Lowering.Liveness
import FlatCircuit.Proofs.Lowering.Twice
import FlatCircuit.Proofs.Lowering.Cost
import FlatCircuit.Proofs.Lowering.FixedPoints
import FlatCircuit.Proofs.Source.Unambiguous
import FlatCircuit.Proofs.Lowering.Offences
import FlatCircuit.Proofs.Lowering.Strictness
import FlatCircuit.Proofs.Source.Layout
import FlatCircuit.Proofs.Source.Rendering
import FlatCircuit.Proofs.Lowering.Sessions
import FlatCircuit.Proofs.Evaluation.Lookups
import FlatCircuit.Proofs.Evaluation.Witness
import FlatCircuit.Proofs.Command.Delivery
import FlatCircuit.Proofs.Evaluation.Dependence
import FlatCircuit.Proofs.Source.Breaks
import FlatCircuit.Proofs.Lowering.Texts
import FlatCircuit.Proofs.Document.Equality
import FlatCircuit.Proofs.Document.Text
import FlatCircuit.Proofs.Document.Traversal
import FlatCircuit.Proofs.Document.Serialization
import FlatCircuit.Proofs.Evaluation.Owners
import FlatCircuit.Proofs.Evaluation.Reached
import FlatCircuit.Proofs.Lowering.Comparison
import FlatCircuit.Proofs.Renaming
import FlatCircuit.Proofs.Command.Numbers
import FlatCircuit.Proofs.Lowering.Uniformity
import FlatCircuit.Proofs.Command.Messages
import FlatCircuit.Library
import FlatCircuit.Proofs.Command.Agreement
import FlatCircuit.Source.Limited
