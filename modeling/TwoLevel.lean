import TwoLevel.Expr.Grammar
import TwoLevel.Main
import TwoLevel.Proofs.Lists
import TwoLevel.Proofs.Assignment
import TwoLevel.Proofs.IndexArithmetic
import TwoLevel.Proofs.Letters
import TwoLevel.Proofs.TruthTable
import TwoLevel.Proofs.Expr.Grammar
import TwoLevel.Proofs.Expr.Reading
import TwoLevel.Proofs.Expr.Stacks
import TwoLevel.Proofs.Expr.Reference
import TwoLevel.Proofs.Formula
import TwoLevel.Proofs.RoundTrip
import TwoLevel.Proofs.Parentheses
import TwoLevel.Proofs.Refusal
import TwoLevel.Proofs.Signs
import TwoLevel.Proofs.Neighbours
import TwoLevel.Proofs.Shortest
import TwoLevel.Proofs.Respacing
import TwoLevel.Proofs.Tabulation
import TwoLevel.Proofs.Cube.Cells
import TwoLevel.Proofs.Cube.Implicant
import TwoLevel.Proofs.Cube.RowSets
import TwoLevel.Proofs.Cube.Rounds
import TwoLevel.Proofs.Cube.Built
import TwoLevel.Proofs.Cube.Merges
import TwoLevel.Proofs.Cube.OrderKey
import TwoLevel.Proofs.Cube.Demand
import TwoLevel.Proofs.Cube.Vacuous
import TwoLevel.Proofs.Cube.Opposite
import TwoLevel.Proofs.Cover.Greedy
import TwoLevel.Proofs.Cover.Exact
import TwoLevel.Proofs.Cover.Selection
import TwoLevel.Proofs.Cover.Transfer
import TwoLevel.Proofs.Form.Terms
import TwoLevel.Proofs.Form.Text
import TwoLevel.Proofs.Minimize.Partition
import TwoLevel.Proofs.Minimize.PartitionFault
import TwoLevel.Proofs.Minimize.Value
import TwoLevel.Proofs.Evaluation
import TwoLevel.Proofs.Minimize.Minimal
import TwoLevel.Proofs.Minimize.Text
import TwoLevel.Proofs.Minimize.Vacuous
import TwoLevel.Proofs.Minimize.Canonical
import TwoLevel.Proofs.Minimize.Duality
import TwoLevel.Proofs.Session.Answers
import TwoLevel.Proofs.Session.History
import TwoLevel.Proofs.Pla.Reading
import TwoLevel.Proofs.Pla.Faithful
import TwoLevel.Proofs.Form.Views
import TwoLevel.Proofs.Cube.Primes
import TwoLevel.Proofs.Cover.Essential
import TwoLevel.Proofs.Cover.GreedyTerms
import TwoLevel.Proofs.Cover.ExactTerms
import TwoLevel.Proofs.Minimize.Procedures
import TwoLevel.Proofs.Minimize.Order
import TwoLevel.Proofs.Minimize.Harmonic
import TwoLevel.Proofs.Minimize.Redundancy
import TwoLevel.Proofs.ListedRows
import TwoLevel.Proofs.CommandLine.Arguments
import TwoLevel.Proofs.CommandLine.Outcome
