import SwapSearch.Assignment
import SwapSearch.Assignment.Reader
import SwapSearch.Budget
import SwapSearch.Failure
import SwapSearch.GainTable
import SwapSearch.Json.Numeral
import SwapSearch.Json.Reader
import SwapSearch.Json.Record
import SwapSearch.Json.Value
import SwapSearch.Memetic.Optimizer
import SwapSearch.Memetic.Run
import SwapSearch.Memetic.Settings
import SwapSearch.Memetic.Snapshot
import SwapSearch.Memetic.Watch
import SwapSearch.Monitor
import SwapSearch.Objective
import SwapSearch.Pareto.Archive
import SwapSearch.Pareto.Arena
import SwapSearch.Pareto.Dominance
import SwapSearch.Pareto.Forest
import SwapSearch.Permutation
import SwapSearch.Population.Crossover
import SwapSearch.Population.Elites
import SwapSearch.Population.Member
import SwapSearch.Population.Mutation
import SwapSearch.Population.Tournament
import SwapSearch.Proofs.Assignment.Exchange
import SwapSearch.Proofs.Assignment.Magnitude
import SwapSearch.Proofs.Assignment.Precision
import SwapSearch.Proofs.Assignment.Printing
import SwapSearch.Proofs.Assignment.Reader
import SwapSearch.Proofs.Assignment.Scan
import SwapSearch.Proofs.Assignment.Tables
import SwapSearch.Proofs.BestMove
import SwapSearch.Proofs.BestMove.Masked
import SwapSearch.Proofs.Budget
import SwapSearch.Proofs.Confined
import SwapSearch.Proofs.GainTable
import SwapSearch.Proofs.Memetic.Actions
import SwapSearch.Proofs.Memetic.Books
import SwapSearch.Proofs.Memetic.Charges
import SwapSearch.Proofs.Memetic.Chronicle
import SwapSearch.Proofs.Memetic.Consulted
import SwapSearch.Proofs.Memetic.Elites
import SwapSearch.Proofs.Memetic.Loop
import SwapSearch.Proofs.Memetic.Observations
import SwapSearch.Proofs.Memetic.Reasons
import SwapSearch.Proofs.Memetic.Recorder
import SwapSearch.Proofs.Memetic.Report
import SwapSearch.Proofs.Memetic.Safety
import SwapSearch.Proofs.Memetic.Saturation
import SwapSearch.Proofs.Memetic.Schedule
import SwapSearch.Proofs.Memetic.Shape
import SwapSearch.Proofs.Memetic.Share
import SwapSearch.Proofs.Memetic.Snapshots
import SwapSearch.Proofs.Memetic.Steps
import SwapSearch.Proofs.Memetic.Thresholds
import SwapSearch.Proofs.Pareto.Arena.Invariant
import SwapSearch.Proofs.Pareto.Arena.Layout
import SwapSearch.Proofs.Pareto.Arena.Passes
import SwapSearch.Proofs.Pareto.Arena.Placing
import SwapSearch.Proofs.Pareto.Arena.Simulation
import SwapSearch.Proofs.Pareto.Arena.Spelling
import SwapSearch.Proofs.Pareto.Arena.Tree
import SwapSearch.Proofs.Pareto.Dominance
import SwapSearch.Proofs.Pareto.Forest
import SwapSearch.Proofs.Pareto.Front
import SwapSearch.Proofs.Pareto.Ideal
import SwapSearch.Proofs.Pareto.Nodes
import SwapSearch.Proofs.Pareto.Pivot
import SwapSearch.Proofs.Pareto.Placement
import SwapSearch.Proofs.Pareto.Pruning
import SwapSearch.Proofs.Pareto.Removal
import SwapSearch.Proofs.Pareto.Rooted
import SwapSearch.Proofs.Pareto.Roster
import SwapSearch.Proofs.Permutation
import SwapSearch.Proofs.Permutation.Acceptance
import SwapSearch.Proofs.Population.Chain
import SwapSearch.Proofs.Population.Elites
import SwapSearch.Proofs.Population.Matched
import SwapSearch.Proofs.Population.Offers
import SwapSearch.Proofs.Population.Tournament
import SwapSearch.Proofs.Population.Uniform
import SwapSearch.Proofs.Random.Choices
import SwapSearch.Proofs.Random.Draws
import SwapSearch.Proofs.Random.Samples
import SwapSearch.Proofs.Scalar.Exact
import SwapSearch.Proofs.Scalar.Extended
import SwapSearch.Proofs.Scalar.Order
import SwapSearch.Proofs.Scalar.Parts
import SwapSearch.Proofs.Scalar.Ranking
import SwapSearch.Proofs.Scalar.Rounding
import SwapSearch.Proofs.Scalar.Sums
import SwapSearch.Proofs.Signed
import SwapSearch.Proofs.Tabu.Accuracy
import SwapSearch.Proofs.Tabu.Candidate
import SwapSearch.Proofs.Tabu.Contract
import SwapSearch.Proofs.Tabu.Dialogue
import SwapSearch.Proofs.Tabu.Ending
import SwapSearch.Proofs.Tabu.Failures
import SwapSearch.Proofs.Tabu.Frame
import SwapSearch.Proofs.Tabu.Itinerary
import SwapSearch.Proofs.Tabu.Kept
import SwapSearch.Proofs.Tabu.Ledger
import SwapSearch.Proofs.Tabu.Observed
import SwapSearch.Proofs.Tabu.Recall
import SwapSearch.Proofs.Tabu.Stagnation
import SwapSearch.Proofs.Tabu.Steady
import SwapSearch.Proofs.Tabu.Steps
import SwapSearch.Proofs.Tabu.Success
import SwapSearch.Proofs.Tabu.Summit
import SwapSearch.Proofs.Tabu.Totality
import SwapSearch.Proofs.Tabu.Trail
import SwapSearch.Proofs.Text
import SwapSearch.Proofs.Traversal
import SwapSearch.Proofs.WeightedSum.Cache
import SwapSearch.Proofs.WeightedSum.Component
import SwapSearch.Proofs.WeightedSum.Failures
import SwapSearch.Proofs.WeightedSum.Sequence
import SwapSearch.Proofs.WeightedSum.Single
import SwapSearch.Random.ChaCha
import SwapSearch.Random.Generators
import SwapSearch.Random.Sample
import SwapSearch.Random.Shuffle
import SwapSearch.Random.Source
import SwapSearch.Scalar
import SwapSearch.Scalar.Binary64
import SwapSearch.Stored
import SwapSearch.Tabu.Memory
import SwapSearch.Tabu.Search
import SwapSearch.Tabu.Settings
import SwapSearch.Tabu.Walk
import SwapSearch.Text.Numeral
import SwapSearch.Text.Words
import SwapSearch.WeightedSum
import SwapSearch.Word
