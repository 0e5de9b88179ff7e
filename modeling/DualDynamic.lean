import DualDynamic.Engine
import DualDynamic.CutPool.Cursor
import DualDynamic.Examples
import DualDynamic.Report.Table
import DualDynamic.Training.Team
import DualDynamic.Proofs.CostToGo
import DualDynamic.Proofs.CutGeneration
import DualDynamic.Proofs.CutPool
import DualDynamic.Proofs.LinearProgram.Embedding
import DualDynamic.Proofs.PolicyGraph.Bound
import DualDynamic.Proofs.PolicyGraph.Costs
import DualDynamic.Proofs.RiskMeasure.CutValidity
import DualDynamic.Proofs.RiskMeasure.Value
import DualDynamic.Proofs.Training
import DualDynamic.Proofs.Training.Monotone
import DualDynamic.Proofs.CostToGo.Presence
import DualDynamic.Proofs.CutPool.Selection
import DualDynamic.Proofs.CutPool.Activity
import DualDynamic.Proofs.CutRecord
import DualDynamic.Proofs.CutRecord.File
import DualDynamic.Proofs.Node.Approximation
import DualDynamic.Proofs.PolicyGraph.Bare
import DualDynamic.Proofs.PolicyGraph.Copies
import DualDynamic.Proofs.PolicyGraph.Open
import DualDynamic.Proofs.PolicyGraph.Stored
import DualDynamic.Proofs.Training.Exchange
import DualDynamic.Proofs.CostToGo.Contents
import DualDynamic.Proofs.Node.Settings
import DualDynamic.Proofs.Random.Draw
import DualDynamic.Proofs.Simulation
import DualDynamic.Proofs.Simulation.Paths
import DualDynamic.Proofs.CutRecord.Sessions
import DualDynamic.Proofs.PolicyGraph.Rows
import DualDynamic.Proofs.Subproblem.Alignment
import DualDynamic.Proofs.Training.Delivery
import DualDynamic.Proofs.Node.Twins
import DualDynamic.Proofs.PolicyGraph.Twins
import DualDynamic.Proofs.Training.Evaluation
import DualDynamic.Proofs.PolicyGraph.Replay
import DualDynamic.Proofs.Training.Changes
import DualDynamic.Proofs.PolicyGraph.Dimensions
import DualDynamic.Proofs.Training.Stopping
import DualDynamic.Proofs.Training.Resume
import DualDynamic.Proofs.Training.Interruption
import DualDynamic.Proofs.CostToGo.Envelope
import DualDynamic.Proofs.PolicyGraph.Addresses
import DualDynamic.Proofs.Subproblem.Pricing
import DualDynamic.Proofs.Subproblem.Verdict
import DualDynamic.Proofs.Repetition
import DualDynamic.Proofs.Subproblem.Distribution
import DualDynamic.Proofs.Node.Contingencies
import DualDynamic.Proofs.PolicyGraph.Contingencies
import DualDynamic.Proofs.PolicyGraph.Repetition
import DualDynamic.Proofs.PolicyGraph.Shown
import DualDynamic.Proofs.PolicyGraph.Tight
import DualDynamic.Proofs.CostToGo.Refusal
import DualDynamic.Proofs.PolicyGraph.Transitions
import DualDynamic.Proofs.Node.Price
import DualDynamic.Proofs.Training.Known
import DualDynamic.Proofs.CutPool.Order
import DualDynamic.Proofs.CutPool.Walks
import DualDynamic.Proofs.CutRecord.Batches
import DualDynamic.Proofs.PolicyGraph.Construction
import DualDynamic.Proofs.RiskMeasure.Weights
import DualDynamic.Proofs.Subproblem.Registration
import DualDynamic.Proofs.Node.StageCost
import DualDynamic.Proofs.Simulation.Costs
