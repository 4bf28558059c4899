import BranchBound.Fault
import BranchBound.Word
import BranchBound.Sum
import BranchBound.Descent
import BranchBound.Arena
import BranchBound.Matrix
import BranchBound.Trail
import BranchBound.Cells
import BranchBound.Heap
import BranchBound.Space
import BranchBound.Propagator
import BranchBound.Constraint.Circuit
import BranchBound.Constraint.TimeWindow
import BranchBound.Constraint.LinearSum
import BranchBound.Constraint.ProductionLink
import BranchBound.Constraint.CumulativeProduction
import BranchBound.Constraint.DemandCapacity
import BranchBound.Constraint.StockingCost
import BranchBound.Constraint.ChangeoverCost
import BranchBound.Constraint.Probe
import BranchBound.Constraint
import BranchBound.Engine.WatchList
import BranchBound.Engine.Queue
import BranchBound.Engine
import BranchBound.Engine.Messages
import BranchBound.Random
import BranchBound.Branching.TieBreaker
import BranchBound.Branching.Weights
import BranchBound.Branching.Shuffle
import BranchBound.Termination
import BranchBound.Text.CamelCase
import BranchBound.Text.CharacterSet
import BranchBound.Text.Cluster
import BranchBound.Text.Cluster.Table
import BranchBound.Text.LetterCase
import BranchBound.Text.LetterCase.Table
import BranchBound.Statistics
import BranchBound.Error
import BranchBound.Solution
import BranchBound.Search
import BranchBound.Model
import BranchBound.Ranked
import BranchBound.Text.Blank
import BranchBound.Text.Number
import BranchBound.Format.Error
import BranchBound.Format.Lines
import BranchBound.Routing.Instance
import BranchBound.Routing.Tour
import BranchBound.Routing.Model
import BranchBound.Routing.Format
import BranchBound.LotSizing.Instance
import BranchBound.LotSizing.Schedule
import BranchBound.LotSizing.Model
import BranchBound.LotSizing.Format
import BranchBound.Portfolio.Incumbent
import BranchBound.Portfolio.Worker
import BranchBound.Portfolio
import BranchBound.Portfolio.Barrier
import BranchBound.Portfolio.Protocol
import BranchBound.CommandLine.Arguments
import BranchBound.CommandLine.Path
import BranchBound.CommandLine.Report
import BranchBound.CommandLine.Session
import BranchBound.Main
import BranchBound.Proofs.Outcome
import BranchBound.Proofs.Domain
import BranchBound.Proofs.Store
import BranchBound.Proofs.Space
import BranchBound.Proofs.Filter
import BranchBound.Proofs.Queue
import BranchBound.Proofs.Queue.Order
import BranchBound.Proofs.Engine
import BranchBound.Proofs.Branching
import BranchBound.Proofs.Search
import BranchBound.Proofs.Coverage
import BranchBound.Proofs.Construction
import BranchBound.Proofs.Exactness
import BranchBound.Proofs.Contract
import BranchBound.Proofs.Rule
import BranchBound.Proofs.Persistence
import BranchBound.Proofs.Tables
import BranchBound.Proofs.TimeWindow
import BranchBound.Proofs.Path
import BranchBound.Proofs.Circuit.Cells
import BranchBound.Proofs.Circuit.Chains
import BranchBound.Proofs.Circuit.Steps
import BranchBound.Proofs.Circuit.Filter
import BranchBound.Proofs.Circuit.Contract
import BranchBound.Proofs.Circuit.Idempotence
import BranchBound.Proofs.Circuit.Pending
import BranchBound.Proofs.Circuit.Tight
import BranchBound.Proofs.Sum
import BranchBound.Proofs.LinearSum
import BranchBound.Proofs.ProductionLink
import BranchBound.Proofs.CumulativeProduction
import BranchBound.Proofs.DemandCapacity
import BranchBound.Proofs.StockingCost
import BranchBound.Proofs.ChangeoverCost.Paths
import BranchBound.Proofs.ChangeoverCost.Refilling
import BranchBound.Proofs.ChangeoverCost.Filter
import BranchBound.Proofs.Constraint
import BranchBound.Proofs.TimeWindow.Tour
import BranchBound.Proofs.Loading
import BranchBound.Proofs.Routing.Order
import BranchBound.Proofs.Routing.Check
import BranchBound.Proofs.Routing.Model
import BranchBound.Proofs.Routing.Tour
import BranchBound.Proofs.Portfolio
import BranchBound.Proofs.Routing.Exactness
import BranchBound.Proofs.LotSizing.Plan
import BranchBound.Proofs.LotSizing.Check
import BranchBound.Proofs.LotSizing.Model
import BranchBound.Proofs.LotSizing.Schedule
import BranchBound.Proofs.LotSizing.Exactness
import BranchBound.Proofs.Backtracking
import BranchBound.Proofs.Decisions
import BranchBound.Proofs.Quiescence
import BranchBound.Proofs.Resumption
import BranchBound.Proofs.Incumbent
import BranchBound.Proofs.Rounds
import BranchBound.Proofs.Merging
import BranchBound.Proofs.Budget
import BranchBound.Proofs.Memory
import BranchBound.Proofs.Bystanders
import BranchBound.Proofs.Onward
import BranchBound.Proofs.Circuit.Tours
import BranchBound.Proofs.Course
import BranchBound.Proofs.Echo
import BranchBound.Proofs.Detour
import BranchBound.Proofs.ChoicePoints
import BranchBound.Proofs.Stack
import BranchBound.Proofs.Ending
import BranchBound.Proofs.Barrier
import BranchBound.Proofs.Protocol.Steps
import BranchBound.Proofs.Protocol
import BranchBound.Proofs.Interleaving
import BranchBound.Proofs.Ranked
import BranchBound.Proofs.Confluence.Shelter
import BranchBound.Proofs.Confluence.Circuit
import BranchBound.Proofs.Circuit.Fixpoint
import BranchBound.Proofs.Confluence.Windows
import BranchBound.Proofs.Confluence.Costs
import BranchBound.Proofs.Confluence.Plans
import BranchBound.Proofs.CumulativeProduction.Support
import BranchBound.Proofs.Confluence.Demand
import BranchBound.Proofs.Confluence.Changeovers
import BranchBound.Proofs.Confluence.Constraint
import BranchBound.Proofs.Confluence.Steps
import BranchBound.Proofs.Confluence.Engine
import BranchBound.Proofs.Confluence.Schedules
import BranchBound.Proofs.Store.Reachable
import BranchBound.Proofs.Store.Lookups
import BranchBound.Proofs.Store.Intersection
import BranchBound.Proofs.LinearSum.Consistency
import BranchBound.Proofs.StockingCost.Range
import BranchBound.Proofs.DemandCapacity.Exactness
import BranchBound.Proofs.ChangeoverCost.Support
import BranchBound.Proofs.ProductionLink.Consistency
import BranchBound.Proofs.Wakeups.Log
import BranchBound.Proofs.Wakeups
import BranchBound.Proofs.Repetition
import BranchBound.Proofs.Circuit.Rounds
import BranchBound.Proofs.Propagation.Calls
import BranchBound.Proofs.Propagation
import BranchBound.Proofs.Matrix
import BranchBound.Proofs.Format.Lines
import BranchBound.Proofs.LotSizing.Format
import BranchBound.Proofs.Text.Spacing
import BranchBound.Proofs.Text.Numerals
import BranchBound.Proofs.Format.Layout
import BranchBound.Proofs.Routing.Content
import BranchBound.Proofs.Routing.Format
import BranchBound.Proofs.LotSizing.Layout
import BranchBound.Proofs.Shuffle
