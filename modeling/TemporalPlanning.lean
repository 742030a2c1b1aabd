import TemporalPlanning.Text.Units
import TemporalPlanning.Journal
import TemporalPlanning.Model.Operand
import TemporalPlanning.Model.Problem
import TemporalPlanning.Evaluation.Basic
import TemporalPlanning.Plan.Partial
import TemporalPlanning.Stn.Schedule
import TemporalPlanning.Execution.Transition
import TemporalPlanning.Validation.Validator
import TemporalPlanning.Document.Report
import TemporalPlanning.Document.Fault
import TemporalPlanning.Document.Network
import TemporalPlanning.Proofs.ConstraintSequences
import TemporalPlanning.Proofs.RunConstraints
import TemporalPlanning.Proofs.StepReplacement
import TemporalPlanning.Proofs.RightOpenConditions
import TemporalPlanning.Proofs.Bookkeeping
import TemporalPlanning.Proofs.Linearizations
import TemporalPlanning.Proofs.Acyclicity
import TemporalPlanning.Proofs.OrderedPlans
import TemporalPlanning.Proofs.ScheduledTimes
import TemporalPlanning.Proofs.Separations
import TemporalPlanning.Proofs.ParallelEffects
import TemporalPlanning.Proofs.InstantaneousSteps
import TemporalPlanning.Proofs.Trajectories
import TemporalPlanning.Proofs.Interchange
import TemporalPlanning.Proofs.InstantaneousPlans
import TemporalPlanning.Proofs.ClassicalRuns
import TemporalPlanning.Proofs.InstantaneousRuns
import TemporalPlanning.Proofs.ListingOrder
import TemporalPlanning.Proofs.EarliestSchedules
import TemporalPlanning.Proofs.CompleteTraces
import TemporalPlanning.Proofs.ListingTies
import TemporalPlanning.Proofs.TimedRoundTrips
import TemporalPlanning.Proofs.ConstraintMaps
import TemporalPlanning.Proofs.EventEffects
import TemporalPlanning.Proofs.RecordedReads
import TemporalPlanning.Proofs.CarriedContents
import TemporalPlanning.Proofs.TrajectoryReports
import TemporalPlanning.Proofs.GoalPlacements
import TemporalPlanning.Proofs.InstantOrder
import TemporalPlanning.Proofs.RecordedBounds
import TemporalPlanning.Proofs.AssertedLiterals
import TemporalPlanning.Proofs.RebuiltOwners
import TemporalPlanning.Proofs.EarliestDurations
import TemporalPlanning.Proofs.ValuationHistories
import TemporalPlanning.Proofs.WrittenNumbers
import TemporalPlanning.Proofs.LowestTerms
import TemporalPlanning.Proofs.AfterTheEnd
import TemporalPlanning.Proofs.QueueTurns
import TemporalPlanning.Proofs.FluentKeys
