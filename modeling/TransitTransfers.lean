import TransitTransfers.Settings.Document
import TransitTransfers.Optimizer
import TransitTransfers.Proofs.Computation
import TransitTransfers.Proofs.Schedule.Times
import TransitTransfers.Timetable.Builder
import TransitTransfers.Proofs.Timetable.Entries
import TransitTransfers.Proofs.Timetable.Growth
import TransitTransfers.Proofs.Timetable.Steps
import TransitTransfers.Proofs.Timetable.Consistency
import TransitTransfers.Proofs.Timetable.Schedules
import TransitTransfers.Proofs.Timetable.Atomicity
import TransitTransfers.Proofs.Timetable.Building
import TransitTransfers.Proofs.Timetable.Built
import TransitTransfers.Proofs.Itinerary.Soundness
import TransitTransfers.Proofs.Itinerary.Durations
import TransitTransfers.Proofs.Itinerary.Texts
import TransitTransfers.Proofs.Join.Finding
import TransitTransfers.Proofs.Join.Listing
import TransitTransfers.Proofs.Alternative.Chains
import TransitTransfers.Proofs.Alternative.Enumeration
import TransitTransfers.Proofs.Alternative.Offers
import TransitTransfers.Proofs.Alternative.Arena
import TransitTransfers.Proofs.Alternative.Retiming
import TransitTransfers.Proofs.Alternative.Guarantee
import TransitTransfers.Proofs.Alternative.Course
import TransitTransfers.Proofs.Alternative.Restart
import TransitTransfers.Proofs.Journal
import TransitTransfers.Proofs.Narrowing.Lexicographic
import TransitTransfers.Proofs.Optimizer.Outcome
import TransitTransfers.Proofs.Optimizer.Choices
import TransitTransfers.Proofs.Optimizer.Selection
import TransitTransfers.Proofs.Optimizer.Indifference
import TransitTransfers.Proofs.Optimizer.Blocks
import TransitTransfers.Proofs.Optimizer.Listening
import TransitTransfers.Proofs.Optimizer.Stability
import TransitTransfers.Proofs.Alternative.Room
import TransitTransfers.Proofs.Optimizer.Endings
import TransitTransfers.Proofs.Schedule.Later
import TransitTransfers.Proofs.Alternative.Later
import TransitTransfers.Proofs.Optimizer.Later
import TransitTransfers.Proofs.Alternative.Prices
import TransitTransfers.Proofs.Alternative.Charges
import TransitTransfers.Proofs.Optimizer.Charges
import TransitTransfers.Proofs.TransferRule.Precedence
import TransitTransfers.Proofs.Optimizer.Accounts
import TransitTransfers.Proofs.Alternative.Joins
import TransitTransfers.Proofs.Alternative.Walks
import TransitTransfers.Proofs.Optimizer.Breakdown
import TransitTransfers.Proofs.Join.Distinct
import TransitTransfers.Proofs.Alternative.Distinct
import TransitTransfers.Proofs.Optimizer.Distinct
import TransitTransfers.Proofs.Leg.Locating
import TransitTransfers.Proofs.Itinerary.Acceptance
import TransitTransfers.Proofs.Itinerary.Junctions
import TransitTransfers.Proofs.Narrowing.Stages
import TransitTransfers.Proofs.Decimal.Digits
import TransitTransfers.Proofs.Time.Clock
import TransitTransfers.Proofs.Binary64.Rounding
import TransitTransfers.Proofs.WaitRisk.SafeTransfer
import TransitTransfers.Proofs.Binary64.Exceptions
import TransitTransfers.Proofs.WaitRisk.Curve
import TransitTransfers.Proofs.Optimizer.Reports
import TransitTransfers.Proofs.Json.Records
import TransitTransfers.Proofs.Settings.Documents
import TransitTransfers.Proofs.Json.Reading
import TransitTransfers.Proofs.Json.Standard
