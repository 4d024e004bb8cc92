import EnumStamp.Arena.Similar
import EnumStamp.Arena.Snapshot
import EnumStamp.Builder
import EnumStamp.Cache.Uuid
import EnumStamp.Kind.Written
import EnumStamp.Logging.Settings
import EnumStamp.Sighting
import EnumStamp.Stamping.Program
import EnumStamp.Proofs.Arena.Extends
import EnumStamp.Proofs.Arena.Weight
import EnumStamp.Proofs.Stamping.Recursion
import EnumStamp.Proofs.Stamping.Simulation
import EnumStamp.Proofs.Cache.Answers
import EnumStamp.Proofs.Stamping.Ledger
import EnumStamp.Proofs.Stamping.Refinement
import EnumStamp.Proofs.Arena.Copies
import EnumStamp.Proofs.Tree.Basic
import EnumStamp.Proofs.Tree.Similar
import EnumStamp.Proofs.Tree.Stamped
import EnumStamp.Proofs.Tree.Correctness
import EnumStamp.Proofs.Program.Schedule
import EnumStamp.Proofs.Cache.Distinct
import EnumStamp.Proofs.Cache.Traffic
import EnumStamp.Proofs.Stamping.Session
import EnumStamp.Proofs.Stamping.Crew
import EnumStamp.Proofs.Arena.Operation
import EnumStamp.Proofs.Arena.Ownership
import EnumStamp.Proofs.Arena.Persistence
import EnumStamp.Proofs.Builder
import EnumStamp.Proofs.Stamping.Turns
import EnumStamp.Proofs.Desk
import EnumStamp.Proofs.Arena.Children
import EnumStamp.Proofs.Stamping.Occurrences
import EnumStamp.Proofs.Stamping.Sharing
import EnumStamp.Proofs.Stamping.Declarations
import EnumStamp.Proofs.Stamping.Restatement
import EnumStamp.Proofs.Stamping.Repetition
import EnumStamp.Proofs.Arena.Snapshot
import EnumStamp.Proofs.Arena.Refilling
import EnumStamp.Proofs.Stamping.Testimony
import EnumStamp.Proofs.Builder.Rendering
import EnumStamp.Proofs.Builder.Layout
import EnumStamp.Proofs.Builder.Braces
import EnumStamp.Proofs.Tree.Equivalence
import EnumStamp.Proofs.Tree.Slots
import EnumStamp.Proofs.Arena.Lineage
import EnumStamp.Proofs.Stamping.Succession
import EnumStamp.Proofs.Descent
import EnumStamp.Proofs.Cache.FirstWrite
import EnumStamp.Proofs.Sighting
import EnumStamp.Proofs.Stamping.Parts
import EnumStamp.Proofs.Stamping.Report
import EnumStamp.Proofs.Arena.Amendment
import EnumStamp.Proofs.Arena.SourceText
import EnumStamp.Proofs.Stamping.Nesting
