import Telemetry.Text.Base64
import Telemetry.Path.Text
import Telemetry.Wire
import Telemetry.Schema.Descriptor
import Telemetry.Tree.Conversion
import Telemetry.Tree.Merge
import Telemetry.Tree.Diff
import Telemetry.Schema.Check
import Telemetry.Siblings
import Telemetry.Cache.Basic
import Telemetry.Collector
import Telemetry.Settings.Check
import Telemetry.Settings.Load
import Telemetry.Proofs.Service.Commits
import Telemetry.Proofs.Service.FailedSets
import Telemetry.Proofs.Service.CacheSync
import Telemetry.Proofs.Path.Matching
import Telemetry.Proofs.Cache.Changes
import Telemetry.Proofs.Cache.Replica
import Telemetry.Proofs.Transaction.Naming
import Telemetry.Proofs.Service.Streaming
import Telemetry.Proofs.Service.ReadYourWrites
import Telemetry.Proofs.Tree.Located
import Telemetry.Proofs.Tree.Conformance
import Telemetry.Proofs.Tree.Patch
import Telemetry.Proofs.Tree.Conforms
import Telemetry.Proofs.Service.Committed
import Telemetry.Proofs.Tree.Contents
import Telemetry.Proofs.Tree.MergeEffects
import Telemetry.Proofs.Tree.PathEffects
import Telemetry.Proofs.Tree.Clearing
import Telemetry.Proofs.Tree.Passing
import Telemetry.Proofs.Transaction.Effects
import Telemetry.Proofs.Service.Repeats
import Telemetry.Proofs.Transaction.SpelledOut
import Telemetry.Proofs.Service.SpelledOut
import Telemetry.Proofs.Path.Reading
import Telemetry.Proofs.Service.Intake
import Telemetry.Proofs.Service.InternalErrors
import Telemetry.Proofs.Service.Subscribed
import Telemetry.Proofs.Cache.Reference
import Telemetry.Proofs.Tree.Breaches
import Telemetry.Proofs.Service.Commuting
import Telemetry.Proofs.Schema.Descriptors
import Telemetry.Proofs.Transaction.Coherence
import Telemetry.Proofs.Tree.Faults
import Telemetry.Proofs.Tree.Lookup
import Telemetry.Proofs.Tree.Walkers
import Telemetry.Proofs.Tree.Mutation
import Telemetry.Proofs.Tree.Scalars
import Telemetry.Proofs.Wire
import Telemetry.Proofs.Cache.Bookkeeping
import Telemetry.Proofs.Cache.Measures
import Telemetry.Proofs.Service.Dumps
import Telemetry.Proofs.Tree.Pruned
import Telemetry.Proofs.Service.EmptySets
import Telemetry.Proofs.Cache.Slots
import Telemetry.Proofs.Cache.Independence
import Telemetry.Proofs.Path.Elements
import Telemetry.Proofs.Tree.KeyDeclarations
import Telemetry.Proofs.Tree.FilledDefaults
import Telemetry.Proofs.Tree.Conversion
import Telemetry.Proofs.Settings.Texts
