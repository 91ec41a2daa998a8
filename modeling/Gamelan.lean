import Gamelan.CommandLine.Disk
import Gamelan.Main
import Gamelan.Proofs.Performance.Step
import Gamelan.Proofs.SortedMap
import Gamelan.Proofs.Performance.Restart
import Gamelan.Proofs.Arrangement.Invariant
import Gamelan.Proofs.Performance.Calls
import Gamelan.Proofs.Performance.History
import Gamelan.Proofs.Performance.Failure
import Gamelan.Proofs.Performance.Flow
import Gamelan.Proofs.Performance.Walk
import Gamelan.Proofs.Performance.Timing
import Gamelan.Proofs.Arrangement.Flow
import Gamelan.Proofs.Midi.Timeline
import Gamelan.Proofs.Performance.Positions
import Gamelan.Proofs.Performance.Follow
import Gamelan.Proofs.Performance.Returns
import Gamelan.Proofs.Arrangement.Accepted
import Gamelan.Proofs.Arrangement.Exits
import Gamelan.Proofs.Performance.Passes
import Gamelan.Proofs.Performance.Sequence
import Gamelan.Proofs.Arrangement.Faults
import Gamelan.Proofs.Arrangement.Refused
import Gamelan.Proofs.Arrangement.Setup
import Gamelan.Proofs.Midi.Spacing
import Gamelan.Proofs.Midi.Tracks
import Gamelan.Proofs.Performance.Lead
import Gamelan.Proofs.Performance.Loops
import Gamelan.Proofs.Performance.Revisits
import Gamelan.Proofs.Performance.Beginning
import Gamelan.Proofs.Performance.Arrival
import Gamelan.Proofs.Performance.Cycles
import Gamelan.Proofs.Performance.Reached
import Gamelan.Proofs.Performance.Visits
import Gamelan.Proofs.Performance.Entries
import Gamelan.Proofs.Performance.FirstVisits
import Gamelan.Proofs.Ramp.Course
import Gamelan.Proofs.Performance.Values
import Gamelan.Proofs.Performance.Range
import Gamelan.Proofs.Arrangement.Allocation
import Gamelan.Proofs.Arrangement.Extensions
import Gamelan.Proofs.Arrangement.Gotos
import Gamelan.Proofs.Arrangement.Occurring
import Gamelan.Proofs.Score.Notation
import Gamelan.Proofs.Midi.Sounds
import Gamelan.Proofs.Settings
import Gamelan.Proofs.Compile
import Gamelan.Proofs.Midi.Parts
import Gamelan.Proofs.Midi.Balance
import Gamelan.Proofs.Midi.Rendering
import Gamelan.Proofs.Arrangement.Related
import Gamelan.Proofs.Performance.Limit
import Gamelan.Proofs.Performance.Forward
import Gamelan.Proofs.Ramp.Embedding
import Gamelan.Proofs.Performance.Hearing
import Gamelan.Proofs.Ramp.Shares
import Gamelan.Proofs.Arrangement.Targets
import Gamelan.Proofs.Arrangement.Interleaving
import Gamelan.Proofs.Score.Lookups
import Gamelan.Proofs.Performance.Lookups
import Gamelan.Proofs.Arrangement.Lookups
import Gamelan.Proofs.Performance.Inside
import Gamelan.Proofs.Midi.Lookups
import Gamelan.Proofs.Performance.Complete
import Gamelan.Proofs.Arrangement.Defaults
import Gamelan.Proofs.Score.Written
import Gamelan.Proofs.Score.Arena
import Gamelan.Proofs.Score.Measures
import Gamelan.Proofs.Score.Durations
import Gamelan.Proofs.Score.Regrouping
import Gamelan.Proofs.Midi.TempoMap
import Gamelan.Proofs.Performance.Adoption
import Gamelan.Proofs.Ramp.Running
import Gamelan.Proofs.Performance.Running
import Gamelan.Proofs.Score.Positions
import Gamelan.Proofs.Midi.Plan
import Gamelan.Proofs.CommandLine.Paths
import Gamelan.Proofs.CommandLine.Files
