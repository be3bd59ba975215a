import MooreFilter.Lib.Search
import MooreFilter.Automata
import MooreFilter.Lib.AssocList
import MooreFilter.Lib.Sorting
import MooreFilter.Lib.Worklist
import MooreFilter.AddCounter
import MooreFilter.BitBuffer
import MooreFilter.Lib.Bound
import MooreFilter.Lib.Difference
import MooreFilter.Dbm
import MooreFilter.MooreMachine
import MooreFilter.AbsTime
import MooreFilter.Lib.Istream
import MooreFilter.Graph
import MooreFilter.Parser
import MooreFilter.Proof.Syntax
import MooreFilter.Proof.ClockIndices
import MooreFilter.Lib.Stamps
import MooreFilter.Proof.AbsTime
import MooreFilter.Filter
import MooreFilter.Lib.Delay
import MooreFilter.Lib.Masking
import MooreFilter.Lib.Related
import MooreFilter.Lib.SetKeys
import MooreFilter.Proof.AddCounter
import MooreFilter.Proof.DelayLine
import MooreFilter.Proof.Subset
import MooreFilter.Proof.Dbm
import MooreFilter.TimedMooreMachine
import MooreFilter.Proof.Sweep
import MooreFilter.Proof.ZoneGraph
import MooreFilter.Proof.TimedSubset
import MooreFilter.Proof.Untimed
import MooreFilter.Proof.Timed
import MooreFilter.Proof.Agreement
import MooreFilter.Proof.Interning
import MooreFilter.Lib.Spread
import MooreFilter.Proof.TimedRuns
import MooreFilter.Proof.Finiteness
import MooreFilter.Proof.Membership
import MooreFilter.Proof.TimedFilter
import MooreFilter.Lib.Elimination
import MooreFilter.Proof.Canonize
import MooreFilter.Proof.Duration
import MooreFilter.Proof.Successors
import MooreFilter.Lib.Extrapolation
import MooreFilter.Proof.Abstractize
import MooreFilter.Proof.Partition
import MooreFilter.Proof.Canonical
import MooreFilter.Proof.Progress
import MooreFilter.Proof.ZoneIdentity
import MooreFilter.Lib.Comparison
import MooreFilter.Proof.FilterLaws
import MooreFilter.Proof.TimedLaws
import MooreFilter.Proof.TimedMatches
import MooreFilter.Lib.Condense
import MooreFilter.Main
import MooreFilter.Proof.Program
import MooreFilter.DeepCopy
import MooreFilter.Proof.DeepCopy
import MooreFilter.Lib.Suffixes
import MooreFilter.Proof.StateCount
import MooreFilter.Proof.ZoneAlgebra
import MooreFilter.Proof.Converters
import MooreFilter.Proof.TimedStates
import MooreFilter.Proof.Codeterministic
