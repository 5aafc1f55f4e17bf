import ExRocket.Merge.Applicable
import ExRocket.Merge.BitsetGrammar
import ExRocket.Merge.BitsetMembers
import ExRocket.Merge.Counter
import ExRocket.Merge.CounterExact
import ExRocket.Merge.Format
import ExRocket.Merge.Grouping
import ExRocket.Merge.Integers
import ExRocket.Merge.Panics
import ExRocket.Nif.BatchSkips
import ExRocket.Nif.Deadlock
import ExRocket.Nif.Elixir
import ExRocket.Nif.FailStop
import ExRocket.Nif.Isolation
import ExRocket.Nif.Lifetime
import ExRocket.Nif.Lookup
import ExRocket.Nif.Merges
import ExRocket.Nif.OptionStrings
import ExRocket.Nif.Paths
import ExRocket.Nif.Poison
import ExRocket.Nif.PrefixIterators
import ExRocket.Nif.RangeBounds
import ExRocket.Nif.Setters
import ExRocket.Nif.SharedIterators
import ExRocket.Nif.SnapshotReads
import ExRocket.Nif.SnapshotSessions
import ExRocket.Nif.TableIterators
