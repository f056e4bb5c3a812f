import TpchBench.Text.Stream
import TpchBench.Pipeline.Scale
import TpchBench.Text.Matcher
import TpchBench.Text.Python
import TpchBench.Timing.Unikraft
import TpchBench.Timing.Benchmark
import TpchBench.Runner.QueryLoop
import TpchBench.Store.Transaction
import TpchBench.Loader.Import
import TpchBench.Loader.Order
import TpchBench.Loader.Exact
import TpchBench.Loader.Preload
import TpchBench.Loader.Reference
import TpchBench.Loader.Refresh
import TpchBench.Loader.Deletion
import TpchBench.Loader.Failure
import TpchBench.Loader.Malformed
import TpchBench.Boot.Cleaners
import TpchBench.Boot.TimeCommand
import TpchBench.Shell.Benchmark
import TpchBench.Image.Power
