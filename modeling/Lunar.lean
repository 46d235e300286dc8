import Lunar.Lib.BinarySearch
import Lunar.Lib.Bits
import Lunar.Lib.Calls
import Lunar.Lib.Chains
import Lunar.Lib.Checked
import Lunar.Lib.Concat
import Lunar.Lib.Contract
import Lunar.Lib.Couple
import Lunar.Lib.Csr
import Lunar.Lib.Cut
import Lunar.Lib.Decimal
import Lunar.Lib.Double
import Lunar.Lib.Double.Bounds
import Lunar.Lib.Double.Digits
import Lunar.Lib.Double.Exact
import Lunar.Lib.Double.Fixed
import Lunar.Lib.Double.Monotone
import Lunar.Lib.Double.Nearest
import Lunar.Lib.Double.Power
import Lunar.Lib.Double.Rational
import Lunar.Lib.Double.Script
import Lunar.Lib.Double.Shortest
import Lunar.Lib.Double.Words
import Lunar.Lib.Ending
import Lunar.Lib.Fill
import Lunar.Lib.Flow
import Lunar.Lib.Json
import Lunar.Lib.Keeps
import Lunar.Lib.Loop
import Lunar.Lib.Loops
import Lunar.Lib.Machine
import Lunar.Lib.Merging
import Lunar.Lib.Numbering
import Lunar.Lib.Numeral
import Lunar.Lib.Outcome
import Lunar.Lib.Prog
import Lunar.Lib.Rely
import Lunar.Lib.Search
import Lunar.Lib.Sharing
import Lunar.Lib.Shuffle
import Lunar.Lib.Slice
import Lunar.Lib.Sweep
import Lunar.Lib.System
import Lunar.Lib.Text
import Lunar.Lib.Varint
import Lunar.Payload.Assemble
import Lunar.Payload.Assemble.Decrypt
import Lunar.Payload.Assemble.Writer
import Lunar.Payload.Blob
import Lunar.Payload.Blob.Agree
import Lunar.Payload.Blob.Parse
import Lunar.Payload.Blob.Run
import Lunar.Payload.Compute
import Lunar.Payload.Compute.Bijection
import Lunar.Payload.Decompile
import Lunar.Payload.Decompile.Partition
import Lunar.Payload.Decompile.Search
import Lunar.Payload.Devirt
import Lunar.Payload.Devirt.Chains
import Lunar.Payload.Devirt.Cleanup
import Lunar.Payload.Devirt.Function
import Lunar.Payload.Devirt.Paths
import Lunar.Payload.Disasm
import Lunar.Payload.Disasm.Agree
import Lunar.Payload.Disasm.Disassemble
import Lunar.Payload.Disasm.Doubles
import Lunar.Payload.Disasm.Fast
import Lunar.Payload.Disasm.Marks
import Lunar.Payload.Disasm.Reachable
import Lunar.Payload.Emulate.Boot
import Lunar.Payload.Emulate.Generations
import Lunar.Payload.Emulate.Machine
import Lunar.Payload.Emulate.Value
import Lunar.Payload.Evaluators.Agree
import Lunar.Payload.Evaluators.Parse
import Lunar.Payload.Evaluators.Print
import Lunar.Payload.Evaluators.Reading
import Lunar.Payload.Evaluators.Script
import Lunar.Payload.Exec.Agree
import Lunar.Payload.Exec.Compact
import Lunar.Payload.Exec.Correct
import Lunar.Payload.Exec.DeadStores
import Lunar.Payload.Exec.FuseApply
import Lunar.Payload.Exec.Liveness
import Lunar.Payload.Exec.Op
import Lunar.Payload.Exec.Optimize
import Lunar.Payload.Exec.Pending
import Lunar.Payload.Exec.Plain
import Lunar.Payload.Exec.Prune
import Lunar.Payload.Exec.Realm
import Lunar.Payload.Fold
import Lunar.Payload.Generator
import Lunar.Payload.Handlers
import Lunar.Payload.Interp.Budget
import Lunar.Payload.Interp.Code
import Lunar.Payload.Interp.Coercion
import Lunar.Payload.Interp.Compile
import Lunar.Payload.Interp.Index
import Lunar.Payload.Interp.Integers
import Lunar.Payload.Interp.Literal
import Lunar.Payload.Interp.Lower
import Lunar.Payload.Interp.Lower.Blocks
import Lunar.Payload.Interp.Lower.Emit
import Lunar.Payload.Interp.Lower.Exprs
import Lunar.Payload.Interp.Lower.Runs
import Lunar.Payload.Interp.Lower.Stmts
import Lunar.Payload.Interp.Machine
import Lunar.Payload.Interp.Mild
import Lunar.Payload.Interp.Names
import Lunar.Payload.Interp.Numeral
import Lunar.Payload.Interp.Object
import Lunar.Payload.Interp.Ops
import Lunar.Payload.Interp.Radix
import Lunar.Payload.Interp.Scopes
import Lunar.Payload.Interp.Sort
import Lunar.Payload.Interp.State
import Lunar.Payload.Interp.Store
import Lunar.Payload.Interp.Summary
import Lunar.Payload.Interp.Summary.Calls
import Lunar.Payload.Interp.Tame
import Lunar.Payload.Interp.Template
import Lunar.Payload.Interp.Value
import Lunar.Payload.Ir
import Lunar.Payload.Lift
import Lunar.Payload.Lift.Compact
import Lunar.Payload.Opaque
import Lunar.Payload.Probe
import Lunar.Payload.Probe.Definitions
import Lunar.Payload.Probe.Layout
import Lunar.Payload.Probe.Paths
import Lunar.Payload.Promise
import Lunar.Payload.Promise.Once
import Lunar.Payload.Timing
import Lunar.Payload.Timing.Header
import Lunar.Payload.Timing.Order
import Lunar.Payload.Timsort
import Lunar.Payload.Timsort.Merge
import Lunar.Payload.Timsort.Runs
import Lunar.Payload.Timsort.Search
import Lunar.Payload.Timsort.Stable
import Lunar.Payload.Values
import Lunar.Payload.Values.HexRadix
import Lunar.Payload.Values.Xkq
import Lunar.Utils.Profiles
import Lunar.Worktime.Cache.Freshness
import Lunar.Worktime.Cache.SingleFlight
import Lunar.Worktime.Cache.System
import Lunar.Worktime.Cache.Table
import Lunar.Worktime.Cache.Tickets
import Lunar.Worktime.Cache.Waiters
import Lunar.Worktime.Config
import Lunar.Worktime.Config.Builds
import Lunar.Worktime.Config.Literal
import Lunar.Worktime.Config.Resolve
import Lunar.Worktime.Config.Scan
import Lunar.Worktime.Config.Solvable
import Lunar.Worktime.Decoder
import Lunar.Worktime.Decoder.Pool
import Lunar.Worktime.Disassembler
import Lunar.Worktime.Disassembler.Doubles
import Lunar.Worktime.Disassembler.Encode
import Lunar.Worktime.Disassembler.Tiling
import Lunar.Worktime.Encoder
import Lunar.Worktime.Encoder.Body
import Lunar.Worktime.Encoder.Chain
import Lunar.Worktime.Fc.Analyze
import Lunar.Worktime.Fc.Apply
import Lunar.Worktime.Fc.Build
import Lunar.Worktime.Fc.Build.Csr
import Lunar.Worktime.Fc.Build.Cutting
import Lunar.Worktime.Fc.Build.Functions
import Lunar.Worktime.Fc.Build.Named
import Lunar.Worktime.Fc.Build.Preserve
import Lunar.Worktime.Fc.Build.Scan
import Lunar.Worktime.Fc.Coverage
import Lunar.Worktime.Fc.Domain
import Lunar.Worktime.Fc.Keys
import Lunar.Worktime.Fc.Known
import Lunar.Worktime.Fc.Monotone
import Lunar.Worktime.Fc.Notify
import Lunar.Worktime.Fc.Packed
import Lunar.Worktime.Fc.Paths
import Lunar.Worktime.Fc.PostFixpoint
import Lunar.Worktime.Fc.Program
import Lunar.Worktime.Fc.Solver
import Lunar.Worktime.Fc.Termination
import Lunar.Worktime.Fc.Trie
import Lunar.Worktime.Fetch
import Lunar.Worktime.Fetch.Directives
import Lunar.Worktime.Handlers
import Lunar.Worktime.Handlers.Renaming
import Lunar.Worktime.Model
