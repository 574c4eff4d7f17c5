import Aer.Memory.Mutator
import Aer.Memory.RememberedSet
import Aer.Compiler.ErrorFlag
import Aer.Machine.RangeLoop
import Aer.Machine.Recovery
import Aer.Compiler.ExprText
import Aer.Machine.ScopeStore
import Aer.Data.FiniteMap
import Aer.Data.TableLimit
import Aer.Program.Isolation
import Aer.Machine.ArrayRuns
import Aer.Machine.CallPaths
import Aer.Program.StructNames
import Aer.Json.RoundTrip
import Aer.Data.ValueBox
import Aer.Machine.Slices
import Aer.Machine.Fused
import Aer.Machine.Rendering
import Aer.Json.WritesJson
import Aer.Compiler.PoolSharing
import Aer.Compiler.Balance
import Aer.Stdlib.Strings
import Aer.Stdlib.StringSizes
import Aer.Stdlib.SplitJoin
import Aer.Stdlib.Random
import Aer.Stdlib.Sorting
import Aer.Machine.Equality
import Aer.Data.DictTable
import Aer.Machine.DictAccess
import Aer.Machine.DictLoop
import Aer.Compiler.Indentation
import Aer.Compiler.LexReads
import Aer.Compiler.LexProgress
import Aer.Compiler.Interpolation
import Aer.Compiler.StringLiterals
import Aer.Compiler.Captures
import Aer.Compiler.Defaults
import Aer.Compiler.LineMarks
import Aer.Machine.StringParts
import Aer.Machine.DictLiteral
import Aer.Machine.BuiltinPaths
import Aer.Machine.Casts
import Aer.Stdlib.Files
import Aer.Memory.SlabRuns
import Aer.Shell.History
import Aer.Machine.ItemBuffer
import Aer.Machine.FlowCode
