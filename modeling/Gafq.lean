import Gafq.Verified.OperandBounds
import Gafq.Verified.OpenInstructions
import Gafq.Verified.StackRoom
import Gafq.Verified.DumpRoundTrip
import Gafq.Verified.ChunkGrammar
import Gafq.Verified.CoroutineRuns
import Gafq.Verified.TableFailure
import Gafq.Verified.TableRefinement
import Gafq.Verified.TableTraversal
import Gafq.Verified.GC.Runs
import Gafq.Verified.HeapStrings
import Gafq.Verified.HeapUpvalues
import Gafq.Verified.GC.SetUpvalue
import Gafq.Verified.GC.Loading
import Gafq.Verified.Upvalues
import Gafq.Verified.StringTable
import Gafq.FullGC
import Gafq.Verified.GC.ProgramSteps
import Gafq.Verified.GC.Completeness
import Gafq.Verified.GC.Estimate
import Gafq.Verified.PatternSafety
import Gafq.Verified.PlainSearch
import Gafq.Verified.Scanning
import Gafq.Verified.PatternClasses
import Gafq.Verified.PatternSemantics
import Gafq.Lex
import Gafq.Stream
import Gafq.Verified.LexerStops
import Gafq.Verified.Loading
import Gafq.Verified.QuotedStrings
import Gafq.Parser.Expression
import Gafq.Parser.Printing
import Gafq.Verified.ExpressionRoundTrip
import Gafq.Verified.TagMethodCache
import Gafq.Verified.StringOrder
import Gafq.Verified.ConcatFolding
import Gafq.Verified.Boundary
import Gafq.Verified.FormatStrings
import Gafq.Verified.SortSafety
import Gafq.Verified.Constants
import Gafq.Verified.RehashRoom
import Gafq.Compiler.Grammar
import Gafq.Verified.Substitution
import Gafq.Verified.Compiler.TokenLines
import Gafq.Verified.Compiler.ExpressionTokens
import Gafq.Verified.LongStrings
import Gafq.Verified.TokenSpelling
import Gafq.Verified.Tokens
import Gafq.Verified.NestedRehash
import Gafq.TabLib.Insert
import Gafq.Verified.Insertion
import Gafq.AuxLib.Reference
import Gafq.Verified.References
import Gafq.ObjectName
import Gafq.Verified.ObjectNames
import Gafq.Verified.Memfind
import Gafq.Verified.FloatBytes
import Gafq.Verified.TableCounts
import Gafq.Verified.ReadLine
import Gafq.Verified.LineNumbers
import Gafq.Verified.EndOfStream
import Gafq.Verified.Compiler.PendingJumps
import Gafq.Verified.TailCalls
import Gafq.Verified.HookEvents
