import Chloride.Containers.OrderedMap
import Chloride.Containers.Chain
import Chloride.Containers.Stamped
import Chloride.Hashmap.HashmapGC
import Chloride.Hashmap.Refinement
import Chloride.Hashmap.History
import Chloride.Containers.Counted
import Chloride.Hashmap.Counters
import Chloride.Hashmap.Hashmap
import Chloride.Objects.Number
import Chloride.Objects.Dictionary
import Chloride.Objects.DictionaryIteration
import Chloride.Containers.Runs
import Chloride.Containers.Kinds
import Chloride.Containers.ScopeStack
import Chloride.Bytecode.Instr
import Chloride.Runtime.State
import Chloride.Translator.ParsedValue
import Chloride.Translator.Translated
import Chloride.Translator.Translate
import Chloride.Parser.Tokens
import Chloride.Parser.Call
import Chloride.Parser.Operations
import Chloride.Parser.Expression
import Chloride.Parser.Parameters
import Chloride.Parser.Declarations
import Chloride.Parser.ParameterNames
import Chloride.Translator.CallCode
import Chloride.Runtime.Unwinding
import Chloride.Runtime.NumberCache
import Chloride.Runtime.NumberLiterals
import Chloride.Logic.Hoare
import Chloride.Logic.Loops
import Chloride.Containers.IntIndexed
import Chloride.Logic.Enclosing
import Chloride.Logic.Exceptional
import Chloride.Containers.Shuffling
import Chloride.Translator.Contexts
import Chloride.Numerics.Signed64
import Chloride.Numerics.Numerals
import Chloride.Numerics.Precedence
import Chloride.Numerics.Progression
import Chloride.Numerics.Calendar
import Chloride.Numerics.Formatting
import Chloride.Runtime.NativeNumbers
import Chloride.Runtime.Arithmetic
import Chloride.Runtime.Computation
import Chloride.Runtime.Comparison
import Chloride.Runtime.FloorDivision
import Chloride.Runtime.Exponentiation
import Chloride.Runtime.ArithmeticChains
import Chloride.Runtime.ArgumentOrder
import Chloride.Runtime.Binding
import Chloride.Runtime.Environment
import Chloride.Objects.Attributes
import Chloride.Objects.AttributeDeletion
import Chloride.Objects.ClassChains
import Chloride.Runtime.Operators
import Chloride.Runtime.NumberHash
import Chloride.Import.Cache
import Chloride.Import.Modules
import Chloride.Import.PathLengths
import Chloride.Runtime.Closures
import Chloride.Objects.Slice
import Chloride.Objects.Slicing
import Chloride.Objects.ArraySlices
import Chloride.Objects.DArray
import Chloride.Objects.ArrayMethods
import Chloride.Objects.RangeIterator
import Chloride.Objects.StringBytes
import Chloride.Objects.Strings
import Chloride.Containers.Substring
import Chloride.Objects.StringSearch
import Chloride.Containers.Splitting
import Chloride.Containers.Fields
import Chloride.Containers.Walks
import Chloride.Containers.Links
import Chloride.Stdlib.Path
import Chloride.Stdlib.PathResolution
import Chloride.Stdlib.PathSplitting
import Chloride.Stdlib.PathRelations
import Chloride.Stdlib.Url
import Chloride.Stdlib.UrlQuery
import Chloride.Objects.Buffers
import Chloride.Stdlib.HttpHeader
import Chloride.Stdlib.Multipart
import Chloride.Hashmap.Room
import Chloride.Objects.StringSplit
import Chloride.Objects.Sorting
import Chloride.Objects.SortingRules
import Chloride.Objects.Quicksort
import Chloride.Objects.SortSafety
import Chloride.Objects.SortOrder
import Chloride.Objects.ArrayCallbacks
import Chloride.Objects.SortErrors
import Chloride.Objects.NativeCalls
import Chloride.Objects.FirstError
import Chloride.Json.Stringify
import Chloride.Stdlib.Maths
import Chloride.Translator.ImportCode
import Chloride.Runtime.ScopePlaces
import Chloride.Runtime.ImportExposure
import Chloride.Lexer.Munch
import Chloride.Lexer.StringRules
import Chloride.Lexer.Rules
import Chloride.Lexer.TemplateNesting
import Chloride.Parser.Unquote
import Chloride.Parser.TemplateText
import Chloride.Objects.Quoting
import Chloride.Objects.CodePoints
import Chloride.Stdlib.RegexMatches
import Chloride.Stdlib.RegexReplace
import Chloride.Stdlib.HttpBody
import Chloride.Objects.StringCuts
import Chloride.Stdlib.HttpUrl
import Chloride.Stdlib.HttpHeaderBlock
import Chloride.Logic.Logged
import Chloride.Stdlib.ArchiveExtraction
import Chloride.Objects.DynamicArray
import Chloride.Stdlib.Random
import Chloride.Hashmap.Lookup
import Chloride.Translator.ArenaMemory
import Chloride.Stdlib.PathNames
import Chloride.Parser.Dowrap
import Chloride.Stdlib.Date
import Chloride.Stdlib.ArchiveErrors
import Chloride.Containers.FileTree
import Chloride.Logic.Stateful
import Chloride.Stdlib.FileDeletion
import Chloride.Logic.OneShot
import Chloride.Stdlib.Threading
import Chloride.Stdlib.ThreadLifetimes
import Chloride.Logic.Until
import Chloride.Logic.Dialogue
import Chloride.Runtime.Evaluation
import Chloride.Runtime.OperatorSteps
import Chloride.Runtime.OperatorCode
import Chloride.Runtime.OperandCode
import Chloride.Runtime.OperatorExpressions
import Chloride.Runtime.ArithmeticCode
import Chloride.Stdlib.FileCopies
