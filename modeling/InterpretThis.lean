import InterpretThis.Pyset.Rebuild
import InterpretThis.Value.Agreement
import InterpretThis.Value.Membership
import InterpretThis.Value.KeyContract
import InterpretThis.Value.NumericKey
import InterpretThis.Value.HashSlot
import InterpretThis.Value.ArithExact
import InterpretThis.Value.Blind
import InterpretThis.State.Import
import InterpretThis.State.Wire
import InterpretThis.Source.Guard
import InterpretThis.Ast.Binding
import InterpretThis.Eval.Frame
import InterpretThis.Eval.Reference
import InterpretThis.Eval.Tracking
import InterpretThis.Heap.Alias
import InterpretThis.State.Lossless
import InterpretThis.Attribute.Blocked
import InterpretThis.Generator.Eager
import InterpretThis.Generator.Delegate
import InterpretThis.Generator.Routing
import InterpretThis.Generator.Step
import InterpretThis.Generator.Engine
import InterpretThis.Generator.Course
import InterpretThis.Generator.Resume
import InterpretThis.Generator.Runs
import InterpretThis.Generator.Once
import InterpretThis.Generator.Records
import InterpretThis.Generator.Ordinary
import InterpretThis.Exceptions.Hierarchy
import InterpretThis.Exceptions.Try
import InterpretThis.Exceptions.Finally
import InterpretThis.Exceptions.Group
import InterpretThis.Exceptions.With
import InterpretThis.Exceptions.Suspended
import InterpretThis.Framework.Progression
import InterpretThis.Sequence.Slice
import InterpretThis.Sequence.Exact
import InterpretThis.Sequence.Removal
import InterpretThis.Framework.Calling
import InterpretThis.Functions.Binding
import InterpretThis.Functions.Declared
import InterpretThis.Budget.Frame
import InterpretThis.Budget.Worth
import InterpretThis.Framework.Route
import InterpretThis.Place.Store
import InterpretThis.Framework.Sharing
import InterpretThis.Budget.Size
import InterpretThis.Place.Captured
import InterpretThis.Place.Rebinding
import InterpretThis.Budget.Honest
import InterpretThis.Classes.Mro
import InterpretThis.Framework.StableSort
import InterpretThis.Sort.Dsu
import InterpretThis.Sort.InPlace
import InterpretThis.Framework.Recorded
import InterpretThis.Names.Guard
import InterpretThis.Names.Refusal
import InterpretThis.Names.Lookup
import InterpretThis.Operators.Dispatch
import InterpretThis.Framework.Strategy
import InterpretThis.Metering.Operations
import InterpretThis.Metering.Bounds
import InterpretThis.Classes.Body
import InterpretThis.Classes.Harvest
import InterpretThis.Recursion.Calls
import InterpretThis.Recursion.Balance
import InterpretThis.Format.Value
import InterpretThis.Format.Prescribed
import InterpretThis.Format.Integer
import InterpretThis.Format.Misgrouping
import InterpretThis.Format.Percent
import InterpretThis.Format.PrintfConvert
import InterpretThis.Format.Bodies
import InterpretThis.Format.Bounded
import InterpretThis.Format.Fields
import InterpretThis.Format.Guard
import InterpretThis.Framework.Bytes
import InterpretThis.Math.Binary32
import InterpretThis.Struct.Layout
import InterpretThis.Struct.Packing
import InterpretThis.Struct.RoundTrip
import InterpretThis.Struct.Exact
import InterpretThis.Ranges.Range
import InterpretThis.Ranges.Exact
import InterpretThis.Identity.Values
import InterpretThis.Identity.Symmetric
import InterpretThis.Caching.Lru
import InterpretThis.Codecs.Unicode
import InterpretThis.Codecs.Encode
import InterpretThis.Codecs.RoundTrip
import InterpretThis.Codecs.Exact
import InterpretThis.ClassTable.Lookup
import InterpretThis.ClassTable.Owned
import InterpretThis.ClassTable.Distinct
import InterpretThis.Framework.Squaring
import InterpretThis.Framework.Bezout
import InterpretThis.Framework.Numeral
import InterpretThis.Integers.Literals
import InterpretThis.Integers.PowMod
import InterpretThis.Integers.ToBytes
import InterpretThis.Framework.Bisection
import InterpretThis.Framework.Enumeration
import InterpretThis.Framework.HeapOrder
import InterpretThis.Modules.Bisect
import InterpretThis.Modules.Combinations
import InterpretThis.Modules.Heapq
import InterpretThis.Modules.HeapqExact
import InterpretThis.Modules.HeapqMerge
import InterpretThis.Modules.Permutations
import InterpretThis.Framework.Register
import InterpretThis.Modules.Twister
import InterpretThis.Framework.Filling
import InterpretThis.Framework.Tally
import InterpretThis.Modules.Base32
import InterpretThis.Modules.Counter
import InterpretThis.Modules.Selection
import InterpretThis.Modules.Textwrap
import InterpretThis.Operators.Numeric
import InterpretThis.Operators.NumericAgreement
import InterpretThis.Text.Search
import InterpretThis.Text.Split
import InterpretThis.Text.StringIo
import InterpretThis.Pyset.Termination
import InterpretThis.Fractions.LimitDenominator
import InterpretThis.Pyset.Ports
import InterpretThis.Math.HalfEven
import InterpretThis.Framework.Quoted
import InterpretThis.Integers.Rounding
import InterpretThis.Text.Reprs
import InterpretThis.Modules.Datetime
import InterpretThis.Modules.ChainMap
import InterpretThis.Modules.Deque
import InterpretThis.Tools.Proxy
import InterpretThis.Integers.Counting
import InterpretThis.Modules.ExitStack
