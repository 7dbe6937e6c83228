import ScriptCore.Call
import ScriptCore.Callable
import ScriptCore.Comparison
import ScriptCore.Conversion
import ScriptCore.Display
import ScriptCore.Environment
import ScriptCore.Error
import ScriptCore.Fields
import ScriptCore.Function
import ScriptCore.Heap.Basic
import ScriptCore.Heap.Collect
import ScriptCore.Heap.Node
import ScriptCore.Heap.Release
import ScriptCore.Heap.Weight
import ScriptCore.Json.Basic
import ScriptCore.Json.Bridge
import ScriptCore.Json.Quoted
import ScriptCore.Json.Reading
import ScriptCore.Json.Written
import ScriptCore.Number.Arithmetic
import ScriptCore.Number.Decimal
import ScriptCore.Number.Double
import ScriptCore.Number.Numeral
import ScriptCore.Object.Accessor
import ScriptCore.Object.Attachment
import ScriptCore.Object.Create
import ScriptCore.Object.Elements
import ScriptCore.Object.Field
import ScriptCore.Object.Prototype
import ScriptCore.Operator
import ScriptCore.Proofs.Agreement.Answers
import ScriptCore.Proofs.Agreement.Basic
import ScriptCore.Proofs.Agreement.Bodies
import ScriptCore.Proofs.Agreement.Calls
import ScriptCore.Proofs.Agreement.CollectorSteps
import ScriptCore.Proofs.Agreement.FunctionSteps
import ScriptCore.Proofs.Agreement.Functions
import ScriptCore.Proofs.Agreement.Histories
import ScriptCore.Proofs.Agreement.Literals
import ScriptCore.Proofs.Agreement.ObjectSteps
import ScriptCore.Proofs.Agreement.Objects
import ScriptCore.Proofs.Agreement.Reading
import ScriptCore.Proofs.Agreement.Runs
import ScriptCore.Proofs.Agreement.ScopeSteps
import ScriptCore.Proofs.Agreement.Showing
import ScriptCore.Proofs.Agreement.Steps
import ScriptCore.Proofs.Agreement.StoreSteps
import ScriptCore.Proofs.Agreement.ValueSteps
import ScriptCore.Proofs.Agreement.WholeSteps
import ScriptCore.Proofs.Agreement.Writing
import ScriptCore.Proofs.Calls.Accesses
import ScriptCore.Proofs.Calls.Dispatch
import ScriptCore.Proofs.Calls.Failures
import ScriptCore.Proofs.Comparison.Callables
import ScriptCore.Proofs.Comparison.Equality
import ScriptCore.Proofs.Comparison.Keys
import ScriptCore.Proofs.Comparison.Looseness
import ScriptCore.Proofs.Comparison.Numbers
import ScriptCore.Proofs.Comparison.Orders
import ScriptCore.Proofs.Comparison.Pairs
import ScriptCore.Proofs.Comparison.Shapes
import ScriptCore.Proofs.Comparison.Sorting
import ScriptCore.Proofs.Comparison.Symmetry
import ScriptCore.Proofs.Conversion.Checked
import ScriptCore.Proofs.Conversion.Numbers
import ScriptCore.Proofs.Display.Enclosing
import ScriptCore.Proofs.Display.Shown
import ScriptCore.Proofs.Fields
import ScriptCore.Proofs.Heap.Cells
import ScriptCore.Proofs.Heap.Collection
import ScriptCore.Proofs.Heap.Counting
import ScriptCore.Proofs.Heap.Exactness
import ScriptCore.Proofs.Heap.Growth
import ScriptCore.Proofs.Heap.Handles
import ScriptCore.Proofs.Heap.Journal
import ScriptCore.Proofs.Heap.Links
import ScriptCore.Proofs.Heap.Marking
import ScriptCore.Proofs.Heap.Moves
import ScriptCore.Proofs.Heap.Reachable
import ScriptCore.Proofs.Heap.Releases
import ScriptCore.Proofs.Heap.Repeated
import ScriptCore.Proofs.Heap.Settling
import ScriptCore.Proofs.Heap.Soundness
import ScriptCore.Proofs.Json.Paths
import ScriptCore.Proofs.Json.Representing
import ScriptCore.Proofs.Json.RoundTrip
import ScriptCore.Proofs.Json.Sorted
import ScriptCore.Proofs.Json.Texts
import ScriptCore.Proofs.Number.Decimals
import ScriptCore.Proofs.Number.Grammar
import ScriptCore.Proofs.Number.Integers
import ScriptCore.Proofs.Number.Nearest
import ScriptCore.Proofs.Number.Rounding
import ScriptCore.Proofs.Number.Texts
import ScriptCore.Proofs.Number.Words
import ScriptCore.Proofs.Object.Accessors
import ScriptCore.Proofs.Object.BoundedLists
import ScriptCore.Proofs.Object.Chains
import ScriptCore.Proofs.Object.Enumeration
import ScriptCore.Proofs.Object.Instances
import ScriptCore.Proofs.Object.Invocations
import ScriptCore.Proofs.Object.Replacing
import ScriptCore.Proofs.Object.Walks
import ScriptCore.Proofs.Object.Writes
import ScriptCore.Proofs.Scopes.Assignment
import ScriptCore.Proofs.Scopes.Closures
import ScriptCore.Proofs.Scopes.Copies
import ScriptCore.Proofs.Scopes.Environments
import ScriptCore.Proofs.Scopes.Increments
import ScriptCore.Proofs.Scopes.Nesting
import ScriptCore.Proofs.Session.Answering
import ScriptCore.Proofs.Session.Binding
import ScriptCore.Proofs.Session.Books
import ScriptCore.Proofs.Session.Constants
import ScriptCore.Proofs.Session.Copies
import ScriptCore.Proofs.Session.Dispatch
import ScriptCore.Proofs.Session.Invisible
import ScriptCore.Proofs.Session.Leaks
import ScriptCore.Proofs.Session.Payloads
import ScriptCore.Proofs.Session.Persistence
import ScriptCore.Proofs.Session.Prototypes
import ScriptCore.Proofs.Session.Strings
import ScriptCore.Proofs.Session.Subtractions
import ScriptCore.Proofs.Session.Survivors
import ScriptCore.Proofs.Session.TableKeys
import ScriptCore.Proofs.Session.Templates
import ScriptCore.Proofs.Session.Visible
import ScriptCore.Proofs.Text.Units
import ScriptCore.Session.Functions
import ScriptCore.Session.Objects
import ScriptCore.Session.Request
import ScriptCore.Session.Run
import ScriptCore.Session.Snapshot
import ScriptCore.Session.State
import ScriptCore.Session.Store
import ScriptCore.Session.Values
import ScriptCore.Settings
import ScriptCore.Template
import ScriptCore.Text.Blank
import ScriptCore.Text.Printable
import ScriptCore.Text.Quoted
import ScriptCore.Text.Utf16
import ScriptCore.Text.Utf8
import ScriptCore.Value
