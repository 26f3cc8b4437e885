/-!
Whether a type is stored inline. A write through a field changes the struct only when the storage
of the field is inline, so every written type is put into one of three categories; what is not
known counts as inline.
-/
namespace ReadonlyLint

/-- Where the storage of a type lives. -/
inductive TypeCategory where
  | value
  | reference
  | unknown
  deriving DecidableEq, Inhabited

namespace TypeCategory

/-- Whether a write through storage of this type can land in the struct. -/
def mayBeInline (c : TypeCategory) : Bool := c ≠ .reference

/-- What is known of a name that is declared with both categories. -/
def join (a b : TypeCategory) : TypeCategory := if a = b then a else .unknown

def label : TypeCategory → String
  | .value => "value"
  | .reference => "reference"
  | .unknown => "unknown"

/-- Names of the framework that stand for reference types. -/
def wellKnownReferences : List String :=
  ["String", "Object", "Array", "List", "IList", "IEnumerable", "ICollection", "IReadOnlyList",
   "IReadOnlyCollection", "IDictionary", "IReadOnlyDictionary", "Dictionary", "HashSet", "ISet",
   "Queue", "Stack", "LinkedList", "SortedDictionary", "SortedList", "SortedSet",
   "ConcurrentDictionary", "ConcurrentQueue", "ConcurrentBag", "StringBuilder", "Task", "Func",
   "Action", "Predicate", "EventHandler", "Delegate", "Exception", "Type", "Stream",
   "TextWriter", "TextReader", "Lazy", "WeakReference", "Uri", "Regex", "Thread",
   "SemaphoreSlim", "CancellationTokenSource", "IComparer", "IEqualityComparer"]

/-- Names of the framework that stand for value types. -/
def wellKnownValues : List String :=
  ["Boolean", "Byte", "SByte", "Char", "Int16", "UInt16", "Int32", "UInt32", "Int64", "UInt64",
   "IntPtr", "UIntPtr", "Single", "Double", "Decimal", "Half", "Int128", "UInt128", "Span",
   "ReadOnlySpan", "Memory", "ReadOnlyMemory", "DateTime", "DateTimeOffset", "DateOnly",
   "TimeOnly", "TimeSpan", "Guid", "Nullable", "ValueTuple", "ValueTask", "KeyValuePair",
   "ImmutableArray", "CancellationToken", "ArraySegment", "Vector2", "Vector3", "Vector4",
   "Index", "Range"]

/-- The category of a name that no declaration in sight gives. -/
def ofWellKnown (name : String) : TypeCategory :=
  if name ∈ wellKnownReferences then .reference
  else if name ∈ wellKnownValues then .value
  else .unknown

end TypeCategory

end ReadonlyLint
