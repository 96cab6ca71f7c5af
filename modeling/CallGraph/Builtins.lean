/-!
# Builtin names

Two sorted tables of names that are defined without an import: those never shown as call targets
(`Builtins.ignoredTable`), and the other functions (`Builtins.otherTable`).  Membership is decided
by halving the table.
-/

namespace CallGraph.Builtins

/-- The module that builtin names belong to. -/
def moduleName : String := "builtins"

/-- The names never worth showing as call targets, in order. -/
def ignoredTable : Array String := #[
  "ArithmeticError", "AssertionError", "AttributeError", "BaseException", "BlockingIOError",
  "BrokenPipeError", "BufferError", "BytesWarning", "ChildProcessError", "ConnectionAbortedError",
  "ConnectionError", "ConnectionRefusedError", "ConnectionResetError", "DeprecationWarning", "EOFError",
  "Ellipsis", "EnvironmentError", "Exception", "False", "FileExistsError", "FileNotFoundError",
  "FloatingPointError", "FutureWarning", "GeneratorExit", "IOError", "ImportError", "ImportWarning",
  "IndentationError", "IndexError", "InterruptedError", "IsADirectoryError", "KeyError",
  "KeyboardInterrupt", "LookupError", "MemoryError", "NameError", "None", "NotADirectoryError",
  "NotImplemented", "NotImplementedError", "OSError", "OverflowError", "PendingDeprecationWarning",
  "PermissionError", "ProcessLookupError", "RecursionError", "ReferenceError", "ResourceWarning",
  "RuntimeError", "RuntimeWarning", "StopAsyncIteration", "StopIteration", "SyntaxError", "SyntaxWarning",
  "SystemError", "SystemExit", "TabError", "TimeoutError", "True", "TypeError", "UnboundLocalError",
  "UnicodeDecodeError", "UnicodeEncodeError", "UnicodeError", "UnicodeTranslateError", "UnicodeWarning",
  "UserWarning", "ValueError", "Warning", "ZeroDivisionError", "__IPYTHON__", "__build_class__",
  "__debug__", "__doc__", "__import__", "__loader__", "__name__", "__package__", "__spec__", "abs", "all",
  "any", "ascii", "bin", "bool", "callable", "chr", "classmethod", "complex", "copyright", "credits",
  "dict", "dir", "enumerate", "filter", "float", "frozenset", "hash", "help", "hex", "id", "input", "int",
  "isinstance", "issubclass", "iter", "len", "license", "list", "map", "max", "min", "next", "object",
  "oct", "ord", "pow", "print", "property", "range", "repr", "reversed", "round", "set", "setattr",
  "slice", "sorted", "staticmethod", "str", "sum", "super", "tuple", "type", "zip"
]

/-- The builtin functions that are not in the other table, in order. -/
def otherTable : Array String := #[
  "aiter", "anext", "breakpoint", "bytearray", "bytes", "compile", "delattr", "divmod", "eval", "exec",
  "exit", "format", "getattr", "globals", "hasattr", "locals", "memoryview", "open", "quit", "vars"
]

/-- Looks for a name between two positions of a sorted table, at most `fuel` halvings long. -/
def searchBetween (table : Array String) (name : String) : Nat → Nat → Nat → Bool
  | 0, _, _ => false
  | fuel + 1, low, high =>
    if low < high then
      let middle := (low + high) / 2
      match table[middle]? with
      | none => false
      | some entry =>
        if entry = name then true
        else if entry < name then searchBetween table name fuel (middle + 1) high
        else searchBetween table name fuel low middle
    else false

/-- Whether a name occurs in a sorted table. -/
def search (table : Array String) (name : String) : Bool :=
  searchBetween table name (table.size + 1) 0 table.size

/-- Whether a name of a module is never shown as a call target. -/
def isIgnored (module name : String) : Bool :=
  module == moduleName && search ignoredTable name

/-- Whether a name is defined without an import. -/
def isBuiltin (name : String) : Bool :=
  isIgnored moduleName name || search otherTable name

end CallGraph.Builtins
