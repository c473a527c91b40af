/-!
The settings of an engine.
-/

namespace ScriptEngine

structure Options where
  strict : Bool := false
  maxRecursionDepth : Option Nat := some 512
  maxNativeStack : Option Nat := some (1024 * 1024)
  debugNames : Bool := true

end ScriptEngine
