import Formula.Error

/-!
# Configuration

Which machine expressions are compiled for, and how.
-/

namespace Formula

/-- The machine that code runs on: the bytecode interpreter, or the processor. -/
inductive Backend where
  | interpreted
  | jit
deriving DecidableEq, Inhabited

namespace Backend

/-- The name in reports. -/
def name : Backend → String
  | interpreted => "interpreted"
  | jit => "jit"

/-- The word in descriptions of a configuration. -/
def text : Backend → String
  | interpreted => "Interpreted"
  | jit => "Jit"

end Backend

/-- When to use the processor. -/
inductive JitMode where
  /-- Never. -/
  | off
  /-- Always; an error where it is not available. -/
  | on
  /-- Where it is available. -/
  | auto
deriving DecidableEq, Inhabited

namespace JitMode

/-- The word in descriptions of a configuration. -/
def text : JitMode → String
  | off => "Off"
  | on => "On"
  | auto => "Auto"

end JitMode

/-- Whether native code can run on this machine. -/
def jitAvailable : Bool := true

/-- How a context compiles. -/
structure RuntimeConfig where
  mode : JitMode
  /-- Whether native code is logged as it is compiled. -/
  traceJit : Bool
  /-- Whether native code goes through the peephole pass. -/
  optimize : Bool
deriving DecidableEq, Inhabited

namespace RuntimeConfig

/-- The configuration where nothing is asked for. -/
def standard : RuntimeConfig :=
  ⟨.auto, false, true⟩

/-- The backend to use where native code is available or not. -/
def backendWhere (available : Bool) (config : RuntimeConfig) : Except ContextError Backend :=
  match config.mode with
  | .off => .ok .interpreted
  | .on => if available then .ok .jit else .error .jitUnavailable
  | .auto => .ok (if available then .jit else .interpreted)

/-- The backend to use on this machine. -/
def backend? (config : RuntimeConfig) : Except ContextError Backend :=
  config.backendWhere jitAvailable

/-- Description. -/
def text (config : RuntimeConfig) : String :=
  "RuntimeConfig \x7b jit_mode: " ++ config.mode.text ++ ", trace_jit: " ++
    toString config.traceJit ++ ", optimize: " ++ toString config.optimize ++ " \x7d"

end RuntimeConfig

end Formula
