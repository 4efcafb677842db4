import Formula.Signature

/-!
# Built-in functions

The functions that every context starts with, as pure functions of their arguments. The processor
clock is the exception: what it reads is up to the host.
-/

namespace Formula

/-- The built-in functions, in order of registration. -/
inductive Builtin where
  | round
  | max
  | min
  | step
  | mix
  | lerp
  | select
  | clock
  | clamp
  | log
  | exp
  | log10
  | exp10
  | sin
  | cos
  | asin
  | acos
  | tan
  | tanh
  | atan
  | atanh
  | fabs
  | sqrt
  | atan2
  | pow
deriving DecidableEq, Inhabited

namespace Builtin

/-- All of them, in order of registration. -/
def all : List Builtin :=
  [round, max, min, step, mix, lerp, select, clock, clamp, log, exp, log10, exp10, sin, cos, asin,
    acos, tan, tanh, atan, atanh, fabs, sqrt, atan2, pow]

/-- The name in expressions. -/
def name : Builtin → String
  | round => "round"
  | max => "max"
  | min => "min"
  | step => "step"
  | mix => "mix"
  | lerp => "lerp"
  | select => "select"
  | clock => "clock"
  | clamp => "clamp"
  | log => "log"
  | exp => "exp"
  | log10 => "log10"
  | exp10 => "exp10"
  | sin => "sin"
  | cos => "cos"
  | asin => "asin"
  | acos => "acos"
  | tan => "tan"
  | tanh => "tanh"
  | atan => "atan"
  | atanh => "atanh"
  | fabs => "fabs"
  | sqrt => "sqrt"
  | atan2 => "atan2"
  | pow => "pow"

/-- Number of parameters. -/
def arity : Builtin → Nat
  | clock => 0
  | max | min | step | atan2 | pow => 2
  | mix | lerp | select | clamp => 3
  | _ => 1

/-- Name and number of parameters. -/
def signature (b : Builtin) : Signature :=
  ⟨b.name, b.arity⟩

/-- A value without its fraction; zero keeps the sign. -/
def truncate (x : Float) : Float :=
  if x < 0 then x.ceil else x.floor

/-- Quiet NaN. -/
def nan : Float := 0.0 / 0.0

/-- Logarithm of `1 + x`, precise where `x` is small: the error of the sum is taken out again. -/
def logOnePlus (x : Float) : Float :=
  let sum := 1 + x
  let rounded := sum - 1
  if sum == 1 then x else if rounded == x then sum.log else sum.log * (x / rounded)

/-- Inverse of the hyperbolic tangent. -/
def atanhOf (x : Float) : Float :=
  0.5 * logOnePlus (2 * x / (1 - x))

/-- The value for a list of arguments. A list of the wrong length, and the clock, have none. -/
def apply : Builtin → List Float → Float
  | round, [x] => truncate (x + 0.5)
  | max, [x, y] => if x > y then x else y
  | min, [x, y] => if x < y then x else y
  | step, [edge, x] => if x < edge then 0 else 1
  | mix, [x, y, t] => x * (1 - t) + y * t
  | lerp, [x, y, t] => x * (1 - t) + y * t
  | select, [x, y, t] => if t == 0 then x else y
  | clamp, [x, low, high] => if x > high then high else if x < low then low else x
  | log, [x] => x.log
  | exp, [x] => x.exp
  | log10, [x] => x.log10
  | exp10, [x] => Float.pow 10 x
  | sin, [x] => x.sin
  | cos, [x] => x.cos
  | asin, [x] => x.asin
  | acos, [x] => x.acos
  | tan, [x] => x.tan
  | tanh, [x] => x.tanh
  | atan, [x] => x.atan
  | atanh, [x] => atanhOf x
  | fabs, [x] => x.abs
  | sqrt, [x] => x.sqrt
  | atan2, [x, y] => x.atan2 y
  | pow, [x, y] => x.pow y
  | _, _ => nan

end Builtin

end Formula
