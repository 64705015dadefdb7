import Mathlib.Tactic.Common

/-!
# Log levels

The severity levels, the threshold test and the names that records carry.
-/

namespace SpeckitLog

/-- `LogLevel`, an enumeration over `int8_t`: a cast makes a level of any value,
and the four below have names. -/
structure LogLevel where
  value : Int8
  deriving DecidableEq

namespace LogLevel

def debug : LogLevel := ⟨0⟩
def info : LogLevel := ⟨1⟩
def warning : LogLevel := ⟨2⟩
def error : LogLevel := ⟨3⟩

end LogLevel

/-- `shouldLog`: the level reaches the minimum. -/
def shouldLog (level minimum : LogLevel) : Bool := decide (minimum.value ≤ level.value)

/-- `levelToString`. -/
def levelToString (level : LogLevel) : List Char :=
  if level = .debug then "DEBUG".toList
  else if level = .info then "INFO".toList
  else if level = .warning then "WARNING".toList
  else if level = .error then "ERROR".toList
  else "UNKNOWN".toList

end SpeckitLog
