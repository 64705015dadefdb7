import SpeckitLog.Lib.Text
import SpeckitLog.LogLevel

/-!
# Log entries and their records

A `LogEntry` holds its tag and its message as views into strings of the caller;
`formatLogEntry` reads them when the entry is written.

What is not part of the program is a parameter: the conversion of seconds to
local time, and how a thread id is printed.
-/

namespace SpeckitLog

/-- The fields of `std::tm` that are used. -/
structure Tm where
  year : ℤ
  mon : ℤ
  mday : ℤ
  hour : ℤ
  min : ℤ
  sec : ℤ

/-- What `formatLogEntry` needs of its platform; `τ` is `ThreadIdType`. -/
structure Platform (τ : Type*) where
  /-- `localtime_r` or `localtime_s`. -/
  localtime : ℤ → Tm
  /-- `std::to_string`, or the output operator of `std::thread::id`. -/
  threadIdStr : τ → Text

/-- `LogEntry`; moving one copies every field. -/
structure LogEntry (τ β : Type*) where
  level : LogLevel
  timestampMs : ℤ
  processId : ℤ
  threadId : τ
  tag : StringView β
  message : StringView β
  deriving DecidableEq

variable {τ β : Type*}

/-- The `timestamp` of `formatLogEntry`: YYYY-MM-DD HH:MM:SS.mmm. -/
def formatTimestamp (localtime : ℤ → Tm) (msSinceEpoch : ℤ) : Text :=
  -- `/` and `%` of C++ round toward zero
  let seconds := msSinceEpoch.tdiv 1000
  let milliseconds := msSinceEpoch.tmod 1000
  let tm := localtime seconds
  Text.padded 4 (tm.year + 1900) ++ '-' :: Text.padded 2 (tm.mon + 1) ++
    '-' :: Text.padded 2 tm.mday ++ ' ' :: Text.padded 2 tm.hour ++
    ':' :: Text.padded 2 tm.min ++ ':' :: Text.padded 2 tm.sec ++
    '.' :: Text.padded 3 milliseconds

/-- The record with the given texts: `[LEVEL] timestamp [PID, TID] [TAG]: Message`. -/
def recordOf (platform : Platform τ) (entry : LogEntry τ β) (tag message : Text) : Text :=
  '[' :: levelToString entry.level ++ "] ".toList ++
    formatTimestamp platform.localtime entry.timestampMs ++ " [".toList ++
    Text.decimal entry.processId ++ ", ".toList ++ platform.threadIdStr entry.threadId ++
    "] [".toList ++ tag ++ "]: ".toList ++ message ++ ['\n']

/-- `formatLogEntry`, on the memory that the views of the entry point into. -/
def formatLogEntry (platform : Platform τ) (memory : β → Text) (entry : LogEntry τ β) :
    Option Text := do
  let tag ← entry.tag.data memory
  let message ← entry.message.data memory
  return recordOf platform entry tag message

theorem recordOf_ne_nil (platform : Platform τ) (entry : LogEntry τ β) (tag message : Text) :
    recordOf platform entry tag message ≠ [] := by
  simp [recordOf]

end SpeckitLog
