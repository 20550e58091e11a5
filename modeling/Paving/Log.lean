/-!
# Log records

A log record has a level, the part of the program it comes from, a message, and
named fields. Levels are ordered by severity; a log kept at some level holds the
records of that level and the more severe ones.
-/

set_option autoImplicit false

namespace Paving

/-- How much detail a record belongs to. -/
inductive LogLevel where
  | info
  | debug
  | trace
deriving DecidableEq

namespace LogLevel

/-- The amount of detail, the most severe level first. -/
def detail : LogLevel → Nat
  | info => 0
  | debug => 1
  | trace => 2

/-- The name of a level in a record. -/
def name : LogLevel → String
  | info => "INFO"
  | debug => "DEBUG"
  | trace => "TRACE"

/-- The level for a number of requests for more detail. -/
def ofVerbosity : Nat → LogLevel
  | 0 => info
  | 1 => debug
  | _ => trace

end LogLevel

/-- A log record. -/
structure LogRecord where
  level : LogLevel
  /-- The part of the program that the record comes from. -/
  target : String
  message : String
  fields : List (String × String)
deriving DecidableEq

namespace LogRecord

/-- The record as a line of text. -/
def text (r : LogRecord) : String :=
  r.fields.foldl (fun line (name, value) => s!"{line} {name}={value}")
    s!"{r.level.name} {r.target}: {r.message}"

/-- The records that a log kept at a level holds. -/
def keep (level : LogLevel) (records : List LogRecord) : List LogRecord :=
  records.filter fun r => decide (r.level.detail ≤ level.detail)

end LogRecord

end Paving
