import Paving.Decimal.Reading
import Paving.Demo
import Paving.Display
import Paving.Log
import Paving.Search.Config

/-!
# Arguments of the command line

Arguments are read from left to right. An option with a value takes it from its
own word, after `=` or, for a one-letter option, directly, or else from the next
word, which then must not begin with `-`. One-letter options can share a word.
Every option is given at most once, apart from the request for more detail. The
first word that breaks a rule ends the reading, and so does a request for the
version or for help.
-/

set_option autoImplicit false

namespace Paving

namespace CommandLine

/-! ## Options -/

/-- The options that take a value. -/
inductive Setting where
  | scenario
  | eps
  | capacity
  | overflow
  | order
  | maxBranchings
  | minDigits
  | maxDigits
deriving DecidableEq

/-- The options without a value. -/
inductive Flag where
  | contract
  | verbose
  | help
  | version
deriving DecidableEq

/-- An option. -/
inductive Opt where
  | setting (s : Setting)
  | flag (f : Flag)

/-- The option with a long name. -/
def Opt.long? : String → Option Opt
  | "scenario" => some (.setting .scenario)
  | "eps" => some (.setting .eps)
  | "capacity" => some (.setting .capacity)
  | "overflow" => some (.setting .overflow)
  | "order" => some (.setting .order)
  | "max-branchings" => some (.setting .maxBranchings)
  | "min-digits" => some (.setting .minDigits)
  | "max-digits" => some (.setting .maxDigits)
  | "contract" => some (.flag .contract)
  | "verbose" => some (.flag .verbose)
  | "help" => some (.flag .help)
  | "version" => some (.flag .version)
  | _ => none

/-- The option with a one-letter name. -/
def Opt.short? : Char → Option Opt
  | 's' => some (.setting .scenario)
  | 'v' => some (.flag .verbose)
  | 'h' => some (.flag .help)
  | 'V' => some (.flag .version)
  | _ => none

/-! ## Values -/

/-- The problem with a name. -/
def scenario? (text : String) : Option Scenario :=
  Scenario.all.find? (·.argument == text)

/-- What to do with too many candidates. -/
def overflow? : String → Option Overflow
  | "stop" => some .stop
  | "grow" => some .grow
  | _ => none

/-- Which half comes first. -/
def order? : String → Option HalfOrder
  | "lower" => some .lowerFirst
  | "upper" => some .upperFirst
  | _ => none

/-- What the arguments say; an option that was not given is `none`. -/
structure Arguments where
  scenario : Option Scenario
  eps : Option Binary64
  capacity : Option Nat
  overflow : Option Overflow
  order : Option HalfOrder
  maxBranchings : Option Nat
  minDigits : Option Nat
  maxDigits : Option Nat
  contract : Bool
  /-- How often more detail was asked for. -/
  verbosity : Nat

/-- No arguments. -/
def Arguments.blank : Arguments where
  scenario := none
  eps := none
  capacity := none
  overflow := none
  order := none
  maxBranchings := none
  minDigits := none
  maxDigits := none
  contract := false
  verbosity := 0

/-- Why reading ended before the last argument. -/
inductive Stop where
  | usage
  | help
  | version
deriving DecidableEq

/-- A value given for the first time. -/
def once {α : Type} (before given : Option α) : Except Stop (Option α) :=
  match before, given with
  | none, some value => .ok (some value)
  | _, _ => .error .usage

namespace Arguments

/-- Gives an option its value. -/
def set (a : Arguments) (text : String) : Setting → Except Stop Arguments
  | .scenario => do return { a with scenario := ← once a.scenario (scenario? text) }
  | .eps => do return { a with eps := ← once a.eps (Reading.binary64? text) }
  | .capacity => do return { a with capacity := ← once a.capacity (Reading.count? text) }
  | .overflow => do return { a with overflow := ← once a.overflow (overflow? text) }
  | .order => do return { a with order := ← once a.order (order? text) }
  | .maxBranchings => do
    return { a with maxBranchings := ← once a.maxBranchings (Reading.count? text) }
  | .minDigits => do return { a with minDigits := ← once a.minDigits (Reading.count? text) }
  | .maxDigits => do return { a with maxDigits := ← once a.maxDigits (Reading.count? text) }

/-- Raises an option without a value. -/
def raise (a : Arguments) : Flag → Except Stop Arguments
  | .contract => if a.contract then .error .usage else .ok { a with contract := true }
  | .verbose => .ok { a with verbosity := a.verbosity + 1 }
  | .help => .error .help
  | .version => .error .version

end Arguments

/-! ## Reading words -/

/-- The reading of a command line so far. -/
structure Reader where
  arguments : Arguments
  /-- The option whose value is the next word. -/
  awaiting : Option Setting
  /-- After a bare `--` no option can follow. -/
  closed : Bool

namespace Reader

/-- Reads a long option without its dashes. -/
def long (r : Reader) (word : List Char) : Except Stop Reader :=
  let name := String.ofList (word.takeWhile (· != '='))
  match Opt.long? name, word.dropWhile (· != '=') with
  | some (.setting s), [] => .ok { r with awaiting := some s }
  | some (.setting s), _ :: value => do
    return { r with arguments := ← r.arguments.set (String.ofList value) s }
  | some (.flag f), [] => do return { r with arguments := ← r.arguments.raise f }
  | some (.flag _), _ :: _ => .error .usage
  | none, _ => .error .usage

/-- Reads the one-letter options of a word without its dash. An option with a
value takes the rest of the word. -/
def cluster (r : Reader) : List Char → Except Stop Reader
  | [] => .ok r
  | c :: rest =>
    match Opt.short? c with
    | some (.flag f) => do
      let arguments ← r.arguments.raise f
      cluster { r with arguments := arguments } rest
    | some (.setting s) =>
      match rest with
      | [] => .ok { r with awaiting := some s }
      | '=' :: value => do
        return { r with arguments := ← r.arguments.set (String.ofList value) s }
      | value => do
        return { r with arguments := ← r.arguments.set (String.ofList value) s }
    | none => .error .usage

/-- Reads a word where an option may stand. -/
def option (r : Reader) : List Char → Except Stop Reader
  | ['-', '-'] => .ok { r with closed := true }
  | '-' :: '-' :: word => r.long word
  | '-' :: c :: word => r.cluster (c :: word)
  | _ => .error .usage

/-- Reads a word. -/
def word (r : Reader) (text : String) : Except Stop Reader :=
  if r.closed then .error .usage
  else
    match r.awaiting with
    | none => r.option text.toList
    | some s =>
      if text.toList.head? = some '-' then .error .usage
      else do
        return { r with arguments := ← r.arguments.set text s, awaiting := none }

end Reader

/-- Reads a command line. An option that still awaits its value at the end breaks
the rules. -/
def Arguments.read (words : List String) : Except Stop Arguments := do
  let reader ← words.foldlM Reader.word ⟨Arguments.blank, none, false⟩
  match reader.awaiting with
  | some _ => .error .usage
  | none => return reader.arguments

/-! ## What the arguments ask for -/

namespace Arguments

/-- The problem to solve. -/
def choice (a : Arguments) : Scenario :=
  a.scenario.getD .intersecting

/-- The settings of the search. -/
def config (a : Arguments) : Except ConfigError Config := do
  let c ← Config.ofEps (a.eps.getD Config.standardTolerance)
  let c ← c.withCapacity (a.capacity.getD 1000)
  return { c with
    overflow := a.overflow.getD .stop
    order := a.order.getD .lowerFirst
    maxBranchings := a.maxBranchings
    pruning := if a.contract then .contract else .evaluate }

/-- The precision of the report. -/
def precision (a : Arguments) : Except PrecisionError Precision :=
  Precision.of (a.minDigits.getD 2) (a.maxDigits.getD 4)

/-- The level of the log. -/
def logLevel (a : Arguments) : LogLevel :=
  .ofVerbosity a.verbosity

end Arguments

end CommandLine

end Paving
