import Paving.CommandLine.Arguments
import Paving.Search.Log

/-!
# A run of the command line

What a command line leads to: an exit code, the text on standard output, the
lines on standard error, and the log. A run that solves a problem prints the box
it starts from, the report of the solution, the number of events of each kind,
and whether a candidate was found.
-/

set_option autoImplicit false

namespace Paving

namespace CommandLine

/-- What a run leaves. -/
structure Session where
  code : Nat
  stdout : String
  stderr : List String
  log : List LogRecord

namespace Session

/-- A run that ends with a failure after some output. -/
def failed (stdout detail : String) (log : List LogRecord) : Session :=
  ⟨1, stdout, ["Error: " ++ detail], log⟩

/-- The record of the start of a run. -/
def startRecord (scenario : Scenario) (c : Config) : LogRecord where
  level := .info
  target := "braid"
  message := "solving"
  fields := [("scenario", scenario.logName), ("eps", c.eps.text .explicit)]

/-- The text of a list of lines. -/
def lines (texts : List String) : String :=
  String.join (texts.map (· ++ "\n"))

/-- Solves a problem and reports the solution. -/
def solve (scenario : Scenario) (c : Config) (p : Precision) : Session :=
  let initial := Scenario.initialBox
  let problem := Problem.ofConditions scenario.conditions
  let outcome := problem.search initial c Stats.observer Stats.zero
  let log := startRecord scenario c :: outcome.log problem initial c true
  let opening := "Initial box: " ++ initial.text p
  match outcome.result with
  | .error e => failed (lines [opening]) e.detail log
  | .ok solution =>
    let stats := outcome.observer
    let counts :=
      s!"Pruned {stats.pruned}, accepted {stats.accepted}, bisected {stats.bisected}"
    ⟨0, lines [opening, solution.report p, counts, s!"Found = {solution.found}"], [], log⟩

/-- Carries out what the arguments ask for. The settings are checked before the
precision, and a precision beyond what can be displayed ends the run at the first
bound. -/
def carryOut (a : Arguments) : Session :=
  match a.config with
  | .error e => failed "" e.detail []
  | .ok c =>
    match a.precision with
    | .error e => failed "" e.detail []
    | .ok p =>
      if Scenario.initialBox.displayable p then
        let session := solve a.choice c p
        { session with log := LogRecord.keep a.logLevel session.log }
      else ⟨101, "Initial box: ([", [], []⟩

/-- The text of a request for help. -/
def help : String :=
  lines
    ["Find the solutions of a two-circle problem by interval branch-and-prune.",
      "",
      "Usage: braid [OPTIONS]",
      "",
      "Options:",
      "  -s, --scenario <intersecting|tangent|none>  Problem to solve",
      "      --eps <EPS>                             Width of an accepted box",
      "      --capacity <N>                          Number of candidates to keep",
      "      --overflow <stop|grow>                  What to do with more candidates",
      "      --order <lower|upper>                   Half to explore first",
      "      --contract                              Narrow boxes before bisecting",
      "      --max-branchings <N>                    Greatest number of boxes to visit",
      "      --min-digits <N>                        Least number of fraction digits",
      "      --max-digits <N>                        Greatest number of fraction digits",
      "  -v, --verbose...                            More detail in the log",
      "  -h, --help                                  Print help",
      "  -V, --version                               Print version"]

/-- The run for a list of arguments. -/
def run (words : List String) : Session :=
  match Arguments.read words with
  | .ok a => carryOut a
  | .error .usage => ⟨2, "", ["error: invalid arguments; try --help"], []⟩
  | .error .help => ⟨0, help, [], []⟩
  | .error .version => ⟨0, lines ["braid 0.1.0"], [], []⟩

end Session

end CommandLine

end Paving
