import Paving.CommandLine.Session

/-!
# The program

Runs the command line, prints what the run leaves, and exits with its code. The
log goes to standard error.
-/

set_option autoImplicit false

/-- Runs the command line. -/
def main (words : List String) : IO UInt32 := do
  let session := Paving.CommandLine.Session.run words
  let out ← IO.getStdout
  let err ← IO.getStderr
  for record in session.log do
    err.putStrLn record.text
  out.putStr session.stdout
  out.flush
  for line in session.stderr do
    err.putStrLn line
  return UInt32.ofNat session.code
