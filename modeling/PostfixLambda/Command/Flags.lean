import PostfixLambda.Command.Arguments
import PostfixLambda.Session.Basic
import PostfixLambda.Text.Duration

/-! The flags of the command. -/

namespace PostfixLambda.Command

/-- What the command was asked to do. -/
structure Flags where
  timeout : Int := 0
  trace : Bool := false
  maxSteps : Int64 := 0
  delta : Bool := false
  rename : Bool := false
  tokens : Bool := false
  tee : Bytes := []
  interactive : Bool := false
  deriving DecidableEq, Repr

/-- How the command is used. -/
def usage : Bytes := Bytes.ofString (String.join [
  "Usage of lambdapost:\n",
  "  -delta\n    \treduce applications of constants with their arithmetic\n",
  "  -i\tread programs interactively, line by line\n",
  "  -max-steps int\n    \tlimit the reduction steps of each program\n",
  "  -rename\n    \talpha-rename binders rather than fail on variable capture\n",
  "  -tee string\n    \talso write results into the named file\n",
  "  -timeout duration\n    \tspecify a time limit for each program\n",
  "  -tokens\n    \tprint results as postfix words rather than lambda notation\n",
  "  -trace\n    \tenable trace logging of every reduction step\n"])

/-- The flags by name. -/
def flagNamed? (name : Bytes) : Option (Flag Flags) :=
  if name = "delta" then some (.switch fun f b => { f with delta := b })
  else if name = "i" then some (.switch fun f b => { f with interactive := b })
  else if name = "rename" then some (.switch fun f b => { f with rename := b })
  else if name = "tokens" then some (.switch fun f b => { f with tokens := b })
  else if name = "trace" then some (.switch fun f b => { f with trace := b })
  else if name = "max-steps" then
    some (.valued fun f value => (Text.readLiteral value).map fun n => { f with maxSteps := n })
  else if name = "tee" then some (.valued fun f value => .ok { f with tee := value })
  else if name = "timeout" then
    some (.valued fun f value =>
      match Text.readDuration? value with
      | some n => .ok { f with timeout := n }
      | none => .error .malformed)
  else none

/-- The options of the session that the flags ask for. -/
def Flags.sessionOptions (f : Flags) : SessionOptions where
  delta := f.delta
  renames := f.rename
  tokens := f.tokens
  showStacks := f.trace
  trace := f.trace
  maxSteps := f.maxSteps.toInt
  timeout := f.timeout

end PostfixLambda.Command
