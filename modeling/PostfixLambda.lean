import PostfixLambda.Arith.Value
import PostfixLambda.Arith.Word
import PostfixLambda.Command.Arguments
import PostfixLambda.Command.FileTree
import PostfixLambda.Command.Flags
import PostfixLambda.Command.Run
import PostfixLambda.Domain
import PostfixLambda.Log.Lines
import PostfixLambda.Log.Logger
import PostfixLambda.Main
import PostfixLambda.Proofs.Arith.Evaluation
import PostfixLambda.Proofs.Arith.Identifiers
import PostfixLambda.Proofs.Arith.Lines
import PostfixLambda.Proofs.Arith.ReadBack
import PostfixLambda.Proofs.Arith.Safety
import PostfixLambda.Proofs.Arith.SpelledOut
import PostfixLambda.Proofs.Arith.Spelling
import PostfixLambda.Proofs.Arith.Words
import PostfixLambda.Proofs.Log.ExitCode
import PostfixLambda.Proofs.Log.Lines
import PostfixLambda.Proofs.Nameless.Basic
import PostfixLambda.Proofs.Nameless.Reduction
import PostfixLambda.Proofs.Nameless.Standardization
import PostfixLambda.Proofs.Nameless.Translation
import PostfixLambda.Proofs.Recovery.Interleavings
import PostfixLambda.Proofs.Reduction.CaptureOnly
import PostfixLambda.Proofs.Reduction.FirstRedex
import PostfixLambda.Proofs.Reduction.FreeNames
import PostfixLambda.Proofs.Reduction.LastSetting
import PostfixLambda.Proofs.Reduction.NormalOrder
import PostfixLambda.Proofs.Reduction.Refinement
import PostfixLambda.Proofs.Reduction.Rounds
import PostfixLambda.Proofs.Reduction.Search
import PostfixLambda.Proofs.Reduction.Settings
import PostfixLambda.Proofs.Reduction.Simulation
import PostfixLambda.Proofs.Reduction.StepLimit
import PostfixLambda.Proofs.Reduction.Trace
import PostfixLambda.Proofs.Reduction.Vocabulary
import PostfixLambda.Proofs.Session.Definitions
import PostfixLambda.Proofs.Session.Isolation
import PostfixLambda.Proofs.Session.Outcomes
import PostfixLambda.Proofs.Session.Programs
import PostfixLambda.Proofs.Session.Prompts
import PostfixLambda.Proofs.Stream.Leaves
import PostfixLambda.Proofs.Stream.Lexical
import PostfixLambda.Proofs.Stream.Origins
import PostfixLambda.Proofs.Stream.Scanning
import PostfixLambda.Proofs.Stream.Tee
import PostfixLambda.Proofs.Stream.Words
import PostfixLambda.Proofs.Substitution.Capture
import PostfixLambda.Proofs.Substitution.CaptureAvoiding
import PostfixLambda.Proofs.Substitution.Emission
import PostfixLambda.Proofs.Substitution.FreshNames
import PostfixLambda.Proofs.Substitution.FullSearch
import PostfixLambda.Proofs.Substitution.OneByOne
import PostfixLambda.Proofs.Substitution.Primes
import PostfixLambda.Proofs.Substitution.Rebuild
import PostfixLambda.Proofs.Substitution.Refusal
import PostfixLambda.Proofs.Substitution.Renamer
import PostfixLambda.Proofs.Substitution.Replacement
import PostfixLambda.Proofs.Substitution.Vocabulary
import PostfixLambda.Proofs.Term.FreeOccurrences
import PostfixLambda.Proofs.Term.Names
import PostfixLambda.Proofs.Term.Prefixes
import PostfixLambda.Proofs.Term.RoundTrip
import PostfixLambda.Proofs.Term.Vocabulary
import PostfixLambda.Proofs.Term.Whole
import PostfixLambda.Proofs.Text.Fields
import PostfixLambda.Proofs.Text.Integer
import PostfixLambda.Proofs.Text.Parts
import PostfixLambda.Proofs.Text.Projection
import PostfixLambda.Proofs.Text.Terminal
import PostfixLambda.Proofs.Wrapper.Forwarding
import PostfixLambda.Proofs.Wrapper.Parameters
import PostfixLambda.Proofs.Wrapper.Reading
import PostfixLambda.Recovery
import PostfixLambda.Recovery.Threads
import PostfixLambda.Reduction.Contract
import PostfixLambda.Reduction.Reducer
import PostfixLambda.Reduction.Settings
import PostfixLambda.Reduction.Step
import PostfixLambda.Session.Basic
import PostfixLambda.Session.Prompt
import PostfixLambda.Stream.Input
import PostfixLambda.Stream.Output
import PostfixLambda.Stream.Sink
import PostfixLambda.Stream.Source
import PostfixLambda.Substitution.Basic
import PostfixLambda.Substitution.Env
import PostfixLambda.Substitution.Renamer
import PostfixLambda.Substitution.Walk
import PostfixLambda.Term.Basic
import PostfixLambda.Term.Names
import PostfixLambda.Term.Parser
import PostfixLambda.Term.Token
import PostfixLambda.Text.Blank
import PostfixLambda.Text.Bytes
import PostfixLambda.Text.Collected
import PostfixLambda.Text.Control
import PostfixLambda.Text.Duration
import PostfixLambda.Text.Integer
import PostfixLambda.Text.Printable
import PostfixLambda.Text.Quoted
import PostfixLambda.Text.Template
import PostfixLambda.Text.Terminal
import PostfixLambda.Text.Utf8
import PostfixLambda.Wrapper.Builder
import PostfixLambda.Wrapper.Run
