import PostfixLambda.Recovery
import PostfixLambda.Reduction.Settings

/-! The reducer: it takes normal-order steps until there is no redex left, the step limit is reached, or the run is
    interrupted, and it traces what it does. -/

namespace PostfixLambda

/-- Why a run is interrupted from outside. -/
inductive Interruption where
  | canceled
  | deadlineExceeded
  deriving DecidableEq, Repr

/-- The text of an interruption. -/
def Interruption.message : Interruption → Bytes
  | canceled => "context canceled"
  | deadlineExceeded => "context deadline exceeded"

/-- The outside of a run: whether it is interrupted, once the run has logged so many lines and taken so many steps. -/
abbrev Context := (logged steps : Nat) → Option Interruption

/-- A context that never interrupts. -/
def Context.background : Context := fun _ _ => none

/-- A context that was interrupted before the run. -/
def Context.interrupted (i : Interruption) : Context := fun _ _ => some i

/-- A context that is canceled while the `n`-th line is logged. -/
def Context.cancelAt (n : Nat) : Context := fun logged _ => if n ≤ logged then some .canceled else none

/-- A context whose time is over once the run has taken so many steps, or else not during the run. -/
def Context.deadline : Option Nat → Context
  | some n => fun _ steps => if n ≤ steps then some .deadlineExceeded else none
  | none => .background

/-- Why a run ends without a normal form. -/
inductive HaltCause (V S F : Type) where
  | reduce (e : ReduceError V S F)
  | stepLimit (steps : Nat)
  | interrupted (i : Interruption)
  deriving DecidableEq, Repr

/-- The text of a cause. -/
def HaltCause.message {V S F : Type} [Domain V F] [Shown S] : HaltCause V S F → Bytes
  | reduce e => e.message
  | stepLimit steps => "step limit exceeded after " ++ Text.natural steps ++ " steps"
  | interrupted i => i.message

/-- The error of a run: a cause, or a panic recovered. -/
abbrev Halt (V S F : Type) := Fault (HaltCause V S F)

/-- The text of a run's error. -/
def Halt.message {V S F : Type} [Domain V F] [Shown S] (h : Halt V S F) : Bytes := Fault.message HaltCause.message h

/-- A reducer: how it contracts, its step limit (zero for none), the level at which it traces, without which it has no
    log function, and the steps of its last run. -/
structure Reducer (S : Type) where
  strategy : Strategy S
  maxSteps : Nat
  logLevel? : Option Bytes
  steps : Nat := 0

namespace Reducer

variable {V S F : Type}

/-- The reducer of a configuration. A renamer of other symbols is ignored. -/
def ofConfiguration (config : Configuration S) : Reducer S where
  strategy :=
    { delta := config.delta
      rename? := match config.renamer with
        | .own rename? => rename?
        | .absent | .foreign _ => none }
  maxSteps := config.maxSteps
  logLevel? := config.logLevel?

/-- What making a reducer of a configuration logs, to a log function that takes it: that a renamer of other symbols is
    ignored. -/
def startLog (config : Configuration S) : List Bytes :=
  match config.renamer, config.logLevel? with
  | .foreign symbolType, some _ => ["ignoring renamer lambda.Renamer[" ++ symbolType ++ "]"]
  | _, _ => []

/-- The reducer of a list of settings, and what making it logs. -/
def ofSettings (settings : List (Settings S)) : Reducer S × List Bytes :=
  let config := Settings.configuration settings
  (ofConfiguration config, startLog config)

/-- A line, if the reducer traces. -/
def logged (red : Reducer S) (line : Unit → Bytes) : List Bytes :=
  match red.logLevel? with
  | some _ => [line ()]
  | none => []

/-- Logs a line: the lines that the log function takes, or the message with which it breaks down. -/
def say (red : Reducer S) (log : LogFunction) (line : Unit → Bytes) : Except Bytes (List Bytes) :=
  match (red.logged line).findSome? log with
  | some message => .error message
  | none => .ok (red.logged line)

/-- A log function that takes every line stops nothing. -/
theorem say_sound (red : Reducer S) (line : Unit → Bytes) : red.say .sound line = .ok (red.logged line) := by
  unfold say logged
  cases red.logLevel? <;> rfl

/-- The trace of a step: its number, rule, redex and reduct. -/
def stepLine [Shown V] [Shown S] (number : Nat) (c : Contraction V S) : Bytes :=
  "#" ++ Text.natural number ++ " " ++ Shown.text c.rule ++ " " ++ Shown.text c.redex ++ " -> " ++ Shown.text c.reduct

/-- The outcome of a single step: the term after it and whether there was a redex, or an error; with the lines logged
    and the calls of the renamer. -/
structure Stepped (V S F : Type) where
  result : Except (Stop (ReduceError V S F)) (Term V S × Bool)
  log : List Bytes
  asked : List (Call S)

/-- One step, numbered after the steps of the last run. It is logged as soon as the redex is contracted, and a log
    function that breaks down over its line takes the step with it. -/
def step [DecidableEq S] [Domain V F] [Shown S] (red : Reducer S) (e : Term V S) (host : Host V := .sound) :
    Stepped V S F :=
  let attempt := e.step red.strategy host.dup
  match attempt.result with
  | .ok none => ⟨.ok (e, false), [], attempt.asked⟩
  | .ok (some c) =>
    match red.say host.log fun _ => stepLine (red.steps + 1) c with
    | .ok new => ⟨.ok (c.whole, true), new, attempt.asked⟩
    | .error message => ⟨.error (.panic message), [], attempt.asked⟩
  | .error stop => ⟨.error stop, [], attempt.asked⟩

/-- A step of a host that never breaks down. -/
theorem step_sound [DecidableEq S] [Domain V F] [Shown S] (red : Reducer S) (e : Term V S) :
    red.step (F := F) e =
      let attempt := e.step red.strategy
      match attempt.result with
      | .ok none => ⟨.ok (e, false), [], attempt.asked⟩
      | .ok (some c) => ⟨.ok (c.whole, true), red.logged fun _ => stepLine (red.steps + 1) c, attempt.asked⟩
      | .error stop => ⟨.error stop, [], attempt.asked⟩ := by
  simp only [step, say_sound]

/-- What is handed to who asks for a single step: a term, whether it is a step further, and the error of a step that
    failed. -/
structure Answer (V S F : Type) where
  term : Term V S
  further : Bool
  error? : Option (ReduceError V S F)
  deriving DecidableEq, Repr

/-- The answer to who asks for a step from `e`: without a step that is `e` itself. A panic goes through, and all there
    is then is its message. -/
def answer [DecidableEq S] [Domain V F] [Shown S] (red : Reducer S) (e : Term V S) (host : Host V := .sound) :
    Except Bytes (Answer V S F) :=
  match (red.step e host).result with
  | .ok (e', further) => .ok ⟨e', further, none⟩
  | .error (.error error) => .ok ⟨e, false, some error⟩
  | .error (.panic message) => .error message

/-- The outcome of a run: a normal form or an error, the steps taken, the lines logged and the calls of the
    renamer. -/
structure Run (V S F : Type) where
  result : Except (Halt V S F) (Term V S)
  steps : Nat
  log : List Bytes
  asked : List (Call S)

/-- The state of a run under way: the term reached, the steps taken, and the lines and calls so far, the latest
    first. -/
structure Progress (V S : Type) where
  term : Term V S
  steps : Nat := 0
  lines : Nat := 0
  log : List Bytes := []
  asked : List (Call S) := []

/-- What one round of a run comes to: its end, which without an error is a normal form, or the next round. -/
inductive Round (V S F : Type) where
  | ended (how : Ending (HaltCause V S F)) (last : Progress V S)
  | goesOn (next : Progress V S)

/-- The end of a run with an error. -/
def Round.halted (cause : HaltCause V S F) (last : Progress V S) : Round V S F :=
  .ended (.returned (some (.returned cause))) last

/-- One round: unless the run is interrupted, a step is taken and traced; it counts if the limit allows one more. -/
def round [DecidableEq S] [Domain V F] [Shown S] (red : Reducer S) (ctx : Context) (p : Progress V S)
    (host : Host V := .sound) : Round V S F :=
  match ctx p.lines p.steps with
  | some i => .halted (.interrupted i) p
  | none =>
    let attempt := p.term.step red.strategy host.dup
    let p' := { p with asked := attempt.asked.reverse ++ p.asked }
    match attempt.result with
    | .error (.error e) => .halted (.reduce e) p'
    | .error (.panic message) => .ended (.panicked message) p'
    | .ok none => .ended (.returned none) p'
    | .ok (some c) =>
      match red.say host.log fun _ => stepLine (p.steps + 1) c with
      | .error message => .ended (.panicked message) p'
      | .ok new =>
        let p'' := { p' with lines := p.lines + new.length, log := new ++ p.log }
        if 0 < red.maxSteps ∧ red.maxSteps ≤ p.steps then .halted (.stepLimit p.steps) p''
        else .goesOn { p'' with term := c.whole, steps := p.steps + 1 }

/-- A round of a host that never breaks down. -/
theorem round_sound [DecidableEq S] [Domain V F] [Shown S] (red : Reducer S) (ctx : Context) (p : Progress V S) :
    red.round (F := F) ctx p =
      match ctx p.lines p.steps with
      | some i => .halted (.interrupted i) p
      | none =>
        let attempt := p.term.step red.strategy
        let p' := { p with asked := attempt.asked.reverse ++ p.asked }
        match attempt.result with
        | .error (.error e) => .halted (.reduce e) p'
        | .error (.panic message) => .ended (.panicked message) p'
        | .ok none => .ended (.returned none) p'
        | .ok (some c) =>
          let new := red.logged fun _ => stepLine (p.steps + 1) c
          let p'' := { p' with lines := p.lines + new.length, log := new ++ p.log }
          if 0 < red.maxSteps ∧ red.maxSteps ≤ p.steps then .halted (.stepLimit p.steps) p''
          else .goesOn { p'' with term := c.whole, steps := p.steps + 1 } := by
  simp only [round, say_sound]

/-- The rounds of a run, at most `fuel` of them. -/
def rounds [DecidableEq S] [Domain V F] [Shown S] (red : Reducer S) (ctx : Context) :
    (fuel : Nat) → Progress V S → (host : Host V := .sound) → Option (Ending (HaltCause V S F) × Progress V S)
  | 0, _, _ => none
  | fuel + 1, p, host =>
    match red.round ctx p host with
    | .ended how last => some (how, last)
    | .goesOn next => red.rounds ctx fuel next host

/-- The line about the end of a run: what it came to, after how many steps. -/
def lastLine [Domain V F] [Shown S] (result : Except (Halt V S F) (Term V S)) (steps : Nat) : Bytes :=
  match result with
  | .ok e => "normal form after " ++ Text.natural steps ++ " steps: " ++ Shown.text e
  | .error error => "halt after " ++ Text.natural steps ++ " steps: " ++ Halt.message error

/-- A run that ended, with a last line about its end. A panic becomes an error under the name `reduce`. -/
def close [Domain V F] [Shown S] (red : Reducer S) (how : Ending (HaltCause V S F)) (last : Progress V S) :
    Run V S F :=
  let result := match recover "reduce" how with
    | none => .ok last.term
    | some error => .error error
  let line := red.logged fun _ => lastLine result last.steps
  ⟨result, last.steps, (line ++ last.log).reverse, last.asked.reverse⟩

/-- Reduces a term to normal form, for a host that never breaks down outside its domain and renamer. Reduction need not
    end: there is no answer when `fuel` rounds are not enough. -/
def normalize [DecidableEq S] [Domain V F] [Shown S] (red : Reducer S) (fuel : Nat) (ctx : Context) (e : Term V S) :
    Option (Run V S F) :=
  (red.rounds ctx fuel ⟨e, 0, 0, [], []⟩).map fun (how, last) => red.close how last

/-! ### Any host -/

/-- What a run comes to for who asked for it: it returns, or a panic goes through and leaves the run as it was. -/
inductive Outcome (V S F : Type) where
  | returned (run : Run V S F)
  | escaped (message : Bytes) (last : Progress V S)

/-- The end of a run. All before the last line is run under recovery, so that a panic of the host is an error returned;
    the last line is logged after that, and a log function that breaks down over it takes the run with it. -/
def conclude [Domain V F] [Shown S] (red : Reducer S) (log : LogFunction) (how : Ending (HaltCause V S F))
    (last : Progress V S) : Outcome V S F :=
  let run := red.close how last
  match red.say log fun _ => lastLine run.result run.steps with
  | .ok _ => .returned run
  | .error message => .escaped message last

/-- Reduces a term to normal form, for any host. -/
def normalizeFor [DecidableEq S] [Domain V F] [Shown S] (red : Reducer S) (host : Host V) (fuel : Nat) (ctx : Context)
    (e : Term V S) : Option (Outcome V S F) :=
  (red.rounds ctx fuel ⟨e, 0, 0, [], []⟩ host).map fun (how, last) => red.conclude host.log how last

/-- For a host that never breaks down a run always returns. -/
theorem normalizeFor_sound [DecidableEq S] [Domain V F] [Shown S] (red : Reducer S) (fuel : Nat) (ctx : Context)
    (e : Term V S) : red.normalizeFor .sound fuel ctx e = (red.normalize (F := F) fuel ctx e).map .returned := by
  simp only [normalizeFor, normalize, Option.map_map, Function.comp_def, conclude, say_sound]

end Reducer

end PostfixLambda
