import PostfixLambda.Session.Basic

/-! What programs come to, one by one. A program is the words up to an end word, or to the end of all words. It is
    evaluated by itself, from the definitions before it; nothing else of what went before can matter, and what it leaves
    is at most one definition. This is stated without a session: there is no state but the definitions. -/

namespace PostfixLambda

/-! ### Logs and outputs -/

/-- One entry of a log. -/
inductive LogEntry where
  | error (message : Bytes)
  | note (level message : Bytes)
  deriving DecidableEq, Repr

/-- Takes an entry. -/
def Logger.take (log : Logger) : LogEntry → Logger
  | .error message => log.error message
  | .note level message => log.print level message

/-- Takes the entries in order. -/
def Logger.takeAll (log : Logger) (entries : List LogEntry) : Logger := entries.foldl take log

/-- Writes the pieces in order. -/
def Output.writeAll (out : Output) (pieces : List Bytes) : Output := pieces.foldl (fun out p => (out.write p).1) out

/-- The output never fails: whatever was written to it, nothing that is written next fails. -/
def Output.NeverFails (out : Output) : Prop := ∀ pieces p, ((out.writeAll pieces).write p).2.error? = none

theorem Output.writeAll_append (out : Output) (pieces more : List Bytes) :
    out.writeAll (pieces ++ more) = (out.writeAll pieces).writeAll more := List.foldl_append

theorem Logger.takeAll_append (log : Logger) (entries more : List LogEntry) :
    log.takeAll (entries ++ more) = (log.takeAll entries).takeAll more := List.foldl_append

theorem Output.NeverFails.writeAll {out : Output} (h : out.NeverFails) (pieces : List Bytes) :
    (out.writeAll pieces).NeverFails := by
  intro more p
  rw [← writeAll_append]
  exact h (pieces ++ more) p

theorem Output.NeverFails.writePieces {out : Output} (h : out.NeverFails) (count : Nat) (pieces : List Bytes) :
    (writePieces Output.write count out pieces).1 = out.writeAll pieces ∧
      (writePieces Output.write count out pieces).2.error? = none := by
  induction pieces generalizing out count with
  | nil => exact ⟨rfl, rfl⟩
  | cons p pieces ih =>
    have hfirst : (out.write p).2.error? = none := h [] p
    have hrest : (out.write p).1.NeverFails := h.writeAll [p]
    have hafter := ih hrest (count + (out.write p).2.count)
    rw [PostfixLambda.writePieces]
    split
    · rename_i out' n error hwrite
      rw [hwrite] at hfirst
      cases hfirst
    · rename_i out' n hwrite
      rw [hwrite] at hafter
      rw [Output.writeAll, List.foldl_cons, hwrite]
      exact hafter

theorem Output.write_memory {s : Sink} (h : s.kind = .memory) (p : Bytes) :
    (ofSink s).write p = (ofSink { s with content := s.content.append p }, ⟨p.length, none⟩) := by
  simp [ofSink, ofSinks, outletOf, Buffering.ofKind, write, writeTo, writeAt, onOutlet, Buffering.write, Sink.write, h]

/-- An output to memory never fails. -/
theorem Output.neverFails_memory {s : Sink} (h : s.kind = .memory) : (ofSink s).NeverFails := by
  intro pieces p
  induction pieces generalizing s with
  | nil =>
    change ((ofSink s).write p).2.error? = none
    rw [write_memory h]
  | cons piece pieces ih =>
    change ((((ofSink s).write piece).1.writeAll pieces).write p).2.error? = none
    rw [write_memory h]
    exact ih h

/-! ### Programs -/

namespace Program

/-- What becomes of a program. -/
inductive Fate where
  /-- There is none. -/
  | nothing
  /-- It fails, which is reported at a place. -/
  | failed (loc : Location) (e : ProgramError)
  /-- Its normal form is printed. -/
  | printed (e : Arith.Term)
  /-- Its normal form becomes a definition. -/
  | defined (name : Bytes) (e : Arith.Term)

/-- The outcome of a program: the lines that its reduction logs, and what becomes of it. -/
structure Outcome where
  trace : List Bytes
  fate : Fate

/-- The reducer of a session with these options. -/
def reducer (o : SessionOptions) : Reducer Bytes := (Reducer.ofSettings (Session.settings o)).1

/-- The renamer of a session with these options. -/
def rename? (o : SessionOptions) : Option (Renamer Bytes) := if o.renames then some Renamer.primes else none

/-- Reads the words of a program, which may end in the name that it defines. What is wrong with a word, or with a word
    after that name, is reported where the word stands. -/
def read (p : Parser Arith.Value Bytes) :
    List (Bytes × Location) → Except (Location × ProgramError) (Option Bytes × Parser Arith.Value Bytes)
  | [] => .ok (none, p)
  | (word, loc) :: rest =>
    match Session.definedName? word with
    | some name =>
      match rest with
      | [] => .ok (some name, p)
      | (next, loc') :: _ => .error (loc', .expectedEnd name next)
    | none =>
      match Arith.readWord word with
      | .error e => .error (loc, .word e)
      | .ok token =>
        match p.push token with
        | .error fault => .error (loc, .parse fault)
        | .ok p' => read p' rest

/-- The fate of a program that starts at a place and was reduced. -/
def fateOf (start : Location) (define? : Option Bytes) :
    Except (Halt Arith.Value Bytes Arith.Value.Fault) Arith.Term → Fate
  | .error h => .failed start (.halt h)
  | .ok e =>
    match define? with
    | some name => .defined name e
    | none => .printed e

/-- The outcome of a program that was read: what is wrong with it as a whole is reported where it starts. -/
def conclude (o : SessionOptions) (fuel : Nat) (env : Env Arith.Value Bytes) (start : Location) (define? : Option Bytes)
    (p : Parser Arith.Value Bytes) : Option Outcome :=
  match p.result with
  | .error fault => some ⟨[], .failed start (.parse fault)⟩
  | .ok e =>
    match if env.isEmpty then .ok e else (e.bind env (rename? o)).result with
    | .error stop => some ⟨[], .failed start (.bind stop)⟩
    | .ok e' =>
      ((reducer o).normalize fuel .background e').map fun run => ⟨run.log, fateOf start define? run.result⟩

/-- The outcome of a program by itself, given its words and the definitions before it. There is no answer when its
    reduction takes more than `fuel` rounds. -/
def evaluate (o : SessionOptions) (fuel : Nat) (env : Env Arith.Value Bytes) (words : List (Bytes × Location)) :
    Option Outcome :=
  match words with
  | [] => some ⟨[], .nothing⟩
  | (_, start) :: _ =>
    match read {} words with
    | .error (loc, e) => some ⟨[], .failed loc e⟩
    | .ok (define?, p) => conclude o fuel env start define? p

/-! ### What an outcome amounts to -/

/-- The definitions after a program. -/
def Outcome.envAfter (outcome : Outcome) (env : Env Arith.Value Bytes) : Env Arith.Value Bytes :=
  match outcome.fate with
  | .defined name e => env.insert name e
  | .nothing | .failed _ _ | .printed _ => env

/-- The line of a result: lambda notation, or postfix words. -/
def line (o : SessionOptions) (e : Arith.Term) : Bytes := if o.tokens then Arith.format e.encode else Shown.text e

/-- What a program writes to the output, piece by piece. -/
def Outcome.pieces (o : SessionOptions) (outcome : Outcome) : List Bytes :=
  match outcome.fate with
  | .printed e => Text.terminalPieces (line o e ++ [Bytes.lineFeed])
  | .nothing | .failed _ _ | .defined _ _ => []

/-- The entries of a failure: the error, and where a panic came from if that is wanted. -/
def failureEntries (o : SessionOptions) (loc : Location) (e : ProgramError) : List LogEntry :=
  .error (Shown.text loc ++ ": " ++ e.message) ::
    if o.showStacks && e.isPanic then [.note "STACK" Fault.stackTrace] else []

/-- What a program leaves in the log: the lines of its reduction, and its failure. -/
def Outcome.entries (o : SessionOptions) (outcome : Outcome) : List LogEntry :=
  outcome.trace.map (.note ((reducer o).logLevel?.getD [])) ++
    match outcome.fate with
    | .failed loc e => failureEntries o loc e
    | .nothing | .printed _ | .defined _ _ => []

/-- The messages of the errors among the entries of a log. -/
def errors (entries : List LogEntry) : List Bytes :=
  entries.filterMap fun
    | .error message => some message
    | .note _ _ => none

/-- Where an error of a program is reported. A word that is no token, that the parser refuses, or that follows the
    definition of a name is the first such word of the program, and the error stands there; any other error stands where
    the program starts. -/
def Located (words : List (Bytes × Location)) (loc : Location) : ProgramError → Prop
  | .expectedEnd name word =>
    ∃ front mark rest p, words = front ++ mark :: (word, loc) :: rest ∧ read {} front = .ok (none, p) ∧
      Session.definedName? mark.1 = some name
  | .word cause =>
    ∃ front word rest p, words = front ++ (word, loc) :: rest ∧ read {} front = .ok (none, p) ∧
      Arith.readWord word = .error cause
  | .parse .endOfInput => words.head?.map Prod.snd = some loc
  | .parse fault =>
    ∃ front word rest p token, words = front ++ (word, loc) :: rest ∧ read {} front = .ok (none, p) ∧
      Arith.readWord word = .ok token ∧ p.push token = .error fault
  | .bind _ | .halt _ => words.head?.map Prod.snd = some loc
  | .outside _ => False

/-- The reducer of a session with these options finds no step in the term. -/
def Normal (o : SessionOptions) (e : Arith.Term) : Prop :=
  (e.step (F := Arith.Value.Fault) (reducer o).strategy).result = .ok none

/-- What the outcome of a program says that it does. Without words there is nothing; a failure is one error, at its
    place, and nothing else; a normal form is one line, or else, at the end of which a name is defined, one
    definition. -/
def Outcome.Does (o : SessionOptions) (words : List (Bytes × Location)) (outcome : Outcome) : Prop :=
  match outcome.fate with
  | .nothing => words = [] ∧ outcome.pieces o = [] ∧ outcome.entries o = [] ∧ ∀ env, outcome.envAfter env = env
  | .failed loc e =>
    Located words loc e ∧ errors (outcome.entries o) = [Shown.text loc ++ ": " ++ e.message] ∧ outcome.pieces o = [] ∧
      ∀ env, outcome.envAfter env = env
  | .printed e =>
    (∃ w ∈ words.getLast?, Session.definedName? w.1 = none) ∧ Normal o e ∧
      (outcome.pieces o).flatten = line o e ++ [Bytes.lineFeed] ∧ Bytes.lineFeed ∉ line o e ∧
      errors (outcome.entries o) = [] ∧ ∀ env, outcome.envAfter env = env
  | .defined name e =>
    (∃ w ∈ words.getLast?, Session.definedName? w.1 = some name) ∧ Normal o e ∧ outcome.pieces o = [] ∧
      errors (outcome.entries o) = [] ∧ ∀ env, outcome.envAfter env = env.insert name e

/-! ### All programs -/

/-- The programs of a sequence of words. -/
def segments (words : List (Bytes × Location)) : List (List (Bytes × Location)) :=
  words.splitOnP fun w => w.1 = endWord

/-- The outcomes of programs one after the other, and the definitions after them. -/
def evaluateAll (o : SessionOptions) (fuel : Nat) (env : Env Arith.Value Bytes) :
    List (List (Bytes × Location)) → Option (List Outcome × Env Arith.Value Bytes)
  | [] => some ([], env)
  | words :: rest =>
    (evaluate o fuel env words).bind fun outcome =>
      (evaluateAll o fuel (outcome.envAfter env) rest).map fun (outcomes, env') => (outcome :: outcomes, env')

end Program

end PostfixLambda
