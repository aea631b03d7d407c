import PostfixLambda.Term.Token

/-! The postfix parser: one operand stack, fed token by token. -/

namespace PostfixLambda

/-- Why a token, or the end of the tokens, is refused. -/
inductive ParseFault where
  | stackUnderflow
  | notAVariable
  | endOfInput
  | unexpectedToken (kind : UInt8)
  deriving DecidableEq, Repr

/-- The text of a parse fault. -/
def ParseFault.message : ParseFault → Bytes
  | stackUnderflow => "stack underflow"
  | notAVariable => "binder is not a variable"
  | endOfInput => "unexpected end of input"
  | unexpectedToken kind => "unexpected token " ++ Shown.text (Token.unknown kind : Token Bytes Bytes)

/-- A parse fault with the number of tokens read before it. -/
structure ParseError where
  offset : Nat
  fault : ParseFault
  deriving DecidableEq, Repr

/-- The text of a parse error. -/
def ParseError.message (e : ParseError) : Bytes :=
  "parse error @" ++ Text.natural e.offset ++ ": " ++ e.fault.message

/-- A parser: its operands, the latest first. -/
structure Parser (V S : Type) where
  operands : List (Term V S) := []
  deriving DecidableEq, Repr

namespace Parser

variable {V S : Type}

/-- The number of operands. -/
def depth (p : Parser V S) : Nat := p.operands.length

/-- Whether there is no operand. -/
def isEmpty (p : Parser V S) : Bool := p.operands.isEmpty

/-- A parser without operands. -/
def reset (_ : Parser V S) : Parser V S := {}

/-- Pushes an operand. -/
def put (p : Parser V S) (e : Term V S) : Parser V S := ⟨e :: p.operands⟩

/-- Reads one token. -/
def push (p : Parser V S) : Token V S → Except ParseFault (Parser V S)
  | .const v => .ok (p.put (.const v))
  | .ident s => .ok (p.put (.var s))
  | .lambda =>
    match p.operands with
    | body :: .var binder :: rest => .ok ⟨.lam binder body :: rest⟩
    | _ :: _ :: _ => .error .notAVariable
    | _ => .error .stackUnderflow
  | .apply =>
    match p.operands with
    | arg :: fn :: rest => .ok ⟨.app fn arg :: rest⟩
    | _ => .error .stackUnderflow
  | .unknown kind => .error (.unexpectedToken kind)

/-- The term of a parser with exactly one operand. -/
def result (p : Parser V S) : Except ParseFault (Term V S) :=
  match p.operands with
  | [e] => .ok e
  | _ => .error .endOfInput

/-- Reads the tokens in order, `offset` being the number of those read before. -/
def pushAll (p : Parser V S) (offset : Nat) : List (Token V S) → Except ParseError (Parser V S)
  | [] => .ok p
  | t :: rest =>
    match p.push t with
    | .ok p' => p'.pushAll (offset + 1) rest
    | .error fault => .error ⟨offset, fault⟩

/-! ### In place -/

/-- An operation on the operands in place. What it has done to them before it is refused stays done. -/
abbrev InPlace (V S α : Type) := ExceptT ParseFault (StateM (Parser V S)) α

namespace InPlace

/-- The two latest operands, the latest first. They are left where they are. -/
def peek : InPlace V S (Term V S × Term V S) := do
  match (← get).operands with
  | latest :: earlier :: _ => return (latest, earlier)
  | _ => throw .stackUnderflow

def drop (n : Nat) : InPlace V S Unit := modify fun p => ⟨p.operands.drop n⟩

def put (e : Term V S) : InPlace V S Unit := modify (Parser.put · e)

def push : Token V S → InPlace V S Unit
  | .const v => put (.const v)
  | .ident s => put (.var s)
  | .lambda => do
    let (body, arg) ← peek
    match arg with
    | .var binder =>
      drop 2
      put (.lam binder body)
    | _ => throw .notAVariable
  | .apply => do
    let (arg, fn) ← peek
    drop 2
    put (.app fn arg)
  | .unknown kind => throw (.unexpectedToken kind)

/-- Hands out the term, which leaves no operand behind. -/
def result : InPlace V S (Term V S) := do
  match (← get).operands with
  | [e] =>
    modify reset
    return e
  | _ => throw .endOfInput

/-- Reading a token in place either gives the parser that `Parser.push` gives, or is refused with all operands there. -/
theorem run_push (p : Parser V S) (t : Token V S) :
    (push t).run.run p = match p.push t with
      | .ok p' => (.ok (), p')
      | .error fault => (.error fault, p) := by
  cases t with
  | const v => rfl
  | ident s => rfl
  | unknown kind => rfl
  | lambda =>
    obtain ⟨operands⟩ := p
    match operands with
    | [] => rfl
    | [_] => rfl
    | body :: arg :: rest => cases arg <;> rfl
  | apply =>
    obtain ⟨operands⟩ := p
    match operands with
    | [] => rfl
    | [_] => rfl
    | arg :: fn :: rest => rfl

theorem run_result (p : Parser V S) :
    (result (V := V) (S := S)).run.run p = match p.result with
      | .ok e => (.ok e, {})
      | .error fault => (.error fault, p) := by
  obtain ⟨operands⟩ := p
  match operands with
  | [] => rfl
  | [e] => rfl
  | _ :: _ :: _ => rfl

end InPlace

/-! ### Requests -/

/-- What a parser is asked: to read a token, to hand out its term, or to drop its operands. -/
inductive Request (V S : Type) where
  | push (t : Token V S)
  | result
  | reset

/-- What a parser replies: that it is done, the term, or why it refuses. -/
inductive Reply (V S : Type) where
  | done
  | term (e : Term V S)
  | refused (fault : ParseFault)

/-- Answers a request in place. -/
def answer (p : Parser V S) : Request V S → Parser V S × Reply V S
  | .push t =>
    match (InPlace.push t).run.run p with
    | (.ok (), p') => (p', .done)
    | (.error fault, p') => (p', .refused fault)
  | .result =>
    match InPlace.result.run.run p with
    | (.ok e, p') => (p', .term e)
    | (.error fault, p') => (p', .refused fault)
  | .reset => (p.reset, .done)

/-! ### Accepted tokens -/

/-- A lambda mark is accepted exactly on a body over a variable. -/
theorem push_lambda_eq_ok_iff {p p' : Parser V S} :
    p.push .lambda = .ok p' ↔ ∃ b body rest, p.operands = body :: .var b :: rest ∧ p' = ⟨.lam b body :: rest⟩ := by
  constructor
  · intro h
    simp only [push] at h
    split at h <;> cases h
    exact ⟨_, _, _, ‹_›, rfl⟩
  · rintro ⟨b, body, rest, ho, rfl⟩
    simp [push, ho]

/-- An apply mark is accepted exactly on two operands. -/
theorem push_apply_eq_ok_iff {p p' : Parser V S} :
    p.push .apply = .ok p' ↔ ∃ fn arg rest, p.operands = arg :: fn :: rest ∧ p' = ⟨.app fn arg :: rest⟩ := by
  constructor
  · intro h
    simp only [push] at h
    split at h <;> cases h
    exact ⟨_, _, _, ‹_›, rfl⟩
  · rintro ⟨fn, arg, rest, ho, rfl⟩
    simp [push, ho]

/-- A result is had exactly from one operand. -/
theorem result_eq_ok_iff {p : Parser V S} {e : Term V S} : p.result = .ok e ↔ p.operands = [e] := by
  simp only [result]
  split <;> simp_all

end Parser

/-- The term that a complete sequence of tokens builds. -/
def Term.parse {V S : Type} (tokens : List (Token V S)) : Except ParseError (Term V S) :=
  match Parser.pushAll {} 0 tokens with
  | .error e => .error e
  | .ok p =>
    match p.result with
    | .ok e => .ok e
    | .error fault => .error ⟨tokens.length, fault⟩

end PostfixLambda
