import PostfixLambda.Text.Collected

/-! Sinks: what bytes are finally written to. A sink may take less than it is offered, with an error or without
    one; it keeps what it took, so that a run can be judged by what reached it. -/

namespace PostfixLambda

/-- Why a write or a flush fails. -/
inductive WriteError where
  /-- The sink took less than it was offered, without an error of its own. -/
  | shortWrite
  /-- The sink failed to write or to flush. -/
  | failed (message : Bytes)
  deriving DecidableEq, Repr

namespace WriteError

/-- The sink refused to take more. -/
def refused : WriteError := .failed "write failed"

/-- The text of a write error. -/
def message : WriteError → Bytes
  | shortWrite => "short write"
  | failed message => message

end WriteError

/-- What a sink is, beyond something to write to. -/
inductive SinkKind where
  /-- Memory. -/
  | memory
  /-- Nowhere: whatever is written is dropped. -/
  | discard
  /-- A plain sink. -/
  | plain
  /-- A sink that can be closed. -/
  | closer
  /-- A sink that flushes itself, failing with a message if there is one. -/
  | flusher (failure? : Option Bytes)
  deriving DecidableEq, Repr

/-- How a sink answers a write: how many bytes it takes, and its error. -/
structure Verdict where
  taken : Nat
  error? : Option WriteError

/-- What a sink will answer, from the bytes it holds, the writes before this one, and the bytes offered. -/
abbrev Policy := (held calls offered : Nat) → Verdict

/-- Takes everything. -/
def Policy.unlimited : Policy := fun _ _ offered => ⟨offered, none⟩

/-- Takes at most `limit` bytes in all; what goes beyond is refused, or silently left out. -/
def Policy.limited (limit : Nat) (silent : Bool) : Policy := fun held _ offered =>
  if held + offered ≤ limit then ⟨offered, none⟩ else ⟨limit - held, if silent then none else some .refused⟩

/-- Takes nothing. -/
def Policy.failing (message : Bytes) : Policy := fun _ _ _ => ⟨0, some (.failed message)⟩

/-- A sink: the bytes it holds, what each write brought, the latest first, and how often it was closed or flushed. -/
structure Sink where
  kind : SinkKind
  policy : Policy := Policy.unlimited
  content : Collected := .empty
  writes : List Bytes := []
  calls : Nat := 0
  events : Nat := 0

/-- The answer to a write: the bytes that count as written, and the error. -/
structure Written where
  count : Nat
  error? : Option WriteError
  deriving DecidableEq, Repr

namespace Sink

/-- The text that a sink holds. -/
def text (s : Sink) : Bytes := s.content.toBytes

/-- Offers bytes to a sink. -/
def write (s : Sink) (p : Bytes) : Sink × Written :=
  match s.kind with
  | .discard => (s, ⟨p.length, none⟩)
  | .memory => ({ s with content := s.content.append p }, ⟨p.length, none⟩)
  | .plain | .closer | .flusher _ =>
    let verdict := s.policy s.content.size s.calls p.length
    let taken := p.take verdict.taken
    ({ s with content := s.content.append taken, writes := taken :: s.writes, calls := s.calls + 1 },
      ⟨taken.length, verdict.error?⟩)

/-- Closes a sink that can be closed. -/
def close (s : Sink) : Sink :=
  match s.kind with
  | .closer => { s with events := s.events + 1 }
  | _ => s

/-- Flushes a sink that flushes itself. -/
def flush (s : Sink) : Sink × Option WriteError :=
  match s.kind with
  | .flusher failure? => ({ s with events := s.events + 1 }, failure?.map .failed)
  | _ => (s, none)

end Sink

/-- Offers the pieces one after the other, up to the first error; the counts add up. -/
def writePieces {σ : Type} (write : σ → Bytes → σ × Written) : (count : Nat) → σ → List Bytes → σ × Written
  | count, s, [] => (s, ⟨count, none⟩)
  | count, s, piece :: rest =>
    match write s piece with
    | (s', ⟨n, some error⟩) => (s', ⟨count + n, some error⟩)
    | (s', ⟨n, none⟩) => writePieces write (count + n) s' rest

end PostfixLambda
