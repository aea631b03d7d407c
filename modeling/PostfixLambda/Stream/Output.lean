import PostfixLambda.Stream.Sink

/-! Outputs that can be flushed. An outlet leads to a sink, with or without a buffer on the way; a tee puts outlets
    together to be written to at once. Outlets may lead to the same sink. -/

namespace PostfixLambda

/-- How bytes are held back on their way to a sink. -/
inductive Buffering where
  /-- Not at all: the sink flushes itself. -/
  | direct
  /-- Not at all: the sink needs no flushing. -/
  | unbuffered
  /-- Until the buffer is full or flushed; after an error nothing is taken any more. -/
  | buffered (held : Collected) (error? : Option WriteError)
  deriving DecidableEq, Repr

namespace Buffering

/-- The bytes that a buffer holds. -/
def capacity : Nat := 4096

/-- A sink that flushes itself is left alone, memory and nowhere need no buffer, all others get one. -/
def ofKind : SinkKind → Buffering
  | .flusher _ => direct
  | .memory | .discard => unbuffered
  | .plain | .closer => buffered .empty none

/-- Sends the held bytes to the sink. What the sink does not take stays held, and the error with it. -/
def flushHeld (s : Sink) (held : Collected) : Sink × Collected × Option WriteError :=
  if held.isEmpty then (s, held, none)
  else
    let (s', w) := s.write held.toBytes
    let error? := match w.error? with
      | some e => some e
      | none => if w.count < held.size then some .shortWrite else none
    match error? with
    | some e => (s', .ofBytes (held.toBytes.drop w.count), some e)
    | none => (s', .empty, none)

/-- Flushes what is held back. -/
def flush (b : Buffering) (s : Sink) : Buffering × Sink × Option WriteError :=
  match b with
  | direct => let (s', error?) := s.flush; (direct, s', error?)
  | unbuffered => (unbuffered, s, none)
  | buffered held (some e) => (buffered held (some e), s, some e)
  | buffered held none =>
    let (s', held', error?) := flushHeld s held
    (buffered held' error?, s', error?)

/-- Writes to a buffer without an error. While more is offered than there is room for, an empty buffer is passed by,
    and another is filled up and flushed; the rest is held. Each round but the first takes a byte or is the last, so
    two rounds more than there are bytes are enough. -/
def writeBuffered : (fuel count : Nat) → Sink → Collected → Bytes → Buffering × Sink × Written
  | 0, count, s, held, _ => (buffered held none, s, ⟨count, none⟩)
  | fuel + 1, count, s, held, p =>
    if p.length + held.size ≤ capacity then (buffered (held.append p) none, s, ⟨count + p.length, none⟩)
    else if held.isEmpty then
      let (s', w) := s.write p
      match w.error? with
      | some e => (buffered held (some e), s', ⟨count + w.count, some e⟩)
      | none => writeBuffered fuel (count + w.count) s' held (p.drop w.count)
    else
      let room := capacity - held.size
      match flushHeld s (held.append (p.take room)) with
      | (s', held', some e) => (buffered held' (some e), s', ⟨count + room, some e⟩)
      | (s', held', none) => writeBuffered fuel (count + room) s' held' (p.drop room)

/-- Writes towards a sink. -/
def write (b : Buffering) (s : Sink) (p : Bytes) : Buffering × Sink × Written :=
  match b with
  | direct => let (s', w) := s.write p; (direct, s', w)
  | unbuffered => let (s', w) := s.write p; (unbuffered, s', w)
  | buffered held (some e) => (buffered held (some e), s, ⟨0, some e⟩)
  | buffered held none => writeBuffered (p.length + 2) 0 s held p

end Buffering

/-! ### The tee -/

/-- Outlets, by their place, put together in groups. Some may be missing. -/
inductive Tee where
  | none
  | outlet (i : Nat)
  | group (members : List Tee)
  deriving Inhabited

/-- What is written to: one outlet, by its place, or several targets in order. -/
inductive Target where
  | outlet (i : Nat)
  | several (members : List Target)
  deriving Inhabited

namespace Target

/-- The members that a group gets: what is missing is passed over, and several targets are taken apart. -/
def membersOf : List (Option Target) → List Target
  | [] => []
  | none :: rest => membersOf rest
  | some (.several members) :: rest => members ++ membersOf rest
  | some (.outlet i) :: rest => .outlet i :: membersOf rest

/-- Puts together what is given: no member comes to nothing, and a single one stands for itself. -/
def ofList? (given : List (Option Target)) : Option Target :=
  match membersOf given with
  | [] => none
  | [member] => some member
  | members => some (.several members)

end Target

namespace Tee

mutual

/-- The target that a tee comes to, each group put together once its members are. -/
def target? : Tee → Option Target
  | .none => Option.none
  | .outlet i => some (.outlet i)
  | .group members => Target.ofList? (targets members)

/-- The targets that the members come to. -/
def targets : List Tee → List (Option Target)
  | [] => []
  | first :: rest => target? first :: targets rest

end

end Tee

/-- An outlet: the place of its sink, and what is held back on the way there. -/
structure Outlet where
  sink : Nat
  buffering : Buffering
  deriving DecidableEq, Repr

/-- An output: its sinks, its outlets, and what is written to. -/
structure Output where
  sinks : List Sink
  outlets : List Outlet
  root : Target

namespace Output

/-- The outlet that a sink at a place asks for. -/
def outletOf (s : Sink) (place : Nat) : Outlet := ⟨place, .ofKind s.kind⟩

/-- The output with an outlet for each sink. -/
def ofSinks (sinks : List Sink) (root : Target) : Output :=
  ⟨sinks, sinks.zipIdx.map fun (s, i) => outletOf s i, root⟩

/-- The output of one sink. -/
def ofSink (s : Sink) : Output := ofSinks [s] (.outlet 0)

/-- The text that the sink at a place holds. -/
def textAt (out : Output) (place : Nat) : Bytes :=
  match out.sinks[place]? with
  | some s => s.text
  | none => []

/-- Works on the outlet at a place and its sink. -/
def onOutlet {α : Type} (out : Output) (i : Nat) (nothing : α) (f : Buffering → Sink → Buffering × Sink × α) :
    Output × α :=
  match out.outlets[i]? with
  | none => (out, nothing)
  | some o =>
    match out.sinks[o.sink]? with
    | none => (out, nothing)
    | some s =>
      let (b, s', a) := f o.buffering s
      (⟨out.sinks.set o.sink s', out.outlets.set i { o with buffering := b }, out.root⟩, a)

/-- Writes to the outlet at a place. -/
def writeAt (out : Output) (i : Nat) (p : Bytes) : Output × Written := out.onOutlet i ⟨0, none⟩ fun b s => b.write s p

/-- Writes to the sink at a place at once, past all buffers. -/
def writePast (out : Output) (place : Nat) (p : Bytes) : Output :=
  match out.sinks[place]? with
  | none => out
  | some s => { out with sinks := out.sinks.set place (s.write p).1 }

mutual

/-- Writes to a target; an outlet answers for itself. -/
def writeTo (out : Output) (p : Bytes) : Target → Output × Written
  | .outlet i => out.writeAt i p
  | .several members => out.writeEach p members

/-- Writes to the targets, up to the first that fails or does not take everything. -/
def writeEach (out : Output) (p : Bytes) : List Target → Output × Written
  | [] => (out, ⟨p.length, none⟩)
  | first :: rest =>
    match out.writeTo p first with
    | (out', ⟨n, some e⟩) => (out', ⟨n, some e⟩)
    | (out', ⟨n, none⟩) => if n ≠ p.length then (out', ⟨n, some .shortWrite⟩) else out'.writeEach p rest

end

/-- Writes to all that is written to. -/
def write (out : Output) (p : Bytes) : Output × Written := out.writeTo p out.root

/-- Flushes the outlet at a place. -/
def flushAt (out : Output) (i : Nat) : Output × Option WriteError := out.onOutlet i none Buffering.flush

mutual

/-- Flushes a target. -/
def flushTo (out : Output) : Target → Output × Option WriteError
  | .outlet i => out.flushAt i
  | .several members => out.flushEach none members

/-- Flushes the targets, all of them, and keeps the first error. -/
def flushEach (out : Output) (first? : Option WriteError) : List Target → Output × Option WriteError
  | [] => (out, first?)
  | first :: rest =>
    let (out', error?) := out.flushTo first
    out'.flushEach (first? <|> error?) rest

end

/-- Flushes all that is written to. -/
def flush (out : Output) : Output × Option WriteError := out.flushTo out.root

end Output

end PostfixLambda
