import PostfixLambda.Stream.Output

/-! Single outlets. Of every write, what counts as written has reached the sink or is held back on the way there, behind
    all that came before, also where the write fails; a flush moves what is held back on to the sink and loses nothing
    either. -/

namespace PostfixLambda

/-- The sink keeps what is written to it. -/
def Sink.Keeps (s : Sink) : Prop := s.kind ≠ .discard

theorem Sink.Keeps.write {s s' : Sink} {p : Bytes} {w : Written} (h : s.Keeps) (hw : s.write p = (s', w)) :
    w.count ≤ p.length ∧ s'.text = s.text ++ p.take w.count ∧ s'.Keeps := by
  unfold Sink.write at hw
  split at hw
  · rename_i hkind
    exact absurd hkind h
  · cases hw
    exact ⟨Nat.le_refl _, by simp [text], h⟩
  all_goals
    cases hw
    refine ⟨List.length_take_le' _ _, ?_, h⟩
    simp only [text, Collected.toBytes_append, List.length_take]
    rw [List.take_eq_take_min]

theorem Sink.text_flush (s : Sink) : s.flush.1.text = s.text ∧ s.flush.1.kind = s.kind := by
  unfold flush
  split <;> exact ⟨rfl, rfl⟩

/-! ### Buffers -/

namespace Buffering

/-- The bytes held back. -/
def held : Buffering → Bytes
  | direct | unbuffered => []
  | buffered held _ => held.toBytes

theorem flushHeld_keeps {s s' : Sink} {held held' : Collected} {error? : Option WriteError} (h : s.Keeps)
    (hf : flushHeld s held = (s', held', error?)) :
    s'.text ++ held'.toBytes = s.text ++ held.toBytes ∧ s'.Keeps ∧ (error? = none → held'.toBytes = []) := by
  unfold flushHeld at hf
  split at hf
  · rename_i hempty
    cases hf
    exact ⟨rfl, h, fun _ => (Collected.isEmpty_iff _).mp hempty⟩
  · rcases hw : s.write held.toBytes with ⟨sink, w⟩
    obtain ⟨-, htext, hkeeps⟩ := h.write hw
    simp only [hw] at hf
    split at hf
    · cases hf
      refine ⟨?_, hkeeps, by simp⟩
      rw [htext, Collected.toBytes_ofBytes, List.append_assoc, List.take_append_drop]
    · rename_i hnone
      have hall : held.toBytes.length ≤ w.count := by
        rw [← Collected.size_eq_length]
        split at hnone
        · cases hnone
        · split at hnone
          · cases hnone
          · omega
      cases hf
      refine ⟨?_, hkeeps, fun _ => rfl⟩
      rw [htext, List.take_of_length_le hall, Collected.toBytes_empty, List.append_nil]

/-- However a write to a buffer ends, what it counts as written went on behind all that was held. -/
theorem writeBuffered_keeps {fuel count : Nat} {s s' : Sink} {held : Collected} {p : Bytes} {b : Buffering} {w : Written}
    (h : s.Keeps) (hw : writeBuffered fuel count s held p = (b, s', w)) :
    ∃ taken, w.count = count + taken ∧ taken ≤ p.length ∧
      s'.text ++ b.held = s.text ++ held.toBytes ++ p.take taken ∧ s'.Keeps := by
  induction fuel generalizing count s held p with
  | zero =>
    cases hw
    exact ⟨0, rfl, Nat.zero_le _, by simp [Buffering.held], h⟩
  | succ fuel ih =>
    rw [writeBuffered] at hw
    split at hw
    · -- There is room for all of it.
      cases hw
      refine ⟨p.length, rfl, Nat.le_refl _, ?_, h⟩
      rw [Buffering.held, Collected.toBytes_append, List.take_length, List.append_assoc]
    · rename_i hroom
      split at hw
      · -- The buffer is empty, and passed by.
        rename_i hempty
        rw [Collected.isEmpty_iff] at hempty
        rcases hsink : s.write p with ⟨sink, first⟩
        obtain ⟨hcount, htext, hkeeps⟩ := h.write hsink
        simp only [hsink] at hw
        split at hw
        · cases hw
          refine ⟨first.count, rfl, hcount, ?_, hkeeps⟩
          rw [Buffering.held, hempty, htext, List.append_nil, List.append_nil]
        · obtain ⟨taken, hsum, hle, hlast, hkeeps'⟩ := ih hkeeps hw
          rw [List.length_drop] at hle
          refine ⟨first.count + taken, by omega, by omega, ?_, hkeeps'⟩
          rw [hlast, htext, hempty, List.take_add]
          simp
      · -- The buffer is filled up, and flushed.
        have hfits : capacity - held.size ≤ p.length := by omega
        rcases hflush : flushHeld s (held.append (p.take (capacity - held.size))) with ⟨sink, held', error?⟩
        obtain ⟨hflushed, hkeeps, hempty⟩ := flushHeld_keeps h hflush
        rw [Collected.toBytes_append, ← List.append_assoc] at hflushed
        simp only [hflush] at hw
        cases error? with
        | some e =>
          cases hw
          exact ⟨capacity - held.size, rfl, hfits, hflushed, hkeeps⟩
        | none =>
          obtain ⟨taken, hsum, hle, hlast, hkeeps'⟩ := ih hkeeps hw
          rw [List.length_drop] at hle
          refine ⟨capacity - held.size + taken, by omega, by omega, ?_, hkeeps'⟩
          rw [hlast, hflushed, List.take_add, ← List.append_assoc]

end Buffering

/-! ### Leaves -/

/-- An outlet on its own: what it holds back, and its sink. -/
structure Leaf where
  buffering : Buffering
  sink : Sink

namespace Leaf

/-- The bytes on their way: those that reached the sink, and behind them those held back. -/
def passed (l : Leaf) : Bytes := l.sink.text ++ l.buffering.held

def write (l : Leaf) (p : Bytes) : Leaf × Written :=
  let (b, s, w) := l.buffering.write l.sink p
  (⟨b, s⟩, w)

def flush (l : Leaf) : Leaf × Option WriteError :=
  let (b, s, error?) := l.buffering.flush l.sink
  (⟨b, s⟩, error?)

/-- A write adds what it counts as written, whether it fails or not. -/
theorem write_keeps {l l' : Leaf} {p : Bytes} {w : Written} (h : l.sink.Keeps) (hl : l.write p = (l', w)) :
    l'.passed = l.passed ++ p.take w.count ∧ l'.sink.Keeps := by
  obtain ⟨b, s⟩ := l
  simp only [write, Buffering.write] at hl
  cases b with
  | direct | unbuffered =>
    rcases hw : s.write p with ⟨s', w'⟩
    obtain ⟨-, htext, hkeeps⟩ := Sink.Keeps.write h hw
    simp only [hw] at hl
    cases hl
    refine ⟨?_, hkeeps⟩
    simp [passed, Buffering.held, htext]
  | buffered held error? =>
    cases error? with
    | some e =>
      cases hl
      exact ⟨by simp, h⟩
    | none =>
      rcases hw : Buffering.writeBuffered (p.length + 2) 0 s held p with ⟨b', s', w'⟩
      obtain ⟨taken, hcount, -, hpassed, hkeeps⟩ := Buffering.writeBuffered_keeps h hw
      simp only [hw] at hl
      cases hl
      refine ⟨?_, hkeeps⟩
      rw [hcount, Nat.zero_add]
      exact hpassed

theorem flush_keeps {l l' : Leaf} {error? : Option WriteError} (h : l.sink.Keeps) (hl : l.flush = (l', error?)) :
    l'.passed = l.passed ∧ l'.sink.Keeps ∧ (error? = none → l'.buffering.held = []) := by
  obtain ⟨b, s⟩ := l
  simp only [flush, Buffering.flush] at hl
  cases b with
  | direct =>
    obtain ⟨htext, hkind⟩ := s.text_flush
    cases hl
    exact ⟨by simp [passed, Buffering.held, htext], fun hdiscard => h (hkind.symm.trans hdiscard), fun _ => rfl⟩
  | unbuffered =>
    cases hl
    exact ⟨rfl, h, fun _ => rfl⟩
  | buffered held failed? =>
    cases failed? with
    | some e =>
      cases hl
      exact ⟨rfl, h, by simp⟩
    | none =>
      rcases hf : Buffering.flushHeld s held with ⟨s', held', e?⟩
      have hkeeps := Buffering.flushHeld_keeps h hf
      simp only [hf] at hl
      cases hl
      exact hkeeps

end Leaf

end PostfixLambda
