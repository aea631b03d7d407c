import PostfixLambda.Proofs.Term.Whole
import PostfixLambda.Term.Parser

/-! Encoding and parsing are inverse to each other. The tokens of a term are given by recursion on the term, and
    encoding, which works off a list of pending parts, writes just these. A parser keeps in its operands all that it
    has read: the tokens of the operands, the oldest first, are the tokens read (`Parser.read_push`), so a sequence
    that parses to a term is the encoding of that term. -/

namespace PostfixLambda

namespace Term

variable {V S : Type}

/-! ### Encoding -/

/-- The tokens of a term: those of its parts, and then its mark. The binder of an abstraction is its first part. -/
def tokens : Term V S → List (Token V S)
  | const v => [.const v]
  | var s => [.ident s]
  | lam b body => .ident b :: (body.tokens ++ [.lambda])
  | app fn arg => fn.tokens ++ (arg.tokens ++ [.apply])
  | hole => []

/-- The tokens that a pending item stands for. -/
def Pending.tokens : Pending V S → List (Token V S)
  | part e => e.tokens
  | mark t => [t]

theorem encodeOnto_eq (pending : List (Pending V S)) (written : List (Token V S)) :
    encodeOnto pending written = written.reverse ++ pending.flatMap Pending.tokens := by
  fun_induction encodeOnto pending written with
  | case1 written => simp
  | case2 t rest written ih => simp [ih, Pending.tokens]
  | case3 v rest written ih => simp [ih, Pending.tokens, Term.tokens]
  | case4 s rest written ih => simp [ih, Pending.tokens, Term.tokens]
  | case5 b body rest written ih => simp [ih, Pending.tokens, Term.tokens]
  | case6 fn arg rest written ih => simp [ih, Pending.tokens, Term.tokens]
  | case7 rest written ih => simp [ih, Pending.tokens, Term.tokens]

theorem encode_eq_tokens (e : Term V S) : e.encode = e.tokens := by
  rw [encode, encodeOnto_eq]
  simp [Pending.tokens]

end Term

namespace Parser

variable {V S : Type} {p p' : Parser V S}

/-! ### Reading the tokens of a term -/

/-- Reading the tokens of a whole term pushes the term, whatever the parser holds and whatever follows. -/
theorem pushAll_tokens {e : Term V S} (h : e.Whole) (p : Parser V S) (offset : Nat) (rest : List (Token V S)) :
    p.pushAll offset (e.tokens ++ rest) = (p.put e).pushAll (offset + e.tokens.length) rest := by
  induction e generalizing p offset rest with
  | const v => rfl
  | var s => rfl
  | hole => exact absurd h Term.not_whole_hole
  | lam b body ih =>
    -- The binder is read as a variable; the mark after the body finds it there.
    have hbody := ih (Term.whole_lam.mp h) (p.put (.var b)) (offset + 1) (.lambda :: rest)
    simp only [Term.tokens, List.cons_append, List.append_assoc, List.nil_append, pushAll, push, hbody]
    simp only [put, List.length_cons, List.length_append, List.length_nil]
    congr 1
    omega
  | app fn arg ihfn iharg =>
    obtain ⟨hfn, harg⟩ := Term.whole_app.mp h
    simp only [Term.tokens, List.append_assoc, List.cons_append, List.nil_append, ihfn hfn, iharg harg, pushAll, push,
      put, List.length_append, List.length_cons, List.length_nil]
    congr 1
    omega

/-! ### What a parser has read -/

/-- The tokens of the operands, the oldest operand first. -/
def read (p : Parser V S) : List (Token V S) := p.operands.reverse.flatMap Term.tokens

/-- Every operand is whole. -/
def Whole (p : Parser V S) : Prop := ∀ e ∈ p.operands, e.Whole

@[simp] theorem read_put (p : Parser V S) (e : Term V S) : (p.put e).read = p.read ++ e.tokens := by
  simp [read, put]

theorem Whole.put {e : Term V S} (hp : p.Whole) (he : e.Whole) : (p.put e).Whole := by
  intro e' he'
  rcases List.mem_cons.mp he' with rfl | he'
  · exact he
  · exact hp e' he'

/-- A token that is accepted is read: the operands stand for one token more. -/
theorem read_push {t : Token V S} (h : p.push t = .ok p') : p'.read = p.read ++ [t] := by
  cases t with
  | ident s =>
    cases h
    exact read_put p _
  | const v =>
    cases h
    exact read_put p _
  | lambda =>
    obtain ⟨b, body, rest, ho, rfl⟩ := push_lambda_eq_ok_iff.mp h
    simp [read, ho, Term.tokens]
  | apply =>
    obtain ⟨fn, arg, rest, ho, rfl⟩ := push_apply_eq_ok_iff.mp h
    simp [read, ho, Term.tokens]
  | unknown kind => cases h

theorem Whole.push {t : Token V S} (hp : p.Whole) (h : p.push t = .ok p') : p'.Whole := by
  cases t with
  | ident s =>
    cases h
    exact hp.put Term.whole_var
  | const v =>
    cases h
    exact hp.put Term.whole_const
  | lambda =>
    obtain ⟨b, body, rest, ho, rfl⟩ := push_lambda_eq_ok_iff.mp h
    simp only [Whole, ho, List.forall_mem_cons] at hp
    exact Whole.put (p := ⟨rest⟩) hp.2.2 hp.1
  | apply =>
    obtain ⟨fn, arg, rest, ho, rfl⟩ := push_apply_eq_ok_iff.mp h
    simp only [Whole, ho, List.forall_mem_cons] at hp
    exact Whole.put (p := ⟨rest⟩) hp.2.2 ⟨hp.2.1, hp.1⟩
  | unknown kind => cases h

theorem read_pushAll {offset : Nat} {tokens : List (Token V S)} (h : p.pushAll offset tokens = .ok p') :
    p'.read = p.read ++ tokens := by
  induction tokens generalizing p offset with
  | nil =>
    cases h
    simp
  | cons t rest ih =>
    simp only [pushAll] at h
    split at h
    · rename_i q hq
      rw [ih h, read_push hq]
      simp
    · cases h

theorem Whole.pushAll {offset : Nat} {tokens : List (Token V S)} (hp : p.Whole)
    (h : p.pushAll offset tokens = .ok p') : p'.Whole := by
  induction tokens generalizing p offset with
  | nil =>
    cases h
    exact hp
  | cons t rest ih =>
    simp only [Parser.pushAll] at h
    split at h
    · rename_i q hq
      exact ih (hp.push hq) h
    · cases h

/-! ### Operands -/

/-- After a token there is an operand: the tokens read are those of the operands. -/
theorem isEmpty_of_push {t : Token V S} (h : p.push t = .ok p') : p'.isEmpty = false := by
  have hread := read_push h
  cases hoperands : p'.operands with
  | nil => simp [read, hoperands] at hread
  | cons e rest => simp [isEmpty, hoperands]

/-- No token is refused as an end that comes too early. -/
theorem push_ne_endOfInput {t : Token V S} {fault : ParseFault} (h : p.push t = .error fault) :
    fault ≠ .endOfInput := by
  rintro rfl
  cases t with
  | const v => cases h
  | ident s => cases h
  | lambda =>
    rw [push] at h
    split at h <;> cases h
  | apply =>
    rw [push] at h
    split at h <;> cases h
  | unknown kind => cases h

theorem result_error {fault : ParseFault} (h : p.result = .error fault) : fault = .endOfInput := by
  rw [result] at h
  split at h <;> cases h
  rfl

end Parser

namespace Term

variable {V S : Type}

/-! ### Parsing -/

theorem parse_eq_ok_iff {tokens : List (Token V S)} {e : Term V S} :
    parse tokens = .ok e ↔ ∃ p, Parser.pushAll {} 0 tokens = .ok p ∧ p.operands = [e] := by
  unfold parse
  split
  · rename_i fault hp
    simp [hp]
  · rename_i p hp
    simp only [hp, Except.ok.injEq, exists_eq_left', ← Parser.result_eq_ok_iff]
    split <;> simp_all

theorem parse_tokens {e : Term V S} (h : e.Whole) : parse e.tokens = .ok e := by
  refine parse_eq_ok_iff.mpr ⟨Parser.put {} e, ?_, rfl⟩
  simpa [Parser.pushAll] using Parser.pushAll_tokens h {} 0 []

/-- What parses to a term is the tokens of it, and the term is whole. -/
theorem of_parse_eq_ok {tokens : List (Token V S)} {e : Term V S} (h : parse tokens = .ok e) :
    e.Whole ∧ e.tokens = tokens := by
  obtain ⟨p, hp, ho⟩ := parse_eq_ok_iff.mp h
  have hwhole : p.Whole := Parser.Whole.pushAll (p := {}) (fun _ h => by cases h) hp
  have hread := Parser.read_pushAll hp
  refine ⟨hwhole e (by simp [ho]), ?_⟩
  simpa [Parser.read, ho] using hread

/-- Encoding and parsing are inverse to each other: whole terms are parsed back from their encoding, a sequence that
    parses is the encoding of what it parses to, so exactly the encodings of whole terms parse, and no two sequences
    parse to one term. -/
theorem parse_encode_inverse :
    (∀ e : Term V S, e.Whole → parse e.encode = .ok e) ∧
    (∀ (tokens : List (Token V S)) (e : Term V S), parse tokens = .ok e → e.encode = tokens) ∧
    (∀ tokens : List (Token V S), (∃ e, parse tokens = .ok e) ↔ ∃ e : Term V S, e.Whole ∧ e.encode = tokens) ∧
    (∀ (tokens tokens' : List (Token V S)) (e : Term V S),
      parse tokens = .ok e → parse tokens' = .ok e → tokens = tokens') := by
  simp only [encode_eq_tokens]
  refine ⟨fun e => parse_tokens, fun tokens e h => (of_parse_eq_ok h).2, fun tokens => ⟨?_, ?_⟩, ?_⟩
  · rintro ⟨e, h⟩
    exact ⟨e, of_parse_eq_ok h⟩
  · rintro ⟨e, he, rfl⟩
    exact ⟨e, parse_tokens he⟩
  · intro tokens tokens' e h h'
    exact (of_parse_eq_ok h).2.symm.trans (of_parse_eq_ok h').2

/-- An abstraction whose body is an application is parsed back, and its tokens are what parses to it. -/
theorem parse_encode_nested :
    parse (lam 0 (app (var 0) (const true)) : Term Bool Nat).encode = .ok (lam 0 (app (var 0) (const true))) ∧
    (lam 0 (app (var 0) (const true)) : Term Bool Nat).encode = [.ident 0, .ident 0, .const true, .apply, .lambda] :=
  ⟨parse_encode_inverse.1 _ (by decide), parse_encode_inverse.2.1 _ _ rfl⟩

end Term

end PostfixLambda
