import PostfixLambda.Proofs.Term.RoundTrip

/-! Beginnings of programs. Whatever operands a parser holds, some tokens bring them to one term: so a sequence of
    tokens can be continued to a program exactly if a parser accepts all of them. A parse error therefore stands at the
    first token that no program goes on with, and a parser that is asked token by token accepts just what can still
    become a program, however often it was refused, asked for its term or reset before. -/

namespace PostfixLambda

open PostfixLambda.Parser

variable {V S : Type}

namespace Parser

variable {p q : Parser V S} {offset : Nat}

/-! ### Reading on -/

theorem pushAll_append (p : Parser V S) (offset : Nat) (front back : List (Token V S)) :
    p.pushAll offset (front ++ back) = (p.pushAll offset front).bind (·.pushAll (offset + front.length) back) := by
  induction front generalizing p offset with
  | nil => rfl
  | cons t front ih =>
    rw [List.cons_append, pushAll, pushAll, List.length_cons]
    cases p.push t with
    | error fault => rfl
    | ok p' =>
      simp only [ih, Nat.add_assoc, Nat.add_comm 1]

theorem pushAll_append_eq_ok_iff {front back : List (Token V S)} :
    p.pushAll offset (front ++ back) = .ok q ↔
      ∃ r, p.pushAll offset front = .ok r ∧ r.pushAll (offset + front.length) back = .ok q := by
  rw [pushAll_append]
  cases p.pushAll offset front with
  | error err => simp [Except.bind]
  | ok r => simp [Except.bind]

theorem pushAll_singleton_eq_ok_iff {t : Token V S} : p.pushAll offset [t] = .ok q ↔ p.push t = .ok q := by
  rw [pushAll]
  cases p.push t with
  | error fault => simp
  | ok p' => simp [pushAll]

/-- A refusal stands at the first token that is not accepted: all before it are. -/
theorem pushAll_eq_error {tokens : List (Token V S)} {err : ParseError} (h : p.pushAll offset tokens = .error err) :
    ∃ front t back r, tokens = front ++ t :: back ∧ p.pushAll offset front = .ok r ∧ r.push t = .error err.fault ∧
      err.offset = offset + front.length := by
  induction tokens generalizing p offset with
  | nil => cases h
  | cons t tokens ih =>
    rw [pushAll] at h
    split at h
    · rename_i p' hp
      obtain ⟨front, t', back, r, rfl, hfront, hfault, hoffset⟩ := ih h
      refine ⟨t :: front, t', back, r, rfl, ?_, hfault, ?_⟩
      · rw [pushAll, hp]
        exact hfront
      · rw [hoffset, List.length_cons]
        omega
    · rename_i fault hfault
      cases h
      exact ⟨[], t, tokens, p, rfl, rfl, hfault, rfl⟩

/-- Some tokens, one at least, bring the operands to one term: they are applied from the latest on, and where there is
    none a name comes first. -/
theorem exists_completion [Inhabited S] (p : Parser V S) (offset : Nat) :
    ∃ more, more ≠ [] ∧ ∃ e, p.pushAll offset more = .ok ⟨[e]⟩ := by
  obtain ⟨operands⟩ := p
  cases operands with
  | nil => exact ⟨[.ident default], List.cons_ne_nil _ _, .var default, rfl⟩
  | cons e rest =>
    induction rest generalizing e offset with
    | nil => exact ⟨[.ident default, .apply], List.cons_ne_nil _ _, .app e (.var default), rfl⟩
    | cons fn rest ih =>
      obtain ⟨more, -, e', hmore⟩ := ih (offset + 1) (.app fn e)
      exact ⟨.apply :: more, List.cons_ne_nil _ _, e', hmore⟩

end Parser

namespace Term

/-! ### Tokens that can be continued -/

/-- Some continuation of the tokens, if only the empty one, is a program. -/
def Viable (tokens : List (Token V S)) : Prop := ∃ more e, parse (tokens ++ more) = .ok (e : Term V S)

theorem exists_longer_program [Inhabited S] {tokens : List (Token V S)} {p : Parser V S}
    (h : pushAll {} 0 tokens = .ok p) : ∃ more, more ≠ [] ∧ ∃ e, parse (tokens ++ more) = .ok e := by
  obtain ⟨more, hmore, e, hcomplete⟩ := p.exists_completion (0 + tokens.length)
  exact ⟨more, hmore, e, parse_eq_ok_iff.mpr ⟨⟨[e]⟩, pushAll_append_eq_ok_iff.mpr ⟨p, h, hcomplete⟩, rfl⟩⟩

theorem viable_iff [Inhabited S] {tokens : List (Token V S)} : Viable tokens ↔ ∃ p, pushAll {} 0 tokens = .ok p := by
  constructor
  · rintro ⟨more, e, h⟩
    obtain ⟨q, hq, -⟩ := parse_eq_ok_iff.mp h
    obtain ⟨p, hp, -⟩ := pushAll_append_eq_ok_iff.mp hq
    exact ⟨p, hp⟩
  · rintro ⟨p, hp⟩
    obtain ⟨more, -, e, h⟩ := exists_longer_program hp
    exact ⟨more, e, h⟩

/-! ### Parse errors -/

/-- A sequence does not parse because a token is refused, or because the operands at its end are not one term. -/
theorem parse_error_cases {tokens : List (Token V S)} {err : ParseError} (h : parse tokens = .error err) :
    (∃ front t back p, tokens = front ++ t :: back ∧ pushAll {} 0 front = .ok p ∧ p.push t = .error err.fault ∧
      err.offset = front.length) ∨
    ∃ p, pushAll {} 0 tokens = .ok p ∧ err = ⟨tokens.length, .endOfInput⟩ := by
  unfold parse at h
  split at h
  · rename_i err' hp
    cases h
    obtain ⟨front, t, back, p, htokens, hfront, hfault, hoffset⟩ := pushAll_eq_error hp
    exact Or.inl ⟨front, t, back, p, htokens, hfront, hfault, hoffset.trans (Nat.zero_add _)⟩
  · rename_i p hp
    split at h
    · cases h
    · rename_i fault hfault
      cases h
      obtain rfl := result_error hfault
      exact Or.inr ⟨p, hp, rfl⟩

/-- A parse error stands at the first token that makes the sequence hopeless. The tokens before it can be continued to a
    program, those up to it cannot; and it stands behind the last token exactly if the end came too early, when the
    whole sequence is a proper beginning of a program. -/
theorem parse_error_first_hopeless [Inhabited S] (tokens : List (Token V S)) (offset : Nat) (fault : ParseFault)
    (h : parse tokens = .error ⟨offset, fault⟩) :
    offset ≤ tokens.length ∧ Viable (tokens.take offset) ∧
    (offset < tokens.length → ¬Viable (tokens.take (offset + 1))) ∧
    (offset = tokens.length ↔ fault = .endOfInput) ∧
    (fault = .endOfInput → ∃ more, more ≠ [] ∧ ∃ e, parse (tokens ++ more) = .ok e) := by
  rcases parse_error_cases h with ⟨front, t, back, p, rfl, hfront, hfault, hoffset⟩ | ⟨p, hp, herr⟩
  · obtain rfl : offset = front.length := hoffset
    have hne : fault ≠ .endOfInput := push_ne_endOfInput hfault
    have htake : (front ++ t :: back).take (front.length + 1) = front ++ [t] := by
      rw [List.take_length_add_append]
      rfl
    refine ⟨by simp, ?_, fun _ => ?_, ?_, fun heq => absurd heq hne⟩
    · rw [List.take_left]
      exact viable_iff.mpr ⟨p, hfront⟩
    · rw [htake, viable_iff]
      rintro ⟨q, hq⟩
      obtain ⟨r, hr, ht⟩ := pushAll_append_eq_ok_iff.mp hq
      -- The token is read where it was refused.
      obtain rfl : p = r := Except.ok.inj (hfront.symm.trans hr)
      rw [pushAll_singleton_eq_ok_iff, hfault] at ht
      cases ht
    · simp [hne]
  · cases herr
    refine ⟨Nat.le_refl _, ?_, fun hlt => absurd hlt (Nat.lt_irrefl _), by simp, fun _ => exists_longer_program hp⟩
    rw [List.take_length]
    exact viable_iff.mpr ⟨p, hp⟩

/-- After a constant and a name a lambda mark has no variable to bind, so the third of four tokens is hopeless. -/
theorem parse_error_first_hopeless_binder :
    parse ([.const true, .ident 0, .lambda, .ident 1] : List (Token Bool Nat)) = .error ⟨2, .notAVariable⟩ ∧
    Viable ([.const true, .ident 0] : List (Token Bool Nat)) ∧
    ¬Viable ([.const true, .ident 0, .lambda] : List (Token Bool Nat)) := by
  have hparse : parse ([.const true, .ident 0, .lambda, .ident 1] : List (Token Bool Nat)) = .error ⟨2, .notAVariable⟩ :=
    rfl
  obtain ⟨-, hbefore, hupto, -⟩ := parse_error_first_hopeless _ _ _ hparse
  exact ⟨hparse, hbefore, hupto (by decide)⟩

end Term

namespace Parser

variable {p : Parser V S}

/-! ### Requests -/

/-- The parser after the requests, and each of them with its reply. -/
def serve (p : Parser V S) : List (Request V S) → Parser V S × List (Request V S × Reply V S)
  | [] => (p, [])
  | request :: rest =>
    let (p', reply) := p.answer request
    let (q, later) := p'.serve rest
    (q, (request, reply) :: later)

/-- The tokens held after a request, by what was replied: those held before and the one that was accepted, or none once
    the term is handed out or the operands are dropped. -/
def holds (held : List (Token V S)) : Request V S × Reply V S → List (Token V S)
  | (.push t, .done) => held ++ [t]
  | (.result, .term _) => []
  | (.reset, _) => []
  | _ => held

/-- The tokens accepted since the parser was last emptied. -/
def held (history : List (Request V S × Reply V S)) : List (Token V S) := history.foldl holds []

/-- What a parser that holds some tokens does about the next request, told by parsing whole sequences. -/
structure Agrees (p : Parser V S) (held : List (Token V S)) : Prop where
  push : ∀ t, (p.answer (.push t)).2 = .done ↔ Term.Viable (held ++ [t])
  result : ∀ e, (p.answer .result).2 = .term e ↔ Term.parse held = .ok e
  endOfInput : (¬∃ e, Term.parse held = .ok e) → (p.answer .result).2 = .refused .endOfInput
  emptied : ∀ e, (p.answer .result).2 = .term e → (p.answer .result).1 = {}
  depth : ∀ request fault, (p.answer request).2 = .refused fault → (p.answer request).1.depth = p.depth
  later : ∀ request fault, (p.answer request).2 = .refused fault → ∀ rest,
    p.serve (request :: rest) = ((p.serve rest).1, (request, .refused fault) :: (p.serve rest).2)

theorem answer_push_cases (p : Parser V S) (t : Token V S) :
    (∃ q, p.push t = .ok q ∧ p.answer (.push t) = (q, .done)) ∨
      ∃ fault, p.push t = .error fault ∧ p.answer (.push t) = (p, .refused fault) := by
  have hrun := InPlace.run_push p t
  cases h : p.push t with
  | ok q =>
    rw [h] at hrun
    exact Or.inl ⟨q, rfl, by simp only [answer, hrun]⟩
  | error fault =>
    rw [h] at hrun
    exact Or.inr ⟨fault, rfl, by simp only [answer, hrun]⟩

theorem answer_result_cases (p : Parser V S) :
    (∃ e, p.operands = [e] ∧ p.answer .result = ({}, .term e)) ∨
      (∀ e, p.operands ≠ [e]) ∧ p.answer .result = (p, .refused .endOfInput) := by
  have hrun := InPlace.run_result p
  cases h : p.result with
  | ok e =>
    rw [h] at hrun
    exact Or.inl ⟨e, result_eq_ok_iff.mp h, by simp only [answer, hrun]⟩
  | error fault =>
    obtain rfl := result_error h
    rw [h] at hrun
    refine Or.inr ⟨fun e ho => ?_, by simp only [answer, hrun]⟩
    rw [result_eq_ok_iff.mpr ho] at h
    cases h

theorem answer_of_refused {request : Request V S} {fault : ParseFault} (h : (p.answer request).2 = .refused fault) :
    p.answer request = (p, .refused fault) := by
  cases request with
  | push t =>
    rcases answer_push_cases p t with ⟨q, -, ha⟩ | ⟨fault', -, ha⟩
    · rw [ha] at h
      cases h
    · rw [ha] at h ⊢
      cases h
      rfl
  | result =>
    rcases answer_result_cases p with ⟨e, -, ha⟩ | ⟨-, ha⟩
    · rw [ha] at h
      cases h
    · rw [ha] at h ⊢
      cases h
      rfl
  | reset => cases h

/-- A request keeps the parser where reading the tokens held takes a fresh one. -/
theorem pushAll_holds {tokens : List (Token V S)} (h : pushAll {} 0 tokens = .ok p) (request : Request V S) :
    pushAll {} 0 (holds tokens (request, (p.answer request).2)) = .ok (p.answer request).1 := by
  cases request with
  | push t =>
    rcases answer_push_cases p t with ⟨q, hq, ha⟩ | ⟨fault, -, ha⟩
    · rw [ha]
      exact pushAll_append_eq_ok_iff.mpr ⟨p, h, pushAll_singleton_eq_ok_iff.mpr hq⟩
    · rw [ha]
      exact h
  | result =>
    rcases answer_result_cases p with ⟨e, -, ha⟩ | ⟨-, ha⟩
    · rw [ha]
      rfl
    · rw [ha]
      exact h
  | reset => rfl

theorem pushAll_foldl_holds {tokens : List (Token V S)} (h : pushAll {} 0 tokens = .ok p) (requests : List (Request V S)) :
    pushAll {} 0 ((p.serve requests).2.foldl holds tokens) = .ok (p.serve requests).1 := by
  induction requests generalizing p tokens with
  | nil => exact h
  | cons request rest ih => exact ih (pushAll_holds h request)

theorem agrees_of_pushAll [Inhabited S] {tokens : List (Token V S)} (h : pushAll {} 0 tokens = .ok p) :
    p.Agrees tokens where
  push t := by
    have hviable : Term.Viable (tokens ++ [t]) ↔ ∃ q, p.push t = .ok q := by
      simp only [Term.viable_iff, pushAll_append_eq_ok_iff, pushAll_singleton_eq_ok_iff, h, Except.ok.injEq,
        exists_eq_left']
    rw [hviable]
    rcases answer_push_cases p t with ⟨q, hq, ha⟩ | ⟨fault, hfault, ha⟩
    · simp [hq, ha]
    · simp [hfault, ha]
  result e := by
    have hparse : Term.parse tokens = .ok e ↔ p.operands = [e] := by
      simp only [Term.parse_eq_ok_iff, h, Except.ok.injEq, exists_eq_left']
    rw [hparse]
    rcases answer_result_cases p with ⟨e', ho, ha⟩ | ⟨hne, ha⟩
    · simp [ho, ha]
    · simp [hne, ha]
  endOfInput hnone := by
    rcases answer_result_cases p with ⟨e, ho, -⟩ | ⟨-, ha⟩
    · exact absurd ⟨e, Term.parse_eq_ok_iff.mpr ⟨p, h, ho⟩⟩ hnone
    · rw [ha]
  emptied e he := by
    rcases answer_result_cases p with ⟨e', -, ha⟩ | ⟨-, ha⟩
    · rw [ha]
    · rw [ha] at he
      cases he
  depth request fault hrefused := by
    rw [answer_of_refused hrefused]
  later request fault hrefused rest := by
    rw [serve, answer_of_refused hrefused]

/-- A parser that is asked token by token agrees with the parsing of whole sequences. After any requests to a fresh
    parser it accepts a token exactly if some program begins with the tokens held and that token, it hands out exactly
    the term that the tokens held parse to and is empty then, refuses to where they parse to none, and goes on after a
    refusal as if it had not been asked. -/
theorem serve_agrees [Inhabited S] (requests : List (Request V S)) :
    (serve {} requests).1.Agrees (held (serve {} requests).2) :=
  agrees_of_pushAll (pushAll_foldl_holds rfl requests)

end Parser

end PostfixLambda
