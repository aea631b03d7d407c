import Mathlib.Data.List.Basic
import PostfixLambda.Proofs.Reduction.Refinement

/-! The redex that a step contracts is the leftmost of the outermost ones. A part of a term is reached by a search if no
    term around it is a redex and there is neither a hole nor a redex to its left; the first redex or hole is the one
    that is reached so, and there is none exactly in terms without either. What a step leads to differs from the term in
    the part that was contracted, and in nothing else. -/

namespace PostfixLambda

namespace Step

variable {V S F : Type}

/-! ### Parts of a term -/

/-- The term has such a part: at its root, or within. -/
def Part (part e : Term V S) : Prop := ∃ path, plug path part = e

theorem plug_append (path outer : List (Frame V S)) (e : Term V S) : plug (path ++ outer) e = plug outer (plug path e) :=
  List.foldl_append

theorem Part.refl (e : Term V S) : Part e e := ⟨[], rfl⟩

/-- A part of a part is one of the whole. -/
theorem Part.fill {part e : Term V S} (h : Part part e) (frame : Frame V S) : Part part (frame.fill e) := by
  obtain ⟨path, rfl⟩ := h
  exact ⟨path ++ [frame], plug_append path [frame] part⟩

theorem part_cases {part e : Term V S} (h : Part part e) :
    part = e ∨ ∃ (frame : Frame V S) (inner : Term V S), Part part inner ∧ e = frame.fill inner := by
  obtain ⟨path, rfl⟩ := h
  rcases List.eq_nil_or_concat path with rfl | ⟨path, frame, rfl⟩
  · exact Or.inl rfl
  · exact Or.inr ⟨frame, plug path part, ⟨path, rfl⟩, by simp [plug]⟩

theorem part_app_iff {part fn arg : Term V S} :
    Part part (.app fn arg) ↔ part = .app fn arg ∨ Part part fn ∨ Part part arg := by
  constructor
  · intro h
    rcases part_cases h with h | ⟨frame, inner, h, he⟩
    · exact Or.inl h
    · cases frame with
      | fn a =>
        cases he
        exact Or.inr (Or.inl h)
      | arg f =>
        cases he
        exact Or.inr (Or.inr h)
      | body b => cases he
  · rintro (rfl | h | h)
    · exact .refl _
    · exact h.fill (.fn arg)
    · exact h.fill (.arg fn)

theorem part_lam_iff {part body : Term V S} {b : S} : Part part (.lam b body) ↔ part = .lam b body ∨ Part part body := by
  constructor
  · intro h
    rcases part_cases h with h | ⟨frame, inner, h, he⟩
    · exact Or.inl h
    · cases frame with
      | fn a => cases he
      | arg f => cases he
      | body b =>
        cases he
        exact Or.inr h
  · rintro (rfl | h)
    · exact .refl _
    · exact h.fill (.body b)

/-! ### Redexes -/

/-- An abstraction applied to a term or, with the delta rule, a constant applied to a constant. -/
inductive Redex (delta : Bool) : Term V S → Prop where
  | beta (b : S) (body arg : Term V S) : Redex delta (.app (.lam b body) arg)
  | delta (h : delta = true) (fn arg : V) : Redex delta (.app (.const fn) (.const arg))

theorem redex_iff_rule? {delta : Bool} {e : Term V S} : Redex delta e ↔ ∃ rule, rule? delta e = some rule := by
  constructor
  · intro h
    cases h with
    | beta b body arg => exact ⟨.beta, rfl⟩
    | delta h fn arg => exact ⟨.delta, by simp [rule?, h]⟩
  · rintro ⟨rule, h⟩
    unfold rule? at h
    split at h
    · exact .beta _ _ _
    · split at h
      · exact .delta ‹_› _ _
      · cases h
    · cases h

theorem not_redex_iff {delta : Bool} {e : Term V S} : ¬Redex delta e ↔ rule? delta e = none := by
  rw [redex_iff_rule?, ← Option.isSome_iff_exists, Option.not_isSome_iff_eq_none]

/-- There is neither a hole nor a redex in the term. -/
def Irreducible (delta : Bool) (e : Term V S) : Prop := e.Whole ∧ ∀ part, Part part e → ¬Redex delta part

theorem irreducible_leaf {delta : Bool} {e : Term V S} (he : e.Whole)
    (hleaf : ∀ (frame : Frame V S) inner, e ≠ frame.fill inner) : Irreducible delta e := by
  refine ⟨he, fun part hpart hredex => ?_⟩
  rcases part_cases hpart with rfl | ⟨frame, inner, -, h⟩
  · cases hredex with
    | beta b body arg => exact hleaf (.fn arg) _ rfl
    | delta _ fn arg => exact hleaf (.fn (.const arg)) _ rfl
  · exact hleaf frame inner h

theorem irreducible_const (delta : Bool) (v : V) : Irreducible delta (.const v : Term V S) :=
  irreducible_leaf Term.whole_const fun frame inner h => by cases frame <;> cases h

theorem irreducible_var (delta : Bool) (s : S) : Irreducible delta (.var s : Term V S) :=
  irreducible_leaf Term.whole_var fun frame inner h => by cases frame <;> cases h

theorem irreducible_app_iff {delta : Bool} {fn arg : Term V S} :
    Irreducible delta (.app fn arg) ↔ ¬Redex delta (.app fn arg) ∧ Irreducible delta fn ∧ Irreducible delta arg := by
  simp only [Irreducible, part_app_iff, Term.whole_app]
  grind

theorem irreducible_lam_iff {delta : Bool} {b : S} {body : Term V S} :
    Irreducible delta (.lam b body) ↔ Irreducible delta body := by
  have hnot : ¬Redex delta (.lam b body) := fun h => by cases h
  simp only [Irreducible, part_lam_iff, Term.whole_lam]
  grind

/-! ### The way to the first redex -/

/-- What a search passes before it enters a part: in front of an argument, the function. -/
def Frame.Passed (delta : Bool) : Frame V S → Prop
  | .arg f => Irreducible delta f
  | .fn _ => True
  | .body _ => True

/-- A search reaches the part: no term around it is a redex, and what is to the left of it has neither a hole nor a
    redex. -/
def Reached (delta : Bool) : List (Frame V S) → Term V S → Prop
  | [], _ => True
  | frame :: outer, e => ¬Redex delta (frame.fill e) ∧ frame.Passed delta ∧ Reached delta outer (frame.fill e)

theorem reached_concat {delta : Bool} (frame : Frame V S) {path : List (Frame V S)} {e : Term V S} :
    Reached delta (path ++ [frame]) e ↔
      Reached delta path e ∧ ¬Redex delta (frame.fill (plug path e)) ∧ frame.Passed delta := by
  induction path generalizing e with
  | nil => simp [Reached, plug]
  | cons inner path ih =>
    simp only [List.cons_append, Reached, ih, plug, List.foldl_cons]
    grind

/-- In every other term a search reaches a hole or a redex. -/
theorem irreducible_or_reached (delta : Bool) (e : Term V S) :
    Irreducible delta e ∨
      ∃ path part, plug path part = e ∧ Reached delta path part ∧ (part = .hole ∨ Redex delta part) := by
  induction e with
  | const v => exact Or.inl (irreducible_const delta v)
  | var s => exact Or.inl (irreducible_var delta s)
  | hole => exact Or.inr ⟨[], .hole, rfl, trivial, Or.inl rfl⟩
  | lam b body ih =>
    rcases ih with hbody | ⟨path, part, rfl, hreached, hpart⟩
    · exact Or.inl (irreducible_lam_iff.mpr hbody)
    · have hnot : ¬Redex delta (.lam b (plug path part)) := fun h => by cases h
      exact Or.inr ⟨path ++ [.body b], part, plug_append path _ part,
        (reached_concat (.body b)).mpr ⟨hreached, hnot, trivial⟩, hpart⟩
  | app fn arg ihfn iharg =>
    by_cases hredex : Redex delta (.app fn arg)
    · exact Or.inr ⟨[], .app fn arg, rfl, trivial, Or.inr hredex⟩
    · rcases ihfn with hfn | ⟨path, part, rfl, hreached, hpart⟩
      · rcases iharg with harg | ⟨path, part, rfl, hreached, hpart⟩
        · exact Or.inl (irreducible_app_iff.mpr ⟨hredex, hfn, harg⟩)
        · exact Or.inr ⟨path ++ [.arg fn], part, plug_append path _ part,
            (reached_concat (.arg fn)).mpr ⟨hreached, hredex, hfn⟩, hpart⟩
      · exact Or.inr ⟨path ++ [.fn arg], part, plug_append path _ part,
          (reached_concat (.fn arg)).mpr ⟨hreached, hredex, trivial⟩, hpart⟩

/-- The first redex in normal order, with what surrounds it and the rule that contracts it. -/
structure FirstRedex (delta : Bool) (e : Term V S) (path : List (Frame V S)) (redex : Term V S) (rule : Rule) : Prop where
  place : plug path redex = e
  reached : Reached delta path redex
  rule : rule? delta redex = some rule

/-- A hole that comes before every redex, with what surrounds it. -/
structure FirstHole (delta : Bool) (e : Term V S) (path : List (Frame V S)) : Prop where
  place : plug path .hole = e
  reached : Reached delta path .hole

theorem irreducible_or_first (delta : Bool) (e : Term V S) :
    Irreducible delta e ∨ (∃ path, FirstHole delta e path) ∨ ∃ path redex rule, FirstRedex delta e path redex rule := by
  rcases irreducible_or_reached delta e with h | ⟨path, part, hplace, hreached, rfl | hredex⟩
  · exact Or.inl h
  · exact Or.inr (Or.inl ⟨path, hplace, hreached⟩)
  · obtain ⟨rule, hrule⟩ := redex_iff_rule?.mp hredex
    exact Or.inr (Or.inr ⟨path, part, rule, hplace, hreached, hrule⟩)

/-! ### What a search finds first -/

variable [DecidableEq S] [Domain V F] {strategy : Strategy S} {e : Term V S}

theorem first_of_rule? {rule : Rule} (h : rule? strategy.delta e = some rule) :
    first (F := F) strategy e = some (here strategy e rule) := by
  cases e with
  | app fn arg => simp only [first, h]
  | lam => cases h
  | const => cases h
  | var => cases h
  | hole => cases h

theorem first_eq_none_iff : first (F := F) strategy e = none ↔ Irreducible strategy.delta e := by
  induction e with
  | const v => exact iff_of_true rfl (irreducible_const _ v)
  | var s => exact iff_of_true rfl (irreducible_var _ s)
  | hole => exact iff_of_false (by simp [first]) fun h => h.1
  | lam b body ih => rw [irreducible_lam_iff, ← ih, first, Option.map_eq_none_iff]
  | app fn arg ihfn iharg => rw [first_app_eq_none_iff, irreducible_app_iff, not_redex_iff, ihfn, iharg]

/-- Below a term that is no redex, and with nothing to its left, a part is searched as if it stood alone. -/
theorem first_fill {frame : Frame V S} {attempt : Attempt S (Stop (ReduceError V S F)) (Contraction V S)}
    (hnot : ¬Redex strategy.delta (frame.fill e)) (hpassed : frame.Passed strategy.delta)
    (h : first strategy e = some attempt) : first strategy (frame.fill e) = some (within frame attempt) := by
  rw [not_redex_iff] at hnot
  cases frame with
  | fn arg =>
    simp only [Frame.fill] at hnot ⊢
    simp only [first, hnot, h]
  | arg fn =>
    have hfn := first_eq_none_iff (F := F).mpr hpassed
    simp only [Frame.fill] at hnot ⊢
    simp only [first, hnot, hfn, h, Option.map_some]
  | body b => simp only [Frame.fill, first, h, Option.map_some]

/-- A step takes place where a search finds something first. -/
theorem step_of_reached {path : List (Frame V S)} {attempt : Attempt S (Stop (ReduceError V S F)) (Contraction V S)}
    (hreached : Reached strategy.delta path e) (h : first strategy e = some attempt) :
    (plug path e).step strategy = outermost path attempt := by
  induction path generalizing e attempt with
  | nil =>
    rw [Term.step_eq]
    simp only [plug, List.foldl_nil, h, outermost]
  | cons frame path ih =>
    obtain ⟨hnot, hpassed, houter⟩ := hreached
    rw [← outermost_within]
    exact ih houter (first_fill hnot hpassed h)

end Step

namespace Reducer

open Step

variable {V S F : Type}

/-! ### Answers -/

section AnswerAt

variable (e : Term V S) (path : List (Frame V S))

/-- The answer of a step that contracts a part of `e`: what it is contracted to stands in its place, and if it cannot be
    contracted, `e` is left as it is. -/
def answerAt : Except (Stop (ReduceError V S F)) (Term V S) → Except Bytes (Answer V S F)
  | .ok reduct => .ok ⟨plug path reduct, true, none⟩
  | .error (.error error) => .ok ⟨e, false, some error⟩
  | .error (.panic message) => .error message

variable {e path} {result : Except (Stop (ReduceError V S F)) (Term V S)}

theorem answerAt_ne_normal : answerAt e path result ≠ .ok ⟨e, false, none⟩ := by
  rcases result with (error | message) | reduct <;> simp [answerAt]

theorem answerAt_cases {answer : Answer V S F} (h : answerAt e path result = .ok answer) :
    answer.further = true ∧ answer.error? = none ∨ answer.further = false ∧ answer.term = e := by
  rcases result with (error | message) | reduct
  · cases h
    exact Or.inr ⟨rfl, rfl⟩
  · cases h
  · cases h
    exact Or.inl ⟨rfl, rfl⟩

end AnswerAt

variable [DecidableEq S] [Domain V F] [Shown S] {red : Reducer S} {e : Term V S}

/-- What a step from `e` comes to, by what the recursion on the term finds first. -/
def steppedBy (red : Reducer S) (e : Term V S) :
    Option (Attempt S (Stop (ReduceError V S F)) (Contraction V S)) → Stepped V S F
  | none => ⟨.ok (e, false), [], []⟩
  | some ⟨asked, .ok c⟩ => ⟨.ok (c.whole, true), red.logged fun _ => stepLine (red.steps + 1) c, asked⟩
  | some ⟨asked, .error stop⟩ => ⟨.error stop, [], asked⟩

theorem step_eq_steppedBy (red : Reducer S) (e : Term V S) :
    red.step e = red.steppedBy e (first (F := F) red.strategy e) := by
  rw [step_sound, Term.step_eq]
  rcases first (F := F) red.strategy e with _ | ⟨asked, stop | c⟩
  · rfl
  · rfl
  · rfl

theorem answer_of_irreducible (h : Irreducible red.strategy.delta e) :
    red.answer (F := F) e = .ok ⟨e, false, none⟩ := by
  rw [answer, step_eq_steppedBy, first_eq_none_iff.mpr h]
  rfl

theorem answer_of_outermost {path : List (Frame V S)} {attempt : Attempt S (Stop (ReduceError V S F)) (Contraction V S)}
    (h : e.step red.strategy = outermost path attempt) :
    red.answer e = answerAt e path (attempt.result.map Contraction.whole) := by
  obtain ⟨asked, (error | message) | c⟩ := attempt
  · simp only [answer, step_sound, h, outermost]
    rfl
  · simp only [answer, step_sound, h, outermost]
    rfl
  · simp only [answer, step_sound, h, outermost]
    rfl

theorem answer_of_firstHole {path : List (Frame V S)} (h : FirstHole red.strategy.delta e path) :
    red.answer (F := F) e = .ok ⟨e, false, some (.term .invalidTerm)⟩ := by
  have hstep := step_of_reached (F := F) h.reached rfl
  rw [h.place] at hstep
  exact answer_of_outermost hstep

theorem answer_of_firstRedex {path : List (Frame V S)} {redex : Term V S} {rule : Rule}
    (h : FirstRedex red.strategy.delta e path redex rule) :
    red.answer (F := F) e = answerAt e path (contract red.strategy redex rule).result := by
  have hstep := step_of_reached (F := F) h.reached (first_of_rule? h.rule)
  rw [h.place] at hstep
  rw [answer_of_outermost hstep, here]
  cases (contract (F := F) red.strategy redex rule).result <;> rfl

/-- Neither a step nor an error is answered exactly for terms without a redex and without a hole. -/
theorem answer_eq_normal_iff : red.answer (F := F) e = .ok ⟨e, false, none⟩ ↔ Irreducible red.strategy.delta e := by
  refine ⟨fun h => ?_, answer_of_irreducible⟩
  rcases irreducible_or_first red.strategy.delta e with hnone | ⟨path, hhole⟩ | ⟨path, redex, rule, hredex⟩
  · exact hnone
  · rw [answer_of_firstHole hhole] at h
    cases h
  · rw [answer_of_firstRedex hredex] at h
    exact absurd h answerAt_ne_normal

theorem answer_cases {answer : Answer V S F} (h : red.answer e = .ok answer) :
    answer.further = true ∧ answer.error? = none ∨ answer.further = false ∧ answer.term = e := by
  rcases irreducible_or_first red.strategy.delta e with hnone | ⟨path, hhole⟩ | ⟨path, redex, rule, hredex⟩
  · rw [answer_of_irreducible hnone] at h
    cases h
    exact Or.inr ⟨rfl, rfl⟩
  · rw [answer_of_firstHole hhole] at h
    cases h
    exact Or.inr ⟨rfl, rfl⟩
  · rw [answer_of_firstRedex hredex] at h
    exact answerAt_cases h

/-- A step contracts the first redex in normal order, and nothing else. It comes to what the recursion on the term finds
    first: the term itself if it is a redex, or else the first in the function of an application, then in its argument,
    or in the body of an abstraction. Every term is without holes and redexes, or has a first hole or a first redex: a
    redex is contracted in its place, or the error is handed back with the term as it was; so it is for the hole; and
    without either, and only then, the term is handed back without an error. -/
theorem step_contracts_first (red : Reducer S) (e : Term V S) :
    red.step e = red.steppedBy e (first (F := F) red.strategy e) ∧
    (∀ path redex rule, FirstRedex red.strategy.delta e path redex rule →
      red.answer (F := F) e = answerAt e path (contract red.strategy redex rule).result) ∧
    (∀ path, FirstHole red.strategy.delta e path →
      red.answer (F := F) e = .ok ⟨e, false, some (.term .invalidTerm)⟩) ∧
    (red.answer (F := F) e = .ok ⟨e, false, none⟩ ↔ Irreducible red.strategy.delta e) ∧
    (Irreducible red.strategy.delta e ∨ (∃ path, FirstHole red.strategy.delta e path) ∨
      ∃ path redex rule, FirstRedex red.strategy.delta e path redex rule) ∧
    ∀ answer, red.answer (F := F) e = .ok answer →
      answer.further = true ∧ answer.error? = none ∨ answer.further = false ∧ answer.term = e :=
  ⟨step_eq_steppedBy red e, fun _ _ _ => answer_of_firstRedex, fun _ => answer_of_firstHole, answer_eq_normal_iff,
    irreducible_or_first red.strategy.delta e, fun _ => answer_cases⟩

/-- A hole to the left of a redex comes first. -/
example :
    answer (F := Arith.Value.Fault) ⟨⟨false, none⟩, 0, none, 0⟩
        (.app (.app (.var [0x78]) .hole) (.app (.lam [0x79] (.var [0x79])) (.var [0x7A])) : Term Arith.Value Bytes) =
      .ok ⟨.app (.app (.var [0x78]) .hole) (.app (.lam [0x79] (.var [0x79])) (.var [0x7A])), false,
        some (.term .invalidTerm)⟩ := by
  decide +kernel

end Reducer

end PostfixLambda
