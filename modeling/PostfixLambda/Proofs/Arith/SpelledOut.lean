import PostfixLambda.Proofs.Arith.ReadBack
import PostfixLambda.Proofs.Reduction.CaptureOnly
import PostfixLambda.Proofs.Reduction.FirstRedex

/-! The delta rule takes back what printing spells out. The words of a normal form parse to that form with every
    primitive that holds an operand applied to it; these applications are the only redexes there are, and each is
    contracted by one step of the delta rule, which needs no renamer and cannot fail. -/

namespace PostfixLambda

/-! ### Runs that ask no renamer -/

namespace Reducer

variable {V S F : Type} [DecidableEq S] [Domain V F] [Shown S]

/-- What a run gives without a renamer, it gives with any, and asks it nothing. -/
theorem unasked_of_gives {red : Reducer S} {e res : Term V S} {k : Nat}
    (h : (red.renamingBy none).Gives (F := F) e (.ok res) k) :
    ∃ fuel run, red.normalize (F := F) fuel .background e = some run ∧ run.result = .ok res ∧ run.steps = k ∧
      run.asked = [] := by
  obtain ⟨fuel, run, hrun, hresult, hsteps⟩ := h
  have hnot : ¬EndsInCapture run.result := by
    rintro ⟨b, v, hcapture⟩
    rw [hresult] at hcapture
    cases hcapture
  cases hrename : red.strategy.rename? with
  | none =>
    have hsame : red.renamingBy none = red := by
      rw [← hrename]
      rfl
    obtain ⟨-, hasked⟩ := normalize_unasked (fun _ _ => ⟨[], .error []⟩) hrun hnot
    exact ⟨fuel, run, hsame ▸ hrun, hresult, hsteps, hasked⟩
  | some rename =>
    have hsame : red.renamingBy (some rename) = red := by
      rw [← hrename]
      rfl
    obtain ⟨hrun', hasked⟩ := normalize_unasked rename hrun hnot
    exact ⟨fuel, run, hsame ▸ hrun', hresult, hsteps, hasked⟩

end Reducer

namespace Arith

/-- What is spelled out is taken back by the delta rule. A term without redexes, whose names are names and whose
    constants are integers and primitives that hold at most one operand, is parsed from its words to the term with
    operands spelled out. From there a run with the delta rule and without a limit returns the term itself, after one
    step for each constant that holds an operand, and never asks its renamer. -/
theorem spelled_out_taken_back (e : Term) (red : Reducer Bytes) (hdelta : red.strategy.delta = true)
    (hlimit : red.maxSteps = 0) (hover : e.Over ⟨Value.Proper 1, IsName, IsName⟩)
    (hnormal : (red.step (F := Value.Fault) e).result = .ok (e, false)) :
    parse (format e.encode) = .ok (spelledOut e) ∧
      ∃ fuel run, red.normalize (F := Value.Fault) fuel .background (spelledOut e) = some run ∧ run.result = .ok e ∧
        run.steps = partials e ∧ run.asked = [] := by
  -- Where there is no redex does not depend on the renamer.
  have hirreducible : Step.Irreducible red.strategy.delta e :=
    Step.first_eq_none_iff.mp (PostfixLambda.Term.step_eq_none_iff.mp (Reducer.attempt_of_no_step hnormal))
  have hfirst : Step.first (F := Value.Fault) (red.renamingBy none).strategy e = none :=
    Step.first_eq_none_iff.mpr hirreducible
  have hreaches : (red.renamingBy none).Reaches (F := Value.Fault) (partials e) (spelledOut e) e :=
    (spells_spelledOut hover).reaches (show (red.renamingBy none).strategy.delta = true from hdelta) hfirst
  have hend : ((red.renamingBy none).step (F := Value.Fault) e).result = .ok (e, false) :=
    Reducer.step_of_none (PostfixLambda.Term.step_eq_none_iff.mpr hfirst)
  exact ⟨parse_format hover, Reducer.unasked_of_gives (Reducer.gives_of_reaches hreaches hend (Or.inl hlimit))⟩

/-- The words of `λx. (x (+ 1)) (/ 0)` have two redexes more than it has, and neither divides by zero. -/
theorem spelled_out_taken_back_two :
    parse "x x + 1 @ @ / 0 @ @ \\" = .ok (.lam "x" (.app (.app (.var "x") (.app (.const (.prim .add)) (.const (.int 1))))
        (.app (.const (.prim .div)) (.const (.int 0))))) ∧
      ∃ fuel run, Reducer.normalize (F := Value.Fault) ⟨⟨true, some Renamer.primes⟩, 0, none, 0⟩ fuel .background
          (.lam "x" (.app (.app (.var "x") (.app (.const (.prim .add)) (.const (.int 1))))
            (.app (.const (.prim .div)) (.const (.int 0)))) : Term) = some run ∧
        run.result = .ok (.lam "x" (.app (.app (.var "x") (.const ⟨.add, 0, [1]⟩)) (.const ⟨.div, 0, [0]⟩))) ∧
        run.steps = 2 ∧ run.asked = [] := by
  have hname : IsName "x" := ⟨Text.solid_byte (by decide), by decide +kernel⟩
  have hadd : Value.Proper 1 ⟨.add, 0, [1]⟩ := .prim (by decide) (Nat.le_refl 1)
  have hdiv : Value.Proper 1 ⟨.div, 0, [0]⟩ := .prim (by decide) (Nat.le_refl 1)
  have hformat : format (.lam "x" (.app (.app (.var "x") (.const ⟨.add, 0, [1]⟩)) (.const ⟨.div, 0, [0]⟩)) : Term).encode =
      "x x + 1 @ @ / 0 @ @ \\" := by decide +kernel
  obtain ⟨hparse, hrun⟩ := spelled_out_taken_back
    (.lam "x" (.app (.app (.var "x") (.const ⟨.add, 0, [1]⟩)) (.const ⟨.div, 0, [0]⟩)))
    ⟨⟨true, some Renamer.primes⟩, 0, none, 0⟩ rfl rfl ⟨hname, ⟨hname, hadd⟩, hdiv⟩ (by decide +kernel)
  exact ⟨hformat ▸ hparse, hrun⟩

end Arith

end PostfixLambda
