import PostfixLambda.Proofs.Arith.Words
import PostfixLambda.Proofs.Reduction.NormalOrder

/-! Reduction with the delta rule evaluates arithmetic. A formula is a term in which primitives are applied to their two
    operands, and its value is found from left to right in 64-bit integers. Normal order finds the same value: it turns
    to the left operand first, lets the primitive take it, turns to the right one, and lets the primitive take that,
    which makes two steps for each operation. Where an operation divides by zero, reduction stops just there. -/

namespace PostfixLambda

/-! ### Steps of operands -/

namespace Step

variable {V S F : Type}

/-- A contraction, with the whole term taken into what is around it. -/
def carried {ε : Type} (around : Term V S → Term V S) (attempt : Attempt S ε (Contraction V S)) :
    Attempt S ε (Contraction V S) :=
  ⟨attempt.asked, attempt.result.map fun c => { c with whole := around c.whole }⟩

variable [DecidableEq S] [Domain V F]

/-- What is around a term waits for it: where the term has a redex, its first one is the first of the whole. -/
def Defers (strategy : Strategy S) (around : Term V S → Term V S) (e : Term V S) : Prop :=
  ∀ attempt : Attempt S (Stop (ReduceError V S F)) (Contraction V S), first strategy e = some attempt →
    first strategy (around e) = some (carried around attempt)

theorem defers_arg (strategy : Strategy S) (v : V) (e : Term V S) : Defers (F := F) strategy (.app (.const v)) e := by
  intro attempt h
  -- A constant has no redex, so this is no delta redex yet.
  have hrule : rule? strategy.delta (.app (.const v) e) = none := by
    cases e with
    | const w => cases h
    | var s => rfl
    | lam b body => rfl
    | app fn arg => rfl
    | hole => rfl
  simp only [first, hrule, h]
  rfl

theorem defers_fn (strategy : Strategy S) (r fn arg : Term V S) :
    Defers (F := F) strategy (fun e => .app e r) (.app fn arg) := by
  intro attempt h
  rw [first, h]
  rfl

theorem defers_operand (strategy : Strategy S) (v : V) (r e : Term V S) :
    Defers (F := F) strategy (fun e => .app (.app (.const v) e) r) e := by
  rintro ⟨asked, result⟩ h
  rw [defers_fn strategy r (.const v) e _ (defers_arg strategy v e _ h)]
  cases result <;> rfl

end Step

namespace Reducer

open Step (Defers)

variable {V S F : Type} [DecidableEq S] [Domain V F] [Shown S] {red : Reducer S} {around : Term V S → Term V S}

theorem step_around {e e' : Term V S} (h : Defers (F := F) red.strategy around e)
    (hstep : (red.step e).result = .ok (e', true)) : (red.step (around e)).result = .ok (around e', true) := by
  obtain ⟨c, hc, rfl⟩ := attempt_of_step hstep
  obtain ⟨attempt, hfirst, hresult⟩ := Term.step_eq_some_iff.mp hc
  refine step_of_some (c := { c with whole := around c.whole }) (Term.step_eq_some_iff.mpr ⟨_, h attempt hfirst, ?_⟩)
  simp only [Step.carried, hresult]
  rfl

theorem failure_around {e : Term V S} (h : Defers (F := F) red.strategy around e) {stop : Stop (ReduceError V S F)}
    (hstep : (red.step e).result = .error stop) : (red.step (around e)).result = .error stop := by
  obtain ⟨attempt, hfirst, hresult⟩ := Term.step_eq_error_iff.mp (attempt_of_failure hstep)
  refine step_of_error (Term.step_eq_error_iff.mpr ⟨_, h attempt hfirst, ?_⟩)
  simp only [Step.carried, hresult]
  rfl

theorem Reaches.carry (hdefers : ∀ e, Defers (F := F) red.strategy around e) {k : Nat} {e e' : Term V S}
    (h : red.Reaches k e e') : red.Reaches k (around e) (around e') := by
  induction h with
  | refl e => exact .refl (around e)
  | step hstep _ ih => exact .step (step_around (hdefers _) hstep) ih

/-! ### Constants -/

theorem step_const (red : Reducer S) (v : V) : (red.step (.const v : Term V S)).result = .ok (.const v, false) :=
  step_of_none (Term.step_eq_none_iff.mpr rfl)

theorem step_of_value (hdelta : red.strategy.delta = true) {fn arg v : V}
    (h : Domain.combine (F := F) fn arg = .value v) :
    (red.step (.app (.const fn) (.const arg) : Term V S)).result = .ok (.const v, true) := by
  have hfirst : Step.first (F := F) red.strategy (.app (.const fn) (.const arg)) =
      some (Step.here red.strategy (.app (.const fn) (.const arg)) .delta) := by
    simp only [Step.first, Step.rule?, hdelta, if_true]
  refine step_of_some (c := ⟨.delta, .app (.const fn) (.const arg), .const v, .const v⟩)
    (Term.step_eq_some_iff.mpr ⟨_, hfirst, ?_⟩)
  simp only [Step.here, Step.contract, Term.deltaReduce, h]
  rfl

theorem step_of_fault (hdelta : red.strategy.delta = true) {fn arg : V} {fault : F}
    (h : Domain.combine fn arg = .fault fault) :
    (red.step (.app (.const fn) (.const arg) : Term V S)).result = .error (.error (.combine fn arg fault)) := by
  have hfirst : Step.first (F := F) red.strategy (.app (.const fn) (.const arg) : Term V S) =
      some (Step.here red.strategy (.app (.const fn) (.const arg)) .delta) := by
    simp only [Step.first, Step.rule?, hdelta, if_true]
  refine step_of_error (Term.step_eq_error_iff.mpr ⟨_, hfirst, ?_⟩)
  simp only [Step.here, Step.contract, Term.deltaReduce, h]
  rfl

end Reducer

namespace Arith

/-! ### Formulas -/

inductive Operation where
  | add
  | sub
  | mul
  | div
  deriving DecidableEq, Repr

namespace Operation

def op : Operation → Op
  | add => .add
  | sub => .sub
  | mul => .mul
  | div => .div

/-- What an operation comes to in integers of any size; a quotient is truncated toward zero. -/
def exact : Operation → (a b : Int) → Int
  | add, a, b => a + b
  | sub, a, b => a - b
  | mul, a, b => a * b
  | div, a, b => a.tdiv b

end Operation

/-- An integer wrapped around to a signed one of 64 bits. -/
def wrapped (n : Int) : Int := n.bmod Int64.size

/-- A formula of arithmetic: a 64-bit number, or an operation on two formulas. -/
inductive Formula where
  | number (n : Int64)
  | apply (operation : Operation) (left right : Formula)
  deriving DecidableEq, Repr

namespace Formula

/-- The term of a formula: the primitive is applied to one operand, and the result of that to the other. -/
def term : Formula → Term
  | number n => .const (.int n)
  | apply operation left right => .app (.app (.const (.prim operation.op)) left.term) right.term

def operations : Formula → Nat
  | number _ => 0
  | apply _ left right => left.operations + right.operations + 1

/-- The value of a formula, found from left to right; or the dividend of the first division by zero. -/
def value : Formula → Except Int Int
  | number n => .ok n.toInt
  | apply operation left right =>
    match left.value with
    | .error dividend => .error dividend
    | .ok a =>
      match right.value with
      | .error dividend => .error dividend
      | .ok b => if operation = .div ∧ b = 0 then .error a else .ok (wrapped (operation.exact a b))

end Formula

/-! ### Primitives -/

theorem Operation.isPrimitive (operation : Operation) : operation.op.IsPrimitive := by
  cases operation <;> decide

theorem combine_operand {operation : Operation} {a b : Int64} (h : ¬(operation = .div ∧ b.toInt = 0)) :
    ∃ n : Int64, n.toInt = wrapped (operation.exact a.toInt b.toInt) ∧
      Value.combine ⟨operation.op, 0, [a]⟩ (.int b) = .value (.int n) := by
  cases operation with
  | add => exact ⟨a + b, Int64.toInt_add a b, rfl⟩
  | sub => exact ⟨a - b, Int64.toInt_sub a b, rfl⟩
  | mul => exact ⟨a * b, Int64.toInt_mul a b, rfl⟩
  | div =>
    refine ⟨a / b, Int64.toInt_div a b, ?_⟩
    have hb : b ≠ 0 := by
      rintro rfl
      exact h ⟨rfl, Int64.toInt_zero⟩
    simp [Value.combine, Value.int, Operation.op, Value.evaluate, hb]

theorem combine_zero (a : Int64) : Value.combine ⟨.div, 0, [a]⟩ (.int 0) = .fault .divideByZero := rfl

/-! ### Evaluation -/

/-- The steps of a reducer evaluate a term: they lead to the value, or to a division of the dividend by zero. -/
def Evaluates (red : Reducer Bytes) (e : Term) (steps : Nat) : Except Int Int → Prop
  | .ok n => ∃ m : Int64, m.toInt = n ∧ red.Reaches steps e (.const (.int m))
  | .error dividend => ∃ (m : Int64) (k : Nat) (e' : Term), m.toInt = dividend ∧ red.Reaches k e e' ∧
      (red.step e').result = .error (.error (.combine ⟨.div, 0, [m]⟩ (.int 0) .divideByZero))

section Operands

variable {red : Reducer Bytes} (hdelta : red.strategy.delta = true) (operation : Operation)

include hdelta

/-- The left operand is reduced first, and the primitive takes it. -/
theorem reaches_taken {k : Nat} {left : Term} {m : Int64} (h : red.Reaches k left (.const (.int m))) (right : Term) :
    red.Reaches (k + 1) (.app (.app (.const (.prim operation.op)) left) right)
      (.app (.const ⟨operation.op, 0, [m]⟩) right) := by
  have htake : (red.step (.app (.const (.prim operation.op)) (.const (.int m)) : Term)).result =
      .ok (.const ⟨operation.op, 0, [m]⟩, true) :=
    Reducer.step_of_value hdelta (Value.combine_prim operation.isPrimitive m)
  have hstep := Reducer.step_around (Step.defers_fn red.strategy right _ _) htake
  exact (h.carry (Step.defers_operand red.strategy _ right)).trans (.step hstep (.refl _))

/-- With both operands reduced, the operation is done, unless it divides by zero. -/
theorem evaluates_apply {j k : Nat} {left right : Term} {m n : Int64} (hleft : red.Reaches j left (.const (.int m)))
    (hright : red.Reaches k right (.const (.int n))) :
    Evaluates red (.app (.app (.const (.prim operation.op)) left) right) (j + 1 + k + 1)
      (if operation = .div ∧ n.toInt = 0 then .error m.toInt
        else .ok (wrapped (operation.exact m.toInt n.toInt))) := by
  have hboth := (reaches_taken hdelta operation hleft right).trans (hright.carry (Step.defers_arg red.strategy _))
  by_cases hzero : operation = .div ∧ n.toInt = 0
  · rw [if_pos hzero]
    obtain ⟨rfl, hn⟩ := hzero
    obtain rfl : n = 0 := Int64.toInt_inj.mp hn
    exact ⟨m, _, _, rfl, hboth, Reducer.step_of_fault hdelta (combine_zero m)⟩
  · rw [if_neg hzero]
    obtain ⟨v, hv, hcombine⟩ := combine_operand (a := m) hzero
    exact ⟨v, hv, hboth.trans (.step (Reducer.step_of_value hdelta hcombine) (.refl _))⟩

theorem evaluates (f : Formula) : Evaluates red f.term (2 * f.operations) f.value := by
  induction f with
  | number n => exact ⟨n, rfl, .refl _⟩
  | apply operation left right ihl ihr =>
    simp only [Formula.value, Formula.term, Formula.operations]
    cases hl : left.value with
    | error dividend =>
      have hdefers := Step.defers_operand (F := Value.Fault) red.strategy (Value.prim operation.op) right.term
      rw [hl] at ihl
      obtain ⟨m, k, e', hm, hreaches, hfails⟩ := ihl
      exact ⟨m, k, _, hm, hreaches.carry hdefers, Reducer.failure_around (hdefers e') hfails⟩
    | ok a =>
      rw [hl] at ihl
      obtain ⟨m, rfl, hleft⟩ := ihl
      cases hr : right.value with
      | error dividend =>
        have hdefers := Step.defers_arg (S := Bytes) red.strategy (⟨operation.op, 0, [m]⟩ : Value)
        rw [hr] at ihr
        obtain ⟨n, k, e', hn, hreaches, hfails⟩ := ihr
        exact ⟨n, _, _, hn, (reaches_taken hdelta operation hleft right.term).trans (hreaches.carry hdefers),
          Reducer.failure_around (hdefers e') hfails⟩
      | ok b =>
        rw [hr] at ihr
        obtain ⟨n, rfl, hright⟩ := ihr
        have hsteps : 2 * (left.operations + right.operations + 1) =
            2 * left.operations + 1 + 2 * right.operations + 1 := by omega
        rw [hsteps]
        exact evaluates_apply hdelta operation hleft hright

end Operands

/-- Reduction with the delta rule evaluates formulas. Without a step limit a run ends: with the value of the formula, in
    64-bit integers that wrap around, after two steps for each operation; or, where an operation divides by zero, with
    the fault of the first that does, for the dividend found there and zero. -/
theorem normalize_evaluates (red : Reducer Bytes) (f : Formula) (hdelta : red.strategy.delta = true)
    (hlimit : red.maxSteps = 0) :
    (∀ n, f.value = .ok n →
      ∃ m : Int64, m.toInt = n ∧ red.Gives f.term (.ok (.const (.int m))) (2 * f.operations)) ∧
    ∀ dividend, f.value = .error dividend →
      ∃ (m : Int64) (steps : Nat), m.toInt = dividend ∧
        red.Gives f.term (.error (.returned (.reduce (.combine ⟨.div, 0, [m]⟩ (.int 0) .divideByZero)))) steps := by
  have hevaluates := evaluates hdelta f
  refine ⟨fun n hn => ?_, fun dividend hd => ?_⟩
  · rw [hn] at hevaluates
    obtain ⟨m, hm, hreaches⟩ := hevaluates
    exact ⟨m, hm, Reducer.gives_of_reaches hreaches (Reducer.step_const red (Value.int m)) (Or.inl hlimit)⟩
  · rw [hd] at hevaluates
    obtain ⟨m, k, e', hm, hreaches, hfails⟩ := hevaluates
    rw [← Reducer.stepAfter_sound red k] at hfails
    exact ⟨m, k, hm, Reducer.gives_of_ends hreaches (.failed hfails) (Or.inl hlimit)⟩

/-- The least number divided by minus one wraps around to itself; of two divisions by zero in a sum the left one counts,
    with the dividend that its left operand comes to. -/
theorem normalize_evaluates_division :
    (∃ m : Int64, m.toInt = Int64.minValue.toInt ∧ Reducer.Gives ⟨⟨true, none⟩, 0, none, 0⟩
      (Formula.apply .div (.number Int64.minValue) (.number (-1))).term (.ok (.const (.int m))) 2) ∧
    ∃ (m : Int64) (steps : Nat), m.toInt = 6 ∧ Reducer.Gives ⟨⟨true, none⟩, 0, none, 0⟩
      (Formula.apply .add (.apply .div (.apply .mul (.number 2) (.number 3)) (.apply .sub (.number 1) (.number 1)))
        (.apply .div (.number 7) (.number 0))).term
      (.error (.returned (.reduce (.combine ⟨.div, 0, [m]⟩ (.int 0) .divideByZero)))) steps :=
  ⟨(normalize_evaluates ⟨⟨true, none⟩, 0, none, 0⟩ _ rfl rfl).1 _ (by decide),
    (normalize_evaluates ⟨⟨true, none⟩, 0, none, 0⟩ _ rfl rfl).2 _ (by decide)⟩

end Arith

end PostfixLambda
