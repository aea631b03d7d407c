import PostfixLambda.Substitution.Renamer
import PostfixLambda.Term.Parser

/-! The walk over a term. A term is built anew by emitting it, in postfix order, into a parser; what is done to a
    variable and at a binder is left to the walk's rules. The parts that are still to be emitted are held in an
    agenda, so the walk needs no recursion on the term. -/

namespace PostfixLambda

/-- Why a walk over a term fails. -/
inductive TermError (S : Type) where
  /-- Substituting for `name` under `binder` would capture a free variable of the replacement. -/
  | capture (binder name : S)
  /-- The term has a hole. -/
  | invalidTerm
  /-- The emitted tokens do not build a term. -/
  | misparse (fault : ParseFault)
  deriving DecidableEq, Repr

/-- The text of a term error. -/
def TermError.message {S : Type} [Shown S] : TermError S → Bytes
  | capture binder name =>
    "substituting " ++ Shown.text name ++ " under λ" ++ Shown.text binder ++ " would capture free " ++ Shown.text binder
  | invalidTerm => "invalid expression"
  | misparse fault => fault.message

/-- The outcome of a computation that may ask a renamer: the calls made, and the result. -/
structure Attempt (S ε α : Type) where
  asked : List (Call S)
  result : Except ε α

namespace Walk

variable {V S : Type}

/-- What a walk carries besides its parser: the names whose replacement the binders passed suspend, the free names of
    the replacements seen so far, and the calls of the renamer, the latest first. -/
structure State (S : Type) where
  shadow : List S := []
  known : List (S × List S) := []
  asked : List (Call S) := []

/-- A walk that stopped short: why, and the calls made until then, the latest first. -/
structure Refusal (S : Type) where
  cause : Stop (TermError S)
  asked : List (Call S)

/-- How a walk goes on under a binder: the binder and body to emit, the name that the binder suspends, if any, and
    what the walk carries from there. The body is as large as the one it stands for. -/
structure Scope (body : Term V S) where
  binder : S
  inner : Term V S
  suspended : Option S
  state : State S
  size_eq : inner.size = body.size

/-- The rules of a walk: what stands for a variable, how a scope is entered, and how copying a constant breaks down. -/
structure Rules (V S : Type) where
  leaf : State S → S → Except (Refusal S) (Term V S)
  enter : State S → S → (body : Term V S) → Except (Refusal S) (Scope body)
  dup : Dup V := .sound

/-- An item of the agenda: a part to emit, or a mark that follows its parts. -/
inductive Task (V S : Type) where
  | visit (e : Term V S)
  | apply
  | close (suspended : Option S)

/-- The work that a task stands for. -/
def Task.weight : Task V S → Nat
  | visit e => 2 * e.size
  | apply => 1
  | close _ => 1

/-- The work that an agenda stands for. -/
def weight : List (Task V S) → Nat
  | [] => 0
  | t :: rest => t.weight + weight rest

/-- Emits a mark. -/
def emitMark (st : State S) (out : Parser V S) (t : Token V S) : Except (Refusal S) (Parser V S) :=
  match out.push t with
  | .ok out' => .ok out'
  | .error fault => .error ⟨.error (.misparse fault), st.asked⟩

/-- Does one task: the tasks that it leaves, to be done before all others, and what is carried and emitted then. -/
def advance [DecidableEq S] (rules : Rules V S) (st : State S) (out : Parser V S) :
    Task V S → Except (Refusal S) (List (Task V S) × State S × Parser V S)
  | .visit (.const v) =>
    match rules.dup v with
    | some message => .error ⟨.panic message, st.asked⟩
    | none => .ok ([], st, out.put (.const v))
  | .visit (.var s) =>
    match rules.leaf st s with
    | .ok e => .ok ([], st, out.put e)
    | .error r => .error r
  | .visit (.app fn arg) => .ok ([.visit fn, .visit arg, .apply], st, out)
  | .visit (.lam b body) =>
    match rules.enter st b body with
    | .ok scope => .ok ([.visit scope.inner, .close scope.suspended], scope.state, out.put (.var scope.binder))
    | .error r => .error r
  | .visit .hole => .error ⟨.error .invalidTerm, st.asked⟩
  | .apply =>
    match emitMark st out .apply with
    | .ok out' => .ok ([], st, out')
    | .error r => .error r
  | .close suspended =>
    let st' := match suspended with
      | some s => { st with shadow := st.shadow.erase s }
      | none => st
    match emitMark st' out .lambda with
    | .ok out' => .ok ([], st', out')
    | .error r => .error r

theorem weight_append (a b : List (Task V S)) : weight (a ++ b) = weight a + weight b := by
  induction a with
  | nil => simp [weight]
  | cons t rest ih => simp [weight, ih, Nat.add_assoc]

/-- A task leaves less work than it was. -/
theorem weight_advance [DecidableEq S] {rules : Rules V S} {st st' : State S} {out out' : Parser V S} {t : Task V S}
    {left : List (Task V S)} (h : advance rules st out t = .ok (left, st', out')) : weight left < t.weight := by
  cases t with
  | apply | close =>
    simp only [advance] at h
    split at h <;> cases h
    simp [weight, Task.weight]
  | visit e =>
    cases e with
    | hole => cases h
    | const | var =>
      simp only [advance] at h
      split at h <;> cases h
      simp [weight, Task.weight, Term.size]
    | app fn arg =>
      simp only [advance] at h
      cases h
      simp only [weight, Task.weight, Term.size]
      omega
    | lam b body =>
      simp only [advance] at h
      split at h <;> cases h
      rename_i scope _
      simp only [weight, Task.weight, Term.size, scope.size_eq]
      omega

/-- Does every task of the agenda, and hands out the one term emitted. -/
def drain [DecidableEq S] (rules : Rules V S) (agenda : List (Task V S)) (st : State S) (out : Parser V S) :
    Except (Refusal S) (Term V S × State S) :=
  match agenda with
  | [] =>
    match out.result with
    | .ok e => .ok (e, st)
    | .error fault => .error ⟨.error (.misparse fault), st.asked⟩
  | t :: rest =>
    match _h : advance rules st out t with
    | .ok (left, st', out') => drain rules (left ++ rest) st' out'
    | .error r => .error r
termination_by weight agenda
decreasing_by
  have := weight_advance _h
  simp only [weight_append, weight]
  omega

/-- Builds a term anew by the rules. -/
def run [DecidableEq S] (rules : Rules V S) (st : State S) (e : Term V S) : Attempt S (Stop (TermError S)) (Term V S) :=
  match drain rules [.visit e] st {} with
  | .ok (e', st') => ⟨st'.asked.reverse, .ok e'⟩
  | .error r => ⟨r.asked.reverse, .error r.cause⟩

/-! ### Sizes -/

theorem push_of_emitMark {st : State S} {out out' : Parser V S} {t : Token V S} (h : emitMark st out t = .ok out') :
    out.push t = .ok out' := by
  simp only [emitMark] at h
  split at h <;> simp_all

/-- The nodes that a task will emit. -/
def Task.nodes : Task V S → Nat
  | visit e => e.size
  | apply => 1
  | close _ => 0

/-- The nodes that an agenda will emit. -/
def agendaNodes : List (Task V S) → Nat
  | [] => 0
  | t :: rest => t.nodes + agendaNodes rest

/-- The nodes emitted and still to be emitted. -/
def nodes (agenda : List (Task V S)) (out : Parser V S) : Nat := agendaNodes agenda + Term.totalSize out.operands

/-- If every variable stays a single node, a task keeps the number of nodes. -/
theorem nodes_advance [DecidableEq S] {rules : Rules V S} {st st' : State S} {out out' : Parser V S} {t : Task V S}
    {left : List (Task V S)} (rest : List (Task V S)) (hleaf : ∀ st s e, rules.leaf st s = .ok e → e.size = 1)
    (h : advance rules st out t = .ok (left, st', out')) : nodes (left ++ rest) out' = nodes (t :: rest) out := by
  cases t with
  | apply =>
    simp only [advance] at h
    split at h <;> cases h
    rename_i hp
    obtain ⟨fn, arg, more, ho, rfl⟩ := Parser.push_apply_eq_ok_iff.mp (push_of_emitMark hp)
    simp only [nodes, agendaNodes, Term.totalSize, Task.nodes, ho, Term.size, List.nil_append]
    omega
  | close s =>
    simp only [advance] at h
    split at h <;> cases h
    rename_i hp
    obtain ⟨b, body, more, ho, rfl⟩ := Parser.push_lambda_eq_ok_iff.mp (push_of_emitMark hp)
    simp only [nodes, agendaNodes, Term.totalSize, Task.nodes, ho, Term.size, List.nil_append]
    omega
  | visit e =>
    cases e with
    | const =>
      simp only [advance] at h
      split at h <;> cases h
      simp only [nodes, agendaNodes, Term.totalSize, Task.nodes, Parser.put, Term.size, List.nil_append]
      omega
    | hole => cases h
    | var s =>
      simp only [advance] at h
      split at h <;> cases h
      rename_i hl
      simp only [nodes, agendaNodes, Term.totalSize, Task.nodes, Parser.put, Term.size, List.nil_append, hleaf _ _ _ hl]
      omega
    | app fn arg =>
      cases h
      simp only [nodes, agendaNodes, Task.nodes, Term.size, List.cons_append, List.nil_append]
      omega
    | lam b body =>
      simp only [advance] at h
      split at h <;> cases h
      rename_i scope _
      simp only [nodes, agendaNodes, Term.totalSize, Task.nodes, Parser.put, Term.size, List.cons_append,
        List.nil_append, scope.size_eq]
      omega

/-- If every variable stays a single node, so does the size of the term. -/
theorem nodes_drain [DecidableEq S] {rules : Rules V S} (hleaf : ∀ st s e, rules.leaf st s = .ok e → e.size = 1)
    (agenda : List (Task V S)) (st : State S) (out : Parser V S) {e : Term V S} {st' : State S}
    (h : drain rules agenda st out = .ok (e, st')) : e.size = nodes agenda out := by
  fun_induction drain rules agenda st out with
  | case1 st out e' hr =>
    cases h
    simp [nodes, agendaNodes, Term.totalSize, Parser.result_eq_ok_iff.mp hr]
  | case2 => cases h
  | case3 st out t rest left st₁ out₁ ha ih =>
    rw [ih h, nodes_advance rest hleaf ha]
  | case4 => cases h

end Walk

end PostfixLambda
