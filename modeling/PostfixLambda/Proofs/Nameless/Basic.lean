import PostfixLambda.Term.Basic

/-! Nameless terms: a bound variable is the number of binders between it and its own, a free variable keeps its name.
    Terms that differ in the names of their binders only have one nameless form, and substitution needs no renaming:
    what is put under a binder is shifted instead. Substitution replaces all references at once, bound and free, and
    its laws are proved for all of them together. -/

namespace PostfixLambda

/-- What a variable refers to: the binder that is so many binders further out than the nearest, or a free name. -/
inductive Ref (S : Type) where
  | bound (index : Nat)
  | free (name : S)
  deriving DecidableEq, Repr

/-- A nameless term over constants `V` and free names `S`. -/
inductive Nameless (V S : Type) where
  | ref (r : Ref S)
  | const (value : V)
  | lam (body : Nameless V S)
  | app (fn arg : Nameless V S)
  /-- A missing term. -/
  | hole
  deriving DecidableEq, Repr

namespace Ref

variable {S : Type}

/-- The reference as it reads from under one binder more. -/
def deeper : Ref S → Ref S
  | bound i => bound (i + 1)
  | free s => free s

/-- A change of references, from under a binder: what the binder binds stays. -/
def under (ρ : Ref S → Ref S) : Ref S → Ref S
  | bound 0 => bound 0
  | bound (i + 1) => (ρ (bound i)).deeper
  | free s => (ρ (free s)).deeper

@[simp] theorem under_deeper (ρ : Ref S → Ref S) (r : Ref S) : under ρ r.deeper = (ρ r).deeper := by
  cases r <;> rfl

theorem under_under (ρ ρ' : Ref S → Ref S) (r : Ref S) : under ρ' (under ρ r) = under (fun r => ρ' (ρ r)) r := by
  rcases r with (_ | i) | s
  · rfl
  · exact under_deeper ρ' _
  · exact under_deeper ρ' _

end Ref

namespace Nameless

variable {V S : Type}

/-! ### Changing references -/

/-- The term with its references changed. -/
def rename (ρ : Ref S → Ref S) : Nameless V S → Nameless V S
  | ref r => ref (ρ r)
  | const v => const v
  | lam body => lam (body.rename (Ref.under ρ))
  | app fn arg => app (fn.rename ρ) (arg.rename ρ)
  | hole => hole

/-- The term as it reads from under one binder more. -/
def shift (t : Nameless V S) : Nameless V S := t.rename Ref.deeper

theorem rename_rename (t : Nameless V S) (ρ ρ' : Ref S → Ref S) :
    (t.rename ρ).rename ρ' = t.rename fun r => ρ' (ρ r) := by
  induction t generalizing ρ ρ' with
  | ref r => rfl
  | const v => rfl
  | hole => rfl
  | app fn arg ihfn iharg => simp only [rename, ihfn, iharg]
  | lam body ih =>
    simp only [rename, ih]
    congr 2
    funext r
    exact Ref.under_under ρ ρ' r

theorem shift_rename (t : Nameless V S) (ρ : Ref S → Ref S) : t.shift.rename (Ref.under ρ) = (t.rename ρ).shift := by
  simp only [shift, rename_rename, Ref.under_deeper]

/-! ### Substitution -/

/-- An assignment of terms to references, from under a binder: what the binder binds stays, and the terms are
    shifted. -/
def under (σ : Ref S → Nameless V S) : Ref S → Nameless V S
  | .bound 0 => ref (.bound 0)
  | .bound (i + 1) => (σ (.bound i)).shift
  | .free s => (σ (.free s)).shift

/-- The term with every reference replaced by the term assigned to it, all at once. -/
def subst (σ : Ref S → Nameless V S) : Nameless V S → Nameless V S
  | ref r => σ r
  | const v => const v
  | lam body => lam (body.subst (under σ))
  | app fn arg => app (fn.subst σ) (arg.subst σ)
  | hole => hole

@[simp] theorem under_deeper (σ : Ref S → Nameless V S) (r : Ref S) : under σ r.deeper = (σ r).shift := by
  cases r <;> rfl

theorem under_renamed (σ : Ref S → Nameless V S) (ρ : Ref S → Ref S) (r : Ref S) :
    under σ (Ref.under ρ r) = under (fun r => σ (ρ r)) r := by
  rcases r with (_ | i) | s
  · rfl
  · exact under_deeper σ _
  · exact under_deeper σ _

theorem subst_rename (t : Nameless V S) (ρ : Ref S → Ref S) (σ : Ref S → Nameless V S) :
    (t.rename ρ).subst σ = t.subst fun r => σ (ρ r) := by
  induction t generalizing ρ σ with
  | ref r => rfl
  | const v => rfl
  | hole => rfl
  | app fn arg ihfn iharg => simp only [rename, subst, ihfn, iharg]
  | lam body ih =>
    simp only [rename, subst, ih]
    congr 2
    funext r
    exact under_renamed σ ρ r

theorem rename_under (σ : Ref S → Nameless V S) (ρ : Ref S → Ref S) (r : Ref S) :
    (under σ r).rename (Ref.under ρ) = under (fun r => (σ r).rename ρ) r := by
  rcases r with (_ | i) | s
  · rfl
  · exact shift_rename _ ρ
  · exact shift_rename _ ρ

theorem rename_subst (t : Nameless V S) (σ : Ref S → Nameless V S) (ρ : Ref S → Ref S) :
    (t.subst σ).rename ρ = t.subst fun r => (σ r).rename ρ := by
  induction t generalizing σ ρ with
  | ref r => rfl
  | const v => rfl
  | hole => rfl
  | app fn arg ihfn iharg => simp only [rename, subst, ihfn, iharg]
  | lam body ih =>
    simp only [rename, subst, ih]
    congr 2
    funext r
    exact rename_under σ ρ r

theorem shift_subst (t : Nameless V S) (σ : Ref S → Nameless V S) : t.shift.subst (under σ) = (t.subst σ).shift := by
  simp only [shift, subst_rename, rename_subst]
  congr 1
  funext r
  exact under_deeper σ r

theorem subst_under (σ τ : Ref S → Nameless V S) (r : Ref S) :
    (under σ r).subst (under τ) = under (fun r => (σ r).subst τ) r := by
  rcases r with (_ | i) | s
  · rfl
  · exact shift_subst _ τ
  · exact shift_subst _ τ

/-- One substitution after another is the substitution of what the second makes of the first. -/
theorem subst_subst (t : Nameless V S) (σ τ : Ref S → Nameless V S) :
    (t.subst σ).subst τ = t.subst fun r => (σ r).subst τ := by
  induction t generalizing σ τ with
  | ref r => rfl
  | const v => rfl
  | hole => rfl
  | app fn arg ihfn iharg => simp only [subst, ihfn, iharg]
  | lam body ih =>
    simp only [subst, ih]
    congr 2
    funext r
    exact subst_under σ τ r

theorem under_ref (r : Ref S) : under (ref : Ref S → Nameless V S) r = ref r := by
  rcases r with (_ | i) | s <;> rfl

theorem subst_ref (t : Nameless V S) : t.subst ref = t := by
  induction t with
  | ref r => rfl
  | const v => rfl
  | hole => rfl
  | app fn arg ihfn iharg => simp only [subst, ihfn, iharg]
  | lam body ih =>
    have h : under (ref : Ref S → Nameless V S) = ref := funext under_ref
    simp only [subst, h, ih]

theorem rename_eq_subst (t : Nameless V S) (ρ : Ref S → Ref S) : t.rename ρ = t.subst fun r => ref (ρ r) := by
  rw [← subst_rename, subst_ref]

theorem shift_eq_subst (t : Nameless V S) : t.shift = t.subst fun r => ref r.deeper := rename_eq_subst t _

/-! ### Instantiation -/

/-- The assignment that takes a binder away: its references become `u`, all others read from outside of it. -/
def outer (u : Nameless V S) : Ref S → Nameless V S
  | .bound 0 => u
  | .bound (i + 1) => ref (.bound i)
  | .free s => ref (.free s)

/-- The body of an abstraction with `u` for its bound variable. -/
def instantiate (body u : Nameless V S) : Nameless V S := body.subst (outer u)

@[simp] theorem outer_deeper (u : Nameless V S) (r : Ref S) : outer u r.deeper = ref r := by
  cases r <;> rfl

theorem instantiate_shift (t u : Nameless V S) : t.shift.instantiate u = t := by
  simp only [instantiate, shift, subst_rename, outer_deeper]
  exact subst_ref t

theorem instantiate_subst (t u : Nameless V S) (σ : Ref S → Nameless V S) :
    (t.instantiate u).subst σ = (t.subst (under σ)).instantiate (u.subst σ) := by
  simp only [instantiate, subst_subst]
  congr 1
  funext r
  -- Only the binder that is taken away is replaced by `u`; all else is shifted and then read from outside again.
  rcases r with (_ | i) | s
  · rfl
  · exact (instantiate_shift _ _).symm
  · exact (instantiate_shift _ _).symm

end Nameless

end PostfixLambda
