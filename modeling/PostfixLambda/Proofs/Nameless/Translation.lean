import PostfixLambda.Proofs.Nameless.Basic
import PostfixLambda.Proofs.Term.Names

/-! The nameless form of a term. It is taken below a scope, the list of the binders around the term, the nearest first.
    Proofs use a more general form, `denote`, in which the free names of a term may stand for any nameless terms: it
    depends on the free names only, and a substitution passes through it to what the names stand for. -/

namespace PostfixLambda

variable {V S : Type} [DecidableEq S]

/-- What a name refers to below a scope: its nearest binder, or itself if it has none. -/
def Ref.resolve : (scope : List S) → S → Ref S
  | [], s => .free s
  | b :: scope, s => if s = b then .bound 0 else (resolve scope s).deeper

namespace Term

/-- The nameless form of a term below a scope. -/
def nameless (scope : List S) : Term V S → Nameless V S
  | var s => .ref (Ref.resolve scope s)
  | const v => .const v
  | lam b body => .lam (body.nameless (b :: scope))
  | app fn arg => .app (fn.nameless scope) (arg.nameless scope)
  | hole => .hole

/-- Terms that differ in the names of their binders only. -/
def AlphaEq (e e' : Term V S) : Prop := e.nameless [] = e'.nameless []

/-! ### Names that stand for terms -/

/-- What names stand for below a binder: its own name for the binder, all others for what they stood for. -/
def bindName (b : S) (σ : S → Nameless V S) (s : S) : Nameless V S :=
  if s = b then .ref (.bound 0) else (σ s).shift

/-- The nameless form of a term whose free names stand for the terms `σ`. -/
def denote (σ : S → Nameless V S) : Term V S → Nameless V S
  | var s => σ s
  | const v => .const v
  | lam b body => .lam (body.denote (bindName b σ))
  | app fn arg => .app (fn.denote σ) (arg.denote σ)
  | hole => .hole

theorem nameless_eq_denote (scope : List S) (e : Term V S) :
    e.nameless scope = e.denote fun s => .ref (Ref.resolve scope s) := by
  induction e generalizing scope with
  | var s => rfl
  | const v => rfl
  | hole => rfl
  | app fn arg ihfn iharg => simp only [nameless, denote, ihfn, iharg]
  | lam b body ih =>
    simp only [nameless, denote, ih]
    congr 2
    funext s
    by_cases hs : s = b
    · simp [Ref.resolve, bindName, hs]
    · simp [Ref.resolve, bindName, hs, Nameless.shift, Nameless.rename]

theorem denote_congr {σ τ : S → Nameless V S} {e : Term V S} (h : ∀ s, e.Free s → σ s = τ s) :
    e.denote σ = e.denote τ := by
  induction e generalizing σ τ with
  | var s => exact h s rfl
  | const v => rfl
  | hole => rfl
  | app fn arg ihfn iharg =>
    simp only [denote, ihfn fun s hs => h s (Or.inl hs), iharg fun s hs => h s (Or.inr hs)]
  | lam b body ih =>
    simp only [denote]
    congr 1
    refine ih fun s hs => ?_
    by_cases hb : s = b
    · simp [bindName, hb]
    · simp only [bindName, if_neg hb, h s ⟨Ne.symm hb, hs⟩]

theorem subst_denote (τ : Ref S → Nameless V S) (σ : S → Nameless V S) (e : Term V S) :
    (e.denote σ).subst τ = e.denote fun s => (σ s).subst τ := by
  induction e generalizing σ τ with
  | var s => rfl
  | const v => rfl
  | hole => rfl
  | app fn arg ihfn iharg => simp only [denote, Nameless.subst, ihfn, iharg]
  | lam b body ih =>
    simp only [denote, Nameless.subst, ih]
    congr 2
    funext s
    by_cases hs : s = b
    · simp [bindName, hs, Nameless.subst, Nameless.under]
    · simp only [bindName, if_neg hs, Nameless.shift_subst]

theorem shift_denote (σ : S → Nameless V S) (e : Term V S) : (e.denote σ).shift = e.denote fun s => (σ s).shift := by
  simp only [Nameless.shift_eq_subst, subst_denote]

/-- A binder whose name is not free in a term binds nothing in it. -/
theorem denote_bindName_of_not_free {b : S} {e : Term V S} (h : ¬e.Free b) (σ : S → Nameless V S) :
    e.denote (bindName b σ) = (e.denote σ).shift := by
  rw [shift_denote]
  refine denote_congr fun s hs => ?_
  have hb : s ≠ b := by
    rintro rfl
    exact h hs
  simp only [bindName, if_neg hb]

/-- Taking the binder away from what a body denotes gives its name the meaning of what takes its place. -/
theorem instantiate_denote (b : S) (σ : S → Nameless V S) (body : Term V S) (u : Nameless V S) :
    (body.denote (bindName b σ)).instantiate u = body.denote fun s => if s = b then u else σ s := by
  rw [Nameless.instantiate, subst_denote]
  congr 1
  funext s
  by_cases hs : s = b
  · simp [bindName, hs, Nameless.subst, Nameless.outer]
  · simp only [bindName, if_neg hs]
    exact Nameless.instantiate_shift _ _

end Term

end PostfixLambda
