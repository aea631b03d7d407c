import Mathlib.Logic.Relation
import PostfixLambda.Proofs.Nameless.Reduction

/-! Beta reduction at any place and in any order, put in a standard order: first the steps at the head, then those
    inside of what the head steps come to, part by part. A step anywhere after a standard reduction can be worked into
    it, so every reduction can be made standard; and a standard reduction to a normal form is one in normal order. Hence
    normal order misses no normal form. -/

namespace PostfixLambda.Nameless

open Relation

variable {V S F : Type}

/-! ### Beta reduction -/

/-- An abstraction applied to a term is contracted, anywhere in a term. -/
inductive Beta : Nameless V S → Nameless V S → Prop where
  | contract (body arg : Nameless V S) : Beta (app (lam body) arg) (body.instantiate arg)
  | fn {fn fn' : Nameless V S} (arg : Nameless V S) (h : Beta fn fn') : Beta (app fn arg) (app fn' arg)
  | arg (fn : Nameless V S) {arg arg' : Nameless V S} (h : Beta arg arg') : Beta (app fn arg) (app fn arg')
  | body {body body' : Nameless V S} (h : Beta body body') : Beta (lam body) (lam body')

theorem isRedex_app_iff {fn arg : Nameless V S} : (app fn arg).isRedex false = true ↔ ∃ body, fn = lam body := by
  cases fn with
  | lam body => simp [isRedex]
  | const v => cases arg <;> simp [isRedex]
  | ref r => simp [isRedex]
  | app f a => simp [isRedex]
  | hole => simp [isRedex]

theorem not_isRedex_app {fn arg : Nameless V S} (h : ∀ body, fn ≠ lam body) : (app fn arg).isRedex false = false := by
  rw [Bool.eq_false_iff, ne_eq, isRedex_app_iff]
  rintro ⟨body, rfl⟩
  exact h body rfl

/-- The terms without a redex are those that no step of beta reduction leaves. -/
theorem normal_iff_no_beta {t : Nameless V S} : t.Normal false ↔ ∀ u, ¬Beta t u := by
  induction t with
  | ref r =>
    refine ⟨fun _ u hu => ?_, fun _ => trivial⟩
    cases hu
  | const v =>
    refine ⟨fun _ u hu => ?_, fun _ => trivial⟩
    cases hu
  | hole =>
    refine ⟨fun _ u hu => ?_, fun _ => trivial⟩
    cases hu
  | lam body ih =>
    refine ih.trans ⟨fun h u hu => ?_, fun h u hu => h _ (.body hu)⟩
    cases hu with
    | body hu => exact h _ hu
  | app fn arg ihfn iharg =>
    simp only [Normal, ihfn, iharg]
    constructor
    · rintro ⟨hr, hfn, harg⟩ u hu
      cases hu with
      | contract body arg => cases hr
      | fn _ hu => exact hfn _ hu
      | arg _ hu => exact harg _ hu
    · intro h
      refine ⟨not_isRedex_app ?_, fun u hu => h _ (.fn arg hu), fun u hu => h _ (.arg fn hu)⟩
      rintro body rfl
      exact h _ (.contract body arg)

/-! ### Steps at the head -/

/-- The abstraction at the head of a term is contracted with the first of its arguments. -/
inductive Head : Nameless V S → Nameless V S → Prop where
  | contract (body arg : Nameless V S) : Head (app (lam body) arg) (body.instantiate arg)
  | fn {fn fn' : Nameless V S} (arg : Nameless V S) (h : Head fn fn') : Head (app fn arg) (app fn' arg)

theorem Head.subst {t u : Nameless V S} (h : Head t u) (σ : Ref S → Nameless V S) :
    Head (t.subst σ) (u.subst σ) := by
  induction h with
  | contract body arg =>
    rw [instantiate_subst]
    exact .contract _ _
  | fn arg h ih => exact .fn _ ih

theorem heads_subst {t u : Nameless V S} (h : ReflTransGen Head t u) (σ : Ref S → Nameless V S) :
    ReflTransGen Head (t.subst σ) (u.subst σ) :=
  h.lift _ fun _ _ step => step.subst σ

theorem heads_fn {fn fn' : Nameless V S} (h : ReflTransGen Head fn fn') (arg : Nameless V S) :
    ReflTransGen Head (app fn arg) (app fn' arg) :=
  h.lift (fun t => app t arg) fun _ _ step => .fn arg step

/-! ### Standard reductions -/

/-- A reduction in standard order: steps at the head lead to a term of the shape of the result, and then its parts
    are reduced, each in standard order. -/
inductive Standard : Nameless V S → Nameless V S → Prop where
  | ref {t : Nameless V S} {r : Ref S} (h : ReflTransGen Head t (ref r)) : Standard t (ref r)
  | const {t : Nameless V S} {v : V} (h : ReflTransGen Head t (const v)) : Standard t (const v)
  | hole {t : Nameless V S} (h : ReflTransGen Head t hole) : Standard t hole
  | lam {t body body' : Nameless V S} (h : ReflTransGen Head t (lam body)) (hbody : Standard body body') :
      Standard t (lam body')
  | app {t fn fn' arg arg' : Nameless V S} (h : ReflTransGen Head t (app fn arg)) (hfn : Standard fn fn')
      (harg : Standard arg arg') : Standard t (app fn' arg')

namespace Standard

theorem refl (t : Nameless V S) : Standard t t := by
  induction t with
  | ref r => exact .ref .refl
  | const v => exact .const .refl
  | hole => exact .hole .refl
  | lam body ih => exact .lam .refl ih
  | app fn arg ihfn iharg => exact .app .refl ihfn iharg

theorem after_heads {t u v : Nameless V S} (h : ReflTransGen Head t u) (huv : Standard u v) : Standard t v := by
  cases huv with
  | ref hu => exact .ref (h.trans hu)
  | const hu => exact .const (h.trans hu)
  | hole hu => exact .hole (h.trans hu)
  | lam hu hbody => exact .lam (h.trans hu) hbody
  | app hu hfn harg => exact .app (h.trans hu) hfn harg

theorem rename {t u : Nameless V S} (h : Standard t u) (ρ : Ref S → Ref S) : Standard (t.rename ρ) (u.rename ρ) := by
  -- Renaming is a substitution, so the steps at the head carry over.
  have heads {t u : Nameless V S} (h : ReflTransGen Head t u) (ρ : Ref S → Ref S) :
      ReflTransGen Head (t.rename ρ) (u.rename ρ) := by
    rw [rename_eq_subst, rename_eq_subst]
    exact heads_subst h _
  induction h generalizing ρ with
  | ref h => exact .ref (heads h ρ)
  | const h => exact .const (heads h ρ)
  | hole h => exact .hole (heads h ρ)
  | lam h hbody ih => exact .lam (heads h ρ) (ih _)
  | app h hfn harg ihfn iharg => exact .app (heads h ρ) (ihfn ρ) (iharg ρ)

theorem under {σ τ : Ref S → Nameless V S} (h : ∀ r, Standard (σ r) (τ r)) (r : Ref S) :
    Standard (Nameless.under σ r) (Nameless.under τ r) := by
  rcases r with (_ | i) | s
  · exact .refl _
  · exact (h _).rename _
  · exact (h _).rename _

/-- Standard reductions may be put in for references: they follow that of the term they are put into. -/
theorem subst {t u : Nameless V S} (h : Standard t u) {σ τ : Ref S → Nameless V S} (hστ : ∀ r, Standard (σ r) (τ r)) :
    Standard (t.subst σ) (u.subst τ) := by
  induction h generalizing σ τ with
  | ref h => exact after_heads (heads_subst h σ) (hστ _)
  | const h => exact .const (heads_subst h σ)
  | hole h => exact .hole (heads_subst h σ)
  | lam h hbody ih => exact .lam (heads_subst h σ) (ih (under hστ))
  | app h hfn harg ihfn iharg => exact .app (heads_subst h σ) (ihfn hστ) (iharg hστ)

theorem instantiate {body body' arg arg' : Nameless V S} (hbody : Standard body body') (harg : Standard arg arg') :
    Standard (body.instantiate arg) (body'.instantiate arg') := by
  refine hbody.subst fun r => ?_
  rcases r with (_ | i) | s
  · exact harg
  · exact .refl _
  · exact .refl _

/-- A redex at the root of the result is contracted at the head instead, before its parts are reduced. -/
theorem contract {t body arg : Nameless V S} (h : Standard t (.app (.lam body) arg)) :
    Standard t (body.instantiate arg) := by
  cases h with
  | app h hfn harg =>
    cases hfn with
    | lam hlam hbody =>
      -- To the application, then its function to the abstraction, and then the redex itself.
      have heads := (h.trans (heads_fn hlam _)).tail (.contract _ _)
      exact after_heads heads (hbody.instantiate harg)

/-- One more step, anywhere, can be worked into a standard reduction. -/
theorem beta {t u v : Nameless V S} (h : Standard t u) (step : Beta u v) : Standard t v := by
  induction step generalizing t with
  | contract body arg => exact h.contract
  | fn arg _ ih =>
    cases h with
    | app h hfn harg => exact .app h (ih hfn) harg
  | arg fn _ ih =>
    cases h with
    | app h hfn harg => exact .app h hfn (ih harg)
  | body _ ih =>
    cases h with
    | lam h hbody => exact .lam h (ih hbody)

/-- Every reduction can be put in standard order. -/
theorem of_betas {t u : Nameless V S} (h : ReflTransGen Beta t u) : Standard t u := by
  induction h with
  | refl => exact .refl t
  | tail _ step ih => exact ih.beta step

end Standard

/-! ### Normal order -/

section NormalOrder

variable [Domain V F]

/-- Normal order takes one term to the other in a step. -/
def Leftmost (t u : Nameless V S) : Prop := t.leftmost? false = some (.ok u)

theorem Leftmost.lam {body body' : Nameless V S} (h : Leftmost body body') : Leftmost (.lam body) (.lam body') := by
  unfold Leftmost at h ⊢
  rw [leftmost?_lam, h]
  rfl

theorem Leftmost.fn {fn fn' : Nameless V S} (h : Leftmost fn fn') (hfn : ∀ body, fn ≠ .lam body)
    (arg : Nameless V S) : Leftmost (app fn arg) (app fn' arg) := by
  unfold Leftmost at h ⊢
  rw [leftmost?_app (not_isRedex_app hfn), h]
  rfl

theorem Leftmost.arg {arg arg' : Nameless V S} (h : Leftmost arg arg') {fn : Nameless V S} (hnormal : fn.Normal false)
    (hfn : ∀ body, fn ≠ .lam body) : Leftmost (app fn arg) (app fn arg') := by
  unfold Leftmost at h ⊢
  rw [leftmost?_app (not_isRedex_app hfn), leftmost?_eq_none_iff.mpr hnormal, h]
  rfl

theorem Head.leftmost {t u : Nameless V S} (h : Head t u) : Leftmost t u := by
  induction h with
  | contract body arg => exact leftmost?_of_isRedex rfl
  | fn arg h ih =>
    refine ih.fn ?_ arg
    rintro body rfl
    cases h

theorem leftmosts_of_heads {t u : Nameless V S} (h : ReflTransGen Head t u) : ReflTransGen Leftmost t u :=
  h.lift id fun _ _ step => step.leftmost

theorem Leftmost.of_lam {body u : Nameless V S} (h : Leftmost (.lam body) u) : ∃ body', u = .lam body' := by
  unfold Leftmost at h
  rw [leftmost?_lam, Option.map_eq_some_iff] at h
  obtain ⟨outcome, -, houtcome⟩ := h
  cases outcome with
  | error failure => cases houtcome
  | ok body' =>
    cases houtcome
    exact ⟨body', rfl⟩

theorem leftmosts_of_lam {body u : Nameless V S} (h : ReflTransGen Leftmost (lam body) u) : ∃ body', u = lam body' := by
  induction h with
  | refl => exact ⟨body, rfl⟩
  | tail _ step ih =>
    obtain ⟨body', rfl⟩ := ih
    exact step.of_lam

theorem leftmosts_fn {fn fn' : Nameless V S} (h : ReflTransGen Leftmost fn fn') (hfn : ∀ body, fn' ≠ lam body)
    (arg : Nameless V S) : ReflTransGen Leftmost (app fn arg) (app fn' arg) := by
  induction h using ReflTransGen.head_induction_on with
  | refl => exact .refl
  | head step rest ih =>
    refine .head (step.fn ?_ arg) ih
    -- An abstraction on the way would still be one in the end.
    rintro body rfl
    obtain ⟨body', rfl⟩ := leftmosts_of_lam (.head step rest)
    exact hfn body' rfl

/-- A standard reduction to a normal form is one in normal order. -/
theorem Standard.leftmosts {t n : Nameless V S} (h : Standard t n) (hn : n.Normal false) :
    ReflTransGen Leftmost t n := by
  induction h with
  | ref h => exact leftmosts_of_heads h
  | const h => exact leftmosts_of_heads h
  | hole h => exact leftmosts_of_heads h
  | lam h _ ih =>
    have hbody := (ih hn).lift Nameless.lam fun _ _ step => step.lam
    exact (leftmosts_of_heads h).trans hbody
  | @app t fn fn' arg arg' h _ _ ihfn iharg =>
    obtain ⟨hr, hnfn, hnarg⟩ := hn
    have hlam : ∀ body, fn' ≠ .lam body := by
      rintro body rfl
      cases hr
    -- The function is normal, and no abstraction, before the argument is reduced.
    have hfn := leftmosts_fn (ihfn hnfn) hlam arg
    have harg := (iharg hnarg).lift (Nameless.app fn') fun _ _ step => step.arg hnfn hlam
    exact (leftmosts_of_heads h).trans (hfn.trans harg)

/-- Normal order leads to every normal form that beta reduction can reach. -/
theorem leftmosts_of_betas {t n : Nameless V S} (h : ReflTransGen Beta t n) (hn : n.Normal false) :
    ReflTransGen Leftmost t n :=
  (Standard.of_betas h).leftmosts hn

end NormalOrder

end PostfixLambda.Nameless
