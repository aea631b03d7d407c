import Mathlib.Data.List.Find
import PostfixLambda.Proofs.Substitution.FreeNames

/-! Substitution without a renamer: exact, or refused. A term's abstractions stand in positions, from left to right and
    outer before inner; each either captures a name or does not, by what is free in its body, which binders are around
    it, and what the environment has. The walk, which passes over binders by what it remembers of the replacements,
    refuses at the first position that captures, and with the first name captured there; where there is none, it
    replaces the free names and changes nothing else. -/

namespace PostfixLambda

variable {V S : Type} [DecidableEq S]

/-! ### Positions of abstractions -/

/-- An abstraction within a term: the binders around it, the innermost first, its own binder, and its body. -/
structure Position (V S : Type) where
  outer : List S
  binder : S
  body : Term V S

/-- The abstractions of a term that stands below the binders `outer`: an abstraction before those of its body, those of
    a function before those of its argument. -/
def Term.positions (outer : List S) : Term V S → List (Position V S)
  | lam b body => ⟨outer, b, body⟩ :: body.positions (b :: outer)
  | app fn arg => fn.positions outer ++ arg.positions outer
  | var _ | const _ | hole => []

namespace Position

/-- The name is free in the body and bound neither there nor around, and its replacement has the binder free. -/
def Captures (env : Env V S) (p : Position V S) (v : S) : Prop :=
  p.body.Free v ∧ v ≠ p.binder ∧ v ∉ p.outer ∧ ∃ r, env.find? v = some r ∧ r.Free p.binder

def Capturing (env : Env V S) (p : Position V S) : Prop := ∃ v, p.Captures env v

theorem captures_iff {env : Env V S} {p : Position V S} {v : S} :
    p.Captures env v ↔ p.body.Free v ∧ Walk.Captures env (p.binder :: p.outer) p.binder v := by
  unfold Captures Walk.Captures Walk.active?
  by_cases hv : v ∈ p.binder :: p.outer
  · simp only [hv, if_true]
    simp only [List.mem_cons] at hv
    grind
  · simp only [hv, if_false]
    simp only [List.mem_cons, not_or] at hv
    grind

instance (env : Env V S) (p : Position V S) (v : S) : Decidable (p.Captures env v) :=
  decidable_of_iff _ captures_iff.symm

/-- The binder, and the first free name of the body that is captured. -/
def refusal? (env : Env V S) (p : Position V S) : Option (S × S) :=
  (p.body.freeVars.find? fun v => p.Captures env v).map (p.binder, ·)

theorem refusal?_eq_none_iff {env : Env V S} {p : Position V S} : p.refusal? env = none ↔ ¬p.Capturing env := by
  simp only [refusal?, Option.map_eq_none_iff, List.find?_eq_none, Term.mem_freeVars, decide_eq_true_eq, Capturing,
    not_exists]
  exact ⟨fun h v hv => h v hv.1 hv, fun h v _ => h v⟩

theorem refusal?_eq_some_iff {env : Env V S} {p : Position V S} {b v : S} :
    p.refusal? env = some (b, v) ↔ p.binder = b ∧ p.Captures env v ∧
      ∃ earlier later, p.body.freeVars = earlier ++ v :: later ∧ ∀ w ∈ earlier, ¬p.Captures env w := by
  simp only [refusal?, Option.map_eq_some_iff, List.find?_eq_some_iff_append, decide_eq_true_eq, Prod.mk.injEq]
  constructor
  · rintro ⟨w, ⟨hw, earlier, later, hnames, hearlier⟩, hb, rfl⟩
    exact ⟨hb, hw, earlier, later, hnames, by simpa using hearlier⟩
  · rintro ⟨hb, hv, earlier, later, hnames, hearlier⟩
    exact ⟨v, ⟨hv, earlier, later, hnames, by simpa using hearlier⟩, hb, rfl⟩

end Position

namespace Walk

/-! ### The walk and the positions -/

theorem active?_cons (env : Env V S) (outer : List S) (b : S) :
    active? env (b :: outer) = Term.hide b (active? env outer) := by
  funext s
  by_cases hs : s = b <;> simp [active?, Term.hide, hs]

theorem active?_below {env : Env V S} {shadow outer : List S} (h : active? env shadow = active? env outer) (b : S) :
    active? env (shadowBelow env shadow b) = active? env (b :: outer) := by
  rw [active?_shadowBelow, active?_cons, h]

theorem clear_iff {env : Env V S} {outer : List S} {e : Term V S} :
    e.Clear (active? env outer) ↔ ∀ p ∈ e.positions outer, ¬p.Capturing env := by
  induction e generalizing outer with
  | var s => simp [Term.Clear, Term.positions]
  | const v => simp [Term.Clear, Term.positions]
  | hole => simp [Term.Clear, Term.positions]
  | app fn arg ihfn iharg => simp only [Term.Clear, Term.positions, ihfn, iharg, List.forall_mem_append]
  | lam b body ih =>
    simp only [Term.Clear, Term.positions, List.forall_mem_cons, ← active?_cons, ih]
    refine and_congr_left fun _ => ?_
    constructor
    · rintro h ⟨v, hv⟩
      obtain ⟨hfree, r, hr, hb⟩ := Position.captures_iff.mp hv
      exact h v hfree r hr hb
    · intro h v hfree r hr hb
      exact h ⟨v, Position.captures_iff.mpr ⟨hfree, r, hr, hb⟩⟩

/-- The capture that the walk looks for at a binder is the one at the position. -/
theorem capture?_eq_refusal? {env : Env V S} {st : State S} {outer : List S} {b : S} {body : Term V S}
    (hready : Ready env st (.lam b body)) (h : active? env st.shadow = active? env outer) :
    (capture? env (shadowBelow env st.shadow b) st.known b body).2.map (b, ·) =
      Position.refusal? env ⟨outer, b, body⟩ := by
  rw [capture?_eq hready.right hready.covers.below, Position.refusal?]
  congr 1
  refine List.find?_congr fun v hv => decide_eq_decide.mpr ?_
  simp only [Position.captures_iff, Captures, active?_below h, Term.mem_freeVars.mp hv, true_and]

/-- The walk without a renamer is refused at the first position that captures. -/
theorem rebuild_refused {env : Env V S} (henv : ∀ s r, env.find? s = some r → r.Whole) {e : Term V S} (he : e.Whole)
    {st : State S} (hready : Ready env st e) {outer : List S} (hactive : active? env st.shadow = active? env outer)
    {b v : S} (h : (e.positions outer).findSome? (Position.refusal? env) = some (b, v)) :
    ∃ asked, rebuild (plain env) st e = .error ⟨.error (.capture b v), asked⟩ := by
  induction e generalizing st outer with
  | var s => cases h
  | const c => cases h
  | hole => cases h
  | app fn arg ihfn iharg =>
    have hleft : Ready env st fn := hready.of_grows (fun s => Or.inl) rfl (.refl _)
    rw [Term.positions, List.findSome?_append] at h
    cases hfn : (fn.positions outer).findSome? (Position.refusal? env) with
    | some found =>
      rw [hfn] at h
      cases h
      obtain ⟨asked, hrefused⟩ := ihfn he.1 hleft hactive hfn
      exact ⟨asked, by rw [rebuild, hrefused]⟩
    | none =>
      rw [hfn] at h
      -- The function captures nothing, so the walk gets to the argument, and has only learnt on its way.
      have hclear : fn.Clear (active? env st.shadow) := by
        rw [hactive, clear_iff]
        simpa [Position.refusal?_eq_none_iff] using hfn
      obtain ⟨st₁, hbuilt, -⟩ := rebuild_plain henv he.1 st hready.right hclear
      have hreplaces := rebuild_replaces (refuse_renamesFresh env) hleft hbuilt
      have hright : Ready env st₁ arg := hready.of_grows (fun s => Or.inr) hreplaces.shadow hreplaces.grows
      obtain ⟨asked, hrefused⟩ := iharg he.2 hright (hreplaces.shadow ▸ hactive) h
      exact ⟨asked, by rw [rebuild, hbuilt]; simp only [hrefused]⟩
  | lam b' body ih =>
    have hfound := capture?_eq_refusal? hready hactive
    rw [Term.positions, List.findSome?_cons, ← hfound] at h
    cases hc : (capture? env (shadowBelow env st.shadow b') st.known b' body).2 with
    | some w =>
      rw [hc] at h
      cases h
      have henter : (plain env).enter st b body = .error ⟨.error (.capture b v), st.asked⟩ :=
        enter_substituting_of_error hc rfl
      exact ⟨st.asked, by rw [rebuild, henter]⟩
    | none =>
      rw [hc] at h
      have hgrows := below_grows env st b' body
      have hbelow : Ready env (st.below env b' body) body :=
        ⟨hgrows.right hready.right, hready.covers.below.grow hgrows⟩
      obtain ⟨asked, hrefused⟩ := ih (Term.whole_lam.mp he) hbelow (active?_below hactive b') h
      have henter : (plain env).enter st b' body = .ok ⟨b', body, suspendedBy env st.shadow b', _, rfl⟩ :=
        enter_substituting_of_none hc
      exact ⟨asked, by rw [rebuild, henter]; simp only [hrefused]⟩

end Walk

namespace Term

/-! ### Terms without captures -/

theorem hide_of_not_free {σ : S → Option (Term V S)} {b : S} {body : Term V S}
    (h : ∀ s, (lam b body).Free s → σ s = none) : ∀ s, body.Free s → hide b σ s = none := by
  intro s hs
  by_cases hb : s = b
  · rw [hide, if_pos hb]
  · rw [hide, if_neg hb, h s ⟨Ne.symm hb, hs⟩]

theorem replaced_of_not_free {σ : S → Option (Term V S)} {e : Term V S} (h : ∀ s, e.Free s → σ s = none) :
    e.replaced σ = e := by
  induction e generalizing σ with
  | var s => simp [replaced, h s rfl]
  | const v => rfl
  | hole => rfl
  | app fn arg ihfn iharg =>
    rw [replaced, ihfn fun s hs => h s (Or.inl hs), iharg fun s hs => h s (Or.inr hs)]
  | lam b body ih => rw [replaced, ih (hide_of_not_free h)]

theorem clear_of_not_free {σ : S → Option (Term V S)} {e : Term V S} (h : ∀ s, e.Free s → σ s = none) :
    e.Clear σ := by
  induction e generalizing σ with
  | var s => trivial
  | const v => trivial
  | hole => trivial
  | app fn arg ihfn iharg => exact ⟨ihfn fun s hs => h s (Or.inl hs), iharg fun s hs => h s (Or.inr hs)⟩
  | lam b body ih =>
    refine ⟨fun v hv r hr => ?_, ih (hide_of_not_free h)⟩
    rw [hide_of_not_free h v hv] at hr
    cases hr

/-! ### Substitution without a renamer -/

/-- The binder is that of the first position that captures, and the name is the first of those free in the body there
    that is captured. -/
def FirstCapture (env : Env V S) (e : Term V S) (b v : S) : Prop :=
  ∃ before p after, e.positions [] = before ++ p :: after ∧ (∀ q ∈ before, ¬q.Capturing env) ∧ p.binder = b ∧
    p.Captures env v ∧ ∃ earlier later, p.body.freeVars = earlier ++ v :: later ∧ ∀ w ∈ earlier, ¬p.Captures env w

theorem firstCapture_iff {env : Env V S} {e : Term V S} {b v : S} :
    e.FirstCapture env b v ↔ (e.positions []).findSome? (Position.refusal? env) = some (b, v) := by
  simp only [FirstCapture, List.findSome?_eq_some_iff, Position.refusal?_eq_some_iff, Position.refusal?_eq_none_iff]
  grind

theorem firstCapture_or_clear (env : Env V S) (e : Term V S) : (∃ b v, e.FirstCapture env b v) ∨ e.Clear env.find? := by
  cases h : (e.positions []).findSome? (Position.refusal? env) with
  | some found => exact Or.inl ⟨found.1, found.2, firstCapture_iff.mpr h⟩
  | none =>
    rw [← Walk.active?_nil, Walk.clear_iff]
    right
    intro p hp
    exact Position.refusal?_eq_none_iff.mp (List.findSome?_eq_none_iff.mp h p hp)

theorem FirstCapture.capturing {env : Env V S} {e : Term V S} {b v : S} (h : e.FirstCapture env b v) :
    ∃ p ∈ e.positions [], p.Capturing env := by
  obtain ⟨before, p, after, hpositions, -, -, hv, -⟩ := h
  exact ⟨p, by simp [hpositions], v, hv⟩

section Plain

variable {e : Term V S} {env : Env V S} (he : e.Whole) (henv : ∀ s r, env.find? s = some r → r.Whole)

include he henv

theorem bind_of_clear (h : e.Clear env.find?) : (e.bind env none).result = .ok (e.replaced env.find?) := by
  rw [← Walk.active?_nil] at h ⊢
  obtain ⟨st', hbuilt, -⟩ := Walk.rebuild_plain henv he ⟨[], Walk.Known.ofTerm env e, []⟩
    (Walk.Known.ofTerm_right env e) h
  exact Walk.run_result_of_rebuild hbuilt

theorem bind_of_firstCapture {b v : S} (h : e.FirstCapture env b v) :
    (e.bind env none).result = .error (.error (.capture b v)) := by
  have hready : Walk.Ready env ⟨[], Walk.Known.ofTerm env e, []⟩ e :=
    ⟨Walk.Known.ofTerm_right env e, Walk.Known.ofTerm_covers env [] e⟩
  obtain ⟨asked, hrefused⟩ := Walk.rebuild_refused henv he hready rfl (firstCapture_iff.mp h)
  simp only [bind, Walk.rulesFor, Walk.run, Walk.drain_eq_rebuild, hrefused]

theorem bind_capture_iff {b v : S} :
    (e.bind env none).result = .error (.error (.capture b v)) ↔ e.FirstCapture env b v := by
  refine ⟨fun h => ?_, bind_of_firstCapture he henv⟩
  rcases firstCapture_or_clear env e with ⟨b', v', hfirst⟩ | hclear
  · rw [bind_of_firstCapture he henv hfirst] at h
    cases h
    exact hfirst
  · rw [bind_of_clear he henv hclear] at h
    cases h

end Plain

/-- Without a renamer, binding a whole term in an environment of whole terms is refused exactly if some position
    captures, and then with the first capture; otherwise it replaces the free names that are bound, every binder kept,
    which changes nothing where no bound name is free. Substitution for one name is the case of an environment with one
    binding. -/
theorem bind_exact_or_refused (e : Term V S) (env : Env V S) (he : e.Whole)
    (henv : ∀ s r, env.find? s = some r → r.Whole) :
    ((∃ b v, (e.bind env none).result = .error (.error (.capture b v))) ↔ ∃ p ∈ e.positions [], p.Capturing env) ∧
    (∀ b v, (e.bind env none).result = .error (.error (.capture b v)) ↔ e.FirstCapture env b v) ∧
    ((∀ p ∈ e.positions [], ¬p.Capturing env) → (e.bind env none).result = .ok (e.replaced env.find?)) ∧
    ((∀ s, e.Free s → env.find? s = none) → (e.bind env none).result = .ok e) ∧
    ∀ v r, e.substitute v r none = e.bind [(v, r)] none := by
  have hclear : e.Clear env.find? ↔ ∀ p ∈ e.positions [], ¬p.Capturing env := by
    rw [← Walk.active?_nil]
    exact Walk.clear_iff
  refine ⟨?_, fun b v => bind_capture_iff he henv, fun h => bind_of_clear he henv (hclear.mpr h), fun h => ?_,
    fun v r => rfl⟩
  · simp only [bind_capture_iff he henv]
    constructor
    · rintro ⟨b, v, hfirst⟩
      exact hfirst.capturing
    · rintro ⟨p, hp, hcapturing⟩
      rcases firstCapture_or_clear env e with hfirst | hnone
      · exact hfirst
      · exact absurd hcapturing (hclear.mp hnone p hp)
  · have hbound := bind_of_clear he henv (clear_of_not_free h)
    rwa [replaced_of_not_free h] at hbound

/-- In `(λx. λy. x) (λz. λy. z x)`, with `x` and `z` both bound to `y`, the first `λy` captures nothing: its `x` is
    bound around it. So is the `z` of the second, which captures the `y` for its `x`. -/
theorem bind_refused_past_shadowed :
    ((app (lam [0x78] (lam [0x79] (var [0x78]))) (lam [0x7a] (lam [0x79] (app (var [0x7a]) (var [0x78])))) :
      Term Nat Bytes).bind [([0x78], var [0x79]), ([0x7a], var [0x79])] none).result =
      .error (.error (.capture [0x79] [0x78])) := by
  refine ((bind_exact_or_refused _ _ (by decide) fun s r hr => ?_).2.1 _ _).mpr ⟨[_, _, _], _, [], rfl, ?_, rfl, ?_⟩
  · obtain rfl : r = var [0x79] := by
      simp only [Env.find?] at hr
      grind
    exact whole_var
  · simp only [List.forall_mem_cons, Position.Capturing, Position.Captures, Free, Env.find?]
    grind [Free]
  · refine ⟨by simp [Position.Captures, Free, Env.find?], [[0x7a]], [], ?_, by simp [Position.Captures]⟩
    rw [freeVars_eq]
    rfl

end Term

end PostfixLambda
