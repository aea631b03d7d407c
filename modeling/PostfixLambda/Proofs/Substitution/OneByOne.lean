import PostfixLambda.Proofs.Substitution.Refusal

/-! Binding all names at once, and one after the other. Where no name that an environment binds is free in what it binds
    names to, what one substitution inserts is left alone by the others, and stands under the same binders as if all
    names had been replaced at once. So the single substitutions, in any order, are refused exactly if the simultaneous
    one is, and come to the same term. -/

namespace PostfixLambda

variable {V S : Type} [DecidableEq S]

namespace Term

/-! ### Two replacements, one after the other -/

/-- What the first replaces, and then what the second does. -/
def orElse (σ τ : S → Option (Term V S)) (s : S) : Option (Term V S) := (σ s).or (τ s)

/-- The replacements are of different names, and no name that the second replaces is free in a replacement of the
    first. -/
structure Apart (σ τ : S → Option (Term V S)) : Prop where
  disjoint : ∀ s r, σ s = some r → τ s = none
  closed : ∀ s r, σ s = some r → ∀ v, r.Free v → τ v = none

theorem hide_orElse (b : S) (σ τ : S → Option (Term V S)) : hide b (orElse σ τ) = orElse (hide b σ) (hide b τ) := by
  funext s
  by_cases hs : s = b <;> simp [hide, orElse, hs]

theorem Apart.hide {σ τ : S → Option (Term V S)} (h : Apart σ τ) (b : S) : Apart (hide b σ) (hide b τ) where
  disjoint s r hr := by
    unfold Term.hide at hr ⊢
    split at hr
    · cases hr
    · rename_i hs
      rw [if_neg hs, h.disjoint s r hr]
  closed s r hr v hv := by
    unfold Term.hide at hr ⊢
    split at hr
    · cases hr
    · split
      · rfl
      · exact h.closed s r hr v hv

theorem replaced_orElse {σ τ : S → Option (Term V S)} (h : Apart σ τ) (e : Term V S) :
    (e.replaced σ).replaced τ = e.replaced (orElse σ τ) := by
  induction e generalizing σ τ with
  | const v => rfl
  | hole => rfl
  | app fn arg ihfn iharg => simp only [replaced, ihfn h, iharg h]
  | lam b body ih => simp only [replaced, hide_orElse, ih (h.hide b)]
  | var s =>
    cases hs : σ s with
    | none => simp [replaced, orElse, hs]
    | some r =>
      -- What was inserted has none of the names that are replaced next.
      simp only [replaced, orElse, hs, Option.getD_some, Option.some_or]
      exact replaced_of_not_free fun v hv => h.closed s r hs v hv

/-- A name that is replaced next is free after the first replacement exactly if it was before. -/
theorem free_replaced_iff {σ τ : S → Option (Term V S)} (h : Apart σ τ) {e : Term V S} {v : S} {r : Term V S}
    (hv : τ v = some r) : (e.replaced σ).Free v ↔ e.Free v := by
  constructor
  · intro hfree
    rcases hfree.of_replaced with ⟨hfree, -⟩ | ⟨w, r', -, hw, hr'⟩
    · exact hfree
    · rw [h.closed w r' hw v hr'] at hv
      cases hv
  · intro hfree
    refine hfree.replaced ?_
    cases hσ : σ v with
    | none => rfl
    | some r' =>
      rw [h.disjoint v r' hσ] at hv
      cases hv

theorem clear_orElse {σ τ : S → Option (Term V S)} (h : Apart σ τ) (e : Term V S) :
    e.Clear (orElse σ τ) ↔ e.Clear σ ∧ (e.replaced σ).Clear τ := by
  induction e generalizing σ τ with
  | const v => simp [Clear, replaced]
  | hole => simp [Clear, replaced]
  | app fn arg ihfn iharg =>
    simp only [Clear, replaced, ihfn h, iharg h]
    exact and_and_and_comm
  | var s =>
    simp only [Clear, true_and, true_iff, replaced]
    cases hs : σ s with
    | none => exact trivial
    | some r => exact clear_of_not_free fun v hv => h.closed s r hs v hv
  | lam b body ih =>
    have hbelow := h.hide b
    -- The binder captures something of either replacement exactly if it captures something of their union.
    have hbinder : (∀ v, body.Free v → ∀ r, orElse (Term.hide b σ) (Term.hide b τ) v = some r → ¬r.Free b) ↔
        (∀ v, body.Free v → ∀ r, Term.hide b σ v = some r → ¬r.Free b) ∧
          ∀ v, (body.replaced (Term.hide b σ)).Free v → ∀ r, Term.hide b τ v = some r → ¬r.Free b := by
      constructor
      · intro hnone
        refine ⟨fun v hv r hr => hnone v hv r ?_, fun v hv r hr => hnone v ?_ r ?_⟩
        · rw [orElse, hr, Option.some_or]
        · exact (free_replaced_iff hbelow hr).mp hv
        · cases hσ : Term.hide b σ v with
          | none => rw [orElse, hσ, Option.none_or, hr]
          | some r' =>
            rw [hbelow.disjoint v r' hσ] at hr
            cases hr
      · rintro ⟨hfirst, hsecond⟩ v hv r hr
        rcases Option.or_eq_some_iff.mp hr with hσ | ⟨-, hτ⟩
        · exact hfirst v hv r hσ
        · exact hsecond v ((free_replaced_iff hbelow hτ).mpr hv) r hτ
    simp only [Clear, replaced, hide_orElse, hbinder, ih hbelow]
    exact and_and_and_comm

end Term

/-! ### An environment, name by name -/

namespace Env

open Term (orElse Apart)

/-- No name that the environment binds is free in a term that it binds a name to. -/
def NoneMentioned (env : Env V S) : Prop := ∀ s r, env.find? s = some r → ∀ v, r.Free v → env.find? v = none

/-- Where names are distinct, every entry counts. -/
theorem find?_eq_some_iff_mem {entries : Env V S} (hnames : entries.names.Nodup) {s : S} {r : Term V S} :
    entries.find? s = some r ↔ (s, r) ∈ entries := by
  induction entries with
  | nil => simp [find?]
  | cons entry rest ih =>
    obtain ⟨name, e⟩ := entry
    obtain ⟨hname, hrest⟩ := List.nodup_cons.mp hnames
    by_cases hs : name = s
    · subst hs
      have hnot : (name, r) ∉ rest := fun hmem => hname (List.mem_map.mpr ⟨_, hmem, rfl⟩)
      simp [find?, hnot, eq_comm]
    · simp [find?, hs, ih hrest, Ne.symm hs]

theorem find?_cons (s : S) (r : Term V S) (rest : Env V S) :
    find? ((s, r) :: rest) = orElse (find? [(s, r)]) rest.find? := by
  funext v
  by_cases hv : s = v <;> simp [find?, orElse, hv]

section Cons

variable {s : S} {r : Term V S} {rest : Env V S} (hs : rest.find? s = none)

include hs

/-- The first name of an environment is apart from the others. -/
theorem NoneMentioned.apart (h : NoneMentioned ((s, r) :: rest)) : Apart (find? [(s, r)]) rest.find? where
  disjoint v r' hr := by
    simp only [find?] at hr
    split at hr
    · rename_i hv
      rw [← hv, hs]
    · cases hr
  closed v r' hr w hw := by
    have hfound : find? ((s, r) :: rest) v = some r' := by rw [find?_cons, orElse, hr, Option.some_or]
    have hnone := h v r' hfound w hw
    rw [find?_cons, orElse, Option.or_eq_none_iff] at hnone
    exact hnone.2

theorem find?_cons_of_rest {v : S} {r' : Term V S} (hv : rest.find? v = some r') : find? ((s, r) :: rest) v = some r' := by
  have hne : s ≠ v := by
    rintro rfl
    rw [hs] at hv
    cases hv
  rw [find?, if_neg hne, hv]

theorem NoneMentioned.of_cons (h : NoneMentioned ((s, r) :: rest)) : NoneMentioned rest := by
  intro v r' hv w hw
  have hnone := h v r' (find?_cons_of_rest hs hv) w hw
  rw [find?_cons, orElse, Option.or_eq_none_iff] at hnone
  exact hnone.2

end Cons

end Env

namespace Term

/-- The substitutions for the names of a list, one after the other and without a renamer. -/
def substituteEach (e : Term V S) : List (S × Term V S) → Except (Stop (TermError S)) (Term V S)
  | [] => .ok e
  | (s, r) :: rest =>
    match (e.substitute s r none).result with
    | .ok e' => e'.substituteEach rest
    | .error stop => .error stop

theorem substituteEach_cons_eq_ok_iff {e e' : Term V S} {s : S} {r : Term V S} {rest : List (S × Term V S)} :
    e.substituteEach ((s, r) :: rest) = .ok e' ↔
      ∃ e₁, (e.substitute s r none).result = .ok e₁ ∧ e₁.substituteEach rest = .ok e' := by
  rw [substituteEach]
  cases (e.substitute s r none).result with
  | error stop => simp
  | ok e₁ => simp

theorem bind_eq_ok_iff {e e' : Term V S} {env : Env V S} (he : e.Whole) (henv : ∀ s r, env.find? s = some r → r.Whole) :
    (e.bind env none).result = .ok e' ↔ e.Clear env.find? ∧ e.replaced env.find? = e' := by
  constructor
  · intro h
    rcases firstCapture_or_clear env e with ⟨b, v, hfirst⟩ | hclear
    · rw [bind_of_firstCapture he henv hfirst] at h
      cases h
    · rw [bind_of_clear he henv hclear] at h
      cases h
      exact ⟨hclear, rfl⟩
  · rintro ⟨hclear, rfl⟩
    exact bind_of_clear he henv hclear

theorem substitute_eq_ok_iff {e e' : Term V S} {s : S} {r : Term V S} (he : e.Whole) (hr : r.Whole) :
    (e.substitute s r none).result = .ok e' ↔ e.Clear (Env.find? [(s, r)]) ∧ e.replaced (Env.find? [(s, r)]) = e' :=
  bind_eq_ok_iff he (whole_of_find?_single hr)

/-- The single substitutions come to the replacement of all names at once, and are refused where that captures. -/
theorem substituteEach_eq_ok_iff {e e' : Term V S} {entries : Env V S} (he : e.Whole)
    (hwhole : ∀ s r, entries.find? s = some r → r.Whole) (hnone : entries.NoneMentioned)
    (hnames : entries.names.Nodup) :
    e.substituteEach entries = .ok e' ↔ e.Clear entries.find? ∧ e.replaced entries.find? = e' := by
  induction entries generalizing e with
  | nil =>
    have hclear : e.Clear (Env.find? []) := clear_of_not_free fun _ _ => rfl
    have hsame : e.replaced (Env.find? []) = e := replaced_of_not_free fun _ _ => rfl
    simp [substituteEach, hclear, hsame]
  | cons entry rest ih =>
    obtain ⟨s, r⟩ := entry
    obtain ⟨hname, hrest⟩ := List.nodup_cons.mp hnames
    have hs : Env.find? rest s = none := Option.eq_none_iff_forall_ne_some.mpr fun r' hr' =>
      hname (List.mem_map.mpr ⟨_, (Env.find?_eq_some_iff_mem hrest).mp hr', rfl⟩)
    have hr : r.Whole := hwhole s r (by simp [Env.find?])
    have hreplaced : (e.replaced (Env.find? [(s, r)])).Whole := he.replaced (whole_of_find?_single hr)
    have hlater := ih hreplaced (fun v r' hv => hwhole v r' (Env.find?_cons_of_rest hs hv)) (hnone.of_cons hs) hrest
    have hapart := hnone.apart hs
    calc e.substituteEach ((s, r) :: rest) = .ok e'
      _ ↔ e.Clear (Env.find? [(s, r)]) ∧ (e.replaced (Env.find? [(s, r)])).substituteEach rest = .ok e' := by
        simp only [substituteEach_cons_eq_ok_iff, substitute_eq_ok_iff he hr]
        grind
      _ ↔ (e.Clear (Env.find? [(s, r)]) ∧ (e.replaced (Env.find? [(s, r)])).Clear (Env.find? rest)) ∧
          (e.replaced (Env.find? [(s, r)])).replaced (Env.find? rest) = e' := by rw [hlater, and_assoc]
      _ ↔ e.Clear (Env.find? ((s, r) :: rest)) ∧ e.replaced (Env.find? ((s, r) :: rest)) = e' := by
        rw [Env.find?_cons s r rest, clear_orElse hapart, replaced_orElse hapart]

/-- Binding in an environment agrees with substituting for its names one after the other, in whatever order its entries
    are listed, if none of its names is free in a term that it binds a name to: without a renamer one succeeds exactly
    if the other does, and they come to the same term. -/
theorem bind_one_by_one (e : Term V S) (env : Env V S) (entries : List (S × Term V S)) (he : e.Whole)
    (henv : ∀ s r, env.find? s = some r → r.Whole) (hnone : env.NoneMentioned) (hnames : (Env.names entries).Nodup)
    (hentries : ∀ s r, (s, r) ∈ entries ↔ env.find? s = some r) (e' : Term V S) :
    (e.bind env none).result = .ok e' ↔ e.substituteEach entries = .ok e' := by
  have hsame : Env.find? entries = env.find? := by
    funext s
    refine Option.ext fun r => ?_
    rw [Env.find?_eq_some_iff_mem hnames, hentries]
  have hnone' : Env.NoneMentioned entries := by
    unfold Env.NoneMentioned
    rw [hsame]
    exact hnone
  rw [bind_eq_ok_iff he henv, substituteEach_eq_ok_iff he (hsame ▸ henv) hnone' hnames, hsame]

/-- In `λu. x (λx. y x)`, with `x` bound to `λz. w z` and `y` to `w`, the second `x` is not replaced, be `y` replaced
    before the first or with it. -/
theorem bind_one_by_one_shadowed :
    (lam [0x75] (app (var [0x78]) (lam [0x78] (app (var [0x79]) (var [0x78])))) : Term Nat Bytes).substituteEach
        [([0x79], var [0x77]), ([0x78], lam [0x7A] (app (var [0x77]) (var [0x7A])))] =
      .ok (lam [0x75] (app (lam [0x7A] (app (var [0x77]) (var [0x7A]))) (lam [0x78] (app (var [0x77]) (var [0x78]))))) := by
  have henv : ∀ s r, Env.find? [([0x78], lam [0x7A] (app (var [0x77]) (var [0x7A]))), ([0x79], var [0x77])] s = some r →
      (s, r) = (([0x78], lam [0x7A] (app (var [0x77]) (var [0x7A]))) : Bytes × Term Nat Bytes) ∨
        (s, r) = ([0x79], var [0x77]) := by
    intro s r h
    simpa using (Env.find?_eq_some_iff_mem (by decide)).mp h
  refine (bind_one_by_one _ [([0x78], lam [0x7A] (app (var [0x77]) (var [0x7A]))), ([0x79], var [0x77])] _ (by decide)
    (fun s r h => ?_) (fun s r h v hv => ?_) (by decide) (fun s r => ?_) _).mp (by decide +kernel)
  · rcases henv s r h with h | h
    · cases h
      decide
    · cases h
      decide
  · rcases henv s r h with h | h
    · cases h
      simp only [Free] at hv
      grind [Env.find?]
    · cases h
      simp only [Free] at hv
      grind [Env.find?]
  · rw [Env.find?_eq_some_iff_mem (by decide)]
    simp [or_comm]

end Term

end PostfixLambda
