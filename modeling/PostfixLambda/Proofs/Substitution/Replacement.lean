import PostfixLambda.Proofs.Nameless.Translation
import PostfixLambda.Proofs.Substitution.Capture
import PostfixLambda.Proofs.Substitution.Rebuild

/-! Replacement of free names with every binder kept. It is what substitution comes to where no binder captures
    (`Term.Clear`): a walk without a renamer then builds just this term, and in nameless form it gives each name the
    meaning of its replacement. -/

namespace PostfixLambda

namespace Term

variable {V S : Type} [DecidableEq S]

/-- The replacements that are left below a binder: the binder's own name is not replaced. -/
def hide (b : S) (σ : S → Option (Term V S)) (s : S) : Option (Term V S) := if s = b then none else σ s

/-- The term with its free names replaced, every binder kept. -/
def replaced (σ : S → Option (Term V S)) : Term V S → Term V S
  | var s => (σ s).getD (var s)
  | const v => const v
  | lam b body => lam b (body.replaced (hide b σ))
  | app fn arg => app (fn.replaced σ) (arg.replaced σ)
  | hole => hole

/-- No binder captures a free name of what its body receives. -/
def Clear (σ : S → Option (Term V S)) : Term V S → Prop
  | lam b body => (∀ v, body.Free v → ∀ r, hide b σ v = some r → ¬r.Free b) ∧ body.Clear (hide b σ)
  | app fn arg => fn.Clear σ ∧ arg.Clear σ
  | var _ | const _ | hole => True

/-- What names stand for after a replacement: a name that is replaced stands for its replacement. -/
def meaning (σ : S → Option (Term V S)) (ρ : S → Nameless V S) (s : S) : Nameless V S :=
  match σ s with
  | some r => r.denote ρ
  | none => ρ s

/-- Below a binder that captures nothing, a name means what it means outside. -/
theorem bindName_meaning {σ : S → Option (Term V S)} {b s : S} (h : ∀ r, hide b σ s = some r → ¬r.Free b)
    (ρ : S → Nameless V S) : meaning (hide b σ) (bindName b ρ) s = bindName b (meaning σ ρ) s := by
  by_cases hs : s = b
  · simp [meaning, hide, bindName, hs]
  · simp only [hide, if_neg hs] at h
    simp only [meaning, hide, if_neg hs]
    cases hr : σ s with
    | none => simp [bindName, hs, meaning, hr]
    | some r => simp only [bindName, if_neg hs, meaning, hr, denote_bindName_of_not_free (h r hr)]

/-- An abstraction means what it should if its body does and its binder captures nothing. Of the replacements `τ` in
    the body only those of its free names matter. -/
theorem denote_lam_of_clear {σ τ : S → Option (Term V S)} {b : S} {body body' : Term V S}
    (hbelow : ∀ v, body.Free v → τ v = hide b σ v) (hclear : ∀ v, body.Free v → ∀ r, τ v = some r → ¬r.Free b)
    (hbody : ∀ ρ, body'.denote ρ = body.denote (meaning τ ρ)) (ρ : S → Nameless V S) :
    (lam b body').denote ρ = (lam b body).denote (meaning σ ρ) := by
  simp only [denote, hbody]
  congr 1
  refine denote_congr fun s hs => ?_
  rw [← bindName_meaning (hbelow s hs ▸ hclear s hs)]
  simp only [meaning, hbelow s hs]

theorem denote_replaced {σ : S → Option (Term V S)} {e : Term V S} (h : e.Clear σ) (ρ : S → Nameless V S) :
    (e.replaced σ).denote ρ = e.denote (meaning σ ρ) := by
  induction e generalizing σ ρ with
  | var s =>
    simp only [replaced, denote, meaning]
    cases σ s <;> rfl
  | const v => rfl
  | hole => rfl
  | app fn arg ihfn iharg => simp only [replaced, denote, ihfn h.1, iharg h.2]
  | lam b body ih => exact denote_lam_of_clear (fun _ _ => rfl) h.1 (ih h.2) ρ

theorem Whole.replaced {σ : S → Option (Term V S)} (hσ : ∀ s r, σ s = some r → r.Whole) {e : Term V S} (h : e.Whole) :
    (e.replaced σ).Whole := by
  induction e generalizing σ with
  | var s =>
    simp only [Term.replaced]
    cases hr : σ s with
    | none => exact whole_var
    | some r => exact hσ s r hr
  | const v => exact whole_const
  | hole => exact h
  | app fn arg ihfn iharg => exact ⟨ihfn hσ h.1, iharg hσ h.2⟩
  | lam b body ih =>
    refine ih (fun s r hr => ?_) h
    unfold hide at hr
    split at hr
    · cases hr
    · exact hσ s r hr

/-- A name that is free after a replacement was free before and is not replaced, or it came with a replacement. -/
theorem Free.of_replaced {σ : S → Option (Term V S)} {e : Term V S} {s : S} (h : (e.replaced σ).Free s) :
    e.Free s ∧ σ s = none ∨ ∃ v r, e.Free v ∧ σ v = some r ∧ r.Free s := by
  induction e generalizing σ with
  | var t =>
    simp only [replaced] at h
    cases hr : σ t with
    | none =>
      rw [hr] at h
      obtain rfl : t = s := h
      exact Or.inl ⟨rfl, hr⟩
    | some r =>
      rw [hr] at h
      exact Or.inr ⟨t, r, rfl, hr, h⟩
  | const v => cases h
  | hole => cases h
  | app fn arg ihfn iharg =>
    rcases h with h | h
    · rcases ihfn h with ⟨hs, hn⟩ | ⟨v, r, hv, hr⟩
      · exact Or.inl ⟨Or.inl hs, hn⟩
      · exact Or.inr ⟨v, r, Or.inl hv, hr⟩
    · rcases iharg h with ⟨hs, hn⟩ | ⟨v, r, hv, hr⟩
      · exact Or.inl ⟨Or.inr hs, hn⟩
      · exact Or.inr ⟨v, r, Or.inr hv, hr⟩
  | lam b body ih =>
    obtain ⟨hb, h⟩ := h
    rcases ih h with ⟨hs, hn⟩ | ⟨v, r, hv, hr, hrs⟩
    · rw [hide, if_neg (Ne.symm hb)] at hn
      exact Or.inl ⟨⟨hb, hs⟩, hn⟩
    · by_cases hvb : v = b
      · simp [hide, hvb] at hr
      · rw [hide, if_neg hvb] at hr
        exact Or.inr ⟨v, r, ⟨Ne.symm hvb, hv⟩, hr, hrs⟩

theorem whole_of_find?_single {v : S} {r : Term V S} (h : r.Whole) :
    ∀ s r', Env.find? [(v, r)] s = some r' → r'.Whole := by
  intro s r' hr
  simp only [Env.find?] at hr
  split at hr
  · cases hr
    exact h
  · cases hr

/-! ### One variable for another -/

/-- The replacement of one name by a variable. -/
def only (b fresh : S) (s : S) : Option (Term V S) := if s = b then some (var fresh) else none

theorem eq_var_of_only {b fresh s : S} {r : Term V S} (h : only b fresh s = some r) : r = var fresh := by
  unfold only at h
  split at h
  · exact (Option.some.inj h).symm
  · cases h

theorem Whole.only {e : Term V S} (h : e.Whole) (b fresh : S) : (e.replaced (only b fresh)).Whole := by
  refine h.replaced fun s r hr => ?_
  rw [eq_var_of_only hr]
  exact whole_var

theorem clear_of_not_mentions {fresh : S} {σ : S → Option (Term V S)} {e : Term V S} (he : ¬e.Mentions fresh)
    (hσ : ∀ v r, σ v = some r → r = var fresh) : e.Clear σ := by
  induction e generalizing σ with
  | var s => trivial
  | const v => trivial
  | hole => trivial
  | app fn arg ihfn iharg => exact ⟨ihfn (fun h => he (Or.inl h)) hσ, iharg (fun h => he (Or.inr h)) hσ⟩
  | lam b body ih =>
    have hσ' : ∀ v r, hide b σ v = some r → r = var fresh := by
      intro v r hr
      unfold hide at hr
      split at hr
      · cases hr
      · exact hσ v r hr
    refine ⟨fun v _ r hr hfree => ?_, ih (fun h => he (Or.inr h)) hσ'⟩
    rw [hσ' v r hr] at hfree
    exact he (Or.inl hfree.symm)

theorem clear_only {b fresh : S} {e : Term V S} (h : ¬e.Mentions fresh) : e.Clear (only b fresh) :=
  clear_of_not_mentions h fun _ _ => eq_var_of_only

/-- Renaming a binder to a name that does not occur in its scope leaves what the abstraction means. -/
theorem denote_lam_only {b fresh : S} {body : Term V S} (h : ¬body.Mentions fresh) (ρ : S → Nameless V S) :
    (lam fresh (body.replaced (only b fresh))).denote ρ = (lam b body).denote ρ := by
  simp only [denote, denote_replaced (clear_only h)]
  congr 1
  refine denote_congr fun s hs => ?_
  by_cases hb : s = b
  · simp [meaning, only, hb, denote, bindName]
  · have hfresh : s ≠ fresh := by
      rintro rfl
      exact h hs.mentions
    simp [meaning, only, hb, bindName, hfresh]

theorem Free.of_only {b fresh s : S} {e : Term V S} (h : (e.replaced (only b fresh)).Free s) :
    s = fresh ∨ s ≠ b ∧ e.Free s := by
  rcases h.of_replaced with ⟨hs, hn⟩ | ⟨v, r, -, hr, hrs⟩
  · unfold only at hn
    split at hn
    · cases hn
    · exact Or.inr ⟨‹_›, hs⟩
  · rw [eq_var_of_only hr] at hrs
    exact Or.inl hrs.symm

end Term

namespace Walk

variable {V S : Type} [DecidableEq S]

/-! ### Scopes of a substitution -/

/-- The names suspended below a binder. -/
def shadowBelow (env : Env V S) (shadow : List S) (b : S) : List S :=
  if (active? env shadow b).isSome then b :: shadow else shadow

/-- The name that a binder suspends, if any. -/
def suspendedBy (env : Env V S) (shadow : List S) (b : S) : Option S :=
  if (active? env shadow b).isSome then some b else none

/-- What is carried below a binder, after a capture was looked for. -/
def State.below (env : Env V S) (st : State S) (b : S) (body : Term V S) : State S :=
  ⟨shadowBelow env st.shadow b, (capture? env (shadowBelow env st.shadow b) st.known b body).1, st.asked⟩

@[simp] theorem below_shadow (env : Env V S) (st : State S) (b : S) (body : Term V S) :
    (st.below env b body).shadow = shadowBelow env st.shadow b := rfl

theorem below_grows (env : Env V S) (st : State S) (b : S) (body : Term V S) :
    Known.Grows env st.known (st.below env b body).known :=
  capture?_grows env (shadowBelow env st.shadow b) st.known b body

theorem active?_shadowBelow (env : Env V S) (shadow : List S) (b : S) :
    active? env (shadowBelow env shadow b) = Term.hide b (active? env shadow) := by
  funext s
  by_cases hs : s = b
  · subst hs
    unfold shadowBelow Term.hide
    split
    · simp [active?]
    · rename_i h
      simpa using h
  · unfold shadowBelow Term.hide
    rw [if_neg hs]
    split
    · simp [active?, hs]
    · rfl

theorem leave_suspendedBy {env : Env V S} {shadow : List S} {b : S} {st : State S}
    (h : st.shadow = shadowBelow env shadow b) : (st.leave (suspendedBy env shadow b)).shadow = shadow := by
  unfold suspendedBy
  unfold shadowBelow at h
  split
  · rename_i hb
    rw [if_pos hb] at h
    simp [State.leave, h]
  · rename_i hb
    rw [if_neg hb] at h
    exact h

@[simp] theorem leave_known (st : State S) (suspended : Option S) : (st.leave suspended).known = st.known := by
  cases suspended <;> rfl

theorem Known.Covers.below {env : Env V S} {shadow : List S} {known : Known S} {b : S} {body : Term V S}
    (h : known.Covers env shadow (.lam b body)) : known.Covers env (shadowBelow env shadow b) body := by
  intro v hv r hr
  rw [active?_shadowBelow] at hr
  unfold Term.hide at hr
  split at hr
  · cases hr
  · rename_i hne
    exact h v ⟨Ne.symm hne, hv⟩ r hr

theorem leaf_substituting {env : Env V S} (henv : ∀ s r, env.find? s = some r → r.Whole) (onCapture : OnCapture V S)
    (st : State S) (s : S) :
    (substituting env onCapture).leaf st s = .ok ((active? env st.shadow s).getD (.var s)) := by
  simp only [substituting]
  cases h : active? env st.shadow s with
  | none => rfl
  | some r =>
    simp only [Term.copy_of_whole (henv s r (env_find?_of_active? h))]
    rfl

theorem enter_substituting_of_none {env : Env V S} {onCapture : OnCapture V S} {st : State S} {b : S}
    {body : Term V S} (h : (capture? env (shadowBelow env st.shadow b) st.known b body).2 = none) :
    (substituting env onCapture).enter st b body =
      .ok ⟨b, body, suspendedBy env st.shadow b, st.below env b body, rfl⟩ := by
  unfold State.below
  unfold shadowBelow at h ⊢
  simp only [substituting, suspendedBy]
  split
  · rename_i known hc
    rw [hc]
  · rename_i known v hc
    rw [hc] at h
    cases h

theorem enter_substituting_of_some {env : Env V S} {onCapture : OnCapture V S} {st st' : State S} {b v b' : S}
    {body : Term V S} {inner : { inner : Term V S // inner.size = body.size }}
    (h : (capture? env (shadowBelow env st.shadow b) st.known b body).2 = some v)
    (hon : onCapture (st.below env b body) b v body = .ok (b', inner, st')) :
    (substituting env onCapture).enter st b body =
      .ok ⟨b', inner.1, suspendedBy env st.shadow b, st', inner.2⟩ := by
  unfold State.below at hon
  unfold shadowBelow at h hon
  simp only [substituting, suspendedBy]
  split
  · rename_i known hc
    rw [hc] at h
    cases h
  · rename_i known w hc
    rw [hc] at h hon
    cases h
    rw [hon]

theorem enter_substituting_of_error {env : Env V S} {onCapture : OnCapture V S} {st : State S} {b v : S}
    {body : Term V S} {r : Refusal S} (h : (capture? env (shadowBelow env st.shadow b) st.known b body).2 = some v)
    (hon : onCapture (st.below env b body) b v body = .error r) :
    (substituting env onCapture).enter st b body = .error r := by
  unfold State.below at hon
  unfold shadowBelow at h hon
  simp only [substituting]
  split
  · rename_i known hc
    rw [hc] at h
    cases h
  · rename_i known w hc
    rw [hc] at h hon
    cases h
    rw [hon]

/-- How a scope is entered: as it is, if its binder captures nothing, and otherwise by what is done about the capture. -/
theorem enter_substituting_split (env : Env V S) (onCapture : OnCapture V S) (st : State S) (b : S) (body : Term V S) :
    (substituting env onCapture).enter st b body =
        .ok ⟨b, body, suspendedBy env st.shadow b, st.below env b body, rfl⟩ ∨
      ∃ v, (capture? env (shadowBelow env st.shadow b) st.known b body).2 = some v ∧
        ((∃ fresh inner st', onCapture (st.below env b body) b v body = .ok (fresh, inner, st') ∧
            (substituting env onCapture).enter st b body =
              .ok ⟨fresh, inner.1, suspendedBy env st.shadow b, st', inner.2⟩) ∨
          ∃ r, onCapture (st.below env b body) b v body = .error r ∧
            (substituting env onCapture).enter st b body = .error r) := by
  cases hc : (capture? env (shadowBelow env st.shadow b) st.known b body).2 with
  | none => exact Or.inl (enter_substituting_of_none hc)
  | some v =>
    refine Or.inr ⟨v, rfl, ?_⟩
    cases hon : onCapture (st.below env b body) b v body with
    | ok chosen => exact Or.inl ⟨chosen.1, chosen.2.1, chosen.2.2, rfl, enter_substituting_of_some hc hon⟩
    | error r => exact Or.inr ⟨r, rfl, enter_substituting_of_error hc hon⟩

/-! ### The walk without a renamer -/

theorem capture?_eq_none_of_clear {env : Env V S} {shadow : List S} {known : Known S} {b : S} {body : Term V S}
    (hr : known.Right env)
    (hclear : ∀ v, body.Free v → ∀ r, Term.hide b (active? env shadow) v = some r → ¬r.Free b) :
    (capture? env (shadowBelow env shadow b) known b body).2 = none := by
  cases hc : (capture? env (shadowBelow env shadow b) known b body).2 with
  | none => rfl
  | some v =>
    obtain ⟨hv, r, hr', hfree⟩ := captures_of_capture? hr hc
    rw [active?_shadowBelow] at hr'
    exact absurd hfree (hclear v hv r hr')

/-- Where no binder captures, the walk without a renamer replaces the free names and keeps every binder. -/
theorem rebuild_plain {env : Env V S} (henv : ∀ s r, env.find? s = some r → r.Whole) {e : Term V S} (he : e.Whole)
    (st : State S) (hright : Known.Right env st.known) (hclear : e.Clear (active? env st.shadow)) :
    ∃ st', rebuild (plain env) st e = .ok (e.replaced (active? env st.shadow), st') ∧ st'.shadow = st.shadow ∧
      Known.Right env st'.known := by
  induction e generalizing st with
  | const v => exact ⟨st, rebuild_const rfl, rfl, hright⟩
  | var s => exact ⟨st, rebuild_var (leaf_substituting henv refuse st s), rfl, hright⟩
  | hole => exact absurd he Term.not_whole_hole
  | app fn arg ihfn iharg =>
    obtain ⟨st₁, hfn, hshadow, hright₁⟩ := ihfn he.1 st hright hclear.1
    rw [← hshadow] at hclear
    obtain ⟨st₂, harg, hshadow₂, hright₂⟩ := iharg he.2 st₁ hright₁ hclear.2
    rw [hshadow] at harg
    exact ⟨st₂, rebuild_app hfn harg, hshadow₂.trans hshadow, hright₂⟩
  | lam b body ih =>
    -- Suspending the binder's name is hiding it: the walk below sees the replacements that are left there.
    have hnone := capture?_eq_none_of_clear hright hclear.1
    have hclear' := hclear.2
    rw [← active?_shadowBelow] at hclear'
    obtain ⟨st', hbody, hshadow, hright'⟩ := ih he (st.below env b body) ((below_grows env st b body).right hright)
      hclear'
    refine ⟨_, ?_, leave_suspendedBy hshadow, by simpa using hright'⟩
    rw [Term.replaced, ← active?_shadowBelow]
    exact rebuild_lam (enter_substituting_of_none hnone) hbody

theorem active?_only (b fresh : S) : active? [(b, (.var fresh : Term V S))] [] = Term.only b fresh := by
  funext s
  by_cases hs : s = b
  · simp [active?, Env.find?, Term.only, hs]
  · simp [active?, Env.find?, Term.only, hs, Ne.symm hs]

theorem drain_plain_only {b fresh : S} {body : Term V S} (hbody : body.Whole) (h : ¬body.Mentions fresh) :
    ∃ st', drain (plain [(b, .var fresh)]) [.visit body] ⟨[], Known.ofTerm [(b, .var fresh)] body, []⟩ {} =
      .ok (body.replaced (Term.only b fresh), st') := by
  have hclear : body.Clear (Term.only b fresh) := Term.clear_only h
  rw [← active?_only] at hclear ⊢
  obtain ⟨st', hst', -⟩ := rebuild_plain
    (Term.whole_of_find?_single Term.whole_var) hbody ⟨[], Known.ofTerm [(b, .var fresh)] body, []⟩
    (Known.ofTerm_right _ body) hclear
  exact ⟨st', by rw [drain_eq_rebuild, hst']⟩

end Walk

end PostfixLambda
