import PostfixLambda.Proofs.Substitution.Vocabulary

/-! The free names of a substitution. Nothing is asked of the terms but that the substitution succeeds: they may have
    holes, as long as the walk does not meet one. Then the names that are free in the result are those that were free
    and are not replaced, and those that are free in what replaces a free name. -/

namespace PostfixLambda

variable {V S : Type} [DecidableEq S]

namespace Term

/-! ### Free names of a replacement -/

/-- The name is free in the term, and not replaced, or it comes with the replacement of a name that is free there. -/
def FreeAfter (σ : S → Option (Term V S)) (e : Term V S) (s : S) : Prop :=
  e.Free s ∧ σ s = none ∨ ∃ v r, e.Free v ∧ σ v = some r ∧ r.Free s

omit [DecidableEq S] in
theorem freeAfter_congr {σ : S → Option (Term V S)} {e e' : Term V S} (h : ∀ v, e.Free v ↔ e'.Free v) (s : S) :
    e.FreeAfter σ s ↔ e'.FreeAfter σ s := by
  simp only [FreeAfter, h]

omit [DecidableEq S] in
theorem freeAfter_var (σ : S → Option (Term V S)) (t s : S) :
    ((σ t).getD (var t)).Free s ↔ (var t : Term V S).FreeAfter σ s := by
  simp only [FreeAfter, Free]
  constructor
  · intro h
    cases hr : σ t with
    | none =>
      rw [hr] at h
      obtain rfl : t = s := h
      exact Or.inl ⟨rfl, hr⟩
    | some r =>
      rw [hr] at h
      exact Or.inr ⟨t, r, rfl, hr, h⟩
  · rintro (⟨rfl, hr⟩ | ⟨v, r, rfl, hr, hs⟩)
    · rw [hr]
      rfl
    · rw [hr]
      exact hs

omit [DecidableEq S] in
theorem freeAfter_app (σ : S → Option (Term V S)) (fn arg : Term V S) (s : S) :
    (app fn arg).FreeAfter σ s ↔ fn.FreeAfter σ s ∨ arg.FreeAfter σ s := by
  constructor
  · rintro (⟨hs | hs, hn⟩ | ⟨v, r, hv | hv, hr⟩)
    · exact Or.inl (Or.inl ⟨hs, hn⟩)
    · exact Or.inr (Or.inl ⟨hs, hn⟩)
    · exact Or.inl (Or.inr ⟨v, r, hv, hr⟩)
    · exact Or.inr (Or.inr ⟨v, r, hv, hr⟩)
  · rintro ((⟨hs, hn⟩ | ⟨v, r, hv, hr⟩) | (⟨hs, hn⟩ | ⟨v, r, hv, hr⟩))
    · exact Or.inl ⟨Or.inl hs, hn⟩
    · exact Or.inr ⟨v, r, Or.inl hv, hr⟩
    · exact Or.inl ⟨Or.inr hs, hn⟩
    · exact Or.inr ⟨v, r, Or.inr hv, hr⟩

/-- Below a binder that captures nothing, the names free after the replacement are those free outside, and the
    binder. Of the replacements `τ` in the body only those of its free names matter. -/
theorem freeAfter_lam {σ τ : S → Option (Term V S)} {b : S} {body : Term V S}
    (hbelow : ∀ v, body.Free v → τ v = hide b σ v) (hclear : ∀ v, body.Free v → ∀ r, τ v = some r → ¬r.Free b) (s : S) :
    (lam b body).FreeAfter σ s ↔ b ≠ s ∧ body.FreeAfter τ s := by
  constructor
  · rintro (⟨⟨hb, hs⟩, hn⟩ | ⟨v, r, ⟨hb, hv⟩, hr, hs⟩)
    · refine ⟨hb, Or.inl ⟨hs, ?_⟩⟩
      rw [hbelow s hs, hide, if_neg (Ne.symm hb), hn]
    · have hτ : τ v = some r := by rw [hbelow v hv, hide, if_neg (Ne.symm hb), hr]
      refine ⟨?_, Or.inr ⟨v, r, hv, hτ, hs⟩⟩
      rintro rfl
      exact hclear v hv r hτ hs
  · rintro ⟨hb, ⟨hs, hn⟩ | ⟨v, r, hv, hr, hs⟩⟩
    · rw [hbelow s hs, hide, if_neg (Ne.symm hb)] at hn
      exact Or.inl ⟨⟨hb, hs⟩, hn⟩
    · rw [hbelow v hv] at hr
      by_cases hvb : v = b
      · simp [hide, hvb] at hr
      · rw [hide, if_neg hvb] at hr
        exact Or.inr ⟨v, r, ⟨Ne.symm hvb, hv⟩, hr, hs⟩

/-- A free name that is not replaced stays free: the binders are kept. -/
theorem Free.replaced {σ : S → Option (Term V S)} {e : Term V S} {s : S} (h : e.Free s) (hs : σ s = none) :
    (e.replaced σ).Free s := by
  induction e generalizing σ with
  | var t =>
    obtain rfl : t = s := h
    simp only [Term.replaced, hs]
    rfl
  | const v => cases h
  | hole => cases h
  | app fn arg ihfn iharg =>
    rcases h with h | h
    · exact Or.inl (ihfn h hs)
    · exact Or.inr (iharg h hs)
  | lam b body ih =>
    refine ⟨h.1, ih h.2 ?_⟩
    rw [hide, if_neg (Ne.symm h.1), hs]

/-- Renaming a binder to a name that does not occur in its scope leaves the free names of the abstraction. -/
theorem free_lam_only {b fresh : S} {body : Term V S} (h : ¬body.Mentions fresh) (s : S) :
    (lam fresh (body.replaced (only b fresh))).Free s ↔ (lam b body).Free s := by
  constructor
  · rintro ⟨hfresh, hs⟩
    rcases hs.of_only with rfl | ⟨hsb, hs⟩
    · exact absurd rfl hfresh
    · exact ⟨Ne.symm hsb, hs⟩
  · rintro ⟨hb, hs⟩
    have hfresh : fresh ≠ s := by
      rintro rfl
      exact h hs.mentions
    exact ⟨hfresh, hs.replaced (if_neg (Ne.symm hb))⟩

end Term

namespace Walk

/-! ### Walks that succeed -/

/-- A walk that succeeds has met no hole, if the scopes that it enters keep the holes of their bodies. -/
theorem source_whole_of_rebuild {rules : Rules V S}
    (henter : ∀ st b (body : Term V S) scope, rules.enter st b body = .ok scope → scope.inner.Whole → body.Whole)
    {st st' : State S} {e e' : Term V S} (h : rebuild rules st e = .ok (e', st')) : e.Whole := by
  fun_induction rebuild rules st e generalizing e' st' with
  | case1 st v => exact Term.whole_const
  | case3 st s r hr => exact Term.whole_var
  | case7 st fn arg fn' st₁ hfn arg' st₂ harg ihfn iharg => exact ⟨ihfn hfn, iharg harg⟩
  | case10 st b body scope hscope inner st₁ hinner ih => exact henter st b body scope hscope (ih hinner)
  | case2 | case4 | case5 | case6 | case8 | case9 | case11 => cases h

theorem source_whole_of_plain {env : Env V S} {st st' : State S} {e e' : Term V S}
    (h : rebuild (plain env) st e = .ok (e', st')) : e.Whole := by
  refine source_whole_of_rebuild (fun st b body scope hscope hinner => ?_) h
  rcases enter_substituting_cases hscope with ⟨-, hsame⟩ | ⟨v, inner, st', hon, -⟩
  · exact hsame ▸ hinner
  · cases hon

end Walk

/-- A copy is the term itself. -/
theorem Term.eq_of_copy {e e' : Term V S} (h : e.copy = .ok e') : e' = e := by
  obtain ⟨st', hbuilt⟩ := Walk.rebuild_of_run h
  have hwhole : e.Whole := by
    refine Walk.source_whole_of_rebuild (fun st b body scope hscope hinner => ?_) hbuilt
    cases hscope
    exact hinner
  rw [copy_of_whole hwhole] at h
  exact (Except.ok.inj h).symm

namespace Walk

theorem leaf_substituting_ok {env : Env V S} {onCapture : OnCapture V S} {st : State S} {s : S} {r : Term V S}
    (h : (substituting env onCapture).leaf st s = .ok r) : r = (active? env st.shadow s).getD (.var s) := by
  simp only [substituting] at h
  split at h
  · rename_i hnone
    cases h
    rw [hnone]
    rfl
  · rename_i r' hactive
    split at h
    · rename_i e hcopy
      cases h
      rw [hactive]
      exact Term.eq_of_copy hcopy
    · cases h

/-- What is done about a capture, where it succeeds, is to rename the binder to a fresh name. -/
def RenamesFresh (env : Env V S) (onCapture : OnCapture V S) : Prop :=
  ∀ st b v body fresh inner st', Known.Right env st.known → onCapture st b v body = .ok (fresh, inner, st') →
    Fresh env st.shadow body fresh ∧ inner.1 = body.replaced (Term.only b fresh) ∧ st'.shadow = st.shadow ∧
      Known.Grows env st.known st'.known

theorem refuse_renamesFresh (env : Env V S) : RenamesFresh env refuse := by
  intro st b v body fresh inner st' _ h
  cases h

theorem renameBinder_renamesFresh (env : Env V S) {rename : Renamer S} (hrename : rename.Honours) :
    RenamesFresh env (renameBinder env rename) := by
  intro st b v body fresh inner st' hright h
  obtain ⟨taken, stᵢ, stᵢ', -, hbuilt⟩ := renameBinder_ok h
  have hbody : body.Whole := source_whole_of_plain hbuilt
  obtain ⟨fresh', inner', st'', hok, hfresh, hinner, hshadow, hgrows⟩ :=
    renameBinder_of_honours hrename st hright hbody b v
  rw [hok] at h
  cases h
  exact ⟨hfresh, hinner, hshadow, hgrows⟩

/-! ### The walk -/

/-- What a walk that succeeds leaves: what is known has grown, and the free names are those after the replacement. -/
structure Replaces (env : Env V S) (st : State S) (e e' : Term V S) (st' : State S) : Prop where
  shadow : st'.shadow = st.shadow
  grows : Known.Grows env st.known st'.known
  free : ∀ s, e'.Free s ↔ e.FreeAfter (active? env st.shadow) s

/-- A scope whose binder captures nothing. -/
theorem Replaces.lam {env : Env V S} {st st' : State S} {b : S} {body inner : Term V S}
    (hclear : ∀ v, body.Free v → ¬Captures env (shadowBelow env st.shadow b) b v)
    (h : Replaces env (st.below env b body) body inner st') :
    Replaces env st (.lam b body) (.lam b inner) (st'.leave (suspendedBy env st.shadow b)) where
  shadow := leave_suspendedBy h.shadow
  grows := by
    rw [leave_known]
    exact (below_grows env st b body).trans h.grows
  free s := by
    have hfree := h.free s
    rw [below_shadow] at hfree
    rw [Term.freeAfter_lam (fun v _ => by rw [active?_shadowBelow]) fun v hv r hr hb => hclear v hv ⟨r, hr, hb⟩]
    exact and_congr_right fun _ => hfree

/-- A scope whose binder is renamed to a fresh name. -/
theorem Replaces.renamed {env : Env V S} {st st₁ st' : State S} {b fresh : S} {body inner : Term V S}
    (hfresh : Fresh env (shadowBelow env st.shadow b) body fresh) (hshadow : st₁.shadow = shadowBelow env st.shadow b)
    (hgrows : Known.Grows env st.known st₁.known)
    (h : Replaces env st₁ (body.replaced (Term.only b fresh)) inner st') :
    Replaces env st (.lam b body) (.lam fresh inner) (st'.leave (suspendedBy env st.shadow b)) where
  shadow := leave_suspendedBy (h.shadow.trans hshadow)
  grows := by
    rw [leave_known]
    exact hgrows.trans h.grows
  free s := by
    have hfree := h.free s
    rw [hshadow] at hfree
    rw [← Term.freeAfter_congr (Term.free_lam_only hfresh.not_mentioned)]
    -- The names suspended are those below `b`; below the fresh name, which is not replaced, they are the same.
    have hlam := @Term.freeAfter_lam _ _ _ (active? env st.shadow) (active? env (shadowBelow env st.shadow b))
    rw [hlam (fun v hv => ?_) fun v hv r hr hb => ?_]
    · exact and_congr_right fun _ => hfree
    · by_cases hvf : v = fresh
      · rw [hvf, hfresh.not_active, Term.hide, if_pos rfl]
      · rcases hv.of_only with rfl | ⟨hvb, -⟩
        · exact absurd rfl hvf
        · rw [active?_shadowBelow, Term.hide, Term.hide, if_neg hvb, if_neg hvf]
    · rcases hv.of_only with rfl | ⟨-, hv⟩
      · rw [hfresh.not_active] at hr
        cases hr
      · exact hfresh.not_received v hv ⟨r, hr, hb⟩

theorem rebuild_replaces {env : Env V S} {onCapture : OnCapture V S} (hon : RenamesFresh env onCapture)
    {st st' : State S} {e e' : Term V S} (hready : Ready env st e)
    (h : rebuild (substituting env onCapture) st e = .ok (e', st')) : Replaces env st e e' st' := by
  fun_induction rebuild (substituting env onCapture) st e generalizing e' st' with
  | case1 st v =>
    cases h
    exact ⟨rfl, .refl _, fun s => by simp [Term.FreeAfter, Term.Free]⟩
  | case3 st t r hr =>
    cases h
    refine ⟨rfl, .refl _, fun s => ?_⟩
    rw [leaf_substituting_ok hr]
    exact Term.freeAfter_var (active? env st.shadow) t s
  | case7 st fn arg fn' st₁ hfn arg' st₂ harg ihfn iharg =>
    cases h
    have hleft := ihfn (hready.of_grows (fun s => Or.inl) rfl (.refl _)) hfn
    have hright := iharg (hready.of_grows (fun s => Or.inr) hleft.shadow hleft.grows) harg
    refine ⟨hright.shadow.trans hleft.shadow, hleft.grows.trans hright.grows, fun s => ?_⟩
    rw [Term.freeAfter_app, ← hleft.free s, ← hleft.shadow, ← hright.free s]
    rfl
  | case10 st b body scope henter inner st₁ hinner ih =>
    cases h
    have hgrows := below_grows env st b body
    have hcovers := hready.covers.below
    cases hc : (capture? env (shadowBelow env st.shadow b) st.known b body).2 with
    | none =>
      rw [enter_substituting_of_none hc] at henter
      cases henter
      have hbelow := ih ⟨hgrows.right hready.right, hcovers.grow hgrows⟩ hinner
      exact hbelow.lam (not_captures_of_capture? hready.right hcovers hc)
    | some v =>
      cases hchosen : onCapture (st.below env b body) b v body with
      | error r =>
        rw [enter_substituting_of_error hc hchosen] at henter
        cases henter
      | ok chosen =>
        obtain ⟨fresh, ⟨body', hsize⟩, st₂⟩ := chosen
        rw [enter_substituting_of_some hc hchosen] at henter
        cases henter
        obtain ⟨hfresh, hbody, hshadow, hgrows₁⟩ := hon _ _ _ _ _ _ _ (hgrows.right hready.right) hchosen
        rw [below_shadow] at hfresh hshadow
        simp only at hbody
        subst hbody
        have hgrows₂ := hgrows.trans hgrows₁
        have hcovers₁ := (hcovers.renamed hfresh b).grow hgrows₂
        rw [← hshadow] at hcovers₁
        have hbelow := ih ⟨hgrows₂.right hready.right, hcovers₁⟩ hinner
        exact hbelow.renamed hfresh hshadow hgrows₂
  | case2 | case4 | case5 | case6 | case8 | case9 | case11 => cases h

end Walk

/-- The free names of a substitution that succeeds, with a renamer that honours its contract or without one. -/
theorem Term.bind_free {e e' : Term V S} {env : Env V S} {rename? : Option (Renamer S)}
    (hrename : ∀ rename, rename? = some rename → rename.Honours) (h : (e.bind env rename?).result = .ok e') (s : S) :
    e'.Free s ↔ e.FreeAfter env.find? s := by
  obtain ⟨st', hbuilt⟩ := Walk.rebuild_of_run h
  have hready : Walk.Ready env ⟨[], Walk.Known.ofTerm env e, []⟩ e :=
    ⟨Walk.Known.ofTerm_right env e, Walk.Known.ofTerm_covers env [] e⟩
  rw [← Walk.active?_nil]
  cases rename? with
  | none => exact (Walk.rebuild_replaces (Walk.refuse_renamesFresh env) hready hbuilt).free s
  | some rename =>
    exact (Walk.rebuild_replaces (Walk.renameBinder_renamesFresh env (hrename rename rfl)) hready hbuilt).free s

end PostfixLambda
