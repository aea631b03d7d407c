import PostfixLambda.Proofs.Substitution.Renamer
import PostfixLambda.Proofs.Substitution.Replacement

/-! Substitution with a renamer. A renamer that honours its contract makes substitution total on whole terms, and what
    it gives is, in nameless form, the substitution of the replacements for the free names: no name of a replacement is
    captured, whatever names the renamer chooses. -/

namespace PostfixLambda

variable {V S : Type} [DecidableEq S]

/-- The assignment of an environment: a free name that is bound is assigned the nameless form of its term, every other
    reference stays. -/
def Env.assignment (env : Env V S) : Ref S → Nameless V S
  | .bound i => .ref (.bound i)
  | .free s =>
    match env.find? s with
    | some r => r.nameless []
    | none => .ref (.free s)

namespace Walk

/-! ### Renaming a binder -/

/-- A name that may take a binder's place: it does not occur in the body, it is not free in what the body receives,
    and it is not replaced itself. -/
structure Fresh (env : Env V S) (shadow : List S) (body : Term V S) (fresh : S) : Prop where
  not_mentioned : ¬body.Mentions fresh
  not_received : ∀ v, body.Free v → ¬Captures env shadow fresh v
  not_active : active? env shadow fresh = none

theorem mem_names_iff {env : Env V S} {s : S} : s ∈ env.names ↔ (env.find? s).isSome := by
  induction env with
  | nil => simp [Env.names, Env.find?]
  | cons binding rest ih =>
    obtain ⟨name, r⟩ := binding
    simp only [Env.names, List.map_cons, List.mem_cons, Env.find?] at ih ⊢
    by_cases hs : name = s
    · simp [hs]
    · simp [hs, Ne.symm hs, ih]

theorem fresh_of_not_taken {env : Env V S} {st : State S} {b fresh : S} {body : Term V S}
    (hright : Known.Right env st.known)
    (h : fresh ∉ b :: body.symbols ++ (learnActive env st.shadow body.freeVars st.known).2 ++
      env.names.filter (· ∉ st.shadow)) : Fresh env st.shadow body fresh := by
  simp only [List.cons_append, List.mem_cons, List.mem_append, not_or, Term.mem_symbols, List.mem_filter,
    decide_eq_true_eq, not_and, Decidable.not_not] at h
  obtain ⟨-, ⟨hmentions, hreceived⟩, hnames⟩ := h
  refine ⟨hmentions, ?_, ?_⟩
  · intro v hv hcaptures
    exact hreceived ((mem_learnActive hright).mpr ⟨v, Term.mem_freeVars.mpr hv, hcaptures⟩)
  · cases hr : active? env st.shadow fresh with
    | none => rfl
    | some r =>
      have hshadow := hnames (mem_names_iff.mpr (by rw [env_find?_of_active? hr]; rfl))
      simp [active?, hshadow] at hr

/-- A renamer that honours its contract renames the binder to a fresh name. -/
theorem renameBinder_of_honours {env : Env V S} {rename : Renamer S} (hrename : rename.Honours) (st : State S)
    (hright : Known.Right env st.known) {body : Term V S} (hbody : body.Whole) (b v : S) :
    ∃ fresh inner st', renameBinder env rename st b v body = .ok (fresh, inner, st') ∧
      Fresh env st.shadow body fresh ∧ inner.1 = body.replaced (Term.only b fresh) ∧ st'.shadow = st.shadow ∧
      Known.Grows env st.known st'.known := by
  obtain ⟨fresh, hchosen, htaken⟩ := hrename b (b :: body.symbols ++
    (learnActive env st.shadow body.freeVars st.known).2 ++ env.names.filter (· ∉ st.shadow))
  have hfresh := fresh_of_not_taken hright htaken
  obtain ⟨stᵢ, hdrain⟩ := drain_plain_only (b := b) hbody hfresh.not_mentioned
  simp only [renameBinder, renameBinderBy]
  split
  · rename_i message hm
    rw [hchosen] at hm
    cases hm
  · rename_i fresh' hm
    rw [hchosen] at hm
    cases hm
    split
    · rename_i inner' st' hinner
      rw [hdrain] at hinner
      cases hinner
      exact ⟨fresh, _, _, rfl, hfresh, rfl, rfl, learnActive_grows env st.shadow body.freeVars st.known⟩
    · rename_i r hr
      rw [hdrain] at hr
      cases hr

theorem Known.Covers.renamed {env : Env V S} {shadow : List S} {known : Known S} {fresh : S} {body : Term V S}
    (h : known.Covers env shadow body) (hfresh : Fresh env shadow body fresh) (b : S) :
    known.Covers env shadow (body.replaced (Term.only b fresh)) := by
  intro v hv r hr
  rcases hv.of_only with rfl | ⟨-, hv⟩
  · rw [hfresh.not_active] at hr
    cases hr
  · exact h v hv r hr

/-! ### What an abstraction means after its body was walked -/

theorem denote_lam_of_not_captures {env : Env V S} {shadow : List S} {b : S} {body body' : Term V S}
    (hclear : ∀ v, body.Free v → ¬Captures env (shadowBelow env shadow b) b v)
    (hmeans : ∀ ρ, body'.denote ρ = body.denote (Term.meaning (active? env (shadowBelow env shadow b)) ρ))
    (ρ : S → Nameless V S) :
    (Term.lam b body').denote ρ = (Term.lam b body).denote (Term.meaning (active? env shadow) ρ) := by
  refine Term.denote_lam_of_clear (fun v _ => ?_) (fun v hv r hr hfree => hclear v hv ⟨r, hr, hfree⟩) hmeans ρ
  rw [active?_shadowBelow]

/-- A binder that is renamed to a fresh name captures nothing any more, and the renamed abstraction means the same. -/
theorem denote_lam_of_fresh {env : Env V S} {shadow : List S} {b fresh : S} {body inner : Term V S}
    (hfresh : Fresh env (shadowBelow env shadow b) body fresh)
    (hmeans : ∀ ρ, inner.denote ρ =
      (body.replaced (Term.only b fresh)).denote (Term.meaning (active? env (shadowBelow env shadow b)) ρ))
    (ρ : S → Nameless V S) :
    (Term.lam fresh inner).denote ρ = (Term.lam b body).denote (Term.meaning (active? env shadow) ρ) := by
  rw [← Term.denote_lam_only hfresh.not_mentioned]
  refine Term.denote_lam_of_clear (fun v hv => ?_) (fun v hv r hr hfree => ?_) hmeans ρ
  · by_cases hvf : v = fresh
    · rw [hvf, hfresh.not_active, Term.hide, if_pos rfl]
    · rcases hv.of_only with rfl | ⟨hvb, -⟩
      · exact absurd rfl hvf
      · rw [active?_shadowBelow, Term.hide, Term.hide, if_neg hvb, if_neg hvf]
  · rcases hv.of_only with rfl | ⟨-, hv⟩
    · rw [hfresh.not_active] at hr
      cases hr
    · exact hfresh.not_received v hv ⟨r, hr, hfree⟩

/-! ### The walk with a renamer -/

/-- What the walk needs: what is known is right, and covers the term. -/
structure Ready (env : Env V S) (st : State S) (e : Term V S) : Prop where
  right : Known.Right env st.known
  covers : Known.Covers env st.shadow st.known e

theorem Ready.of_grows {env : Env V S} {st st' : State S} {e e' : Term V S} (h : Ready env st e)
    (hfree : ∀ s, e'.Free s → e.Free s) (hshadow : st'.shadow = st.shadow)
    (hg : Known.Grows env st.known st'.known) : Ready env st' e' := by
  refine ⟨hg.right h.right, fun v hv r hr => ?_⟩
  rw [hshadow] at hr
  exact hg.keeps v _ (h.covers v (hfree v hv) r hr)

/-- The walk with a renamer that honours its contract builds a term in which every free name means what its active
    replacement means. -/
theorem rebuild_renaming {env : Env V S} (henv : ∀ s r, env.find? s = some r → r.Whole) {rename : Renamer S}
    (hrename : rename.Honours) (st : State S) {e : Term V S} (he : e.Whole) (hready : Ready env st e) :
    ∃ e' st', rebuild (substituting env (renameBinder env rename)) st e = .ok (e', st') ∧ st'.shadow = st.shadow ∧
      Known.Grows env st.known st'.known ∧ ∀ ρ, e'.denote ρ = e.denote (Term.meaning (active? env st.shadow) ρ) := by
  -- By recursion on the size: the body of a renamed binder is not a part of the term, but as large as the one it
  -- replaces.
  match e with
  | .const v => exact ⟨.const v, st, rebuild_const rfl, rfl, .refl _, fun ρ => rfl⟩
  | .var s =>
    refine ⟨_, st, rebuild_var (leaf_substituting henv _ st s), rfl, .refl _, fun ρ => ?_⟩
    simp only [Term.denote, Term.meaning]
    cases active? env st.shadow s <;> rfl
  | .hole => exact absurd he Term.not_whole_hole
  | .app fn arg =>
    obtain ⟨fn', st₁, hfn, hshadow₁, hgrows₁, hmeans₁⟩ :=
      rebuild_renaming henv hrename st he.1 (hready.of_grows (fun s => Or.inl) rfl (.refl _))
    obtain ⟨arg', st₂, harg, hshadow₂, hgrows₂, hmeans₂⟩ :=
      rebuild_renaming henv hrename st₁ he.2 (hready.of_grows (fun s => Or.inr) hshadow₁ hgrows₁)
    refine ⟨.app fn' arg', st₂, rebuild_app hfn harg, hshadow₂.trans hshadow₁, hgrows₁.trans hgrows₂, fun ρ => ?_⟩
    rw [hshadow₁] at hmeans₂
    simp only [Term.denote, hmeans₁, hmeans₂]
  | .lam b body =>
    have hbody := Term.whole_lam.mp he
    have hgrows := below_grows env st b body
    have hcovers := hready.covers.below
    cases hc : (capture? env (shadowBelow env st.shadow b) st.known b body).2 with
    | none =>
      have hclear := not_captures_of_capture? hready.right hcovers hc
      obtain ⟨body', st', hbody', hshadow, hgrows', hmeans⟩ := rebuild_renaming henv hrename
        (st.below env b body) hbody ⟨hgrows.right hready.right, hcovers.grow hgrows⟩
      refine ⟨_, _, rebuild_lam (enter_substituting_of_none hc) hbody', leave_suspendedBy hshadow, ?_, fun ρ => ?_⟩
      · rw [leave_known]
        exact hgrows.trans hgrows'
      · exact denote_lam_of_not_captures hclear hmeans ρ
    | some v =>
      obtain ⟨fresh, ⟨inner, hsize⟩, st₁, hon, hfresh, rfl, hshadow₁, hgrows₁⟩ := renameBinder_of_honours hrename
        (st.below env b body) (hgrows.right hready.right) hbody b v
      rw [below_shadow] at hfresh hshadow₁
      -- The names suspended are those below `b`, not below the fresh name, which is not replaced anyway.
      have hgrows₂ := hgrows.trans hgrows₁
      have hcovers₁ := (hcovers.renamed hfresh b).grow hgrows₂
      rw [← hshadow₁] at hcovers₁
      obtain ⟨inner', st', hinner, hshadow, hgrows', hmeans⟩ := rebuild_renaming henv hrename st₁
        (hbody.only b fresh) ⟨hgrows₂.right hready.right, hcovers₁⟩
      refine ⟨_, _, rebuild_lam (enter_substituting_of_some hc hon) hinner,
        leave_suspendedBy (hshadow.trans hshadow₁), ?_, fun ρ => ?_⟩
      · rw [leave_known]
        exact hgrows₂.trans hgrows'
      · rw [hshadow₁] at hmeans
        exact denote_lam_of_fresh hfresh hmeans ρ
termination_by e.size
decreasing_by
  all_goals simp only [Term.size]
  all_goals omega

theorem active?_nil (env : Env V S) : active? env [] = env.find? := by
  funext s
  simp [active?]

end Walk

namespace Term

/-! ### Substitution -/

/-- Substitution with a renamer that honours its contract succeeds on whole terms. What it gives is whole, and every
    free name in it means what its replacement means. -/
theorem bind_of_honours {e : Term V S} {env : Env V S} {rename : Renamer S} (he : e.Whole)
    (henv : ∀ s r, env.find? s = some r → r.Whole) (hrename : rename.Honours) :
    ∃ e', (e.bind env (some rename)).result = .ok e' ∧ e'.Whole ∧
      ∀ ρ, e'.denote ρ = e.denote (meaning env.find? ρ) := by
  obtain ⟨e', st', hbuilt, -, -, hmeans⟩ := Walk.rebuild_renaming henv hrename ⟨[], Walk.Known.ofTerm env e, []⟩ he
    ⟨Walk.Known.ofTerm_right env e, Walk.Known.ofTerm_covers env [] e⟩
  rw [Walk.active?_nil] at hmeans
  refine ⟨e', Walk.run_result_of_rebuild hbuilt, Walk.whole_of_rebuild (fun st s r hr => ?_) hbuilt, hmeans⟩
  rw [Walk.leaf_substituting henv] at hr
  cases hr
  cases hactive : Walk.active? env st.shadow s with
  | none => exact whole_var
  | some r => exact henv s r (Walk.env_find?_of_active? hactive)

/-- In nameless form, giving the free names the meaning of their replacements is a substitution. -/
theorem subst_assignment (e : Term V S) (env : Env V S) :
    (e.nameless []).subst env.assignment = e.denote (meaning env.find? fun s => .ref (.free s)) := by
  rw [nameless_eq_denote, subst_denote]
  congr 1
  funext s
  simp only [Ref.resolve, Nameless.subst, Env.assignment, meaning]
  cases env.find? s with
  | none => rfl
  | some r => exact nameless_eq_denote [] r

/-- With a renamer that honours its contract, binding a whole term in an environment of whole terms succeeds, and in
    nameless form the result is the simultaneous substitution of the bound terms for the free names. Substitution for
    one name is the case of an environment with one binding. -/
theorem bind_nameless (e : Term V S) (env : Env V S) (rename : Renamer S) (he : e.Whole)
    (henv : ∀ s r, env.find? s = some r → r.Whole) (hrename : rename.Honours) :
    (∃ e', (e.bind env (some rename)).result = .ok e' ∧
      e'.nameless [] = (e.nameless []).subst env.assignment) ∧
    ∀ v r, r.Whole → ∃ e', (e.substitute v r (some rename)).result = .ok e' ∧
      e'.nameless [] = (e.nameless []).subst (Env.assignment [(v, r)]) := by
  have hbind : ∀ env : Env V S, (∀ s r, env.find? s = some r → r.Whole) →
      ∃ e', (e.bind env (some rename)).result = .ok e' ∧ e'.nameless [] = (e.nameless []).subst env.assignment := by
    intro env henv
    obtain ⟨e', hok, -, hmeans⟩ := bind_of_honours he henv hrename
    refine ⟨e', hok, ?_⟩
    rw [subst_assignment, nameless_eq_denote]
    exact hmeans _
  exact ⟨hbind env henv, fun v r hr => hbind [(v, r)] (whole_of_find?_single hr)⟩

/-- Below a binder `y`, a variable `x` is replaced by `y`: the binder is renamed, and the inserted `y` stays free. -/
theorem bind_nameless_renames :
    ∃ e', ((lam [0x79] (app (var [0x78]) (var [0x79])) : Term Nat Bytes).bind [([0x78], var [0x79])]
      (some Renamer.primes)).result = .ok e' ∧
      e'.nameless [] = .lam (.app (.ref (.free [0x79])) (.ref (.bound 0))) :=
  (bind_nameless _ _ _ (by decide) (whole_of_find?_single whole_var) Renamer.primes_honours).1

end Term

end PostfixLambda
