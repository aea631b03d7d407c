import PostfixLambda.Proofs.Term.Names
import PostfixLambda.Substitution.Basic

/-! Which binders capture. A walk remembers the free names of the replacements that it has seen. What it remembers is
    right, and it only learns more (`Known.Grows`); it has seen every replacement that the part at hand can receive
    (`Known.Covers`). So the search for a capture, which passes over binders that no remembered replacement has free,
    finds the same as one that looks at every free name of the body. -/

namespace PostfixLambda.Walk

variable {V S : Type} [DecidableEq S]

/-! ### What is known of replacements -/

/-- What is known of a name is the free names of its replacement. -/
def Known.Right (env : Env V S) (known : Known S) : Prop :=
  ∀ s names, known.find? s = some names → ∃ r, env.find? s = some r ∧ names = r.freeVars

/-- From `known` to `known'` nothing is forgotten, and nothing wrong is learnt. -/
structure Known.Grows (env : Env V S) (known known' : Known S) : Prop where
  keeps : ∀ s names, known.find? s = some names → known'.find? s = some names
  right : known.Right env → known'.Right env

/-- Every active replacement that the term can receive is known. -/
def Known.Covers (env : Env V S) (shadow : List S) (known : Known S) (e : Term V S) : Prop :=
  ∀ v, e.Free v → ∀ r, active? env shadow v = some r → known.find? v = some r.freeVars

theorem env_find?_of_active? {env : Env V S} {shadow : List S} {s : S} {r : Term V S}
    (h : active? env shadow s = some r) : env.find? s = some r := by
  unfold active? at h
  split at h
  · cases h
  · exact h

namespace Known

variable {env : Env V S} {known known' known'' : Known S}

theorem Grows.refl (known : Known S) : known.Grows env known := ⟨fun _ _ h => h, id⟩

theorem Grows.trans (h : known.Grows env known') (h' : known'.Grows env known'') : known.Grows env known'' :=
  ⟨fun s names hs => h'.keeps s names (h.keeps s names hs), fun hr => h'.right (h.right hr)⟩

theorem Covers.grow {shadow : List S} {e : Term V S} (h : known.Covers env shadow e) (hg : known.Grows env known') :
    known'.Covers env shadow e :=
  fun v hv r hr => hg.keeps v _ (h v hv r hr)

theorem find?_cons (known : Known S) (name : S) (names : List S) (s : S) :
    Known.find? ((name, names) :: known) s = if name = s then some names else known.find? s := by
  unfold Known.find?
  by_cases h : name = s <;> simp [h]

theorem learn_snd {v : S} {r : Term V S} (hr : known.Right env) (hv : env.find? v = some r) :
    (known.learn v r).2 = r.freeVars := by
  unfold learn
  split
  · rename_i names hn
    obtain ⟨r', hr', rfl⟩ := hr v names hn
    rw [hv] at hr'
    cases hr'
    rfl
  · rfl

theorem learn_find? {v : S} {r : Term V S} (hr : known.Right env) (hv : env.find? v = some r) :
    (known.learn v r).1.find? v = some r.freeVars := by
  have hsnd := learn_snd hr hv
  unfold learn at hsnd ⊢
  split
  · rename_i names hn
    rw [hn] at hsnd
    cases hsnd
    exact hn
  · rw [find?_cons, if_pos rfl]

theorem learn_grows {v : S} {r : Term V S} (hv : env.find? v = some r) : known.Grows env (known.learn v r).1 := by
  unfold learn
  split
  · exact .refl known
  · rename_i hn
    refine ⟨fun s names hs => ?_, fun hr s names hs => ?_⟩
    · have hne : v ≠ s := by
        rintro rfl
        rw [hn] at hs
        cases hs
      rw [find?_cons, if_neg hne]
      exact hs
    · rw [find?_cons] at hs
      split at hs
      · rename_i heq
        cases hs
        exact ⟨r, heq ▸ hv, rfl⟩
      · exact hr s names hs

theorem right_nil : Known.Right env [] := fun _ _ h => by cases h

theorem learnOf_grows (known : Known S) (s : S) : known.Grows env (learnOf env known s) := by
  unfold learnOf
  split
  · rename_i r hr
    exact learn_grows hr
  · exact .refl known

theorem foldl_learnOf_grows (names : List S) (known : Known S) : known.Grows env (names.foldl (learnOf env) known) := by
  induction names generalizing known with
  | nil => exact .refl known
  | cons s rest ih => exact (learnOf_grows known s).trans (ih _)

theorem foldl_learnOf_find? {names : List S} {v : S} {r : Term V S} (hr : known.Right env) (hmem : v ∈ names)
    (hv : env.find? v = some r) : (names.foldl (learnOf env) known).find? v = some r.freeVars := by
  induction names generalizing known with
  | nil => cases hmem
  | cons s rest ih =>
    have hstep : known.Grows env (learnOf env known s) := learnOf_grows known s
    rcases List.mem_cons.mp hmem with rfl | hmem
    -- What is learnt of `v` here is kept while the rest is learnt.
    · refine (foldl_learnOf_grows rest _).keeps v _ ?_
      simp only [learnOf, hv]
      exact learn_find? hr hv
    · exact ih (hstep.right hr) hmem

theorem ofTerm_right (env : Env V S) (e : Term V S) : (ofTerm env e).Right env :=
  (foldl_learnOf_grows e.freeVars []).right right_nil

/-- Before a walk, the free names of every replacement that the term can receive are known. -/
theorem ofTerm_covers (env : Env V S) (shadow : List S) (e : Term V S) : (ofTerm env e).Covers env shadow e :=
  fun _ hv _ hr => foldl_learnOf_find? right_nil (Term.mem_freeVars.mpr hv) (env_find?_of_active? hr)

theorem mem_of_find? {s : S} {names : List S} (h : known.find? s = some names) : (s, names) ∈ known := by
  unfold Known.find? at h
  obtain ⟨⟨name, names'⟩, hp, rfl⟩ := Option.map_eq_some_iff.mp h
  obtain rfl : name = s := by simpa using List.find?_some hp
  exact List.mem_of_find?_eq_some hp

theorem reaches_of_find? {s b : S} {names : List S} (h : known.find? s = some names) (hb : b ∈ names) :
    known.reaches b = true := by
  rw [reaches, List.any_eq_true]
  exact ⟨(s, names), mem_of_find? h, by simpa using hb⟩

end Known

/-! ### Captures -/

/-- The binder `b` would capture a free name of the active replacement of `v`. -/
def Captures (env : Env V S) (shadow : List S) (b v : S) : Prop := ∃ r, active? env shadow v = some r ∧ r.Free b

instance (env : Env V S) (shadow : List S) (b v : S) : Decidable (Captures env shadow b v) :=
  match h : active? env shadow v with
  | some r => decidable_of_iff (r.Free b) ⟨fun hfree => ⟨r, h, hfree⟩, fun ⟨_, hr, hfree⟩ => by
      rw [h] at hr
      cases hr
      exact hfree⟩
  | none => .isFalse fun ⟨_, hr, _⟩ => by
      rw [h] at hr
      cases hr

theorem firstCapture_grows (env : Env V S) (shadow : List S) (b : S) (names : List S) (known : Known S) :
    known.Grows env (firstCapture env shadow b names known).1 := by
  induction names generalizing known with
  | nil => exact .refl known
  | cons v rest ih =>
    simp only [firstCapture]
    split
    · exact ih known
    · rename_i r hr
      have hlearn : known.Grows env (known.learn v r).1 := Known.learn_grows (env_find?_of_active? hr)
      split
      · exact hlearn
      · exact hlearn.trans (ih _)

theorem capture?_grows (env : Env V S) (shadow : List S) (known : Known S) (b : S) (body : Term V S) :
    known.Grows env (capture? env shadow known b body).1 := by
  unfold capture?
  split
  · exact firstCapture_grows env shadow b body.freeVars known
  · exact .refl known

/-- The capture found is the first among the names, in their order. -/
theorem firstCapture_eq {env : Env V S} {shadow : List S} {b : S} (names : List S) {known : Known S}
    (hr : known.Right env) :
    (firstCapture env shadow b names known).2 = names.find? fun v => Captures env shadow b v := by
  induction names generalizing known with
  | nil => rfl
  | cons v rest ih =>
    simp only [firstCapture]
    split
    · rename_i hv
      have hnot : ¬Captures env shadow b v := by
        rintro ⟨r, hactive, -⟩
        rw [hv] at hactive
        cases hactive
      rw [List.find?_cons_of_neg (by simpa using hnot), ih hr]
    · rename_i r hv
      have hfind := env_find?_of_active? hv
      have hiff : Captures env shadow b v ↔ b ∈ (known.learn v r).2 := by
        rw [Known.learn_snd hr hfind, Term.mem_freeVars]
        constructor
        · rintro ⟨r', hactive, hfree⟩
          rw [hv] at hactive
          cases hactive
          exact hfree
        · exact fun hfree => ⟨r, hv, hfree⟩
      split
      · rename_i hb
        rw [List.find?_cons_of_pos (by simpa using hiff.mpr hb)]
      · rename_i hb
        rw [List.find?_cons_of_neg (by simpa using fun h => hb (hiff.mp h)), ih ((Known.learn_grows hfind).right hr)]

/-- Passing over the binders that no replacement known has free misses no capture: all replacements that count are
    known. -/
theorem capture?_eq {env : Env V S} {shadow : List S} {known : Known S} {b : S} {body : Term V S}
    (hr : known.Right env) (hc : known.Covers env shadow body) :
    (capture? env shadow known b body).2 = body.freeVars.find? fun v => Captures env shadow b v := by
  unfold capture?
  split
  · exact firstCapture_eq body.freeVars hr
  · rename_i hreach
    symm
    rw [List.find?_eq_none]
    intro v hv hcap
    obtain ⟨r, hactive, hfree⟩ := of_decide_eq_true hcap
    exact hreach (Known.reaches_of_find? (hc v (Term.mem_freeVars.mp hv) r hactive) (Term.mem_freeVars.mpr hfree))

/-- When no capture is found, the binder captures no name of what its body receives. -/
theorem not_captures_of_capture? {env : Env V S} {shadow : List S} {known : Known S} {b : S} {body : Term V S}
    (hr : known.Right env) (hc : known.Covers env shadow body)
    (h : (capture? env shadow known b body).2 = none) : ∀ v, body.Free v → ¬Captures env shadow b v := by
  intro v hv hcap
  rw [capture?_eq hr hc, List.find?_eq_none] at h
  exact h v (Term.mem_freeVars.mpr hv) (decide_eq_true hcap)

theorem captures_of_capture? {env : Env V S} {shadow : List S} {known : Known S} {b v : S} {body : Term V S}
    (hr : known.Right env) (h : (capture? env shadow known b body).2 = some v) :
    body.Free v ∧ Captures env shadow b v := by
  unfold capture? at h
  split at h
  · rw [firstCapture_eq body.freeVars hr] at h
    exact ⟨Term.mem_freeVars.mp (List.mem_of_find?_eq_some h), by simpa using List.find?_some h⟩
  · cases h

/-! ### Names received -/

theorem learnActive_grows (env : Env V S) (shadow : List S) (names : List S) (known : Known S) :
    known.Grows env (learnActive env shadow names known).1 := by
  induction names generalizing known with
  | nil => exact .refl known
  | cons v rest ih =>
    simp only [learnActive]
    split
    · exact ih known
    · rename_i r hr
      exact (Known.learn_grows (env_find?_of_active? hr)).trans (ih _)

/-- Of what is known, only its rightness matters for the names that a body receives. -/
theorem learnActive_snd {env : Env V S} (shadow names : List S) {known : Known S} (h : known.Right env) :
    (learnActive env shadow names known).2 =
      names.flatMap fun v => ((active? env shadow v).map Term.freeVars).getD [] := by
  induction names generalizing known with
  | nil => rfl
  | cons v rest ih =>
    rw [List.flatMap_cons]
    simp only [learnActive]
    split
    · rename_i hv
      rw [hv, ih h]
      rfl
    · rename_i r hv
      have hfind := env_find?_of_active? hv
      rw [hv, Known.learn_snd h hfind, ih ((Known.learn_grows hfind).right h)]
      rfl

theorem mem_learnActive {env : Env V S} {shadow names : List S} {known : Known S} (hr : known.Right env) {t : S} :
    t ∈ (learnActive env shadow names known).2 ↔ ∃ v ∈ names, Captures env shadow t v := by
  rw [learnActive_snd shadow names hr, List.mem_flatMap]
  refine exists_congr fun v => and_congr_right fun _ => ?_
  cases hv : active? env shadow v <;> simp [Captures, hv, Term.mem_freeVars]

end PostfixLambda.Walk
