import PostfixLambda.Proofs.Substitution.Emission
import PostfixLambda.Proofs.Substitution.FullSearch
import PostfixLambda.Proofs.Substitution.Primes

/-! Where a substitution asks for a fresh name. A walk is followed task by task: every call of the renamer comes from a
    binder that it has come to and that would capture. The names taken there are finitely many: the binder, the names in
    its body, those that come into the body with a replacement, and those that are replaced. So a search with primes
    ends with a name that none of them is, and that can be put in the binder's place. -/

namespace PostfixLambda

variable {V S : Type} [DecidableEq S]

namespace Walk

/-! ### The course of a walk -/

/-- A walk comes from its first agenda to another one, with what it carries and has emitted then. -/
inductive Comes (rules : Rules V S) (agenda : List (Task V S)) (st : State S) (out : Parser V S) :
    List (Task V S) → State S → Parser V S → Prop where
  | start : Comes rules agenda st out agenda st out
  | next {t : Task V S} {rest left : List (Task V S)} {st₁ st₂ : State S} {out₁ out₂ : Parser V S}
      (h : Comes rules agenda st out (t :: rest) st₁ out₁) (ha : advance rules st₁ out₁ t = .ok (left, st₂, out₂)) :
      Comes rules agenda st out (left ++ rest) st₂ out₂

/-- The substitution of an environment comes to an agenda, with what it carries and has emitted then. -/
def Course (env : Env V S) (rename : Renamer S) (e : Term V S) :
    List (Task V S) → State S → Parser V S → Prop :=
  Comes (rulesFor env (some rename)) [.visit e] ⟨[], Known.ofTerm env e, []⟩ {}

/-- In the course of the substitution the renamer is called for the binder `b` of `body`: the walk has come to the
    abstraction, and the binder would capture the variable `v`. Below the binder, the walk carries `st`. -/
def CallsAt (env : Env V S) (rename : Renamer S) (e : Term V S) (st : State S) (b v : S) (body : Term V S) : Prop :=
  ∃ rest st₀ out, Course env rename e (.visit (.lam b body) :: rest) st₀ out ∧
    (capture? env (shadowBelow env st₀.shadow b) st₀.known b body).2 = some v ∧ st = st₀.below env b body

/-- The names that are taken where a binder is renamed, as they are given to the renamer. -/
def takenBelow (env : Env V S) (st : State S) (b : S) (body : Term V S) : List S :=
  b :: body.symbols ++ (learnActive env st.shadow body.freeVars st.known).2 ++ env.names.filter (· ∉ st.shadow)

/-- The call of a renamer for a binder. -/
def callBelow (env : Env V S) (rename : Renamer S) (st : State S) (b : S) (body : Term V S) : Call S :=
  ⟨b, (rename b (takenBelow env st b body)).tried.map fun s => (s, decide (s ∈ takenBelow env st b body))⟩

/-- The call was made in the course of the substitution. -/
def Made (env : Env V S) (rename : Renamer S) (e : Term V S) (c : Call S) : Prop :=
  ∃ st b v body, CallsAt env rename e st b v body ∧ c = callBelow env rename st b body

/-! ### What a task asks -/

theorem renameBinder_ok_asked {env : Env V S} {rename : Renamer S} {st st' : State S} {b v fresh : S} {body : Term V S}
    {inner : { inner : Term V S // inner.size = body.size }}
    (h : renameBinder env rename st b v body = .ok (fresh, inner, st')) :
    (rename b (takenBelow env st b body)).chosen = .ok fresh ∧
      st'.known = (learnActive env st.shadow body.freeVars st.known).1 ∧
      st'.asked = callBelow env rename st b body :: st.asked := by
  simp only [renameBinder, renameBinderBy] at h
  split at h
  · cases h
  · rename_i hchosen
    split at h <;> cases h
    exact ⟨hchosen, rfl, rfl⟩

theorem renameBinder_error_asked {env : Env V S} {rename : Renamer S} {st : State S} {b v : S} {body : Term V S}
    {r : Refusal S} (h : renameBinder env rename st b v body = .error r) :
    r.asked = callBelow env rename st b body :: st.asked := by
  simp only [renameBinder, renameBinderBy] at h
  split at h
  · cases h
    rfl
  · split at h <;> cases h
    rfl

/-- A task does nothing to what is known and asked, unless it enters a scope. -/
theorem advance_ok_cases {env : Env V S} {onCapture : OnCapture V S} {st st' : State S} {out out' : Parser V S}
    {t : Task V S} {left : List (Task V S)} (h : advance (substituting env onCapture) st out t = .ok (left, st', out')) :
    st'.known = st.known ∧ st'.asked = st.asked ∨
      ∃ b body, t = .visit (.lam b body) ∧ (st' = st.below env b body ∨
        ∃ v fresh inner, (capture? env (shadowBelow env st.shadow b) st.known b body).2 = some v ∧
          onCapture (st.below env b body) b v body = .ok (fresh, inner, st')) := by
  cases t with
  | apply =>
    simp only [advance] at h
    split at h <;> cases h
    exact Or.inl ⟨rfl, rfl⟩
  | close suspended =>
    simp only [advance] at h
    split at h <;> cases h
    cases suspended <;> exact Or.inl ⟨rfl, rfl⟩
  | visit e =>
    cases e with
    | const v | app fn arg =>
      cases h
      exact Or.inl ⟨rfl, rfl⟩
    | hole => cases h
    | var s =>
      simp only [advance] at h
      split at h <;> cases h
      exact Or.inl ⟨rfl, rfl⟩
    | lam b body =>
      refine Or.inr ⟨b, body, rfl, ?_⟩
      simp only [advance] at h
      rcases enter_substituting_split env onCapture st b body with
        henter | ⟨v, hc, ⟨fresh, inner, st₁, hon, henter⟩ | ⟨r, -, henter⟩⟩ <;> rw [henter] at h <;> cases h
      · exact Or.inl rfl
      · exact Or.inr ⟨v, fresh, inner, hc, hon⟩

/-- A task that is refused has asked nothing, unless it is a scope whose binder would capture. -/
theorem advance_error_cases {env : Env V S} {onCapture : OnCapture V S} {st : State S} {out : Parser V S}
    {t : Task V S} {r : Refusal S} (h : advance (substituting env onCapture) st out t = .error r) :
    r.asked = st.asked ∨
      ∃ b body v, t = .visit (.lam b body) ∧ (capture? env (shadowBelow env st.shadow b) st.known b body).2 = some v ∧
        onCapture (st.below env b body) b v body = .error r := by
  cases t with
  | apply =>
    simp only [advance, emitMark] at h
    split at h <;> cases h
    rename_i h
    split at h <;> cases h
    exact Or.inl rfl
  | close suspended =>
    simp only [advance, emitMark] at h
    split at h <;> cases h
    rename_i h
    split at h <;> cases h
    cases suspended <;> exact Or.inl rfl
  | visit e =>
    cases e with
    | const v | app fn arg => cases h
    | hole =>
      cases h
      exact Or.inl rfl
    | var s =>
      simp only [advance] at h
      rcases leaf_substituting_cases env onCapture st s with ⟨_, hleaf, -⟩ | hleaf <;> rw [hleaf] at h <;> cases h
      exact Or.inl rfl
    | lam b body =>
      simp only [advance] at h
      rcases enter_substituting_split env onCapture st b body with
        henter | ⟨v, hc, ⟨fresh, inner, st₁, -, henter⟩ | ⟨r', hon, henter⟩⟩ <;> rw [henter] at h <;> cases h
      exact Or.inr ⟨b, body, v, rfl, hc, hon⟩

/-! ### What a walk asks -/

section Asked

variable {env : Env V S} {rename : Renamer S} {e : Term V S}

/-- What is known of replacements is right, and the calls were made in the course of the substitution. -/
structure Tracked (env : Env V S) (rename : Renamer S) (e : Term V S) (st : State S) : Prop where
  right : Known.Right env st.known
  made : ∀ c ∈ st.asked, Made env rename e c

theorem tracked_start (env : Env V S) (rename : Renamer S) (e : Term V S) :
    Tracked env rename e ⟨[], Known.ofTerm env e, []⟩ :=
  ⟨Known.ofTerm_right env e, fun _ hc => absurd hc List.not_mem_nil⟩

theorem Tracked.made_cons {st st₀ : State S} {b v : S} {body : Term V S} (h : Tracked env rename e st₀)
    (hcalls : CallsAt env rename e st b v body) {asked : List (Call S)}
    (hasked : asked = callBelow env rename st b body :: st₀.asked) : ∀ c ∈ asked, Made env rename e c := by
  rw [hasked]
  exact List.forall_mem_cons.mpr ⟨⟨st, b, v, body, hcalls, rfl⟩, h.made⟩

theorem Tracked.advance {t : Task V S} {rest left : List (Task V S)} {st st' : State S} {out out' : Parser V S}
    (h : Tracked env rename e st) (hcourse : Course env rename e (t :: rest) st out)
    (ha : Walk.advance (rulesFor env (some rename)) st out t = .ok (left, st', out')) : Tracked env rename e st' := by
  rcases advance_ok_cases ha with ⟨hknown, hasked⟩ | ⟨b, body, rfl, rfl | ⟨v, fresh, inner, hc, hon⟩⟩
  · exact ⟨hknown ▸ h.right, hasked ▸ h.made⟩
  · exact ⟨(below_grows env st b body).right h.right, h.made⟩
  -- The walk is at a binder that would capture, so the call that is added is one of its course.
  · obtain ⟨-, hknown, hasked⟩ := renameBinder_ok_asked hon
    refine ⟨?_, h.made_cons ⟨rest, st, out, hcourse, hc, rfl⟩ hasked⟩
    rw [hknown]
    exact ((below_grows env st b body).trans (learnActive_grows env _ _ _)).right h.right

theorem Tracked.refused {t : Task V S} {rest : List (Task V S)} {st : State S} {out : Parser V S} {r : Refusal S}
    (h : Tracked env rename e st) (hcourse : Course env rename e (t :: rest) st out)
    (ha : Walk.advance (rulesFor env (some rename)) st out t = .error r) : ∀ c ∈ r.asked, Made env rename e c := by
  rcases advance_error_cases ha with hasked | ⟨b, body, v, rfl, hc, hon⟩
  · exact hasked ▸ h.made
  · exact h.made_cons ⟨rest, st, out, hcourse, hc, rfl⟩ (renameBinder_error_asked hon)

/-- Wherever a walk has come to, it has tracked what it knows and what it asked. -/
theorem Course.tracked {agenda : List (Task V S)} {st : State S} {out : Parser V S}
    (h : Course env rename e agenda st out) : Tracked env rename e st := by
  unfold Course at h
  induction h with
  | start => exact tracked_start env rename e
  | next h ha ih => exact ih.advance h ha

/-- Where the renamer is called, what is known of replacements is right. -/
theorem CallsAt.right {st : State S} {b v : S} {body : Term V S} (h : CallsAt env rename e st b v body) :
    Known.Right env st.known := by
  obtain ⟨rest, st₀, out, hcourse, -, rfl⟩ := h
  exact (below_grows env st₀ b body).right hcourse.tracked.right

theorem made_of_callsAtEnd {agenda : List (Task V S)} {st : State S} {out : Parser V S}
    (h : Course env rename e agenda st out) :
    ∀ c ∈ callsAtEnd (drain (rulesFor env (some rename)) agenda st out), Made env rename e c := by
  fun_induction drain (rulesFor env (some rename)) agenda st out with
  | case1 | case2 => exact h.tracked.made
  | case3 st out t rest left st' out' ha ih => exact ih (.next h ha)
  | case4 st out t rest r ha => exact h.tracked.refused h ha

/-- Every call of the renamer comes from a binder of the course that would capture. -/
theorem made_of_asked {c : Call S} (h : c ∈ (e.bind env (some rename)).asked) : Made env rename e c := by
  have hmade := made_of_callsAtEnd (Comes.start : Course env rename e _ _ _)
  simp only [Term.bind, run] at h
  split at h <;> rename_i hd <;> rw [hd] at hmade
  · exact hmade c (List.mem_reverse.mp h)
  · exact hmade c (List.mem_reverse.mp h)

end Asked

/-! ### Names that are taken -/

/-- The names that a renamed binder may not get: its own, those in its body, those free in what the body receives, and
    those that are replaced themselves. -/
def Taken (env : Env V S) (shadow : List S) (b : S) (body : Term V S) (t : S) : Prop :=
  t = b ∨ body.Mentions t ∨ (∃ v, body.Free v ∧ Captures env shadow t v) ∨ (active? env shadow t).isSome

theorem mem_unsuspended_iff {env : Env V S} {shadow : List S} {s : S} :
    s ∈ env.names.filter (· ∉ shadow) ↔ (active? env shadow s).isSome := by
  by_cases hs : s ∈ shadow <;> simp [active?, hs, mem_names_iff]

/-- The renamer is given just the names that are taken. -/
theorem mem_takenBelow {env : Env V S} {st : State S} (hr : Known.Right env st.known) {b t : S} {body : Term V S} :
    t ∈ takenBelow env st b body ↔ Taken env st.shadow b body t := by
  rw [takenBelow, List.mem_append, List.mem_append, List.mem_cons, Term.mem_symbols, mem_learnActive hr,
    mem_unsuspended_iff]
  simp only [Taken, Term.mem_freeVars, or_assoc]

/-- What the renamer asks is answered by the names that are taken. -/
theorem exists_callBelow_eq {env : Env V S} {st : State S} (hr : Known.Right env st.known) (rename : Renamer S) (b : S)
    (body : Term V S) :
    ∃ answer : S → Bool, (∀ t, answer t = true ↔ Taken env st.shadow b body t) ∧
      callBelow env rename st b body =
        ⟨b, (rename b (takenBelow env st b body)).tried.map fun t => (t, answer t)⟩ := by
  refine ⟨fun t => decide (t ∈ takenBelow env st b body), fun t => ?_, rfl⟩
  rw [decide_eq_true_eq, mem_takenBelow hr]

theorem finite_taken {env : Env V S} {st : State S} (hr : Known.Right env st.known) (b : S) (body : Term V S) :
    {t | Taken env st.shadow b body t}.Finite :=
  (takenBelow env st b body).finite_toSet.subset fun _ ht => (mem_takenBelow hr).mpr ht

/-! ### Renaming with primes -/

open Renamer

/-- The renamer of primes, called for the binder `b` of `body`, passes over the first `n` names and chooses the next.
    That is a fresh name, and in a whole body it can be put in the binder's place. -/
structure RenamesWithPrimes (env : Env V Bytes) (st : State Bytes) (b v : Bytes) (body : Term V Bytes) (n : Nat) :
    Prop where
  first : FirstFree (Taken env st.shadow b body) b n
  answer : primes b (takenBelow env st b body) = ⟨primedUpTo b (n + 1), .ok (primed b (n + 1))⟩
  asked : callBelow env primes st b body =
    ⟨b, (primedUpTo b n).map (fun s => (s, true)) ++ [(primed b (n + 1), false)]⟩
  ne_binder : primed b (n + 1) ≠ b
  fresh : Fresh env st.shadow body (primed b (n + 1))
  substituted : body.Whole → ∃ inner st', (body.substitute b (.var (primed b (n + 1))) none).result = .ok inner.1 ∧
    renameBinder env primes st b v body = .ok (primed b (n + 1), inner, st')

theorem substitute_var_of_fresh {env : Env V S} {shadow : List S} {b fresh : S} {body : Term V S} (hbody : body.Whole)
    (h : Fresh env shadow body fresh) :
    (body.substitute b (.var fresh) none).result = .ok (body.replaced (Term.only b fresh)) := by
  obtain ⟨stᵢ, hdrain⟩ := drain_plain_only (b := b) hbody h.not_mentioned
  rw [Term.substitute, Term.bind, run, rulesFor, hdrain]

theorem renamesWithPrimes {env : Env V Bytes} {st : State Bytes} (hr : Known.Right env st.known) (b v : Bytes)
    (body : Term V Bytes) : ∃ n, RenamesWithPrimes env st b v body n := by
  have htaken : ∀ t, t ∈ takenBelow env st b body ↔ Taken env st.shadow b body t := fun t => mem_takenBelow hr
  obtain ⟨n, hfirst, hsearches⟩ := exists_searches_prime b (finite_taken hr b body)
  -- The search without a bound ends, and the renamer, which has one, makes just this search.
  have hanswer := primes_eq hsearches htaken
  have hfresh : Fresh env st.shadow body (primed b (n + 1)) :=
    fresh_of_not_taken hr fun h => hfirst.free ((htaken _).mp h)
  refine ⟨n, hfirst, hanswer, ?_, primed_ne_self b n, hfresh, fun hbody => ?_⟩
  · obtain ⟨answers, hanswers, hcall⟩ := exists_callBelow_eq hr primes b body
    rw [hcall, hanswer, hfirst.questions hanswers]
  · obtain ⟨fresh, inner, st', hok, -, hinner, -⟩ := renameBinder_of_honours primes_honours st hr hbody b v
    obtain ⟨hchosen, -⟩ := renameBinder_ok_asked hok
    rw [hanswer] at hchosen
    cases hchosen
    exact ⟨inner, st', by rw [substitute_var_of_fresh hbody hfresh, hinner], hok⟩

end Walk

namespace Term

open Renamer Walk

/-- Renaming with primes always comes to a fresh name. While finitely many names are taken, the search tries the name
    with one prime, with two and so on, and ends at the first that is not taken. In a substitution every call of the
    renamer is made for a binder that would capture, and finitely many names are taken there: so the call gives another
    name than the binder's, one that does not occur in the body, is not free in what the body receives and is not
    replaced, and if the body is whole, the name is put in the binder's place. -/
theorem primes_choose_fresh (e : Term V Bytes) :
    (∀ (s : Bytes) (taken : Bytes → Prop), {t | taken t}.Finite → ∃ n, FirstFree taken s n ∧
      (∀ tried chosen, Searches prime taken (prime s) tried chosen ↔
        tried = primedUpTo s (n + 1) ∧ chosen = primed s (n + 1)) ∧
      ∀ names, (∀ t, t ∈ names ↔ taken t) → primes s names = ⟨primedUpTo s (n + 1), .ok (primed s (n + 1))⟩) ∧
    (∀ env, ∀ c ∈ (e.bind env (some primes)).asked, Made env primes e c) ∧
    (∀ s r, ∀ c ∈ (e.substitute s r (some primes)).asked, Made [(s, r)] primes e c) ∧
    ∀ env st b v body, CallsAt env primes e st b v body →
      {t | Taken env st.shadow b body t}.Finite ∧ ∃ n, RenamesWithPrimes env st b v body n := by
  refine ⟨fun s taken hfinite => ?_, fun env c hc => made_of_asked hc, fun s r c hc => made_of_asked hc,
    fun env st b v body h => ⟨finite_taken h.right b body, renamesWithPrimes h.right b v body⟩⟩
  obtain ⟨n, hfirst, hsearches⟩ := exists_searches_prime s hfinite
  refine ⟨n, hfirst, fun tried chosen => ⟨hsearches.unique, ?_⟩, fun names => primes_eq hsearches⟩
  rintro ⟨rfl, rfl⟩
  exact hsearches

/-- In `λy. x y y'`, in which `x` is bound to `y`, the binder is renamed, and not to `y'`, which is taken. -/
theorem primes_choose_fresh_second :
    ({t | t ∈ [[0x79, 0x27]]} : Set Bytes).Finite ∧ (∃ n, FirstFree (· ∈ [[0x79, 0x27]]) [0x79] n) ∧
    (∃ st, CallsAt [([0x78], var [0x79])] primes
        (lam [0x79] (app (app (var [0x78]) (var [0x79])) (var [0x79, 0x27])) : Term Nat Bytes)
        st [0x79] [0x78] (app (app (var [0x78]) (var [0x79])) (var [0x79, 0x27])) ∧
      ∃ n, RenamesWithPrimes [([0x78], (var [0x79] : Term Nat Bytes))] st [0x79] [0x78]
        (app (app (var [0x78]) (var [0x79])) (var [0x79, 0x27])) n) ∧
    ((lam [0x79] (app (app (var [0x78]) (var [0x79])) (var [0x79, 0x27])) : Term Nat Bytes).bind
      [([0x78], var [0x79])] (some primes)).asked =
        [⟨[0x79], [([0x79, 0x27], true), ([0x79, 0x27, 0x27], false)]⟩] := by
  obtain ⟨hsearch, -, -, hcalls⟩ := primes_choose_fresh
    (lam [0x79] (app (app (var [0x78]) (var [0x79])) (var [0x79, 0x27])) : Term Nat Bytes)
  have hfinite : ({t | t ∈ [[0x79, 0x27]]} : Set Bytes).Finite := List.finite_toSet _
  have hcall : CallsAt [([0x78], var [0x79])] primes
      (lam [0x79] (app (app (var [0x78]) (var [0x79])) (var [0x79, 0x27])) : Term Nat Bytes)
      _ [0x79] [0x78] (app (app (var [0x78]) (var [0x79])) (var [0x79, 0x27])) :=
    ⟨[], _, _, .start, by decide +kernel, rfl⟩
  obtain ⟨n, hfirst, -⟩ := hsearch [0x79] _ hfinite
  exact ⟨hfinite, ⟨n, hfirst⟩, ⟨_, hcall, (hcalls _ _ _ _ _ hcall).2⟩, by decide +kernel⟩

end Term

end PostfixLambda
