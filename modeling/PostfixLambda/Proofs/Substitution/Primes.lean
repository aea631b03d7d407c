import Mathlib.Data.Set.Finite.Basic
import PostfixLambda.Proofs.Substitution.Renamer

/-! Searching for a name without a bound. A search tries names one after the other until one is not taken, however many
    that may be. Where every name is further on than the one it is derived from, and finitely many are taken, it ends,
    and the bounded search of the renamer is this one. With primes, the names tried are the binder with one prime, with
    two, and so on, up to the first that is not taken. -/

namespace PostfixLambda.Renamer

/-! ### Searches -/

section

variable {S : Type} {next : S → S} {taken : S → Prop}

/-- A search that ends: from a name on, these names are tried, each derived from the one before, and the last of them
    is chosen, the first that is not taken. -/
inductive Searches (next : S → S) (taken : S → Prop) : (s : S) → (tried : List S) → (chosen : S) → Prop where
  | ends {s : S} (h : ¬taken s) : Searches next taken s [s] s
  | goesOn {s chosen : S} {tried : List S} (h : taken s) (rest : Searches next taken (next s) tried chosen) :
      Searches next taken s (s :: tried) chosen

theorem Searches.unique {s chosen chosen' : S} {tried tried' : List S} (h : Searches next taken s tried chosen)
    (h' : Searches next taken s tried' chosen') : tried' = tried ∧ chosen' = chosen := by
  induction h generalizing tried' with
  | ends hfree =>
    cases h' with
    | ends => exact ⟨rfl, rfl⟩
    | goesOn hs => exact absurd hs hfree
  | goesOn hs _ ih =>
    cases h' with
    | ends hfree => exact absurd hs hfree
    | goesOn _ rest =>
      obtain ⟨rfl, rfl⟩ := ih rest
      exact ⟨rfl, rfl⟩

theorem Searches.congr {taken' : S → Prop} (hsame : ∀ s, taken s ↔ taken' s) {s chosen : S} {tried : List S}
    (h : Searches next taken s tried chosen) : Searches next taken' s tried chosen := by
  induction h with
  | ends hfree => exact .ends fun hs => hfree ((hsame _).mpr hs)
  | goesOn hs _ ih => exact .goesOn ((hsame _).mp hs) ih

variable [DecidableEq S]

/-- A bounded search that may try more names than there are taken ones ahead is one without a bound. -/
theorem searches_untilFree {m : S → Nat} (hnext : ∀ s, m s < m (next s)) {taken : List S} {fuel : Nat} {s : S}
    (h : taken.countP (fun u => decide (m s ≤ m u)) < fuel) :
    Searches next (· ∈ taken) s (untilFree next taken fuel s).1 (untilFree next taken fuel s).2 := by
  induction fuel generalizing s with
  | zero => exact absurd h (Nat.not_lt_zero _)
  | succ fuel ih =>
    simp only [untilFree]
    split
    · rename_i hs
      have hlt := countP_ahead_lt hs (hnext s)
      exact .goesOn hs (ih (by omega))
    · rename_i hs
      exact .ends hs

theorem searches_search {m : S → Nat} (hnext : ∀ s, m s < m (next s)) (b : S) (taken : List S) :
    ∃ chosen, (search next b taken).chosen = .ok chosen ∧
      Searches next (· ∈ taken) (next b) (search next b taken).tried chosen :=
  ⟨_, rfl, searches_untilFree hnext (Nat.lt_succ_of_le List.countP_le_length)⟩

end

/-! ### Primes -/

/-- The name with so many primes. -/
def primed (s : Bytes) (n : Nat) : Bytes := s ++ List.replicate n 0x27

theorem prime_primed (s : Bytes) (n : Nat) : prime (primed s n) = primed s (n + 1) := by
  rw [prime, primed, primed, List.append_assoc, List.replicate_succ']

theorem primed_ne_self (s : Bytes) (n : Nat) : primed s (n + 1) ≠ s := by
  intro h
  have hlength := congrArg List.length h
  simp [primed] at hlength

/-- The names with one prime up to `n`. -/
def primedUpTo (s : Bytes) (n : Nat) : List Bytes := (List.range n).map fun i => primed s (i + 1)

theorem primedUpTo_succ (s : Bytes) (n : Nat) : primedUpTo s (n + 1) = primedUpTo s n ++ [primed s (n + 1)] := by
  rw [primedUpTo, List.range_succ, List.map_append]
  rfl

/-- Of the names with primes, the first that is not taken has one more than `n`. -/
structure FirstFree (taken : Bytes → Prop) (s : Bytes) (n : Nat) : Prop where
  passed : ∀ i < n, taken (primed s (i + 1))
  free : ¬taken (primed s (n + 1))

/-- Of the names tried, all but the last are answered to be taken. -/
theorem FirstFree.questions {taken : Bytes → Prop} {s : Bytes} {n : Nat} (h : FirstFree taken s n) {answer : Bytes → Bool}
    (hanswer : ∀ t, answer t = true ↔ taken t) :
    (primedUpTo s (n + 1)).map (fun t => (t, answer t)) =
      (primedUpTo s n).map (fun t => (t, true)) ++ [(primed s (n + 1), false)] := by
  have hpassed : ∀ t ∈ primedUpTo s n, (t, answer t) = (t, true) := by
    intro t ht
    obtain ⟨i, hi, rfl⟩ := List.mem_map.mp ht
    rw [(hanswer _).mpr (h.passed i (List.mem_range.mp hi))]
  have hfree : answer (primed s (n + 1)) = false := Bool.eq_false_iff.mpr fun ht => h.free ((hanswer _).mp ht)
  rw [primedUpTo_succ, List.map_append, List.map_congr_left hpassed, List.map_singleton, hfree]

theorem Searches.primed_from {taken : Bytes → Prop} {s start chosen : Bytes} {tried : List Bytes} {k : Nat}
    (h : Searches prime taken start tried chosen) (hstart : start = primed s k) :
    ∃ n, (∀ i < n, taken (primed s (k + i))) ∧ ¬taken (primed s (k + n)) ∧
      tried = (List.range (n + 1)).map (fun i => primed s (k + i)) ∧ chosen = primed s (k + n) := by
  induction h generalizing k with
  | ends hfree =>
    subst hstart
    exact ⟨0, fun i hi => absurd hi (Nat.not_lt_zero i), hfree, rfl, rfl⟩
  | goesOn hs _ ih =>
    subst hstart
    obtain ⟨n, hpassed, hfree, htried, hchosen⟩ := ih (prime_primed s k)
    refine ⟨n + 1, fun i hi => ?_, ?_, ?_, ?_⟩
    · cases i with
      | zero => exact hs
      | succ i => simpa only [Nat.add_assoc, Nat.add_comm 1] using hpassed i (Nat.lt_of_succ_lt_succ hi)
    · simpa only [Nat.add_assoc, Nat.add_comm 1] using hfree
    · rw [htried, List.range_succ_eq_map (n := n + 1), List.map_cons, List.map_map]
      simp [Function.comp_def, Nat.add_assoc, Nat.add_comm 1]
    · simpa only [Nat.add_assoc, Nat.add_comm 1] using hchosen

theorem Searches.primed_eq {taken : Bytes → Prop} {s chosen : Bytes} {tried : List Bytes}
    (h : Searches prime taken (prime s) tried chosen) :
    ∃ n, FirstFree taken s n ∧ tried = primedUpTo s (n + 1) ∧ chosen = primed s (n + 1) := by
  obtain ⟨n, hpassed, hfree, htried, hchosen⟩ := h.primed_from (k := 1) rfl
  simp only [Nat.add_comm 1] at hpassed hfree htried hchosen
  exact ⟨n, ⟨hpassed, hfree⟩, htried, hchosen⟩

/-- While finitely many names are taken, the search with primes ends. -/
theorem exists_searches_prime (s : Bytes) {taken : Bytes → Prop} (hfinite : {t | taken t}.Finite) :
    ∃ n, FirstFree taken s n ∧ Searches prime taken (prime s) (primedUpTo s (n + 1)) (primed s (n + 1)) := by
  have hlength : ∀ t : Bytes, t.length < (prime t).length := fun t => by simp [prime]
  obtain ⟨chosen, -, hsearches⟩ := searches_search hlength s hfinite.toFinset.toList
  have hends : Searches prime taken (prime s) _ chosen := hsearches.congr (by simp)
  obtain ⟨n, hfirst, htried, rfl⟩ := hends.primed_eq
  rw [htried] at hends
  exact ⟨n, hfirst, hends⟩

/-- The renamer of primes searches so, whatever list the taken names are given by. -/
theorem primes_eq {s chosen : Bytes} {taken : Bytes → Prop} {tried : List Bytes}
    (h : Searches prime taken (prime s) tried chosen) {names : List Bytes} (hnames : ∀ t, t ∈ names ↔ taken t) :
    primes s names = ⟨tried, .ok chosen⟩ := by
  have hlength : ∀ t : Bytes, t.length < (prime t).length := fun t => by simp [prime]
  obtain ⟨chosen', hchosen, hsearches⟩ := searches_search hlength s names
  obtain ⟨htried, rfl⟩ := h.unique (hsearches.congr hnames)
  rw [primes, ← htried, ← hchosen]

end PostfixLambda.Renamer
