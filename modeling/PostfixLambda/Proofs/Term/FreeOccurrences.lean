import Mathlib.Data.List.Basic
import PostfixLambda.Proofs.Term.Names

/-! The order of the free names. A place in a term is given by the way to it from the root; a name is free at a place if
    none of the binders passed on the way has that name. The free names of a term are those that are free at some place,
    each listed once, and of two names the one whose first place is further to the left is listed first. -/

namespace PostfixLambda

/-! ### First occurrences -/

/-- What keeps the first of equal members lists two of them in the order of their first occurrences. -/
theorem pairwise_eraseDups {α : Type} [DecidableEq α] (l : List α) :
    l.eraseDups.Pairwise fun a b => a ≠ b ∧ ∃ front back, l = front ++ a :: back ∧ b ∉ front := by
  match l with
  | [] => simp
  | c :: rest =>
    rw [List.eraseDups_cons, List.pairwise_cons]
    refine ⟨fun b hb => ?_, (pairwise_eraseDups _).imp_of_mem fun {a b} _ hb => ?_⟩
    · have hne : b ≠ c := by simpa using (List.mem_filter.mp (List.mem_eraseDups.mp hb)).2
      exact ⟨hne.symm, [], rest, rfl, List.not_mem_nil⟩
    · -- What is found in the members other than `c` is found in all of them: `c` stands in front, and is not `b`.
      have hbc : b ≠ c := by simpa using (List.mem_filter.mp (List.mem_eraseDups.mp hb)).2
      rintro ⟨hne, front, back, hfilter, hfront⟩
      obtain ⟨start, tail, rfl, rfl, htail⟩ := List.filter_eq_append_iff.mp hfilter
      obtain ⟨between, last, rfl, hbetween, -, -⟩ := List.filter_eq_cons_iff.mp htail
      refine ⟨hne, c :: start ++ between, last, by simp, fun hmem => ?_⟩
      rcases List.mem_append.mp hmem with hmem | hmem
      · rcases List.mem_cons.mp hmem with rfl | hmem
        · exact hbc rfl
        · exact hfront (List.mem_filter.mpr ⟨hmem, by simpa using hbc⟩)
      · exact hbetween b hmem (by simpa using hbc)
termination_by l.length
decreasing_by exact Nat.lt_succ_of_le (List.length_filter_le _ _)

namespace Term

variable {V S : Type}

/-! ### Places -/

/-- A turn on the way from the root of a term to one of its parts. -/
inductive Turn where
  | fn
  | arg
  | body
  deriving DecidableEq, Repr

/-- The part at the end of a way, with the binders that are passed, the outermost first. -/
def part? : Term V S → List Turn → Option (List S × Term V S)
  | e, [] => some ([], e)
  | app fn _, .fn :: way => fn.part? way
  | app _ arg, .arg :: way => arg.part? way
  | lam b body, .body :: way => (body.part? way).map fun (binders, part) => (b :: binders, part)
  | _, _ :: _ => none

/-- The name stands at the end of the way, outside the scope of every binder of that name. -/
def FreeAt (e : Term V S) (way : List Turn) (s : S) : Prop := ∃ binders, e.part? way = some (binders, var s) ∧ s ∉ binders

/-- One place is to the left of another: where the ways part, at an application, they go into its function and into its
    argument. -/
def LeftOf (way way' : List Turn) : Prop :=
  ∃ front back back', way = front ++ .fn :: back ∧ way' = front ++ .arg :: back'

theorem LeftOf.cons {way way' : List Turn} (h : LeftOf way way') (turn : Turn) : LeftOf (turn :: way) (turn :: way') := by
  obtain ⟨front, back, back', rfl, rfl⟩ := h
  exact ⟨turn :: front, back, back', rfl, rfl⟩

theorem leftOf_fn_arg (way way' : List Turn) : LeftOf (.fn :: way) (.arg :: way') := ⟨[], way, way', rfl, rfl⟩

theorem freeAt_var_iff {t s : S} {way : List Turn} : (var t : Term V S).FreeAt way s ↔ way = [] ∧ t = s := by
  cases way with
  | nil => simp [FreeAt, part?]
  | cons turn way => simp [FreeAt, part?]

theorem not_freeAt_const {v : V} {s : S} {way : List Turn} : ¬(const v : Term V S).FreeAt way s := by
  cases way <;> simp [FreeAt, part?]

theorem not_freeAt_hole {s : S} {way : List Turn} : ¬(hole : Term V S).FreeAt way s := by
  cases way <;> simp [FreeAt, part?]

theorem freeAt_app_iff {fn arg : Term V S} {s : S} {way : List Turn} :
    (app fn arg).FreeAt way s ↔
      (∃ rest, way = .fn :: rest ∧ fn.FreeAt rest s) ∨ ∃ rest, way = .arg :: rest ∧ arg.FreeAt rest s := by
  match way with
  | [] => simp [FreeAt, part?]
  | .fn :: way => simp [FreeAt, part?]
  | .arg :: way => simp [FreeAt, part?]
  | .body :: way => simp [FreeAt, part?]

theorem freeAt_lam_iff {b s : S} {body : Term V S} {way : List Turn} :
    (lam b body).FreeAt way s ↔ ∃ rest, way = .body :: rest ∧ body.FreeAt rest s ∧ s ≠ b := by
  match way with
  | [] => simp [FreeAt, part?]
  | .fn :: way => simp [FreeAt, part?]
  | .arg :: way => simp [FreeAt, part?]
  | .body :: way =>
    simp only [FreeAt, part?, Option.map_eq_some_iff, Prod.exists, Prod.mk.injEq, List.cons.injEq, true_and,
      exists_eq_left']
    constructor
    · rintro ⟨-, ⟨binders, _, hpart, rfl, rfl⟩, hs⟩
      rw [List.mem_cons, not_or] at hs
      exact ⟨⟨binders, hpart, hs.2⟩, hs.1⟩
    · rintro ⟨⟨binders, hpart, hs⟩, hb⟩
      exact ⟨b :: binders, ⟨binders, _, hpart, rfl, rfl⟩, by simp [hs, hb]⟩

/-! ### The places of the free names -/

variable [DecidableEq S]

/-- The places at which names are free in a term below the binders `bound`, with the names, from left to right. -/
def freePlaces (bound : List S) : Term V S → List (List Turn × S)
  | var s => if s ∈ bound then [] else [([], s)]
  | lam b body => (body.freePlaces (b :: bound)).map (Prod.map (.body :: ·) id)
  | app fn arg =>
    (fn.freePlaces bound).map (Prod.map (.fn :: ·) id) ++ (arg.freePlaces bound).map (Prod.map (.arg :: ·) id)
  | const _ | hole => []

theorem map_snd_freePlaces (e : Term V S) (bound : List S) :
    (e.freePlaces bound).map Prod.snd = e.freeOccurrences bound := by
  induction e generalizing bound with
  | var s =>
    simp only [freePlaces, freeOccurrences]
    split <;> rfl
  | const v => rfl
  | hole => rfl
  | app fn arg ihfn iharg => simp [freePlaces, freeOccurrences, ← ihfn, ← iharg, Function.comp_def]
  | lam b body ih => simp [freePlaces, freeOccurrences, ← ih, Function.comp_def]

theorem mem_freePlaces {e : Term V S} {bound : List S} {way : List Turn} {s : S} :
    (way, s) ∈ e.freePlaces bound ↔ e.FreeAt way s ∧ s ∉ bound := by
  induction e generalizing bound way with
  | var t =>
    rw [freeAt_var_iff, freePlaces]
    split <;> grind
  | const v => simp [freePlaces, not_freeAt_const]
  | hole => simp [freePlaces, not_freeAt_hole]
  | app fn arg ihfn iharg =>
    simp only [freePlaces, List.mem_append, List.mem_map, Prod.exists, Prod.map_apply, id_eq, Prod.mk.injEq,
      freeAt_app_iff]
    grind
  | lam b body ih =>
    simp only [freePlaces, List.mem_map, Prod.exists, Prod.map_apply, id_eq, Prod.mk.injEq, freeAt_lam_iff]
    grind

/-- The places are listed from left to right. -/
theorem pairwise_freePlaces (e : Term V S) (bound : List S) :
    (e.freePlaces bound).Pairwise fun p q => LeftOf p.1 q.1 := by
  have hbelow : ∀ (turn : Turn) {places : List (List Turn × S)}, (places.Pairwise fun p q => LeftOf p.1 q.1) →
      (places.map (Prod.map (turn :: ·) id)).Pairwise fun p q => LeftOf p.1 q.1 :=
    fun turn _ h => List.pairwise_map.mpr (h.imp fun hleft => hleft.cons turn)
  induction e generalizing bound with
  | var s =>
    rw [freePlaces]
    split <;> simp
  | const v => exact .nil
  | hole => exact .nil
  | lam b body ih => exact hbelow .body (ih _)
  | app fn arg ihfn iharg =>
    refine List.pairwise_append.mpr ⟨hbelow .fn (ihfn bound), hbelow .arg (iharg bound), ?_⟩
    intro p hp q hq
    obtain ⟨p, -, rfl⟩ := List.mem_map.mp hp
    obtain ⟨q, -, rfl⟩ := List.mem_map.mp hq
    exact leftOf_fn_arg p.1 q.1

/-- A name that is listed before the first occurrence of another is free to the left of all its places. -/
theorem freeAt_leftOf_of_freeOccurrences {e : Term V S} {s t : S} {front back : List S}
    (h : e.freeOccurrences [] = front ++ s :: back) (hne : s ≠ t) (ht : t ∉ front) :
    ∃ way, e.FreeAt way s ∧ ∀ way', e.FreeAt way' t → LeftOf way way' := by
  rw [← map_snd_freePlaces] at h
  obtain ⟨before, tail, hplaces, rfl, htail⟩ := List.map_eq_append_iff.mp h
  obtain ⟨⟨way, s'⟩, after, rfl, hs, -⟩ := List.map_eq_cons_iff.mp htail
  obtain rfl : s' = s := hs
  have hordered := pairwise_freePlaces e []
  rw [hplaces] at hordered
  refine ⟨way, (mem_freePlaces.mp (hplaces ▸ by simp : (way, s') ∈ e.freePlaces [])).1, fun way' hway' => ?_⟩
  have hmem : (way', t) ∈ e.freePlaces [] := mem_freePlaces.mpr ⟨hway', List.not_mem_nil⟩
  rw [hplaces, List.mem_append, List.mem_cons] at hmem
  rcases hmem with hmem | hmem | hmem
  · exact absurd (List.mem_map_of_mem hmem) ht
  · exact absurd (congrArg Prod.snd hmem).symm hne
  · exact (List.pairwise_cons.mp (List.pairwise_append.mp hordered).2.1).1 _ hmem

/-- The free names are listed without repetition; they are the names that are free at some place; of two of them the one
    listed first has a place to the left of all places of the other. A name is said to be free exactly if it is among
    them. -/
theorem freeVars_in_order (e : Term V S) :
    e.freeVars.Nodup ∧ (∀ s, s ∈ e.freeVars ↔ ∃ way, e.FreeAt way s) ∧
    (e.freeVars.Pairwise fun s t => ∃ way, e.FreeAt way s ∧ ∀ way', e.FreeAt way' t → LeftOf way way') ∧
    ∀ s, e.isFree s = true ↔ s ∈ e.freeVars := by
  have hfirst := pairwise_eraseDups (e.freeOccurrences [])
  rw [← freeVars_eq] at hfirst
  refine ⟨hfirst.imp And.left, fun s => ?_, hfirst.imp ?_, fun s => List.contains_iff_mem⟩
  · rw [freeVars_eq, List.mem_eraseDups, ← map_snd_freePlaces, List.mem_map]
    constructor
    · rintro ⟨⟨way, t⟩, hplace, rfl⟩
      exact ⟨way, (mem_freePlaces.mp hplace).1⟩
    · rintro ⟨way, hway⟩
      exact ⟨(way, s), mem_freePlaces.mpr ⟨hway, List.not_mem_nil⟩, rfl⟩
  · rintro s t ⟨hne, front, back, hnames, ht⟩
    exact freeAt_leftOf_of_freeOccurrences hnames hne ht

/-- In `(λx. (λx. x) (y x)) x` the outer scope of `x` goes on after the inner one, and ends with its body. -/
example : (app (lam [0x78] (app (lam [0x78] (var [0x78])) (app (var [0x79]) (var [0x78])))) (var [0x78]) :
    Term Nat Bytes).freeVars = [[0x79], [0x78]] := by
  decide +kernel

end Term

end PostfixLambda
