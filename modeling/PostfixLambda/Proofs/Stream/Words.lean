import PostfixLambda.Proofs.Text.Terminal
import PostfixLambda.Stream.Input

/-! The words of an input. They are made of characters that separate no words, so there is no control character in
    them; and several sources given one after the other have the words of each, up to a failure. -/

namespace PostfixLambda.Input

open Text (Tidy)

theorem not_control_of_extend {begun inComment : Bool} {c : Char} (h : runeEffect begun inComment c = .extend) :
    Text.isControl c = false := by
  unfold runeEffect at h
  split at h
  · cases h
  · split at h
    · split at h <;> cases h
    · split at h
      · cases h
      · rename_i hseparates
        simp only [Bool.or_eq_true, not_or, Bool.not_eq_true] at hseparates
        exact hseparates.2

theorem tidy_of_scanFrom {inp inp' : Input} {word : Collected} {loc l : Location} {inComment : Bool} {w : Bytes}
    (hword : Tidy word.toBytes) (h : inp.scanFrom word loc inComment = (inp', .word w l)) : Tidy w := by
  fun_induction scanFrom inp word loc inComment with
  | case1 inp word loc inComment inp₁ hr =>
    split at h
    · cases h
    · cases h
      exact hword
  | case2 => cases h
  | case3 inp word loc inComment inp₁ hr he ih => exact ih hword h
  | case4 inp word loc inComment inp₁ hr hw =>
    cases h
    exact hword
  | case5 inp word loc inComment inp₁ c n hr _ he ih => exact ih hword h
  | case6 inp word loc inComment inp₁ c n hr _ hw =>
    cases h
    exact hword
  | case7 inp word loc inComment inp₁ c n hr _ ih => exact ih hword h
  | case8 inp word loc inComment inp₁ c n hr heffect loc' ih =>
    refine ih ?_ h
    rw [Collected.toBytes_append]
    exact hword.append (Text.tidy_ofChar (not_control_of_extend heffect))

theorem tidy_of_wordsFrom {inp inp' : Input} {found words : List (Bytes × Location)} {reason : ScanEnd}
    (hfound : ∀ w ∈ found, Tidy w.1) (h : inp.wordsFrom found = (inp', words, reason)) : ∀ w ∈ words, Tidy w.1 := by
  fun_induction wordsFrom inp found with
  | case1 inp found inp₁ w loc hscan ih =>
    have hempty : Tidy Collected.empty.toBytes := Text.tidy_nil
    exact ih (List.forall_mem_cons.mpr ⟨tidy_of_scanFrom hempty hscan, hfound⟩) h
  | case2 inp found inp₁ reason' hscan =>
    cases h
    intro w hw
    exact hfound w (List.mem_reverse.mp hw)

/-! ### Several sources -/

/-- The words of the sources, given to the input one after the other, and the message of a failure, if reading ends with
    one. -/
def wordsOver (inp : Input) : List Source → Input × List (Bytes × Location) × Option Bytes
  | [] => (inp, [], none)
  | s :: rest =>
    match { inp with queue := [s] }.words with
    | (inp', words, .failed message _) => (inp', words, some message)
    | (inp', words, .ended _) =>
      let (inp'', more, failure?) := inp'.wordsOver rest
      (inp'', words ++ more, failure?)

theorem tidy_of_wordsOver (inp : Input) (sources : List Source) : ∀ w ∈ (inp.wordsOver sources).2.1, Tidy w.1 := by
  induction sources generalizing inp with
  | nil => simp [wordsOver]
  | cons s rest ih =>
    rw [wordsOver]
    split
    · rename_i inp' words message loc hwords
      exact tidy_of_wordsFrom (by simp) hwords
    · rename_i inp' words loc hwords
      exact List.forall_mem_append.mpr ⟨tidy_of_wordsFrom (by simp) hwords, ih inp'⟩

end PostfixLambda.Input
