import PostfixLambda.Proofs.Stream.Lexical

/-! Scanning an input follows the lexical rule: the input has the words of its sources one after the other, none of which
    goes over the end of a source, and each is found where it begins. -/

namespace PostfixLambda

/-! ### Places -/

/-- The place after some characters of the same source. -/
def Location.past (loc : Location) (cs : List Char) : Location := { loc with line := loc.line + cs.count '\n' }

theorem Location.past_nil (loc : Location) : loc.past [] = loc := by
  simp [past]

theorem Location.past_past (loc : Location) (cs ds : List Char) : (loc.past cs).past ds = loc.past (cs ++ ds) := by
  simp [past, List.count_append, Int.add_assoc]

/-! ### Sources -/

/-- The character that an event brings. -/
def Event.char? : Event → Option Char
  | .rune r => some r.char
  | .error _ => none

/-- The characters that reading from a source brings. -/
def Source.chars (s : Source) : List Char := s.events.filterMap Event.char?

/-- Reading from the source never fails. -/
def Source.Readable (s : Source) : Prop := ∀ event ∈ s.events, event.char?.isSome = true

theorem Source.chars_named (name text : Bytes) : (named name text).chars = Utf8.chars text := by
  simp [Source.chars, Source.named, Source.eventsOf, Utf8.chars, List.filterMap_map, Function.comp_def, Event.char?]

theorem Source.readable_named (name text : Bytes) : (named name text).Readable := by
  intro event hevent
  obtain ⟨r, -, rfl⟩ := List.mem_map.mp hevent
  rfl

/-- A source of which nothing was read yet: the place where it begins, and all its characters. -/
def Source.unread (s : Source) : Location × List Char := (⟨s.name, 1⟩, s.chars)

namespace Input

/-- The sources that are left, the one being read first. -/
def sources (inp : Input) : List Source := inp.current?.toList ++ inp.queue

/-- What is left to read of each source. -/
def streams (inp : Input) : List (List Char) := inp.sources.map Source.chars

/-- What is left to read of each source, after the place that reading has reached in it. -/
def places (inp : Input) : List (Location × List Char) :=
  (inp.current?.map fun s => (inp.scan.location, s.chars)).toList ++ inp.queue.map Source.unread

/-- Reading from the input never fails. -/
def Readable (inp : Input) : Prop := ∀ s ∈ inp.sources, s.Readable

theorem streams_eq (inp : Input) : inp.streams = inp.places.map Prod.snd := by
  cases hcurrent : inp.current? <;> simp [streams, sources, places, hcurrent, Source.unread]

theorem places_of_current {inp : Input} {s : Source} (h : inp.current? = some s) :
    inp.places = (inp.scan.location, s.chars) :: inp.queue.map Source.unread := by
  simp [places, h]

theorem places_of_closed {inp : Input} (h : inp.current? = none) : inp.places = inp.queue.map Source.unread := by
  simp [places, h]

/-! ### Reading a rune -/

theorem nextSource_cases (inp : Input) :
    (∃ inp' s, inp.nextSource = (inp', true) ∧ inp'.current? = some s ∧ inp'.sources = inp.queue ∧
        inp'.places = inp.queue.map Source.unread) ∨
      ∃ inp', inp.nextSource = (inp', false) ∧ inp.queue = [] ∧ inp'.places = [] := by
  simp only [nextSource]
  split
  · rename_i hq
    rw [queue_leaveSource] at hq
    exact Or.inr ⟨_, rfl, hq, by simp [places, hq]⟩
  · rename_i s rest hq
    rw [queue_leaveSource] at hq
    exact Or.inl ⟨_, s, rfl, rfl, by simp [sources, hq], by simp [places, hq, Source.unread]⟩

/-- What reading a rune comes to where reading never fails: the place moves on past the rune, or to another source. -/
inductive RuneRead (inp : Input) : Input × Reading → Prop where
  | rune {inp' : Input} {c : Char} {n : Nat} {loc : Location} {cs : List Char} {rest : List (Location × List Char)}
      (hread : inp'.Readable) (hfrom : inp.places = (loc, c :: cs) :: rest)
      (hto : inp'.places = (loc.past [c], cs) :: rest) (hplace : inp'.scan.location = loc.past [c]) :
      RuneRead inp (inp', .rune c n)
  | switched {inp' : Input} {loc : Location} (hread : inp'.Readable) (hfrom : inp.places = (loc, []) :: inp'.places) :
      RuneRead inp (inp', .switched)
  | ended {inp' : Input} (hfrom : inp.places = [] ∨ ∃ loc, inp.places = [(loc, [])]) (hto : inp'.places = []) :
      RuneRead inp (inp', .ended)

theorem runeRead_readFrom {inp : Input} {s : Source} (hs : inp.current? = some s) (h : inp.Readable) :
    RuneRead inp (inp.readFrom s) := by
  have hsources : inp.sources = s :: inp.queue := by simp [sources, hs]
  unfold Readable at h
  rw [hsources, List.forall_mem_cons] at h
  simp only [readFrom]
  split
  · rename_i r rest hevents
    have hreadable : ({ s with events := rest } : Source).Readable := by
      have hall := h.1
      unfold Source.Readable at hall
      rw [hevents, List.forall_mem_cons] at hall
      exact hall.2
    have hchars : s.chars = r.char :: Source.chars { s with events := rest } := by
      simp [Source.chars, hevents, Event.char?]
    have hfrom := places_of_current hs
    rw [hchars] at hfrom
    split
    · rename_i hfeed
      have hplace : inp.scan.location.past [r.char] = { inp.scan.location with line := inp.scan.location.line + 1 } := by
        simp [Location.past, hfeed]
      refine .rune (List.forall_mem_cons.mpr ⟨hreadable, h.2⟩) hfrom ?_ hplace.symm
      rw [places_of_current rfl, hplace]
      rfl
    · rename_i hother
      have hplace : inp.scan.location.past [r.char] = inp.scan.location := by
        simp [Location.past, hother]
      exact .rune (List.forall_mem_cons.mpr ⟨hreadable, h.2⟩) hfrom (by rw [places_of_current rfl, hplace]) hplace.symm
  · rename_i message rest hevents
    have hfails := h.1 (.error message) (by simp [hevents])
    cases hfails
  · rename_i hevents
    have hfrom := places_of_current hs
    have hchars : s.chars = [] := by simp [Source.chars, hevents]
    rw [hchars] at hfrom
    rcases inp.nextSource_cases with ⟨inp', s', hnext, -, hleft, hplaces⟩ | ⟨inp', hnext, hqueue, hplaces⟩
    · rw [hnext]
      refine .switched ?_ (hfrom.trans (congrArg (_ :: ·) hplaces.symm))
      unfold Readable
      rw [hleft]
      exact h.2
    · rw [hqueue] at hfrom
      rw [hnext]
      exact .ended (Or.inr ⟨_, hfrom⟩) hplaces

theorem runeRead_readRune {inp : Input} (h : inp.Readable) : RuneRead inp inp.readRune := by
  simp only [readRune]
  split
  · rename_i s hs
    exact runeRead_readFrom hs h
  · rename_i hs
    have hfrom := places_of_closed hs
    rcases inp.nextSource_cases with ⟨inp', s, hnext, hcurrent, hleft, hplaces⟩ | ⟨inp', hnext, hqueue, hplaces⟩
    · -- The source that was opened is read as if it had been open.
      have hsame : inp'.sources = inp.sources := hleft.trans (by simp [sources, hs])
      have hread : inp'.Readable := by
        unfold Readable
        rw [hsame]
        exact h
      have hthere : inp.places = inp'.places := hfrom.trans hplaces.symm
      have hrune := runeRead_readFrom hcurrent hread
      simp only [hnext, hcurrent]
      generalize inp'.readFrom s = outcome at hrune
      cases hrune with
      | rune hread' hfrom' hto hplace => exact .rune hread' (hthere.trans hfrom') hto hplace
      | switched hread' hfrom' => exact .switched hread' (hthere.trans hfrom')
      | ended hfrom' hto => exact .ended (hthere ▸ hfrom') hto
    · rw [hqueue] at hfrom
      rw [hnext]
      exact .ended (Or.inl hfrom) hplaces

/-! ### Words to come -/

/-- The words of a source. -/
def wordsIn (cs : List Char) : List Bytes := (lexemes separates endsComment cs).map Utf8.encode

/-- The words of what is left of a source, with the places where they begin. -/
def wordsAt : Location × List Char → List (Bytes × Location)
  | (loc, cs) => (lexemesAfter separates endsComment [] cs).map fun (before, w) => (Utf8.encode w, loc.past before)

/-- The word under way, if there is one. -/
def underWay (word : Bytes) (start : Location) : List (Bytes × Location) := if word.isEmpty then [] else [(word, start)]

/-- The words to come of a source with a word under way, which began at `start`, or in a comment. -/
def ongoing (word : Bytes) (start : Location) (inComment : Bool) (loc : Location) (cs : List Char) :
    List (Bytes × Location) :=
  if inComment then
    wordsAt (loc.past (cs.takeWhile fun c => !endsComment c), cs.dropWhile fun c => !endsComment c)
  else if word.isEmpty then wordsAt (loc, cs)
  else
    (word ++ Utf8.encode (cs.takeWhile fun c => !separates c), start) ::
      wordsAt (loc.past (cs.takeWhile fun c => !separates c), cs.dropWhile fun c => !separates c)

/-- The words to come of all sources. -/
def upcoming (word : Bytes) (start : Location) (inComment : Bool) : List (Location × List Char) → List (Bytes × Location)
  | [] => underWay word start
  | (loc, cs) :: rest => ongoing word start inComment loc cs ++ rest.flatMap wordsAt

theorem isEmpty_toBytes (word : Collected) : word.toBytes.isEmpty = word.isEmpty := by
  simp [Collected.isEmpty, Collected.toBytes]

theorem underWay_of_empty {word : Collected} (h : word.isEmpty = true) (start : Location) :
    underWay word.toBytes start = [] := by
  simp [underWay, isEmpty_toBytes, h]

theorem underWay_of_begun {word : Collected} (h : ¬word.isEmpty = true) (start : Location) :
    underWay word.toBytes start = [(word.toBytes, start)] := by
  simp [underWay, isEmpty_toBytes, h]

theorem wordsIn_nil : wordsIn [] = [] := by
  simp [wordsIn, lexemes]

theorem wordsIn_of_separates {c : Char} (hc : separates c = true) (cs : List Char) :
    wordsIn (c :: cs) = wordsIn cs := by
  rw [wordsIn, lexemes, if_pos hc, wordsIn]

theorem map_fst_wordsAt (p : Location × List Char) : (wordsAt p).map Prod.fst = wordsIn p.2 := by
  rw [wordsAt, wordsIn, ← map_snd_lexemesAfter separates endsComment [] p.2, List.map_map, List.map_map]
  rfl

/-- Words after other text begin at places past it. -/
theorem map_lexemesAfter (loc : Location) (front cs : List Char) :
    ((lexemesAfter separates endsComment front cs).map fun (before, w) => (Utf8.encode w, loc.past before)) =
      wordsAt (loc.past front, cs) := by
  have hafter := lexemesAfter_append separates endsComment front [] cs
  rw [List.append_nil] at hafter
  rw [hafter, wordsAt, List.map_map]
  refine List.map_congr_left fun ⟨before, w⟩ _ => ?_
  exact congrArg (Utf8.encode w, ·) (loc.past_past front before).symm

theorem wordsAt_nil (loc : Location) : wordsAt (loc, []) = [] := by
  rw [wordsAt, lexemesAfter, List.map_nil]

theorem wordsAt_of_separates {c : Char} (hc : separates c = true) (loc : Location) (cs : List Char) :
    wordsAt (loc, c :: cs) = wordsAt (loc.past [c], cs) := by
  rw [wordsAt, lexemesAfter, if_pos hc, map_lexemesAfter]
  rfl

theorem wordsAt_of_mark {c : Char} (hc : ¬separates c = true) (hmark : c = commentMark) (loc : Location)
    (cs : List Char) :
    wordsAt (loc, c :: cs) =
      wordsAt (loc.past (c :: cs.takeWhile fun c => !endsComment c), cs.dropWhile fun c => !endsComment c) := by
  rw [wordsAt, lexemesAfter, if_neg hc, if_pos hmark, map_lexemesAfter]
  rfl

theorem wordsAt_of_begun {c : Char} (hc : ¬separates c = true) (hmark : c ≠ commentMark) (loc : Location)
    (cs : List Char) :
    wordsAt (loc, c :: cs) =
      (Utf8.encode (c :: cs.takeWhile fun c => !separates c), loc) ::
        wordsAt (loc.past (c :: cs.takeWhile fun c => !separates c), cs.dropWhile fun c => !separates c) := by
  rw [wordsAt, lexemesAfter, if_neg hc, if_neg hmark, List.map_cons, map_lexemesAfter, List.nil_append]
  simp only [Location.past_nil]

theorem ongoing_nil {word : Bytes} {inComment : Bool} (h : inComment = true → word = []) (start loc : Location) :
    ongoing word start inComment loc [] = underWay word start := by
  cases inComment with
  | true => simp [ongoing, underWay, h rfl, wordsAt_nil]
  | false =>
    simp only [ongoing, Bool.false_eq_true, if_false, underWay, wordsAt_nil, List.dropWhile_nil, List.takeWhile_nil]
    simp [Utf8.encode]

theorem upcoming_fresh (start : Location) (places : List (Location × List Char)) :
    upcoming [] start false places = places.flatMap wordsAt := by
  cases places with
  | nil => rfl
  | cons p rest => simp [upcoming, ongoing]

theorem runeEffect_eq (begun inComment : Bool) (c : Char) :
    runeEffect begun inComment c =
      if inComment then if endsComment c then .separate else .comment
      else if separates c then .separate
      else if c = commentMark && !begun then .comment
      else .extend := by
  unfold runeEffect
  by_cases hnull : c.toNat = 0
  · have hends : endsComment c = true := by simp [endsComment, hnull]
    have hseparates : separates c = true := by simp [separates, Text.isControl, hnull]
    simp [hnull, hends, hseparates]
  · have hends : endsComment c = endsLine c := by simp [endsComment, hnull]
    rw [if_neg hnull, hends]
    simp [endsLine, separates]

theorem separates_of_endsComment {c : Char} (h : endsComment c = true) : separates c = true := by
  simp only [endsComment, endsLine, Bool.or_eq_true, decide_eq_true_eq] at h
  rcases h with rfl | h
  · decide
  · simp [separates, Text.isControl, h]

theorem ofChar_ne_nil (c : Char) : Bytes.ofChar c ≠ [] := by
  intro h
  have hlength := congrArg List.length h
  simp only [Bytes.ofChar, String.length_utf8EncodeChar, List.length_nil] at hlength
  exact absurd hlength (Nat.ne_of_gt c.utf8Size_pos)

/-- A character that separates ends the word under way, or the comment. -/
theorem ongoing_of_separate {word : Bytes} {inComment : Bool} {c : Char} (hcomment : inComment = true → word = [])
    (h : runeEffect (!word.isEmpty) inComment c = .separate) (start loc : Location) (cs : List Char) :
    ongoing word start inComment loc (c :: cs) = underWay word start ++ wordsAt (loc.past [c], cs) := by
  rw [runeEffect_eq] at h
  cases inComment with
  | true =>
    simp only [if_true] at h
    split at h
    · rename_i hends
      simp only [ongoing, if_true, List.dropWhile_cons, List.takeWhile_cons, hends, Bool.not_true, Bool.false_eq_true,
        if_false, hcomment rfl, underWay, List.isEmpty_nil, List.nil_append, Location.past_nil]
      exact wordsAt_of_separates (separates_of_endsComment hends) loc cs
    · cases h
  | false =>
    simp only [Bool.false_eq_true, if_false] at h
    split at h
    · rename_i hseparates
      simp only [ongoing, Bool.false_eq_true, if_false, List.dropWhile_cons, List.takeWhile_cons, hseparates,
        Bool.not_true, Location.past_nil, wordsAt_of_separates hseparates, underWay]
      split
      · rfl
      · simp [Utf8.encode]
    · split at h <;> cases h

/-- There is no word under way at the beginning of a comment or in one. -/
theorem nil_of_comment {word : Bytes} {inComment : Bool} {c : Char} (hcomment : inComment = true → word = [])
    (h : runeEffect (!word.isEmpty) inComment c = .comment) : word = [] := by
  rw [runeEffect_eq] at h
  cases inComment with
  | true => exact hcomment rfl
  | false =>
    cases word with
    | nil => rfl
    | cons b rest =>
      simp only [Bool.false_eq_true, if_false, List.isEmpty_cons, Bool.not_false, Bool.not_true, Bool.and_false] at h
      split at h <;> cases h

/-- A character of a comment, or one that begins it, brings nothing. -/
theorem ongoing_of_comment {word : Bytes} {inComment : Bool} {c : Char}
    (h : runeEffect (!word.isEmpty) inComment c = .comment) (start loc : Location) (cs : List Char) :
    ongoing word start inComment loc (c :: cs) = ongoing word start true (loc.past [c]) cs := by
  rw [runeEffect_eq] at h
  cases inComment with
  | true =>
    simp only [if_true] at h
    split at h
    · cases h
    · rename_i hends
      simp only [ongoing, if_true, List.dropWhile_cons, List.takeWhile_cons, hends, Bool.not_false, Location.past_past,
        List.singleton_append]
  | false =>
    simp only [Bool.false_eq_true, if_false] at h
    split at h
    · cases h
    · rename_i hseparates
      split at h
      · rename_i hmark
        simp only [Bool.and_eq_true, decide_eq_true_eq, Bool.not_not] at hmark
        simp only [ongoing, Bool.false_eq_true, if_false, hmark.2, if_true, Location.past_past, List.singleton_append]
        exact wordsAt_of_mark hseparates hmark.1 loc cs
      · cases h

/-- Any other character is one more of the word, or its first one. -/
theorem ongoing_of_extend {word : Bytes} {inComment : Bool} {c : Char}
    (h : runeEffect (!word.isEmpty) inComment c = .extend) (start loc : Location) (cs : List Char) :
    ongoing word start inComment loc (c :: cs) =
      ongoing (word ++ Bytes.ofChar c) (if word.isEmpty then loc.past [c] else start) false (loc.past [c]) cs := by
  rw [runeEffect_eq] at h
  cases inComment with
  | true =>
    simp only [if_true] at h
    split at h <;> cases h
  | false =>
    simp only [Bool.false_eq_true, if_false] at h
    split at h
    · cases h
    · rename_i hseparates
      split at h
      · cases h
      · rename_i hmark
        have hlonger : (word ++ Bytes.ofChar c).isEmpty = false := by simp [ofChar_ne_nil c]
        have hfeed : c ≠ '\n' := by
          rintro rfl
          exact hseparates (by decide)
        have hsame : loc.past [c] = loc := by simp [Location.past, hfeed]
        simp only [ongoing, Bool.false_eq_true, if_false, hlonger, List.takeWhile_cons, List.dropWhile_cons,
          hseparates, Bool.not_false, if_true, Location.past_past, List.singleton_append]
        split
        · rename_i hempty
          have hnot : c ≠ commentMark := by
            rintro rfl
            simp [hempty] at hmark
          rw [List.isEmpty_iff.mp hempty, wordsAt_of_begun hseparates hnot, hsame]
          rfl
        · simp [Utf8.encode]

/-! ### Scanning -/

/-- What scanning for a word comes to, given the words to come with their places: the first of them, and then the others
    are to come; or the end, if there are none. -/
inductive FoundAt (words : List (Bytes × Location)) : Input × Scanned → Prop where
  | word {inp' : Input} {w : Bytes} {loc : Location} (hread : inp'.Readable)
      (h : words = (w, loc) :: inp'.places.flatMap wordsAt) : FoundAt words (inp', .word w loc)
  | ended {inp' : Input} {loc : Location} (hwords : words = []) (h : inp'.places = []) :
      FoundAt words (inp', .stop (.ended loc))

theorem readable_of_places_nil {inp : Input} (h : inp.places = []) : inp.Readable := by
  obtain ⟨hcurrent, hqueue⟩ := List.append_eq_nil_iff.mp h
  rw [Option.toList_eq_nil_iff, Option.map_eq_none_iff] at hcurrent
  intro s hs
  rw [sources, hcurrent, List.map_eq_nil_iff.mp hqueue] at hs
  cases hs

theorem foundAt_scanFrom {inp : Input} {word : Collected} {loc : Location} {inComment : Bool} (h : inp.Readable)
    (hcomment : inComment = true → word.toBytes = []) :
    FoundAt (upcoming word.toBytes loc inComment inp.places) (inp.scanFrom word loc inComment) := by
  fun_induction scanFrom inp word loc inComment with
  | case1 inp word loc inComment inp' hr =>
    have hread := hr ▸ runeRead_readRune h
    cases hread with
    | ended hfrom hto =>
      have hlast : upcoming word.toBytes loc inComment inp.places = underWay word.toBytes loc := by
        rcases hfrom with hfrom | ⟨place, hfrom⟩
        · rw [hfrom, upcoming]
        · rw [hfrom, upcoming, ongoing_nil hcomment, List.flatMap_nil, List.append_nil]
      rw [hlast]
      split
      · rename_i hempty
        rw [underWay_of_empty hempty]
        exact .ended rfl hto
      · rename_i hbegun
        rw [underWay_of_begun hbegun]
        refine .word (readable_of_places_nil hto) ?_
        rw [hto, List.flatMap_nil]
  | case2 inp word loc inComment inp' message hr =>
    have hread := hr ▸ runeRead_readRune h
    cases hread
  | case3 inp word loc inComment inp' hr hempty ih =>
    have hread := hr ▸ runeRead_readRune h
    cases hread with
    | switched hread' hfrom =>
      have hfound := ih hread' (by simp)
      rw [(word.isEmpty_iff).mp hempty, upcoming_fresh] at hfound
      rw [hfrom, upcoming, ongoing_nil hcomment, underWay_of_empty hempty]
      exact hfound
  | case4 inp word loc inComment inp' hr hbegun =>
    have hread := hr ▸ runeRead_readRune h
    cases hread with
    | switched hread' hfrom =>
      rw [hfrom, upcoming, ongoing_nil hcomment, underWay_of_begun hbegun]
      exact .word hread' rfl
  | case5 inp word loc inComment inp' c n hr heffect hempty ih =>
    have hread := hr ▸ runeRead_readRune h
    cases hread with
    | rune hread' hfrom hto hplace =>
      have hfound := ih hread' (by simp)
      rw [(word.isEmpty_iff).mp hempty, upcoming_fresh, hto, List.flatMap_cons] at hfound
      rw [← isEmpty_toBytes] at heffect
      rw [hfrom, upcoming, ongoing_of_separate hcomment heffect, underWay_of_empty hempty]
      exact hfound
  | case6 inp word loc inComment inp' c n hr heffect hbegun =>
    have hread := hr ▸ runeRead_readRune h
    cases hread with
    | rune hread' hfrom hto hplace =>
      rw [← isEmpty_toBytes] at heffect
      rw [hfrom, upcoming, ongoing_of_separate hcomment heffect, underWay_of_begun hbegun]
      refine .word hread' ?_
      rw [hto]
      rfl
  | case7 inp word loc inComment inp' c n hr heffect ih =>
    have hread := hr ▸ runeRead_readRune h
    cases hread with
    | rune hread' hfrom hto hplace =>
      rw [← isEmpty_toBytes] at heffect
      have hfound := ih hread' fun _ => nil_of_comment hcomment heffect
      rw [hto, upcoming] at hfound
      rw [hfrom, upcoming, ongoing_of_comment heffect]
      exact hfound
  | case8 inp word loc inComment inp' c n hr heffect loc' ih =>
    have hread := hr ▸ runeRead_readRune h
    cases hread with
    | rune hread' hfrom hto hplace =>
      rw [← isEmpty_toBytes] at heffect
      have hfound := ih hread' (by simp)
      -- A word begins where its first character was read.
      simp only [loc', hplace, ← isEmpty_toBytes] at hfound ⊢
      rw [hto, upcoming, Collected.toBytes_append] at hfound
      rw [hfrom, upcoming, ongoing_of_extend heffect]
      exact hfound

theorem foundAt_scanWord {inp : Input} (h : inp.Readable) : FoundAt (inp.places.flatMap wordsAt) inp.scanWord := by
  rw [← upcoming_fresh {}]
  exact @foundAt_scanFrom inp .empty {} false h (by simp)

/-- Scanning for all words finds all that are to come, where they begin, and then the end, with nothing left. -/
theorem wordsFrom_located {inp : Input} {found : List (Bytes × Location)} (h : inp.Readable) :
    ∃ inp' loc, inp.wordsFrom found = (inp', found.reverse ++ inp.places.flatMap wordsAt, .ended loc) ∧
      inp'.places = [] := by
  fun_induction wordsFrom inp found with
  | case1 inp found inp' w loc hscan ih =>
    cases hscan ▸ foundAt_scanWord h with
    | word hread hwords =>
      obtain ⟨last, loc, heq, hlast⟩ := ih hread
      refine ⟨last, loc, ?_, hlast⟩
      rw [heq, hwords, List.reverse_cons, List.append_assoc, List.singleton_append]
  | case2 inp found inp' reason hscan =>
    cases hscan ▸ foundAt_scanWord h with
    | @ended inp' loc hwords hlast =>
      refine ⟨inp', loc, ?_, hlast⟩
      rw [hwords, List.append_nil]

/-! ### Words without their places -/

theorem readable_of_streams_nil {inp : Input} (h : inp.streams = []) : inp.Readable := by
  intro s hs
  rw [List.map_eq_nil_iff.mp h] at hs
  cases hs

theorem map_fst_flatMap_wordsAt (inp : Input) :
    (inp.places.flatMap wordsAt).map Prod.fst = inp.streams.flatMap wordsIn := by
  simp only [streams_eq, List.map_flatMap, List.flatMap_map, map_fst_wordsAt]

/-- What scanning for a word comes to, given the words to come: the first of them, and then the others are to come; or
    the end, if there are none. -/
inductive WordFound (words : List Bytes) : Input × Scanned → Prop where
  | word {inp' : Input} {w : Bytes} {loc : Location} (hread : inp'.Readable)
      (h : words = w :: inp'.streams.flatMap wordsIn) : WordFound words (inp', .word w loc)
  | ended {inp' : Input} {loc : Location} (hwords : words = []) (h : inp'.streams = []) :
      WordFound words (inp', .stop (.ended loc))

theorem wordFound_scanWord {inp : Input} (h : inp.Readable) :
    WordFound (inp.streams.flatMap wordsIn) inp.scanWord := by
  have hfound := foundAt_scanWord h
  rw [← map_fst_flatMap_wordsAt]
  generalize inp.scanWord = outcome at hfound
  cases hfound with
  | @word inp' w loc hread hwords =>
    refine .word hread ?_
    rw [hwords, List.map_cons, map_fst_flatMap_wordsAt]
  | @ended inp' loc hwords hlast =>
    refine .ended ?_ ?_
    · rw [hwords, List.map_nil]
    · rw [streams_eq, hlast, List.map_nil]

theorem wordsFrom_eq {inp : Input} {found : List (Bytes × Location)} (h : inp.Readable) :
    ∃ inp' words loc, inp.wordsFrom found = (inp', words, .ended loc) ∧ inp'.streams = [] ∧
      words.map Prod.fst = (found.map Prod.fst).reverse ++ inp.streams.flatMap wordsIn := by
  obtain ⟨inp', loc, heq, hlast⟩ := @wordsFrom_located inp found h
  refine ⟨inp', _, loc, heq, ?_, ?_⟩
  · rw [streams_eq, hlast, List.map_nil]
  · rw [List.map_append, List.map_reverse, map_fst_flatMap_wordsAt]

/-- For every queue of readable sources the words found are those of the lexical rule, source by source, and then the
    end, again and again; where no comment holds a null character, only the end of its line ends a comment. -/
theorem words_follow_lexical_rule (inp : Input) (h : inp.Readable) :
    ∃ inp' words loc, inp.words = (inp', words, .ended loc) ∧
      words.map Prod.fst = (inp.streams.flatMap (lexemes separates endsComment)).map Utf8.encode ∧
      ((∀ cs ∈ inp.streams, ∀ c ∈ hidden separates endsLine cs, c.toNat ≠ 0) →
        words.map Prod.fst = (inp.streams.flatMap (lexemes separates endsLine)).map Utf8.encode) ∧
      ∃ inp'' loc', inp'.scanWord = (inp'', .stop (.ended loc')) := by
  obtain ⟨inp', words, loc, heq, hlast, hwords⟩ := @wordsFrom_eq inp [] h
  have hfound : words.map Prod.fst = (inp.streams.flatMap (lexemes separates endsComment)).map Utf8.encode := by
    rw [hwords, List.map_flatMap]
    rfl
  refine ⟨inp', words, loc, heq, hfound, fun hnull => ?_, ?_⟩
  · have hsame : inp.streams.map (lexemes separates endsComment) = inp.streams.map (lexemes separates endsLine) :=
      List.map_congr_left fun cs hcs => lexemes_endsComment (hnull cs hcs)
    rw [hfound, List.flatMap_def, hsame, List.flatMap_def]
  · have hagain := wordFound_scanWord (readable_of_streams_nil hlast)
    rw [hlast] at hagain
    generalize inp'.scanWord = outcome at hagain
    cases hagain with
    | word hread hwords => cases hwords
    | ended => exact ⟨_, _, rfl⟩

/-- A comment mark within a word, a comment up to the end of its line, a byte that is no text, a comment up to the end
    of its source and a null character between two words. -/
theorem words_follow_lexical_rule_mixed :
    let inp : Input := { queue := [.named "p" (("a#b # c\nd" : Bytes) ++ 0xFF :: " #e"), .named "q" "f\x00g"] }
    inp.Readable ∧ ∃ inp' words loc, inp.words = (inp', words, .ended loc) ∧
      words.map Prod.fst = (["a#b", "d\uFFFD", "f", "g"] : List Bytes) := by
  intro inp
  have hread : inp.Readable := by
    simp only [inp, Readable, sources, Option.toList_none, List.nil_append, List.forall_mem_cons]
    exact ⟨Source.readable_named _ _, Source.readable_named _ _, by simp⟩
  have hhidden : (inp.streams.flatMap (hidden separates endsLine)).all (fun c => c.toNat ≠ 0) = true := by
    decide +kernel
  have hnull : ∀ cs ∈ inp.streams, ∀ c ∈ hidden separates endsLine cs, c.toNat ≠ 0 := by
    intro cs hcs c hc
    exact of_decide_eq_true (List.all_eq_true.mp hhidden c (List.mem_flatMap.mpr ⟨cs, hcs, hc⟩))
  obtain ⟨inp', words, loc, heq, -, hwords, -⟩ := words_follow_lexical_rule inp hread
  refine ⟨hread, inp', words, loc, heq, ?_⟩
  rw [hwords hnull]
  decide +kernel

/-- A null character ends a comment within its line. -/
theorem null_ends_comment :
    let inp : Input := { queue := [.named "p" "x # a\x00b"] }
    inp.words.2.1.map Prod.fst = (["x", "b"] : List Bytes) ∧
      (inp.streams.flatMap (lexemes separates endsLine)).map Utf8.encode = (["x"] : List Bytes) := by
  decide +kernel

end Input

end PostfixLambda
