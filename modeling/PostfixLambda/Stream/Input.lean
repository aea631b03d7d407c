import PostfixLambda.Domain
import PostfixLambda.Stream.Source
import PostfixLambda.Text.Blank
import PostfixLambda.Text.Collected
import PostfixLambda.Text.Integer
import PostfixLambda.Text.Quoted

/-! The input: a queue of sources, read rune by rune as one, with the current line and the one before it kept for
    messages, and scanned for words. -/

namespace PostfixLambda

/-- A line of a source. -/
structure Location where
  name : Bytes := []
  line : Int := 0
  deriving DecidableEq, Repr

instance : Shown Location := ⟨fun loc => loc.name ++ ":" ++ Text.integer loc.line⟩

/-- A line with what was read of it. -/
structure Line where
  location : Location := {}
  text : Collected := .empty
  deriving DecidableEq, Repr

instance : Shown Line := ⟨fun l => Shown.text l.location ++ " " ++ Text.quote l.text.toBytes⟩

/-- An input: the source being read, those waiting, the line before the current one, the current one, and the names
    of the sources closed so far, the latest first. -/
structure Input where
  current? : Option Source := none
  queue : List Source := []
  last : Line := {}
  scan : Line := {}
  closed : List Bytes := []
  deriving DecidableEq, Repr

/-- The outcome of reading a rune. -/
inductive Reading where
  | rune (c : Char) (size : Nat)
  /-- The source ended, and another one follows. -/
  | switched
  /-- There is nothing left to read. -/
  | ended
  | failed (message : Bytes)
  deriving DecidableEq, Repr

namespace Input

/-- Ends the current line. -/
def nextLine (inp : Input) : Input :=
  { inp with
    last := inp.scan
    scan := ⟨{ inp.scan.location with line := inp.scan.location.line + 1 }, .empty⟩ }

/-- Leaves the current source, closing it if it is to be closed, and ends a line that was begun. -/
def leaveSource (inp : Input) : Input :=
  let inp := if inp.scan.text.isEmpty then inp else inp.nextLine
  match inp.current? with
  | some s => { inp with current? := none, closed := if s.closes then s.name :: inp.closed else inp.closed }
  | none => inp

/-- Goes on to the next source, if there is one. -/
def nextSource (inp : Input) : Input × Bool :=
  let inp := inp.leaveSource
  match inp.queue with
  | [] => (inp, false)
  | s :: rest =>
    ({ inp with current? := some s, queue := rest, scan := { inp.scan with location := ⟨s.name, 1⟩ } }, true)

/-- Reads from the given source, which is the current one. A line feed ends the line; any other rune is added to it. -/
def readFrom (inp : Input) (s : Source) : Input × Reading :=
  match s.events with
  | .rune r :: rest =>
    let inp := { inp with current? := some { s with events := rest } }
    if r.char = '\n' then (inp.nextLine, .rune r.char r.size)
    else
      let text := inp.scan.text.append (Bytes.ofChar r.char)
      ({ inp with scan := { inp.scan with text := text } }, .rune r.char r.size)
  | .error message :: rest => ({ inp with current? := some { s with events := rest } }, .failed message)
  | [] =>
    match inp.nextSource with
    | (inp', true) => (inp', .switched)
    | (inp', false) => (inp', .ended)

/-- Reads one rune, opening the first source if none is open. -/
def readRune (inp : Input) : Input × Reading :=
  match inp.current? with
  | some s => inp.readFrom s
  | none =>
    match inp.nextSource with
    | (inp', false) => (inp', .ended)
    | (inp', true) =>
      match inp'.current? with
      | some s => inp'.readFrom s
      | none => (inp', .ended)

/-! ### What is left to read -/

/-- A bound on the runes and switches in the sources that wait. -/
def waiting : List Source → Nat
  | [] => 0
  | s :: rest => s.events.length + 2 + waiting rest

/-- A bound on the runes and switches that are left. -/
def remaining (inp : Input) : Nat :=
  (match inp.current? with
    | some s => s.events.length + 1
    | none => 0) + waiting inp.queue

@[simp] theorem queue_leaveSource (inp : Input) : inp.leaveSource.queue = inp.queue := by
  simp only [leaveSource, nextLine]
  split <;> split <;> rfl

@[simp] theorem current?_leaveSource (inp : Input) : inp.leaveSource.current? = none := by
  simp only [leaveSource, nextLine]
  split <;> split <;> simp_all

theorem remaining_nextSource {inp inp' : Input} (h : inp.nextSource = (inp', true)) :
    inp'.remaining < inp.remaining := by
  simp only [nextSource] at h
  split at h
  · simp at h
  · rename_i s rest hr
    rw [queue_leaveSource] at hr
    simp only [Prod.mk.injEq, and_true] at h
    subst h
    simp only [remaining, hr, waiting]
    omega

/-- Once there is no further source, nothing is left. -/
theorem remaining_of_nextSource_false {inp inp' : Input} (h : inp.nextSource = (inp', false)) : inp'.remaining = 0 := by
  simp only [nextSource] at h
  split at h
  · rename_i hq
    cases h
    simp [remaining, waiting, queue_leaveSource inp ▸ hq]
  · simp at h

theorem remaining_readFrom {inp inp' : Input} {s : Source} {r : Reading} (hs : inp.current? = some s)
    (h : inp.readFrom s = (inp', r)) (hr : r ≠ .ended) : inp'.remaining < inp.remaining := by
  simp only [readFrom] at h
  split at h
  · rename_i rune rest he
    split at h <;> cases h <;> simp [remaining, nextLine, hs, he]
  · rename_i message rest he
    cases h
    simp [remaining, hs, he]
  · split at h
    · rename_i inp₁ hn
      cases h
      exact remaining_nextSource hn
    · cases h
      exact absurd rfl hr

/-- Reading a rune, or switching to another source, uses up what is left. -/
theorem remaining_readRune {inp inp' : Input} {r : Reading} (h : inp.readRune = (inp', r)) (hr : r ≠ .ended) :
    inp'.remaining < inp.remaining := by
  simp only [readRune] at h
  split at h
  · rename_i s hs
    exact remaining_readFrom hs h hr
  · split at h
    · cases h
      exact absurd rfl hr
    · rename_i inp₁ hn
      split at h
      · rename_i s hs
        exact Nat.lt_trans (remaining_readFrom hs h hr) (remaining_nextSource hn)
      · cases h
        exact absurd rfl hr

/-- At the end of the input nothing is left. -/
theorem remaining_of_ended {inp inp' : Input} (h : inp.readRune = (inp', .ended)) : inp'.remaining = 0 := by
  have hfrom : ∀ {inp₁ : Input} {s : Source}, inp₁.readFrom s = (inp', .ended) → inp'.remaining = 0 := by
    intro inp₁ s h
    simp only [readFrom] at h
    split at h
    · split at h <;> cases h
    · cases h
    · split at h
      · cases h
      · rename_i hn
        cases h
        exact remaining_of_nextSource_false hn
  simp only [readRune] at h
  split at h
  · exact hfrom h
  · split at h
    · rename_i hn
      cases h
      exact remaining_of_nextSource_false hn
    · split at h
      · exact hfrom h
      · rename_i hn _ hc
        simp only [nextSource] at hn
        split at hn <;> simp at hn
        subst hn
        simp at hc

/-! ### Words -/

/-- Why there is no further word; `loc` is where a word under way had begun. -/
inductive ScanEnd where
  | ended (loc : Location)
  | failed (message : Bytes) (loc : Location)
  deriving DecidableEq, Repr

/-- The outcome of scanning for a word. -/
inductive Scanned where
  | word (w : Bytes) (loc : Location)
  | stop (reason : ScanEnd)
  deriving DecidableEq, Repr

/-- The rune that begins a comment, where it begins a word. -/
def commentMark : Char := '#'

/-- What a rune does to the scan. -/
inductive RuneEffect where
  /-- It ends a word or a comment. -/
  | separate
  /-- It is part of a comment. -/
  | comment
  /-- It is part of a word. -/
  | extend
  deriving DecidableEq, Repr

/-- White space and control characters separate words, the comment mark begins a comment where no word has begun, and
    within a comment only a line feed separates. A null rune always separates. -/
def runeEffect (begun inComment : Bool) (c : Char) : RuneEffect :=
  if c.toNat = 0 then .separate
  else if inComment then if c = '\n' then .separate else .comment
  else if Text.isBlank c || Text.isControl c then .separate
  else if c = commentMark && !begun then .comment
  else .extend

/-- Scans on, with the word under way, where it began, and whether the scan is in a comment. A switch of sources ends a
    word or a comment. -/
def scanFrom (inp : Input) (word : Collected) (loc : Location) (inComment : Bool) : Input × Scanned :=
  match _h : inp.readRune with
  | (inp', .ended) => (inp', if word.isEmpty then .stop (.ended loc) else .word word.toBytes loc)
  | (inp', .failed message) => (inp', .stop (.failed message loc))
  | (inp', .switched) => if word.isEmpty then scanFrom inp' word loc false else (inp', .word word.toBytes loc)
  | (inp', .rune c _) =>
    match runeEffect (!word.isEmpty) inComment c with
    | .separate => if word.isEmpty then scanFrom inp' word loc false else (inp', .word word.toBytes loc)
    | .comment => scanFrom inp' word loc true
    | .extend =>
      let loc' := if word.isEmpty then inp'.scan.location else loc
      scanFrom inp' (word.append (Bytes.ofChar c)) loc' false
termination_by inp.remaining
decreasing_by all_goals exact remaining_readRune _h (by simp)

/-- Scans for the next word, past white space, control characters and comments. -/
def scanWord (inp : Input) : Input × Scanned := inp.scanFrom .empty {} false

/-- A word that is found uses up what is left, unless it was under way and the input ends. -/
theorem remaining_scanFrom {inp inp' : Input} {word : Collected} {loc l : Location} {inComment : Bool} {w : Bytes}
    (h : inp.scanFrom word loc inComment = (inp', .word w l)) :
    inp'.remaining ≤ inp.remaining ∧ (word.isEmpty → inp'.remaining < inp.remaining) := by
  have below : ∀ {a b c : Nat} {p : Prop}, b < c → a ≤ b → a ≤ c ∧ (p → a < c) :=
    fun hb ha => ⟨by omega, fun _ => by omega⟩
  fun_induction scanFrom inp word loc inComment with
  | case1 inp word loc inComment inp₁ hr =>
    split at h
    · simp at h
    · rename_i hw
      cases h
      exact ⟨by simp [remaining_of_ended hr], fun he => absurd he hw⟩
  | case2 => simp at h
  | case3 inp word loc inComment inp₁ hr he ih =>
    exact below (remaining_readRune hr (by simp)) (ih h).1
  | case4 inp word loc inComment inp₁ hr hw =>
    cases h
    exact below (remaining_readRune hr (by simp)) (Nat.le_refl _)
  | case5 inp word loc inComment inp₁ c n hr _ he ih =>
    exact below (remaining_readRune hr (by simp)) (ih h).1
  | case6 inp word loc inComment inp₁ c n hr _ hw =>
    cases h
    exact below (remaining_readRune hr (by simp)) (Nat.le_refl _)
  | case7 inp word loc inComment inp₁ c n hr _ ih =>
    exact below (remaining_readRune hr (by simp)) (ih h).1
  | case8 inp word loc inComment inp₁ c n hr _ loc' ih =>
    exact below (remaining_readRune hr (by simp)) (ih h).1

/-- Scans for all words, after those found so far, which are held last one first. -/
def wordsFrom (inp : Input) (found : List (Bytes × Location)) : Input × List (Bytes × Location) × ScanEnd :=
  match _h : inp.scanWord with
  | (inp', .word w loc) => wordsFrom inp' ((w, loc) :: found)
  | (inp', .stop reason) => (inp', found.reverse, reason)
termination_by inp.remaining
decreasing_by exact (remaining_scanFrom _h).2 rfl

/-- Scans for all words up to the end of the input or a failure. -/
def words (inp : Input) : Input × List (Bytes × Location) × ScanEnd := inp.wordsFrom []

end Input

end PostfixLambda
