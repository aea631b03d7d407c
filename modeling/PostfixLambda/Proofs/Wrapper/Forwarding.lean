import PostfixLambda.Proofs.Log.Lines
import PostfixLambda.Proofs.Wrapper.Parameters
import PostfixLambda.Proofs.Wrapper.Reading
import PostfixLambda.Wrapper.Run

/-! The wrapper of a builder method takes the method's parameters and passes them on. The generator does not read types:
    what it writes is right exactly if the method's names are words, no comma is in a type, all parameters' names are set
    off, and the list does not hold what looks like its own end. -/

namespace PostfixLambda.Wrapper

open Utf8 Text

/-! ### The wrapper -/

namespace Builder

/-- The wrapper's name, with the parenthesis behind it. -/
def opening (m : Builder) : Bytes := Bytes.ofString "func " ++ m.base ++ capitalized m.case ++ m.what ++ "("

/-- What follows the wrapper's parameters: its type, and the function that calls the method with the arguments. -/
def calling (m : Builder) (arguments : Bytes) : Bytes :=
  let type := m.case ++ caseEnding
  Bytes.ofString " func(" ++ (type ++ ") " ++ type ++ " \x7b\n\treturn func(" ++ m.receiver ++ " " ++ type ++ ") " ++
    type ++ " \x7b\n\t\treturn " ++ m.receiver ++ "." ++ m.base ++ m.what ++ "(" ++ arguments ++
    ")\n\t\x7d\n\x7d\n\n")

/-- The wrapper of a method that passes on the arguments. -/
def wrapping (m : Builder) (arguments : Bytes) : Bytes := m.opening ++ (m.params ++ 0x29 :: m.calling arguments)

end Builder

theorem wrapper?_eq (m : Builder) : wrapper? m = (argumentsOf? m.params).map m.wrapping := by
  have hmark : Bytes.ofString ") func(" = 0x29 :: Bytes.ofString " func(" := rfl
  rw [wrapper?]
  cases argumentsOf? m.params with
  | none => rfl
  | some arguments =>
    simp [hmark, Builder.wrapping, Builder.opening, Builder.calling]

/-! ### What is written for the line -/

theorem generateLine_line {m : Builder} (hm : m.Named) (hw : m.InWords) (body source : Bytes) (args : List Bytes) :
    generateLine source args (m.line body) =
      match readParams? [] (m.params ++ 0x29 :: m.ending body) with
      | none => .ok []
      | some (params, returned) =>
        if returned ≠ m.case then .ok []
        else match wrapper? { m with params := params } with
          | some text => .ok text
          | none => .error .namelessParameter := by
  have hpackage : readPackage? (m.line body) = none := rfl
  rw [generateLine, hpackage, readBuilder?_line hm hw]
  rcases readParams? [] (m.params ++ 0x29 :: m.ending body) with _ | ⟨params, returned⟩ <;> rfl

theorem generateLine_of_not_endsEarly {m : Builder} (hm : m.Named) (hw : m.InWords) (hne : m.params ≠ [])
    (h : ¬EndsEarly m.params) (body source : Bytes) (args : List Bytes) :
    generateLine source args (m.line body) =
      match argumentsOf? m.params with
      | some arguments => .ok (m.wrapping arguments)
      | none => .error .namelessParameter := by
  have hnone : readParams? [] m.params = none := by
    rw [endsEarly_iff, Option.not_isSome_iff_eq_none] at h
    exact h
  have hend : readParams? m.params.reverse (0x29 :: m.ending body) = some (m.params, m.case) := by
    simp [readParams?, hne, returned?_ending hw.case]
  have hread : readParams? [] (m.params ++ 0x29 :: m.ending body) = some (m.params, m.case) := by
    rw [readParams?_append, hnone, List.append_nil, hend]
    rfl
  rw [generateLine_line hm hw, hread]
  simp only [ne_eq, not_true_eq_false, if_false, wrapper?_eq]
  cases argumentsOf? m.params <;> rfl

/-- A wrapper with less of the parameters is another text. -/
theorem wrapping_ne {m : Builder} {front back : Bytes} (hparams : m.params = front ++ 0x29 :: back)
    (hback : (returned? back).isSome) (arguments arguments' : Bytes) :
    { m with params := front }.wrapping arguments' ≠ m.wrapping arguments := by
  -- One wrapper goes on with the type of a function, the other with the test case that looked like the list's end.
  intro h
  rw [Builder.wrapping, Builder.wrapping, hparams, List.append_assoc, List.cons_append] at h
  have htail := (List.cons.inj (List.append_cancel_left (List.append_cancel_left h))).2
  have hend : ∀ rest, returned? (Bytes.ofString " func(" ++ rest) = none := fun rest => rfl
  have hreturned := congrArg returned? htail
  rw [Builder.calling, hend, returned?_before] at hreturned
  rw [← hreturned] at hback
  cases hback

theorem generateLine_of_endsEarly {m : Builder} (hm : m.Named) (hw : m.InWords) (h : EndsEarly m.params)
    (body source : Bytes) (args : List Bytes) (arguments : Bytes) :
    generateLine source args (m.line body) ≠ .ok (m.wrapping arguments) := by
  obtain ⟨⟨params, returned⟩, hfound⟩ := Option.isSome_iff_exists.mp (endsEarly_iff.mp h)
  obtain ⟨front, back, hsplit, hfront, -, hback⟩ := of_readParams? hfound
  obtain rfl : params = front := hfront
  have hread : readParams? [] (m.params ++ 0x29 :: m.ending body) = some (params, returned) := by
    rw [readParams?_append, hfound]
    rfl
  have hshorter : ∀ arguments', { m with params := params }.wrapping arguments' ≠ m.wrapping arguments :=
    fun arguments' => wrapping_ne hsplit (by rw [hback]; rfl) arguments arguments'
  rw [generateLine_line hm hw, hread]
  simp only [wrapper?_eq]
  split
  · simp [Builder.wrapping]
  · cases argumentsOf? params with
    | none => simp
    | some arguments' => simpa using hshorter arguments'

theorem wrapping_inj {m : Builder} {arguments arguments' : Bytes} (h : m.wrapping arguments = m.wrapping arguments') :
    arguments = arguments' := by
  have hcalling := (List.cons.inj (List.append_cancel_left (List.append_cancel_left h))).2
  exact List.append_cancel_left (List.append_cancel_right (List.append_cancel_left hcalling))

theorem paramsText_ne_nil {params : List Param} (h : params ≠ []) : paramsText params ≠ [] := by
  obtain ⟨p, rest, rfl⟩ := List.exists_cons_of_ne_nil h
  have htext : p.text ≠ [] := encode_ne_nil (by simp [Param.chars, p.name.ne_nil])
  cases rest with
  | nil => exact htext
  | cons q rest => simp [paramsText, Bytes.joinWith, htext]

/-- A line's parameters are forwarded, all of them and nothing else, exactly if they are written so that they can be
    told apart. -/
theorem generateLine_forwards_iff {m : Builder} (hm : m.Named) {params : List Param} (hne : params ≠ [])
    (hparams : m.params = paramsText params) (body source : Bytes) (args : List Bytes) :
    generateLine source args (m.line body) = .ok (m.wrapping (passedOn params)) ↔
      m.InWords ∧ (∀ p ∈ params, p.CommaFree ∧ p.SetOff) ∧ ¬EndsEarly m.params := by
  by_cases hw : m.InWords
  · by_cases hearly : EndsEarly m.params
    · have hother := generateLine_of_endsEarly hm hw hearly body source args (passedOn params)
      exact iff_of_false hother fun h => h.2.2 hearly
    · have hsome : m.params ≠ [] := hparams ▸ paramsText_ne_nil hne
      rw [generateLine_of_not_endsEarly hm hw hsome hearly, and_iff_right hw, ← argumentsOf?_iff hne, ← hparams,
        and_iff_left hearly]
      cases argumentsOf? m.params with
      | none => simp
      | some arguments =>
        simp only [Except.ok.injEq, Option.some.injEq]
        exact ⟨wrapping_inj, congrArg m.wrapping⟩
  · have hpackage : readPackage? (m.line body) = none := rfl
    refine iff_of_false ?_ fun h => hw h.1
    rw [generateLine, hpackage, readBuilder?_of_not_inWords hm hw]
    simp [Builder.wrapping]

/-! ### The whole text -/

/-- What is written for a line as it is read. -/
def generateOne (source : Bytes) (args : List Bytes) (line : Bytes) : Except Failure Bytes :=
  if lineLimit ≤ line.length then .error .lineTooLong else generateLine source args (dropReturn line)

theorem generateLines_eq (source : Bytes) (args : List Bytes) (written : Collected) (lines : List Bytes) :
    generateLines source args written lines =
      (lines.mapM (generateOne source args)).map fun texts => written.toBytes ++ texts.flatten := by
  induction lines generalizing written with
  | nil => simp [generateLines, Except.map, pure, Except.pure]
  | cons line rest ih =>
    rw [generateLines, List.mapM_cons, generateOne]
    split
    · rfl
    · cases generateLine source args (dropReturn line) with
      | error e => rfl
      | ok text =>
        simp only [ih, Collected.toBytes_append]
        cases rest.mapM (generateOne source args) with
        | error e => rfl
        | ok texts => simp [Except.map, bind, Except.bind, pure, Except.pure]

theorem linesOf_eq (text : Bytes) : linesOf text = LineLog.allLines text := by
  have hnone : Bytes.lineFeed ∉ Collected.empty.toBytes := List.not_mem_nil
  obtain ⟨hheld, hlines⟩ := LineLog.cut_eq hnone [] text
  rw [Collected.toBytes_empty, List.nil_append] at hheld hlines
  have hempty : (LineLog.cut .empty [] text).1.isEmpty = (LineLog.openLine text).isEmpty := by
    rw [← hheld, Collected.isEmpty, Collected.toBytes, List.isEmpty_reverse]
  rw [linesOf, LineLog.allLines]
  simp only [hempty, hheld, hlines, List.reverse_nil, List.nil_append]
  split <;> simp

theorem linesOf_line {before line rest : Bytes} (hbefore : LineLog.openLine before = [])
    (hline : Bytes.lineFeed ∉ line) (hne : line ≠ []) (hrest : ∀ b ∈ rest.head?, b = Bytes.lineFeed) :
    linesOf (before ++ (line ++ rest)) = linesOf before ++ line :: linesOf rest.tail := by
  obtain ⟨hended, hopen, -⟩ := LineLog.lines_append before (line ++ rest)
  rw [hbefore, List.nil_append] at hended hopen
  simp only [linesOf_eq, LineLog.allLines, hended, hopen, hbefore]
  cases rest with
  | nil =>
    have hnone : Bytes.lineFeed ∉ ([] : Bytes) := List.not_mem_nil
    rw [List.append_nil, LineLog.endedLines_of_not_mem hline, LineLog.openLine_of_not_mem hline, List.tail_nil,
      LineLog.endedLines_of_not_mem hnone, LineLog.openLine_of_not_mem hnone]
    simp [hne]
  | cons b rest =>
    obtain rfl := hrest b rfl
    rw [LineLog.endedLines_lineFeed hline, LineLog.openLine_lineFeed hline]
    simp

/-- A line adds what is written for it to what is written for the lines around it. -/
theorem generate_line {source : Bytes} {args : List Bytes} {before line rest b a : Bytes}
    (hbefore : LineLog.openLine before = []) (hline : Bytes.lineFeed ∉ line) (hne : line ≠ [])
    (hrest : ∀ b ∈ rest.head?, b = Bytes.lineFeed) (hb : generate source args before = .ok b)
    (ha : generate source args rest.tail = .ok a) :
    generate source args (before ++ (line ++ rest)) =
      (generateOne source args line).map fun text => b ++ (text ++ a) := by
  rw [generate, generateLines_eq] at hb ha ⊢
  rw [linesOf_line hbefore hline hne hrest, List.mapM_append, List.mapM_cons]
  cases hfront : (linesOf before).mapM (generateOne source args) with
  | error e => simp [hfront, Except.map] at hb
  | ok front =>
    cases hback : (linesOf rest.tail).mapM (generateOne source args) with
    | error e => simp [hback, Except.map] at ha
    | ok back =>
      obtain rfl : front.flatten = b := by simpa [hfront, Except.map] using hb
      obtain rfl : back.flatten = a := by simpa [hback, Except.map] using ha
      cases generateOne source args line with
      | error e => rfl
      | ok text => simp [Except.map, bind, Except.bind, pure, Except.pure]

/-- A carriage return at the end of the line belongs to the body. -/
theorem dropReturn_line (m : Builder) (body : Bytes) : ∃ body', dropReturn (m.line body) = m.line body' := by
  have hsplit : ∀ body, m.line body = m.line [] ++ body := fun body => by simp [Builder.line, Builder.ending]
  have hbrace : (m.line []).getLast? = some 0x7B := by
    have hlast : (Bytes.ofString " \x7b").getLast? = some 0x7B := rfl
    simp [Builder.line, Builder.ending, List.getLast?_append, List.getLast?_cons, hlast]
  rw [dropReturn]
  split
  · rename_i hlast
    cases body with
    | nil =>
      rw [hbrace] at hlast
      cases hlast
    | cons c body =>
      refine ⟨(c :: body).dropLast, ?_⟩
      rw [hsplit, List.dropLast_append_of_ne_nil (List.cons_ne_nil c body), ← hsplit]
  · exact ⟨body, rfl⟩

/-! ### Forwarding -/

/-- Wherever the line of a builder method stands, the wrapper that is written for it takes the method's parameters as
    they are and passes on each of them, once and in order, exactly if the method's names are words, the types are free
    of commas, the parameters' names set off, and the list does not hold what looks like its own end. -/
theorem wrapper_forwards_iff {m : Builder} (hm : m.Named) {params : List Param} (hne : params ≠ [])
    (hparams : m.params = paramsText params) {source body before rest b a : Bytes} {args : List Bytes}
    (hlimit : (m.line body).length < lineLimit) (hbefore : LineLog.openLine before = [])
    (hline : Bytes.lineFeed ∉ m.line body) (hrest : ∀ b ∈ rest.head?, b = Bytes.lineFeed)
    (hb : generate source args before = .ok b) (ha : generate source args rest.tail = .ok a) :
    generate source args (before ++ (m.line body ++ rest)) = .ok (b ++ (m.wrapping (passedOn params) ++ a)) ↔
      m.InWords ∧ (∀ p ∈ params, p.CommaFree ∧ p.SetOff) ∧ ¬EndsEarly m.params := by
  obtain ⟨body', hdrop⟩ := dropReturn_line m body
  have hsome : m.line body ≠ [] := by simp [Builder.line]
  rw [generate_line hbefore hline hsome hrest hb ha, generateOne, if_neg (Nat.not_le_of_lt hlimit), hdrop,
    ← generateLine_forwards_iff hm hne hparams body' source args]
  cases generateLine source args (m.line body') with
  | error e => simp [Except.map]
  | ok text => simp [Except.map]

/-- Names that share a type, a type of a function and a variadic parameter, behind a package clause. -/
theorem wrapper_forwards_mixed :
    let m : Builder := ⟨"rt", "reduce", "with", "Parts", "a, b int, f func() int, toks ...tok"⟩
    generate "in.go" ["in.go"] (Bytes.ofString "package lambda\n" ++ (m.line [] ++ Bytes.ofString "\n\x7d\n")) =
      .ok (header "lambda" "in.go" ["in.go"] ++ (m.wrapping "a, b, f, toks..." ++ [])) := by
  intro m
  let no : Blanks := ⟨[], List.all_eq_true.mp rfl⟩
  let one : Blanks := ⟨[' '], List.all_eq_true.mp rfl⟩
  let params : List Param :=
    [.sharing no ⟨['a'], by decide, solid_of_any rfl, by decide, by decide⟩ no,
      .typed one ⟨['b'], by decide, solid_of_any rfl, by decide, by decide⟩ one ⟨'i', "nt".toList, by decide, by decide⟩,
      .typed one ⟨['f'], by decide, solid_of_any rfl, by decide, by decide⟩ one ⟨'f', "unc() int".toList, by decide, by decide⟩,
      .variadic one ⟨"toks".toList, by decide, solid_of_any rfl, by decide, by decide⟩ one no
        ⟨'t', "ok".toList, by decide, by decide⟩]
  have hm : m.Named := ⟨⟨by decide, by decide, by decide, by decide⟩, ⟨by decide, by decide, by decide, by decide⟩,
    Or.inr rfl, ⟨by decide, by decide, by decide, by decide⟩⟩
  have hw : m.InWords := ⟨⟨by decide, List.all_eq_true.mp rfl⟩, ⟨by decide, List.all_eq_true.mp rfl⟩,
    ⟨by decide, List.all_eq_true.mp rfl⟩⟩
  have hpassed : passedOn params = "a, b, f, toks..." := by decide
  have hrest : ∀ b ∈ (Bytes.ofString "\n\x7d\n").head?, b = Bytes.lineFeed := fun b hb => (Option.some.inj hb).symm
  rw [← hpassed]
  exact (wrapper_forwards_iff hm (List.cons_ne_nil _ _) (by decide) (by decide) rfl (by decide) hrest rfl rfl).mpr
    ⟨hw, by decide, by decide⟩

/-- A comma in the type of a function ends the parameter for the generator, which passes on a name of that type. -/
theorem function_type_cut :
    let m : Builder := ⟨"rt", "reduce", "with", "Tokens", "f func(a int, b int)"⟩
    let f : Param := .typed ⟨[], List.all_eq_true.mp rfl⟩ ⟨['f'], by decide, solid_of_any rfl, by decide, by decide⟩
      ⟨[' '], List.all_eq_true.mp rfl⟩ ⟨'f', "unc(a int, b int)".toList, by decide, by decide⟩
    m.params = paramsText [f] ∧ passedOn [f] = "f" ∧
      (generate "/dev/stdin" [] (m.line [])).toOption = some (m.wrapping "f, b") ∧
      m.wrapping "f, b" ≠ m.wrapping (passedOn [f]) := by
  intro m f
  exact ⟨by decide, by decide, by decide +kernel, fun h => absurd (wrapping_inj h) (by decide)⟩

end PostfixLambda.Wrapper
