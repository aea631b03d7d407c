import PostfixLambda.Substitution.Env
import PostfixLambda.Substitution.Walk
import PostfixLambda.Term.Names

/-! Substitution: every free variable that an environment binds is replaced by a copy of its term, all at once. A
    binder that would capture a free variable of a replacement is renamed first, or refused when no renamer is
    given. -/

namespace PostfixLambda

namespace Walk

variable {V S : Type} [DecidableEq S]

/-! ### Copying -/

/-- The rules that change nothing. -/
def copying (dup : Dup V := .sound) : Rules V S where
  leaf _ s := .ok (.var s)
  enter st b body := .ok ⟨b, body, none, st, rfl⟩
  dup := dup

end Walk

/-- A copy of a term; a term with a hole has none. -/
def Term.copy {V S : Type} [DecidableEq S] (e : Term V S) (dup : Dup V := .sound) :
    Except (Stop (TermError S)) (Term V S) := (Walk.run (Walk.copying dup) {} e).result

namespace Walk

variable {V S : Type} [DecidableEq S]

/-! ### Replacements -/

/-- The replacement of a name, unless a binder passed suspends it. -/
def active? (env : Env V S) (shadow : List S) (s : S) : Option (Term V S) :=
  if s ∈ shadow then none else env.find? s

/-- The free names of the replacements seen so far, by the name replaced. -/
abbrev Known (S : Type) := List (S × List S)

/-- The free names known of a name's replacement. -/
def Known.find? (known : Known S) (s : S) : Option (List S) :=
  (List.find? (fun (name, _) => name = s) known).map Prod.snd

/-- The free names of the replacement `r` of `s`, found at most once. -/
def Known.learn (known : Known S) (s : S) (r : Term V S) : Known S × List S :=
  match known.find? s with
  | some names => (known, names)
  | none => ((s, r.freeVars) :: known, r.freeVars)

/-- Learns the free names of the replacement of `s`, if the environment has one. -/
def Known.learnOf (env : Env V S) (known : Known S) (s : S) : Known S :=
  match env.find? s with
  | some r => (known.learn s r).1
  | none => known

/-- The free names of every replacement that a term may receive. -/
def Known.ofTerm (env : Env V S) (e : Term V S) : Known S := e.freeVars.foldl (Known.learnOf env) []

/-- Whether a name is free in some replacement seen so far; no other binder can capture anything. -/
def Known.reaches (known : Known S) (b : S) : Bool := known.any fun (_, names) => names.contains b

/-! ### Capture -/

/-- The first of the names whose active replacement has `b` free. -/
def firstCapture (env : Env V S) (shadow : List S) (b : S) : List S → Known S → Known S × Option S
  | [], known => (known, none)
  | v :: rest, known =>
    match active? env shadow v with
    | none => firstCapture env shadow b rest known
    | some r =>
      let (known', names) := known.learn v r
      if b ∈ names then (known', some v) else firstCapture env shadow b rest known'

/-- A free variable of the body whose replacement the binder would capture. -/
def capture? (env : Env V S) (shadow : List S) (known : Known S) (b : S) (body : Term V S) : Known S × Option S :=
  if known.reaches b then firstCapture env shadow b body.freeVars known else (known, none)

/-- What a walk does about a capture of the variable `v` by the binder `b` of `body`. -/
abbrev OnCapture (V S : Type) :=
  State S → (b v : S) → (body : Term V S) →
    Except (Refusal S) (S × { inner : Term V S // inner.size = body.size } × State S)

/-- The rules of substitution: an active replacement stands for its name, and a binder of a replaced name suspends
    the replacement in its body. -/
def substituting (env : Env V S) (onCapture : OnCapture V S) (dup : Dup V := .sound) : Rules V S where
  leaf st s :=
    match active? env st.shadow s with
    | none => .ok (.var s)
    | some r =>
      match r.copy dup with
      | .ok e => .ok e
      | .error cause => .error ⟨cause, st.asked⟩
  enter st b body :=
    let suspended := if (active? env st.shadow b).isSome then some b else none
    let shadow := if (active? env st.shadow b).isSome then b :: st.shadow else st.shadow
    match capture? env shadow st.known b body with
    | (known, none) => .ok ⟨b, body, suspended, ⟨shadow, known, st.asked⟩, rfl⟩
    | (known, some v) =>
      match onCapture ⟨shadow, known, st.asked⟩ b v body with
      | .ok (b', inner, st') => .ok ⟨b', inner.1, suspended, st', inner.2⟩
      | .error r => .error r
  dup := dup

/-- Refuses every capture. -/
def refuse : OnCapture V S := fun st b v _ => .error ⟨.error (.capture b v), st.asked⟩

/-- The rules of substitution without renaming. -/
def plain (env : Env V S) (dup : Dup V := .sound) : Rules V S := substituting env refuse dup

/-! ### Renaming -/

/-- Copying a variable gives it back. -/
theorem copy_var (s : S) (dup : Dup V) : (Term.var s : Term V S).copy dup = .ok (.var s) := by
  simp [Term.copy, run, drain, advance, copying, Parser.put, Parser.result]

/-- Putting one variable in the place of another keeps the size. -/
theorem size_of_plain_var {b fresh : S} {dup : Dup V} {st st' : State S} {e e' : Term V S}
    (h : drain (plain [(b, .var fresh)] dup) [.visit e] st {} = .ok (e', st')) : e'.size = e.size := by
  have hleaf : ∀ (st : State S) s (t : Term V S), (plain [(b, .var fresh)] dup).leaf st s = .ok t → t.size = 1 := by
    intro st s t ht
    simp only [plain, substituting, active?, Env.find?] at ht
    split at ht
    · cases ht; rfl
    · rename_i r hr
      split at hr
      · cases hr
      · split at hr
        · cases hr
          rw [copy_var] at ht
          cases ht; rfl
        · cases hr
  rw [nodes_drain hleaf _ _ _ h]
  simp [nodes, agendaNodes, Term.totalSize, Task.nodes]

/-- Learns the free names of the active replacements of `names`, and collects them. -/
def learnActive (env : Env V S) (shadow : List S) : (names : List S) → Known S → Known S × List S
  | [], known => (known, [])
  | v :: rest, known =>
    match active? env shadow v with
    | none => learnActive env shadow rest known
    | some r =>
      let (known', found) := known.learn v r
      let (known'', more) := learnActive env shadow rest known'
      (known'', found ++ more)

/-- Renames the binder within its body, by the renamer's choice. Taken are the names of the scope, the free names of
    the replacements that the body receives, and the names with an active replacement. -/
def renameBinderBy (dup : Dup V) (env : Env V S) (rename : Renamer S) : OnCapture V S := fun st b _ body =>
  let (known, received) := learnActive env st.shadow body.freeVars st.known
  let taken := b :: body.symbols ++ received ++ env.names.filter (· ∉ st.shadow)
  let answer := rename b taken
  let asked := ⟨b, answer.tried.map fun s => (s, decide (s ∈ taken))⟩ :: st.asked
  match answer.chosen with
  | .error message => .error ⟨.panic message, asked⟩
  | .ok fresh =>
    match h : drain (plain [(b, .var fresh)] dup) [.visit body] ⟨[], Known.ofTerm [(b, .var fresh)] body, []⟩ {} with
    | .ok (inner, _) => .ok (fresh, ⟨inner, size_of_plain_var h⟩, ⟨st.shadow, known, asked⟩)
    | .error r => .error ⟨r.cause, asked⟩

/-- Renames the binder within a body whose constants can be copied. -/
abbrev renameBinder (env : Env V S) (rename : Renamer S) : OnCapture V S := renameBinderBy .sound env rename

/-- The rules of substitution, with a renamer or without. -/
def rulesFor (env : Env V S) (rename? : Option (Renamer S)) (dup : Dup V := .sound) : Rules V S :=
  match rename? with
  | none => plain env dup
  | some rename => substituting env (renameBinderBy dup env rename) dup

end Walk

variable {V S : Type} [DecidableEq S]

/-- The term with every free variable that the environment binds replaced by a copy of its term, all at once: what
    is inserted is not looked at again. -/
def Term.bind (e : Term V S) (env : Env V S) (rename? : Option (Renamer S)) (dup : Dup V := .sound) :
    Attempt S (Stop (TermError S)) (Term V S) :=
  Walk.run (Walk.rulesFor env rename? dup) ⟨[], Walk.Known.ofTerm env e, []⟩ e

/-- The term with every free occurrence of `s` replaced by a copy of `r`. -/
def Term.substitute (e : Term V S) (s : S) (r : Term V S) (rename? : Option (Renamer S)) (dup : Dup V := .sound) :
    Attempt S (Stop (TermError S)) (Term V S) :=
  e.bind [(s, r)] rename? dup

/-- A copy of the term that a name is bound to, or the name as a variable. -/
def Env.resolve (env : Env V S) (s : S) : Except (Stop (TermError S)) (Term V S) :=
  match env.find? s with
  | some e => e.copy
  | none => .ok (.var s)

end PostfixLambda
