import PostfixLambda.Proofs.Term.Names
import PostfixLambda.Proofs.Term.RoundTrip

/-! What a term is made of. A vocabulary says which constants a term may hold and which names its binders and its
    variables may have; the terms over it are those without a hole that keep to it. -/

namespace PostfixLambda

/-- A vocabulary: the constants, the names of binders and the names of variables that it allows. -/
structure Vocabulary (V S : Type) where
  const : V → Prop
  binder : S → Prop
  name : S → Prop

/-- The token is in the vocabulary. An identifier may come to be a binder as well as a variable. -/
def Vocabulary.Allows {V S : Type} (voc : Vocabulary V S) : Token V S → Prop
  | .ident s => voc.binder s ∧ voc.name s
  | .const v => voc.const v
  | .lambda | .apply | .unknown _ => True

namespace Term

variable {V S : Type} {voc : Vocabulary V S}

/-- The term is whole, and all that it is made of is in the vocabulary. -/
def Over (voc : Vocabulary V S) : Term V S → Prop
  | lam b body => voc.binder b ∧ body.Over voc
  | const v => voc.const v
  | var s => voc.name s
  | app fn arg => fn.Over voc ∧ arg.Over voc
  | hole => False

theorem Over.whole {e : Term V S} (h : e.Over voc) : e.Whole := by
  induction e with
  | lam b body ih => exact ih h.2
  | const v => exact whole_const
  | var s => exact whole_var
  | app fn arg ihfn iharg => exact ⟨ihfn h.1, iharg h.2⟩
  | hole => exact h

theorem Over.mono {voc' : Vocabulary V S} (hconst : ∀ v, voc.const v → voc'.const v)
    (hbinder : ∀ b, voc.binder b → voc'.binder b) (hname : ∀ s, voc.name s → voc'.name s) {e : Term V S}
    (h : e.Over voc) : e.Over voc' := by
  induction e with
  | lam b body ih => exact ⟨hbinder b h.1, ih h.2⟩
  | const v => exact hconst v h
  | var s => exact hname s h
  | app fn arg ihfn iharg => exact ⟨ihfn h.1, iharg h.2⟩
  | hole => exact h

/-! ### Binders -/

/-- The term has a binder of that name. -/
def Binds (b : S) : Term V S → Prop
  | lam b' body => b' = b ∨ body.Binds b
  | app fn arg => fn.Binds b ∨ arg.Binds b
  | const _ | var _ | hole => False

/-- Fewer names are allowed for binders, if those of the term are among them. -/
theorem Over.restrict {allowed : S → Prop} {e : Term V S} (h : e.Over voc) (hb : ∀ b, e.Binds b → allowed b) :
    e.Over { voc with binder := fun b => voc.binder b ∧ allowed b } := by
  induction e with
  | lam b body ih => exact ⟨⟨h.1, hb b (Or.inl rfl)⟩, ih h.2 fun b' hb' => hb b' (Or.inr hb')⟩
  | const v => exact h
  | var s => exact h
  | app fn arg ihfn iharg =>
    exact ⟨ihfn h.1 fun b hb' => hb b (Or.inl hb'), iharg h.2 fun b hb' => hb b (Or.inr hb')⟩
  | hole => exact h

/-! ### Names -/

/-- Where binders and variables may have the same names, the names that a term mentions are those. -/
theorem Over.of_mentions {const : V → Prop} {name : S → Prop} {e : Term V S} (h : e.Over ⟨const, name, name⟩) {s : S}
    (hs : e.Mentions s) : name s := by
  induction e with
  | lam b body ih =>
    rcases hs with rfl | hs
    · exact h.1
    · exact ih h.2 hs
  | app fn arg ihfn iharg => exact hs.elim (ihfn h.1) (iharg h.2)
  | var t =>
    cases hs
    exact h
  | const v => cases hs
  | hole => cases hs

theorem Over.of_all_mentions {const : V → Prop} {name allowed : S → Prop} {e : Term V S}
    (h : e.Over ⟨const, name, name⟩) (hall : ∀ s, e.Mentions s → allowed s) : e.Over ⟨const, allowed, allowed⟩ := by
  induction e with
  | lam b body ih => exact ⟨hall b (Or.inl rfl), ih h.2 fun s hs => hall s (Or.inr hs)⟩
  | app fn arg ihfn iharg => exact ⟨ihfn h.1 fun s hs => hall s (Or.inl hs), iharg h.2 fun s hs => hall s (Or.inr hs)⟩
  | var t => exact hall t rfl
  | const v => exact h
  | hole => exact h

/-! ### Tokens -/

theorem Over.of_tokens {e : Term V S} (he : e.Whole) (h : ∀ t ∈ e.tokens, voc.Allows t) : e.Over voc := by
  induction e with
  | lam b body ih =>
    simp only [tokens, List.forall_mem_cons, List.forall_mem_append] at h
    exact ⟨h.1.1, ih he h.2.1⟩
  | const v => exact h _ (List.mem_singleton.mpr rfl)
  | var s => exact (h _ (List.mem_singleton.mpr rfl)).2
  | app fn arg ihfn iharg =>
    simp only [tokens, List.forall_mem_append] at h
    exact ⟨ihfn he.1 h.1, iharg he.2 h.2.1⟩
  | hole => exact absurd he not_whole_hole

/-- Where binders and variables may have the same names, the tokens of a term are in the vocabulary. -/
theorem Over.allows {const : V → Prop} {name : S → Prop} {e : Term V S} (h : e.Over ⟨const, name, name⟩) :
    ∀ t ∈ e.tokens, Vocabulary.Allows ⟨const, name, name⟩ t := by
  induction e with
  | lam b body ih =>
    simp only [tokens, List.forall_mem_cons, List.forall_mem_append]
    exact ⟨⟨h.1, h.1⟩, ih h.2, trivial, by simp⟩
  | const v => exact List.forall_mem_singleton.mpr h
  | var s => exact List.forall_mem_singleton.mpr ⟨h, h⟩
  | app fn arg ihfn iharg =>
    simp only [tokens, List.forall_mem_cons, List.forall_mem_append]
    exact ⟨ihfn h.1, iharg h.2, trivial, by simp⟩
  | hole => exact absurd h id

theorem Over.of_parse {tokens : List (Token V S)} {e : Term V S} (h : parse tokens = .ok e)
    (hall : ∀ t ∈ tokens, voc.Allows t) : e.Over voc := by
  obtain ⟨hwhole, rfl⟩ := of_parse_eq_ok h
  exact .of_tokens hwhole hall

end Term

/-- A parser builds terms over a vocabulary from tokens of it, if every name of a variable may become that of a
    binder. -/
theorem Parser.over_push {V S : Type} {voc : Vocabulary V S} (hbinder : ∀ s, voc.name s → voc.binder s)
    {p p' : Parser V S} {t : Token V S} (hp : ∀ e ∈ p.operands, e.Over voc) (ht : voc.Allows t) (h : p.push t = .ok p') :
    ∀ e ∈ p'.operands, e.Over voc := by
  cases t with
  | const v =>
    cases h
    exact List.forall_mem_cons.mpr ⟨ht, hp⟩
  | ident s =>
    cases h
    exact List.forall_mem_cons.mpr ⟨ht.2, hp⟩
  | lambda =>
    obtain ⟨b, body, rest, hoperands, rfl⟩ := push_lambda_eq_ok_iff.mp h
    rw [hoperands, List.forall_mem_cons, List.forall_mem_cons] at hp
    exact List.forall_mem_cons.mpr ⟨⟨hbinder b hp.2.1, hp.1⟩, hp.2.2⟩
  | apply =>
    obtain ⟨fn, arg, rest, hoperands, rfl⟩ := push_apply_eq_ok_iff.mp h
    rw [hoperands, List.forall_mem_cons, List.forall_mem_cons] at hp
    exact List.forall_mem_cons.mpr ⟨⟨hp.2.1, hp.1⟩, hp.2.2⟩
  | unknown kind => cases h

end PostfixLambda
