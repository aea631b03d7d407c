import Mathlib.Data.List.Basic
import PostfixLambda.Proofs.Stream.Leaves

/-! The tee: an output that writes to several outlets, each with a sink of its own. However they are grouped, they come
    to the same target as side by side. What is written reaches all of them, in order and once, and none of them can tell
    that there are others: a call does to each leaf what it would do to the leaf alone, up to the first one that fails a
    write. -/

namespace PostfixLambda

/-! ### The leaves of a tee -/

namespace Tee

mutual

/-- The places of the outlets of a tee, from left to right. -/
def leaves : Tee → List Nat
  | .none => []
  | .outlet i => [i]
  | .group members => leavesOf members

def leavesOf : List Tee → List Nat
  | [] => []
  | first :: rest => first.leaves ++ leavesOf rest

end

end Tee

namespace Target

/-- The target that outlets come to side by side: nothing, the one outlet, or all of them. -/
def ofPlaces? : List Nat → Option Target
  | [] => none
  | [i] => some (.outlet i)
  | i :: j :: rest => some (.several ((i :: j :: rest).map .outlet))

theorem membersOf_cons (places : List Nat) (rest : List (Option Target)) :
    membersOf (ofPlaces? places :: rest) = places.map .outlet ++ membersOf rest := by
  match places with
  | [] | [i] | i :: j :: more => rfl

theorem ofList?_of_membersOf {given : List (Option Target)} {places : List Nat}
    (h : membersOf given = places.map .outlet) : ofList? given = ofPlaces? places := by
  rw [ofList?, h]
  match places with
  | [] | [i] | i :: j :: more => rfl

end Target

namespace Tee

mutual

/-- A tee comes to what its leaves come to side by side. -/
theorem target?_eq : (tee : Tee) → tee.target? = Target.ofPlaces? tee.leaves
  | .none => rfl
  | .outlet _ => rfl
  | .group members => Target.ofList?_of_membersOf (membersOf_targets members)

theorem membersOf_targets : (members : List Tee) → Target.membersOf (targets members) = (leavesOf members).map .outlet
  | [] => rfl
  | first :: rest => by
    rw [targets, target?_eq first, Target.membersOf_cons, membersOf_targets rest, leavesOf, List.map_append]

end

end Tee

namespace Output

/-! ### One leaf among the others -/

/-- The outlet at a place with its sink. -/
def leaf? (out : Output) (i : Nat) : Option Leaf :=
  out.outlets[i]?.bind fun (o : Outlet) => out.sinks[o.sink]?.map fun s => ⟨o.buffering, s⟩

/-- Each outlet leads to the sink at its own place, and so no two of them to the same one. -/
def Straight (out : Output) : Prop := ∀ (i : Nat) (o : Outlet), out.outlets[i]? = some o → o.sink = i

/-- What calls keep. -/
structure Kept (out out' : Output) : Prop where
  straight : out'.Straight
  root : out'.root = out.root

theorem Kept.trans {out out' out'' : Output} (h : Kept out out') (h' : Kept out' out'') : Kept out out'' :=
  ⟨h'.straight, h'.root.trans h.root⟩

/-- What `out'` has at a place is new, and all else is as it was in `out`. -/
structure Changed (out : Output) (i : Nat) (l : Leaf) (out' : Output) : Prop extends Kept out out' where
  here : out'.leaf? i = some l
  elsewhere : ∀ j, j ≠ i → out'.leaf? j = out.leaf? j

theorem changed_onOutlet {α : Type} {out : Output} {i : Nat} {l : Leaf} (h : out.Straight) (hl : out.leaf? i = some l)
    (nothing : α) (f : Buffering → Sink → Buffering × Sink × α) :
    ∃ out' b s a, out.onOutlet i nothing f = (out', a) ∧ f l.buffering l.sink = (b, s, a) ∧
      Changed out i ⟨b, s⟩ out' := by
  obtain ⟨o, ho, hsink⟩ := Option.bind_eq_some_iff.mp hl
  obtain ⟨s, hs, rfl⟩ := Option.map_eq_some_iff.mp hsink
  have hplace := h i o ho
  rw [hplace] at hs
  have hi : i < out.outlets.length := (List.getElem?_eq_some_iff.mp ho).1
  have hi' : i < out.sinks.length := (List.getElem?_eq_some_iff.mp hs).1
  rcases hf : f o.buffering s with ⟨b, s', a⟩
  refine ⟨⟨out.sinks.set i s', out.outlets.set i ⟨i, b⟩, out.root⟩, b, s', a, ?_, rfl, ⟨fun j o' ho' => ?_, rfl⟩,
    ?_, fun j hj => ?_⟩
  · simp only [onOutlet, ho, hplace, hs, hf]
  · rw [List.getElem?_set] at ho'
    split at ho'
    · rename_i hij
      cases ho'
      exact hij
    · exact h j o' ho'
  · simp [leaf?, hi, hi']
  · have hother : i ≠ j := fun hij => hj hij.symm
    simp only [leaf?, List.getElem?_set_ne hother]
    refine Option.bind_congr fun o' ho' => ?_
    rw [h j o' ho', List.getElem?_set_ne hother]

theorem changed_writeAt {out : Output} {i : Nat} {l : Leaf} (h : out.Straight) (hl : out.leaf? i = some l) (p : Bytes) :
    ∃ out' l' w, out.writeAt i p = (out', w) ∧ l.write p = (l', w) ∧ Changed out i l' out' := by
  obtain ⟨out', b, s, w, hout, hleaf, hchanged⟩ := changed_onOutlet h hl (⟨0, none⟩ : Written) fun b s => b.write s p
  exact ⟨out', ⟨b, s⟩, w, hout, by simp only [Leaf.write, hleaf], hchanged⟩

theorem changed_flushAt {out : Output} {i : Nat} {l : Leaf} (h : out.Straight) (hl : out.leaf? i = some l) :
    ∃ out' l' error?, out.flushAt i = (out', error?) ∧ l.flush = (l', error?) ∧ Changed out i l' out' := by
  obtain ⟨out', b, s, error?, hout, hleaf, hchanged⟩ := changed_onOutlet h hl none Buffering.flush
  exact ⟨out', ⟨b, s⟩, error?, hout, by simp only [Leaf.flush, hleaf], hchanged⟩

/-! ### Writing to all leaves -/

/-- The leaf at a place took a write whole; a sink that keeps what is written to it has all of it, or holds it back. -/
def Took (p : Bytes) (out out' : Output) (i : Nat) : Prop :=
  ∃ l l', out.leaf? i = some l ∧ l.write p = (l', ⟨p.length, none⟩) ∧ out'.leaf? i = some l' ∧
    (l.sink.Keeps → l'.sink.Keeps ∧ l'.passed = l.passed ++ p)

theorem took_of_write {p : Bytes} {out out' : Output} {i : Nat} {l l' : Leaf} (hl : out.leaf? i = some l)
    (hw : l.write p = (l', ⟨p.length, none⟩)) (hl' : out'.leaf? i = some l') : Took p out out' i := by
  refine ⟨l, l', hl, hw, hl', fun h => ?_⟩
  obtain ⟨hpassed, hkeeps⟩ := Leaf.write_keeps h hw
  exact ⟨hkeeps, by rw [hpassed, List.take_length]⟩

/-- How a write to the leaves at some places ends: all of them take it whole, or all before one that does not; those
    behind that one, and all others, are as they were. -/
inductive WriteEnds (p : Bytes) (out : Output) (places : List Nat) : Output × Written → Prop where
  | whole {out' : Output} (hkept : Kept out out') (htook : ∀ i ∈ places, Took p out out' i)
      (hothers : ∀ j, j ∉ places → out'.leaf? j = out.leaf? j) : WriteEnds p out places (out', ⟨p.length, none⟩)
  | stopped {out' : Output} {w : Written} {before after : List Nat} {i : Nat} {l l' : Leaf} {w' : Written}
      (hkept : Kept out out') (hplaces : places = before ++ i :: after) (htook : ∀ j ∈ before, Took p out out' j)
      (hl : out.leaf? i = some l) (hw : l.write p = (l', w')) (hfailed : w' ≠ ⟨p.length, none⟩)
      (hl' : out'.leaf? i = some l') (hothers : ∀ j, j ∉ before → j ≠ i → out'.leaf? j = out.leaf? j)
      (hanswer : w ≠ ⟨p.length, none⟩) : WriteEnds p out places (out', w)

section

variable {p : Bytes} {out : Output} {places : List Nat} {answer : Output × Written}

theorem WriteEnds.kept (h : WriteEnds p out places answer) : Kept out answer.1 := by
  cases h with
  | whole hkept => exact hkept
  | stopped hkept => exact hkept

theorem WriteEnds.took (h : WriteEnds p out places answer) (hwhole : answer.2 = ⟨p.length, none⟩) :
    ∀ i ∈ places, Took p out answer.1 i := by
  cases h with
  | whole hkept htook => exact htook
  | stopped hkept hplaces htook hl hw hfailed hl' hothers hanswer => exact absurd hwhole hanswer

theorem WriteEnds.there (h : WriteEnds p out places answer) (hthere : ∀ i ∈ places, ∃ l, out.leaf? i = some l) :
    ∀ i ∈ places, ∃ l, answer.1.leaf? i = some l := by
  intro i hi
  cases h with
  | whole hkept htook =>
    obtain ⟨l, l', -, -, hl', -⟩ := htook i hi
    exact ⟨l', hl'⟩
  | @stopped out' w before after k m m' w' hkept hplaces htook hm hw hfailed hm' hothers =>
    by_cases hbefore : i ∈ before
    · obtain ⟨l, l', -, -, hl', -⟩ := htook i hbefore
      exact ⟨l', hl'⟩
    · by_cases hik : i = k
      · exact ⟨m', hik ▸ hm'⟩
      · rw [hothers i hbefore hik]
        exact hthere i hi

/-- A write that is not answered as whole stopped at a leaf. -/
theorem WriteEnds.stop (h : WriteEnds p out places answer) (hdistinct : places.Nodup)
    (hfails : answer.2 ≠ ⟨p.length, none⟩) :
    ∃ before i after l l' w, places = before ++ i :: after ∧
      out.leaf? i = some l ∧ l.write p = (l', w) ∧ w ≠ ⟨p.length, none⟩ ∧
      (∀ j ∈ before, Took p out answer.1 j) ∧ (∀ j ∈ after, answer.1.leaf? j = out.leaf? j) := by
  cases h with
  | whole => exact absurd rfl hfails
  | @stopped out' w before after i l l' w' hkept hplaces htook hl hw hfailed hl' hothers hanswer =>
    rw [hplaces, List.nodup_append] at hdistinct
    obtain ⟨-, hrest, hapart⟩ := hdistinct
    refine ⟨before, i, after, l, l', w', hplaces, hl, hw, hfailed, htook, fun j hj => ?_⟩
    -- The places behind the one that failed are neither that one nor any in front of it.
    refine hothers j (fun hbefore => ?_) fun hji => ?_
    · exact hapart j hbefore j (List.mem_cons_of_mem _ hj) rfl
    · exact (List.nodup_cons.mp hrest).1 (hji ▸ hj)

end

/-- The leaf in front takes a write whole, and the others go on. -/
theorem WriteEnds.cons {p : Bytes} {out out' : Output} {i : Nat} {rest : List Nat} {l l' : Leaf}
    {answer : Output × Written} (hl : out.leaf? i = some l) (hw : l.write p = (l', ⟨p.length, none⟩))
    (hchanged : Changed out i l' out') (hi : i ∉ rest) (h : WriteEnds p out' rest answer) : WriteEnds p out (i :: rest) answer := by
  have hearlier : ∀ {last j}, j ∈ rest → Took p out' last j → Took p out last j := by
    rintro last j hj ⟨k, k', hk, htook⟩
    have hji : j ≠ i := fun hji => hi (hji ▸ hj)
    exact ⟨k, k', (hchanged.elsewhere j hji).symm.trans hk, htook⟩
  cases h with
  | @whole last hkept htook hothers =>
    have hfront : Took p out last i := took_of_write hl hw ((hothers i hi).trans hchanged.here)
    refine .whole (hchanged.toKept.trans hkept) ?_ fun j hj => ?_
    · exact List.forall_mem_cons.mpr ⟨hfront, fun j hj => hearlier hj (htook j hj)⟩
    · rw [List.mem_cons, not_or] at hj
      rw [hothers j hj.2, hchanged.elsewhere j hj.1]
  | @stopped last w before after k m m' w' hkept hplaces htook hm hw' hfailed hm' hothers hanswer =>
    subst hplaces
    rw [List.mem_append, List.mem_cons, not_or, not_or] at hi
    have hfront : Took p out last i := took_of_write hl hw ((hothers i hi.1 hi.2.1).trans hchanged.here)
    refine .stopped (hchanged.toKept.trans hkept) (List.cons_append ..).symm ?_ ?_ hw' hfailed hm' (fun j hj hjk => ?_)
      hanswer
    · exact List.forall_mem_cons.mpr ⟨hfront, fun j hj => hearlier (List.mem_append_left _ hj) (htook j hj)⟩
    · rw [← hm, hchanged.elsewhere k fun hki => hi.2.1 hki.symm]
    · rw [List.mem_cons, not_or] at hj
      rw [hothers j hj.2 hjk, hchanged.elsewhere j hj.1]

theorem writeEnds_writeEach {p : Bytes} {out : Output} {places : List Nat} (h : out.Straight)
    (hthere : ∀ i ∈ places, ∃ l, out.leaf? i = some l) (hdistinct : places.Nodup) :
    WriteEnds p out places (out.writeEach p (places.map .outlet)) := by
  induction places generalizing out with
  | nil => exact .whole ⟨h, rfl⟩ (by simp) fun j _ => rfl
  | cons i rest ih =>
    rw [List.forall_mem_cons] at hthere
    obtain ⟨⟨l, hl⟩, hrest⟩ := hthere
    rw [List.nodup_cons] at hdistinct
    obtain ⟨out', l', w, hout, hw, hchanged⟩ := changed_writeAt h hl p
    -- Where the leaf fails, or falls short, the write stops at it.
    have hstopped : ∀ {answer : Written}, w ≠ ⟨p.length, none⟩ → answer ≠ ⟨p.length, none⟩ →
        WriteEnds p out (i :: rest) (out', answer) := fun hfailed hanswer =>
      .stopped hchanged.toKept (List.nil_append _).symm (by simp) hl hw hfailed hchanged.here
        (fun j _ hj => hchanged.elsewhere j hj) hanswer
    obtain ⟨n, error?⟩ := w
    rw [List.map_cons, writeEach, writeTo, hout]
    cases error? with
    | some e => exact hstopped (by simp) (by simp)
    | none =>
      by_cases hn : n = p.length
      · subst hn
        have hthere' : ∀ j ∈ rest, ∃ k, out'.leaf? j = some k := by
          intro j hj
          rw [hchanged.elsewhere j fun hji => hdistinct.1 (hji ▸ hj)]
          exact hrest j hj
        simp only [ne_eq, not_true_eq_false, if_false]
        exact .cons hl hw hchanged hdistinct.1 (ih hchanged.straight hthere' hdistinct.2)
      · simp only [ne_eq, hn, not_false_eq_true, if_true]
        exact hstopped (by simp [hn]) (by simp)

/-- A single outlet answers for itself, but it is written to all the same. -/
theorem writeEnds_writeTo {out : Output} {places : List Nat} {root : Target} (h : out.Straight)
    (hroot : Target.ofPlaces? places = some root) (hthere : ∀ i ∈ places, ∃ l, out.leaf? i = some l)
    (hdistinct : places.Nodup) (p : Bytes) : WriteEnds p out places (out.writeTo p root) := by
  match places with
  | [] => cases hroot
  | [i] =>
    cases hroot
    obtain ⟨l, hl⟩ := hthere i (List.mem_singleton_self i)
    obtain ⟨out', l', w, hout, hw, hchanged⟩ := changed_writeAt h hl p
    rw [writeTo, hout]
    by_cases hwhole : w = ⟨p.length, none⟩
    · subst hwhole
      refine .whole hchanged.toKept (List.forall_mem_singleton.mpr (took_of_write hl hw hchanged.here)) fun j hj => ?_
      exact hchanged.elsewhere j fun hji => hj (List.mem_singleton.mpr hji)
    · exact .stopped hchanged.toKept (List.nil_append _).symm (by simp) hl hw hwhole hchanged.here
        (fun j _ hj => hchanged.elsewhere j hj) hwhole
  | i :: j :: rest =>
    cases hroot
    rw [writeTo]
    exact writeEnds_writeEach h hthere hdistinct

/-! ### Flushing all leaves -/

/-- The leaf at a place was flushed once: nothing is lost, and without an error nothing is held back any more. -/
def Flushed (out out' : Output) (i : Nat) : Prop :=
  ∃ l l' error?, out.leaf? i = some l ∧ l.flush = (l', error?) ∧ out'.leaf? i = some l' ∧
    (l.sink.Keeps → l'.sink.Keeps ∧ l'.passed = l.passed ∧ (error? = none → l'.buffering.held = []))

/-- The error that flushing the leaf at a place comes to. -/
def flushError? (out : Output) (i : Nat) : Option WriteError := (out.leaf? i).bind fun l => l.flush.2

/-- What flushing the leaves at some places comes to. -/
structure FlushEnds (out : Output) (places : List Nat) (first? : Option WriteError)
    (answer : Output × Option WriteError) : Prop where
  kept : Kept out answer.1
  flushed : ∀ i ∈ places, Flushed out answer.1 i
  others : ∀ j, j ∉ places → answer.1.leaf? j = out.leaf? j
  error : answer.2 = (first? <|> places.findSome? out.flushError?)
  inOrder : answer.1 = places.foldl (fun out i => (out.flushAt i).1) out

theorem flushEnds_flushEach {out : Output} {places : List Nat} {first? : Option WriteError} (h : out.Straight)
    (hthere : ∀ i ∈ places, ∃ l, out.leaf? i = some l) (hdistinct : places.Nodup) :
    FlushEnds out places first? (out.flushEach first? (places.map .outlet)) := by
  induction places generalizing out first? with
  | nil => exact ⟨⟨h, rfl⟩, by simp, fun j _ => rfl, by simp [flushEach], rfl⟩
  | cons i rest ih =>
    rw [List.forall_mem_cons] at hthere
    obtain ⟨⟨l, hl⟩, hrest⟩ := hthere
    rw [List.nodup_cons] at hdistinct
    obtain ⟨out', l', error?, hout, hflush, hchanged⟩ := changed_flushAt h hl
    have hother : ∀ j ∈ rest, out'.leaf? j = out.leaf? j := fun j hj =>
      hchanged.elsewhere j fun hji => hdistinct.1 (hji ▸ hj)
    have hthere' : ∀ j ∈ rest, ∃ k, out'.leaf? j = some k := by
      intro j hj
      rw [hother j hj]
      exact hrest j hj
    have hends := @ih out' (first? <|> error?) hchanged.straight hthere' hdistinct.2
    rw [List.map_cons, flushEach, flushTo, hout]
    refine ⟨hchanged.toKept.trans hends.kept, ?_, fun j hj => ?_, ?_, ?_⟩
    · rw [List.forall_mem_cons]
      refine ⟨⟨l, l', error?, hl, hflush, ?_, fun hkeeps => ?_⟩, fun j hj => ?_⟩
      · exact (hends.others i hdistinct.1).trans hchanged.here
      · obtain ⟨hpassed, hkeeps', hempty⟩ := Leaf.flush_keeps hkeeps hflush
        exact ⟨hkeeps', hpassed, hempty⟩
      · obtain ⟨k, k', e?, hk, hflushed⟩ := hends.flushed j hj
        exact ⟨k, k', e?, (hother j hj).symm.trans hk, hflushed⟩
    · rw [List.mem_cons, not_or] at hj
      rw [hends.others j hj.2, hchanged.elsewhere j hj.1]
    · have hfirst : out.flushError? i = error? := by rw [flushError?, hl, Option.bind_some, hflush]
      -- Flushing one leaf changes no other, so the others come to the same errors as before.
      have hlater : rest.findSome? out'.flushError? = rest.findSome? out.flushError? := by
        rw [← List.head?_filterMap, ← List.head?_filterMap]
        refine congrArg List.head? (List.filterMap_congr fun j hj => ?_)
        simp only [flushError?, hother j hj]
      rw [hends.error, hlater, List.findSome?_cons, hfirst]
      cases first? <;> cases error? <;> rfl
    · rw [hends.inOrder, List.foldl_cons, hout]

theorem flushEnds_flushTo {out : Output} {places : List Nat} {root : Target} (h : out.Straight)
    (hroot : Target.ofPlaces? places = some root) (hthere : ∀ i ∈ places, ∃ l, out.leaf? i = some l)
    (hdistinct : places.Nodup) : FlushEnds out places none (out.flushTo root) := by
  have hends := @flushEnds_flushEach out places none h hthere hdistinct
  match places with
  | [] => cases hroot
  | [i] =>
    -- Flushing one outlet by itself is flushing all of a list of one.
    cases hroot
    exact hends
  | i :: j :: rest =>
    cases hroot
    rw [flushTo]
    exact hends

/-! ### Calls -/

/-- A call on an output. -/
inductive Call where
  | write (p : Bytes)
  | flush
  deriving DecidableEq, Repr

/-- What a call brings. -/
def Call.payload : Call → Bytes
  | write p => p
  | flush => []

/-- Makes a call, and says whether it succeeds: whether a write takes everything without an error, or a flush has no
    error. -/
def call (out : Output) : Call → Output × Bool
  | .write p => let (out', w) := out.write p; (out', w = ⟨p.length, none⟩)
  | .flush => let (out', error?) := out.flush; (out', error?.isNone)

/-- Makes the calls in order, whatever they answer, and says whether all succeed. -/
def callAll (out : Output) : List Call → Output × Bool
  | [] => (out, true)
  | c :: rest =>
    let (out', succeeds) := out.call c
    let (out'', succeed) := out'.callAll rest
    (out'', succeeds && succeed)

/-- The output writes to the leaves at some places, which are there, to each of them once. -/
structure Ready (out : Output) (places : List Nat) : Prop where
  straight : out.Straight
  root : Target.ofPlaces? places = some out.root
  there : ∀ i ∈ places, ∃ l, out.leaf? i = some l
  distinct : places.Nodup

/-- The leaf at a place has taken what a call brings, if its sink keeps what is written to it. -/
def Passes (p : Bytes) (out out' : Output) (i : Nat) : Prop :=
  ∀ l, out.leaf? i = some l → l.sink.Keeps →
    ∃ l', out'.leaf? i = some l' ∧ l'.sink.Keeps ∧ l'.passed = l.passed ++ p

theorem Took.passes {p : Bytes} {out out' : Output} {i : Nat} (h : Took p out out' i) : Passes p out out' i := by
  obtain ⟨l, l', hl, -, hl', hpassed⟩ := h
  intro k hk hkeeps
  cases hl.symm.trans hk
  exact ⟨l', hl', hpassed hkeeps⟩

theorem Flushed.passes {out out' : Output} {i : Nat} (h : Flushed out out' i) : Passes [] out out' i := by
  obtain ⟨l, l', error?, hl, -, hl', hpassed⟩ := h
  intro k hk hkeeps
  cases hl.symm.trans hk
  obtain ⟨hkeeps', hsame, -⟩ := hpassed hkeeps
  exact ⟨l', hl', hkeeps', by rw [hsame, List.append_nil]⟩

section

variable {out : Output} {places : List Nat}

theorem Ready.writeEnds (h : out.Ready places) (p : Bytes) : WriteEnds p out places (out.write p) :=
  writeEnds_writeTo h.straight h.root h.there h.distinct p

theorem Ready.flushEnds (h : out.Ready places) : FlushEnds out places none out.flush :=
  flushEnds_flushTo h.straight h.root h.there h.distinct

theorem Ready.of_kept {out' : Output} (h : out.Ready places) (hkept : Kept out out')
    (hthere : ∀ i ∈ places, ∃ l, out'.leaf? i = some l) : out'.Ready places where
  straight := hkept.straight
  root := hkept.root ▸ h.root
  there := hthere
  distinct := h.distinct

theorem Ready.write (h : out.Ready places) (p : Bytes) : (out.write p).1.Ready places :=
  h.of_kept (h.writeEnds p).kept ((h.writeEnds p).there h.there)

theorem Ready.flush (h : out.Ready places) : out.flush.1.Ready places := by
  refine h.of_kept h.flushEnds.kept fun i hi => ?_
  obtain ⟨l, l', error?, -, -, hl', -⟩ := h.flushEnds.flushed i hi
  exact ⟨l', hl'⟩

theorem Ready.call (h : out.Ready places) (c : Call) :
    (out.call c).1.Ready places ∧
      ((out.call c).2 = true → ∀ i ∈ places, Passes c.payload out (out.call c).1 i) := by
  cases c with
  | write p =>
    refine ⟨h.write p, fun hsucceeds i hi => ?_⟩
    exact ((h.writeEnds p).took (of_decide_eq_true hsucceeds) i hi).passes
  | flush => exact ⟨h.flush, fun _ i hi => (h.flushEnds.flushed i hi).passes⟩

theorem Ready.callAll (h : out.Ready places) (calls : List Call) :
    (out.callAll calls).1.Ready places ∧
      ((out.callAll calls).2 = true →
        ∀ i ∈ places, Passes (calls.flatMap Call.payload) out (out.callAll calls).1 i) := by
  induction calls generalizing out with
  | nil => exact ⟨h, fun _ i _ l hl hkeeps => ⟨l, hl, hkeeps, by simp⟩⟩
  | cons c rest ih =>
    obtain ⟨hready, hpasses⟩ := h.call c
    obtain ⟨hready', hpasses'⟩ := ih hready
    -- What the first call brings stands before what the others bring.
    refine ⟨hready', fun hsucceed i hi l hl hkeeps => ?_⟩
    rw [Output.callAll, Bool.and_eq_true] at hsucceed
    obtain ⟨k, hk, hkeeps', hpassed⟩ := hpasses hsucceed.1 i hi l hl hkeeps
    obtain ⟨l', hl', hkeeps'', hpassed'⟩ := hpasses' hsucceed.2 i hi k hk hkeeps'
    refine ⟨l', hl', hkeeps'', ?_⟩
    rw [hpassed', hpassed, List.flatMap_cons, List.append_assoc]

end

/-! ### The tee -/

/-- If a flush has no error, no leaf has one. -/
theorem FlushEnds.empty {out : Output} {places : List Nat} {answer : Output × Option WriteError}
    (h : FlushEnds out places none answer) (hsucceeds : answer.2 = none) {i : Nat} (hi : i ∈ places) {l l' : Leaf}
    (hl : out.leaf? i = some l) (hl' : answer.1.leaf? i = some l') (hkeeps : l.sink.Keeps) :
    l'.buffering.held = [] := by
  obtain ⟨k, k', error?, hk, hflush, hk', hpassed⟩ := h.flushed i hi
  cases hk.symm.trans hl
  cases hk'.symm.trans hl'
  obtain ⟨-, -, hempty⟩ := hpassed hkeeps
  have hnone : out.flushError? i = none := by
    have hfirst : places.findSome? out.flushError? = none := h.error.symm.trans hsucceeds
    exact List.findSome?_eq_none_iff.mp hfirst i hi
  rw [flushError?, hk, Option.bind_some, hflush] at hnone
  exact hempty hnone

end Output

end PostfixLambda
