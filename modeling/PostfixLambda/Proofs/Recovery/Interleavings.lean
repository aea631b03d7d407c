import Mathlib.Logic.Relation
import PostfixLambda.Recovery.Threads

/-! Recovery gives the same error however its threads take turns. At every moment each recovery fits the one within its
    function (`Chain`): nothing is sent before the function has ended; then the first error sent is the error to give,
    later offers find the box full or come after the error was received, and the box is closed last. So every thread can
    go on until all are over, no thread panics to its end or waits to send, and only the error to give is received. -/

namespace PostfixLambda

/-! ### Courses -/

theorem Course.run_inContext (context : Bytes) (f : Course) :
    (f.inContext context).run = f.run.inContext context := by
  cases f <;> rfl

/-- The course of a behaviour ends as the behaviour does. -/
theorem Behaviour.run_course (b : Behaviour) : b.course.run = b.run := by
  induction b with
  | nest name inner ih => simp only [course, Course.run, ih, run]
  | wrap context inner ih =>
    rw [course, Course.run_inContext, ih]
    simp only [run]
    cases inner.run <;> rfl
  | repanic name inner ih =>
    simp only [course, Course.run, ih, run]
    cases recover name inner.run <;> rfl
  | succeed | fail | panic | panicWith | breakDown | exit => rfl

/-- The number of functions under recovery that a function runs, one within another. -/
def Course.depth : Course → Nat
  | ends _ => 0
  | calls _ inner _ => inner.depth + 1

namespace Recovery

/-! ### What a thread keeps -/

/-- What is recovered, under which name. -/
def task (r : Recovery) : Bytes × Course := (r.name, r.function)

/-- The error that the recovery is to give. -/
def result (r : Recovery) : Option (Fault Bytes) := recover r.name r.function.run

/-- Nothing was sent yet. -/
def Pending (r : Recovery) : Prop := r.box = {} ∧ r.received? = none

/-- The error to give was sent: it is in the box, or it was received. -/
def Delivered (r : Recovery) : Prop :=
  r.box.content = some r.result ∧ r.received? = none ∨ r.received? = some r.result

/-- What holds of a thread that leaves without panicking: only after an exit is nothing sent, until the report of it,
    and nothing but the last call closes the box. -/
structure Leaves (r : Recovery) (deferred : List Deferred) : Prop where
  order : deferred <:+ Deferred.all
  isOpen : .closeBox ∈ deferred → r.box.closed = false
  sent : r.Delivered ∨ r.Pending ∧ r.function.run = .exited ∧ .reportExit ∈ deferred

/-- What holds of a recovery at every moment, given the error that the recovery within its function, if there is one,
    is to give. -/
def Fits (r : Recovery) (inner? : Option (Option (Fault Bytes))) : Prop :=
  match r.control with
  | .start => r.Pending ∧ inner? = none
  | .waiting resume => r.Pending ∧ ∃ error?, inner? = some error? ∧ r.function.run = resume error?
  | .sending error? => r.Pending ∧ r.function.run = .returned error?
  | .leaving (some panic) deferred => r.Pending ∧ deferred = Deferred.all ∧ r.result = some (panic.fault r.name)
  | .leaving none deferred => r.Leaves deferred
  | .ended => r.Delivered
  | .crashed => False

theorem fits_after {r : Recovery} {inner? : Option (Option (Fault Bytes))} (h : r.Pending) {ending : Ending Bytes}
    (hrun : r.function.run = ending) : Fits { r with control := .after ending } inner? := by
  cases ending with
  | returned error? => exact ⟨h, hrun⟩
  | panicked value => exact ⟨h, rfl, by simp only [result, hrun]; rfl⟩
  | panickedWith error => exact ⟨h, rfl, by simp only [result, hrun]; rfl⟩
  | exited => exact ⟨List.suffix_rfl, fun _ => congrArg Box.closed h.1, Or.inr ⟨h, hrun, by decide⟩⟩

/-- An offer does not take the place of an error in the box, and comes too late once it was received. -/
theorem Delivered.offer {r : Recovery} (h : r.Delivered) (hopen : r.box.closed = false)
    (error? : Option (Fault Bytes)) :
    ∃ box, r.box.offer error? = .ok box ∧ box.closed = false ∧ Delivered { r with box } := by
  cases hcontent : r.box.content with
  | some content => exact ⟨r.box, by simp [Box.offer, Box.send?, hopen, hcontent], hopen, h⟩
  | none =>
    refine ⟨{ r.box with content := some error? }, by simp [Box.offer, Box.send?, hopen, hcontent], hopen, ?_⟩
    rcases h with ⟨hbox, -⟩ | hreceived
    · rw [hcontent] at hbox
      cases hbox
    · exact Or.inr hreceived

/-! ### Threads -/

theorem advance?_task {r r' : Recovery} (h : r.advance? = some r') : r'.task = r.task := by
  unfold advance? at h
  split at h
  case h_1 => split at h <;> cases h; rfl
  case h_2 => split at h <;> cases h <;> rfl
  case h_3 => split at h <;> cases h <;> rfl
  all_goals cases h <;> rfl

theorem advance?_leaving {r : Recovery} {panic? panic?' : Option Panic} {call : Deferred} {deferred : List Deferred}
    {box : Box} (hcontrol : r.control = .leaving panic? (call :: deferred))
    (hrun : call.run r.name panic? r.box = .ok (panic?', box)) :
    r.advance? = some { r with control := .leaving panic?' deferred, box } := by
  simp only [advance?, hcontrol, hrun]

/-- A thread that leaves without panicking goes on until it is over, and the error is delivered before the box is
    closed. -/
theorem Leaves.advance {r : Recovery} {deferred : List Deferred} (hcontrol : r.control = .leaving none deferred)
    (h : r.Leaves deferred) (inner? : Option (Option (Fault Bytes))) : ∃ r', r.advance? = some r' ∧ r'.Fits inner? := by
  obtain ⟨horder, hopen, hsent⟩ := h
  have hstages : deferred = Deferred.all ∨ deferred = [.reportExit, .closeBox] ∨ deferred = [.closeBox] ∨
      deferred = [] := by
    simpa only [Deferred.all, List.suffix_cons_iff, List.suffix_nil] using horder
  rcases hstages with rfl | rfl | rfl | rfl
  · exact ⟨_, advance?_leaving hcontrol rfl, by decide, fun _ => hopen (by decide),
      hsent.imp_right fun h => ⟨h.1, h.2.1, by decide⟩⟩
  · rcases hsent with hdelivered | ⟨⟨hbox, hreceived⟩, hexited, -⟩
    · obtain ⟨box, hoffer, hopen', hdelivered'⟩ := hdelivered.offer (hopen (by decide)) (some (.exited r.name))
      have hrun : Deferred.run r.name none r.box .reportExit = .ok (none, box) := by
        simp only [Deferred.run, hoffer, Except.map]
      exact ⟨_, advance?_leaving hcontrol hrun, by decide, fun _ => hopen', Or.inl hdelivered'⟩
    · have hrun : Deferred.run r.name none r.box .reportExit = .ok (none, ⟨some (some (.exited r.name)), false⟩) := by
        rw [hbox]
        rfl
      refine ⟨_, advance?_leaving hcontrol hrun, by decide, fun _ => rfl, Or.inl (Or.inl ⟨?_, hreceived⟩)⟩
      simp only [result, hexited, recover]
  · have hdelivered : r.Delivered := hsent.resolve_right fun h => absurd h.2.2 (by decide)
    have hrun : Deferred.run r.name none r.box .closeBox = .ok (none, { r.box with closed := true }) := by
      simp only [Deferred.run, Box.close, hopen (by decide)]
      rfl
    exact ⟨_, advance?_leaving hcontrol hrun, by decide, fun h => absurd h (by decide), Or.inl hdelivered⟩
  · have hdelivered : r.Delivered := hsent.resolve_right fun h => absurd h.2.2 (by decide)
    exact ⟨{ r with control := .ended }, by simp only [advance?, hcontrol], hdelivered⟩

/-- Every thread can go on by itself unless it is over, or calls or waits for another one. -/
theorem Fits.advance {r : Recovery} {inner? : Option (Option (Fault Bytes))} (h : r.Fits inner?) :
    (∃ r', r.advance? = some r' ∧ r'.Fits inner?) ∨ r.advance? = none ∧
      (r.control = .start ∧ (∃ name inner resume, r.function = .calls name inner resume) ∨
        (∃ resume, r.control = .waiting resume) ∨ r.control = .ended) := by
  cases hcontrol : r.control with
  | start =>
    simp only [Fits, hcontrol] at h
    cases hcourse : r.function with
    | ends ending =>
      refine Or.inl ⟨{ r with control := .after ending }, by simp only [advance?, hcontrol, hcourse], fits_after h.1 ?_⟩
      rw [hcourse, Course.run]
    | calls name inner resume =>
      exact Or.inr ⟨by simp only [advance?, hcontrol, hcourse], Or.inl ⟨rfl, name, inner, resume, rfl⟩⟩
  | waiting resume => exact Or.inr ⟨by simp only [advance?, hcontrol], Or.inr (Or.inl ⟨resume, rfl⟩)⟩
  | sending error? =>
    simp only [Fits, hcontrol] at h
    obtain ⟨⟨hbox, hreceived⟩, hrun⟩ := h
    have hsend : r.box.send? error? = some (.ok ⟨some error?, false⟩) := by
      rw [hbox]
      rfl
    refine Or.inl ⟨{ r with control := .leaving none Deferred.all, box := ⟨some error?, false⟩ },
      by simp only [advance?, hcontrol, hsend], List.suffix_rfl, fun _ => rfl, Or.inl (Or.inl ⟨?_, hreceived⟩)⟩
    simp only [result, hrun, recover]
  | leaving panic? deferred =>
    simp only [Fits, hcontrol] at h
    cases panic? with
    | none => exact Or.inl (h.advance hcontrol inner?)
    | some panic =>
      obtain ⟨⟨hbox, hreceived⟩, rfl, hresult⟩ := h
      have hrun : Deferred.run r.name (some panic) r.box .recoverPanic =
          .ok (none, ⟨some (some (panic.fault r.name)), false⟩) := by
        rw [hbox]
        rfl
      refine Or.inl ⟨_, advance?_leaving hcontrol hrun, by decide, fun _ => rfl, Or.inl (Or.inl ⟨?_, hreceived⟩)⟩
      exact congrArg some hresult.symm
  | ended => exact Or.inr ⟨by simp only [advance?, hcontrol], Or.inr (Or.inr rfl)⟩
  | crashed =>
    simp only [Fits, hcontrol] at h

/-! ### The receiver -/

theorem receive?_task {r r' : Recovery} (h : r.receive? = some r') : r'.task = r.task := by
  unfold receive? at h
  split at h <;> cases h
  rfl

theorem Pending.receive?_eq_none {r : Recovery} (h : r.Pending) : r.receive? = none := by
  simp only [receive?, h.1, h.2]
  rfl

/-- What is received once an error was sent is that error. -/
theorem Delivered.receive {r r' : Recovery} (h : r.Delivered) (hreceive : r.receive? = some r') :
    r' = { r with box := { r.box with content := none }, received? := some r.result } := by
  rcases h with ⟨hbox, hreceived⟩ | hreceived
  · simp only [receive?, hreceived, Box.take?, hbox] at hreceive
    exact (Option.some.inj hreceive).symm
  · simp only [receive?, hreceived] at hreceive
    cases hreceive

theorem Fits.sent {r : Recovery} {inner? : Option (Option (Fault Bytes))} (h : r.Fits inner?) :
    r.Pending ∨ r.Delivered := by
  unfold Fits at h
  split at h
  case h_1 | h_2 | h_3 | h_4 => exact Or.inl h.1
  case h_5 =>
    rcases h.sent with hdelivered | ⟨hpending, -⟩
    · exact Or.inr hdelivered
    · exact Or.inl hpending
  case h_6 => exact Or.inr h
  case h_7 => cases h

/-- Only the error to give is ever received. -/
theorem Fits.received {r : Recovery} {inner? : Option (Option (Fault Bytes))} (h : r.Fits inner?)
    {error? : Option (Fault Bytes)} (hreceived : r.received? = some error?) : error? = r.result := by
  rcases h.sent with ⟨-, hnone⟩ | ⟨-, hnone⟩ | hresult
  · rw [hreceived] at hnone
    cases hnone
  · rw [hreceived] at hnone
    cases hnone
  · rw [hreceived] at hresult
    exact Option.some.inj hresult

theorem Fits.receive {r r' : Recovery} {inner? : Option (Option (Fault Bytes))} (h : r.Fits inner?)
    (hreceive : r.receive? = some r') : r'.Fits inner? := by
  have hnot : ¬r.Pending := by
    intro hpending
    rw [hpending.receive?_eq_none] at hreceive
    cases hreceive
  rw [(h.sent.resolve_left hnot).receive hreceive]
  unfold Fits at h ⊢
  simp only
  split at h
  case h_1 | h_2 | h_3 | h_4 => exact absurd h.1 hnot
  case h_5 => exact ⟨h.order, h.isOpen, Or.inl (Or.inr rfl)⟩
  case h_6 => exact Or.inr rfl
  case h_7 => cases h

/-! ### Runs -/

/-- What holds of recoveries, each within the function of the one before, at every moment. -/
def Chain : List Recovery → Prop
  | [] => True
  | r :: rs => r.Fits (rs.head?.map result) ∧ Chain rs

theorem chain_start (name : Bytes) (f : Course) : Chain [{ name, function := f }] :=
  ⟨⟨⟨rfl, rfl⟩, rfl⟩, trivial⟩

/-- A step changes nothing of what is recovered. -/
theorem Step.head_task {c c' : List Recovery} (h : Step c c') : c'.head?.map task = c.head?.map task := by
  cases h with
  | within => rfl
  | advance rs h => exact congrArg some (advance?_task h)
  | receive rs h => exact congrArg some (receive?_task h)
  | call => rfl
  | resume => rfl

theorem Step.head_result {c c' : List Recovery} (h : Step c c') : c'.head?.map result = c.head?.map result := by
  have hresult : ∀ c : List Recovery, c.head?.map result = (c.head?.map task).map fun t => recover t.1 t.2.run := by
    intro c
    rw [Option.map_map]
    rfl
  rw [hresult c, hresult c', h.head_task]

theorem Chain.step {c c' : List Recovery} (hc : Chain c) (h : Step c c') : Chain c' := by
  induction h with
  | within r h ih =>
    obtain ⟨hfits, hrest⟩ := hc
    refine ⟨?_, ih hrest⟩
    rw [h.head_result]
    exact hfits
  | advance rs h =>
    obtain ⟨hfits, hrest⟩ := hc
    rcases hfits.advance with ⟨r', hadvance, hfits'⟩ | ⟨hnone, -⟩
    · rw [h] at hadvance
      cases hadvance
      exact ⟨hfits', hrest⟩
    · rw [h] at hnone
      cases hnone
  | receive rs h => exact ⟨hc.1.receive h, hc.2⟩
  | @call r name inner resume hstart hcalls =>
    have hfits := hc.1
    simp only [Fits, hstart] at hfits
    refine ⟨⟨hfits.1, recover name inner.run, rfl, ?_⟩, chain_start name inner⟩
    rw [hcalls, Course.run]
  | @resume r next rs resume error? hwaiting hreceived =>
    obtain ⟨hfits, hrest⟩ := hc
    have hgiven := hrest.1.received hreceived
    simp only [Fits, hwaiting] at hfits
    obtain ⟨hpending, given, hnext, hrun⟩ := hfits
    cases hnext
    exact ⟨fits_after hpending (hgiven ▸ hrun), hrest⟩

/-- The recovery is over: so is the thread of its function, and the error was received. -/
def Over (r : Recovery) : Prop := r.control = .ended ∧ r.received? = some r.result

/-- Recoveries that cannot go on are over. -/
theorem Chain.progress {c : List Recovery} (hc : Chain c) : (∃ c', Step c c') ∨ ∀ r ∈ c, r.Over := by
  induction c with
  | nil => exact Or.inr fun r hr => nomatch hr
  | cons r rs ih =>
    obtain ⟨hfits, hrest⟩ := hc
    rcases ih hrest with ⟨rs', h⟩ | hover
    · exact Or.inl ⟨r :: rs', .within r h⟩
    rcases hfits.advance with
      ⟨r', hadvance, -⟩ | ⟨-, ⟨hstart, name, inner, resume, hcalls⟩ | ⟨resume, hwaiting⟩ | hended⟩
    · exact Or.inl ⟨r' :: rs, .advance rs hadvance⟩
    · simp only [Fits, hstart] at hfits
      have hlast : rs = [] := by simpa using hfits.2
      subst hlast
      exact Or.inl ⟨_, .call hstart hcalls⟩
    · simp only [Fits, hwaiting] at hfits
      obtain ⟨-, given, hnext, -⟩ := hfits
      cases rs with
      | nil => cases hnext
      | cons next rs => exact Or.inl ⟨_, .resume hwaiting (hover next List.mem_cons_self).2⟩
    · simp only [Fits, hended] at hfits
      rcases hfits with ⟨hbox, hreceived⟩ | hreceived
      · have hreceive : r.receive? = some
            { r with box := { r.box with content := none }, received? := some r.result } := by
          simp only [receive?, hreceived, Box.take?, hbox]
        exact Or.inl ⟨_, .receive rs hreceive⟩
      · refine Or.inr fun r' hr' => ?_
        rcases List.mem_cons.mp hr' with rfl | hr'
        · exact ⟨hended, hreceived⟩
        · exact hover r' hr'

/-! ### Ends -/

/-- More than the steps that the thread of the function still takes, and those of recoveries within the function. -/
def effort (f : Course) : Control → Nat
  | .start => 10 * f.depth + 8
  | .waiting _ => 7
  | .sending _ => 6
  | .leaving _ deferred => deferred.length + 1
  | .ended | .crashed => 0

/-- More than the steps that a recovery still takes, by the thread or by the receiver. -/
def weight (r : Recovery) : Nat := effort r.function r.control + if r.received?.isNone then 1 else 0

/-- The weight of recoveries taken together. -/
def total : List Recovery → Nat
  | [] => 0
  | r :: rs => r.weight + total rs

theorem effort_after_le (f : Course) (ending : Ending Bytes) : effort f (.after ending) ≤ 6 := by
  cases ending <;> simp [Control.after, effort, Deferred.all]

theorem weight_advance {r r' : Recovery} (h : r.advance? = some r') : r'.weight < r.weight := by
  unfold advance? at h
  split at h
  case h_1 hcontrol =>
    split at h
    · rename_i ending _
      cases h
      have hafter := effort_after_le r.function ending
      have hstart : effort r.function .start = 10 * r.function.depth + 8 := rfl
      simp only [weight, hcontrol]
      omega
    · cases h
  case h_2 hcontrol =>
    split at h <;> cases h
    all_goals
      simp only [weight, hcontrol, effort, Deferred.all, List.length_cons, List.length_nil]
      omega
  case h_3 hcontrol =>
    split at h <;> cases h
    all_goals
      simp only [weight, hcontrol, effort, List.length_cons]
      omega
  case h_4 hcontrol | h_5 hcontrol =>
    cases h
    simp only [weight, hcontrol, effort, List.length_nil]
    omega
  all_goals cases h

theorem weight_receive {r r' : Recovery} (h : r.receive? = some r') : r'.weight < r.weight := by
  unfold receive? at h
  split at h
  · rename_i hreceived _
    cases h
    simp [weight, hreceived]
  · cases h

/-- Every step leaves fewer to come. -/
theorem Step.total_lt {c c' : List Recovery} (h : Step c c') : total c' < total c := by
  induction h with
  | within r h ih =>
    simp only [total]
    omega
  | advance rs h =>
    have hless := weight_advance h
    simp only [total]
    omega
  | receive rs h =>
    have hless := weight_receive h
    simp only [total]
    omega
  | call hstart hcalls =>
    simp only [total, weight, hstart, hcalls, effort, Course.depth, Option.isNone_none, if_true]
    omega
  | @resume r next rs resume error? hwaiting _ =>
    have hafter := effort_after_le r.function (resume error?)
    have hwait : effort r.function (.waiting resume) = 7 := rfl
    simp only [total, weight, hwaiting]
    omega

theorem wellFounded_step : WellFounded fun c' c : List Recovery => Step c c' :=
  Subrelation.wf Step.total_lt (measure total).wf

/-! ### From the start -/

/-- The recoveries come about when a function is run under recovery. -/
def Reachable (name : Bytes) (f : Course) : List Recovery → Prop :=
  Relation.ReflTransGen Step [{ name, function := f }]

theorem Reachable.chain {name : Bytes} {f : Course} {c : List Recovery} (h : Reachable name f c) : Chain c := by
  induction h with
  | refl => exact chain_start name f
  | tail _ hstep ih => exact ih.step hstep

theorem Reachable.head_task {name : Bytes} {f : Course} {c : List Recovery} (h : Reachable name f c) :
    c.head?.map task = some (name, f) := by
  induction h with
  | refl => rfl
  | tail _ hstep ih => exact hstep.head_task.trans ih

/-- The report of an exit may come late: it is put in the box after the error that was returned was received. -/
theorem reachable_late_report (name : Bytes) (error? : Option (Fault Bytes)) :
    ∃ r, Reachable name (.ends (.returned error?)) [r] ∧ r.received? = some error? ∧
      r.box.content = some (some (.exited name)) := by
  refine ⟨⟨name, .ends (.returned error?), .leaving none [.closeBox], ⟨some (some (.exited name)), false⟩,
    some error?⟩, ?_, rfl, rfl⟩
  refine .head (.advance [] rfl) (.head (.advance [] rfl) (.head (.receive [] rfl) ?_))
  exact .head (.advance [] rfl) (.head (.advance [] rfl) .refl)

/-- What is promised of a recovery at every moment: no panic gets out of it, what its function returned is sent without
    waiting, and nothing but the error to give is received. -/
structure Sound (r : Recovery) : Prop where
  contained : r.control ≠ .crashed
  unblocked : ∀ error?, r.control = .sending error? →
    r.function.run = .returned error? ∧ ∃ box, r.box.send? error? = some (.ok box)
  given : ∀ error?, r.received? = some error? → error? = recover r.name r.function.run

theorem Fits.sound {r : Recovery} {inner? : Option (Option (Fault Bytes))} (h : r.Fits inner?) : r.Sound where
  contained hcrashed := by simp only [Fits, hcrashed] at h
  unblocked error? hsending := by
    simp only [Fits, hsending] at h
    obtain ⟨⟨hbox, -⟩, hrun⟩ := h
    refine ⟨hrun, ⟨some error?, false⟩, ?_⟩
    rw [hbox]
    rfl
  given _ hreceived := h.received hreceived

theorem Chain.sound {c : List Recovery} (hc : Chain c) : ∀ r ∈ c, r.Sound := by
  induction c with
  | nil => exact fun r hr => nomatch hr
  | cons r rs ih =>
    intro r' hr'
    rcases List.mem_cons.mp hr' with rfl | hr'
    · exact hc.1.sound
    · exact ih hc.2 r' hr'

theorem Reachable.progress {name : Bytes} {f : Course} {c : List Recovery} (h : Reachable name f c) :
    (∃ c', Step c c') ∨ (∀ r ∈ c, r.Over) ∧ c.head?.bind received? = some (recover name f.run) := by
  rcases h.chain.progress with hstep | hover
  · exact Or.inl hstep
  · have htask := h.head_task
    cases c with
    | nil => cases htask
    | cons r rs =>
      cases htask
      exact Or.inr ⟨hover, (hover r List.mem_cons_self).2⟩

end Recovery

/-! ### Recovered errors -/

namespace Fault

variable {E : Type}

/-- The error wraps the other, directly. -/
def Wraps (e inner : Fault E) : Prop := e.unwrap? = some inner

/-- On the way from error to wrapped error, something is met at once or further on. -/
theorem exists_wraps_iff {P : Fault E → Prop} (e : Fault E) :
    (∃ e', Relation.ReflTransGen Wraps e e' ∧ P e') ↔
      P e ∨ ∃ inner, e.unwrap? = some inner ∧ ∃ e', Relation.ReflTransGen Wraps inner e' ∧ P e' := by
  constructor
  · rintro ⟨e', h, hP⟩
    rcases h.cases_head with rfl | ⟨inner, hinner, h⟩
    · exact Or.inl hP
    · exact Or.inr ⟨inner, hinner, e', h, hP⟩
  · rintro (hP | ⟨inner, hinner, e', h, hP⟩)
    · exact ⟨e, .refl, hP⟩
    · exact ⟨e', .head hinner h, hP⟩

theorem isPanic_iff (e : Fault E) : e.isPanic ↔ ∃ e', Relation.ReflTransGen Wraps e e' ∧ e'.isOwnPanic := by
  induction e with
  | returned | panicked | panickedWith | exited =>
    rw [exists_wraps_iff]
    simp [isPanic, isOwnPanic, unwrap?]
  | wrapped context inner ih =>
    rw [exists_wraps_iff]
    simp [isPanic, isOwnPanic, unwrap?, ih]

theorem isExit_iff (e : Fault E) : e.isExit ↔ ∃ e', Relation.ReflTransGen Wraps e e' ∧ ∃ name, e' = exited name := by
  induction e with
  | returned | panicked | exited =>
    rw [exists_wraps_iff]
    simp [isExit, unwrap?]
  | wrapped _ inner ih | panickedWith _ inner ih =>
    rw [exists_wraps_iff]
    simp [isExit, unwrap?, ih]

end Fault

/-- Recovery is exact, in whatever order the threads take turns: every run comes to an end, with all threads over and
    the error received that the function returned, or that tells of its panic or exit under the name. The functions
    include the behaviours. -/
theorem recover_exact (name : Bytes) (f : Course) :
    (∀ c, Recovery.Reachable name f c → (∀ r ∈ c, r.Sound) ∧
      ((∃ c', Recovery.Step c c') ∨
        (∀ r ∈ c, r.Over) ∧ c.head?.bind Recovery.received? = some (recover name f.run))) ∧
    (WellFounded fun c' c => Recovery.Step c c') ∧
    (match f.run with
      | .returned error? => recover name f.run = error?
      | .panicked value => recover name f.run = some (.panicked name value)
      | .panickedWith error => recover name f.run = some (.panickedWith name error)
      | .exited => recover name f.run = some (.exited name)) ∧
    (∀ outer, recover outer (Course.calls name f .returned).run = recover name f.run) ∧
    (∀ error, recover name f.run = some error →
      (error.isPanic ↔ ∃ e, Relation.ReflTransGen Fault.Wraps error e ∧ e.isOwnPanic) ∧
      (error.isExit ↔ ∃ e, Relation.ReflTransGen Fault.Wraps error e ∧ ∃ name, e = .exited name)) ∧
    ∀ b : Behaviour, b.course.run = b.run := by
  refine ⟨fun c hc => ⟨hc.chain.sound, hc.progress⟩, Recovery.wellFounded_step, ?_, fun outer => rfl, fun error _ => ?_,
    Behaviour.run_course⟩
  · cases f.run <;> rfl
  · exact ⟨error.isPanic_iff, error.isExit_iff⟩

end PostfixLambda
