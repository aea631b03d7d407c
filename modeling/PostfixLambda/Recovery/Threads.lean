import PostfixLambda.Recovery

/-! Recovery as it takes place. A function under recovery runs on a thread of its own and hands its error over through a
    box that holds one. Whatever way the function ends, the thread then runs its deferred calls: a panic is recovered
    and offered to the box, then an exit, and last the box is closed. The one who asked for the recovery takes what is
    in the box. All this takes place in any order that the box allows, and a function may be under recovery within
    another. -/

namespace PostfixLambda

/-! ### Functions -/

/-- An error put in a context, if the function returned one. -/
def Ending.inContext (context : Bytes) : Ending Bytes → Ending Bytes
  | .returned error? => .returned (error?.map (.wrapped context))
  | ending => ending

/-- What a function under recovery does, as far as other threads are concerned. -/
inductive Course where
  /-- It ends. -/
  | ends (ending : Ending Bytes)
  /-- It runs another function under recovery, and the error of that decides how it ends. -/
  | calls (name : Bytes) (inner : Course) (resume : Option (Fault Bytes) → Ending Bytes)

/-- How a course ends. -/
def Course.run : Course → Ending Bytes
  | ends ending => ending
  | calls name inner resume => resume (recover name inner.run)

/-- A course that puts the error in a context. -/
def Course.inContext (context : Bytes) : Course → Course
  | ends ending => ends (ending.inContext context)
  | calls name inner resume => calls name inner fun error? => (resume error?).inContext context

/-- The course of a behaviour. -/
def Behaviour.course : Behaviour → Course
  | nest name inner => .calls name inner.course .returned
  | repanic name inner => .calls name inner.course fun error? =>
      .panickedWith (error?.getD (.returned Breakdown.nilPanic.message))
  | wrap context inner => inner.course.inContext context
  | succeed => .ends (.returned none)
  | fail message => .ends (.returned (some (.returned message)))
  | panic value => .ends (.panicked value)
  | panicWith message => .ends (.panickedWith (.returned message))
  | breakDown b => .ends (.panickedWith (.returned b.message))
  | exit => .ends .exited

/-! ### Boxes -/

/-- What a thread panics with. -/
inductive Panic where
  | value (text : Bytes)
  | error (inner : Fault Bytes)
  deriving DecidableEq, Repr

/-- The error of a recovered panic. -/
def Panic.fault (name : Bytes) : Panic → Fault Bytes
  | value text => .panicked name text
  | error inner => .panickedWith name inner

/-- A box for one error, or for none where no error is handed over. -/
structure Box where
  content : Option (Option (Fault Bytes)) := none
  closed : Bool := false
  deriving DecidableEq, Repr

namespace Box

/-- Puts an error in the box. There is no result as long as the box is full; a closed box makes the sender panic. -/
def send? (box : Box) (error? : Option (Fault Bytes)) : Option (Except Panic Box) :=
  if box.closed then some (.error (.error (.returned "send on closed channel")))
  else if box.content.isSome then none
  else some (.ok { box with content := some error? })

/-- Puts an error in the box unless it is full. -/
def offer (box : Box) (error? : Option (Fault Bytes)) : Except Panic Box := (box.send? error?).getD (.ok box)

/-- Takes what is in the box. There is no result as long as the box is empty; a closed one gives no error then. -/
def take? (box : Box) : Option (Option (Fault Bytes) × Box) :=
  match box.content with
  | some error? => some (error?, { box with content := none })
  | none => if box.closed then some (none, box) else none

/-- Closes the box; a closed one makes the closer panic. -/
def close (box : Box) : Except Panic Box :=
  if box.closed then .error (.error (.returned "close of closed channel")) else .ok { box with closed := true }

end Box

/-! ### Threads -/

/-- A call that the thread of a function defers. -/
inductive Deferred where
  | recoverPanic
  | reportExit
  | closeBox
  deriving DecidableEq, Repr

/-- The deferred calls, the first to run first. -/
def Deferred.all : List Deferred := [recoverPanic, reportExit, closeBox]

/-- A deferred call, made while the thread panics or not: whether it panics after that, and the box. -/
def Deferred.run (name : Bytes) (panic? : Option Panic) (box : Box) : Deferred → Except Panic (Option Panic × Box)
  | recoverPanic =>
    match panic? with
    | some panic => (box.offer (some (panic.fault name))).map fun box' => (none, box')
    | none => .ok (none, box)
  | reportExit => (box.offer (some (.exited name))).map fun box' => (panic?, box')
  | closeBox => box.close.map fun box' => (panic?, box')

/-- Where the thread of a function is. -/
inductive Control where
  /-- Before the function. -/
  | start
  /-- In the function, which waits for the error of another. -/
  | waiting (resume : Option (Fault Bytes) → Ending Bytes)
  /-- The function has returned, and what it returned is not sent yet. -/
  | sending (error? : Option (Fault Bytes))
  /-- The thread leaves, panicking or not, with calls deferred. -/
  | leaving (panic? : Option Panic) (deferred : List Deferred)
  /-- The thread is over. -/
  | ended
  /-- The thread has panicked to its end. -/
  | crashed

/-- Where the thread goes on when the function ends. -/
def Control.after : Ending Bytes → Control
  | .returned error? => sending error?
  | .panicked value => leaving (some (.value value)) Deferred.all
  | .panickedWith error => leaving (some (.error error)) Deferred.all
  | .exited => leaving none Deferred.all

/-! ### Recoveries -/

/-- A recovery under way: its function and the thread of it, the box, and what was taken out of the box, once it was. -/
structure Recovery where
  name : Bytes
  function : Course
  control : Control := .start
  box : Box := {}
  received? : Option (Option (Fault Bytes)) := none

namespace Recovery

/-- What the thread of the function does next, as far as it depends on nothing but the box. -/
def advance? (r : Recovery) : Option Recovery :=
  match r.control with
  | .start =>
    match r.function with
    | .ends ending => some { r with control := .after ending }
    | .calls _ _ _ => none
  | .sending error? =>
    match r.box.send? error? with
    | some (.ok box) => some { r with control := .leaving none Deferred.all, box }
    | some (.error panic) => some { r with control := .leaving (some panic) Deferred.all }
    | none => none
  | .leaving panic? (call :: deferred) =>
    match call.run r.name panic? r.box with
    | .ok (panic?', box) => some { r with control := .leaving panic?' deferred, box }
    | .error panic => some { r with control := .leaving (some panic) deferred }
  | .leaving none [] => some { r with control := .ended }
  | .leaving (some _) [] => some { r with control := .crashed }
  | .waiting _ | .ended | .crashed => none

/-- The one who asked for the recovery takes what is in the box, once. -/
def receive? (r : Recovery) : Option Recovery :=
  match r.received?, r.box.take? with
  | none, some (error?, box) => some { r with box, received? := some error? }
  | _, _ => none

/-- A step of recoveries, each within the function of the one before: any thread that can go on goes on. -/
inductive Step : List Recovery → List Recovery → Prop where
  /-- A thread further in goes on. -/
  | within {rs rs' : List Recovery} (r : Recovery) (h : Step rs rs') : Step (r :: rs) (r :: rs')
  /-- The thread of the function goes on. -/
  | advance {r r' : Recovery} (rs : List Recovery) (h : r.advance? = some r') : Step (r :: rs) (r' :: rs)
  /-- The error is received. -/
  | receive {r r' : Recovery} (rs : List Recovery) (h : r.receive? = some r') : Step (r :: rs) (r' :: rs)
  /-- The function runs another under recovery. -/
  | call {r : Recovery} {name : Bytes} {inner : Course} {resume : Option (Fault Bytes) → Ending Bytes}
      (hstart : r.control = .start) (hcalls : r.function = .calls name inner resume) :
      Step [r] [{ r with control := .waiting resume }, { name, function := inner }]
  /-- The function goes on with the error received. -/
  | resume {r next : Recovery} {rs : List Recovery} {resume : Option (Fault Bytes) → Ending Bytes}
      {error? : Option (Fault Bytes)} (hwaiting : r.control = .waiting resume)
      (hreceived : next.received? = some error?) :
      Step (r :: next :: rs) ({ r with control := .after (resume error?) } :: next :: rs)

end Recovery

end PostfixLambda
