import FractalShader.Shader.Fragment

/-
  This file defines the queue that hands fragments to the
  renderer.

  Only the newest fragment waits: a new one replaces the one
  that waits, and the one in flight is never interrupted.
  A fragment whose hash is the one compiled last is skipped.

  Key definitions include:
    * `Job`
    * `Event`
    * `Queue`
    * `Queue.submit`
    * `Queue.pickUp?`
    * `Queue.finish?`
    * `Queue.stop`
    * `Queue.settle`
-/

namespace FractalShader

------------------------------------------------------------
-- Jobs and Events
------------------------------------------------------------

/- A submitted fragment with its number. -/
structure Job where
  generation : Nat
  fragment : Fragment
deriving DecidableEq, Repr

/- The answer of the renderer; an error carries its text. -/
abbrev Answer := Option String

/- What happens to a job. -/
inductive Event where
  | started (generation : Nat) (hash : String)
  | delivered (fragment : Fragment)
  | finished (generation : Nat) (hash : String)
  | failed (generation : Nat) (hash error : String)
  | skipped (generation : Nat) (hash : String)
deriving DecidableEq, Repr

/- What the queue is doing. -/
inductive Phase where
  | idle
  | compiling (job : Job)
  | stopped
deriving DecidableEq, Repr

/- The queue, with the log of events in order. -/
structure Queue where
  submitted : Nat := 0
  waiting : Option Job := none
  phase : Phase := .idle
  stopping : Bool := false
  compiled : Option String := none
  log : List Event := []
deriving DecidableEq, Repr

------------------------------------------------------------
-- Steps
------------------------------------------------------------

namespace Queue

/- Number a fragment and let it wait, alone. -/
def submit
    (q : Queue)
    (fragment : Fragment) : Nat × Queue :=
  let generation := q.submitted + 1
  (generation,
    { q with
      submitted := generation
      waiting := some ⟨generation, fragment⟩ })

/- Ask the queue to stop when it is idle. -/
def stop (q : Queue) : Queue :=
  { q with stopping := true }

/- An idle queue that was asked to stop stops. -/
def exit? (q : Queue) : Option Queue :=
  match q.phase with
  | .idle =>
      if q.stopping then
        some { q with phase := .stopped }
      else
        none
  | _ => none

/- An idle queue takes the job that waits. -/
def pickUp? (q : Queue) : Option Queue :=
  match q.phase, q.waiting with
  | .idle, some job =>
      let hash := job.fragment.hash
      if q.compiled = some hash then
        some
          { q with
            waiting := none
            log := q.log ++ [.skipped job.generation hash] }
      else
        some
          { q with
            waiting := none
            phase := .compiling job
            log := q.log ++ [.started job.generation hash] }
  | _, _ => none

/- The renderer answers for the job in flight. -/
def finish?
    (q : Queue)
    (answer : Answer) : Option Queue :=
  match q.phase with
  | .compiling job =>
      let hash := job.fragment.hash
      let log := q.log ++ [.delivered job.fragment]
      match answer with
      | none =>
          some
            { q with
              phase := .idle
              compiled := some hash
              log := log ++ [.finished job.generation hash] }
      | some error =>
          some
            { q with
              phase := .idle
              log :=
                log ++ [.failed job.generation hash error] }
  | _ => none

------------------------------------------------------------
-- Running
------------------------------------------------------------

/- One step that the queue can take by itself. -/
def advance? (q : Queue) : Option Queue :=
  match q.exit? with
  | some q => some q
  | none => q.pickUp?

/-
  Run until nothing can happen, with the answers that the
  renderer has ready.  What is left of the answers is
  returned.

  At most one job waits, so one step of the queue comes
  before each answer and one after the last.
-/
def settle
    (q : Queue) : List Answer → List Answer × Queue
  | [] => ([], (q.advance?).getD q)
  | answer :: answers =>
      let q := (q.advance?).getD q
      match q.finish? answer with
      | some q => settle q answers
      | none => (answer :: answers, q)

end Queue

end FractalShader
