import FractalShader.Proofs.Queue.Rounds
import Mathlib.Logic.Function.Basic
import Mathlib.Data.List.Induction

/-
  A queue that several clients share.

  A client submits in two steps.  It draws the next number,
  and later it places its job where jobs wait.  Between the
  two, other clients can do the same, and the queue and the
  renderer go on.

  The queue takes jobs in the order in which they are placed.
  This is the order of their numbers when no client draws
  while another one holds a number, but not in general: a
  job that is placed late replaces one that is newer.

  Main declarations:
    * `Queue.submit_eq_place`
    * `Crowd`
    * `Crowd.run?`
    * `Crowd.run?_turnsOf`
    * `Crowd.Follows.step`
    * `Crowd.follows_of_run`
    * `Crowd.newest_of_run`
    * `Crowd.older_replaces_newer`
-/

------------------------------------------------------------
-- Drawing and Placing
------------------------------------------------------------

namespace FractalShader

namespace Queue

/- The next number, which nobody draws again. -/
def draw (q : Queue) : Nat × Queue :=
  (q.submitted + 1, { q with submitted := q.submitted + 1 })

/- A job waits in place of the one that waits. -/
def place (q : Queue) (job : Job) : Queue :=
  { q with waiting := some job }

/- To submit is to draw a number and place the job. -/
theorem submit_eq_place
    (q : Queue)
    (fragment : Fragment) :
    q.submit fragment =
      (q.draw.1, q.draw.2.place ⟨q.draw.1, fragment⟩) :=
  rfl

end Queue

/- A queue with the job that each client still has to place. -/
structure Crowd (Client : Type) where
  queue : Queue := {}
  held : Client → Option Job := fun _ => none
  /- The numbers of the jobs placed so far, in order. -/
  placed : List Nat := []

/- A step of a client, of the queue or of the renderer. -/
inductive Turn (Client : Type) where
  | draw (client : Client) (fragment : Fragment)
  | place (client : Client)
  | pickUp
  | finish (answer : Answer)
  | stop
  | exit

namespace Crowd

variable {Client : Type} [DecidableEq Client]

/- A client holds the next number for a fragment. -/
def draw
    (crowd : Crowd Client)
    (client : Client)
    (fragment : Fragment) : Crowd Client :=
  { crowd with
    queue := crowd.queue.draw.2
    held :=
      Function.update crowd.held client
        (some ⟨crowd.queue.draw.1, fragment⟩) }

/- The job of a client waits, and the client has none. -/
def place
    (crowd : Crowd Client)
    (client : Client)
    (job : Job) : Crowd Client where
  queue := crowd.queue.place job
  held := Function.update crowd.held client none
  placed := crowd.placed ++ [job.generation]

/- The crowd after a turn, if it can be taken. -/
def turn?
    (crowd : Crowd Client) : Turn Client → Option (Crowd Client)
  | .draw client fragment =>
      if crowd.held client = none then
        some (crowd.draw client fragment)
      else
        none
  | .place client =>
      (crowd.held client).map (crowd.place client)
  | .pickUp =>
      crowd.queue.pickUp?.map ({ crowd with queue := · })
  | .finish answer =>
      (crowd.queue.finish? answer).map
        ({ crowd with queue := · })
  | .stop => some { crowd with queue := crowd.queue.stop }
  | .exit => crowd.queue.exit?.map ({ crowd with queue := · })

/- The crowd after turns that can be taken one by one. -/
def run?
    (crowd : Crowd Client)
    (turns : List (Turn Client)) : Option (Crowd Client) :=
  turns.foldlM turn? crowd

theorem run?_append
    (crowd : Crowd Client)
    (turns more : List (Turn Client)) :
    crowd.run? (turns ++ more) =
      (crowd.run? turns).bind fun middle =>
        middle.run? more :=
  List.foldlM_append

variable {crowd next : Crowd Client}
variable {turns : List (Turn Client)} {turn : Turn Client}

/- Only a client that holds no number draws one. -/
theorem draw_of_turn?
    {client : Client}
    {fragment : Fragment}
    (h : crowd.turn? (.draw client fragment) = some next) :
    crowd.held client = none ∧
      next = crowd.draw client fragment := by
  simp only [turn?] at h
  split at h
  · rename_i hFree
    exact ⟨hFree, (Option.some.inj h).symm⟩
  · cases h

/- What is placed is the job that the client holds. -/
theorem place_of_turn?
    {client : Client}
    (h : crowd.turn? (.place client) = some next) :
    ∃ job,
      crowd.held client = some job ∧
        next = crowd.place client job := by
  rcases Option.map_eq_some_iff.mp h with ⟨job, hHeld, hNext⟩
  exact ⟨job, hHeld, hNext.symm⟩

/- After a number is drawn, it is held beside the others. -/
theorem held_draw
    {client other : Client}
    {fragment : Fragment}
    {job : Job} :
    (crowd.draw client fragment).held other = some job ↔
      (other = client ∧
          job = ⟨crowd.queue.submitted + 1, fragment⟩) ∨
        (other ≠ client ∧ crowd.held other = some job) := by
  by_cases hOther : other = client
  · subst hOther
    simp [draw, Queue.draw, eq_comm]
  · simp [draw, hOther]

/- After a job is placed, the other clients hold theirs. -/
theorem held_place
    {client other : Client}
    {placed job : Job} :
    (crowd.place client placed).held other = some job ↔
      other ≠ client ∧ crowd.held other = some job := by
  by_cases hOther : other = client
  · simp [place, hOther]
  · simp [place, hOther]

/- The last turn of a run starts where the others end. -/
theorem exists_last_of_run?
    (h : crowd.run? (turns ++ [turn]) = some next) :
    ∃ last,
      crowd.run? turns = some last ∧
        last.turn? turn = some next := by
  rw [run?_append] at h
  rcases Option.bind_eq_some_iff.mp h with
    ⟨last, hLast, hTurn⟩
  refine ⟨last, hLast, ?_⟩
  simpa [run?] using hTurn

end Crowd

end FractalShader

------------------------------------------------------------
-- Runs of the Queue as Runs of a Crowd
------------------------------------------------------------

namespace FractalShader

namespace Crowd

variable {Client : Type} [DecidableEq Client]

/-
  The turns of a move when one client does all submitting.
  Nothing comes between its two steps.
-/
def turnsOf (client : Client) : Move → List (Turn Client)
  | .submit fragment => [.draw client fragment, .place client]
  | .stop => [.stop]
  | .exit => [.exit]
  | .pickUp => [.pickUp]
  | .finish answer => [.finish answer]

/- A move is its turns, after which nothing is held again. -/
theorem run?_turnsOf_move
    {q next : Queue}
    {move : Move}
    (h : q.move? move = some next)
    (client : Client)
    (placed : List Nat) :
    ∃ more,
      run? { queue := q, placed := placed }
          (turnsOf client move) =
        some { queue := next, placed := more } := by
  cases move with
  | submit fragment =>
      refine ⟨placed ++ [q.submitted + 1], ?_⟩
      rw [← Option.some.inj h, Queue.submit_eq_place]
      simp [run?, turnsOf, turn?, draw, place, Queue.draw,
        Queue.place]
  | stop =>
      refine ⟨placed, ?_⟩
      rw [← Option.some.inj h]
      rfl
  | exit =>
      have hExit : q.exit? = some next := h
      exact ⟨placed, by simp [run?, turnsOf, turn?, hExit]⟩
  | pickUp =>
      have hPick : q.pickUp? = some next := h
      exact ⟨placed, by simp [run?, turnsOf, turn?, hPick]⟩
  | finish answer =>
      have hFinish : q.finish? answer = some next := h
      exact ⟨placed, by simp [run?, turnsOf, turn?, hFinish]⟩

/- Every run of a queue is one of a crowd of one client. -/
theorem run?_turnsOf
    {q next : Queue}
    {moves : List Move}
    (h : q.run? moves = some next)
    (client : Client)
    (placed : List Nat) :
    ∃ more,
      run? { queue := q, placed := placed }
          (moves.flatMap (turnsOf client)) =
        some { queue := next, placed := more } := by
  induction moves generalizing q placed with
  | nil =>
      have hSame : q = next := Option.some.inj h
      exact ⟨placed, hSame ▸ rfl⟩
  | cons move moves ih =>
      rcases Queue.run?_cons h with ⟨middle, hMove, hRest⟩
      rcases run?_turnsOf_move hMove client placed with
        ⟨now, hNow⟩
      rcases ih hRest now with ⟨more, hMore⟩
      refine ⟨more, ?_⟩
      rw [List.flatMap_cons, run?_append, hNow]
      exact hMore

end Crowd

end FractalShader

------------------------------------------------------------
-- What the Log Tells of Numbers
------------------------------------------------------------

namespace FractalShader

namespace Event

/- The number of a job that the queue takes. -/
def begun? : Event → Option Nat
  | .started generation _ | .skipped generation _ =>
      some generation
  | .delivered _ | .finished _ _ | .failed _ _ _ => none

/- The number of a job that the queue is done with. -/
def ended? : Event → Option Nat
  | .finished generation _
  | .failed generation _ _
  | .skipped generation _ => some generation
  | .started _ _ | .delivered _ => none

end Event

/- The number of the job in flight. -/
def Phase.flight : Phase → List Nat
  | .compiling job => [job.generation]
  | .idle | .stopped => []

namespace Queue

/- The numbers of the jobs taken, in order. -/
def begun (q : Queue) : List Nat :=
  q.log.filterMap Event.begun?

/- The numbers of the jobs that the queue is done with. -/
def ended (q : Queue) : List Nat :=
  q.log.filterMap Event.ended?

/- The number of the job that waits. -/
def next (q : Queue) : List Nat :=
  (q.waiting.map Job.generation).toList

variable {q after : Queue}

/- A pick-up takes the job that waits, and only that. -/
theorem begun_pickUp?
    (h : q.pickUp? = some after) :
    ∃ number,
      q.phase = .idle ∧ q.next = [number] ∧
        after.begun = q.begun ++ [number] ∧
        after.ended ++ after.phase.flight =
          q.ended ++ [number] ∧
        after.next = [] ∧ after.submitted = q.submitted := by
  rcases pickUp?_eq_some h with
    ⟨job, course, hIdle, hWaiting, hCourse, _, rfl⟩
  refine ⟨job.generation, hIdle, ?_, ?_, ?_, rfl, rfl⟩
  · simp [next, hWaiting]
  · rcases hCourse with rfl | rfl <;>
      simp [begun, Round.reports, Event.begun?]
  · rcases hCourse with rfl | rfl <;>
      simp [ended, Round.reports, Round.phase, Event.ended?,
        Phase.flight]

/- With the answer, the queue is done with the job. -/
theorem ended_finish?
    {answer : Answer}
    (h : q.finish? answer = some after) :
    after.begun = q.begun ∧
      after.ended ++ after.phase.flight =
        q.ended ++ q.phase.flight ∧
      after.next = q.next ∧
      after.submitted = q.submitted := by
  rcases finish?_eq_some h with ⟨job, hFlight, rfl⟩
  refine ⟨?_, ?_, rfl, rfl⟩
  · cases answer <;>
      simp [begun, Job.answered, Event.begun?]
  · cases answer <;>
      simp [ended, hFlight, Job.answered, Event.ended?,
        Phase.flight, List.filterMap_cons]

end Queue

end FractalShader

------------------------------------------------------------
-- The Order of Placing
------------------------------------------------------------

namespace FractalShader

namespace Crowd

variable {Client : Type}

/-
  The queue follows the order of placing.

  * The jobs taken and the one that waits were placed in
    this order, and of them the last is the last one placed.
  * The jobs taken are those that the queue is done with and
    the one in flight.
  * The numbers drawn are those placed and those held.
-/
structure Follows (crowd : Crowd Client) : Prop where
  taken :
    (crowd.queue.begun ++ crowd.queue.next).Sublist
      crowd.placed
  last :
    (crowd.queue.begun ++ crowd.queue.next).getLast? =
      crowd.placed.getLast?
  done :
    crowd.queue.begun =
      crowd.queue.ended ++ crowd.queue.phase.flight
  drawn :
    ∀ number,
      (0 < number ∧ number ≤ crowd.queue.submitted) ↔
        number ∈ crowd.placed ∨
          ∃ client job,
            crowd.held client = some job ∧
              job.generation = number

/- Nothing has happened at the start. -/
theorem follows_start : Follows ({} : Crowd Client) where
  taken := List.Sublist.refl []
  last := rfl
  done := rfl
  drawn := by
    intro number
    simp
    omega

variable [DecidableEq Client] {crowd next : Crowd Client}

/- A number that is drawn is held by the client. -/
theorem Follows.draw
    (h : Follows crowd)
    {client : Client}
    (hFree : crowd.held client = none)
    (fragment : Fragment) :
    Follows (crowd.draw client fragment) where
  taken := h.taken
  last := h.last
  done := h.done
  drawn := by
    intro number
    have hDrawn := h.drawn number
    have hOld :
        (∃ other job,
            other ≠ client ∧ crowd.held other = some job ∧
              job.generation = number) ↔
          ∃ other job,
            crowd.held other = some job ∧
              job.generation = number := by
      constructor
      · rintro ⟨other, job, _, hHeld⟩
        exact ⟨other, job, hHeld⟩
      · rintro ⟨other, job, hHeld, hNumber⟩
        refine ⟨other, job, ?_, hHeld, hNumber⟩
        rintro rfl
        simp [hFree] at hHeld
    have hHeld :
        (∃ other job,
            (crowd.draw client fragment).held other =
                some job ∧
              job.generation = number) ↔
          number = crowd.queue.submitted + 1 ∨
            ∃ other job,
              crowd.held other = some job ∧
                job.generation = number := by
      rw [← hOld]
      constructor
      · rintro ⟨other, job, hHeld, hNumber⟩
        rcases held_draw.mp hHeld with
          ⟨_, rfl⟩ | ⟨hOther, hOlder⟩
        · exact Or.inl hNumber.symm
        · exact Or.inr ⟨other, job, hOther, hOlder, hNumber⟩
      · rintro (rfl | ⟨other, job, hOther, hOlder, hNumber⟩)
        · exact
            ⟨client, _, held_draw.mpr (Or.inl ⟨rfl, rfl⟩), rfl⟩
        · exact
            ⟨other, job,
              held_draw.mpr (Or.inr ⟨hOther, hOlder⟩), hNumber⟩
    rw [hHeld]
    change
      0 < number ∧ number ≤ crowd.queue.submitted + 1 ↔
        number ∈ crowd.placed ∨ _
    rw [or_left_comm, ← hDrawn]
    omega

/- A job that is placed is the last one placed, and waits. -/
theorem Follows.place
    (h : Follows crowd)
    {client : Client}
    {job : Job}
    (hHeld : crowd.held client = some job) :
    Follows (crowd.place client job) where
  taken := by
    refine List.Sublist.append ?_ (List.Sublist.refl _)
    exact (List.sublist_append_left _ _).trans h.taken
  last := by
    simp [Crowd.place, Queue.next, Queue.place]
  done := h.done
  drawn := by
    intro number
    refine (h.drawn number).trans ?_
    constructor
    · rintro (hPlaced | ⟨other, its, hIts, hNumber⟩)
      · exact Or.inl (List.mem_append_left _ hPlaced)
      · by_cases hOther : other = client
        · subst hOther
          rw [hHeld] at hIts
          rw [← hNumber, ← Option.some.inj hIts]
          exact Or.inl (List.mem_append_right _ (by simp))
        · exact
            Or.inr
              ⟨other, its, held_place.mpr ⟨hOther, hIts⟩,
                hNumber⟩
    · rintro (hPlaced | ⟨other, its, hIts, hNumber⟩)
      · rcases List.mem_append.mp hPlaced with hOld | hNew
        · exact Or.inl hOld
        · exact
            Or.inr
              ⟨client, job, hHeld,
                (List.mem_singleton.mp hNew).symm⟩
      · exact
          Or.inr ⟨other, its, (held_place.mp hIts).2, hNumber⟩

/- Every turn keeps to the order of placing. -/
theorem Follows.step
    (h : Follows crowd)
    {turn : Turn Client}
    (hTurn : crowd.turn? turn = some next) :
    Follows next := by
  cases turn with
  | draw client fragment =>
      rcases draw_of_turn? hTurn with ⟨hFree, rfl⟩
      exact h.draw hFree fragment
  | place client =>
      rcases place_of_turn? hTurn with ⟨job, hHeld, rfl⟩
      exact h.place hHeld
  | pickUp =>
      rcases Option.map_eq_some_iff.mp hTurn with
        ⟨queue, hQueue, rfl⟩
      rcases Queue.begun_pickUp? hQueue with
        ⟨number, hIdle, hNext, hBegun, hEnded, hNone,
          hSubmitted⟩
      have hTaken :
          queue.begun ++ queue.next =
            crowd.queue.begun ++ crowd.queue.next := by
        rw [hBegun, hNone, hNext, List.append_nil]
      have hDone := h.done
      rw [hIdle] at hDone
      exact
        { taken := hTaken ▸ h.taken
          last := hTaken ▸ h.last
          done := by
            rw [hEnded, hBegun, hDone]
            simp [Phase.flight]
          drawn := hSubmitted ▸ h.drawn }
  | finish answer =>
      rcases Option.map_eq_some_iff.mp hTurn with
        ⟨queue, hQueue, rfl⟩
      rcases Queue.ended_finish? hQueue with
        ⟨hBegun, hEnded, hNext, hSubmitted⟩
      exact
        { taken := by rw [hBegun, hNext]; exact h.taken
          last := by rw [hBegun, hNext]; exact h.last
          done := by rw [hBegun, hEnded]; exact h.done
          drawn := hSubmitted ▸ h.drawn }
  | stop =>
      rw [← Option.some.inj hTurn]
      exact ⟨h.taken, h.last, h.done, h.drawn⟩
  | exit =>
      rcases Option.map_eq_some_iff.mp hTurn with
        ⟨queue, hQueue, rfl⟩
      rcases Queue.exit?_eq_some hQueue with ⟨hIdle, rfl⟩
      have hDone := h.done
      rw [hIdle] at hDone
      exact ⟨h.taken, h.last, hDone, h.drawn⟩

/- Every run does. -/
theorem follows_of_run
    {turns : List (Turn Client)}
    (h : run? {} turns = some crowd) :
    Follows crowd := by
  induction turns using List.reverseRecOn
    generalizing crowd with
  | nil =>
      rw [← Option.some.inj h]
      exact follows_start
  | append_singleton turns turn ih =>
      rcases exists_last_of_run? h with ⟨last, hLast, hTurn⟩
      exact (ih hLast).step hTurn

end Crowd

end FractalShader

------------------------------------------------------------
-- Clients That Wait for Each Other
------------------------------------------------------------

namespace FractalShader

namespace Crowd

variable {Client : Type}

/-
  The order of numbers is kept so far, and what is held is
  held by one client and is the number drawn last.
-/
structure Ascends (crowd : Crowd Client) : Prop where
  placed : crowd.placed.Pairwise (· < ·)
  bounded : ∀ number ∈ crowd.placed,
    number ≤ crowd.queue.submitted
  held :
    ∀ client job,
      crowd.held client = some job →
        job.generation = crowd.queue.submitted ∧
          (∀ number ∈ crowd.placed,
            number < job.generation) ∧
          ∀ other, other ≠ client → crowd.held other = none

variable {crowd : Crowd Client}

/- What is no step of a client leaves numbers and clients. -/
theorem Ascends.quiet
    (h : Ascends crowd)
    {queue : Queue}
    (hSubmitted : queue.submitted = crowd.queue.submitted) :
    Ascends { crowd with queue := queue } where
  placed := h.placed
  bounded := hSubmitted ▸ h.bounded
  held := hSubmitted ▸ h.held

variable [DecidableEq Client] {next : Crowd Client}
variable {turns : List (Turn Client)} {turn : Turn Client}

/- A client draws while no client holds a number. -/
theorem Ascends.draw
    (h : Ascends crowd)
    (hNone : ∀ other, crowd.held other = none)
    (client : Client)
    (fragment : Fragment) :
    Ascends (crowd.draw client fragment) where
  placed := h.placed
  bounded := fun number hNumber =>
    Nat.le_succ_of_le (h.bounded number hNumber)
  held := by
    intro other job hHeld
    rcases held_draw.mp hHeld with ⟨rfl, rfl⟩ | ⟨_, hOlder⟩
    · refine ⟨rfl, ?_, ?_⟩
      · intro number hNumber
        exact Nat.lt_succ_of_le (h.bounded number hNumber)
      · intro third hThird
        by_contra hSome
        rcases Option.ne_none_iff_exists'.mp hSome with
          ⟨its, hIts⟩
        rcases held_draw.mp hIts with
          ⟨hSame, _⟩ | ⟨_, hOlder⟩
        · exact hThird hSame
        · simp [hNone third] at hOlder
    · simp [hNone other] at hOlder

/- The number that is held is higher than all before it. -/
theorem Ascends.place
    (h : Ascends crowd)
    {client : Client}
    {job : Job}
    (hHeld : crowd.held client = some job) :
    Ascends (crowd.place client job) := by
  rcases h.held client job hHeld with
    ⟨hLast, hOlder, hOthers⟩
  refine ⟨?_, ?_, ?_⟩
  · refine
      List.pairwise_append.mpr
        ⟨h.placed, List.pairwise_singleton _ _, ?_⟩
    intro number hNumber new hNew
    rw [List.mem_singleton.mp hNew]
    exact hOlder number hNumber
  · intro number hNumber
    rcases List.mem_append.mp hNumber with hOld | hNew
    · exact h.bounded number hOld
    · rw [List.mem_singleton.mp hNew]
      exact Nat.le_of_eq hLast
  · intro other its hIts
    rcases held_place.mp hIts with ⟨hOther, hOlder⟩
    simp [hOthers other hOther] at hOlder

/- A turn that does not draw too early keeps the order. -/
theorem Ascends.step
    (h : Ascends crowd)
    (hTurn : crowd.turn? turn = some next)
    (hFree :
      ∀ client fragment,
        turn = .draw client fragment →
          ∀ other, crowd.held other = none) :
    Ascends next := by
  cases turn with
  | draw client fragment =>
      have hNone := hFree client fragment rfl
      rcases draw_of_turn? hTurn with ⟨_, rfl⟩
      exact h.draw hNone client fragment
  | place client =>
      rcases place_of_turn? hTurn with ⟨job, hHeld, rfl⟩
      exact h.place hHeld
  | pickUp =>
      rcases Option.map_eq_some_iff.mp hTurn with
        ⟨queue, hQueue, rfl⟩
      rcases Queue.begun_pickUp? hQueue with
        ⟨_, _, _, _, _, _, hSubmitted⟩
      exact h.quiet hSubmitted
  | finish answer =>
      rcases Option.map_eq_some_iff.mp hTurn with
        ⟨queue, hQueue, rfl⟩
      exact h.quiet (Queue.ended_finish? hQueue).2.2.2
  | stop =>
      rw [← Option.some.inj hTurn]
      exact h.quiet rfl
  | exit =>
      rcases Option.map_eq_some_iff.mp hTurn with
        ⟨queue, hQueue, rfl⟩
      rcases Queue.exit?_eq_some hQueue with ⟨_, rfl⟩
      exact h.quiet rfl

/- No client draws while another one holds a number. -/
def Separate (turns : List (Turn Client)) : Prop :=
  ∀ before after client fragment crowd,
    turns = before ++ .draw client fragment :: after →
      run? {} before = some crowd →
        ∀ other, crowd.held other = none

/- Clients that wait for each other place in order. -/
theorem ascends_of_run
    (hSeparate : Separate turns)
    (h : run? {} turns = some crowd) :
    Ascends crowd := by
  induction turns using List.reverseRecOn
    generalizing crowd with
  | nil =>
      rw [← Option.some.inj h]
      exact
        { placed := List.Pairwise.nil
          bounded := by simp
          held := by simp }
  | append_singleton turns turn ih =>
      rcases exists_last_of_run? h with ⟨last, hLast, hTurn⟩
      have hBefore : Separate turns := by
        intro before after client fragment middle hSplit
        exact
          hSeparate before (after ++ [turn]) client fragment
            middle (by simp [hSplit])
      refine (ih hBefore hLast).step hTurn ?_
      rintro client fragment rfl
      exact hSeparate turns [] client fragment last rfl hLast

end Crowd

end FractalShader

------------------------------------------------------------
-- The Newest Job
------------------------------------------------------------

namespace FractalShader

namespace Crowd

variable {Client : Type} {crowd : Crowd Client}

/-
  All jobs drawn are placed, and the queue is idle with
  nothing to pick up.
-/
structure Rests (crowd : Crowd Client) : Prop where
  free : ∀ client, crowd.held client = none
  idle : crowd.queue.phase = .idle
  nothing : crowd.queue.pickUp? = none

/- The highest number drawn, if any was. -/
def highest? (crowd : Crowd Client) : Option Nat :=
  if crowd.queue.submitted = 0 then
    none
  else
    some crowd.queue.submitted

/-
  The newest job wins: the numbers taken ascend, and at rest
  the last job dealt with has the highest number drawn.
-/
structure NewestWins (crowd : Crowd Client) : Prop where
  ascending : crowd.queue.begun.Pairwise (· < ·)
  newest :
    crowd.Rests →
      crowd.queue.ended.getLast? = crowd.highest?

/- At rest, the last job placed is dealt with. -/
theorem Follows.ended_of_rests
    (h : Follows crowd)
    (hRests : crowd.Rests) :
    crowd.queue.ended.getLast? = crowd.placed.getLast? := by
  have hWaiting :=
    Queue.waiting_eq_none hRests.idle hRests.nothing
  have hDone := h.done
  rw [hRests.idle] at hDone
  rw [← h.last, hDone]
  simp [Queue.next, hWaiting, Phase.flight]

/- At rest, the last of ascending numbers is the highest. -/
theorem Follows.highest_of_rests
    (h : Follows crowd)
    (hAscending : crowd.placed.Pairwise (· < ·))
    (hRests : crowd.Rests) :
    crowd.placed.getLast? = crowd.highest? := by
  have hDrawn :
      ∀ number,
        (0 < number ∧ number ≤ crowd.queue.submitted) ↔
          number ∈ crowd.placed := by
    intro number
    rw [h.drawn number]
    simp [hRests.free]
  rcases List.eq_nil_or_concat' crowd.placed with
    hNil | ⟨front, last, hSplit⟩
  · have hZero : crowd.queue.submitted = 0 := by
      have hNone := (hDrawn crowd.queue.submitted).mp
      rw [hNil] at hNone
      by_contra hSome
      simpa using hNone ⟨by omega, by omega⟩
    simp [highest?, hZero, hNil]
  · have hLast := (hDrawn last).mpr (by simp [hSplit])
    have hTop :=
      (hDrawn crowd.queue.submitted).mp
        ⟨by omega, Nat.le_refl _⟩
    rw [hSplit] at hAscending hTop
    rw [hSplit, List.getLast?_concat, highest?,
      if_neg (by omega)]
    rcases List.mem_append.mp hTop with hFront | hEnd
    · have hLess :=
        (List.pairwise_append.mp hAscending).2.2 _ hFront last
          (by simp)
      omega
    · rw [List.mem_singleton.mp hEnd]

variable [DecidableEq Client] {turns : List (Turn Client)}

/-
  The queue takes jobs in the order of placing, and at rest
  it has dealt with the job placed last.  If jobs are placed
  in the order of their numbers, the newest job wins, and
  clients that wait for each other do place them so.
-/
theorem newest_of_run
    (h : run? {} turns = some crowd) :
    crowd.queue.begun.Sublist crowd.placed ∧
      (crowd.Rests →
        crowd.queue.ended.getLast? =
          crowd.placed.getLast?) ∧
      (crowd.placed.Pairwise (· < ·) → crowd.NewestWins) ∧
      (Separate turns → crowd.NewestWins) := by
  have hFollows := follows_of_run h
  have hTaken : crowd.queue.begun.Sublist crowd.placed :=
    (List.sublist_append_left _ _).trans hFollows.taken
  have hWins :
      crowd.placed.Pairwise (· < ·) → crowd.NewestWins := by
    intro hAscending
    refine ⟨hAscending.sublist hTaken, ?_⟩
    intro hRests
    rw [hFollows.ended_of_rests hRests]
    exact hFollows.highest_of_rests hAscending hRests
  refine ⟨hTaken, hFollows.ended_of_rests, hWins, ?_⟩
  intro hSeparate
  exact hWins (ascends_of_run hSeparate h).placed

/- Two clients that hold numbers at the same time. -/
def bothDraw : List (Turn Bool) :=
  [.draw true (Queue.sampleFragment "one"),
    .draw false (Queue.sampleFragment "two")]

/-
  Both place in the order of their numbers, and the first
  job is replaced before it is taken.
-/
theorem newest_of_bothDraw :
    ∃ crowd,
      run? {}
          (bothDraw ++
            [.place true, .place false, .pickUp,
              .finish none]) =
        some crowd ∧
      crowd.queue.begun = [2] ∧
      crowd.NewestWins ∧
      crowd.Rests := by
  have hRun :
      ∃ crowd,
        run? {}
            (bothDraw ++
              [.place true, .place false, .pickUp,
                .finish none]) =
          some crowd := ⟨_, rfl⟩
  rcases hRun with ⟨crowd, hRun⟩
  have hWins := (newest_of_run hRun).2.2.1
  refine ⟨crowd, hRun, ?_, hWins ?_, ?_⟩
  · rw [← Option.some.inj hRun]
    rfl
  · rw [← Option.some.inj hRun]
    decide
  · rw [← Option.some.inj hRun]
    exact ⟨by decide, rfl, rfl⟩

/-
  The client with the newer job places it first.  The queue
  deals with it and then with the older one.
-/
theorem older_replaces_newer :
    ¬ ∀ turns (crowd : Crowd Bool),
        run? {} turns = some crowd → crowd.NewestWins := by
  intro hAll
  have hWins :=
    hAll
      (bothDraw ++
        [.place false, .pickUp, .finish none,
          .place true, .pickUp, .finish none])
      _ rfl
  have hAscending : [2, 1].Pairwise (· < ·) :=
    hWins.ascending
  revert hAscending
  decide

end Crowd

end FractalShader
