import FractalShader.Queue
import Mathlib.Data.List.Basic
import Mathlib.Data.List.Induction

/-
  What a queue does, in whatever order callers submit, the
  queue takes its steps and the renderer answers.

  The log tells of rounds.  A round deals with one job, and
  it is over before the next one begins.  The job of a round
  is the newest of those submitted when the round begins.

  Main declarations:
    * `Move`
    * `Queue.run?`
    * `Queue.run?_settle`
    * `Channel.unseen_start`
    * `Round`
    * `Queue.Account`
    * `Queue.Ledger.step`
    * `Queue.log_of_run`
-/

------------------------------------------------------------
-- Moves
------------------------------------------------------------

namespace FractalShader

/- A step of a caller, of the queue or of the renderer. -/
inductive Move where
  | submit (fragment : Fragment)
  | stop
  | exit
  | pickUp
  | finish (answer : Answer)

namespace Queue

/- The queue after a move, if it can be made. -/
def move? (q : Queue) : Move → Option Queue
  | .submit fragment => some (q.submit fragment).2
  | .stop => some q.stop
  | .exit => q.exit?
  | .pickUp => q.pickUp?
  | .finish answer => q.finish? answer

/- The queue after moves that can be made one by one. -/
def run? (q : Queue) (moves : List Move) : Option Queue :=
  moves.foldlM move? q

variable {q next : Queue} {moves : List Move} {move : Move}

theorem run?_append
    (q : Queue)
    (moves more : List Move) :
    q.run? (moves ++ more) =
      (q.run? moves).bind fun middle => middle.run? more :=
  List.foldlM_append

theorem run?_cons
    (h : q.run? (move :: moves) = some next) :
    ∃ middle,
      q.move? move = some middle ∧
        middle.run? moves = some next := by
  rw [run?, List.foldlM_cons] at h
  exact Option.bind_eq_some_iff.mp h

/- The last move of a run starts where the others end. -/
theorem exists_last_of_run?
    (h : q.run? (moves ++ [move]) = some next) :
    ∃ last,
      q.run? moves = some last ∧
        last.move? move = some next := by
  rw [run?_append] at h
  rcases Option.bind_eq_some_iff.mp h with
    ⟨last, hLast, hMove⟩
  refine ⟨last, hLast, ?_⟩
  simpa [run?] using hMove

/- A queue that settles makes moves of a run. -/
theorem run?_settle
    (q : Queue)
    (answers : List Answer) :
    ∃ moves, q.run? moves = some (q.settle answers).2 := by
  have hAdvance :
      ∀ q : Queue,
        ∃ moves, q.run? moves = some (q.advance?.getD q) := by
    intro q
    unfold advance?
    cases hExit : q.exit? with
    | some after =>
        exact ⟨[.exit], by simp [run?, move?, hExit]⟩
    | none =>
        cases hPick : q.pickUp? with
        | some after =>
            exact ⟨[.pickUp], by simp [run?, move?, hPick]⟩
        | none => exact ⟨[], rfl⟩
  induction answers generalizing q with
  | nil => exact hAdvance q
  | cons answer answers ih =>
      rcases hAdvance q with ⟨first, hFirst⟩
      rw [settle]
      cases hFinish : (q.advance?.getD q).finish? answer with
      | none => exact ⟨first, hFirst⟩
      | some after =>
          rcases ih after with ⟨rest, hRest⟩
          refine ⟨first ++ .finish answer :: rest, ?_⟩
          rw [run?_append, hFirst]
          simpa [run?, move?, hFinish] using hRest

end Queue

end FractalShader

------------------------------------------------------------
-- Rounds
------------------------------------------------------------

namespace FractalShader

/- The hash of the fragment of a job. -/
def Job.hash (job : Job) : String :=
  job.fragment.hash

/- The event that reports the answer to a job. -/
def Job.answered (job : Job) : Answer → Event
  | none => .finished job.generation job.hash
  | some error => .failed job.generation job.hash error

/- What comes of a job that the queue takes. -/
inductive Course where
  | skipped
  | inFlight
  | answered (answer : Answer)

/- A job that the queue took and what came of it. -/
structure Round where
  job : Job
  course : Course

namespace Round

/- The events of a round that are reported. -/
def reports (round : Round) : List Event :=
  match round.course with
  | .skipped =>
      [.skipped round.job.generation round.job.hash]
  | .inFlight =>
      [.started round.job.generation round.job.hash]
  | .answered answer =>
      [.started round.job.generation round.job.hash,
        round.job.answered answer]

/- The fragments of a round that the renderer is given. -/
def calls (round : Round) : List Fragment :=
  match round.course with
  | .skipped => []
  | .inFlight | .answered _ => [round.job.fragment]

/- What the queue does in a round. -/
def phase (round : Round) : Phase :=
  match round.course with
  | .inFlight => .compiling round.job
  | .skipped | .answered _ => .idle

end Round

namespace Event

/- Deliveries are noted in the log but not reported. -/
def reported : Event → Bool
  | .delivered _ => false
  | _ => true

/- The fragment that was delivered. -/
def delivered? : Event → Option Fragment
  | .delivered fragment => some fragment
  | _ => none

/- The hash that was compiled. -/
def finished? : Event → Option String
  | .finished _ hash => some hash
  | _ => none

/- The hash that was compiled last. -/
def lastFinished? (events : List Event) : Option String :=
  (events.filterMap finished?).getLast?

theorem lastFinished?_append
    (events more : List Event) :
    lastFinished? (events ++ more) =
      (lastFinished? more).or (lastFinished? events) := by
  unfold lastFinished?
  rw [List.filterMap_append, List.getLast?_append]

end Event

namespace Job

variable (job : Job) (answer : Answer)

/- Of an answer in the log, the event is reported. -/
theorem reported_answer :
    [Event.delivered job.fragment,
        job.answered answer].filter Event.reported =
      [job.answered answer] := by
  cases answer <;> rfl

theorem delivered_answer :
    [Event.delivered job.fragment,
        job.answered answer].filterMap Event.delivered? =
      [job.fragment] := by
  cases answer <;> rfl

/- Only an answer without error compiles the hash. -/
theorem lastFinished?_answered :
    Event.lastFinished? [job.answered answer] =
      if answer.isNone then some job.hash else none := by
  cases answer <;> rfl

end Job

/- The fragment that the renderer has not answered for. -/
def Phase.calls : Phase → List Fragment
  | .compiling job => [job.fragment]
  | .idle | .stopped => []

namespace Queue

/- The events that are reported. -/
def reports (q : Queue) : List Event :=
  q.log.filter Event.reported

/-
  The fragments that the renderer was given: those that it
  answered for and the one in flight.
-/
def calls (q : Queue) : List Fragment :=
  q.log.filterMap Event.delivered? ++ q.phase.calls

end Queue

end FractalShader

------------------------------------------------------------
-- What Moves Do
------------------------------------------------------------

namespace FractalShader

namespace Queue

variable {q next : Queue}

/- Only an idle queue that was asked to stop stops. -/
theorem exit?_eq_some
    (h : q.exit? = some next) :
    q.phase = .idle ∧ next = { q with phase := .stopped } := by
  unfold exit? at h
  split at h
  · rename_i hPhase
    split at h
    · exact ⟨hPhase, (Option.some.inj h).symm⟩
    · cases h
  · cases h

/-
  An idle queue begins a round with the job that waits.  It
  skips the job when its hash was compiled last.
-/
theorem pickUp?_eq_some
    (h : q.pickUp? = some next) :
    ∃ job course,
      q.phase = .idle ∧ q.waiting = some job ∧
        (course = .skipped ∨ course = .inFlight) ∧
        (course = .skipped ↔ q.compiled = some job.hash) ∧
        next =
          { q with
            waiting := none
            phase := (Round.mk job course).phase
            log :=
              q.log ++ (Round.mk job course).reports } := by
  unfold pickUp? at h
  split at h
  · rename_i job hPhase hWaiting
    dsimp only at h
    split at h
    · rename_i hSame
      refine
        ⟨job, .skipped, hPhase, hWaiting, Or.inl rfl,
          by simpa [Job.hash] using hSame, ?_⟩
      rw [← Option.some.inj h, Round.phase, ← hPhase]
      rfl
    · rename_i hOther
      refine
        ⟨job, .inFlight, hPhase, hWaiting, Or.inr rfl,
          by simpa [Job.hash] using hOther, ?_⟩
      exact (Option.some.inj h).symm
  · cases h

/- Only for the job in flight does the renderer answer. -/
theorem finish?_eq_some
    {answer : Answer}
    (h : q.finish? answer = some next) :
    ∃ job,
      q.phase = .compiling job ∧
        next =
          { q with
            phase := .idle
            compiled :=
              if answer.isNone then
                some job.hash
              else
                q.compiled
            log :=
              q.log ++
                [.delivered job.fragment,
                  job.answered answer] } := by
  unfold finish? at h
  split at h
  · rename_i job hPhase
    refine ⟨job, hPhase, ?_⟩
    cases answer with
    | none =>
        rw [← Option.some.inj h]
        simp [Job.answered, Job.hash]
    | some error =>
        rw [← Option.some.inj h]
        simp [Job.answered, Job.hash]
  · cases h

/- A queue that stopped stays so and logs nothing. -/
theorem stopped_move
    (hStopped : q.phase = .stopped)
    {move : Move}
    (h : q.move? move = some next) :
    next.phase = .stopped ∧ next.log = q.log := by
  cases move with
  | submit fragment =>
      rw [← Option.some.inj h]
      exact ⟨hStopped, rfl⟩
  | stop =>
      rw [← Option.some.inj h]
      exact ⟨hStopped, rfl⟩
  | exit =>
      have hIdle := (exit?_eq_some h).1
      simp [hStopped] at hIdle
  | pickUp =>
      rcases pickUp?_eq_some h with ⟨_, _, hIdle, _⟩
      simp [hStopped] at hIdle
  | finish answer =>
      rcases finish?_eq_some h with ⟨_, hFlight, _⟩
      simp [hStopped] at hFlight

theorem log_of_stopped
    {moves : List Move}
    (hStopped : q.phase = .stopped)
    (h : q.run? moves = some next) :
    next.log = q.log := by
  induction moves generalizing q with
  | nil =>
      have hSame : q = next := Option.some.inj h
      rw [hSame]
  | cons move moves ih =>
      rcases run?_cons h with ⟨middle, hMove, hRest⟩
      rcases stopped_move hStopped hMove with ⟨hStays, hLog⟩
      exact (ih hStays hRest).trans hLog

end Queue

end FractalShader

------------------------------------------------------------
-- The Slot
------------------------------------------------------------

namespace FractalShader

/-
  A slot that callers and the queue share.  What is sent
  replaces what was in the slot, and what was received is
  not new any more.
-/
structure Channel (State : Type) where
  fresh : State
  send : State → Job → State
  receive : State → State
  unseen : State → Option Job
  unseen_fresh : unseen fresh = none
  unseen_send : ∀ c job, unseen (send c job) = some job
  unseen_receive : ∀ c, unseen (receive c) = none

namespace Channel

variable {State : Type}

/- The slot after a move of a queue. -/
def after
    (channel : Channel State)
    (q : Queue)
    (c : State) : Move → State
  | .submit fragment =>
      channel.send c ⟨(q.submit fragment).1, fragment⟩
  | .pickUp => channel.receive c
  | _ => c

/- The slot after moves of a queue, one after another. -/
def afterAll
    (channel : Channel State) :
    Queue → State → List Move → State
  | _, c, [] => c
  | q, c, move :: moves =>
      afterAll channel ((q.move? move).getD q)
        (channel.after q c move) moves

variable {q next : Queue} {c : State}

/- A move keeps the job that waits what is new in the slot. -/
theorem unseen_after
    (channel : Channel State)
    (hWaiting : channel.unseen c = q.waiting)
    {move : Move}
    (h : q.move? move = some next) :
    channel.unseen (channel.after q c move) =
      next.waiting := by
  cases move with
  | submit fragment =>
      rw [← Option.some.inj h]
      exact channel.unseen_send c _
  | stop =>
      rw [← Option.some.inj h]
      exact hWaiting
  | exit =>
      rw [(Queue.exit?_eq_some h).2]
      exact hWaiting
  | pickUp =>
      rcases Queue.pickUp?_eq_some h with
        ⟨_, _, _, _, _, _, hNext⟩
      rw [hNext]
      exact channel.unseen_receive c
  | finish answer =>
      rcases Queue.finish?_eq_some h with ⟨_, _, hNext⟩
      rw [hNext]
      exact hWaiting

/- Every run does. -/
theorem unseen_run
    (channel : Channel State)
    (hWaiting : channel.unseen c = q.waiting)
    {moves : List Move}
    (h : q.run? moves = some next) :
    channel.unseen (channel.afterAll q c moves) =
      next.waiting := by
  induction moves generalizing q c with
  | nil =>
      have hSame : q = next := Option.some.inj h
      exact hSame ▸ hWaiting
  | cons move moves ih =>
      rcases Queue.run?_cons h with ⟨middle, hMove, hRest⟩
      rw [afterAll, hMove]
      exact ih (channel.unseen_after hWaiting hMove) hRest

/- From the start, what is new in the slot is what waits. -/
theorem unseen_start
    (channel : Channel State)
    {moves : List Move}
    (h : Queue.run? {} moves = some next) :
    channel.unseen
        (channel.afterAll {} channel.fresh moves) =
      next.waiting :=
  channel.unseen_run channel.unseen_fresh h

/-
  The last job sent, with the number of its version and that
  of the version received last.
-/
structure Versions where
  slot : Option Job := none
  version : Nat := 0
  seen : Nat := 0
  seen_le : seen ≤ version := by decide

/- A slot that numbers what is sent. -/
def versioned : Channel Versions where
  fresh := {}
  send v job :=
    { slot := some job
      version := v.version + 1
      seen := v.seen
      seen_le := Nat.le_succ_of_le v.seen_le }
  receive v :=
    { v with
      seen := v.version
      seen_le := Nat.le_refl _ }
  unseen v := if v.seen < v.version then v.slot else none
  unseen_fresh := by simp
  unseen_send v job := if_pos (Nat.lt_succ_of_le v.seen_le)
  unseen_receive v := by simp

end Channel

end FractalShader

------------------------------------------------------------
-- Accounts of Rounds
------------------------------------------------------------

namespace FractalShader

namespace Move

/- The fragment that a move submits. -/
def submitted? : Move → Option Fragment
  | .submit fragment => some fragment
  | _ => none

/- The fragments that moves submit, in order. -/
def submissions (moves : List Move) : List Fragment :=
  moves.filterMap submitted?

/- The newest job after some moves. -/
def newest? (moves : List Move) : Option Job :=
  (submissions moves).getLast?.map fun fragment =>
    ⟨(submissions moves).length, fragment⟩

/- At a pick-up, the newest job after the moves before. -/
def takes (before : List Move) : Move → List Job
  | .pickUp => (newest? before).toList
  | _ => []

/- The newest jobs at the pick-ups among moves. -/
def takenAfter (before : List Move) : List Move → List Job
  | [] => []
  | move :: moves =>
      takes before move ++ takenAfter (before ++ [move]) moves

/- For each pick-up, the job that is the newest by then. -/
def taken (moves : List Move) : List Job :=
  takenAfter [] moves

theorem takenAfter_append
    (before moves : List Move)
    (move : Move) :
    takenAfter before (moves ++ [move]) =
      takenAfter before moves ++
        takes (before ++ moves) move := by
  induction moves generalizing before with
  | nil => simp [takenAfter]
  | cons first moves ih =>
      rw [List.cons_append, takenAfter, ih, takenAfter]
      simp

theorem taken_append
    (moves : List Move)
    (move : Move) :
    taken (moves ++ [move]) = taken moves ++ takes moves move :=
  takenAfter_append [] moves move

/- A move that submits nothing leaves the submissions. -/
theorem submissions_append
    {move : Move}
    (h : move.submitted? = none)
    (moves : List Move) :
    submissions (moves ++ [move]) = submissions moves := by
  simp [submissions, h]

theorem newest?_append
    {move : Move}
    (h : move.submitted? = none)
    (moves : List Move) :
    newest? (moves ++ [move]) = newest? moves := by
  rw [newest?, submissions_append h, newest?]

theorem newest?_eq_some
    {moves : List Move}
    {job : Job}
    (h : newest? moves = some job) :
    job.generation = (submissions moves).length := by
  rcases Option.map_eq_some_iff.mp h with ⟨_, _, rfl⟩
  rfl

end Move

namespace Queue

/-
  The rounds that a queue went through in some moves.

  * What is reported are the events of the rounds, and only
    the last round can be in flight.
  * Each pick-up began a round with the job that was the
    newest by then.
  * The renderer was given the fragment of every round that
    did not skip its job, once.
  * A round skipped its job exactly when the hash that was
    compiled last was that of the job.
  * The newest job waits or is that of the last round.
-/
structure Account
    (moves : List Move)
    (rounds : List Round)
    (q : Queue) : Prop where
  reports : q.reports = rounds.flatMap Round.reports
  closed : ∀ round ∈ rounds.dropLast, round.course ≠ .inFlight
  flight :
    ∀ job,
      q.phase = .compiling job ↔
        rounds.getLast? = some ⟨job, .inFlight⟩
  jobs : rounds.map Round.job = Move.taken moves
  ascending :
    (rounds.map Round.job).Pairwise fun earlier later =>
      earlier.generation < later.generation
  calls : q.calls = rounds.flatMap Round.calls
  skips :
    ∀ before round after,
      rounds = before ++ round :: after →
        (round.course = .skipped ↔
          Event.lastFinished?
              (before.flatMap Round.reports) =
            some round.job.hash)
  newest :
    q.waiting.or (rounds.map Round.job).getLast? =
      Move.newest? moves

/-
  In addition, the numbers of the jobs tell how many were
  submitted, and the queue knows the hash compiled last.
-/
structure Ledger
    (moves : List Move)
    (rounds : List Round)
    (q : Queue) : Prop extends Account moves rounds q where
  submitted : q.submitted = (Move.submissions moves).length
  bounded :
    ∀ job ∈ rounds.map Round.job, job.generation ≤ q.submitted
  older :
    ∀ job ∈ q.waiting, ∀ taken ∈ rounds.map Round.job,
      taken.generation < job.generation
  compiled : q.compiled = Event.lastFinished? q.reports

/- Nothing has happened at the start. -/
theorem ledger_start : Ledger [] [] {} where
  reports := rfl
  closed := by simp
  flight := by simp
  jobs := rfl
  ascending := List.Pairwise.nil
  calls := rfl
  skips := by simp
  newest := rfl
  submitted := rfl
  bounded := by simp
  older := by simp
  compiled := rfl

variable {moves : List Move} {rounds : List Round} {q : Queue}

/- Unless one is in flight, all rounds are over. -/
theorem Account.over
    (h : Account moves rounds q)
    (hIdle : q.phase = .idle) :
    ∀ round ∈ rounds, round.course ≠ .inFlight := by
  intro round hRound hCourse
  rcases List.eq_nil_or_concat' rounds with
    rfl | ⟨front, last, rfl⟩
  · simp at hRound
  · have hClosed := h.closed
    have hFlight := h.flight last.job
    rw [List.dropLast_concat] at hClosed
    rw [List.getLast?_concat, hIdle] at hFlight
    rcases List.mem_append.mp hRound with hFront | hLast
    · exact hClosed round hFront hCourse
    · rw [List.mem_singleton.mp hLast] at hCourse
      simp [← hCourse] at hFlight

/-
  A split of a list with one more member at the end is at
  that member or at one before it.
-/
theorem split_concat
    {α : Type}
    {xs before after : List α}
    {x y : α}
    (h : xs ++ [x] = before ++ y :: after) :
    (before = xs ∧ y = x) ∨
      ∃ rest, xs = before ++ y :: rest := by
  rcases List.eq_nil_or_concat' after with
    rfl | ⟨rest, z, rfl⟩
  · rcases List.append_inj' h rfl with ⟨hBefore, hLast⟩
    exact Or.inl ⟨hBefore.symm, (List.cons.inj hLast).1.symm⟩
  · have hInner :
        xs ++ [x] = (before ++ y :: rest) ++ [z] := by
      simpa using h
    exact Or.inr ⟨rest, (List.append_inj' hInner rfl).1⟩

end Queue

end FractalShader

------------------------------------------------------------
-- Accounts After a Move
------------------------------------------------------------

namespace FractalShader

namespace Queue

variable {moves : List Move} {rounds : List Round} {q : Queue}

/- A new job waits, and it is newer than all before. -/
theorem Ledger.submit
    (h : Ledger moves rounds q)
    (fragment : Fragment) :
    Ledger (moves ++ [.submit fragment]) rounds
      (q.submit fragment).2 where
  reports := h.reports
  closed := h.closed
  flight := h.flight
  jobs := by
    rw [Move.taken_append, h.jobs]
    exact (List.append_nil _).symm
  ascending := h.ascending
  calls := h.calls
  skips := h.skips
  newest := by
    simp [Move.newest?, Move.submissions, Move.submitted?,
      Queue.submit, h.submitted]
  submitted := by
    simp [Move.submissions, Move.submitted?, Queue.submit,
      h.submitted]
  bounded := by
    intro job hJob
    exact Nat.le_succ_of_le (h.bounded job hJob)
  older := by
    intro job hJob taken hTaken
    have hNew : job = ⟨q.submitted + 1, fragment⟩ :=
      (Option.some.inj hJob).symm
    rw [hNew]
    exact Nat.lt_succ_of_le (h.bounded taken hTaken)
  compiled := h.compiled

/- Asking to stop and stopping leave the rounds. -/
theorem Ledger.quiet
    (h : Ledger moves rounds q)
    {move : Move}
    (hSubmits : move.submitted? = none)
    (hTakes : Move.takes moves move = [])
    {phase : Phase}
    (hPhase :
      phase = q.phase ∨ q.phase = .idle ∧ phase = .stopped)
    (stopping : Bool) :
    Ledger (moves ++ [move]) rounds
      { q with phase := phase, stopping := stopping } where
  reports := h.reports
  closed := h.closed
  flight := by
    intro job
    rcases hPhase with rfl | ⟨hIdle, rfl⟩
    · exact h.flight job
    · rw [← h.flight job, hIdle]
      simp
  jobs := by
    rw [Move.taken_append, hTakes, List.append_nil, h.jobs]
  ascending := h.ascending
  calls := by
    rw [← h.calls]
    rcases hPhase with rfl | ⟨hIdle, rfl⟩
    · rfl
    · simp [Queue.calls, Phase.calls, hIdle]
  skips := h.skips
  newest := by
    rw [Move.newest?_append hSubmits]
    exact h.newest
  submitted := by
    rw [Move.submissions_append hSubmits]
    exact h.submitted
  bounded := h.bounded
  older := h.older
  compiled := h.compiled

/- A round begins with the job that waits, the newest one. -/
theorem Ledger.pickUp
    (h : Ledger moves rounds q)
    {job : Job}
    {course : Course}
    (hIdle : q.phase = .idle)
    (hWaiting : q.waiting = some job)
    (hCourse : course = .skipped ∨ course = .inFlight)
    (hSkips : course = .skipped ↔ q.compiled = some job.hash) :
    Ledger (moves ++ [.pickUp]) (rounds ++ [⟨job, course⟩])
      { q with
        waiting := none
        phase := (Round.mk job course).phase
        log := q.log ++ (Round.mk job course).reports } :=
  have hNewest : Move.newest? moves = some job := by
    rw [← h.newest, hWaiting, Option.some_or]
  have hReports :
      (Round.mk job course).reports.filter Event.reported =
        (Round.mk job course).reports := by
    rcases hCourse with rfl | rfl <;> rfl
  have hOpen :
      Event.lastFinished? (Round.mk job course).reports =
        none := by
    rcases hCourse with rfl | rfl <;> rfl
  { reports := by
      rw [List.flatMap_append, ← h.reports, Queue.reports,
        List.filter_append, hReports]
      simp [Queue.reports]
    closed := by
      rw [List.dropLast_concat]
      exact h.over hIdle
    flight := by
      intro other
      rw [List.getLast?_concat]
      rcases hCourse with rfl | rfl <;> simp [Round.phase]
    jobs := by
      rw [Move.taken_append, Move.takes, hNewest, ← h.jobs]
      simp
    ascending := by
      rw [List.map_append]
      refine
        List.pairwise_append.mpr
          ⟨h.ascending, List.pairwise_singleton _ _, ?_⟩
      intro earlier hEarlier later hLater
      rw [List.mem_singleton.mp hLater]
      exact h.older job hWaiting earlier hEarlier
    calls := by
      have hCalls := h.calls
      rw [Queue.calls, hIdle] at hCalls
      rw [List.flatMap_append, ← hCalls, Queue.calls]
      rcases hCourse with rfl | rfl <;>
        simp [Round.phase, Round.reports, Round.calls,
          Phase.calls, Event.delivered?]
    skips := by
      intro before round after hSplit
      rcases split_concat hSplit with
        ⟨rfl, rfl⟩ | ⟨rest, hRest⟩
      · rw [hSkips, h.compiled, h.reports]
      · exact h.skips before round rest hRest
    newest := by
      rw [Move.newest?_append rfl, hNewest]
      simp
    submitted := by
      rw [Move.submissions_append rfl]
      exact h.submitted
    bounded := by
      intro taken hTaken
      rw [List.map_append] at hTaken
      rcases List.mem_append.mp hTaken with hOld | hNew
      · exact h.bounded taken hOld
      · rw [List.mem_singleton.mp hNew, h.submitted]
        exact Nat.le_of_eq (Move.newest?_eq_some hNewest)
    older := by simp
    compiled := by
      rw [Queue.reports, List.filter_append, hReports,
        Event.lastFinished?_append, hOpen, Option.none_or]
      exact h.compiled }

/- The round in flight is over once there is an answer. -/
theorem Ledger.finish
    (h : Ledger moves rounds q)
    {job : Job}
    (hFlight : q.phase = .compiling job)
    (answer : Answer) :
    ∃ others,
      Ledger (moves ++ [.finish answer]) others
        { q with
          phase := .idle
          compiled :=
            if answer.isNone then
              some job.hash
            else
              q.compiled
          log :=
            q.log ++
              [.delivered job.fragment,
                job.answered answer] } := by
  rcases List.getLast?_eq_some_iff.mp
      ((h.flight job).mp hFlight) with
    ⟨front, rfl⟩
  have hJobs :
      (front ++ [Round.mk job .inFlight]).map Round.job =
        (front ++ [Round.mk job (.answered answer)]).map
          Round.job := by
    simp
  refine
    ⟨front ++ [⟨job, .answered answer⟩],
      { reports := ?_
        closed := ?_
        flight := ?_
        jobs := ?_
        ascending := hJobs ▸ h.ascending
        calls := ?_
        skips := ?_
        newest := ?_
        submitted := ?_
        bounded := hJobs ▸ h.bounded
        older := hJobs ▸ h.older
        compiled := ?_ }⟩
  · have hReports := h.reports
    rw [List.flatMap_append] at hReports ⊢
    rw [Queue.reports, List.filter_append,
      job.reported_answer]
    rw [Queue.reports] at hReports
    rw [hReports]
    simp [Round.reports]
  · have hClosed := h.closed
    rw [List.dropLast_concat] at hClosed ⊢
    exact hClosed
  · intro other
    rw [List.getLast?_concat]
    simp
  · rw [Move.taken_append, ← hJobs, h.jobs]
    exact (List.append_nil _).symm
  · have hCalls := h.calls
    rw [Queue.calls, hFlight, List.flatMap_append] at hCalls
    rw [Queue.calls, List.flatMap_append,
      List.filterMap_append, job.delivered_answer]
    exact (List.append_nil _).trans hCalls
  · intro before round after hSplit
    rcases split_concat hSplit with
      ⟨rfl, rfl⟩ | ⟨rest, rfl⟩
    · simpa using h.skips before ⟨job, .inFlight⟩ [] rfl
    · apply h.skips before round (rest ++ [⟨job, .inFlight⟩])
      simp
  · rw [Move.newest?_append rfl, ← hJobs]
    exact h.newest
  · rw [Move.submissions_append rfl]
    exact h.submitted
  · rw [Queue.reports, List.filter_append,
      job.reported_answer, Event.lastFinished?_append,
      job.lastFinished?_answered, ← Queue.reports,
      ← h.compiled]
    split
    · rfl
    · rfl

end Queue

end FractalShader

------------------------------------------------------------
-- Accounts of Runs
------------------------------------------------------------

namespace FractalShader

namespace Queue

variable {moves : List Move} {rounds : List Round}
variable {q next : Queue}

/- After every move there is an account again. -/
theorem Ledger.step
    (h : Ledger moves rounds q)
    {move : Move}
    (hMove : q.move? move = some next) :
    ∃ others, Ledger (moves ++ [move]) others next := by
  cases move with
  | submit fragment =>
      rw [← Option.some.inj hMove]
      exact ⟨rounds, h.submit fragment⟩
  | stop =>
      rw [← Option.some.inj hMove]
      exact ⟨rounds, h.quiet rfl rfl (Or.inl rfl) true⟩
  | exit =>
      rcases exit?_eq_some hMove with ⟨hIdle, hNext⟩
      rw [hNext]
      exact
        ⟨rounds,
          h.quiet rfl rfl (Or.inr ⟨hIdle, rfl⟩) q.stopping⟩
  | pickUp =>
      rcases pickUp?_eq_some hMove with
        ⟨job, course, hIdle, hWaiting, hCourse, hSkips,
          hNext⟩
      rw [hNext]
      exact
        ⟨rounds ++ [⟨job, course⟩],
          h.pickUp hIdle hWaiting hCourse hSkips⟩
  | finish answer =>
      rcases finish?_eq_some hMove with ⟨job, hFlight, hNext⟩
      rw [hNext]
      exact h.finish hFlight answer

/- There is an account of every run from the start. -/
theorem exists_ledger
    (h : run? {} moves = some q) :
    ∃ rounds, Ledger moves rounds q := by
  induction moves using List.reverseRecOn generalizing q with
  | nil =>
      rw [← Option.some.inj h]
      exact ⟨[], ledger_start⟩
  | append_singleton moves move ih =>
      rcases exists_last_of_run? h with ⟨last, hLast, hMove⟩
      rcases ih hLast with ⟨rounds, hRounds⟩
      exact hRounds.step hMove

/- An idle queue with nothing to take has nothing waiting. -/
theorem waiting_eq_none
    (hIdle : q.phase = .idle)
    (hNothing : q.pickUp? = none) :
    q.waiting = none := by
  unfold pickUp? at hNothing
  rw [hIdle] at hNothing
  cases hWaiting : q.waiting with
  | none => rfl
  | some job =>
      rw [hWaiting] at hNothing
      dsimp only at hNothing
      split at hNothing <;> simp at hNothing

/-
  The log of a run tells of rounds, each with the newest job
  at its time.  A queue that rests has dealt with the newest
  job of all, and one that stopped was idle then and has
  logged nothing since.
-/
theorem log_of_run
    (h : run? {} moves = some q) :
    (∃ rounds,
      Account moves rounds q ∧
        (q.phase = .idle →
          q.pickUp? = none →
            (rounds.map Round.job).getLast? =
              Move.newest? moves)) ∧
      ∀ before after,
        moves = before ++ .exit :: after →
          ∃ last,
            run? {} before = some last ∧
              last.phase = .idle ∧ q.log = last.log := by
  rcases exists_ledger h with ⟨rounds, hLedger⟩
  refine ⟨⟨rounds, hLedger.toAccount, ?_⟩, ?_⟩
  · intro hIdle hNothing
    have hNewest := hLedger.newest
    rw [waiting_eq_none hIdle hNothing, Option.none_or]
      at hNewest
    exact hNewest
  · rintro before after rfl
    rw [run?_append] at h
    rcases Option.bind_eq_some_iff.mp h with
      ⟨last, hLast, hRest⟩
    rcases run?_cons hRest with ⟨stopped, hExit, hAfter⟩
    rcases exit?_eq_some hExit with ⟨hIdle, hStopped⟩
    refine ⟨last, hLast, hIdle, ?_⟩
    have hPhase : stopped.phase = .stopped := by rw [hStopped]
    rw [log_of_stopped hPhase hAfter, hStopped]

/- A fragment of which only the hash matters. -/
def sampleFragment (hash : String) : Fragment where
  source := ""
  declarations := ""
  layout := []
  values := []
  hash := hash

/-
  A run in which two jobs are submitted during the first
  compilation.  The second of them is as the first job, and
  the next one fails.
-/
def sampleMoves : List Move :=
  [.submit (sampleFragment "one"), .pickUp,
    .submit (sampleFragment "two"),
    .submit (sampleFragment "one"),
    .finish none, .pickUp,
    .submit (sampleFragment "three"), .pickUp,
    .stop, .finish (some "lost"), .exit,
    .submit (sampleFragment "four")]

theorem log_of_sampleMoves :
    ∃ q,
      run? {} sampleMoves = some q ∧
        q.reports =
          [.started 1 "one", .finished 1 "one",
            .skipped 3 "one", .started 4 "three",
            .failed 4 "three" "lost"] ∧
        (∃ rounds, Account sampleMoves rounds q) ∧
        ∃ last : Queue,
          last.phase = .idle ∧ q.log = last.log := by
  have hRun : ∃ q, run? {} sampleMoves = some q := ⟨_, rfl⟩
  rcases hRun with ⟨q, hRun⟩
  rcases log_of_run hRun with
    ⟨⟨rounds, hAccount, _⟩, hStopped⟩
  have hExit :
      sampleMoves =
        sampleMoves.take 10 ++
          .exit :: [.submit (sampleFragment "four")] := rfl
  rcases hStopped _ _ hExit with ⟨last, _, hIdle, hLog⟩
  refine
    ⟨q, hRun, ?_, ⟨rounds, hAccount⟩, last, hIdle, hLog⟩
  rw [← Option.some.inj hRun]
  rfl

end Queue

end FractalShader
