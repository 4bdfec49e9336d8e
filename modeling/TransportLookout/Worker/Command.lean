/-
`run_command` and the scanner it starts.

The command stands before one of its statements, and a statement that asks the
database or waits takes what comes of it as an argument: a value, or the error
it raises.  Time goes by between any two statements, in units of the scanner's own
time, and the scanner does its work meanwhile.  Its two pipes are read by
`communicate` alone.  A process that was sent a signal may end of it at any later
moment, or end by itself before.
-/
import TransportLookout.Library.Pipe
import TransportLookout.Worker

namespace TransportLookout

open Pipes

inductive Stream
  | stdout | stderr
deriving DecidableEq, Repr

inductive Signal
  | terminate | kill
deriving DecidableEq, Repr

def Signal.number : Signal → Int
  | .terminate => 15
  | .kill => 9

/-- A `Popen` object and its process.  The process ends with `code` unless it ends of a
signal. -/
structure Process where
  writer : Writer Stream
  code : Int
  signal : Option Signal := none
  endedOf : Option Signal := none

namespace Process

variable (capacity : Stream → Nat) (p : Process)

def poll : Option Int :=
  match p.endedOf with
  | some signal => some (-signal.number)
  | none => if p.writer.todo = [] then some p.code else none

/-- `terminate` and `kill` do nothing once the process has ended. -/
def send (signal : Signal) : Process :=
  if p.poll.isSome then p else { p with signal := some signal }

def die : Option Process :=
  if p.poll.isSome then none else p.signal.map fun signal => { p with endedOf := some signal }

def tick : Process :=
  if p.poll.isSome then p else { p with writer := p.writer.tick capacity }

def read : Process := { p with writer := p.writer.drain }

/-- The scanner waits for room in a pipe. -/
def blocked : Bool := p.poll.isNone && p.writer.blocked capacity

def ended : Bool := p.poll.isSome

/-- It has ended, or been sent a signal. -/
def handled : Bool := p.ended || p.signal.isSome

end Process

inductive Raised
  | leaseSuperseded
  | timeoutExpired
  | calledProcessError (returncode : Int)
  | other (error : String)
deriving DecidableEq, Repr

/-- The statement the command stands before. -/
inductive Line
  | poll
  | sleep (since : Nat)
  | refresh
  | ownership
  | heartbeat
  | commit
  | status
  | wait (since : Nat)
  | clock
  | communicate
  | returned
  | raised (e : Raised)
deriving DecidableEq, Repr

/-- Inside the body of the loop, before the `if` that breaks out of it. -/
def Line.inside : Line → Bool
  | .sleep _ | .refresh | .ownership | .heartbeat | .commit | .status | .clock => true
  | _ => false

/-- In the loop, where the process is only polled. -/
def Line.looping : Line → Bool
  | .poll | .wait _ => true
  | l => l.inside

def Line.ended : Line → Bool
  | .returned | .raised _ => true
  | _ => false

/-- The statements whose errors leave the loop as they are. -/
def Line.unguarded : Line → Bool
  | .refresh | .ownership | .heartbeat | .commit => true
  | _ => false

/-- What a command is given: the room of a pipe, `worker_heartbeat_seconds`,
`scan_cancel_grace_seconds` and the deadline of the execution. -/
structure Limits where
  capacity : Stream → Nat
  heartbeat : Nat
  grace : Nat
  deadline : Nat

/-- `polled` is when the scanner was last found running. -/
structure Command where
  process : Process
  now : Nat
  polled : Nat := 0
  line : Line := .poll
  status : RunStatus := .running
  cancelled : Bool := false

inductive CommandAction
  | tick
  | die
  | read
  | poll
  | wake
  | refresh (result : Except String RunStatus)
  | ownership (result : Except String Bool)
  | heartbeat (error : Option String)
  | commit (error : Option String)
  | status
  | wait (error : Option String)
  | clock
  | communicate (error : Option String)

/-- One of the four statements raises. -/
def CommandAction.fails : CommandAction → Bool
  | .refresh (.error _) | .ownership (.error _) | .heartbeat (some _) | .commit (some _) => true
  | _ => false

namespace Command

/-- `subprocess.Popen`, for a scanner with `todo` to do. -/
def spawn (now : Nat) (todo : List (Option Stream)) (code : Int) (status : RunStatus) : Command :=
  { process := { writer := { todo := todo }, code := code }, now := now, status := status }

def raise (c : Command) (error : String) : Command := { c with line := .raised (.other error) }

def step (p : Limits) (c : Command) (a : CommandAction) : Option Command :=
  match c.line, a with
  | _, .tick => some { c with now := c.now + 1, process := c.process.tick p.capacity }
  | _, .die => c.process.die.map fun process => { c with process := process }
  | .communicate, .read => some { c with process := c.process.read }
  | .poll, .poll =>
    match c.process.poll with
    | none => some { c with line := .sleep c.now, polled := c.now }
    | some _ => some { c with line := .communicate }
  | .sleep since, .wake =>
    if since + p.heartbeat ≤ c.now then some { c with line := .refresh } else none
  | .refresh, .refresh (.ok status) => some { c with status := status, line := .ownership }
  | .refresh, .refresh (.error e) => some (c.raise e)
  | .ownership, .ownership (.ok true) => some { c with line := .heartbeat }
  | .ownership, .ownership (.ok false) =>
    some { c with process := c.process.send .terminate, line := .raised .leaseSuperseded }
  | .ownership, .ownership (.error e) => some (c.raise e)
  | .heartbeat, .heartbeat none => some { c with line := .commit }
  | .heartbeat, .heartbeat (some e) => some (c.raise e)
  | .commit, .commit none => some { c with line := .status }
  | .commit, .commit (some e) => some (c.raise e)
  | .status, .status =>
    if c.status = .cancelled then
      some { c with
        cancelled := true
        process := c.process.send .terminate
        line := .wait c.now }
    else some { c with line := .clock }
  | .wait since, .wait none =>
    if c.process.ended then some { c with line := .communicate }
    else if since + p.grace ≤ c.now then
      some { c with process := c.process.send .kill, line := .communicate }
    else none
  | .wait _, .wait (some e) => some (c.raise e)
  | .clock, .clock =>
    if p.deadline ≤ c.now then
      some { c with process := c.process.send .kill, line := .raised .timeoutExpired }
    else some { c with line := .poll }
  | .communicate, .communicate error =>
    -- `communicate` waits for the process before it decodes what it has read
    match c.process.poll, error with
    | none, _ => none
    | some _, some e => some (c.raise e)
    | some code, none =>
      if c.cancelled || code = 0 then some { c with line := .returned }
      else some { c with line := .raised (.calledProcessError code) }
  | _, _ => none

/-- The steps of a command, with what each requires. -/
inductive Step (p : Limits) (c : Command) : CommandAction → Command → Prop
  | tick : Step p c .tick { c with now := c.now + 1, process := c.process.tick p.capacity }
  | die {process} (hdie : c.process.die = some process) :
      Step p c .die { c with process := process }
  | read (hline : c.line = .communicate) : Step p c .read { c with process := c.process.read }
  | running (hline : c.line = .poll) (hpoll : c.process.poll = none) :
      Step p c .poll { c with line := .sleep c.now, polled := c.now }
  | exited (hline : c.line = .poll) (hended : c.process.ended = true) :
      Step p c .poll { c with line := .communicate }
  | moved {a line status} (hline : c.line.inside = true)
      (hnext : line.inside = true ∨ line = .poll) (hclock : a = .clock → c.now < p.deadline)
      (ha : a.fails = false) : Step p c a { c with status := status, line := line }
  | failed {a e} (hline : c.line.unguarded = true) (ha : a.fails = true) : Step p c a (c.raise e)
  | superseded (hline : c.line = .ownership) :
      Step p c (.ownership (.ok false))
        { c with process := c.process.send .terminate, line := .raised .leaseSuperseded }
  | cancel (hline : c.line = .status) (hstatus : c.status = .cancelled) :
      Step p c .status { c with
        cancelled := true
        process := c.process.send .terminate
        line := .wait c.now }
  | waited {since} (hline : c.line = .wait since) (hended : c.process.ended = true) :
      Step p c (.wait none) { c with line := .communicate }
  | killed {since} (hline : c.line = .wait since) (hgrace : since + p.grace ≤ c.now) :
      Step p c (.wait none) { c with process := c.process.send .kill, line := .communicate }
  | waitFailed {since e} (hline : c.line = .wait since) : Step p c (.wait (some e)) (c.raise e)
  | timeout (hline : c.line = .clock) (hexpired : p.deadline ≤ c.now) :
      Step p c .clock
        { c with process := c.process.send .kill, line := .raised .timeoutExpired }
  | communicated {error line} (hline : c.line = .communicate) (hended : c.process.ended = true)
      (hover : line.ended = true) (hline' : line ≠ .raised .timeoutExpired) :
      Step p c (.communicate error) { c with line := line }

variable {p : Limits} {c c' : Command} {a : CommandAction}

theorem step_cases (h : c.step p a = some c') : Step p c a c' := by
  unfold step at h
  split at h
  · cases h
    exact .tick
  · obtain ⟨process, hdie, rfl⟩ := Option.map_eq_some_iff.mp h
    exact .die hdie
  · next hline =>
    cases h
    exact .read hline
  · next hline =>
    split at h
    · next hpoll =>
      cases h
      exact .running hline hpoll
    · next hpoll =>
      cases h
      exact .exited hline (by rw [Process.ended, hpoll]; rfl)
  · next hline =>
    split at h
    · cases h
      exact .moved (by rw [hline]; rfl) (Or.inl rfl) nofun rfl
    · cases h
  · next hline =>
    cases h
    exact .moved (by rw [hline]; rfl) (Or.inl rfl) nofun rfl
  · next hline =>
    cases h
    exact .failed (by rw [hline]; rfl) rfl
  · next hline =>
    cases h
    exact .moved (by rw [hline]; rfl) (Or.inl rfl) nofun rfl
  · next hline =>
    cases h
    exact .superseded hline
  · next hline =>
    cases h
    exact .failed (by rw [hline]; rfl) rfl
  · next hline =>
    cases h
    exact .moved (by rw [hline]; rfl) (Or.inl rfl) nofun rfl
  · next hline =>
    cases h
    exact .failed (by rw [hline]; rfl) rfl
  · next hline =>
    cases h
    exact .moved (by rw [hline]; rfl) (Or.inl rfl) nofun rfl
  · next hline =>
    cases h
    exact .failed (by rw [hline]; rfl) rfl
  · next hline =>
    split at h
    · next hstatus =>
      cases h
      exact .cancel hline hstatus
    · cases h
      exact .moved (by rw [hline]; rfl) (Or.inl rfl) nofun rfl
  · next hline =>
    split at h
    · next hended =>
      cases h
      exact .waited hline hended
    · split at h
      · next hgrace =>
        cases h
        exact .killed hline hgrace
      · cases h
  · next hline =>
    cases h
    exact .waitFailed hline
  · next hline =>
    split at h
    · next hexpired =>
      cases h
      exact .timeout hline hexpired
    · next hearly =>
      cases h
      exact .moved (by rw [hline]; rfl) (Or.inr rfl) (fun _ => Nat.lt_of_not_le hearly) rfl
  · next hline =>
    split at h
    · cases h
    · next hpoll =>
      cases h
      exact .communicated hline (by rw [Process.ended, hpoll]; rfl) rfl nofun
    · next hpoll =>
      have hended : c.process.ended = true := by
        rw [Process.ended, hpoll]
        rfl
      split at h
      · cases h
        exact .communicated hline hended rfl nofun
      · cases h
        exact .communicated hline hended rfl nofun
  · cases h

end Command

/-! ## The process -/

namespace Process

variable {capacity : Stream → Nat} {p q : Process} {signal : Signal}

theorem ended_iff : p.ended = false ↔ p.poll = none := by
  rw [ended, Option.isSome_eq_false_iff, Option.isNone_iff_eq_none]

theorem poll_eq_none : p.poll = none ↔ p.endedOf = none ∧ p.writer.todo ≠ [] := by
  rw [poll]
  split
  · next hended => simp [hended]
  · next hended => simp [hended]

@[simp] theorem writer_send : (p.send signal).writer = p.writer := by
  rw [send]
  split <;> rfl

@[simp] theorem poll_send : (p.send signal).poll = p.poll := by
  rw [send]
  split <;> rfl

@[simp] theorem signal_tick : (p.tick capacity).signal = p.signal := by
  rw [tick]
  split <;> rfl

theorem tick_running (h : p.poll = none) :
    p.tick capacity = { p with writer := p.writer.tick capacity } := by
  rw [tick, h]
  rfl

theorem tick_ended (h : p.ended = true) : p.tick capacity = p := if_pos h

@[simp] theorem endedOf_tick : (p.tick capacity).endedOf = p.endedOf := by
  rw [tick]
  split <;> rfl

/-- A process that ends of no signal goes on as its program does. -/
theorem writer_tick (h : p.endedOf = none) :
    (p.tick capacity).writer = p.writer.tick capacity := by
  cases hpoll : p.poll with
  | none => rw [tick_running hpoll]
  | some code =>
    have htodo : p.writer.todo = [] := by
      by_contra hne
      rw [poll_eq_none.mpr ⟨h, hne⟩] at hpoll
      cases hpoll
    rw [tick_ended (by rw [ended, hpoll]; rfl), Writer.tick_nil htodo]

theorem blocked_of_writer (h : p.endedOf = none) (hblocked : p.writer.blocked capacity = true) :
    p.blocked capacity = true := by
  obtain ⟨f, todo, htodo, -⟩ := Writer.blocked_iff.mp hblocked
  have hpoll : p.poll = none := poll_eq_none.mpr ⟨h, by rw [htodo]; exact List.cons_ne_nil _ _⟩
  rw [blocked, hpoll, hblocked]
  rfl

theorem running_of_tick (h : (p.tick capacity).poll = none) : p.poll = none := by
  by_cases hended : p.ended = true
  · rw [tick_ended hended] at h
    exact h
  · exact ended_iff.mp (Bool.eq_false_iff.mpr hended)

/-- What has ended has been sent a signal, or has come to its own end. -/
theorem die_spec (h : p.die = some q) :
    p.poll = none ∧ p.signal.isSome = true ∧ q.ended = true ∧ q.writer = p.writer ∧
      q.signal = p.signal := by
  rw [die] at h
  split at h
  · cases h
  · next hrunning =>
    obtain ⟨signal, hsignal, rfl⟩ := Option.map_eq_some_iff.mp h
    refine ⟨?_, by rw [hsignal]; rfl, rfl, rfl, rfl⟩
    exact ended_iff.mp (Bool.eq_false_iff.mpr hrunning)

theorem handled_send : (p.send signal).handled = true := by
  rw [handled, ended, poll_send, send]
  split
  · next hended => rw [hended, Bool.true_or]
  · exact Bool.or_true _

theorem handled_of_ended (h : p.ended = true) : p.handled = true := by
  rw [handled, h, Bool.true_or]

theorem ended_tick (h : p.ended = true) : (p.tick capacity).ended = true := by
  rw [tick_ended h]
  exact h

theorem handled_tick (h : p.handled = true) : (p.tick capacity).handled = true := by
  rw [handled, Bool.or_eq_true] at h ⊢
  rcases h with hended | hsignal
  · exact Or.inl (ended_tick hended)
  · rw [signal_tick]
    exact Or.inr hsignal

end Process

/-! ## The commands of an execution -/

/-- Where the `try` statement of `execute_shard` stands. -/
inductive Place
  | before (stage : Stage)
  | inside (stage : Stage) (c : Command)
  | after (stage : Stage)
  | handler
  | ended

/-- An execution from its `try` statement on.  `started` are the processes of the
commands that have returned or raised. -/
structure Attempt where
  place : Place
  now : Nat
  status : RunStatus
  cancelled : Bool := false
  started : List Process := []

inductive AttemptAction
  | tick
  | die (n : Nat)
  | spawn (todo : List (Option Stream)) (code : Int)
  | spawnFails
  | command (a : CommandAction)
  | next
  | fail
  | finish
  | leave

def AttemptAction.fails : AttemptAction → Bool
  | .command a => a.fails
  | .tick | .die _ | .spawn _ _ | .spawnFails | .next | .fail | .finish | .leave => false

namespace Attempt

/-- `execute_shard` has returned or propagated an exception. -/
def ended (s : Attempt) : Bool :=
  match s.place with
  | .ended => true
  | _ => false

/-- The processes the execution has started. -/
def processes (s : Attempt) : List Process :=
  match s.place with
  | .inside _ c => s.started ++ [c.process]
  | _ => s.started

def start (stage : Stage) (now : Nat) (status : RunStatus) : Attempt :=
  { place := .before stage, now := now, status := status }

/-- The command has come to an end, or goes on. -/
def resume (s : Attempt) (stage : Stage) (c : Command) : Attempt :=
  match c.line with
  | .returned =>
    { s with
      place := .after stage
      status := c.status
      cancelled := c.cancelled
      started := s.started ++ [c.process] }
  | .raised _ => { s with place := .handler, started := s.started ++ [c.process] }
  | _ => { s with place := .inside stage c }

def step (p : Limits) (s : Attempt) (a : AttemptAction) : Option Attempt :=
  match s.place, a with
  | .inside stage c, .tick =>
    (c.step p .tick).map fun c' => { s with
      place := .inside stage c'
      now := s.now + 1
      started := s.started.map fun q => q.tick p.capacity }
  | _, .tick =>
    some { s with now := s.now + 1, started := s.started.map fun q => q.tick p.capacity }
  | _, .die n =>
    (s.started[n]?).bind fun q => q.die.map fun q' => { s with started := s.started.set n q' }
  | .before stage, .spawn todo code =>
    some { s with place := .inside stage (Command.spawn s.now todo code s.status) }
  | .before _, .spawnFails => some { s with place := .handler }
  | .inside _ _, .command .tick => none
  | .inside stage c, .command a => (c.step p a).map fun c' => s.resume stage c'
  -- the first stage was not cancelled and has found open ports
  | .after .masscan, .next => if s.cancelled then none else some { s with place := .before .nmap }
  -- a check of the lease, a parser, the artifact store, an audit or a query raises
  | .after _, .fail => some { s with place := .handler }
  | .after _, .finish => some { s with place := .ended }
  -- the handler and the `finally` clause, whether the exception is propagated or not
  | .handler, .leave => some { s with place := .ended }
  | _, _ => none

end Attempt

end TransportLookout
