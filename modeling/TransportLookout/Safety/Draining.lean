/-
Who reads the scanner's output.

No one does while the scanner is polled: `communicate` comes after the loop.  A
scanner whose output fits its two pipes never blocks, so it ends when its own work
is done, and every poll from then on sees it.  One whose output does not fit
blocks in the loop, and the loop goes on until the deadline.

There is a second way to miss a scanner that has ended.  The loop looks at the
clock after its sleep and does not poll again before, so a scanner that ends in
the iteration in which the deadline passes is timed out all the same.  Only a
deadline that leaves it one iteration more rules that out.
-/
import TransportLookout.Library.Path
import TransportLookout.Worker.Command

namespace TransportLookout

open Pipes Trace

/-- The runs of `run_command` on a scanner with `todo` to do. -/
def Commanding (p : Limits) (now : Nat) (todo : List (Option Stream)) (code : Int)
    (status : RunStatus) :
    List (Transition Command CommandAction) → Command → Prop :=
  Path (Command.step p) (Command.spawn now todo code status)

/-- The scanner is not blocked while it is only polled, and is not timed out when
its work would have been done before the deadline. -/
structure NoPipeDeadlock (p : Limits) (due : Nat) (tr : List (Transition Command CommandAction))
    (t : Command) : Prop where
  unblocked : t.line.looping = true → t.process.blocked p.capacity = false
  seen : ∀ x ∈ tr, x.pre.line.ended = false → x.post.line = .raised .timeoutExpired →
    p.deadline ≤ due

/-- An iteration of the loop looks at the clock no later than `slack` after the sleep it
has begun with. -/
def Command.paced (p : Limits) (slack : Nat) (c : Command) : CommandAction → Bool
  | .clock => c.now ≤ c.polled + p.heartbeat + slack
  | _ => true

/-! ## A scanner that fits -/

structure Command.OnTime (p : Limits) (start due : Nat) (c : Command) : Prop where
  fits : c.process.writer.Fits p.capacity
  started : start ≤ c.now
  pending : c.process.poll = none → c.now + c.process.writer.todo.length = due
  polled : c.line.inside = true → start ≤ c.polled ∧ c.polled < due

namespace Command

variable {p : Limits} {start due now : Nat} {todo : List (Option Stream)} {code : Int}
  {status : RunStatus} {c c' : Command} {a : CommandAction}

theorem onTime_spawn (hfits : ∀ f, todo.count (some f) ≤ p.capacity f) :
    (spawn now todo code status).OnTime p now (now + todo.length) where
  fits := fun f => by
    rw [Writer.volume]
    simp only [spawn, Nat.zero_add]
    exact hfits f
  started := Nat.le_refl _
  pending := fun _ => rfl
  polled := nofun

theorem OnTime.running (h : c.OnTime p start due) (hpoll : c.process.poll = none) :
    c.now < due := by
  have hlength := List.length_pos_of_ne_nil (Process.poll_eq_none.mp hpoll).2
  have hpending := h.pending hpoll
  omega

/-- What only moves on, or sends a signal, leaves the scanner on time. -/
theorem OnTime.moved (h : c.OnTime p start due) (hwriter : c'.process.writer = c.process.writer)
    (hpoll : c'.process.poll = none → c.process.poll = none) (hnow : c'.now = c.now)
    (hpolled : c'.line.inside = true → start ≤ c'.polled ∧ c'.polled < due) :
    c'.OnTime p start due where
  fits := by
    rw [hwriter]
    exact h.fits
  started := by
    rw [hnow]
    exact h.started
  pending := fun hrunning => by
    rw [hwriter, hnow]
    exact h.pending (hpoll hrunning)
  polled := hpolled

theorem OnTime.tick (h : c.OnTime p start due) :
    { c with now := c.now + 1, process := c.process.tick p.capacity }.OnTime p start due := by
  cases hpoll : c.process.poll with
  | some code =>
    have hended : c.process.ended = true := by rw [Process.ended, hpoll]; rfl
    refine ⟨?_, Nat.le_succ_of_le h.started, fun hrunning => ?_, h.polled⟩
    · dsimp only
      rw [Process.tick_ended hended]
      exact h.fits
    · have hnone := Process.running_of_tick hrunning
      rw [hpoll] at hnone
      cases hnone
  | none =>
    refine ⟨?_, Nat.le_succ_of_le h.started, fun _ => ?_, h.polled⟩
    · dsimp only
      rw [Process.tick_running hpoll]
      exact h.fits.tick
    · dsimp only
      rw [Process.tick_running hpoll]
      dsimp only
      rw [Writer.length_tick h.fits.unblocked]
      have hlength := List.length_pos_of_ne_nil (Process.poll_eq_none.mp hpoll).2
      have hpending := h.pending hpoll
      omega

theorem onTime_step (h : c.OnTime p start due) (hstep : c.step p a = some c') :
    c'.OnTime p start due := by
  cases step_cases hstep with
  | tick => exact h.tick
  | die hdie =>
    obtain ⟨-, -, hended, hwriter, -⟩ := Process.die_spec hdie
    refine h.moved hwriter (fun hrunning => ?_) rfl h.polled
    rw [Process.ended_iff.mpr hrunning] at hended
    cases hended
  | read => exact ⟨h.fits.drain, h.started, h.pending, h.polled⟩
  | running _ hpoll => exact h.moved rfl id rfl fun _ => ⟨h.started, h.running hpoll⟩
  | exited => exact h.moved rfl id rfl nofun
  | moved hline => exact h.moved rfl id rfl fun _ => h.polled hline
  | failed => exact h.moved rfl id rfl nofun
  | superseded => exact h.moved Process.writer_send (by simp) rfl nofun
  | cancel => exact h.moved Process.writer_send (by simp) rfl nofun
  | waited => exact h.moved rfl id rfl nofun
  | killed => exact h.moved Process.writer_send (by simp) rfl nofun
  | waitFailed => exact h.moved rfl id rfl nofun
  | timeout => exact h.moved Process.writer_send (by simp) rfl nofun
  | @communicated _ line _ _ hover =>
    refine h.moved rfl id rfl fun hinside => ?_
    dsimp only at hinside
    revert hover hinside
    cases line <;> nofun

theorem OnTime.unblocked (h : c.OnTime p start due) : c.process.blocked p.capacity = false := by
  rw [Process.blocked, h.fits.unblocked, Bool.and_false]

/-- A step that times the scanner out looks at a clock past the deadline. -/
theorem timeout_step (h : c.step p a = some c') (hover : c.line.ended = false)
    (hline : c'.line = .raised .timeoutExpired) :
    a = .clock ∧ c.line = .clock ∧ p.deadline ≤ c.now := by
  cases step_cases h with
  | tick | die | read =>
    rw [show c.line = .raised .timeoutExpired from hline] at hover
    cases hover
  | moved _ hnext =>
    dsimp only at hline
    subst hline
    rcases hnext with hinside | hpoll
    · cases hinside
    · cases hpoll
  | communicated _ _ _ hother => exact absurd hline hother
  | timeout hclock hexpired => exact ⟨rfl, hclock, hexpired⟩
  | _ => cases hline

/-! ## Time goes by -/

/-- Time goes by before any statement. -/
theorem exists_ticks (c : Command) (n : Nat) :
    ∃ tr, Path (step p) c tr
        { c with now := c.now + n, process := (Process.tick p.capacity)^[n] c.process } ∧
      ∀ x ∈ tr, x.act = .tick := by
  induction n with
  | zero => exact ⟨[], .nil, fun x hx => absurd hx List.not_mem_nil⟩
  | succ n ih =>
    obtain ⟨tr, hpath, hacts⟩ := ih
    have hstep : ∀ t : Command, t.step p .tick =
        some { t with now := t.now + 1, process := t.process.tick p.capacity } := by
      intro t
      unfold step
      split <;> first | rfl | simp_all
    have hlast := hpath.snoc (hstep _)
    rw [← Function.iterate_succ_apply' (Process.tick p.capacity)] at hlast
    refine ⟨_, hlast, fun x hx => ?_⟩
    rcases List.mem_append.mp hx with hx | hx
    · exact hacts x hx
    · rw [List.mem_singleton.mp hx]

theorem paced_of_ticks {slack : Nat} {tr : List (Transition Command CommandAction)}
    (h : ∀ x ∈ tr, x.act = .tick) : Along (paced p slack) tr := fun x hx => by
  rw [h x hx]
  rfl

/-- A process that ends of no signal goes on as its program does. -/
theorem process_iterate {q : Process} (h : q.endedOf = none) (n : Nat) :
    ((Process.tick p.capacity)^[n] q).endedOf = none ∧
      ((Process.tick p.capacity)^[n] q).writer = (Writer.tick p.capacity)^[n] q.writer := by
  induction n with
  | zero => exact ⟨h, rfl⟩
  | succ n ih =>
    rw [Function.iterate_succ_apply', Function.iterate_succ_apply', ← ih.2]
    exact ⟨Process.endedOf_tick.trans ih.1, Process.writer_tick ih.1⟩

/-- Until it has had the time of its instructions the scanner is running. -/
theorem running_iterate {q : Process} (h : q.endedOf = none) {n : Nat}
    (hn : n < q.writer.todo.length) : ((Process.tick p.capacity)^[n] q).poll = none := by
  obtain ⟨hended, hwriter⟩ := process_iterate (p := p) h n
  refine Process.poll_eq_none.mpr ⟨hended, ?_⟩
  rw [hwriter]
  have hlength : q.writer.todo.length ≤ ((Writer.tick p.capacity)^[n] q.writer).todo.length + n :=
    Writer.length_le_iterate n
  refine List.ne_nil_of_length_pos ?_
  omega

/-! ## A scanner that does not fit -/

/-- The command polls the scanner and sleeps, and the scanner fills a pipe. -/
theorem exists_deadlock (h : ¬∀ f, todo.count (some f) ≤ p.capacity f) (slack : Nat) :
    ∃ tr t, Commanding p now todo code status tr t ∧ Along (paced p slack) tr ∧
      t.line.looping = true ∧ t.process.blocked p.capacity = true := by
  have hfits : ¬(Writer.mk todo fun _ => 0).Fits p.capacity := by
    intro hfits
    refine h fun f => ?_
    have hroom := hfits f
    rw [Writer.volume, Nat.zero_add] at hroom
    exact hroom
  have htodo : todo ≠ [] := by
    rintro rfl
    exact h fun f => Nat.zero_le _
  have hpoll : (spawn now todo code status).step p .poll =
      some { spawn now todo code status with line := .sleep now, polled := now } := by
    have hrunning : (spawn now todo code status).process.poll = none :=
      Process.poll_eq_none.mpr ⟨rfl, htodo⟩
    rw [step.eq_def]
    dsimp only [spawn] at hrunning ⊢
    rw [hrunning]
  obtain ⟨n, hblocked⟩ := Writer.exists_blocked (fun _ => Nat.zero_le _) hfits
  obtain ⟨tr, hpath, hacts⟩ := exists_ticks (p := p)
    { spawn now todo code status with line := .sleep now, polled := now } n
  refine ⟨_, _, (Path.single hpoll).trans hpath, fun x hx => ?_, rfl, ?_⟩
  · rcases List.mem_append.mp hx with hx | hx
    · rw [List.mem_singleton.mp hx]
      rfl
    · exact paced_of_ticks hacts x hx
  · obtain ⟨hended, hwriter⟩ := process_iterate (p := p)
      (q := (spawn now todo code status).process) rfl n
    refine Process.blocked_of_writer hended ?_
    rw [hwriter]
    exact hblocked

/-! ## A deadline too soon -/

/-- The statements of an iteration, once it has slept. -/
theorem exists_clock {c : Command} (hline : c.line = .sleep c.polled)
    (hslept : c.polled + p.heartbeat ≤ c.now) (slack : Nat) :
    ∃ tr, Path (step p) c tr { c with status := .running, line := .clock } ∧
      Along (paced p slack) tr := by
  have hrun : runWhile (step p) (paced p slack) c
      [.wake, .refresh (.ok .running), .ownership (.ok true), .heartbeat none, .commit none,
        .status] = some { c with status := .running, line := .clock } := by
    simp [runWhile, paced, step, hline, hslept]
  obtain ⟨tr, hpath, halong, -⟩ := Path.of_runWhile hrun
  exact ⟨tr, hpath, halong⟩

/-- The command polls the scanner just before it is due, and the deadline passes in that
iteration. -/
theorem exists_timeout {slack : Nat} (htodo : todo ≠ [])
    (hexpired : p.deadline < now + todo.length + p.heartbeat + slack) :
    ∃ tr t, Commanding p now todo code status tr t ∧ Along (paced p slack) tr ∧
      ∃ x ∈ tr, x.pre.line.ended = false ∧ x.post.line = .raised .timeoutExpired := by
  have hpos : 0 < todo.length := List.length_pos_of_ne_nil htodo
  obtain ⟨tr₁, hticks₁, hacts₁⟩ := exists_ticks (p := p) (spawn now todo code status)
    (todo.length - 1)
  let c : Command := { spawn now todo code status with
    now := now + (todo.length - 1)
    process := (Process.tick p.capacity)^[todo.length - 1] (spawn now todo code status).process }
  have hpoll : c.step p .poll = some { c with line := .sleep c.now, polled := c.now } := by
    have hrunning : c.process.poll = none :=
      running_iterate rfl (Nat.sub_lt hpos Nat.one_pos)
    rw [step.eq_def]
    dsimp only [c, spawn] at hrunning ⊢
    rw [hrunning]
  obtain ⟨tr₂, hticks₂, hacts₂⟩ := exists_ticks (p := p)
    { c with line := .sleep c.now, polled := c.now } (p.heartbeat + slack)
  obtain ⟨tr₃, hclock, hpaced⟩ := exists_clock (p := p)
    (c := { c with
      line := .sleep c.now
      polled := c.now
      now := c.now + (p.heartbeat + slack)
      process := (Process.tick p.capacity)^[p.heartbeat + slack] c.process })
    rfl (Nat.add_le_add_left (Nat.le_add_right _ _) _) slack
  have hpath := ((hticks₁.snoc hpoll).trans hticks₂).trans hclock
  have hlate : p.deadline ≤ c.now + (p.heartbeat + slack) := by
    show p.deadline ≤ now + (todo.length - 1) + (p.heartbeat + slack)
    omega
  refine ⟨_, _, hpath.snoc (a := .clock) (by rw [step.eq_def]; exact if_pos hlate), ?_,
    _, List.mem_append_right _ (List.mem_singleton_self _), rfl, rfl⟩
  intro x hx
  simp only [List.mem_append, List.mem_singleton] at hx
  rcases hx with (((hx | rfl) | hx) | hx) | rfl
  · exact paced_of_ticks hacts₁ x hx
  · rfl
  · exact paced_of_ticks hacts₂ x hx
  · exact hpaced x hx
  · exact decide_eq_true (Nat.le_of_eq (Nat.add_assoc _ _ _).symm)

end Command

/-! ## Runs -/

section
variable {p : Limits} {now : Nat} {todo : List (Option Stream)} {code : Int} {status : RunStatus}
  {tr : List (Transition Command CommandAction)} {t : Command}

theorem onTime_run (hfits : ∀ f, todo.count (some f) ≤ p.capacity f)
    (h : Commanding p now todo code status tr t) : t.OnTime p now (now + todo.length) :=
  h.invariant (I := Command.OnTime p now (now + todo.length)) (C := fun _ _ => true)
    (Command.onTime_spawn hfits) (fun _ _ _ hc _ hstep => Command.onTime_step hc hstep)
    fun _ _ => rfl

theorem onTime_at (hfits : ∀ f, todo.count (some f) ≤ p.capacity f)
    (h : Commanding p now todo code status tr t) {x : Transition Command CommandAction}
    (hx : x ∈ tr) : x.pre.OnTime p now (now + todo.length) := by
  obtain ⟨_, _, -, hpre, -, -⟩ := h.split_of_mem hx
  exact onTime_run hfits hpre

/-- A scanner that fits is timed out only when it is due less than an iteration before the
deadline. -/
theorem late_of_timeout {slack : Nat} (hfits : ∀ f, todo.count (some f) ≤ p.capacity f)
    (h : Commanding p now todo code status tr t) (hpaced : Along (Command.paced p slack) tr)
    {x : Transition Command CommandAction} (hx : x ∈ tr) (hover : x.pre.line.ended = false)
    (hline : x.post.line = .raised .timeoutExpired) :
    todo ≠ [] ∧ p.deadline < now + todo.length + p.heartbeat + slack := by
  obtain ⟨hact, hclock, hexpired⟩ := Command.timeout_step (h.step_of_mem hx) hover hline
  have htime := onTime_at hfits h hx
  have hpolled := htime.polled (by rw [hclock]; rfl)
  have hpace := hpaced x hx
  rw [hact, Command.paced, decide_eq_true_eq] at hpace
  refine ⟨fun hempty => ?_, by omega⟩
  rw [hempty, List.length_nil] at hpolled
  omega

end

end TransportLookout
