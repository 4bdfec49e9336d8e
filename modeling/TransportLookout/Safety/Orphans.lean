/-
Scanners that outlive their execution.

The loop signals its scanner when the lease is lost, when the run is cancelled and
when the deadline has passed.  An error of one of its four statements (the
refresh, the ownership query, the heartbeat and its commit) leaves the loop as it
is, and neither the handler nor the `finally` clause has the process at hand.
-/
import TransportLookout.Library.Path
import TransportLookout.Worker.Command

namespace TransportLookout

open Pipes Trace

/-- Every scanner the execution has started has ended or has been sent a signal. -/
def Attempt.NoOrphan (s : Attempt) : Prop := ∀ q ∈ s.processes, q.handled = true

/-! ## A command -/

namespace Command

/-- Before its break the loop has sent no signal, and it waits for a process that it has
signalled. -/
structure Guarded (c : Command) : Prop where
  fresh : c.line = .poll ∨ c.line.inside = true → c.process.signal = none
  waiting : ∀ since, c.line = .wait since → c.process.handled = true

variable {p : Limits} {c c' : Command} {a : CommandAction}

theorem guarded_spawn (now : Nat) (todo : List (Option Stream)) (code : Int)
    (status : RunStatus) : (spawn now todo code status).Guarded :=
  ⟨fun _ => rfl, nofun⟩

theorem guarded_step (hg : c.Guarded) (h : c.step p a = some c') (hover : c'.line.ended = false) :
    c'.Guarded := by
  cases step_cases h with
  | tick =>
    exact ⟨fun hline => Process.signal_tick.trans (hg.fresh hline),
      fun since hline => Process.handled_tick (hg.waiting since hline)⟩
  | die hdie =>
    obtain ⟨-, -, hended, -, hsignal⟩ := Process.die_spec hdie
    exact ⟨fun hline => hsignal.trans (hg.fresh hline),
      fun _ _ => Process.handled_of_ended hended⟩
  | read hline => exact ⟨fun hnext => hg.fresh hnext, fun since hnext => hg.waiting since hnext⟩
  | running hline _ => exact ⟨fun _ => hg.fresh (Or.inl hline), nofun⟩
  | exited | waited | killed => exact ⟨by simp [Line.inside], nofun⟩
  | @moved _ line _ hline hnext _ _ =>
    refine ⟨fun _ => hg.fresh (Or.inr hline), fun since hwait => ?_⟩
    dsimp only at hwait
    subst hwait
    rcases hnext with hinside | hpoll
    · cases hinside
    · cases hpoll
  | cancel => exact ⟨by simp [Line.inside], fun _ _ => Process.handled_send⟩
  | failed | superseded | waitFailed | timeout => cases hover
  | communicated _ _ hends =>
    dsimp only at hover
    rw [hends] at hover
    cases hover

/-- A command that comes to an end leaves its process handled, or alone when one of the four
statements has raised. -/
theorem ended_step (hg : c.Guarded) (h : c.step p a = some c') (hline : c.line.ended = false)
    (hover : c'.line.ended = true) :
    (a.fails = false ∧ c'.process.handled = true) ∨
      (a.fails = true ∧ c'.line ≠ .returned ∧ c'.process.signal = none) := by
  cases step_cases h with
  | tick | die | read =>
    dsimp only at hover
    rw [hline] at hover
    cases hover
  | running | exited | cancel | waited | killed => cases hover
  | @moved _ line _ _ hnext _ _ =>
    rcases hnext with hinside | rfl
    · revert hover hinside
      cases line <;> nofun
    · cases hover
  | failed hunguarded ha =>
    refine Or.inr ⟨ha, nofun, hg.fresh (Or.inr ?_)⟩
    revert hunguarded
    cases c.line <;> simp [Line.unguarded, Line.inside]
  | superseded => exact Or.inl ⟨rfl, Process.handled_send⟩
  | waitFailed hwait => exact Or.inl ⟨rfl, hg.waiting _ hwait⟩
  | timeout => exact Or.inl ⟨rfl, Process.handled_send⟩
  | communicated _ hended => exact Or.inl ⟨rfl, Process.handled_of_ended hended⟩

end Command

/-! ## An execution -/

namespace Attempt

/-- The scanners of the commands that are over have been handled.  When one of the four
statements has raised there are no more commands, and the last scanner has been left alone. -/
structure Tended (failed : Bool) (s : Attempt) : Prop where
  inside : ∀ stage c, s.place = .inside stage c → c.line.ended = false ∧ c.Guarded
  handled : failed = false → ∀ q ∈ s.started, q.handled = true
  abandoned : failed = true → (s.place = .handler ∨ s.place = .ended) ∧
    ∃ front q, s.started = front ++ [q] ∧ (∀ q' ∈ front, q'.handled = true) ∧ q.signal = none

variable {p : Limits} {s s' : Attempt} {a : AttemptAction} {failed : Bool}

theorem tended_start (stage : Stage) (now : Nat) (status : RunStatus) :
    (start stage now status).Tended false where
  inside := fun _ _ hc => by cases hc
  handled := fun _ _ hq => absurd hq List.not_mem_nil
  abandoned := nofun

/-- A step outside a command that leaves the scanners alone. -/
theorem Tended.moved (h : s.Tended failed) (hstarted : s'.started = s.started)
    (hinside : ∀ stage c, s'.place = .inside stage c → c.line.ended = false ∧ c.Guarded)
    (hplace : failed = true → s'.place = .handler ∨ s'.place = .ended) : s'.Tended failed where
  inside := hinside
  handled := fun hfailed => by
    rw [hstarted]
    exact h.handled hfailed
  abandoned := fun hfailed => by
    rw [hstarted]
    exact ⟨hplace hfailed, (h.abandoned hfailed).2⟩

theorem Tended.not_failed (h : s.Tended failed) (hhandler : s.place ≠ .handler)
    (hover : s.place ≠ .ended) : failed = false := by
  refine Bool.eq_false_iff.mpr fun hfailed => ?_
  rcases (h.abandoned hfailed).1 with hplace | hplace
  · exact hhandler hplace
  · exact hover hplace

/-- Time goes by for the scanners that are left. -/
theorem Tended.ticked (h : s.Tended failed)
    (hstarted : s'.started = s.started.map fun q => q.tick p.capacity)
    (hinside : ∀ stage c, s'.place = .inside stage c → c.line.ended = false ∧ c.Guarded)
    (hplace : failed = true → s'.place = .handler ∨ s'.place = .ended) : s'.Tended failed where
  inside := hinside
  handled := fun hfailed q hq => by
    rw [hstarted] at hq
    obtain ⟨q₀, hq₀, rfl⟩ := List.mem_map.mp hq
    exact Process.handled_tick (h.handled hfailed q₀ hq₀)
  abandoned := fun hfailed => by
    obtain ⟨-, front, q, hfront, hhandled, hsignal⟩ := h.abandoned hfailed
    refine ⟨hplace hfailed, front.map fun q => q.tick p.capacity, q.tick p.capacity, ?_, ?_, ?_⟩
    · rw [hstarted, hfront, List.map_append]
      rfl
    · intro q' hq'
      obtain ⟨q₀, hq₀, rfl⟩ := List.mem_map.mp hq'
      exact Process.handled_tick (hhandled q₀ hq₀)
    · exact Process.signal_tick.trans hsignal

/-- One of the scanners that are left ends of the signal it was sent. -/
theorem Tended.died (h : s.Tended failed) {n : Nat} {q q' : Process} (hq : s.started[n]? = some q)
    (hdie : q.die = some q') :
    ({ s with started := s.started.set n q' } : Attempt).Tended failed where
  inside := h.inside
  handled := fun hfailed x hx => by
    rcases List.mem_or_eq_of_mem_set hx with hold | rfl
    · exact h.handled hfailed x hold
    · exact Process.handled_of_ended (Process.die_spec hdie).2.2.1
  abandoned := fun hfailed => by
    obtain ⟨hplace, front, last, hfront, hhandled, hsignal⟩ := h.abandoned hfailed
    obtain ⟨-, hsent, hended, -, -⟩ := Process.die_spec hdie
    have hn : n < front.length := by
      by_contra hge
      -- the last scanner has been sent nothing
      have hlast : q = last := by
        have hlt := (List.getElem?_eq_some_iff.mp hq).1
        rw [hfront, List.length_append, List.length_singleton] at hlt
        have heq : n = front.length := by omega
        rw [hfront, heq, List.getElem?_concat_length] at hq
        exact (Option.some.inj hq).symm
      rw [hlast, hsignal] at hsent
      cases hsent
    refine ⟨hplace, front.set n q', last, ?_, ?_, hsignal⟩
    · dsimp only
      rw [hfront, List.set_append_left _ _ hn]
    · intro x hx
      rcases List.mem_or_eq_of_mem_set hx with hold | rfl
      · exact hhandled x hold
      · exact Process.handled_of_ended hended

/-- A command that is over leaves its process among those of the execution. -/
theorem tended_resume (h : s.Tended false) {stage : Stage} {c c' : Command} {b : CommandAction}
    (hplace : s.place = .inside stage c) (hstep : c.step p b = some c') :
    (s.resume stage c').Tended b.fails := by
  obtain ⟨hline, hguarded⟩ := h.inside stage c hplace
  by_cases hover : c'.line.ended = true
  · have hends := Command.ended_step hguarded hstep hline hover
    -- both ends of a command add its process to those that are left
    have hends' : ∀ place status cancelled, (∀ stage c, place ≠ .inside stage c) →
        (b.fails = true → place = .handler) →
        ({ s with
            place := place
            status := status
            cancelled := cancelled
            started := s.started ++ [c'.process] } : Attempt).Tended b.fails := by
      intro place status cancelled hout hhandler
      refine ⟨fun stage c hc => absurd hc (hout stage c), fun hfailed => ?_, fun hfailed => ?_⟩
      · refine List.forall_mem_append.mpr ⟨h.handled rfl, List.forall_mem_singleton.mpr ?_⟩
        rcases hends with ⟨-, hhandled⟩ | ⟨ha, -⟩
        · exact hhandled
        · rw [hfailed] at ha
          cases ha
      · refine ⟨Or.inl (hhandler hfailed), s.started, c'.process, rfl, h.handled rfl, ?_⟩
        rcases hends with ⟨ha, -⟩ | ⟨-, -, hsignal⟩
        · rw [hfailed] at ha
          cases ha
        · exact hsignal
    unfold resume
    split
    · next hreturned =>
      refine hends' _ _ _ (fun _ _ hc => by cases hc) fun hfailed => ?_
      rcases hends with ⟨ha, -⟩ | ⟨-, hne, -⟩
      · rw [hfailed] at ha
        cases ha
      · exact absurd hreturned hne
    · exact hends' _ _ _ (fun _ _ hc => by cases hc) fun _ => rfl
    · next hreturned hraised =>
      revert hover
      cases hc : c'.line with
      | returned => exact absurd hc hreturned
      | raised e => exact absurd hc (hraised e)
      | _ => nofun
  · have hgoes : c'.line.ended = false := Bool.eq_false_iff.mpr hover
    have hb : b.fails = false := by
      refine Bool.eq_false_iff.mpr fun hfails => ?_
      cases Command.step_cases hstep with
      | failed => cases hgoes
      | moved _ _ _ hok =>
        rw [hfails] at hok
        cases hok
      | _ => cases hfails
    have hsame : s.resume stage c' = { s with place := .inside stage c' } := by
      unfold resume
      split
      · next hreturned =>
        rw [hreturned] at hgoes
        cases hgoes
      · next hraised =>
        rw [hraised] at hgoes
        cases hgoes
      · rfl
    rw [hsame, hb]
    refine h.moved rfl (fun stage' c₁ hc => ?_) nofun
    cases hc
    exact ⟨hgoes, Command.guarded_step hguarded hstep hgoes⟩

theorem tended_step (h : s.Tended failed) (hstep : s.step p a = some s') :
    s'.Tended (failed || a.fails) := by
  have hrunning : ∀ place, s.place = place → place ≠ .handler → place ≠ .ended → failed = false :=
    fun place hplace hhandler hover => h.not_failed (hplace ▸ hhandler) (hplace ▸ hover)
  have hto : ∀ place, failed = false → (∀ stage c, place ≠ .inside stage c) →
      ({ s with place := place } : Attempt).Tended (failed || false) := by
    intro place hfailed hout
    rw [hfailed] at h ⊢
    exact h.moved rfl (fun stage c hc => absurd hc (hout stage c)) nofun
  unfold step at hstep
  split at hstep
  · next stage c hplace =>
    obtain ⟨c', hc, rfl⟩ := Option.map_eq_some_iff.mp hstep
    cases hrunning _ hplace nofun nofun
    refine h.ticked rfl (fun stage' c₁ hc₁ => ?_) nofun
    cases hc₁
    obtain ⟨hline, hguarded⟩ := h.inside stage c hplace
    have hgoes : c'.line.ended = false := by
      cases Command.step_cases hc with
      | tick => exact hline
      | @moved _ line _ _ hnext _ _ =>
        rcases hnext with hinside | rfl
        · revert hinside
          cases line <;> first | (exact fun _ => rfl) | nofun
        · rfl
      | failed _ ha => cases ha
    exact ⟨hgoes, Command.guarded_step hguarded hc hgoes⟩
  · cases hstep
    rw [show AttemptAction.tick.fails = false from rfl, Bool.or_false]
    exact h.ticked rfl h.inside fun hfailed => (h.abandoned hfailed).1
  · obtain ⟨q, hq, hdie⟩ := Option.bind_eq_some_iff.mp hstep
    obtain ⟨q', hdied, rfl⟩ := Option.map_eq_some_iff.mp hdie
    rw [show (AttemptAction.die _).fails = false from rfl, Bool.or_false]
    exact h.died hq hdied
  · next hplace =>
    cases hstep
    cases hrunning _ hplace nofun nofun
    refine h.moved rfl (fun stage' c hc => ?_) nofun
    cases hc
    exact ⟨rfl, Command.guarded_spawn _ _ _ _⟩
  · next hplace =>
    cases hstep
    exact hto .handler (hrunning _ hplace nofun nofun) fun _ _ hc => by cases hc
  · cases hstep
  · next hplace =>
    obtain ⟨c', hc, rfl⟩ := Option.map_eq_some_iff.mp hstep
    cases hrunning _ hplace nofun nofun
    exact tended_resume h hplace hc
  · next hplace =>
    split at hstep
    · cases hstep
    · cases hstep
      exact hto (.before .nmap) (hrunning _ hplace nofun nofun) fun _ _ hc => by cases hc
  · next hplace =>
    cases hstep
    exact hto .handler (hrunning _ hplace nofun nofun) fun _ _ hc => by cases hc
  · next hplace =>
    cases hstep
    exact hto .ended (hrunning _ hplace nofun nofun) fun _ _ hc => by cases hc
  · cases hstep
    rw [show AttemptAction.leave.fails = false from rfl, Bool.or_false]
    exact h.moved rfl (fun _ _ hc => by cases hc) fun _ => Or.inr rfl
  · cases hstep

end Attempt

/-! ## Runs -/

/-- The runs of an execution from its `try` statement on. -/
def Attempting (p : Limits) (stage : Stage) (now : Nat) (status : RunStatus) :
    List (Transition Attempt AttemptAction) → Attempt → Prop :=
  Path (Attempt.step p) (Attempt.start stage now status)

/-- When one of the four statements has raised, the scanner that was polled has ended. -/
def EndsAlone (tr : List (Transition Attempt AttemptAction)) (t : Attempt) : Prop :=
  (∃ x ∈ tr, x.act.fails = true) → ∀ q ∈ t.processes.getLast?, q.ended = true

theorem Attempt.processes_of_ended {s : Attempt} (h : s.ended = true) :
    s.processes = s.started := by
  unfold processes
  split
  · next hplace =>
    rw [ended, hplace] at h
    cases h
  · rfl

theorem tended_run {p : Limits} {stage : Stage} {now : Nat} {status : RunStatus}
    {tr : List (Transition Attempt AttemptAction)} {t : Attempt}
    (h : Attempting p stage now status tr t) : t.Tended (tr.any fun x => x.act.fails) := by
  induction h with
  | nil => exact Attempt.tended_start stage now status
  | snoc _ hstep ih =>
    rw [List.any_append, List.any_cons, List.any_nil, Bool.or_false]
    exact Attempt.tended_step ih hstep

/-- An execution leaves no orphan exactly when no error of the refresh, the ownership query,
the heartbeat or its commit was raised on a scanner that goes on. -/
theorem no_orphan_iff (p : Limits) (stage : Stage) (now : Nat) (status : RunStatus)
    (tr : List (Transition Attempt AttemptAction)) (t : Attempt)
    (h : Attempting p stage now status tr t) (hover : t.ended = true) :
    t.NoOrphan ↔ EndsAlone tr t := by
  have htended := tended_run h
  rw [Attempt.NoOrphan, EndsAlone, Attempt.processes_of_ended hover]
  cases hfailed : tr.any fun x => x.act.fails with
  | false =>
    rw [hfailed] at htended
    refine iff_of_true (htended.handled rfl) ?_
    rintro ⟨x, hx, hfails⟩
    exact absurd hfails (by simpa using List.any_eq_false.mp hfailed x hx)
  | true =>
    rw [hfailed] at htended
    obtain ⟨-, front, q, hstarted, hfront, hsignal⟩ := htended.abandoned rfl
    have hlast : t.started.getLast? = some q := by rw [hstarted, List.getLast?_concat]
    have hq : q.handled = q.ended := by
      rw [Process.handled, hsignal]
      exact Bool.or_false _
    rw [hlast, hstarted]
    constructor
    · intro hall _ q' hq'
      obtain rfl := Option.some.inj hq'
      rw [← hq]
      exact hall q (List.mem_append_right _ (List.mem_singleton_self _))
    · intro hended
      refine List.forall_mem_append.mpr ⟨hfront, List.forall_mem_singleton.mpr ?_⟩
      rw [hq]
      exact hended (List.any_eq_true.mp hfailed) q rfl

namespace Demo

def limits : Limits := { capacity := fun _ => 65536, heartbeat := 15, grace := 20, deadline := 60 }

/-- A scanner that takes a while is polled once and its execution sleeps. -/
def polled : List AttemptAction :=
  [.spawn (List.replicate 300 none) 0, .command .poll] ++ List.replicate 15 .tick ++
    [.command .wake]

end Demo

/-- The database is gone for a moment when the run is refreshed. -/
theorem refresh_error_leaves_scanner :
    ¬ ∀ (p : Limits) (stage : Stage) (now : Nat) (status : RunStatus)
      (tr : List (Transition Attempt AttemptAction)) (t : Attempt),
      Attempting p stage now status tr t → t.ended = true → t.NoOrphan := by
  intro hall
  have hrun : (runAll (Attempt.step Demo.limits) (Attempt.start .nmap 0 .running)
      (Demo.polled ++ [.command (.refresh (.error "OperationalError")), .leave])).map
        (fun t => (t.ended, t.processes.map Process.handled)) = some (true, [false]) := by
    decide +kernel
  obtain ⟨tr, t, hp, hobs⟩ := Path.of_runAll_map hrun
  obtain ⟨hover, hhandled⟩ := Prod.mk.inj hobs
  have hall' : ∀ b ∈ t.processes.map Process.handled, b = true :=
    List.forall_mem_map.mpr (hall _ _ _ _ tr t hp hover)
  rw [hhandled] at hall'
  exact absurd (hall' false (List.mem_singleton_self _)) Bool.false_ne_true

/-- The run is cancelled while the scanner runs, and the scanner outlasts the grace period. -/
theorem no_orphan_cancelled :
    ∃ tr t, Attempting Demo.limits .nmap 0 .running tr t ∧ t.NoOrphan ∧
      t.processes.map Process.signal = [some .kill] := by
  have hrun : (runWhile (Attempt.step Demo.limits) (fun _ a => !a.fails)
      (Attempt.start .nmap 0 .running) (Demo.polled ++
        [.refresh (.ok .cancelled), .ownership (.ok true), .heartbeat none, .commit none,
          .status].map AttemptAction.command ++
        List.replicate 20 .tick ++
        [.command (.wait none), .command .die, .command (.communicate none), .finish])).map
        (fun t => (t.ended, t.processes.map Process.signal)) = some (true, [some .kill]) := by
    decide +kernel
  obtain ⟨tr, t, hp, halong, hobs⟩ := Path.of_runWhile_map hrun
  obtain ⟨hover, hsignal⟩ := Prod.mk.inj hobs
  refine ⟨tr, t, hp, (no_orphan_iff _ _ _ _ tr t hp hover).mpr ?_, hsignal⟩
  rintro ⟨x, hx, hfails⟩
  have hok : (!x.act.fails) = true := halong x hx
  rw [hfails] at hok
  cases hok

end TransportLookout
