/-
Nothing is ever stuck.

Sessions may stop anywhere: a worker without a word, a publisher between a send and its
commit, a pass halfway.  Whatever they leave behind, the loops of the scheduler, the publisher
and the workers can bring every run to its end, and every shard that was left to do is scanned.
They can from any moment on, and the clock need never go back.  The one thing in the way is a
run with an open service that was recorded twice: its read model cannot be written.
-/
import TransportLookout.Safety.Authority
import TransportLookout.Safety.Completion
import TransportLookout.Safety.Gauges
import TransportLookout.Safety.Serving

namespace TransportLookout

open Relational Trace

/-! ## The outbox beside requests -/

section
variable {d : Deployment} {db db' : Db} {schedules schedules' : Table ScanSchedule}

theorem performed_outbox {q : Request} (h : Performed d db schedules q db' schedules') :
    db'.outbox = db.outbox := by
  cases h with
  | addRun _ _ hcreated =>
    rw [hcreated.frame]
    rfl
  | _ => rfl

/-- The outbox is written by sessions only. -/
theorem control_outbox {s s' : Control} {a : ControlAction} (h : s.step d a = some s')
    (ha : ∀ b, a ≠ .system b) : s'.base.db.outbox = s.base.db.outbox := by
  cases a with
  | request q =>
    obtain ⟨db, hok, hbase⟩ := control_request h
    rw [hbase]
    exact performed_outbox (perform_ok hok)
  | dispatchDue now ids =>
    obtain ⟨db, hpass, hbase⟩ := control_dispatchDue h
    have hloop := dispatchLoop_rule (P := fun db => db.outbox = s.base.db.outbox) d now ids
      (fun db db' heq hsame => by rw [heq]; exact hsame)
      (fun db db' _ _ _ _ _ _ hok hsame => by
        rw [(createRunIn_created hok).frame]
        exact hsame)
      (dueSchedules s.schedules now) s.base.db s.schedules rfl
    rw [hpass] at hloop
    rw [hbase]
    exact hloop
  | system b => exact absurd rfl (ha b)

theorem intents_grows {s : State} (hi : Intents s) (hg : s.db.Grows db)
    (houtbox : db.outbox = s.db.outbox) : Intents { s with db := db } where
  token := fun k e he => hi.token k e (houtbox ▸ he)
  delivered := fun k e t he => hi.delivered k e t (houtbox ▸ he)
  leased := by
    intro k r hr hleased
    rcases hg.fresh r (Table.get_mem hr) with hold | ⟨-, hqueued⟩
    · obtain ⟨t, ht, id, e, he, hpayload⟩ :=
        hi.leased k r (Table.get_eq_some.mpr ⟨hold, Table.get_key hr⟩) hleased
      exact ⟨t, ht, id, e, houtbox ▸ he, hpayload⟩
    · rw [hqueued] at hleased
      cases hleased
  backed := fun pub hpub => ⟨fun c hc => houtbox ▸ (hi.backed pub hpub).loaded c hc,
    (hi.backed pub hpub).fenced, (hi.backed pub hpub).handed⟩

/-- What the passes need of a state, on the way. -/
structure Tended (s : Control) : Prop where
  timed : s.Timed
  intents : Intents s.base

theorem tended_initial : Tended Control.initial := ⟨timed_initial, intents_start .empty .empty⟩

theorem tended_control {s s' : Control} {a : ControlAction} (ht : Tended s)
    (h : s.step d a = some s') : Tended s' where
  timed := control_timed ht.timed h
  intents := by
    by_cases ha : ∃ b, a = .system b
    · obtain ⟨b, rfl⟩ := ha
      obtain ⟨-, hstep, -⟩ := control_system h
      exact intents_step ht.timed.copies ht.intents hstep
    · have hnot : ∀ b, a ≠ .system b := fun b hb => ha ⟨b, hb⟩
      have houtbox := control_outbox h hnot
      obtain ⟨db, hbase, hg⟩ := control_grows h hnot
      rw [hbase] at houtbox ⊢
      exact intents_grows ht.intents hg houtbox

theorem tended_service {api : Api} {s s' : Service} {a : ServiceAction} (ht : Tended s.control)
    (h : s.step api a = some s') : Tended s'.control := by
  cases service_moves h with
  | same heq =>
    rw [heq]
    exact ht
  | audits heq =>
    rw [heq]
    refine ⟨⟨?_, ?_, ht.timed.shard⟩, intents_grows ht.intents (.of_inventory rfl) rfl⟩
    · exact ⟨ht.timed.copies.stale, ht.timed.copies.selected, ht.timed.copies.cancelling,
        ht.timed.copies.reconciling⟩
    · exact ⟨ht.timed.stamping.row, ht.timed.stamping.copies.of_db fun _ hcopy => hcopy⟩
  | called _ _ _ hstep => exact tended_control ht hstep
  | internal _ _ hstep => exact tended_control ht hstep

end

/-! ## The service -/

/-- A profile that has been admitted has room for a shard. -/
theorem ProfileCreate.validate_shards {digits : Ports.Digits} {payload accepted : ProfileCreate}
    (h : payload.validate digits = .ok accepted) : 0 < accepted.maxConcurrentShards := by
  rw [validate] at h
  split at h
  · next hnone =>
    rw [tcpOnly] at h
    split at h
    · cases h
    · cases h
      exact (ProfileCreate.problems_eq_nil.mp hnone).maxConcurrentShards.1
  · cases h

section
variable {api : Api} {users₀ : Table User} {tr : List (Transition Service ServiceAction)}
  {s : Service}

theorem tended_path (h : Path (Service.step api) (Service.initial users₀) tr s) :
    Tended s.control :=
  h.invariant (I := fun s => Tended s.control) (C := fun _ _ => true) tended_initial
    (fun _ _ _ ht _ => tended_service ht) fun _ _ => rfl

theorem ready_path (h : Path (Service.step api) (Service.initial users₀) tr s) :
    Ready s.control.base where
  timed := (tended_path h).timed.shard
  profile := by
    intro run hrun
    obtain ⟨hplacing, hcustody⟩ := service_custody h
    obtain ⟨scope, profile, -, -, hprofile, -⟩ := hplacing.authorized.run run hrun
    obtain ⟨_, _, _, _, _, _, _, payload, payload', version, -, hvalid, hwritten⟩ :=
      hcustody.profile profile (Table.get_mem hprofile)
    refine ⟨profile, hprofile, ?_⟩
    rw [hwritten]
    exact ProfileCreate.validate_shards hvalid
  token := fun e he => (tended_path h).intents.token _ e (Table.get_of_mem he)

/-- The steps that take up what is there: no call, and no run that a schedule brings. -/
def ServiceAction.unattended : ServiceAction → Bool
  | .internal (.system a) => a.unattended
  | _ => false

/-- The times of the steps between calls. -/
def ServiceAction.time : ServiceAction → Option DateTime
  | .internal (.system a) => a.time
  | .internal (.dispatchDue now _) => some now
  | _ => none

theorem service_resumes {now : DateTime} {base : State}
    (h : Resumes api.deployment.settings now s.control.base base) :
    Reaches (Service.step api)
      (fun a => a.unattended && decide (∀ t ∈ a.time, t = now)) s
      { s with control := { s.control with base := base } } := by
  refine Reaches.map
    (f := fun base => { s with control := { s.control with base := base } })
    (g := fun a => ServiceAction.internal (.system a)) (fun b a b' ha hstep => ?_)
    (fun _ ha => ?_) h
  · have hkind := (Action.resumes_iff.mp ha).1
    have hinternal : (ControlAction.system a).internal = true := by
      cases a <;> first | rfl | cases hkind
    have hcreates : a.creates = false := by
      cases a <;> first | rfl | cases hkind
    simp [Service.step, hinternal, Control.step, hcreates, hstep]
  · exact ha

/-- What the service can still do by the clock. -/
abbrev Service.Resumes (api : Api) :=
  Reaches (byClock ServiceAction.time (Service.step api)) ServiceAction.unattended

/-- What can be done at an instant that has not passed. -/
theorem clocked_resumes {clock now : DateTime} {base : State} (hle : clock ≤ now)
    (h : Resumes api.deployment.settings now s.control.base base) :
    ∃ clock', Service.Resumes api (clock, s)
      (clock', { s with control := { s.control with base := base } }) :=
  (service_resumes h).byClock hle fun a ha => by
    rw [Bool.and_eq_true, decide_eq_true_eq] at ha
    exact ha

/-- What is left of the work of `db`: nothing. -/
structure Finishes (db db' : Db) : Prop where
  terminal : ∀ run ∈ db'.runs.rows, run.status.terminal = true
  /-- A run that was over is as it was. -/
  kept : ∀ k run, db.runs.get k = some run → run.status.terminal = true →
    db'.runs.get k = some run
  /-- Every other has the verdict that the shards given up before decide. -/
  ended : ∀ k run, db.runs.get k = some run → run.status.terminal = false →
    ∃ run', db'.runs.get k = some run' ∧ run'.status = db.verdict k
  shard : ∀ k r, db.shards.get k = some r → r.status.terminal = true →
    ∃ r', db'.shards.get k = some r' ∧ r'.status = r.status
  /-- No shard of such a run is given up any more. -/
  completed : ∀ k r run, db.shards.get k = some r → r.status.terminal = false →
    db.runs.get r.runId = some run → run.status.terminal = false →
      ∃ r', db'.shards.get k = some r' ∧ r'.status = .completed

theorem Db.Advances.finishes {db db' : Db} (h : db.Advances db')
    (hover : ∀ run ∈ db'.runs.rows, run.status.terminal = true) : Finishes db db' where
  terminal := hover
  kept := by
    intro k run hrun hterminal
    obtain ⟨run', hrun', hkept⟩ := h.runs.next hrun
    rw [hrun', hkept hterminal]
  ended := by
    intro k run hrun hactive
    obtain ⟨run', hrun', -⟩ := h.runs.next hrun
    obtain ⟨-, hverdict⟩ :=
      h.ended k run run' hrun hrun' hactive (hover run' (Table.get_mem hrun'))
    exact ⟨run', hrun', hverdict.trans (h.verdict k)⟩
  shard := by
    intro k r hr hterminal
    obtain ⟨r', hr', hrel⟩ := h.shards.next hr
    exact ⟨r', hr', hrel.fixed hterminal⟩
  completed := by
    intro k r run hr hlive hrun hactive
    obtain ⟨r', hr', hrel⟩ := h.shards.next hr
    obtain ⟨run', hrun', -⟩ := h.runs.next hrun
    obtain ⟨hexhausted, -⟩ :=
      h.ended r.runId run run' hrun hrun' hactive (hover run' (Table.get_mem hrun'))
    exact ⟨r', hr', hrel.ended hlive (hexhausted r' (Table.get_mem hr') hrel.runId)⟩

/-- From every state that calls, scheduler passes and sessions lead to, in any order, and from
any moment on. -/
theorem never_stuck (api : Api) (users₀ : Table User)
    (tr : List (Transition Service ServiceAction)) (s : Service)
    (h : Path (Service.step api) (Service.initial users₀) tr s)
    (hrefresh : ∀ run ∈ s.control.base.db.activeRuns, s.control.base.db.Refreshable run.id)
    (clock : DateTime) :
    ∃ later t, Service.Resumes api (clock, s) (later, t) ∧
      Finishes s.control.base.db t.control.base.db := by
  have hrefreshed : ∀ {db : Db}, s.control.base.db.Advances db → ∀ run ∈ db.activeRuns,
      db.Refreshable run.id := by
    intro db ha run hrun
    obtain ⟨hrow, hactive⟩ := Db.mem_activeRuns.mp hrun
    obtain ⟨old, hold, hkept⟩ := ha.runs.prior (Table.get_of_mem hrow)
    have hid : old.id = run.id := Table.get_key hold
    refine Db.Refreshable.advances (hid ▸ hrefresh old (Db.mem_activeRuns.mpr
      ⟨Table.get_mem hold, Bool.eq_false_iff.mpr fun hterminal => ?_⟩)) ha
    rw [hkept hterminal, hterminal] at hactive
    cases hactive
  -- a round takes place when it is late enough, and leaves fewer shards to do
  have hround : ∀ x : DateTime × Service,
      ((∃ tr, Path (Service.step api) (Service.initial users₀) tr x.2) ∧
        s.control.base.db.Advances x.2.control.base.db) →
      ¬ (∀ run ∈ x.2.control.base.db.activeRuns, x.2.control.base.db.Exhausted run.id) →
      ∃ y, Service.Resumes api x y ∧
        ((∃ tr, Path (Service.step api) (Service.initial users₀) tr y.2) ∧
          s.control.base.db.Advances y.2.control.base.db) ∧
        y.2.control.base.db.unfinished < x.2.control.base.db.unfinished := by
    rintro ⟨clock, u⟩ ⟨⟨tr, hu⟩, ha⟩ hleft
    push Not at hleft
    obtain ⟨run, hrun, hunfinished⟩ := hleft
    obtain ⟨hrow, hactive⟩ := Db.mem_activeRuns.mp hrun
    obtain ⟨last, hlast⟩ := exists_late api.deployment.settings u.control.base.db
    obtain ⟨base, hbase, ha', hlt⟩ := resumes_round api.deployment.settings (max clock last)
      (hlast _ (le_max_right clock last)) (ready_path hu) (Table.get_of_mem hrow) hactive
      (hrefreshed ha run hrun) hunfinished
    obtain ⟨tr', htr', -⟩ := service_resumes hbase
    obtain ⟨clock', hclocked⟩ := clocked_resumes (le_max_left clock last) hbase
    exact ⟨_, hclocked, ⟨⟨_, hu.trans htr'⟩, ha.trans ha'⟩, hlt⟩
  obtain ⟨⟨clock', u⟩, hu, ⟨-, ha⟩, hexhausted⟩ := Reaches.of_rounds
    (fun x : DateTime × Service => x.2.control.base.db.unfinished) hround
    (show _ ∧ s.control.base.db.Advances (clock, s).2.control.base.db from ⟨⟨tr, h⟩, .refl _⟩)
  obtain ⟨base, hbase, ha', hover⟩ := resumes_reconciliation api.deployment.settings clock'
    u.control.base hexhausted (hrefreshed ha)
  obtain ⟨later, hlast⟩ := clocked_resumes (le_refl clock') hbase
  exact ⟨later, _, hu.trans hlast, (ha.trans ha').finishes hover⟩

end

/-- The worker of the first shard has not come to its scan, and the second shard's event was
not sent. -/
theorem never_stuck_ordered :
    ∃ (s : Service) (later : DateTime) (t : Service),
      s.control.base.db.shards.rows.map ScanShard.status = [.running, .leased] ∧
      Service.Resumes Demo.api (60, s) (later, t) ∧
      Finishes s.control.base.db t.control.base.db := by
  have hrun : (runAll (Service.step Demo.api) (Service.initial Demo.users) Demo.ordered).map
      (fun s => (s.control.base.db.shards.rows.map ScanShard.status,
        s.control.base.db.hosts.rows.length)) = some ([.running, .leased], 0) := by
    decide +kernel
  obtain ⟨tr, s, hp, hobserved⟩ := Path.of_runAll_map hrun
  obtain ⟨hshards, hhosts⟩ := Prod.mk.injEq .. ▸ hobserved
  have hrefresh : ∀ run ∈ s.control.base.db.activeRuns,
      s.control.base.db.Refreshable run.id := by
    intro run _ _
    rw [Db.openServices, List.length_eq_zero_iff.mp hhosts]
    exact List.nodup_nil
  obtain ⟨later, t, hresumes, hfinishes⟩ :=
    never_stuck Demo.api Demo.users tr s hp hrefresh 60
  exact ⟨s, later, t, hshards, hresumes, hfinishes⟩

end TransportLookout
