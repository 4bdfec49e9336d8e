/-
What a failed attempt leaves of its results.

From the commit that starts the scan to the last commit of the execution no host of
the shard is committed: the scan stage deletes those there are, and only an owner's
last commit inserts any.  That commit carries whatever the session has added, also
when it records a retry or a dead letter.
-/
import TransportLookout.Safety.Ownership
import TransportLookout.Safety.ResultFencing

namespace TransportLookout

open Relational Trace

/-- The attempt is given up: the shard is queued again, or dead. -/
def Outcome.givesUp : Outcome → Bool
  | .deadLetter _ | .retry _ _ => true
  | _ => false

/-- The step is not the last commit of an attempt that is given up, or no host and no service
of the shard is there after it. -/
def LeavesNothing (x : Transition State Action) : Prop :=
  ∀ i now e o counts, x.act = .worker i (.commitFinish now) →
    x.pre.executions[i]? = some e → e.pc = .finishing o counts → o.givesUp = true →
    e.owns x.pre.db = true →
      x.post.db.hostsOf e.shardId = [] ∧ x.post.db.servicesOf e.shardId = []

/-- A shard whose row bears the token of an attempt given up has no host and no service. -/
def State.GivenUpBlank (s : State) : Prop :=
  ∀ e ∈ s.executions, e.holds s.db = true →
    e.pc = .finished .queued ∨ e.pc = .finished .deadLetter →
      s.db.hostsOf e.shardId = [] ∧ s.db.servicesOf e.shardId = []

/-- An execution that gives up holds no host back. -/
def State.givesUpEmpty (s : State) : Action → Bool
  | .worker i (.commitFinish _) => (s.executions[i]?).all fun e =>
    match e.pc with
    | .finishing o _ => !o.givesUp || !e.owns s.db || e.hosts.isEmpty
    | _ => true
  | _ => true

/-! ## Before the last commit -/

/-- No host of a shard is committed while an execution that owns it scans. -/
structure Blank (s : State) : Prop where
  doomed : ∀ e ∈ s.executions, e.owns s.db = true → e.pc.cleans = true →
    ∀ x ∈ s.db.hosts.rows, x.shardId = e.shardId → x.id ∈ e.doomedHosts
  started : ∀ e ∈ s.executions, e.owns s.db = true → e.pc.started = true →
    s.db.hostsOf e.shardId = []

section
variable {settings : Settings} {s s' : State} {a : Action}

theorem hostsOf_eq_nil {db : Db} {shardId : Uuid} :
    db.hostsOf shardId = [] ↔ ∀ x ∈ db.hosts.rows, x.shardId ≠ shardId := by
  rw [Db.hostsOf, List.eq_nil_iff_forall_not_mem]
  simp only [Table.mem_select, decide_eq_true_eq, not_and]

theorem blank_start (db : Db) : Blank (State.start db) where
  doomed := fun _ h => absurd h List.not_mem_nil
  started := fun _ h => absurd h List.not_mem_nil

/-- A host is inserted by the last commit of an execution that owns its shard. -/
theorem host_inserted (hs : Signed s) (h : s.step settings a = some s') {x : HostObservation}
    (hx : x ∈ s'.db.hosts.rows) : x ∈ s.db.hosts.rows ∨
      ∃ i b e e', a = .worker i b ∧ s.executions[i]? = some e ∧ e.owns s.db = true ∧
        s'.executions[i]? = some e' ∧ x.shardId = e.shardId ∧
          ∃ status, e'.pc = .finished status := by
  by_cases ha : ∃ i b, a = .worker i b
  · obtain ⟨i, b, rfl⟩ := ha
    obtain ⟨e, db, e', he, hstep, rfl⟩ := step_worker h
    have hmem := List.mem_of_getElem? he
    rcases Execution.step_cases hstep with ⟨rfl, -⟩ | hc
    · exact Or.inl hx
    have hbeat : ∀ {db₀ : Db} {stage beat}, e.pc = .beating stage beat → e.flush db₀ = some db →
        db₀.hosts = s.db.hosts → x ∈ s.db.hosts.rows := by
      intro db₀ stage beat hpc hflush hsame
      obtain ⟨hosts, _, _, hhosts, -, -, rfl⟩ := Execution.flush_frame hflush
      obtain ⟨hnone, -⟩ := hs.collecting e hmem (by rw [hpc]; rfl)
      have hrows := Table.rows_append? hhosts
      rw [hnone, List.append_nil, hsame] at hrows
      rw [← hrows]
      exact hx
    cases hc with
    | abandon => exact Or.inl hx
    | start => exact Or.inl (Table.mem_delete.mp hx).1
    | beat hpc _ _ hflush => exact Or.inl (hbeat hpc hflush rfl)
    | beatLost hpc _ hflush => exact Or.inl (hbeat hpc hflush rfl)
    | @finish o counts run now db₁ _ run' hpc hrun howns hflush hfin =>
      obtain ⟨hosts, _, _, hhosts, -, -, rfl⟩ := Execution.flush_frame hflush
      have hrows : db.hosts = hosts := by rw [(Db.finalizeWith_frame hfin).1]
      have happend : hosts.rows = s.db.hosts.rows ++ e.hosts := Table.rows_append? hhosts
      have hx' : x ∈ s.db.hosts.rows ++ e.hosts := by
        rw [← happend, ← hrows]
        exact hx
      rcases List.mem_append.mp hx' with hold | hnew
      · exact Or.inl hold
      · obtain ⟨hshard, -⟩ := hs.hosts e hmem x hnew
        exact Or.inr ⟨i, _, e, _, rfl, he, howns,
          List.getElem?_set_self (List.getElem?_eq_some_iff.mp he).1, hshard, _, rfl⟩
  · obtain ⟨hhosts, -, -⟩ := results_frame h fun i b hab => ha ⟨i, b, hab⟩
    rw [← hhosts]
    exact Or.inl hx

/-- While an execution owns its shard, no one else inserts hosts of it. -/
theorem owned_hosts (hf : Fenced s) (hs : Signed s) (h : s.step settings a = some s') {j : Nat}
    {e e' : Execution} (he : s.executions[j]? = some e) (howns : e.owns s.db = true)
    (he' : s'.executions[j]? = some e') (hpc : ∀ status, e'.pc ≠ .finished status) :
    ∀ x ∈ s'.db.hosts.rows, x.shardId = e.shardId → x ∈ s.db.hosts.rows := by
  intro x hx hshard
  rcases host_inserted hs h hx with hold | ⟨i, b, e₀, e₀', -, he₀, howns₀, he₀', hid, status, hpc₀⟩
  · exact hold
  · have hij : i = j := holder_unique hf he₀ he (holds_of_owns howns₀) (holds_of_owns howns)
      (hid.symm.trans hshard)
    subst hij
    rw [he'] at he₀'
    cases he₀'
    exact absurd hpc₀ (hpc status)

theorem unfinished_of_cleans {pc : Pc} (h : pc.cleans = true) (status : ShardStatus) :
    pc ≠ .finished status := by
  rintro rfl
  cases h

theorem unfinished_of_started {pc : Pc} (h : pc.started = true) (status : ShardStatus) :
    pc ≠ .finished status := by
  rintro rfl
  cases h

/-- An execution that owns its shard after a step of its own owned it before. -/
theorem owns_stepped (hc : Copies s) (hf : Fenced s) (h : s.step settings a = some s')
    {e e' : Execution} {b : WorkerAction} {db : Db} (he : e ∈ s.executions)
    (hstep : e.step s.db settings b = some (db, e')) (howns : e'.owns s'.db = true) :
    e.owns s.db = true := by
  obtain ⟨hshard, htoken⟩ := Execution.step_lease hstep
  refine owns_back hc hf h he ?_
  rw [Execution.owns, ← hshard, ← htoken]
  exact howns

theorem blank_doomed (hc : Copies s) (hf : Fenced s) (hs : Signed s) (hb : Blank s)
    (h : s.step settings a = some s') :
    ∀ e' ∈ s'.executions, e'.owns s'.db = true → e'.pc.cleans = true →
      ∀ x ∈ s'.db.hosts.rows, x.shardId = e'.shardId → x.id ∈ e'.doomedHosts := by
  intro e' he' howns' hcleans x hx hshard
  obtain ⟨j, hj⟩ := List.mem_iff_getElem?.mp he'
  have hpc := unfinished_of_cleans hcleans
  rcases execution_cases h hj with ⟨he, -⟩ | ⟨e, b, he, -, hstep⟩ | ⟨_, _, -, -, -, hnew⟩
  · have hmem : e' ∈ s.executions := List.mem_of_getElem? he
    have howns : e'.owns s.db = true := owns_back hc hf h hmem howns'
    exact hb.doomed e' hmem howns hcleans x (owned_hosts hf hs h he howns hj hpc x hx hshard) hshard
  · have hmem : e ∈ s.executions := List.mem_of_getElem? he
    have howns : e.owns s.db = true := owns_stepped hc hf h hmem hstep howns'
    rw [(Execution.step_lease hstep).1] at hshard
    have hold : x ∈ s.db.hosts.rows := owned_hosts hf hs h he howns hj hpc x hx hshard
    have hrec := Execution.step_recording hstep
    have hcase : e'.pc = .hostsCleared ∨ e'.pc = .cleared := by
      revert hcleans
      cases e'.pc <;> simp [Pc.cleans]
    rcases hcase with hpc' | hpc'
    · rw [hrec.hostsCleared hpc']
      exact List.mem_map.mpr ⟨x, Table.mem_select.mpr ⟨hold, decide_eq_true hshard⟩, rfl⟩
    · obtain ⟨hbefore, hdoomed, -⟩ := hrec.cleared hpc'
      rw [hdoomed]
      exact hb.doomed e hmem howns (by rw [hbefore]; rfl) x hold hshard
  · rw [hnew] at hcleans
    cases hcleans

theorem blank_started (hc : Copies s) (hf : Fenced s) (hs : Signed s) (hb : Blank s)
    (h : s.step settings a = some s') :
    ∀ e' ∈ s'.executions, e'.owns s'.db = true → e'.pc.started = true →
      s'.db.hostsOf e'.shardId = [] := by
  intro e' he' howns' hstarted
  rw [hostsOf_eq_nil]
  intro x hx hshard
  obtain ⟨j, hj⟩ := List.mem_iff_getElem?.mp he'
  have hpc := unfinished_of_started hstarted
  rcases execution_cases h hj with ⟨he, -⟩ | ⟨e, b, he, -, hstep⟩ | ⟨_, _, -, -, -, hnew⟩
  · have hmem : e' ∈ s.executions := List.mem_of_getElem? he
    have howns : e'.owns s.db = true := owns_back hc hf h hmem howns'
    have hold : x ∈ s.db.hosts.rows := owned_hosts hf hs h he howns hj hpc x hx hshard
    exact hostsOf_eq_nil.mp (hb.started e' hmem howns hstarted) x hold hshard
  · have hmem : e ∈ s.executions := List.mem_of_getElem? he
    have howns : e.owns s.db = true := owns_stepped hc hf h hmem hstep howns'
    rw [(Execution.step_lease hstep).1] at hshard
    have hold : x ∈ s.db.hosts.rows := owned_hosts hf hs h he howns hj hpc x hx hshard
    rcases (Execution.step_recording hstep).started hstarted with hbefore | ⟨now, rfl⟩
    · exact hostsOf_eq_nil.mp (hb.started e hmem howns hbefore) x hold hshard
    · -- the start deletes the rows its first two statements have listed
      generalize hdb : s'.db = db at hstep hx
      cases Execution.step_start hstep with
      | start hcleared _ =>
        obtain ⟨-, hkept⟩ := Table.mem_delete.mp hx
        exact absurd (hb.doomed e hmem howns (by rw [hcleared]; rfl) x hold hshard)
          (of_decide_eq_false hkept)
  · rw [hnew] at hstarted
    cases hstarted

theorem blank_step (hc : Copies s) (hf : Fenced s) (hs : Signed s) (hb : Blank s)
    (h : s.step settings a = some s') : Blank s' :=
  ⟨blank_doomed hc hf hs hb h, blank_started hc hf hs hb h⟩

/-! ## The last commit -/

/-- The hosts of the shard after the last commit of its owner are those it held back. -/
theorem finished_hosts (hs : Signed s) (hb : Blank s) {e e' : Execution} {db : Db} {now : DateTime}
    (he : e ∈ s.executions) (h : e.step s.db settings (.commitFinish now) = some (db, e')) :
    db.hostsOf e.shardId = e.hosts := by
  cases Execution.step_commitFinish h with
  | @finish o counts run _ db₁ _ run' hpc hrun howns hflush hfin =>
    obtain ⟨hosts, _, _, hhosts, -, -, rfl⟩ := Execution.flush_frame hflush
    have hrows : db.hosts = hosts := by rw [(Db.finalizeWith_frame hfin).1]
    have hnone : s.db.hosts.rows.filter (fun x => x.shardId = e.shardId) = [] :=
      hb.started e he howns (by rw [hpc]; rfl)
    have hown : e.hosts.filter (fun x => x.shardId = e.shardId) = e.hosts :=
      List.filter_eq_self.mpr fun x hx => decide_eq_true (hs.hosts e he x hx).1
    rw [Db.hostsOf, Table.select, hrows, Table.rows_append? hhosts, List.filter_append, hown]
    show s.db.hosts.rows.filter _ ++ e.hosts = e.hosts
    rw [hnone, List.nil_append]

theorem servicesOf_eq_nil {db : Db} {shardId : Uuid} (h : db.hostsOf shardId = []) :
    db.servicesOf shardId = [] := by
  rw [Db.servicesOf, h, List.eq_nil_iff_forall_not_mem]
  intro x hx
  have := of_decide_eq_true (Table.mem_select.mp hx).2
  exact List.not_mem_nil this

theorem pending_of_givesUp {i : Nat} {now : DateTime} {e : Execution} {o : Outcome}
    {counts : Option TerminalCounts}
    (hempty : s.givesUpEmpty (.worker i (.commitFinish now)) = true)
    (he : s.executions[i]? = some e) (hpc : e.pc = .finishing o counts) (hgives : o.givesUp = true)
    (howns : e.owns s.db = true) : e.hosts = [] := by
  rw [State.givesUpEmpty, he, Option.all_some, hpc] at hempty
  replace hempty : (!o.givesUp || !e.owns s.db || e.hosts.isEmpty) = true := hempty
  rw [howns, hgives] at hempty
  exact List.isEmpty_iff.mp hempty

theorem leaves_nothing_iff (hs : Signed s) (hb : Blank s) (h : s.step settings a = some s') :
    LeavesNothing ⟨s, a, s'⟩ ↔ s.givesUpEmpty a = true := by
  constructor
  · intro hleaves
    unfold State.givesUpEmpty
    split
    · next i now =>
      obtain ⟨e, db, e', he, hstep, rfl⟩ := step_worker h
      rw [he, Option.all_some]
      split
      · next o counts hpc =>
        rw [Bool.or_eq_true, Bool.or_eq_true, Bool.not_eq_true', Bool.not_eq_true']
        by_cases hgives : o.givesUp = true
        · by_cases howns : e.owns s.db = true
          · have hnone := (hleaves i now e o counts rfl he hpc hgives howns).1
            have hsame := finished_hosts hs hb (List.mem_of_getElem? he) hstep
            exact Or.inr (List.isEmpty_iff.mpr (hsame.symm.trans hnone))
          · exact Or.inl (Or.inr (Bool.eq_false_iff.mpr howns))
        · exact Or.inl (Or.inl (Bool.eq_false_iff.mpr hgives))
      · rfl
    · rfl
  · rintro hempty i now e o counts rfl he hpc hgives howns
    obtain ⟨e₁, db, e', he₁, hstep, rfl⟩ := step_worker h
    rw [show s.executions[i]? = some e from he] at he₁
    cases he₁
    have hnone : e.hosts = [] := pending_of_givesUp hempty he hpc hgives howns
    have hhosts : db.hostsOf e.shardId = [] :=
      (finished_hosts hs hb (List.mem_of_getElem? he) hstep).trans hnone
    exact ⟨hhosts, servicesOf_eq_nil hhosts⟩

/-- A step that commits nothing does not end an execution with its shard's status known. -/
theorem unfinished_of_move {e e' : Execution} {b : WorkerAction}
    (h : Execution.Move settings s.db e b e') (status : ShardStatus) :
    e'.pc ≠ .finished status := by
  intro hpc
  cases h with
  | addHost hold _ =>
    rw [show e.pc = .finished status from hpc] at hold
    cases hold
  | @storeDiscovery _ pc _ _ _ _ hnext _ _ =>
    replace hpc : pc = .finished status := hpc
    subst hpc
    split at hnext
    · cases hnext
    · cases hnext
  | _ => cases hpc

theorem Outcome.givesUp_iff {o : Outcome} :
    o.givesUp = true ↔ o.status = .queued ∨ o.status = .deadLetter := by
  cases o <;> simp [givesUp, status]

/-- Only its last commit ends an execution with its shard queued or dead. -/
theorem gives_up {e e' : Execution} {b : WorkerAction} {db : Db} {status : ShardStatus}
    (h : e.step s.db settings b = some (db, e')) (hpc' : e'.pc = .finished status)
    (hstatus : status = .queued ∨ status = .deadLetter) :
    ∃ now o counts, b = .commitFinish now ∧ e.pc = .finishing o counts ∧ o.givesUp = true ∧
      e.owns s.db = true := by
  rcases Execution.step_cases h with ⟨-, hmove⟩ | hc
  · exact absurd hpc' (unfinished_of_move hmove status)
  · cases hc with
    | abandon hpc ho howns =>
      cases hpc'
      rcases Execution.abandonOutcome_cases ho with rfl | rfl
      · exact absurd hstatus (by decide)
      · exact absurd hstatus (by decide)
    | start => cases hpc'
    | beat _ _ _ _ _ hnext =>
      rw [hpc'] at hnext
      rcases hnext with ⟨hpc, -⟩ | ⟨hpc, -⟩ <;> cases hpc
    | beatLost _ _ _ _ hnext =>
      rw [hpc'] at hnext
      rcases hnext with ⟨hpc, -⟩ | ⟨hpc, -⟩ <;> cases hpc
    | finish hpc _ howns =>
      cases hpc'
      exact ⟨_, _, _, rfl, hpc, Outcome.givesUp_iff.mpr hstatus, howns⟩

theorem given_up_step (hf : Fenced s) (hs : Signed s) (hb : Blank s)
    (hblank : s.GivenUpBlank) (hk : s.givesUpEmpty a = true) (h : s.step settings a = some s') :
    s'.GivenUpBlank := by
  intro e' he' hholds' hpc'
  suffices hhosts : s'.db.hostsOf e'.shardId = [] from ⟨hhosts, servicesOf_eq_nil hhosts⟩
  obtain ⟨j, hj⟩ := List.mem_iff_getElem?.mp he'
  rcases execution_cases h hj with ⟨he, ha⟩ | ⟨e, b, he, rfl, hstep⟩ | ⟨_, _, -, -, -, hnew⟩
  · have hmem : e' ∈ s.executions := List.mem_of_getElem? he
    have hholds : e'.holds s.db = true := holds_back hf h hmem hholds'
    rw [hostsOf_eq_nil]
    intro x hx hshard
    rcases host_inserted hs h hx with hold | ⟨i, b, e₀, -, rfl, he₀, howns₀, -, hid, -⟩
    · exact hostsOf_eq_nil.mp (hblank e' hmem hholds hpc').1 x hold hshard
    · have hij : i = j := holder_unique hf he₀ he (holds_of_owns howns₀) hholds
        (hid.symm.trans hshard)
      exact ha b (by rw [hij])
  · obtain ⟨status, hended, hstatus⟩ : ∃ status, e'.pc = .finished status ∧
        (status = .queued ∨ status = .deadLetter) := by
      rcases hpc' with hpc' | hpc'
      · exact ⟨_, hpc', Or.inl rfl⟩
      · exact ⟨_, hpc', Or.inr rfl⟩
    obtain ⟨now, o, counts, rfl, hpc, hgives, howns⟩ := gives_up hstep hended hstatus
    rw [(Execution.step_lease hstep).1, finished_hosts hs hb (List.mem_of_getElem? he) hstep]
    exact pending_of_givesUp hk he hpc hgives howns
  · rw [hnew] at hpc'
    rcases hpc' with hpc' | hpc' <;> cases hpc'

end

/-! ## Runs -/

/-- What a run leaves of its failed attempts. -/
structure FailedAttempts (tr : List (Transition State Action)) : Prop where
  leaves : ∀ x ∈ tr, LeavesNothing x
  kept : ∀ x ∈ tr, x.post.GivenUpBlank

section
variable {settings : Settings} {scopes : Table InventoryScope} {profiles : Table ScanProfile}
  {tr : List (Transition State Action)} {t : State}

theorem blank_at (h : Run settings (State.initial scopes profiles) tr t)
    {x : Transition State Action} (hx : x ∈ tr) : Blank x.pre := by
  refine (h.invariant_at (I := fun s => Copies s ∧ Fenced s ∧ Signed s ∧ Blank s)
    (C := fun _ _ => true) ?_ ?_ (fun _ _ => rfl) hx).1.2.2.2
  · exact ⟨copies_start _, fenced_start fun r hr => absurd hr List.not_mem_nil,
      signed_start _, blank_start _⟩
  · rintro s a s' ⟨hc, hf, hs, hb⟩ - hstep
    exact ⟨copies_step hc hstep, fenced_step hc hf hstep, signed_step hs hstep,
      blank_step hc hf hs hb hstep⟩

theorem given_up_at (h : Run settings (State.initial scopes profiles) tr t)
    (hk : Along State.givesUpEmpty tr) {x : Transition State Action} (hx : x ∈ tr) :
    x.post.GivenUpBlank := by
  refine (h.invariant_at
    (I := fun s => Copies s ∧ Fenced s ∧ Signed s ∧ Blank s ∧ s.GivenUpBlank)
    (C := State.givesUpEmpty) ?_ ?_ hk hx).2.2.2.2.2
  · exact ⟨copies_start _, fenced_start fun r hr => absurd hr List.not_mem_nil,
      signed_start _, blank_start _, fun _ he => absurd he List.not_mem_nil⟩
  · rintro s a s' ⟨hc, hf, hs, hb, hblank⟩ hempty hstep
    exact ⟨copies_step hc hstep, fenced_step hc hf hstep, signed_step hs hstep,
      blank_step hc hf hs hb hstep, given_up_step hf hs hb hblank hempty hstep⟩

end

/-- The failed attempts of a run leave no confirmed results exactly when none of them
has added a host before it fails. -/
theorem failed_attempts_leave_nothing (settings : Settings) (scopes : Table InventoryScope)
    (profiles : Table ScanProfile) (tr : List (Transition State Action)) (t : State)
    (h : Run settings (State.initial scopes profiles) tr t) :
    FailedAttempts tr ↔ Along State.givesUpEmpty tr := by
  have hstep : ∀ x ∈ tr, LeavesNothing x ↔ x.pre.givesUpEmpty x.act = true := fun x hx =>
    leaves_nothing_iff (signed_at h hx) (blank_at h hx) (h.step_of_mem hx)
  constructor
  · exact fun hfailed x hx => (hstep x hx).mp (hfailed.leaves x hx)
  · exact fun hk => ⟨fun x hx => (hstep x hx).mpr (hk x hx), fun x hx => given_up_at h hk hx⟩

namespace Demo

def service : ServiceObservation :=
  { id := "v1", hostObservationId := "h1", protocol := "tcp", port := 443, state := "open" }

/-- The nmap stage of the first execution ends; its document has `hosts` before the element
that raises. -/
def failing (hosts : List WorkerAction) : List Action :=
  running ++ [.exit, .recheck].map (Action.worker 0) ++ hosts.map (Action.worker 0) ++
    .worker 0 (.fail "KeyError: 'portid'") :: finish 0 (seconds 60)

end Demo

/-- The second host of the document has a port without a number. -/
theorem failed_attempt_keeps_host :
    ¬ ∀ (settings : Settings) (scopes : Table InventoryScope) (profiles : Table ScanProfile)
      (tr : List (Transition State Action)) (t : State),
      Run settings (State.initial scopes profiles) tr t → FailedAttempts tr := by
  intro hall
  have hrun : (runAll (State.step {}) Demo.start
      (Demo.failing [.addHost Demo.host [Demo.service]])).map (fun t =>
        (t.executions.map fun e => (e.shardId, e.holds t.db, e.pc), t.db.hostsOf "s1")) =
      some ([("s1", true, .finished .queued)], [{ Demo.host with leaseToken := some "t1" }]) := by
    decide +kernel
  obtain ⟨tr, t, hp, hobs⟩ := Path.of_runAll_map hrun
  obtain ⟨hplaces, hhosts⟩ := Prod.mk.inj hobs
  obtain ⟨e, he, hplace⟩ : ∃ e ∈ t.executions,
      (e.shardId, e.holds t.db, e.pc) = ("s1", true, Pc.finished .queued) :=
    List.mem_map.mp (by rw [hplaces]; exact List.mem_singleton_self _)
  obtain ⟨hshard, hplace⟩ := Prod.mk.inj hplace
  obtain ⟨hholds, hpc⟩ := Prod.mk.inj hplace
  have hblank : t.GivenUpBlank :=
    hp.end_of_posts (fun _ h => absurd h List.not_mem_nil) (hall {} _ _ _ _ hp).kept
  have hnone := (hblank e he hholds (Or.inl hpc)).1
  rw [hshard, hhosts] at hnone
  cases hnone

/-- The first element of the document raises. -/
theorem failed_attempts_leave_nothing_unparsed :
    ∃ tr t, Run {} Demo.start tr t ∧ FailedAttempts tr ∧
      (t.db.shards.get "s1").map ScanShard.status = some .queued := by
  have hrun : (runWhile (State.step {}) State.givesUpEmpty Demo.start (Demo.failing [])).map
      (fun t => (t.db.shards.get "s1").map ScanShard.status) = some (some .queued) := by
    decide +kernel
  obtain ⟨tr, t, hp, halong, hobs⟩ := Path.of_runWhile_map hrun
  exact ⟨tr, t, hp, (failed_attempts_leave_nothing {} _ _ tr t hp).mpr halong, hobs⟩

end TransportLookout
