/-
Services and their hosts.

An execution starts its scan with three DELETE statements: the services of the hosts of its
shard, the hosts, the discoveries.  Each matches what is committed when it runs, so a host
that appears between the first two is deleted without its services.  While the execution
owns its shard no one else inserts hosts of it, and every service keeps its host.
-/
import TransportLookout.Library.Reference
import TransportLookout.Safety.FailedAttempts
import TransportLookout.Safety.Serving

namespace TransportLookout

open Relational Trace

/-- A scan starts in a commit of an execution that owns its shard. -/
def State.startsOwned (s : State) : Action → Bool
  | .worker i (.start _) => (s.executions[i]?).all fun e => e.owns s.db
  | _ => true

/-- Where the services of the shard have been listed. -/
def Pc.clearing : Pc → Bool
  | .servicesCleared | .hostsCleared | .cleared => true
  | _ => false

/-- Every service has its host, also while it is held back.  What an owner has listed are all
services of the shard, and hosts of it. -/
structure Linking (s : State) : Prop where
  linked : Refers s.db.services.rows ServiceObservation.hostObservationId s.db.hosts
  pending : ∀ e ∈ s.executions, ∀ x ∈ e.services, ∃ host ∈ e.hosts, host.id = x.hostObservationId
  services : ∀ e ∈ s.executions, e.owns s.db = true → e.pc.clearing = true →
    ∀ host ∈ s.db.hosts.rows, host.shardId = e.shardId → ∀ x ∈ s.db.services.rows,
      x.hostObservationId = host.id → x.id ∈ e.doomedServices
  hosts : ∀ e ∈ s.executions, e.owns s.db = true → e.pc.cleans = true →
    ∀ id ∈ e.doomedHosts, ∃ host ∈ s.db.hosts.rows, host.id = id ∧ host.shardId = e.shardId

theorem linking_start {db : Db}
    (h : Refers db.services.rows ServiceObservation.hostObservationId db.hosts) :
    Linking (State.start db) where
  linked := h
  pending := fun _ he => absurd he List.not_mem_nil
  services := fun _ he => absurd he List.not_mem_nil
  hosts := fun _ he => absurd he List.not_mem_nil

theorem clearing_of_cleans {pc : Pc} (h : pc.cleans = true) : pc.clearing = true := by
  cases pc <;> first | rfl | cases h

theorem unfinished_of_clearing {pc : Pc} (h : pc.clearing = true) (status : ShardStatus) :
    pc ≠ .finished status := by
  rintro rfl
  cases h

/-! ## An execution -/

section
variable {settings : Settings} {db db' : Db} {e e' : Execution} {b : WorkerAction}

/-- Services are added with their host. -/
theorem Execution.step_services
    (hp : ∀ x ∈ e.services, ∃ host ∈ e.hosts, host.id = x.hostObservationId)
    (h : e.step db settings b = some (db', e')) :
    ∀ x ∈ e'.services, ∃ host ∈ e'.hosts, host.id = x.hostObservationId := by
  rcases step_cases h with ⟨-, hmove⟩ | hc
  · cases hmove with
    | missing | lost => exact fun x hx => absurd hx List.not_mem_nil
    | @addHost run host services =>
      intro x hx
      rcases List.mem_append.mp hx with hold | hnew
      · obtain ⟨old, hmem, hid⟩ := hp x hold
        exact ⟨old, List.mem_append_left _ hmem, hid⟩
      · obtain ⟨_, -, rfl⟩ := List.mem_map.mp hnew
        exact ⟨_, List.mem_append_right e.hosts (List.mem_singleton_self _), rfl⟩
    | _ => exact hp
  · cases hc with
    | abandon | start => exact hp
    | beat _ _ _ _ he _ | beatLost _ _ _ he _ =>
      rw [he]
      exact fun x hx => absurd hx List.not_mem_nil
    | finish => exact fun x hx => absurd hx List.not_mem_nil

/-- The services are listed first, and no commit comes before the list is used. -/
theorem Execution.step_clearing (h : e.step db settings b = some (db', e'))
    (hpc : e'.pc.clearing = true) :
    db' = db ∧ ((e.pc.clearing = true ∧ e'.doomedServices = e.doomedServices) ∨
      e'.doomedServices = (db.servicesOf e.shardId).map ServiceObservation.id) := by
  rcases step_cases h with ⟨rfl, hmove⟩ | hc
  · refine ⟨rfl, ?_⟩
    cases hmove with
    | clearServices _ _ hhosts hdoomed =>
      subst hhosts
      exact Or.inr hdoomed
    | clearHosts hbefore => exact Or.inl ⟨by rw [hbefore]; rfl, rfl⟩
    | clearDiscoveries hbefore => exact Or.inl ⟨by rw [hbefore]; rfl, rfl⟩
    | addHost hbefore =>
      have hclearing : e.pc.clearing = true := hpc
      rw [hbefore] at hclearing
      cases hclearing
    | @storeDiscovery _ pc _ _ _ _ hnext =>
      have hnot : pc.clearing = false := by
        split at hnext
        · rw [hnext]
          rfl
        · rw [hnext]
          rfl
      rw [show pc.clearing = true from hpc] at hnot
      cases hnot
    | _ => cases hpc
  · cases hc with
    | beat _ _ _ _ _ hnext | beatLost _ _ _ _ hnext =>
      rcases hnext with ⟨hexited, -⟩ | ⟨hpolling, -⟩
      · rw [hexited] at hpc
        cases hpc
      · rw [hpolling] at hpc
        cases hpc
    | _ => cases hpc

end

/-! ## A step -/

section
variable {settings : Settings} {s s' : State} {a : Action}

/-- An execution that owns its shard after a step: it owned it before, and has taken the step
itself or is as it was. -/
theorem owner_cases (hs : Serving s) (h : s.step settings a = some s') {e' : Execution}
    (he' : e' ∈ s'.executions) (howns : e'.owns s'.db = true) (hpc : e'.pc ≠ .claimed) :
    ∃ i, s'.executions[i]? = some e' ∧
      ((s.executions[i]? = some e' ∧ e'.owns s.db = true ∧ ∀ b, a ≠ .worker i b) ∨
        ∃ e b, s.executions[i]? = some e ∧ e.owns s.db = true ∧ a = .worker i b ∧
          e'.shardId = e.shardId ∧ e.step s.db settings b = some (s'.db, e')) := by
  obtain ⟨i, hi⟩ := List.mem_iff_getElem?.mp he'
  refine ⟨i, hi, ?_⟩
  rcases execution_cases h hi with ⟨he, ha⟩ | ⟨e, b, he, ha, hstep⟩ | ⟨_, _, -, -, -, hnew⟩
  · exact Or.inl ⟨he, owns_back hs.copies hs.fenced h (List.mem_of_getElem? he) howns, ha⟩
  · have hmem : e ∈ s.executions := List.mem_of_getElem? he
    exact Or.inr ⟨e, b, he, owns_stepped hs.copies hs.fenced h hmem hstep howns, ha,
      (Execution.step_lease hstep).1, hstep⟩
  · rw [hnew] at hpc
    exact absurd rfl hpc

/-- A start takes the rows of its own shard, and a flush puts services in with their hosts. -/
theorem linked_step (hl : Linking s) (hk : s.startsOwned a = true)
    (h : s.step settings a = some s') :
    Refers s'.db.services.rows ServiceObservation.hostObservationId s'.db.hosts := by
  by_cases ha : ∃ i b, a = .worker i b
  rotate_left
  · obtain ⟨hhosts, hservices, -⟩ := results_frame h fun i b hab => ha ⟨i, b, hab⟩
    rw [hhosts, hservices]
    exact hl.linked
  obtain ⟨i, b, rfl⟩ := ha
  obtain ⟨e, db, e', he, hstep, rfl⟩ := step_worker h
  have hmem : e ∈ s.executions := List.mem_of_getElem? he
  rcases Execution.step_cases hstep with ⟨rfl, -⟩ | hc
  · exact hl.linked
  rcases hc.results with ⟨hhosts, hservices, -⟩ | ⟨now, rfl, hpc, -, hhosts, hservices, -⟩ |
    ⟨-, -, hhosts, hservices, -⟩
  · show Refers db.services.rows _ db.hosts
    rw [hhosts, hservices]
    exact hl.linked
  · have howns : e.owns s.db = true := by
      rw [State.startsOwned, he, Option.all_some] at hk
      exact hk
    show Refers db.services.rows _ db.hosts
    rw [hhosts, hservices]
    refine (hl.linked.of_rows fun x hx => ⟨x, (Table.mem_delete.mp hx).1, rfl⟩).delete ?_
    intro x hx host hhost hlink
    obtain ⟨hservice, hkept⟩ := Table.mem_delete.mp hx
    refine decide_eq_false fun hdoomed => of_decide_eq_false hkept ?_
    -- the host that would be deleted is one of the shard, so its services are listed
    obtain ⟨host', hhost', hid, hshard⟩ := hl.hosts e hmem howns (by rw [hpc]; rfl) _ hdoomed
    have hsame : host' = host := Table.eq_of_key hhost' hhost hid
    subst hsame
    exact hl.services e hmem howns (by rw [hpc]; rfl) host' hhost hshard x hservice hlink.symm
  · show Refers db.services.rows _ db.hosts
    rw [Table.rows_append? hservices]
    refine (hl.linked.of_keys (.append? hhosts)).append fun x hx => ?_
    obtain ⟨host, hhost, hid⟩ := hl.pending e hmem x hx
    rw [← hid, show db.hosts.get host.id = some host from Table.get_append?_of_mem hhosts hhost]
    rfl

theorem pending_step (hl : Linking s) (h : s.step settings a = some s') :
    ∀ e ∈ s'.executions, ∀ x ∈ e.services, ∃ host ∈ e.hosts, host.id = x.hostObservationId := by
  refine executions_step h hl.pending ?_ fun _ _ x hx => absurd hx List.not_mem_nil
  exact fun e he _ _ _ _ hstep => Execution.step_services (hl.pending e he) hstep

/-- A service that is inserted comes with its host, from the same execution. -/
theorem service_inserted (hl : Linking s) (h : s.step settings a = some s')
    {x : ServiceObservation} (hx : x ∈ s'.db.services.rows) :
    x ∈ s.db.services.rows ∨ s.db.hosts.get x.hostObservationId = none := by
  by_cases ha : ∃ i b, a = .worker i b
  rotate_left
  · obtain ⟨-, hservices, -⟩ := results_frame h fun i b hab => ha ⟨i, b, hab⟩
    exact Or.inl (hservices ▸ hx)
  obtain ⟨i, b, rfl⟩ := ha
  obtain ⟨e, db, e', he, hstep, rfl⟩ := step_worker h
  rcases Execution.step_cases hstep with ⟨rfl, -⟩ | hc
  · exact Or.inl hx
  rcases hc.results with ⟨-, hservices, -⟩ | ⟨_, -, -, -, -, hservices, -⟩ |
    ⟨-, -, hhosts, hservices, -⟩
  · exact Or.inl (hservices ▸ hx)
  · exact Or.inl (Table.mem_delete.mp (hservices ▸ hx)).1
  · have hmem : x ∈ s.db.services.rows ++ e.services := Table.rows_append? hservices ▸ hx
    refine (List.mem_append.mp hmem).imp_right fun hnew => ?_
    obtain ⟨host, hhost, hid⟩ := hl.pending e (List.mem_of_getElem? he) x hnew
    rw [← hid]
    exact Table.get_of_append? hhosts hhost

theorem services_step (hs : Serving s) (hl : Linking s) (h : s.step settings a = some s') :
    ∀ e ∈ s'.executions, e.owns s'.db = true → e.pc.clearing = true →
      ∀ host ∈ s'.db.hosts.rows, host.shardId = e.shardId → ∀ x ∈ s'.db.services.rows,
        x.hostObservationId = host.id → x.id ∈ e.doomedServices := by
  intro e' he' howns' hclearing host hhost hshard x hx hlink
  obtain ⟨i, hi, ⟨he, howns, -⟩ | ⟨e, b, he, howns, -, hsame, hstep⟩⟩ :=
    owner_cases hs h he' howns' (by rintro hpc; rw [hpc] at hclearing; cases hclearing)
  · have hmem : e' ∈ s.executions := List.mem_of_getElem? he
    have hold := owned_hosts hs.fenced hs.signed h he howns hi (unfinished_of_clearing hclearing)
      host hhost hshard
    rcases service_inserted hl h hx with hservice | hnone
    · exact hl.services e' hmem howns hclearing host hold hshard x hservice hlink
    · rw [hlink, show s.db.hosts.get host.id = some host from Table.get_of_mem hold] at hnone
      cases hnone
  · rw [hsame] at hshard
    obtain ⟨hdb, hcase⟩ := Execution.step_clearing hstep hclearing
    rw [hdb] at hhost hx
    rcases hcase with ⟨hbefore, hdoomed⟩ | hdoomed
    · rw [hdoomed]
      exact hl.services e (List.mem_of_getElem? he) howns hbefore host hhost hshard x hx hlink
    · rw [hdoomed]
      refine List.mem_map.mpr ⟨x, Table.mem_select.mpr ⟨hx, decide_eq_true ?_⟩, rfl⟩
      rw [hlink]
      exact List.mem_map.mpr ⟨host, Table.mem_select.mpr ⟨hhost, decide_eq_true hshard⟩, rfl⟩

/-- The hosts that an owner has listed are deleted by no one else. -/
theorem host_kept (hs : Serving s) (hl : Linking s) (hk : s.startsOwned a = true)
    (h : s.step settings a = some s') {i : Nat} {e : Execution} (he : s.executions[i]? = some e)
    (howns : e.owns s.db = true) (ha : ∀ b, a ≠ .worker i b) {host : HostObservation}
    (hhost : host ∈ s.db.hosts.rows) (hshard : host.shardId = e.shardId) :
    host ∈ s'.db.hosts.rows := by
  by_cases hb : ∃ j b, a = .worker j b
  rotate_left
  · obtain ⟨hhosts, -, -⟩ := results_frame h fun j b hab => hb ⟨j, b, hab⟩
    rw [hhosts]
    exact hhost
  obtain ⟨j, b, rfl⟩ := hb
  obtain ⟨e₁, db, e₁', he₁, hstep, rfl⟩ := step_worker h
  have hmem : e₁ ∈ s.executions := List.mem_of_getElem? he₁
  rcases Execution.step_cases hstep with ⟨rfl, -⟩ | hc
  · exact hhost
  show host ∈ db.hosts.rows
  rcases hc.results with ⟨hhosts, -, -⟩ | ⟨now, rfl, hpc, -, hhosts, -, -⟩ | ⟨-, -, hhosts, -, -⟩
  · rw [hhosts]
    exact hhost
  · have howns₁ : e₁.owns s.db = true := by
      rw [State.startsOwned, he₁, Option.all_some] at hk
      exact hk
    rw [hhosts]
    refine Table.mem_delete.mpr ⟨hhost, decide_eq_false fun hdoomed => ?_⟩
    obtain ⟨host', hhost', hid, hshard'⟩ := hl.hosts e₁ hmem howns₁ (by rw [hpc]; rfl) _ hdoomed
    have hsame : host' = host := Table.eq_of_key hhost' hhost hid
    subst hsame
    have hij : j = i := holder_unique hs.fenced he₁ he (holds_of_owns howns₁)
      (holds_of_owns howns) (hshard'.symm.trans hshard)
    exact ha (.start now) (by rw [hij])
  · rw [Table.rows_append? hhosts]
    exact List.mem_append_left _ hhost

theorem hosts_step (hs : Serving s) (hl : Linking s) (hk : s.startsOwned a = true)
    (h : s.step settings a = some s') :
    ∀ e ∈ s'.executions, e.owns s'.db = true → e.pc.cleans = true →
      ∀ id ∈ e.doomedHosts, ∃ host ∈ s'.db.hosts.rows, host.id = id ∧ host.shardId = e.shardId := by
  intro e' he' howns' hcleans id hid
  obtain ⟨i, hi, ⟨he, howns, ha⟩ | ⟨e, b, he, howns, -, hsame, hstep⟩⟩ :=
    owner_cases hs h he' howns' (by rintro hpc; rw [hpc] at hcleans; cases hcleans)
  · have hmem : e' ∈ s.executions := List.mem_of_getElem? he
    obtain ⟨host, hhost, hkey, hshard⟩ := hl.hosts e' hmem howns hcleans id hid
    exact ⟨host, host_kept hs hl hk h he howns ha hhost hshard, hkey, hshard⟩
  · rw [hsame]
    obtain ⟨hdb, -⟩ := Execution.step_clearing hstep (clearing_of_cleans hcleans)
    rw [hdb]
    have hrec := Execution.step_recording hstep
    have hcase : e'.pc = .hostsCleared ∨ e'.pc = .cleared := by
      revert hcleans
      cases e'.pc <;> simp [Pc.cleans]
    rcases hcase with hpc | hpc
    · rw [hrec.hostsCleared hpc] at hid
      obtain ⟨host, hhost, rfl⟩ := List.mem_map.mp hid
      obtain ⟨hmem, hshard⟩ := Table.mem_select.mp hhost
      exact ⟨host, hmem, rfl, of_decide_eq_true hshard⟩
    · obtain ⟨hbefore, hdoomed, -⟩ := hrec.cleared hpc
      rw [hdoomed] at hid
      exact hl.hosts e (List.mem_of_getElem? he) howns (by rw [hbefore]; rfl) id hid

theorem linking_step (hs : Serving s) (hl : Linking s) (hk : s.startsOwned a = true)
    (h : s.step settings a = some s') : Linking s' where
  linked := linked_step hl hk h
  pending := pending_step hl h
  services := services_step hs hl h
  hosts := hosts_step hs hl hk h

theorem linking_grows (hl : Linking s) {db : Db} (hg : s.db.Grows db) :
    Linking { s with db := db } where
  linked := by
    show Refers db.services.rows _ db.hosts
    rw [hg.hosts, hg.services]
    exact hl.linked
  pending := hl.pending
  services := by
    intro e he howns hclearing host hhost hshard x hx
    replace hhost : host ∈ db.hosts.rows := hhost
    replace hx : x ∈ db.services.rows := hx
    rw [hg.hosts] at hhost
    rw [hg.services] at hx
    exact hl.services e he (hg.owns.mp howns) hclearing host hhost hshard x hx
  hosts := by
    intro e he howns hcleans id hid
    show ∃ host ∈ db.hosts.rows, _
    rw [hg.hosts]
    exact hl.hosts e he (hg.owns.mp howns) hcleans id hid

end

end TransportLookout
