/-
What the processes can do next.

The scheduler, the publisher and the workers run in loops and no one asks them to.
`Resumes` is what steps of theirs can lead to at one instant: no request and no cancellation
is among them.  One lemma for each pass says that it goes through, from any state, and what
its commits leave.  Sessions that are in flight when it begins are left where they are.
-/
import Mathlib.Data.Fintype.EquivFin
import Mathlib.Data.Set.Finite.Basic
import TransportLookout.Library.Evolution
import TransportLookout.Library.Reach
import TransportLookout.Safety.Backoff
import TransportLookout.Safety.Outbox

namespace TransportLookout

open Relational Trace

/-- The steps that no one asks for. -/
def Action.unattended : Action → Bool
  | .createRun .. | .loadCancel .. | .selectCancel .. | .commitCancel .. => false
  | _ => true

/-- The same at the instant `now`, if they have a time. -/
def Action.resumes (now : DateTime) (a : Action) : Bool :=
  a.unattended && decide (∀ t ∈ a.time, t = now)

theorem Action.resumes_iff {now : DateTime} {a : Action} :
    a.resumes now = true ↔ a.unattended = true ∧ ∀ t ∈ a.time, t = now := by
  rw [resumes, Bool.and_eq_true, decide_eq_true_eq]

/-- A step without a time can be taken at any. -/
theorem Action.resumes_untimed {now : DateTime} {a : Action} (h : a.unattended = true)
    (htime : a.time = none) : a.resumes now = true :=
  resumes_iff.mpr ⟨h, fun t ht => by rw [htime] at ht; cases ht⟩

theorem Action.resumes_timed {now : DateTime} {a : Action} (h : a.unattended = true)
    (htime : a.time = some now) : a.resumes now = true :=
  resumes_iff.mpr ⟨h, fun t ht => by rw [htime] at ht; exact (Option.some.inj ht).symm⟩

abbrev Resumes (settings : Settings) (now : DateTime) :=
  Reaches (State.step settings) (Action.resumes now)

/-- There is always another token. -/
theorem exists_new (n : Nat) (used : List Uuid) :
    ∃ l : List Uuid, l.length = n ∧ l.Nodup ∧ ∀ x ∈ l, x ∉ used := by
  obtain ⟨s, hs, hcard⟩ :=
    (List.finite_toSet used).infinite_compl.exists_subset_card_eq n
  refine ⟨s.toList, (Finset.length_toList s).trans hcard, s.nodup_toList, fun x hx => ?_⟩
  exact hs (Finset.mem_toList.mp hx)

section
variable (settings : Settings) {s : State} (now : DateTime)

/-! ## Recovery -/

theorem resumes_recovery (s : State) :
    Resumes settings now s { s with
      db := s.db.flushShards (Db.staleShards settings s.db now) ScanShard.requeued
      recoveries := s.recoveries ++ [[]] } := by
  have hrun : runAll (State.step settings) s
      [.loadStale now, .commitRecovery s.recoveries.length] = some { s with
        db := s.db.flushShards (Db.staleShards settings s.db now) ScanShard.requeued
        recoveries := s.recoveries ++ [[]] } := by
    simp [runAll, State.step]
  exact .of_runAll hrun (by simp [Action.resumes_iff, Action.unattended, Action.time])

/-! ## Dispatch -/

/-- The rows of a dispatch, for any tokens and ids that are new. -/
theorem leaseShards_of_fresh {db : Db} {leases : List (Uuid × Uuid)}
    {eventIds : List Uuid} (hlen : eventIds.length = leases.length) (hnodup : eventIds.Nodup)
    (hfresh : ∀ id ∈ eventIds, id ∉ db.outbox.rows.map OutboxEvent.id) :
    ∃ db', Db.leaseShards settings db now leases eventIds = some db' := by
  obtain ⟨events, hevents⟩ : ∃ events,
      events = leases.zipWith (fun l id => Db.leaseEvent now l.1 l.2 id) eventIds := ⟨_, rfl⟩
  have hkeys : events.map Keyed.key = eventIds := by
    rw [hevents, List.map_zipWith]
    refine List.ext_getElem (by rw [List.length_zipWith, hlen, Nat.min_self]) fun i _ _ => ?_
    rw [List.getElem_zipWith]
    rfl
  have hnone : ∀ e ∈ events, db.outbox.get (Keyed.key e) = none := by
    intro e he
    refine Option.eq_none_iff_forall_ne_some.mpr fun e' he' => ?_
    refine hfresh (Keyed.key e) (hkeys ▸ List.mem_map_of_mem he) ?_
    rw [← Table.get_key he']
    exact List.mem_map_of_mem (Table.get_mem he')
  obtain ⟨outbox, houtbox⟩ := Table.append?_of_fresh (hkeys.symm ▸ hnodup) hnone
  rw [Db.leaseShards, ← hevents, houtbox]
  exact ⟨_, rfl⟩

/-- A dispatch of the run leases a shard, if the budget and the backoff leave one. -/
theorem resumes_dispatch {runId : Uuid} {run : ScanRun} {profile : ScanProfile}
    (hrun : s.db.runs.get runId = some run) (hactive : run.status.terminal = false)
    (hprofile : s.db.profiles.get run.profileId = some profile)
    (hready : s.db.dispatchableShards runId now (s.db.dispatchCapacity profile runId) ≠ []) :
    ∃ t leases eventIds, Resumes settings now s t ∧ leases ≠ [] ∧
      leases.map Prod.fst = (s.db.dispatchableShards runId now
        (s.db.dispatchCapacity profile runId)).map ScanShard.id ∧
      eventIds.length = leases.length ∧
      Db.leaseShards settings s.db now leases eventIds = some t.db := by
  obtain ⟨capacity, hcapacity⟩ : ∃ n, n = s.db.dispatchCapacity profile runId := ⟨_, rfl⟩
  rw [← hcapacity] at hready ⊢
  obtain ⟨chosen, hchosen⟩ : ∃ l, l = s.db.dispatchableShards runId now capacity := ⟨_, rfl⟩
  rw [← hchosen] at hready ⊢
  obtain ⟨tokens, htokens, hnodup, hissued⟩ := exists_new chosen.length s.issued
  obtain ⟨eventIds, hids, hidsNodup, hidsFresh⟩ :=
    exists_new chosen.length (s.db.outbox.rows.map OutboxEvent.id)
  have hzip : ((chosen.map ScanShard.id).zip tokens).length = chosen.length := by
    rw [List.length_zip, List.length_map, htokens, Nat.min_self]
  obtain ⟨db, hdb⟩ : ∃ db, Db.leaseShards settings s.db now
      ((chosen.map ScanShard.id).zip tokens) eventIds = some db :=
    leaseShards_of_fresh settings now (by rw [hids, hzip]) hidsNodup hidsFresh
  have hcount : s.step settings (.countActive .fresh runId) =
      some { s with dispatches := s.dispatches ++ [⟨runId, capacity⟩] } := by
    simp [State.step, State.sessionRun, hrun, hactive, hprofile, hcapacity]
  have hlease : State.step settings { s with dispatches := s.dispatches ++ [⟨runId, capacity⟩] }
      (.lease s.dispatches.length tokens eventIds now) = some { s with
        db := db
        issued := s.issued ++ tokens
        dispatches := s.dispatches ++ [⟨runId, 0⟩] } := by
    simpa [State.step, ← hchosen, htokens, hids, hnodup, hdb] using hissued
  have hresumes := (Reaches.of_step hcount (Action.resumes_untimed rfl rfl)).trans
    (Reaches.of_step hlease (Action.resumes_timed rfl rfl))
  refine ⟨_, (chosen.map ScanShard.id).zip tokens, eventIds, hresumes, ?_, ?_, ?_, hdb⟩
  · intro hnil
    rw [hnil] at hzip
    exact hready (List.eq_nil_of_length_eq_zero hzip.symm)
  · exact List.map_fst_zip (by rw [List.length_map, htokens])
  · rw [hids, hzip]

/-! ## Publication -/

/-- One event of a pass: the broker takes the message, and the commit says so. -/
theorem resumes_event {p : Nat} {e : OutboxEvent} {rest : List OutboxEvent} {token : Uuid}
    (hp : s.publications[p]? = some { pending := e :: rest })
    (htoken : e.payload.leaseToken = some token) :
    ∃ t, Resumes settings now s t ∧ t.db = s.db.flushEvent e (e.delivered now) ∧
      t.sent = s.sent ++ [(e.payload.shardId, token)] ∧
      t.publications[p]? = some { pending := rest } := by
  have hlt : p < s.publications.length := (List.getElem?_eq_some_iff.mp hp).1
  have hlegacy : e.legacy = false := by
    rw [OutboxEvent.legacy, htoken, Option.isNone_some, Bool.and_false]
  have hsend : s.step settings (.sendTask p none) = some { s with
      sent := s.sent ++ [(e.payload.shardId, token)]
      publications := s.publications.set p { pending := e :: rest, phase := .sent } } := by
    simp [State.step, hp, hlegacy, htoken]
  have hsettle : State.step settings { s with
        sent := s.sent ++ [(e.payload.shardId, token)]
        publications := s.publications.set p { pending := e :: rest, phase := .sent } }
      (.settleEvent p now) = some { s with
        db := s.db.flushEvent e (e.delivered now)
        sent := s.sent ++ [(e.payload.shardId, token)]
        publications := s.publications.set p { pending := rest } } := by
    simp [State.step, List.getElem?_set_self hlt]
  have hresumes := (Reaches.of_step hsend (Action.resumes_untimed rfl rfl)).trans
    (Reaches.of_step hsettle (Action.resumes_timed rfl rfl))
  exact ⟨_, hresumes, rfl, rfl, List.getElem?_set_self hlt⟩

/-- What a pass leaves of the outbox: an event it has not delivered it has not touched. -/
structure Delivers (s t : State) (events : List OutboxEvent) : Prop where
  frame : t.db = { s.db with outbox := t.db.outbox }
  kept : ∀ m ∈ s.sent, m ∈ t.sent
  sent : ∀ e ∈ events, ∀ token, e.payload.leaseToken = some token →
    (e.payload.shardId, token) ∈ t.sent
  waiting : ∀ r ∈ t.db.outbox.rows, r.deliveredAt = none → r ∈ s.db.outbox.rows ∧ r ∉ events
  unsent : ∀ r ∈ s.db.outbox.rows, r.deliveredAt = none → r ∉ events → r ∈ t.db.outbox.rows

/-- The pass from its load on, event by event. -/
theorem resumes_events {p : Nat} (events : List OutboxEvent) (s : State)
    (hp : s.publications[p]? = some { pending := events })
    (hloaded : ∀ e ∈ events, e ∈ s.db.outbox.rows ∧ e.deliveredAt = none)
    (htokens : ∀ e ∈ events, ∃ token, e.payload.leaseToken = some token)
    (hnodup : (events.map OutboxEvent.id).Nodup) :
    ∃ t, Resumes settings now s t ∧ Delivers s t events := by
  induction events generalizing s with
  | nil =>
    exact ⟨s, .refl s, rfl, fun _ hm => hm, fun _ he => absurd he List.not_mem_nil,
      fun _ hr _ => ⟨hr, List.not_mem_nil⟩, fun _ hr _ _ => hr⟩
  | cons e rest ih =>
    obtain ⟨token, htoken⟩ := htokens e List.mem_cons_self
    have hlt : p < s.publications.length := (List.getElem?_eq_some_iff.mp hp).1
    obtain ⟨hfirst, hnodup⟩ := List.nodup_cons.mp hnodup
    obtain ⟨u, hgoes, hdb, hsent, hpub⟩ := resumes_event settings now hp htoken
    -- a row that is not the one of the event is as it was
    have hkept : ∀ r ∈ s.db.outbox.rows, r.id ≠ e.id → r ∈ u.db.outbox.rows := by
      intro r hr hne
      have hget := Db.get_flushEvent s.db e (e.delivered now) r.id
      rw [show s.db.outbox.get r.id = some r from Table.get_of_mem hr, Option.map_some,
        if_neg hne, ← hdb] at hget
      exact Table.get_mem hget
    have hne : ∀ c ∈ rest, c.id ≠ e.id := fun c hc hid =>
      hfirst (hid ▸ List.mem_map_of_mem hc)
    have hloaded' : ∀ c ∈ rest, c ∈ u.db.outbox.rows ∧ c.deliveredAt = none := by
      intro c hc
      obtain ⟨hrow, hnone⟩ := hloaded c (List.mem_cons_of_mem e hc)
      exact ⟨hkept c hrow (hne c hc), hnone⟩
    obtain ⟨t, ht, hd⟩ := ih u hpub hloaded'
      (fun c hc => htokens c (List.mem_cons_of_mem e hc)) hnodup
    refine ⟨t, hgoes.trans ht, ?_, ?_, ?_, ?_, ?_⟩
    · rw [hd.frame, hdb]
      rfl
    · exact fun m hm => hd.kept m (hsent ▸ List.mem_append_left _ hm)
    · intro c hc token' htoken'
      rcases List.mem_cons.mp hc with rfl | hc
      · rw [htoken] at htoken'
        cases htoken'
        exact hd.kept _ (hsent ▸ List.mem_append_right _ (List.mem_singleton_self _))
      · exact hd.sent c hc token' htoken'
    · intro r hr hnone
      obtain ⟨hrow, hrest⟩ := hd.waiting r hr hnone
      rw [hdb] at hrow
      have hrow' : r ∈ (s.db.outbox.modify e.id (OutboxEvent.writeBack e (e.delivered now))
        fun _ => rfl).rows := hrow
      rcases Table.mem_modify hrow' with ⟨hold, hid⟩ | ⟨old, hold, hid, rfl⟩
      · refine ⟨hold, fun hmem => ?_⟩
        rcases List.mem_cons.mp hmem with rfl | hmem
        · exact hid rfl
        · exact hrest hmem
      · -- the row of the event has its delivery time now
        have hwritten : Relational.writeBack e.deliveredAt (some now) old.deliveredAt = none :=
          hnone
        rw [(hloaded e List.mem_cons_self).2, writeBack_of_ne (by simp)] at hwritten
        cases hwritten
    · intro r hr hnone hmem
      refine hd.unsent r (hkept r hr fun hid => hmem ?_) hnone fun hrest =>
        hmem (List.mem_cons_of_mem e hrest)
      have hsame : r = e := s.db.outbox.eq_of_key hr (hloaded e List.mem_cons_self).1 hid
      rw [hsame]
      exact List.mem_cons_self

/-- The batch of `publish_pending_outbox`. -/
def publishLimit : Nat := 100

/-- One pass, from its query to its last commit. -/
theorem resumes_pass (s : State)
    (htokens : ∀ e ∈ s.db.outbox.rows, e.deliveredAt = none →
      ∃ token, e.payload.leaseToken = some token) :
    ∃ t, Resumes settings now s t ∧ Delivers s t (s.db.pendingEvents publishLimit) := by
  have hload : s.step settings (.loadEvents publishLimit) = some { s with
      publications := s.publications ++ [{ pending := s.db.pendingEvents publishLimit }] } := rfl
  have hlast : (s.publications ++ [{ pending := s.db.pendingEvents publishLimit }])[
      s.publications.length]? = some { pending := s.db.pendingEvents publishLimit } :=
    List.getElem?_concat_length
  obtain ⟨t, ht, hd⟩ := resumes_events settings now (s.db.pendingEvents publishLimit)
    { s with publications := s.publications ++ [{ pending := s.db.pendingEvents publishLimit }] }
    hlast (fun e he => ⟨Db.mem_outbox_of_pending he, Db.deliveredAt_of_pending he⟩)
    (fun e he => htokens e (Db.mem_outbox_of_pending he) (Db.deliveredAt_of_pending he))
    (s.db.nodup_pendingEvents publishLimit)
  exact ⟨t, (Reaches.of_step hload (Action.resumes_untimed rfl rfl)).trans ht,
    ⟨hd.frame, hd.kept, hd.sent, hd.waiting, hd.unsent⟩⟩

/-- A pass loads an event, if there is one to publish. -/
theorem exists_pending {db : Db} {e : OutboxEvent} (he : e ∈ db.outbox.rows)
    (hnone : e.deliveredAt = none) : ∃ c, c ∈ db.pendingEvents publishLimit := by
  have hmem : e ∈ (db.outbox.select fun e => e.deliveredAt.isNone).insertionSort
      fun a b => a.createdAt ≤ b.createdAt :=
    (List.mem_insertionSort _).mpr (Table.mem_select.mpr ⟨he, Option.isNone_iff_eq_none.mpr hnone⟩)
  obtain ⟨c, rest, hcons⟩ := List.exists_cons_of_ne_nil (List.ne_nil_of_mem hmem)
  refine ⟨c, ?_⟩
  rw [Db.pendingEvents, hcons, publishLimit, List.take_succ_cons]
  exact List.mem_cons_self

/-- What passes leave of the events that waited in `s`. -/
structure Publishing (s t : State) : Prop where
  frame : t.db = { s.db with outbox := t.db.outbox }
  waiting : ∀ r ∈ t.db.outbox.rows, r.deliveredAt = none → r ∈ s.db.outbox.rows
  sent : ∀ e ∈ s.db.outbox.rows, e.deliveredAt = none → e ∈ t.db.outbox.rows ∨
    ∀ token, e.payload.leaseToken = some token → (e.payload.shardId, token) ∈ t.sent

theorem Publishing.pass {t u : State} (h : Publishing s t)
    (hd : Delivers t u (t.db.pendingEvents publishLimit)) : Publishing s u where
  frame := by rw [hd.frame, h.frame]
  waiting := fun r hr hnone => h.waiting r (hd.waiting r hr hnone).1 hnone
  sent := by
    intro e he hnone
    by_cases hmem : e ∈ t.db.pendingEvents publishLimit
    · exact Or.inr (hd.sent e hmem)
    · refine (h.sent e he hnone).imp (fun hrow => hd.unsent e hrow hnone hmem) fun hsent token ht =>
        hd.kept _ (hsent token ht)

/-- A pass that loads an event leaves fewer to publish. -/
theorem Delivers.count_lt {t u : State} (hd : Delivers t u (t.db.pendingEvents publishLimit))
    {c : OutboxEvent} (hc : c ∈ t.db.pendingEvents publishLimit) :
    (u.db.outbox.count fun e => e.deliveredAt.isNone) <
      t.db.outbox.count fun e => e.deliveredAt.isNone := by
  have hrow := Db.mem_outbox_of_pending hc
  refine Table.count_lt_count hrow (Option.isNone_iff_eq_none.mpr (Db.deliveredAt_of_pending hc))
    fun r hr hnone => ?_
  obtain ⟨hold, hnot⟩ := hd.waiting r hr (Option.isNone_iff_eq_none.mp hnone)
  refine ⟨fun hkey => hnot ?_, r, hold, rfl, hnone⟩
  rw [t.db.outbox.eq_of_key hold hrow hkey]
  exact hc

/-- Passes go on until nothing is left to publish. -/
theorem resumes_publication (s : State)
    (htokens : ∀ e ∈ s.db.outbox.rows, e.deliveredAt = none →
      ∃ token, e.payload.leaseToken = some token) :
    ∃ t, Resumes settings now s t ∧ t.db = { s.db with outbox := t.db.outbox } ∧
      ∀ e ∈ s.db.outbox.rows, e.deliveredAt = none → ∀ token, e.payload.leaseToken = some token →
        (e.payload.shardId, token) ∈ t.sent := by
  have hround : ∀ t : State, Publishing s t → ¬ (∀ r ∈ t.db.outbox.rows, r.deliveredAt ≠ none) →
      ∃ u, Resumes settings now t u ∧ Publishing s u ∧
        (u.db.outbox.count fun e => e.deliveredAt.isNone) <
          t.db.outbox.count fun e => e.deliveredAt.isNone := by
    intro t ht hleft
    push Not at hleft
    obtain ⟨e, he, hnone⟩ := hleft
    obtain ⟨c, hc⟩ := exists_pending he hnone
    obtain ⟨u, hu, hd⟩ := resumes_pass settings now t fun e he hnone =>
      htokens e (ht.waiting e he hnone) hnone
    exact ⟨u, hu, ht.pass hd, hd.count_lt hc⟩
  obtain ⟨t, ht, hpublished, hdone⟩ := Reaches.of_rounds
    (fun t : State => t.db.outbox.count fun e => e.deliveredAt.isNone) hround
    ⟨rfl, fun _ hr _ => hr, fun _ he _ => Or.inl he⟩
  refine ⟨t, ht, hpublished.frame, fun e he hnone => ?_⟩
  exact (hpublished.sent e he hnone).resolve_left fun hrow => hdone e hrow hnone

/-! ## Claim -/

/-- A worker that is given the message of a leased shard claims it. -/
theorem resumes_claim {k token : Uuid} {r : ScanShard} (hsent : (k, token) ∈ s.sent)
    (hr : s.db.shards.get k = some r) (hheld : r.held k token .leased = true)
    (workerId : String) :
    ∃ t, Resumes settings now s t ∧ s.db.claimLease k token workerId now = some t.db ∧
      t.executions[s.executions.length]? = some { shardId := k, leaseToken := token } := by
  obtain ⟨db, hdb⟩ := Option.isSome_iff_exists.mp (Db.claimLease_of_held hr hheld workerId now)
  have hclaim : s.step settings (.deliver k token workerId now) = some { s with
      db := db
      executions := s.executions ++ [{ shardId := k, leaseToken := token }] } := by
    simp only [State.step, if_pos hsent, hdb]
  exact ⟨_, Reaches.of_step hclaim (Action.resumes_timed rfl rfl), hdb, List.getElem?_concat_length⟩

end

end TransportLookout
