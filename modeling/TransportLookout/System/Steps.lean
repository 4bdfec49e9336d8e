/-
What each action of the system does.

One inversion lemma per action that writes, and one lemma per component of the
state that says how a step can change it.  The step function is unfolded here
and nowhere else.
-/
import TransportLookout.System

namespace TransportLookout

open Relational

section
variable {settings : Settings} {s s' : State}

theorem step_worker {i : Nat} {a : WorkerAction} (h : s.step settings (.worker i a) = some s') :
    ∃ e db e', s.executions[i]? = some e ∧ e.step s.db settings a = some (db, e') ∧
      s' = { s with db := db, executions := s.executions.set i e' } := by
  simp only [State.step] at h
  obtain ⟨e, he, h⟩ := Option.bind_eq_some_iff.mp h
  obtain ⟨⟨db, e'⟩, hstep, h⟩ := Option.bind_eq_some_iff.mp h
  cases h
  exact ⟨e, db, e', he, hstep, rfl⟩

theorem step_createRun {scopeId profileId runId : Uuid} {actor : String}
    {shards : List (Uuid × String)}
    (h : s.step settings (.createRun scopeId profileId actor runId shards) = some s') :
    ∃ scope profile db, s.db.scopes.get scopeId = some scope ∧
      s.db.profiles.get profileId = some profile ∧
      s.db.createRun scope profile actor runId shards = .ok db ∧ s' = { s with db := db } := by
  simp only [State.step] at h
  obtain ⟨scope, hscope, h⟩ := Option.bind_eq_some_iff.mp h
  obtain ⟨profile, hprofile, h⟩ := Option.bind_eq_some_iff.mp h
  split at h
  · next db hdb =>
    cases h
    exact ⟨scope, profile, db, hscope, hprofile, hdb, rfl⟩
  · cases h

theorem step_lease {p : Nat} {tokens eventIds : List Uuid} {now : DateTime}
    (h : s.step settings (.lease p tokens eventIds now) = some s') :
    ∃ d db, s.dispatches[p]? = some d ∧
      tokens.length = (s.db.dispatchableShards d.runId now d.capacity).length ∧
      eventIds.length = (s.db.dispatchableShards d.runId now d.capacity).length ∧
      tokens.Nodup ∧ (∀ t ∈ tokens, t ∉ s.issued) ∧
      Db.leaseShards settings s.db now
        (((s.db.dispatchableShards d.runId now d.capacity).map ScanShard.id).zip tokens)
          eventIds = some db ∧
      s' = { s with
        db := db
        issued := s.issued ++ tokens
        dispatches := s.dispatches.set p { d with capacity := 0 } } := by
  simp only [State.step] at h
  obtain ⟨d, hd, h⟩ := Option.bind_eq_some_iff.mp h
  split at h
  · next hg =>
    obtain ⟨hlen, hlen', hnodup, hfresh⟩ := hg
    obtain ⟨db, hdb, h⟩ := Option.bind_eq_some_iff.mp h
    cases h
    exact ⟨d, db, hd, hlen, hlen', hnodup, hfresh, hdb, rfl⟩
  · cases h

theorem step_dropEvent {p : Nat} {now : DateTime}
    (h : s.step settings (.dropEvent p now) = some s') :
    ∃ pub e rest shard, s.publications[p]? = some pub ∧ pub.pending = e :: rest ∧
      pub.phase = .looked shard ∧
      s' = { s with
        db := s.db.flushEvent e (e.superseded now)
        publications := s.publications.set p { pending := rest } } := by
  simp only [State.step] at h
  obtain ⟨pub, hp, h⟩ := Option.bind_eq_some_iff.mp h
  split at h
  · next e rest shard hpending hphase =>
    split at h
    · cases h
      exact ⟨pub, e, rest, shard, hp, hpending, hphase, rfl⟩
    · cases h
  · cases h

theorem step_bindToken {p : Nat} {token : Uuid}
    (h : s.step settings (.bindToken p token) = some s') :
    ∃ pub e rest shard, s.publications[p]? = some pub ∧ pub.pending = e :: rest ∧
      pub.phase = .looked (some shard) ∧ shard.status = .leased ∧ token ∉ s.issued ∧
      s' = { s with
        db := (s.db.flushShards [shard] fun shard =>
          { shard with leaseToken := some token }).flushEvent e (e.bound token)
        issued := s.issued ++ [token]
        publications := s.publications.set p { pending := e.bound token :: rest } } := by
  simp only [State.step] at h
  obtain ⟨pub, hp, h⟩ := Option.bind_eq_some_iff.mp h
  split at h
  · next e rest shard hpending hphase =>
    split at h
    · next hg =>
      cases h
      exact ⟨pub, e, rest, shard, hp, hpending, hphase, hg.1, hg.2, rfl⟩
    · cases h
  · cases h

theorem step_settleEvent {p : Nat} {now : DateTime}
    (h : s.step settings (.settleEvent p now) = some s') :
    ∃ pub e rest, s.publications[p]? = some pub ∧ pub.pending = e :: rest ∧
      ((pub.phase = .sent ∧ s' = { s with
          db := s.db.flushEvent e (e.delivered now)
          publications := s.publications.set p { pending := rest } }) ∨
        ∃ error, pub.phase = .failed error ∧ s' = { s with
          db := s.db.flushEvent e (e.sendFailed error)
          publications := s.publications.set p { pending := rest } }) := by
  simp only [State.step] at h
  obtain ⟨pub, hp, h⟩ := Option.bind_eq_some_iff.mp h
  split at h
  · next e rest hpending hphase =>
    cases h
    exact ⟨pub, e, rest, hp, hpending, Or.inl ⟨hphase, rfl⟩⟩
  · next e rest error hpending hphase =>
    cases h
    exact ⟨pub, e, rest, hp, hpending, Or.inr ⟨error, hphase, rfl⟩⟩
  · cases h

theorem step_commitRecovery {p : Nat} (h : s.step settings (.commitRecovery p) = some s') :
    ∃ stale, s.recoveries[p]? = some stale ∧
      s' = { s with
        db := s.db.flushShards stale ScanShard.requeued
        recoveries := s.recoveries.set p [] } := by
  simp only [State.step] at h
  obtain ⟨stale, hp, h⟩ := Option.bind_eq_some_iff.mp h
  cases h
  exact ⟨stale, hp, rfl⟩

theorem step_commitCancel {p : Nat} {now : DateTime}
    (h : s.step settings (.commitCancel p now) = some s') :
    ∃ c shards, s.cancellations[p]? = some c ∧ c.phase = .selected shards ∧
      s' = { s with
        db := s.db.commitCancellation c.run shards c.actor now
        cancellations := s.cancellations.set p { c with phase := .committed } } := by
  simp only [State.step] at h
  obtain ⟨c, hp, h⟩ := Option.bind_eq_some_iff.mp h
  split at h
  · next shards hphase =>
    cases h
    exact ⟨c, shards, hp, hphase, rfl⟩
  · cases h

theorem step_finalizeNext {p : Nat} {now : DateTime}
    (h : s.step settings (.finalizeNext p now) = some s') :
    ∃ run rest db run', s.reconciliations[p]? = some (run :: rest) ∧
      s.db.finalizeTerminalRun run "scheduler" now = some (db, run') ∧
      s' = { s with db := db, reconciliations := s.reconciliations.set p rest } := by
  simp only [State.step] at h
  obtain ⟨runs, hp, h⟩ := Option.bind_eq_some_iff.mp h
  split at h
  · next run rest =>
    obtain ⟨⟨db, run'⟩, hfin, h⟩ := Option.bind_eq_some_iff.mp h
    cases h
    exact ⟨run, rest, db, run', hp, hfin, rfl⟩
  · cases h

theorem step_deliver {shardId token : Uuid} {workerId : String} {now : DateTime}
    (h : s.step settings (.deliver shardId token workerId now) = some s') :
    (shardId, token) ∈ s.sent ∧
      ((s.db.claimLease shardId token workerId now = none ∧ s' = s) ∨
        ∃ db, s.db.claimLease shardId token workerId now = some db ∧
          s' = { s with
            db := db
            executions := s.executions ++ [{ shardId := shardId, leaseToken := token }] }) := by
  simp only [State.step] at h
  split at h
  · next hsent =>
    refine ⟨hsent, ?_⟩
    split at h
    · next db hdb =>
      cases h
      exact Or.inr ⟨db, hdb, rfl⟩
    · next hdb =>
      cases h
      exact Or.inl ⟨hdb, rfl⟩
  · cases h

/-- The steps whose commit may change the database. -/
def Action.writes : Action → Bool
  | .createRun .. | .lease .. | .dropEvent .. | .bindToken .. | .settleEvent .. | .commitRecovery ..
  | .commitCancel .. | .finalizeNext .. | .deliver .. | .worker .. => true
  | _ => false

theorem step_reads {a : Action} (h : s.step settings a = some s') (ha : a.writes = false) :
    s'.db = s.db ∧ s'.executions = s.executions ∧ s'.issued = s.issued := by
  cases a with
  | loadEvents | loadStale | loadActive =>
    cases h
    exact ⟨rfl, rfl, rfl⟩
  | countActive session runId =>
    simp only [State.step] at h
    obtain ⟨run, -, h⟩ := Option.bind_eq_some_iff.mp h
    split at h
    · cases h
    · obtain ⟨profile, -, h⟩ := Option.bind_eq_some_iff.mp h
      cases h
      exact ⟨rfl, rfl, rfl⟩
  | lookupShard | sendTask | loadCancel | selectCancel =>
    simp only [State.step] at h
    obtain ⟨x, -, h⟩ := Option.bind_eq_some_iff.mp h
    repeat' split at h
    all_goals
      cases h
      try exact ⟨rfl, rfl, rfl⟩
  | _ => cases ha

theorem step_loadStale {now : DateTime} (h : s.step settings (.loadStale now) = some s') :
    s' = { s with recoveries := s.recoveries ++ [Db.staleShards settings s.db now] } := by
  cases h
  rfl

theorem step_loadEvents {limit : Nat} (h : s.step settings (.loadEvents limit) = some s') :
    s' = { s with
      publications := s.publications ++ [{ pending := s.db.pendingEvents limit }] } := by
  cases h
  rfl

theorem step_loadActive (h : s.step settings .loadActive = some s') :
    s' = { s with reconciliations := s.reconciliations ++ [s.db.activeRuns] } := by
  cases h
  rfl

theorem step_countActive {session : Session} {runId : Uuid}
    (h : s.step settings (.countActive session runId) = some s') :
    ∃ run profile, s.sessionRun runId session = some run ∧ run.status.terminal = false ∧
      s.db.profiles.get run.profileId = some profile ∧
      s' = { s with
        dispatches := s.dispatches ++ [⟨runId, s.db.dispatchCapacity profile runId⟩] } := by
  simp only [State.step] at h
  obtain ⟨run, hrun, h⟩ := Option.bind_eq_some_iff.mp h
  split at h
  · cases h
  · next hterm =>
    obtain ⟨profile, hprofile, h⟩ := Option.bind_eq_some_iff.mp h
    cases h
    exact ⟨run, profile, hrun, Bool.eq_false_iff.mpr hterm, hprofile, rfl⟩

theorem step_lookupShard {p : Nat} {copy : Option ScanShard}
    (h : s.step settings (.lookupShard p copy) = some s') :
    ∃ pub e rest, s.publications[p]? = some pub ∧ pub.pending = e :: rest ∧ e.legacy = true ∧
      s' = { s with
        publications := s.publications.set p
          { pub with phase := .looked (copy.or (s.db.shards.get e.payload.shardId)) } } := by
  simp only [State.step] at h
  obtain ⟨pub, hp, h⟩ := Option.bind_eq_some_iff.mp h
  split at h
  · next e rest hpending hphase =>
    split at h
    · next hg =>
      cases h
      exact ⟨pub, e, rest, hp, hpending, hg.1, rfl⟩
    · cases h
  · cases h

theorem step_sendTask {p : Nat} {error : Option String}
    (h : s.step settings (.sendTask p error) = some s') :
    ∃ pub e rest, s.publications[p]? = some pub ∧ pub.pending = e :: rest ∧ pub.phase = .next ∧
      ((∃ token, error = none ∧ e.payload.leaseToken = some token ∧ s' = { s with
          sent := s.sent ++ [(e.payload.shardId, token)]
          publications := s.publications.set p { pub with phase := .sent } }) ∨
        ∃ message, error = some message ∧ s' = { s with
          publications := s.publications.set p { pub with phase := .failed message } }) := by
  simp only [State.step] at h
  obtain ⟨pub, hp, h⟩ := Option.bind_eq_some_iff.mp h
  split at h
  · next e rest hpending hphase =>
    refine ⟨pub, e, rest, hp, hpending, hphase, ?_⟩
    split at h
    · cases h
    · split at h
      · next htoken _ =>
        cases h
        exact Or.inl ⟨_, rfl, htoken, rfl⟩
      · cases h
        exact Or.inr ⟨_, rfl, rfl⟩
      · cases h
  · cases h

theorem step_loadCancel {runId : Uuid} {actor : String}
    (h : s.step settings (.loadCancel runId actor) = some s') :
    ∃ run, s.db.runs.get runId = some run ∧ run.status.terminal = false ∧
      s' = { s with cancellations := s.cancellations ++ [{ run := run, actor := actor }] } := by
  simp only [State.step] at h
  obtain ⟨run, hrun, h⟩ := Option.bind_eq_some_iff.mp h
  split at h
  · cases h
  · next hterm =>
    cases h
    exact ⟨run, hrun, Bool.eq_false_iff.mpr hterm, rfl⟩

theorem step_selectCancel {p : Nat} (h : s.step settings (.selectCancel p) = some s') :
    ∃ c, s.cancellations[p]? = some c ∧ c.phase = .loaded ∧
      s' = { s with
        cancellations := s.cancellations.set p
          { c with phase := .selected (s.db.cancellableShards c.run.id) } } := by
  simp only [State.step] at h
  obtain ⟨c, hp, h⟩ := Option.bind_eq_some_iff.mp h
  split at h
  · next hphase =>
    cases h
    exact ⟨c, hp, hphase, rfl⟩
  · cases h

/-! ## Components -/

/-- The steps of a publication pass. -/
def Action.publishes : Action → Bool
  | .loadEvents .. | .lookupShard .. | .dropEvent .. | .bindToken .. | .sendTask ..
  | .settleEvent .. => true
  | _ => false

/-- What a step does to the tokens, the messages and the sessions.  A field left
out when the structure is built says that the step keeps the component. -/
structure Effect (settings : Settings) (s : State) (a : Action) (s' : State) : Prop where
  issued : s'.issued = s.issued ∨
    (∃ p tokens eventIds now, a = .lease p tokens eventIds now ∧
      s'.issued = s.issued ++ tokens) ∨
    ∃ p token, a = .bindToken p token ∧ s'.issued = s.issued ++ [token] := by exact Or.inl rfl
  sent : s'.sent = s.sent ∨
    ∃ p message, a = .sendTask p none ∧ s'.sent = s.sent ++ [message] := by exact Or.inl rfl
  publications : s'.publications = s.publications ∨ a.publishes = true := by exact Or.inl rfl
  executions : s'.executions = s.executions ∨
    (∃ shardId token workerId now, a = .deliver shardId token workerId now ∧
      s.db.claimLease shardId token workerId now = some s'.db ∧
      s'.executions = s.executions ++ [{ shardId := shardId, leaseToken := token }]) ∨
    ∃ i b e e', a = .worker i b ∧ s.executions[i]? = some e ∧
      e.step s.db settings b = some (s'.db, e') ∧ s'.executions = s.executions.set i e' := by
    exact Or.inl rfl
  dispatches : s'.dispatches = s.dispatches ∨
    (∃ session runId d, a = .countActive session runId ∧ s'.dispatches = s.dispatches ++ [d]) ∨
    ∃ p tokens eventIds now, a = .lease p tokens eventIds now := by exact Or.inl rfl
  recoveries : s'.recoveries = s.recoveries ∨
    (∃ now, a = .loadStale now ∧
      s'.recoveries = s.recoveries ++ [Db.staleShards settings s.db now]) ∨
    ∃ p, a = .commitRecovery p ∧ s'.recoveries = s.recoveries.set p [] := by exact Or.inl rfl
  cancellations : s'.cancellations = s.cancellations ∨
    (∃ runId actor run, a = .loadCancel runId actor ∧ s.db.runs.get runId = some run ∧
      run.status.terminal = false ∧
      s'.cancellations = s.cancellations ++ [{ run := run, actor := actor }]) ∨
    (∃ p c, a = .selectCancel p ∧ s.cancellations[p]? = some c ∧
      s'.cancellations = s.cancellations.set p
        { c with phase := .selected (s.db.cancellableShards c.run.id) }) ∨
    ∃ p now c, a = .commitCancel p now ∧ s.cancellations[p]? = some c ∧
      s'.cancellations = s.cancellations.set p { c with phase := .committed } := by
    exact Or.inl rfl
  reconciliations : s'.reconciliations = s.reconciliations ∨
    (a = .loadActive ∧ s'.reconciliations = s.reconciliations ++ [s.db.activeRuns]) ∨
    ∃ p now run rest, a = .finalizeNext p now ∧ s.reconciliations[p]? = some (run :: rest) ∧
      s'.reconciliations = s.reconciliations.set p rest := by exact Or.inl rfl

theorem step_effect {a : Action} (h : s.step settings a = some s') : Effect settings s a s' := by
  cases a with
  | createRun =>
    obtain ⟨_, _, _, -, -, -, rfl⟩ := step_createRun h
    exact {}
  | countActive session runId =>
    obtain ⟨_, _, -, -, -, rfl⟩ := step_countActive h
    exact { dispatches := Or.inr (Or.inl ⟨session, runId, _, rfl, rfl⟩) }
  | lease p tokens eventIds now =>
    obtain ⟨_, _, -, -, -, -, -, -, rfl⟩ := step_lease h
    exact {
      issued := Or.inr (Or.inl ⟨p, tokens, eventIds, now, rfl, rfl⟩)
      dispatches := Or.inr (Or.inr ⟨p, tokens, eventIds, now, rfl⟩) }
  | loadEvents =>
    cases step_loadEvents h
    exact { publications := Or.inr rfl }
  | lookupShard =>
    obtain ⟨_, _, _, -, -, -, rfl⟩ := step_lookupShard h
    exact { publications := Or.inr rfl }
  | dropEvent =>
    obtain ⟨_, _, _, _, -, -, -, rfl⟩ := step_dropEvent h
    exact { publications := Or.inr rfl }
  | bindToken p token =>
    obtain ⟨_, _, _, _, -, -, -, -, -, rfl⟩ := step_bindToken h
    exact { issued := Or.inr (Or.inr ⟨p, token, rfl, rfl⟩), publications := Or.inr rfl }
  | sendTask p =>
    obtain ⟨_, _, _, -, -, -, ⟨_, rfl, -, rfl⟩ | ⟨_, -, rfl⟩⟩ := step_sendTask h
    · exact { sent := Or.inr ⟨p, _, rfl, rfl⟩, publications := Or.inr rfl }
    · exact { publications := Or.inr rfl }
  | settleEvent =>
    obtain ⟨_, _, _, -, -, ⟨-, rfl⟩ | ⟨_, -, rfl⟩⟩ := step_settleEvent h
    · exact { publications := Or.inr rfl }
    · exact { publications := Or.inr rfl }
  | loadStale now =>
    cases step_loadStale h
    exact { recoveries := Or.inr (Or.inl ⟨now, rfl, rfl⟩) }
  | commitRecovery p =>
    obtain ⟨_, -, rfl⟩ := step_commitRecovery h
    exact { recoveries := Or.inr (Or.inr ⟨p, rfl, rfl⟩) }
  | loadCancel runId actor =>
    obtain ⟨run, hrun, hterm, rfl⟩ := step_loadCancel h
    exact { cancellations := Or.inr (Or.inl ⟨runId, actor, run, rfl, hrun, hterm, rfl⟩) }
  | selectCancel p =>
    obtain ⟨c, hp, -, rfl⟩ := step_selectCancel h
    exact { cancellations := Or.inr (Or.inr (Or.inl ⟨p, c, rfl, hp, rfl⟩)) }
  | commitCancel p now =>
    obtain ⟨c, _, hp, -, rfl⟩ := step_commitCancel h
    exact { cancellations := Or.inr (Or.inr (Or.inr ⟨p, now, c, rfl, hp, rfl⟩)) }
  | loadActive =>
    cases step_loadActive h
    exact { reconciliations := Or.inr (Or.inl ⟨rfl, rfl⟩) }
  | finalizeNext p now =>
    obtain ⟨run, rest, _, _, hp, -, rfl⟩ := step_finalizeNext h
    exact { reconciliations := Or.inr (Or.inr ⟨p, now, run, rest, rfl, hp, rfl⟩) }
  | deliver shardId token workerId now =>
    obtain ⟨-, ⟨-, rfl⟩ | ⟨_, hdb, rfl⟩⟩ := step_deliver h
    · exact {}
    · exact { executions := Or.inr (Or.inl ⟨shardId, token, workerId, now, rfl, hdb, rfl⟩) }
  | worker i b =>
    obtain ⟨e, _, e', he, hstep, rfl⟩ := step_worker h
    exact { executions := Or.inr (Or.inr ⟨i, b, e, e', rfl, he, hstep, rfl⟩) }

/-! ## Rules for the sessions in flight

One rule for each kind of session: what holds of those that were there, and of
what a step loads or leaves, holds after the step. -/

theorem recoveries_step {P : List ScanShard → Prop} {a : Action} (h : s.step settings a = some s')
    (hkept : ∀ stale ∈ s.recoveries, P stale)
    (hload : ∀ now, P (Db.staleShards settings s.db now)) (hdone : P []) :
    ∀ stale ∈ s'.recoveries, P stale := by
  intro stale hs
  rcases (step_effect h).recoveries with heq | ⟨now, -, heq⟩ | ⟨p, -, heq⟩
  · exact hkept stale (heq ▸ hs)
  · rw [heq, List.mem_append] at hs
    rcases hs with hs | hs
    · exact hkept stale hs
    · cases List.mem_singleton.mp hs
      exact hload now
  · rw [heq] at hs
    rcases List.mem_or_eq_of_mem_set hs with hs | rfl
    · exact hkept stale hs
    · exact hdone

theorem cancellations_step {P : Cancellation → Prop} {a : Action}
    (h : s.step settings a = some s') (hkept : ∀ c ∈ s.cancellations, P c)
    (hload : ∀ runId actor run, s.db.runs.get runId = some run → run.status.terminal = false →
      P { run, actor })
    (hselect : ∀ c ∈ s.cancellations,
      P { c with phase := .selected (s.db.cancellableShards c.run.id) })
    (hcommit : ∀ c ∈ s.cancellations, P { c with phase := .committed }) :
    ∀ c ∈ s'.cancellations, P c := by
  intro c hc
  rcases (step_effect h).cancellations with heq | ⟨runId, actor, run, -, hrun, hterm, heq⟩ |
    ⟨p, c₀, -, hc₀, heq⟩ | ⟨p, _, c₀, -, hc₀, heq⟩
  · exact hkept c (heq ▸ hc)
  · rw [heq, List.mem_append] at hc
    rcases hc with hc | hc
    · exact hkept c hc
    · cases List.mem_singleton.mp hc
      exact hload runId actor run hrun hterm
  · rw [heq] at hc
    rcases List.mem_or_eq_of_mem_set hc with hc | rfl
    · exact hkept c hc
    · exact hselect c₀ (List.mem_of_getElem? hc₀)
  · rw [heq] at hc
    rcases List.mem_or_eq_of_mem_set hc with hc | rfl
    · exact hkept c hc
    · exact hcommit c₀ (List.mem_of_getElem? hc₀)

theorem reconciliations_step {P : List ScanRun → Prop} {a : Action}
    (h : s.step settings a = some s') (hkept : ∀ runs ∈ s.reconciliations, P runs)
    (hload : P s.db.activeRuns)
    (hrest : ∀ run rest, run :: rest ∈ s.reconciliations → P rest) :
    ∀ runs ∈ s'.reconciliations, P runs := by
  intro runs hruns
  rcases (step_effect h).reconciliations with heq | ⟨-, heq⟩ | ⟨p, _, run, rest, -, hp, heq⟩
  · exact hkept runs (heq ▸ hruns)
  · rw [heq, List.mem_append] at hruns
    rcases hruns with hruns | hruns
    · exact hkept runs hruns
    · cases List.mem_singleton.mp hruns
      exact hload
  · rw [heq] at hruns
    rcases List.mem_or_eq_of_mem_set hruns with hruns | rfl
    · exact hkept runs hruns
    · exact hrest run runs (List.mem_of_getElem? hp)

/-- An execution after a step was there before it, took the step, or is the one
a claim started. -/
theorem execution_cases {a : Action} (h : s.step settings a = some s') {i : Nat} {e' : Execution}
    (he' : s'.executions[i]? = some e') :
    (s.executions[i]? = some e' ∧ ∀ b, a ≠ .worker i b) ∨
      (∃ e b, s.executions[i]? = some e ∧ a = .worker i b ∧
        e.step s.db settings b = some (s'.db, e')) ∨
      ∃ workerId now, i = s.executions.length ∧
        a = .deliver e'.shardId e'.leaseToken workerId now ∧
        s.db.claimLease e'.shardId e'.leaseToken workerId now = some s'.db ∧
        e' = { shardId := e'.shardId, leaseToken := e'.leaseToken } := by
  rcases (step_effect h).executions with heq | ⟨shardId, token, w, now, rfl, hclaim, heq⟩ |
    ⟨j, b, e, e₁, rfl, he, hstep, heq⟩
  · rw [heq] at he'
    by_cases hb : ∃ b, a = .worker i b
    · obtain ⟨b, rfl⟩ := hb
      obtain ⟨e, db, e₁, he, hstep, rfl⟩ := step_worker h
      rw [he] at he'
      cases he'
      have hlt : i < s.executions.length := (List.getElem?_eq_some_iff.mp he).1
      have hset : (s.executions.set i e₁)[i]? = some e₁ := List.getElem?_set_self hlt
      rw [show s.executions.set i e₁ = s.executions from heq, he] at hset
      cases hset
      exact Or.inr (Or.inl ⟨_, b, he, rfl, hstep⟩)
    · exact Or.inl ⟨he', fun b hab => hb ⟨b, hab⟩⟩
  · rw [heq, List.getElem?_append] at he'
    split at he'
    · exact Or.inl ⟨he', fun b hab => by cases hab⟩
    · next hge =>
      have hi : i = s.executions.length := by
        have hlt : i - s.executions.length < 1 := (List.getElem?_eq_some_iff.mp he').1
        omega
      subst hi
      rw [Nat.sub_self] at he'
      cases he'
      exact Or.inr (Or.inr ⟨w, now, rfl, rfl, hclaim, rfl⟩)
  · rw [heq] at he'
    by_cases hij : i = j
    · subst hij
      have hlt : i < s.executions.length := (List.getElem?_eq_some_iff.mp he).1
      rw [List.getElem?_set_self hlt] at he'
      cases he'
      exact Or.inr (Or.inl ⟨e, b, he, rfl, hstep⟩)
    · rw [List.getElem?_set_ne (fun hji => hij hji.symm)] at he'
      refine Or.inl ⟨he', ?_⟩
      intro b' hab
      cases hab
      exact hij rfl

/-- The rule for invariants of executions: one holds after a step if those that
were there satisfy it, the one that took the step does, and a fresh one does. -/
theorem executions_step {P : Execution → Prop} {a : Action} (h : s.step settings a = some s')
    (hkept : ∀ e ∈ s.executions, P e)
    (hstep : ∀ e ∈ s.executions, ∀ i b e', a = .worker i b →
      e.step s.db settings b = some (s'.db, e') → P e')
    (hstart : ∀ shardId leaseToken, P { shardId, leaseToken }) :
    ∀ e ∈ s'.executions, P e := by
  intro e' he'
  obtain ⟨i, hi⟩ := List.mem_iff_getElem?.mp he'
  rcases execution_cases h hi with ⟨he, -⟩ | ⟨e, b, he, ha, hs⟩ | ⟨_, _, -, -, -, hnew⟩
  · exact hkept e' (List.mem_of_getElem? he)
  · exact hstep e (List.mem_of_getElem? he) i b e' ha hs
  · rw [hnew]
    exact hstart e'.shardId e'.leaseToken

/-- No step drops an execution, and it keeps the shard and the token it claimed. -/
theorem execution_kept {a : Action} (h : s.step settings a = some s') {i : Nat} {e : Execution}
    (he : s.executions[i]? = some e) :
    ∃ e', s'.executions[i]? = some e' ∧ e'.shardId = e.shardId ∧ e'.leaseToken = e.leaseToken := by
  have hlt : i < s.executions.length := (List.getElem?_eq_some_iff.mp he).1
  rcases (step_effect h).executions with heq | ⟨_, _, _, _, -, -, heq⟩ |
    ⟨j, b, e₀, e₁, -, he₀, hstep, heq⟩
  · exact ⟨e, by rw [heq, he], rfl, rfl⟩
  · exact ⟨e, by rw [heq, List.getElem?_append_left hlt, he], rfl, rfl⟩
  · by_cases hij : j = i
    · subst hij
      rw [he₀] at he
      cases he
      obtain ⟨hshard, htoken⟩ := Execution.step_lease hstep
      exact ⟨e₁, by rw [heq, List.getElem?_set_self hlt], hshard, htoken⟩
    · exact ⟨e, by rw [heq, List.getElem?_set_ne hij, he], rfl, rfl⟩

/-- An execution is as it was after a step, unless it took the step. -/
theorem execution_next {a : Action} (h : s.step settings a = some s') {i : Nat} {e : Execution}
    (he : s.executions[i]? = some e) :
    ∃ e', s'.executions[i]? = some e' ∧
      (e' = e ∨ ∃ b, a = .worker i b ∧ e.step s.db settings b = some (s'.db, e')) := by
  obtain ⟨e', he', -, -⟩ := execution_kept h he
  refine ⟨e', he', ?_⟩
  rcases execution_cases h he' with ⟨hold, -⟩ | ⟨e₀, b, hold, ha, hstep⟩ | ⟨_, _, rfl, -, -, -⟩
  · rw [he] at hold
    cases hold
    exact Or.inl rfl
  · rw [he] at hold
    cases hold
    exact Or.inr ⟨b, ha, hstep⟩
  · exact absurd (List.getElem?_eq_some_iff.mp he).1 (Nat.lt_irrefl _)

/-- An execution of the shard has been started with the token. -/
def State.Executes (s : State) (shardId token : Uuid) : Prop :=
  ∃ e ∈ s.executions, e.shardId = shardId ∧ e.leaseToken = token

theorem executes_step {a : Action} {shardId token : Uuid} (h : s.step settings a = some s')
    (he : s.Executes shardId token) : s'.Executes shardId token := by
  obtain ⟨e, hmem, hshard, htoken⟩ := he
  obtain ⟨i, hi⟩ := List.mem_iff_getElem?.mp hmem
  obtain ⟨e', he', hshard', htoken'⟩ := execution_kept h hi
  exact ⟨e', List.mem_of_getElem? he', hshard'.trans hshard, htoken'.trans htoken⟩

/-- An execution after a step has the shard and the token of one before it, or is
the one a claim started. -/
theorem execution_origin {a : Action} (h : s.step settings a = some s') {e' : Execution}
    (he' : e' ∈ s'.executions) :
    (∃ e ∈ s.executions, e.shardId = e'.shardId ∧ e.leaseToken = e'.leaseToken) ∨
      ∃ workerId now, a = .deliver e'.shardId e'.leaseToken workerId now ∧
        s.db.claimLease e'.shardId e'.leaseToken workerId now = some s'.db := by
  obtain ⟨i, hi⟩ := List.mem_iff_getElem?.mp he'
  rcases execution_cases h hi with ⟨he, -⟩ | ⟨e, b, he, -, hstep⟩ | ⟨w, now, -, ha, hclaim, -⟩
  · exact Or.inl ⟨e', List.mem_of_getElem? he, rfl, rfl⟩
  · obtain ⟨hshard, htoken⟩ := Execution.step_lease hstep
    exact Or.inl ⟨e, List.mem_of_getElem? he, hshard.symm, htoken.symm⟩
  · exact Or.inr ⟨w, now, ha, hclaim⟩

theorem issued_mono {a : Action} (h : s.step settings a = some s') {t : Uuid}
    (ht : t ∈ s.issued) : t ∈ s'.issued := by
  rcases (step_effect h).issued with heq | ⟨_, _, _, _, -, heq⟩ | ⟨_, _, -, heq⟩
  · rw [heq]
    exact ht
  · rw [heq]
    exact List.mem_append_left _ ht
  · rw [heq]
    exact List.mem_append_left _ ht

end

end TransportLookout
