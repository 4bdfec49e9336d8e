/-
Lease tokens fence shard rows.

A token enters a row when it is drawn and never again, and it starts one
execution at most: `Fenced` is the invariant that says so.  What follows is that
ownership, once lost, is lost for good, so an execution that owns its shard has
owned it since its claim, and no write of anyone else fell in between.
-/
import TransportLookout.System.Copies

namespace TransportLookout

open Relational Trace

/-! ## Where tokens come from -/

/-- The step gives shard `k` the token `t`. -/
def State.Grants (s : State) (k t : Uuid) : Action → Prop
  | .lease p tokens _ now => tokens.Nodup ∧ t ∈ tokens ∧ ∃ d, s.dispatches[p]? = some d ∧
      tokens.length = (s.db.dispatchableShards d.runId now d.capacity).length ∧
      (((s.db.dispatchableShards d.runId now d.capacity).map ScanShard.id).zip tokens).lookup k =
        some t
  | .bindToken p token => t = token ∧ ∃ pub loaded, s.publications[p]? = some pub ∧
      pub.phase = .looked (some loaded) ∧ loaded.id = k
  | _ => False

namespace State.Grants
variable {settings : Settings} {s s' : State} {a : Action} {k k' t : Uuid}

theorem inj (h : s.Grants k t a) (h' : s.Grants k' t a) : k = k' := by
  cases a with
  | lease p tokens eventIds now =>
    obtain ⟨hnodup, -, d, hd, hlen, hl⟩ := h
    obtain ⟨-, -, d', hd', -, hl'⟩ := h'
    rw [hd] at hd'
    cases hd'
    exact lookup_zip_inj (by rw [List.length_map, hlen]) hnodup hl hl'
  | bindToken p token =>
    obtain ⟨-, pub, loaded, hp, hphase, rfl⟩ := h
    obtain ⟨-, pub', loaded', hp', hphase', rfl⟩ := h'
    rw [hp] at hp'
    cases hp'
    rw [hphase] at hphase'
    cases hphase'
    rfl
  | _ => cases h

theorem issued (h : s.Grants k t a) (hs : s.step settings a = some s') : t ∈ s'.issued := by
  cases a with
  | lease p tokens eventIds now =>
    obtain ⟨-, htokens, -⟩ := h
    obtain ⟨_, _, -, -, -, -, -, -, rfl⟩ := step_lease hs
    exact List.mem_append_right _ htokens
  | bindToken p token =>
    obtain ⟨rfl, -⟩ := h
    obtain ⟨_, _, _, _, -, -, -, -, -, rfl⟩ := step_bindToken hs
    exact List.mem_append_right _ (List.mem_singleton_self _)
  | _ => cases h

end State.Grants

section
variable {settings : Settings} {s s' : State} {a : Action} {r r' : ScanShard}

/-- A rewritten row keeps its token, loses it, or gets one never seen before. -/
theorem ShardStep.token (h : ShardStep settings s a r r') :
    r'.leaseToken = r.leaseToken ∨ r'.leaseToken = none ∨
      ∃ t, r'.leaseToken = some t ∧ t ∉ s.issued ∧ s.Grants r.id t a := by
  cases h with
  | @lease p tokens _ now d token _ hd hlen hnodup hfresh hchosen hl =>
    right
    right
    have htoken : token ∈ tokens := (List.of_mem_zip (mem_of_lookup_eq_some hl)).2
    exact ⟨token, rfl, hfresh token htoken, hnodup, htoken, d, hd, hlen, hl⟩
  | @bind p token pub e rest loaded _ hp hpending hphase hstatus hfresh hid =>
    rw [ScanShard.writeBack_bound]
    by_cases hsame : some token = loaded.leaseToken
    · left
      rw [← hsame, writeBack_self]
    · right
      right
      rw [writeBack_of_ne hsame]
      exact ⟨token, rfl, hfresh, rfl, pub, loaded, hp, hphase, hid⟩
  | @recover p stale loaded _ hp hl hid =>
    show Relational.writeBack loaded.leaseToken none r.leaseToken = r.leaseToken ∨
      Relational.writeBack loaded.leaseToken none r.leaseToken = none ∨ _
    by_cases hsame : none = loaded.leaseToken
    · left
      rw [← hsame, writeBack_self]
    · right
      left
      exact writeBack_of_ne hsame _
  | cancel => exact Or.inl (writeBack_self _ _)
  | claim => exact Or.inl rfl
  | beat => exact Or.inl rfl
  | @finish _ _ _ o => cases o <;> exact Or.inl rfl

/-- A row is leased after a rewrite if it was before or has got a new token. -/
theorem ShardStep.leased (hc : Copies s) (h : ShardStep settings s a r r')
    (hl : r'.status = .leased) :
    r.status = .leased ∨ ∃ t, r'.leaseToken = some t ∧ t ∉ s.issued := by
  cases h with
  | lease _ _ _ hfresh _ hlookup =>
    exact Or.inr ⟨_, rfl, hfresh _ (List.of_mem_zip (mem_of_lookup_eq_some hlookup)).2⟩
  | bind =>
    rw [ScanShard.writeBack_bound] at hl
    exact Or.inl hl
  | recover hp hl' hid =>
    rw [(ScanShard.writeBack_requeued (hc.stale _ (List.mem_of_getElem? hp) _ hl') r).1] at hl
    cases hl
  | cancel hp hl' hid =>
    rw [ScanShard.writeBack_cancelled (hc.selected _ (List.mem_of_getElem? hp) _ hl').1] at hl
    cases hl
  | claim => cases hl
  | beat => exact Or.inl hl
  | @finish _ _ _ o => cases o <;> cases hl

/-- A row is running after a rewrite if it was before or has been claimed. -/
theorem ShardStep.running (hc : Copies s) (h : ShardStep settings s a r r')
    (hr : r'.status = .running) :
    r.status = .running ∨
      ∃ shardId token workerId now, a = .deliver shardId token workerId now ∧
        r.held shardId token .leased = true ∧ r' = r.claimed workerId now := by
  cases h with
  | lease => cases hr
  | bind =>
    rw [ScanShard.writeBack_bound] at hr
    exact Or.inl hr
  | recover hp hl' hid =>
    rw [(ScanShard.writeBack_requeued (hc.stale _ (List.mem_of_getElem? hp) _ hl') r).1] at hr
    cases hr
  | cancel hp hl' hid =>
    rw [ScanShard.writeBack_cancelled (hc.selected _ (List.mem_of_getElem? hp) _ hl').1] at hr
    cases hr
  | claim _ hheld => exact Or.inr ⟨_, _, _, _, rfl, hheld, rfl⟩
  | beat => exact Or.inl hr
  | @finish _ _ _ o => cases o <;> cases hr

/-- A token in a row was there before the step, or is new and given by it. -/
theorem token_origin (h : s.step settings a = some s') {k t : Uuid}
    (hr' : s'.db.shards.get k = some r') (ht : r'.leaseToken = some t) :
    (∃ r, s.db.shards.get k = some r ∧ r.leaseToken = some t) ∨
      (t ∉ s.issued ∧ s.Grants k t a) := by
  rcases shard_cases h hr' with ⟨r, hr, rfl | hstep⟩ | hnew
  · exact Or.inl ⟨r', hr, ht⟩
  · rcases hstep.token with hkept | hnone | ⟨t', ht', hfresh, hgrants⟩
    · exact Or.inl ⟨r, hr, hkept ▸ ht⟩
    · rw [hnone] at ht
      cases ht
    · rw [ht'] at ht
      cases ht
      have hid : r.id = k := Table.get_key hr
      exact Or.inr ⟨hfresh, hid ▸ hgrants⟩
  · rw [hnew.blank] at ht
    cases ht

/-! ## The invariant -/

structure Fenced (s : State) : Prop where
  rows : ∀ k r t, s.db.shards.get k = some r → r.leaseToken = some t → t ∈ s.issued
  executions : ∀ e ∈ s.executions, e.leaseToken ∈ s.issued
  unique : ∀ k k' r r' t, s.db.shards.get k = some r → s.db.shards.get k' = some r' →
    r.leaseToken = some t → r'.leaseToken = some t → k = k'
  claimed : ∀ e ∈ s.executions, ∀ k r, s.db.shards.get k = some r →
    r.leaseToken = some e.leaseToken → k = e.shardId ∧ r.status ≠ .leased
  nodup : (s.executions.map Execution.leaseToken).Nodup

/-- A database from before execution fencing: no row carries a token. -/
theorem fenced_start {db : Db} (hdb : ∀ r ∈ db.shards.rows, r.leaseToken = none) :
    Fenced (State.start db) := by
  have hnone : ∀ {k r t}, (State.start db).db.shards.get k = some r →
      r.leaseToken = some t → False := by
    intro k r t hr ht
    rw [hdb r (Table.get_mem hr)] at ht
    cases ht
  refine ⟨?_, ?_, ?_, ?_, List.nodup_nil⟩
  · exact fun k r t hr ht => (hnone hr ht).elim
  · exact fun e he => absurd he List.not_mem_nil
  · exact fun k k' r r' t hr _ ht _ => (hnone hr ht).elim
  · exact fun e he => absurd he List.not_mem_nil

theorem fenced_unique (hf : Fenced s) (h : s.step settings a = some s') {k k' t : Uuid}
    {r r' : ScanShard} (hr : s'.db.shards.get k = some r) (hr' : s'.db.shards.get k' = some r')
    (ht : r.leaseToken = some t) (ht' : r'.leaseToken = some t) : k = k' := by
  rcases token_origin h hr ht with ⟨q, hq, hqt⟩ | ⟨hfresh, hgrants⟩
  · rcases token_origin h hr' ht' with ⟨q', hq', hqt'⟩ | ⟨hfresh, -⟩
    · exact hf.unique k k' q q' t hq hq' hqt hqt'
    · exact absurd (hf.rows k q t hq hqt) hfresh
  · rcases token_origin h hr' ht' with ⟨q', hq', hqt'⟩ | ⟨-, hgrants'⟩
    · exact absurd (hf.rows k' q' t hq' hqt') hfresh
    · exact hgrants.inj hgrants'

/-- The row of a token that an execution holds is that execution's, and is past
its claim. -/
theorem fenced_claimed (hc : Copies s) (hf : Fenced s) (h : s.step settings a = some s')
    {e : Execution} (he : e ∈ s'.executions) {k : Uuid} (hr' : s'.db.shards.get k = some r')
    (ht : r'.leaseToken = some e.leaseToken) : k = e.shardId ∧ r'.status ≠ .leased := by
  rcases execution_origin h he with ⟨e₀, he₀, hshard, htoken⟩ | ⟨w, now, rfl, hclaim⟩
  · have hissued : e.leaseToken ∈ s.issued := htoken ▸ hf.executions e₀ he₀
    rcases shard_cases h hr' with ⟨r, hr, rfl | hstep⟩ | hnew
    · rw [← hshard]
      exact hf.claimed e₀ he₀ k r' hr (htoken ▸ ht)
    · rcases token_origin h hr' ht with ⟨q, hq, hqt⟩ | ⟨hfresh, -⟩
      · rw [hr] at hq
        cases hq
        obtain ⟨hk, hstatus⟩ := hf.claimed e₀ he₀ k r hr (htoken ▸ hqt)
        refine ⟨hk.trans hshard, fun hl => ?_⟩
        rcases hstep.leased hc hl with hold | ⟨t, ht', hfresh⟩
        · exact hstatus hold
        · rw [ht] at ht'
          cases ht'
          exact hfresh hissued
      · exact absurd hissued hfresh
    · rw [hnew.blank] at ht
      cases ht
  · obtain ⟨⟨q, hq, hheld⟩, -, hget⟩ := Db.claimLease_eq_some hclaim
    obtain ⟨-, -, hqt⟩ := ScanShard.held_iff.mp hheld
    rw [hget] at hr'
    obtain ⟨r, hr, rfl⟩ := Option.map_eq_some_iff.mp hr'
    by_cases hh : r.held e.shardId e.leaseToken .leased = true
    · have hid : r.id = k := Table.get_key hr
      rw [if_pos hh]
      refine ⟨hid ▸ (ScanShard.held_iff.mp hh).1, ?_⟩
      show ShardStatus.running ≠ .leased
      decide
    · rw [if_neg hh] at ht
      have hk : k = e.shardId := hf.unique k e.shardId r q _ hr hq ht hqt
      subst hk
      rw [hr] at hq
      cases hq
      exact absurd hheld hh

theorem fenced_step (hc : Copies s) (hf : Fenced s) (h : s.step settings a = some s') :
    Fenced s' where
  rows := by
    intro k r t hr ht
    rcases token_origin h hr ht with ⟨q, hq, hqt⟩ | ⟨-, hgrants⟩
    · exact issued_mono h (hf.rows k q t hq hqt)
    · exact hgrants.issued h
  executions := by
    intro e he
    rcases execution_origin h he with ⟨e₀, he₀, -, htoken⟩ | ⟨w, now, -, hclaim⟩
    · exact issued_mono h (htoken ▸ hf.executions e₀ he₀)
    · obtain ⟨⟨q, hq, hheld⟩, -, -⟩ := Db.claimLease_eq_some hclaim
      exact issued_mono h (hf.rows _ q _ hq (ScanShard.held_iff.mp hheld).2.2)
  unique := fun _ _ _ _ _ hr hr' ht ht' => fenced_unique hf h hr hr' ht ht'
  claimed := fun _ he _ _ hr ht => fenced_claimed hc hf h he hr ht
  nodup := by
    rcases (step_effect h).executions with heq | ⟨shardId, token, w, now, -, hclaim, heq⟩ |
      ⟨i, b, e, e', -, he, hstep, heq⟩
    · rw [heq]
      exact hf.nodup
    · rw [heq, List.map_append]
      refine List.nodup_append'.mpr ⟨hf.nodup, List.nodup_singleton _, ?_⟩
      -- a claimed token is in a leased row, and no execution's token is
      intro t hold hnew
      cases List.mem_singleton.mp hnew
      obtain ⟨e, he, htoken⟩ := List.mem_map.mp hold
      obtain ⟨⟨q, hq, hheld⟩, -, -⟩ := Db.claimLease_eq_some hclaim
      obtain ⟨-, hstatus, hqt⟩ := ScanShard.held_iff.mp hheld
      exact (hf.claimed e he _ q hq (by rw [hqt, htoken])).2 hstatus
    · have hsame : s'.executions.map Execution.leaseToken =
          s.executions.map Execution.leaseToken := by
        rw [heq, List.map_set, (Execution.step_lease hstep).2]
        have hget : (s.executions.map Execution.leaseToken)[i]? = some e.leaseToken := by
          rw [List.getElem?_map, he, Option.map_some]
        obtain ⟨hlt, hval⟩ := List.getElem?_eq_some_iff.mp hget
        rw [← hval, List.set_getElem_self]
      rw [hsame]
      exact hf.nodup

theorem Fenced.index (hf : Fenced s) {i j : Nat} {e e' : Execution}
    (he : s.executions[i]? = some e) (he' : s.executions[j]? = some e')
    (htoken : e.leaseToken = e'.leaseToken) : i = j := by
  have hi : (s.executions.map Execution.leaseToken)[i]? = some e.leaseToken := by
    rw [List.getElem?_map, he, Option.map_some]
  have hj : (s.executions.map Execution.leaseToken)[j]? = some e.leaseToken := by
    rw [List.getElem?_map, he', Option.map_some, htoken]
  obtain ⟨hlt, -⟩ := List.getElem?_eq_some_iff.mp hi
  exact (List.getElem?_inj hlt hf.nodup).mp (hi.trans hj.symm)

/-! ## Ownership -/

theorem executes_path {tr : List (Transition State Action)} {t : State} {shardId token : Uuid}
    (h : Path (State.step settings) s tr t) (he : s.Executes shardId token) :
    t.Executes shardId token :=
  h.kept (Q := fun u => u.Executes shardId token)
    (fun _ hx hpre => executes_step (h.step_of_mem hx) hpre) he

/-- An execution that owns its row after a step owned it before, and the step
changed no more of the row than its heartbeat. -/
theorem owned_row (hc : Copies s) (hf : Fenced s) (h : s.step settings a = some s')
    {e : Execution} (he : e ∈ s.executions) (hr' : s'.db.shards.get e.shardId = some r')
    (hrunning : r'.status = .running) (ht : r'.leaseToken = some e.leaseToken) :
    ∃ r, s.db.shards.get e.shardId = some r ∧ r.status = .running ∧
      r.leaseToken = some e.leaseToken ∧
      (r' = r ∨ ∃ i b now, a = .worker i b ∧ r' = { r with heartbeatAt := some now }) := by
  have hissued : e.leaseToken ∈ s.issued := hf.executions e he
  rcases shard_cases h hr' with ⟨r, hr, rfl | hstep⟩ | hnew
  · exact ⟨r', hr, hrunning, ht, Or.inl rfl⟩
  · rcases token_origin h hr' ht with ⟨q, hq, hqt⟩ | ⟨hfresh, -⟩
    · rw [hr] at hq
      cases hq
      refine ⟨r, hr, ?_⟩
      rcases hstep.running hc hrunning with hold | ⟨_, _, _, _, -, hheld, -⟩
      · refine ⟨hold, hqt, ?_⟩
        cases hstep with
        | lease => cases hrunning
        | @bind p token _ _ _ loaded _ _ _ _ _ hfresh _ =>
          rw [ScanShard.writeBack_bound] at ht ⊢
          by_cases hsame : some token = loaded.leaseToken
          · left
            rw [← hsame, writeBack_self]
          · rw [writeBack_of_ne hsame] at ht
            cases ht
            exact absurd hissued hfresh
        | recover hp hl hid =>
          have hstatus := hc.stale _ (List.mem_of_getElem? hp) _ hl
          rw [(ScanShard.writeBack_requeued hstatus r).1] at hrunning
          cases hrunning
        | cancel hp hl hid =>
          have hstatus := (hc.selected _ (List.mem_of_getElem? hp) _ hl).1
          rw [ScanShard.writeBack_cancelled hstatus] at hrunning
          cases hrunning
        | claim _ hheld =>
          exact absurd (ScanShard.held_iff.mp hheld).2.1 (hf.claimed e he _ r hr hqt).2
        | beat => exact Or.inr ⟨_, _, _, rfl, rfl⟩
        | @finish _ _ _ o => cases o <;> cases hrunning
      · exact absurd (ScanShard.held_iff.mp hheld).2.1 (hf.claimed e he _ r hr hqt).2
    · exact absurd hissued hfresh
  · rw [hnew.blank] at hrunning
    cases hrunning

/-- Ownership is never regained. -/
theorem owns_back (hc : Copies s) (hf : Fenced s) (h : s.step settings a = some s')
    {e : Execution} (he : e ∈ s.executions) (hown : e.owns s'.db = true) : e.owns s.db = true := by
  obtain ⟨r', hr', hrunning, ht⟩ := Db.currentLease_iff.mp hown
  obtain ⟨r, hr, hold, hqt, -⟩ := owned_row hc hf h he hr' hrunning ht
  exact Db.currentLease_iff.mpr ⟨r, hr, hold, hqt⟩

/-- A row an execution owns is rewritten by no recovery, cancellation or claim. -/
theorem owned_unchanged (hc : Copies s) (hf : Fenced s) (h : s.step settings a = some s')
    {e : Execution} (he : e ∈ s.executions) (hown : e.owns s'.db = true)
    (ha : ∀ i b, a ≠ .worker i b) :
    s'.db.shards.get e.shardId = s.db.shards.get e.shardId := by
  obtain ⟨r', hr', hrunning, ht⟩ := Db.currentLease_iff.mp hown
  obtain ⟨r, hr, -, -, rfl | ⟨i, b, now, hab, -⟩⟩ := owned_row hc hf h he hr' hrunning ht
  · exact hr'.trans hr.symm
  · exact absurd hab (ha i b)

/-- The UPDATE of an execution that does not own its shard matches no row. -/
theorem update_lost {db : Db} {e : Execution} (hlost : e.owns db = false) {k : Uuid}
    {r : ScanShard} (hr : db.shards.get k = some r) :
    r.held e.shardId e.leaseToken .running = false := by
  by_contra hheld
  obtain ⟨hid, hrunning, ht⟩ := ScanShard.held_iff.mp (Bool.eq_true_of_not_eq_false hheld)
  have hk : k = e.shardId := (Table.get_key hr).symm.trans hid
  have hown : e.owns db = true := Db.currentLease_iff.mpr ⟨r, hk ▸ hr, hrunning, ht⟩
  rw [hlost] at hown
  cases hown

/-- The UPDATE of an execution leaves the rows of the others alone. -/
theorem update_other (hf : Fenced s) {i j : Nat} {e e' : Execution} (hij : i ≠ j)
    (he : s.executions[i]? = some e) (he' : s.executions[j]? = some e')
    (hown : e.owns s.db = true) (hr : s.db.shards.get e.shardId = some r) :
    r.held e'.shardId e'.leaseToken .running = false := by
  by_contra hheld
  obtain ⟨-, -, ht'⟩ := ScanShard.held_iff.mp (Bool.eq_true_of_not_eq_false hheld)
  obtain ⟨q, hq, -, ht⟩ := Db.currentLease_iff.mp hown
  rw [hr] at hq
  cases hq
  exact hij (hf.index he he' (Option.some.inj (ht.symm.trans ht')))

end

theorem update_unmatched {db : Db} {shardId token k : Uuid} (o : Outcome) (now : DateTime)
    (h : ∀ r, db.shards.get k = some r → r.held shardId token .running = false) :
    (db.finishLease shardId token o).shards.get k = db.shards.get k ∧
      (db.heartbeat shardId token now).shards.get k = db.shards.get k := by
  rw [Db.get_finishLease, Db.get_heartbeat]
  cases hr : db.shards.get k with
  | none => exact ⟨rfl, rfl⟩
  | some r =>
    rw [Option.map_some, Option.map_some, h r hr]
    exact ⟨rfl, rfl⟩

/-! ## Runs -/

section
variable {settings : Settings} {db : Db} {tr : List (Transition State Action)} {t : State}

theorem fenced_run (hdb : ∀ r ∈ db.shards.rows, r.leaseToken = none)
    (h : Run settings (State.start db) tr t) : Copies t ∧ Fenced t :=
  Path.invariant (I := fun s => Copies s ∧ Fenced s) (C := fun _ _ => true) h
    ⟨copies_start db, fenced_start hdb⟩
    (fun _ _ _ hI _ hs => ⟨copies_step hI.1 hs, fenced_step hI.1 hI.2 hs⟩) fun _ _ => rfl

theorem fenced_at (hdb : ∀ r ∈ db.shards.rows, r.leaseToken = none)
    (h : Run settings (State.start db) tr t) {x : Transition State Action} (hx : x ∈ tr) :
    Copies x.pre ∧ Fenced x.pre := by
  obtain ⟨_, _, _, hpre, _, _⟩ := h.split_of_mem hx
  exact fenced_run hdb hpre

/-- What an execution owns at the end of a stretch of a run it owned all along. -/
theorem owned_throughout {s : State} (hinv : ∀ x ∈ tr, Copies x.pre ∧ Fenced x.pre)
    (h : Path (State.step settings) s tr t) {e : Execution}
    (he : s.Executes e.shardId e.leaseToken) (hown : e.owns t.db = true)
    {x : Transition State Action} (hx : x ∈ tr) :
    x.pre.Executes e.shardId e.leaseToken ∧ e.owns x.post.db = true := by
  obtain ⟨l, r, rfl, hl, hs, hrest⟩ := h.split_of_mem hx
  have hpre : x.pre.Executes e.shardId e.leaseToken := executes_path hl he
  refine ⟨hpre, ?_⟩
  -- once lost it stays lost up to the end of the stretch
  by_contra hlost
  have hkept : t.Executes e.shardId e.leaseToken ∧ ¬ e.owns t.db = true := by
    refine hrest.kept (Q := fun u => u.Executes e.shardId e.leaseToken ∧ ¬ e.owns u.db = true)
      ?_ ⟨executes_step hs hpre, hlost⟩
    rintro y hy ⟨⟨e₀, he₀, hshard, htoken⟩, hnot⟩
    have hy' : y ∈ l ++ x :: r := List.mem_append_right _ (List.mem_cons_of_mem _ hy)
    have hstep := hrest.step_of_mem hy
    refine ⟨executes_step hstep ⟨e₀, he₀, hshard, htoken⟩, fun hown' => hnot ?_⟩
    obtain ⟨hc, hf⟩ := hinv y hy'
    have howns : ∀ db : Db, e₀.owns db = e.owns db := by
      intro db
      rw [Execution.owns, Execution.owns, hshard, htoken]
    rw [← howns] at hown' ⊢
    exact owns_back hc hf hstep he₀ hown'
  exact hkept.2 hown

end

/-- The step claims a shard with token `t`. -/
def claims (t : Uuid) (x : Transition State Action) : Bool :=
  match x.act with
  | .deliver shardId token workerId now =>
    token = t && (x.pre.db.claimLease shardId token workerId now).isSome
  | _ => false

/-- What the lease protocol guarantees of a run.  `finish_lease` returns true for
an execution exactly when the execution owns its shard. -/
structure LeaseFencing (tr : List (Transition State Action)) (t : State) : Prop where
  claimed_once : ∀ token, tr.countP (claims token) ≤ 1
  one_owner : ∀ (i j : Nat) (e e' : Execution),
    t.executions[i]? = some e → t.executions[j]? = some e' →
    e.owns t.db = true → e'.owns t.db = true → e.shardId = e'.shardId → i = j
  since_claim : ∀ l x m y r, tr = l ++ x :: (m ++ y :: r) →
    ∀ e : Execution, claims e.leaseToken x = true → e.owns y.pre.db = true →
    ∀ z ∈ m, (∀ i b, z.act ≠ .worker i b) →
      z.post.db.shards.get e.shardId = z.pre.db.shards.get e.shardId
  others : ∀ (i j : Nat) (e e' : Execution), i ≠ j →
    t.executions[i]? = some e → t.executions[j]? = some e' →
    e.owns t.db = true → ∀ o now,
      (t.db.finishLease e'.shardId e'.leaseToken o).shards.get e.shardId =
        t.db.shards.get e.shardId ∧
      (t.db.heartbeat e'.shardId e'.leaseToken now).shards.get e.shardId =
        t.db.shards.get e.shardId
  superseded : ∀ e ∈ t.executions, e.owns t.db = false → ∀ k o now,
    (t.db.finishLease e.shardId e.leaseToken o).shards.get k = t.db.shards.get k ∧
      (t.db.heartbeat e.shardId e.leaseToken now).shards.get k = t.db.shards.get k

section
variable {settings : Settings} {db : Db} {tr : List (Transition State Action)} {t : State}

theorem claim_starts {s s' : State} {a : Action} {token : Uuid} (h : s.step settings a = some s')
    (hclaims : claims token ⟨s, a, s'⟩ = true) :
    ∃ shardId workerId now r, a = .deliver shardId token workerId now ∧
      s.db.shards.get shardId = some r ∧ r.held shardId token .leased = true ∧
      s'.Executes shardId token := by
  cases a with
  | deliver shardId token' workerId now =>
    rw [claims, Bool.and_eq_true, decide_eq_true_eq] at hclaims
    obtain ⟨rfl, hsome⟩ := hclaims
    obtain ⟨-, ⟨hnone, -⟩ | ⟨db, hdb, rfl⟩⟩ := step_deliver h
    · rw [show s.db.claimLease shardId token' workerId now = none from hnone] at hsome
      cases hsome
    · obtain ⟨⟨r, hr, hheld⟩, -, -⟩ := Db.claimLease_eq_some hdb
      refine ⟨shardId, workerId, now, r, rfl, hr, hheld,
        { shardId := shardId, leaseToken := token' }, ?_, rfl, rfl⟩
      exact List.mem_append_right _ (List.mem_singleton_self _)
  | _ => cases hclaims

theorem claimed_once (hdb : ∀ r ∈ db.shards.rows, r.leaseToken = none)
    (h : Run settings (State.start db) tr t) (token : Uuid) : tr.countP (claims token) ≤ 1 := by
  refine h.count_le_one (Q := fun s => ∃ k, s.Executes k token) ?_ ?_ ?_
  · rintro x hx ⟨k, he⟩
    exact ⟨k, executes_step (h.step_of_mem hx) he⟩
  · rintro x hx hclaims ⟨k, e, he, -, rfl⟩
    obtain ⟨_, _, _, r, -, hr, hheld, -⟩ := claim_starts (h.step_of_mem hx) hclaims
    obtain ⟨-, hstatus, htoken⟩ := ScanShard.held_iff.mp hheld
    exact ((fenced_at hdb h hx).2.claimed e he _ r hr htoken).2 hstatus
  · intro x hx hclaims
    obtain ⟨shardId, _, _, _, -, -, -, hstarted⟩ := claim_starts (h.step_of_mem hx) hclaims
    exact ⟨shardId, hstarted⟩

theorem unchanged_since_claim (hdb : ∀ r ∈ db.shards.rows, r.leaseToken = none)
    (h : Run settings (State.start db) tr t) {l m r : List (Transition State Action)}
    {x y z : Transition State Action} (htr : tr = l ++ x :: (m ++ y :: r)) {e : Execution}
    (hx : claims e.leaseToken x = true)
    (hown : e.owns y.pre.db = true) (hz : z ∈ m) (ha : ∀ i b, z.act ≠ .worker i b) :
    z.post.db.shards.get e.shardId = z.pre.db.shards.get e.shardId := by
  subst htr
  obtain ⟨-, hstep, hrest⟩ := h.split
  obtain ⟨hm, -, -⟩ := hrest.split
  have hat : ∀ w ∈ m, Copies w.pre ∧ Fenced w.pre := fun w hw =>
    fenced_at hdb h (List.mem_append_right _ (List.mem_cons_of_mem _ (List.mem_append_left _ hw)))
  obtain ⟨shardId, _, _, _, -, -, -, hstarted⟩ := claim_starts hstep hx
  -- the claim and the execution that finishes have the same token, hence the same shard
  have hshard : shardId = e.shardId := by
    obtain ⟨e', he', hs', ht'⟩ := executes_path hm hstarted
    have hy : y ∈ l ++ x :: (m ++ y :: r) := List.mem_append_right _
      (List.mem_cons_of_mem _ (List.mem_append_right _ List.mem_cons_self))
    obtain ⟨q, hq, -, hqt⟩ := Db.currentLease_iff.mp hown
    have hk := ((fenced_at hdb h hy).2.claimed e' he' e.shardId q hq (ht' ▸ hqt)).1
    exact (hk.trans hs').symm
  obtain ⟨⟨e₀, he₀, hs₀, ht₀⟩, hpost⟩ :=
    owned_throughout hat hm (hshard ▸ hstarted) hown hz
  have howns : e₀.owns z.post.db = true := by
    rw [Execution.owns, hs₀, ht₀]
    exact hpost
  obtain ⟨hc, hf⟩ := hat z hz
  rw [← hs₀]
  exact owned_unchanged hc hf (hm.step_of_mem hz) he₀ howns ha

end

/-- From a database whose rows carry no token, for every interleaving. -/
theorem lease_fencing (settings : Settings) (db : Db)
    (hdb : ∀ r ∈ db.shards.rows, r.leaseToken = none) (tr : List (Transition State Action))
    (t : State) (h : Run settings (State.start db) tr t) : LeaseFencing tr t where
  claimed_once := claimed_once hdb h
  one_owner := by
    intro i j e e' he he' hown hown' hshard
    obtain ⟨r, hr, -, ht⟩ := Db.currentLease_iff.mp hown
    obtain ⟨r', hr', -, ht'⟩ := Db.currentLease_iff.mp hown'
    rw [← hshard, hr] at hr'
    cases hr'
    exact (fenced_run hdb h).2.index he he' (Option.some.inj (ht.symm.trans ht'))
  since_claim := fun _ _ _ _ _ htr _ hx hown _ hz ha =>
    unchanged_since_claim hdb h htr hx hown hz ha
  others := by
    intro i j e e' hij he he' hown o now
    exact update_unmatched o now fun r hr =>
      update_other (fenced_run hdb h).2 hij he he' hown hr
  superseded := by
    intro e he hlost k o now
    exact update_unmatched o now fun r hr => update_lost hlost hr

/-- A lost execution, its replacement under a new token, and the first message
delivered once more. -/
theorem lease_fencing_replaced :
    ∃ tr t, Run {} Demo.start tr t ∧ LeaseFencing tr t ∧
      t.executions.map (fun e => e.owns t.db) = [false, true] := by
  have hrun : (runAll (State.step {}) Demo.start (Demo.running ++
      [.loadStale (seconds 7200), .commitRecovery 0] ++
      Demo.dispatch 1 "t2" "e2" (seconds 7200) ++ Demo.publish 1 (seconds 7200) ++
      Demo.begin 1 "s1" "t2" (seconds 7200) ++ [.deliver "s1" "t1" "worker" (seconds 7201)])).map
        (fun t => t.executions.map fun e => e.owns t.db) = some [false, true] := by
    decide +kernel
  obtain ⟨tr, t, hp, hobs⟩ := Path.of_runAll_map hrun
  have hblank : ∀ r ∈ (Table.empty : Table ScanShard).rows, r.leaseToken = none :=
    fun r hr => absurd hr List.not_mem_nil
  exact ⟨tr, t, hp, lease_fencing {} _ hblank tr t hp, hobs⟩

end TransportLookout
