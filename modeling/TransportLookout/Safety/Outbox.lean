/-
The transactional outbox.

A lease and its publish intent are committed together, so the pair is there for
every publisher that runs later.  What the publishers write back is delivery
bookkeeping: an event keeps its payload, and it is marked delivered only after
the broker took its message.  `Intents` is the invariant; it holds whichever
publishers run, fail or stop between the send and the commit.
-/
import TransportLookout.System.Copies

namespace TransportLookout

open Relational Trace

/-! ## Event rows -/

theorem Db.get_flushEvent (db : Db) (loaded assigned : OutboxEvent) (k : Uuid) :
    (db.flushEvent loaded assigned).outbox.get k = (db.outbox.get k).map fun r =>
      if k = loaded.id then OutboxEvent.writeBack loaded assigned r else r :=
  Table.get_modify db.outbox k loaded.id (OutboxEvent.writeBack loaded assigned) fun _ => rfl

theorem OutboxEvent.payload_writeBack {l a : OutboxEvent} (h : a.payload = l.payload)
    (r : OutboxEvent) : (OutboxEvent.writeBack l a r).payload = r.payload := by
  show Relational.writeBack l.payload a.payload r.payload = r.payload
  rw [h, writeBack_self]

theorem OutboxEvent.deliveredAt_writeBack {l a : OutboxEvent} (h : a.deliveredAt = l.deliveredAt)
    (r : OutboxEvent) : (OutboxEvent.writeBack l a r).deliveredAt = r.deliveredAt := by
  show Relational.writeBack l.deliveredAt a.deliveredAt r.deliveredAt = r.deliveredAt
  rw [h, writeBack_self]

/-- Every undelivered event is loaded by a pass with a large enough batch. -/
theorem Db.mem_pendingEvents {db : Db} {e : OutboxEvent} {limit : Nat}
    (hlimit : db.outbox.rows.length ≤ limit) :
    e ∈ db.pendingEvents limit ↔ e ∈ db.outbox.rows ∧ e.deliveredAt = none := by
  have hlen : ((db.outbox.select fun e => e.deliveredAt.isNone).insertionSort
      fun a b => a.createdAt ≤ b.createdAt).length ≤ limit := by
    rw [List.length_insertionSort]
    exact (List.length_filter_le _ _).trans hlimit
  rw [Db.pendingEvents, List.take_of_length_le hlen, List.mem_insertionSort, Table.mem_select,
    Option.isNone_iff_eq_none]

theorem Db.mem_outbox_of_pending {db : Db} {e : OutboxEvent} {limit : Nat}
    (h : e ∈ db.pendingEvents limit) : e ∈ db.outbox.rows :=
  (Table.mem_select.mp ((List.mem_insertionSort _).mp (List.mem_of_mem_take h))).1

theorem Db.deliveredAt_of_pending {db : Db} {e : OutboxEvent} {limit : Nat}
    (h : e ∈ db.pendingEvents limit) : e.deliveredAt = none :=
  Option.isNone_iff_eq_none.mp
    (Table.mem_select.mp ((List.mem_insertionSort _).mp (List.mem_of_mem_take h))).2

/-- A pass loads an event once. -/
theorem Db.nodup_pendingEvents (db : Db) (limit : Nat) :
    ((db.pendingEvents limit).map OutboxEvent.id).Nodup := by
  have hsorted : (((db.outbox.select fun e => e.deliveredAt.isNone).insertionSort
      fun a b => a.createdAt ≤ b.createdAt).map OutboxEvent.id).Nodup :=
    ((List.perm_insertionSort _ _).map OutboxEvent.id).nodup_iff.mpr (db.outbox.nodup_keys _)
  exact ((List.take_sublist limit _).map OutboxEvent.id).nodup hsorted

section
variable {settings : Settings} {s s' : State} {a : Action}

/-- The steps that write events. -/
def Action.records : Action → Bool
  | .lease .. | .dropEvent .. | .bindToken .. | .settleEvent .. => true
  | _ => false

theorem outbox_frame (h : s.step settings a = some s') (ha : a.records = false) :
    s'.db.outbox = s.db.outbox := by
  by_cases hw : a.writes = false
  · rw [(step_reads h hw).1]
  cases a with
  | createRun =>
    obtain ⟨_, _, _, -, -, hdb, rfl⟩ := step_createRun h
    obtain ⟨-, -, -, -, hframe⟩ := Db.createRun_ok hdb
    show Db.outbox _ = _
    rw [hframe]
  | commitRecovery =>
    obtain ⟨_, -, rfl⟩ := step_commitRecovery h
    rfl
  | commitCancel =>
    obtain ⟨_, _, -, -, rfl⟩ := step_commitCancel h
    rfl
  | finalizeNext =>
    obtain ⟨_, _, _, _, -, hfin, rfl⟩ := step_finalizeNext h
    show Db.outbox _ = _
    rw [(Db.finalizeWith_frame hfin).1]
  | deliver =>
    obtain ⟨-, ⟨-, rfl⟩ | ⟨_, hdb, rfl⟩⟩ := step_deliver h
    · rfl
    · obtain ⟨-, hframe, -⟩ := Db.claimLease_eq_some hdb
      show Db.outbox _ = _
      rw [hframe]
  | worker =>
    obtain ⟨_, _, _, -, hstep, rfl⟩ := step_worker h
    rcases Execution.step_cases hstep with ⟨rfl, -⟩ | hc
    · rfl
    · exact hc.outbox
  | lease | dropEvent | bindToken | settleEvent => cases ha
  | _ => exact absurd rfl hw

end

/-! ## The invariant -/

/-- What a publication pass holds is backed by the outbox, and what it takes for
sent by the broker. -/
structure State.Backs (s : State) (pub : Publication) : Prop where
  loaded : ∀ c ∈ pub.pending, ∃ e, s.db.outbox.get c.id = some e ∧ e.payload = c.payload
  fenced : ∀ shard, pub.phase ≠ .looked shard
  handed : pub.phase = .sent → ∀ c rest, pub.pending = c :: rest →
    ∀ t, c.payload.leaseToken = some t → (c.payload.shardId, t) ∈ s.sent

structure Intents (s : State) : Prop where
  token : ∀ k e, s.db.outbox.get k = some e → ∃ t, e.payload.leaseToken = some t
  delivered : ∀ k e t, s.db.outbox.get k = some e → e.payload.leaseToken = some t →
    e.deliveredAt ≠ none → (e.payload.shardId, t) ∈ s.sent
  leased : ∀ k r, s.db.shards.get k = some r → r.status = .leased →
    ∃ t, r.leaseToken = some t ∧
      ∃ id e, s.db.outbox.get id = some e ∧ e.payload = ⟨k, some t⟩
  backed : ∀ pub ∈ s.publications, s.Backs pub

theorem intents_start (scopes : Table InventoryScope) (profiles : Table ScanProfile) :
    Intents (State.initial scopes profiles) where
  token := fun _ _ hr => absurd (Table.get_mem hr) List.not_mem_nil
  delivered := fun _ _ _ hr => absurd (Table.get_mem hr) List.not_mem_nil
  leased := fun _ _ hr => absurd (Table.get_mem hr) List.not_mem_nil
  backed := fun _ hp => absurd hp List.not_mem_nil

section
variable {settings : Settings} {s s' : State} {a : Action}

/-- No pass has a shard to bind a token to. -/
theorem Intents.fenced (hi : Intents s) {p : Nat} {pub : Publication}
    (hp : s.publications[p]? = some pub) (shard : Option ScanShard) : pub.phase ≠ .looked shard :=
  (hi.backed pub (List.mem_of_getElem? hp)).fenced shard

theorem Intents.not_dropEvent (hi : Intents s) {p : Nat} {now : DateTime} :
    s.step settings (.dropEvent p now) ≠ some s' := by
  intro h
  obtain ⟨pub, _, _, shard, hp, -, hphase, -⟩ := step_dropEvent h
  exact hi.fenced hp shard hphase

theorem Intents.not_bindToken (hi : Intents s) {p : Nat} {token : Uuid} :
    s.step settings (.bindToken p token) ≠ some s' := by
  intro h
  obtain ⟨pub, _, _, shard, hp, -, hphase, -⟩ := step_bindToken h
  exact hi.fenced hp (some shard) hphase

/-- No event of the run predates fencing. -/
theorem Intents.not_legacy (hi : Intents s) {pub : Publication} (hp : pub ∈ s.publications)
    {c : OutboxEvent} (hc : c ∈ pub.pending) : c.legacy = false := by
  obtain ⟨e, he, hpayload⟩ := (hi.backed pub hp).loaded c hc
  obtain ⟨t, ht⟩ := hi.token c.id e he
  rw [OutboxEvent.legacy, ← hpayload, ht, Option.isNone_some, Bool.and_false]

/-- What a step does to an event row: the payload stays, and a delivery time is
written only by a pass that has handed the message to the broker. -/
theorem event_step (hi : Intents s) (h : s.step settings a = some s') {k : Uuid} {e : OutboxEvent}
    (he : s.db.outbox.get k = some e) :
    ∃ e', s'.db.outbox.get k = some e' ∧ e'.payload = e.payload ∧
      (e'.deliveredAt = e.deliveredAt ∨
        ∃ p now pub c rest, a = .settleEvent p now ∧ s.publications[p]? = some pub ∧
          pub.phase = .sent ∧ pub.pending = c :: rest ∧ c.id = k) := by
  cases a with
  | lease p tokens eventIds now =>
    obtain ⟨_, _, -, -, -, -, -, hdb, rfl⟩ := step_lease h
    obtain ⟨houtbox, -, -⟩ := Db.leaseShards_eq_some hdb
    exact ⟨e, Table.get_append?_of_get houtbox he, rfl, Or.inl rfl⟩
  | dropEvent =>
    exact absurd h hi.not_dropEvent
  | bindToken =>
    exact absurd h hi.not_bindToken
  | settleEvent p now =>
    obtain ⟨pub, c, rest, hp, hpending, ⟨hphase, rfl⟩ | ⟨error, hphase, rfl⟩⟩ :=
      step_settleEvent h
    · rw [Db.get_flushEvent, he, Option.map_some]
      by_cases hk : k = c.id
      · rw [if_pos hk]
        exact ⟨_, rfl, OutboxEvent.payload_writeBack rfl e,
          Or.inr ⟨p, now, pub, c, rest, rfl, hp, hphase, hpending, hk.symm⟩⟩
      · rw [if_neg hk]
        exact ⟨e, rfl, rfl, Or.inl rfl⟩
    · rw [Db.get_flushEvent, he, Option.map_some]
      by_cases hk : k = c.id
      · rw [if_pos hk]
        exact ⟨_, rfl, OutboxEvent.payload_writeBack rfl e,
          Or.inl (OutboxEvent.deliveredAt_writeBack rfl e)⟩
      · rw [if_neg hk]
        exact ⟨e, rfl, rfl, Or.inl rfl⟩
  | _ => exact ⟨e, by rw [outbox_frame h rfl, he], rfl, Or.inl rfl⟩

/-- A new event row is the undelivered intent of a lease. -/
theorem event_new (hi : Intents s) (h : s.step settings a = some s') {k : Uuid} {e : OutboxEvent}
    (hnone : s.db.outbox.get k = none) (he : s'.db.outbox.get k = some e) :
    ∃ now shardId token, e = Db.leaseEvent now shardId token k := by
  have hmap : ∀ {f}, s'.db.outbox.get k = (s.db.outbox.get k).map f →
      ∃ now shardId token, e = Db.leaseEvent now shardId token k := by
    intro f hf
    rw [hf, hnone] at he
    cases he
  cases a with
  | lease p tokens eventIds now =>
    obtain ⟨_, _, -, -, -, -, -, hdb, rfl⟩ := step_lease h
    obtain ⟨houtbox, -, -⟩ := Db.leaseShards_eq_some hdb
    rcases Table.get_append? houtbox he with hold | ⟨hnew, -⟩
    · rw [hnone] at hold
      cases hold
    · obtain ⟨i, hi⟩ := List.mem_iff_getElem?.mp hnew
      obtain ⟨⟨shardId, token⟩, id, -, -, rfl⟩ := List.getElem?_zipWith_eq_some.mp hi
      have hid : id = k := Table.get_key he
      exact ⟨now, shardId, token, by rw [hid]⟩
  | dropEvent =>
    exact absurd h hi.not_dropEvent
  | bindToken =>
    exact absurd h hi.not_bindToken
  | settleEvent p now =>
    obtain ⟨_, _, _, -, -, ⟨-, rfl⟩ | ⟨_, -, rfl⟩⟩ := step_settleEvent h
    · exact hmap (Db.get_flushEvent s.db _ _ k)
    · exact hmap (Db.get_flushEvent s.db _ _ k)
  | _ =>
    rw [outbox_frame h rfl, hnone] at he
    cases he

theorem sent_mono (h : s.step settings a = some s') {m : Uuid × Uuid} (hm : m ∈ s.sent) :
    m ∈ s'.sent := by
  rcases (step_effect h).sent with heq | ⟨_, _, -, heq⟩
  · rw [heq]
    exact hm
  · rw [heq]
    exact List.mem_append_left _ hm

/-- A leased row after a step was leased with the same token, or is leased by it
together with its event. -/
theorem leased_step (hc : Copies s) (hi : Intents s) (h : s.step settings a = some s') {k : Uuid}
    {r' : ScanShard} (hr' : s'.db.shards.get k = some r') (hl : r'.status = .leased) :
    (∃ r, s.db.shards.get k = some r ∧ r.status = .leased ∧ r'.leaseToken = r.leaseToken) ∨
      ∃ t id e, r'.leaseToken = some t ∧ s'.db.outbox.get id = some e ∧
        e.payload = ⟨k, some t⟩ := by
  rcases shard_cases h hr' with ⟨r, hr, rfl | hstep⟩ | hnew
  · exact Or.inl ⟨r', hr, hl, rfl⟩
  · have hid : r.id = k := Table.get_key hr
    cases hstep with
    | @lease p tokens eventIds now d token _ hd hlen hnodup hfresh hchosen hlookup =>
      obtain ⟨d', db, hd', -, hlen', -, -, hdb, rfl⟩ := step_lease h
      rw [hd] at hd'
      cases hd'
      obtain ⟨houtbox, -, -⟩ := Db.leaseShards_eq_some hdb
      -- the event of the pair stands at the pair's place in the list
      obtain ⟨i, hpair⟩ := List.mem_iff_getElem?.mp (mem_of_lookup_eq_some hlookup)
      have hlt : i < eventIds.length := by
        have hlt := (List.getElem?_eq_some_iff.mp hpair).1
        rw [List.length_zip, List.length_map] at hlt
        omega
      have hevent : Db.leaseEvent now r.id token eventIds[i] ∈ db.outbox.rows := by
        rw [Table.rows_append? houtbox]
        refine List.mem_append_right _ (List.mem_iff_getElem?.mpr ⟨i, ?_⟩)
        rw [List.getElem?_zipWith, hpair, List.getElem?_eq_getElem hlt]
      exact Or.inr ⟨token, eventIds[i], _, rfl, Table.get_of_mem hevent, by rw [← hid]; rfl⟩
    | bind hp _ hphase => exact absurd hphase (hi.fenced hp _)
    | recover hp hl' _ =>
      rw [(ScanShard.writeBack_requeued (hc.stale _ (List.mem_of_getElem? hp) _ hl') r).1] at hl
      cases hl
    | cancel hp hl' _ =>
      rw [ScanShard.writeBack_cancelled (hc.selected _ (List.mem_of_getElem? hp) _ hl').1] at hl
      cases hl
    | claim => cases hl
    | beat => exact Or.inl ⟨r, hr, hl, rfl⟩
    | @finish _ _ _ o => cases o <;> cases hl
  · rw [hnew.blank] at hl
    cases hl

/-- Between two events, or after a refused one, a pass only has to be loaded. -/
theorem State.Backs.unsent {pub : Publication}
    (hloaded : ∀ c ∈ pub.pending, ∃ e, s.db.outbox.get c.id = some e ∧ e.payload = c.payload)
    (hphase : pub.phase = .next ∨ ∃ error, pub.phase = .failed error) : s.Backs pub := by
  refine ⟨hloaded, ?_, ?_⟩
  · intro shard hlooked
    rw [hlooked] at hphase
    rcases hphase with h | ⟨_, h⟩
    · cases h
    · cases h
  · intro hsent
    rw [hsent] at hphase
    rcases hphase with h | ⟨_, h⟩
    · cases h
    · cases h

/-- No step takes back what a pass relies on. -/
theorem backs_kept (hi : Intents s) (h : s.step settings a = some s') {pub : Publication}
    (hb : s.Backs pub) : s'.Backs pub where
  loaded := by
    intro c hc
    obtain ⟨e, he, hpayload⟩ := hb.loaded c hc
    obtain ⟨e', he', hsame, -⟩ := event_step hi h he
    exact ⟨e', he', hsame.trans hpayload⟩
  fenced := hb.fenced
  handed := fun hphase c rest hc t ht => sent_mono h (hb.handed hphase c rest hc t ht)

/-- The publishers' part of the invariant. -/
theorem publications_step (hi : Intents s) (h : s.step settings a = some s') :
    ∀ pub ∈ s'.publications, s'.Backs pub := by
  have hold : ∀ pub ∈ s.publications, s'.Backs pub :=
    fun pub hp => backs_kept hi h (hi.backed pub hp)
  have hset : ∀ {p : Nat} {pub : Publication}, s'.publications = s.publications.set p pub →
      s'.Backs pub → ∀ q ∈ s'.publications, s'.Backs q := by
    intro p pub heq hnew q hq
    rw [heq] at hq
    rcases List.mem_or_eq_of_mem_set hq with hq | rfl
    · exact hold q hq
    · exact hnew
  rcases (step_effect h).publications with heq | hp
  · rw [heq]
    exact hold
  cases a with
  | loadEvents limit =>
    cases step_loadEvents h
    intro q hq
    rcases List.mem_append.mp hq with hq | hq
    · exact hold q hq
    · cases List.mem_singleton.mp hq
      refine .unsent (fun c hc => ?_) (Or.inl rfl)
      exact ⟨c, Table.get_of_mem (Db.mem_outbox_of_pending hc), rfl⟩
  | lookupShard =>
    obtain ⟨pub, e, rest, hp, hpending, hlegacy, -⟩ := step_lookupShard h
    rw [hi.not_legacy (List.mem_of_getElem? hp) (hpending ▸ List.mem_cons_self)] at hlegacy
    cases hlegacy
  | dropEvent =>
    exact absurd h hi.not_dropEvent
  | bindToken =>
    exact absurd h hi.not_bindToken
  | sendTask p error =>
    obtain ⟨pub, e, rest, hp, hpending, -, hcase⟩ := step_sendTask h
    have hb := hold pub (List.mem_of_getElem? hp)
    rcases hcase with ⟨token, -, htoken, rfl⟩ | ⟨message, -, rfl⟩
    · refine hset rfl ⟨hb.loaded, fun shard hphase => ?_, ?_⟩
      · cases hphase
      · intro _ c rest' hc t ht
        rw [hpending] at hc
        cases hc
        rw [htoken] at ht
        cases ht
        exact List.mem_append_right _ (List.mem_singleton_self _)
    · exact hset rfl (.unsent hb.loaded (Or.inr ⟨message, rfl⟩))
  | settleEvent p now =>
    obtain ⟨pub, e, rest, hp, hpending, hcase⟩ := step_settleEvent h
    have hb := hold pub (List.mem_of_getElem? hp)
    -- the pass goes on with the rest of its events
    have hrest : ∀ c ∈ rest, ∃ e, s'.db.outbox.get c.id = some e ∧ e.payload = c.payload :=
      fun c hc => hb.loaded c (hpending ▸ List.mem_cons_of_mem _ hc)
    rcases hcase with ⟨-, rfl⟩ | ⟨error, -, rfl⟩
    · exact hset rfl (.unsent hrest (Or.inl rfl))
    · exact hset rfl (.unsent hrest (Or.inl rfl))
  | _ => cases hp

theorem intents_step (hc : Copies s) (hi : Intents s) (h : s.step settings a = some s') :
    Intents s' := by
  refine ⟨?_, ?_, ?_, publications_step hi h⟩
  · intro k e' he'
    cases he : s.db.outbox.get k with
    | none =>
      obtain ⟨_, _, token, rfl⟩ := event_new hi h he he'
      exact ⟨token, rfl⟩
    | some e =>
      obtain ⟨e'', he'', hpayload, -⟩ := event_step hi h he
      rw [he'] at he''
      cases he''
      rw [hpayload]
      exact hi.token k e he
  · intro k e' t he' ht hd
    cases he : s.db.outbox.get k with
    | none =>
      obtain ⟨_, _, token, rfl⟩ := event_new hi h he he'
      exact absurd rfl hd
    | some e =>
      obtain ⟨e'', he'', hpayload, hcase⟩ := event_step hi h he
      rw [he'] at he''
      cases he''
      rw [hpayload] at ht ⊢
      rcases hcase with hsame | ⟨p, now, pub, c, rest, -, hp, hphase, hpending, rfl⟩
      · exact sent_mono h (hi.delivered k e t he ht (hsame ▸ hd))
      · have hmem : pub ∈ s.publications := List.mem_of_getElem? hp
        obtain ⟨q, hq, hqc⟩ := (hi.backed pub hmem).loaded c (hpending ▸ List.mem_cons_self)
        rw [he] at hq
        cases hq
        rw [hqc] at ht ⊢
        exact sent_mono h ((hi.backed pub hmem).handed hphase c rest hpending t ht)
  · intro k r' hr' hl
    rcases leased_step hc hi h hr' hl with ⟨r, hr, hleased, htoken⟩ | ⟨t, id, e, ht, he, hp⟩
    · obtain ⟨t, ht, id, e, he, hpayload⟩ := hi.leased k r hr hleased
      obtain ⟨e', he', hsame, -⟩ := event_step hi h he
      exact ⟨t, htoken.trans ht, id, e', he', hsame.trans hpayload⟩
    · exact ⟨t, ht, id, e, he, hp⟩

theorem intents_run {scopes : Table InventoryScope} {profiles : Table ScanProfile}
    {tr : List (Transition State Action)} {t : State}
    (h : Run settings (State.initial scopes profiles) tr t) : Intents t := by
  have hinv : Copies t ∧ Intents t :=
    Path.invariant (I := fun s => Copies s ∧ Intents s) (C := fun _ _ => true) h
      ⟨copies_start _, intents_start scopes profiles⟩
      (fun _ _ _ hI _ hs => ⟨copies_step hI.1 hs, intents_step hI.1 hI.2 hs⟩) fun _ _ => rfl
  exact hinv.2

end

/-- The guarantee of the outbox for a run and the state it ends in.  An intent
that is not known to have reached the broker is still there for the next pass,
and a failed send leaves every delivery time as it was. -/
structure OutboxSafe (tr : List (Transition State Action)) (t : State) : Prop where
  leased : ∀ k r, t.db.shards.get k = some r → r.status = .leased →
    ∃ token, r.leaseToken = some token ∧ ∃ id e, t.db.outbox.get id = some e ∧
      e.payload = ⟨k, some token⟩ ∧
      ((e.deliveredAt = none ∧ ∀ limit, t.db.outbox.rows.length ≤ limit →
          e ∈ t.db.pendingEvents limit) ∨
        (k, token) ∈ t.sent)
  marked : ∀ x ∈ tr, ∀ id e e', x.pre.db.outbox.get id = some e →
    x.post.db.outbox.get id = some e' → e'.deliveredAt ≠ e.deliveredAt →
      ∃ p now pub, x.act = .settleEvent p now ∧ x.pre.publications[p]? = some pub ∧
        pub.phase = .sent
  failed : ∀ x ∈ tr, ∀ p now pub error, x.act = .settleEvent p now →
    x.pre.publications[p]? = some pub → pub.phase = .failed error → ∀ id e,
      x.pre.db.outbox.get id = some e →
        ∃ e', x.post.db.outbox.get id = some e' ∧ e'.deliveredAt = e.deliveredAt

theorem outbox_safe (settings : Settings) (scopes : Table InventoryScope)
    (profiles : Table ScanProfile) (tr : List (Transition State Action)) (t : State)
    (h : Run settings (State.initial scopes profiles) tr t) : OutboxSafe tr t := by
  have hmarked : ∀ x ∈ tr, ∀ id e e', x.pre.db.outbox.get id = some e →
      x.post.db.outbox.get id = some e' → e'.deliveredAt ≠ e.deliveredAt →
        ∃ p now pub, x.act = .settleEvent p now ∧ x.pre.publications[p]? = some pub ∧
          pub.phase = .sent := by
    intro x hx id e e' he he' hne
    obtain ⟨_, _, _, hpre, hs, -⟩ := h.split_of_mem hx
    obtain ⟨e'', he'', -, hsame | ⟨p, now, pub, _, _, ha, hp, hphase, -, -⟩⟩ :=
      event_step (intents_run hpre) hs he
    · rw [he'] at he''
      cases he''
      exact absurd hsame hne
    · exact ⟨p, now, pub, ha, hp, hphase⟩
  refine ⟨?_, hmarked, ?_⟩
  · intro k r hr hl
    have hi := intents_run h
    obtain ⟨token, ht, id, e, he, hpayload⟩ := hi.leased k r hr hl
    refine ⟨token, ht, id, e, he, hpayload, ?_⟩
    by_cases hd : e.deliveredAt = none
    · left
      exact ⟨hd, fun limit hlimit => (Db.mem_pendingEvents hlimit).mpr ⟨Table.get_mem he, hd⟩⟩
    · right
      have hsent := hi.delivered id e token he (by rw [hpayload]) hd
      rw [hpayload] at hsent
      exact hsent
  · intro x hx p now pub error ha hp hphase id e he
    obtain ⟨_, _, _, hpre, hs, -⟩ := h.split_of_mem hx
    obtain ⟨e', he', -, -⟩ := event_step (intents_run hpre) hs he
    refine ⟨e', he', ?_⟩
    by_contra hne
    obtain ⟨p', now', pub', ha', hp', hphase'⟩ := hmarked x hx id e e' he he' hne
    rw [ha] at ha'
    cases ha'
    rw [hp] at hp'
    cases hp'
    rw [hphase] at hphase'
    cases hphase'

/-- The broker refuses the message, and the intent is there for the next pass. -/
theorem outbox_safe_refused :
    ∃ tr t, Run {} Demo.start tr t ∧ OutboxSafe tr t ∧
      (t.db.shards.get "s1").map ScanShard.status = some .leased ∧
      (t.db.outbox.get "e1").map (fun e => (e.attempts, e.deliveredAt)) = some (1, none) := by
  have hrun : (runAll (State.step {}) Demo.start (Demo.createRun ++ Demo.dispatch 0 "t1" "e1" 0 ++
      [.loadEvents 100, .sendTask 0 (some "broker unreachable"), .settleEvent 0 1])).map
        (fun t => ((t.db.shards.get "s1").map ScanShard.status,
          (t.db.outbox.get "e1").map fun e => (e.attempts, e.deliveredAt))) =
      some (some .leased, some (1, none)) := by
    decide +kernel
  obtain ⟨tr, t, hp, hobs⟩ := Path.of_runAll_map hrun
  obtain ⟨hstatus, hevent⟩ := Prod.mk.inj hobs
  exact ⟨tr, t, hp, outbox_safe {} _ _ tr t hp, hstatus, hevent⟩

end TransportLookout
