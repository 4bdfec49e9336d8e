/-
A database that predates execution fencing.

The events of the old system carry no token, and neither do the leases they are for.
A publisher looks such a lease up, binds a token to it and to its event in one commit,
and sends the event; an event of a lease that is gone is dropped.  `upgrade_carries`
says that no lease is stranded on the way, whatever else runs.

Two passes that handle one event are another matter.  Each binds a token, the second
takes the lease from the first, and it may stop before it sends its message although
the first has marked the event delivered.  `State.upgrades` is the condition that a
pass which writes an event finds it as it was loaded.

A pass that a dispatch or a recovery runs is on their session, and looks a shard up in what
the session holds, however old that is.  All there is to say of such a copy is that its
columns were once the row's: `Remembers`.
-/
import TransportLookout.Safety.Fencing
import TransportLookout.Safety.Outbox
import TransportLookout.Safety.Recoverable

namespace TransportLookout

open Relational Trace

/-! ## Steps of a pass -/

/-- The event a pass is at is as it was loaded: neither bound nor delivered. -/
def State.unhandled (s : State) (p : Nat) : Bool :=
  (s.publications[p]?.bind fun pub => pub.pending.head?).all fun c =>
    (s.db.outbox.get c.id).all fun e => e.legacy && e.deliveredAt.isNone

/-- Who writes a lookup's outcome finds the event as it was loaded. -/
def State.upgrades (s : State) : Action → Bool
  | .dropEvent p _ | .bindToken p _ => s.unhandled p
  | _ => true

/-- The columns that a pass reads of a copy were the row's at some time. -/
def Remembers (tr : List (Transition State Action)) : Prop :=
  ∀ l x r p shard, tr = l ++ x :: r → x.act = .lookupShard p (some shard) →
    (∃ y ∈ l ++ [x], ∃ row, y.pre.db.shards.get shard.id = some row ∧
      row.status = shard.status) ∧
    ∃ y ∈ l ++ [x], ∃ row, y.pre.db.shards.get shard.id = some row ∧
      row.leaseToken = shard.leaseToken

/-- What this says of the copy a lookup answers with. -/
structure State.Answers (s : State) (copy : Option ScanShard) : Prop where
  issued : ∀ l, copy = some l → ∀ t, l.leaseToken = some t → t ∈ s.issued
  leased : ∀ l, copy = some l → ∀ r, s.db.shards.get l.id = some r → r.status = .leased →
    r.leaseToken = none → l.status = .leased

/-- What a pass holds is backed by the outbox, and what it takes for sent by the
broker. -/
structure State.Follows (s : State) (pub : Publication) : Prop where
  loaded : ∀ c ∈ pub.pending, ∃ e, s.db.outbox.get c.id = some e ∧
    e.payload.shardId = c.payload.shardId ∧
      ∀ t, c.payload.leaseToken = some t → e.payload.leaseToken = some t
  pending : ∀ c ∈ pub.pending, c.deliveredAt = none
  looked : ∀ l, pub.phase = .looked (some l) → ∀ c rest, pub.pending = c :: rest →
    l.id = c.payload.shardId
  handed : pub.phase = .sent → ∀ c rest, pub.pending = c :: rest →
    ∃ t, c.payload.leaseToken = some t ∧ (c.payload.shardId, t) ∈ s.sent

section
variable {settings : Settings} {s s' : State} {a : Action}

theorem unhandled_event {p : Nat} {pub : Publication} {c e : OutboxEvent}
    {rest : List OutboxEvent} (h : s.unhandled p = true) (hp : s.publications[p]? = some pub)
    (hpending : pub.pending = c :: rest) (he : s.db.outbox.get c.id = some e) :
    e.legacy = true ∧ e.deliveredAt = none := by
  rw [State.unhandled, hp, Option.bind_some, hpending, List.head?_cons, Option.all_some, he,
    Option.all_some, Bool.and_eq_true, Option.isNone_iff_eq_none] at h
  exact h

theorem dropEvent_unleased {p : Nat} {now : DateTime} {pub : Publication}
    {shard : Option ScanShard} (h : s.step settings (.dropEvent p now) = some s')
    (hp : s.publications[p]? = some pub) (hphase : pub.phase = .looked shard) :
    ∀ l, shard = some l → l.status ≠ .leased := by
  simp only [State.step] at h
  obtain ⟨pub', hp', h⟩ := Option.bind_eq_some_iff.mp h
  rw [hp] at hp'
  cases hp'
  split at h
  · next e rest shard' hpending hphase' =>
    rw [hphase] at hphase'
    cases hphase'
    split at h
    · next hall =>
      rintro l rfl
      exact of_decide_eq_true hall
    · cases h
  · cases h

/-- A lookup answers with a copy of the event's shard, or with its row. -/
theorem lookupShard_answers {p : Nat} {copy : Option ScanShard}
    (h : s.step settings (.lookupShard p copy) = some s') :
    ∃ pub e rest, s.publications[p]? = some pub ∧ pub.pending = e :: rest ∧
      (∀ l, copy = some l → l.id = e.payload.shardId) ∧
      s' = { s with
        publications := s.publications.set p
          { pub with phase := .looked (copy.or (s.db.shards.get e.payload.shardId)) } } := by
  simp only [State.step] at h
  obtain ⟨pub, hp, h⟩ := Option.bind_eq_some_iff.mp h
  split at h
  · next e rest hpending hphase =>
    split at h
    · next hg =>
      cases h
      refine ⟨pub, e, rest, hp, hpending, ?_, rfl⟩
      rintro l rfl
      exact of_decide_eq_true hg.2
    · cases h
  · cases h

/-! ## Event rows -/

theorem OutboxEvent.legacy_congr {e e' : OutboxEvent} (hpayload : e'.payload = e.payload)
    (htopic : e'.topic = e.topic) : e'.legacy = e.legacy := by
  rw [OutboxEvent.legacy, OutboxEvent.legacy, hpayload, htopic]

theorem OutboxEvent.token_of_legacy {e : OutboxEvent} (h : e.legacy = true) :
    e.payload.leaseToken = none := by
  rw [OutboxEvent.legacy, Bool.and_eq_true] at h
  exact Option.isNone_iff_eq_none.mp h.2

/-- What a step does to an event row. -/
inductive EventMove (s : State) (a : Action) (e e' : OutboxEvent) : Prop
  | kept (hpayload : e'.payload = e.payload) (htopic : e'.topic = e.topic)
      (hdelivered : e'.deliveredAt = e.deliveredAt)
  | delivered (t : Uuid) (htoken : e.payload.leaseToken = some t)
      (hsent : (e.payload.shardId, t) ∈ s.sent) (hpayload : e'.payload = e.payload)
  | dropped (pub : Publication) (c : OutboxEvent) (rest : List OutboxEvent)
      (shard : Option ScanShard) (hpub : pub ∈ s.publications) (hpending : pub.pending = c :: rest)
      (hphase : pub.phase = .looked shard) (hid : c.id = e.id)
      (hunleased : ∀ l, shard = some l → l.status ≠ .leased) (hlegacy : e.legacy = true)
      (hpayload : e'.payload = e.payload) (hdelivered : e'.deliveredAt ≠ none)
  | bound (p : Nat) (t : Uuid) (pub : Publication) (c : OutboxEvent) (rest : List OutboxEvent)
      (hact : a = .bindToken p t) (hp : s.publications[p]? = some pub)
      (hpending : pub.pending = c :: rest) (hid : c.id = e.id) (hlegacy : e.legacy = true)
      (hpayload : e'.payload = ⟨e.payload.shardId, some t⟩) (hdelivered : e'.deliveredAt = none)

/-- A flush of one event, seen from any other and from its own row. -/
theorem get_flushEvent_cases {c assigned : OutboxEvent} {k : Uuid} {e : OutboxEvent}
    (he : s.db.outbox.get k = some e) :
    ∃ e', (s.db.flushEvent c assigned).outbox.get k = some e' ∧
      (e' = e ∨ (c.id = k ∧ e' = OutboxEvent.writeBack c assigned e)) := by
  rw [Db.get_flushEvent, he, Option.map_some]
  by_cases hk : k = c.id
  · rw [if_pos hk]
    exact ⟨_, rfl, Or.inr ⟨hk.symm, rfl⟩⟩
  · rw [if_neg hk]
    exact ⟨e, rfl, Or.inl rfl⟩

/-- A token that is bound to an event without one. -/
theorem payload_bound {c e : OutboxEvent} (hshard : e.payload.shardId = c.payload.shardId)
    (htoken : ∀ t, c.payload.leaseToken = some t → e.payload.leaseToken = some t)
    (hnone : e.payload.leaseToken = none) (token : Uuid) :
    (OutboxEvent.writeBack c (c.bound token) e).payload = ⟨e.payload.shardId, some token⟩ := by
  have hcopy : c.payload.leaseToken = none := by
    refine Option.eq_none_iff_forall_ne_some.mpr fun t ht => ?_
    rw [htoken t ht] at hnone
    cases hnone
  have hne : (c.bound token).payload ≠ c.payload := by
    intro heq
    have htokens := congrArg Payload.leaseToken heq
    rw [hcopy] at htokens
    cases htokens
  show Relational.writeBack c.payload (c.bound token).payload e.payload = _
  rw [writeBack_of_ne hne, hshard]
  rfl

theorem event_move (hf : ∀ pub ∈ s.publications, s.Follows pub) (hC : s.upgrades a = true)
    (h : s.step settings a = some s') {k : Uuid} {e : OutboxEvent}
    (he : s.db.outbox.get k = some e) :
    ∃ e', s'.db.outbox.get k = some e' ∧ EventMove s a e e' := by
  have hkey : e.id = k := Table.get_key he
  have hsame : EventMove s a e e := .kept rfl rfl rfl
  cases a with
  | lease p tokens eventIds now =>
    obtain ⟨_, _, -, -, -, -, -, hdb, rfl⟩ := step_lease h
    obtain ⟨houtbox, -, -⟩ := Db.leaseShards_eq_some hdb
    exact ⟨e, Table.get_append?_of_get houtbox he, hsame⟩
  | dropEvent p now =>
    obtain ⟨pub, c, rest, shard, hp, hpending, hphase, rfl⟩ := step_dropEvent h
    obtain ⟨e', he', rfl | ⟨hid, rfl⟩⟩ := get_flushEvent_cases (c := c) he
    · exact ⟨e', he', hsame⟩
    · have hev : s.db.outbox.get c.id = some e := hid ▸ he
      obtain ⟨hlegacy, hnone⟩ := unhandled_event hC hp hpending hev
      have hpublication := List.mem_of_getElem? hp
      have hcopy := (hf pub hpublication).pending c (hpending ▸ List.mem_cons_self)
      refine ⟨_, he', .dropped pub c rest shard hpublication hpending hphase
        (hid.trans hkey.symm) (dropEvent_unleased h hp hphase) hlegacy
        (OutboxEvent.payload_writeBack rfl e) ?_⟩
      show Relational.writeBack c.deliveredAt (some now) e.deliveredAt ≠ none
      rw [hcopy, writeBack_of_ne (Option.some_ne_none now)]
      exact Option.some_ne_none now
  | bindToken p token =>
    obtain ⟨pub, c, rest, l, hp, hpending, hphase, -, -, rfl⟩ := step_bindToken h
    obtain ⟨e', he', rfl | ⟨hid, rfl⟩⟩ := get_flushEvent_cases
      (s := { s with db := s.db.flushShards [l] fun shard =>
        { shard with leaseToken := some token } }) (c := c) he
    · exact ⟨e', he', hsame⟩
    · have hev : s.db.outbox.get c.id = some e := hid ▸ he
      obtain ⟨hlegacy, hnone⟩ := unhandled_event hC hp hpending hev
      obtain ⟨e'', he'', hshard, htoken⟩ :=
        (hf pub (List.mem_of_getElem? hp)).loaded c (hpending ▸ List.mem_cons_self)
      rw [hev] at he''
      cases he''
      have hpayload := payload_bound hshard htoken (OutboxEvent.token_of_legacy hlegacy) token
      exact ⟨_, he', .bound p token pub c rest rfl hp hpending (hid.trans hkey.symm) hlegacy
        hpayload ((OutboxEvent.deliveredAt_writeBack rfl e).trans hnone)⟩
  | settleEvent p now =>
    obtain ⟨pub, c, rest, hp, hpending, ⟨hphase, rfl⟩ | ⟨error, hphase, rfl⟩⟩ :=
      step_settleEvent h
    · obtain ⟨e', he', rfl | ⟨hid, rfl⟩⟩ := get_flushEvent_cases (c := c) he
      · exact ⟨e', he', hsame⟩
      · have hfollows := hf pub (List.mem_of_getElem? hp)
        obtain ⟨t, ht, hsent⟩ := hfollows.handed hphase c rest hpending
        obtain ⟨e'', he'', hshard, htoken⟩ := hfollows.loaded c (hpending ▸ List.mem_cons_self)
        rw [hid, he] at he''
        cases he''
        exact ⟨_, he', .delivered t (htoken t ht) (hshard ▸ hsent)
          (OutboxEvent.payload_writeBack rfl e)⟩
    · obtain ⟨e', he', rfl | ⟨-, rfl⟩⟩ := get_flushEvent_cases (c := c) he
      · exact ⟨e', he', hsame⟩
      · exact ⟨_, he', .kept (OutboxEvent.payload_writeBack rfl e) rfl
          (OutboxEvent.deliveredAt_writeBack rfl e)⟩
  | _ => exact ⟨e, by rw [outbox_frame h rfl, he], hsame⟩

/-- An event that was not there is the undelivered intent of a lease. -/
theorem event_fresh (h : s.step settings a = some s') {k : Uuid} {e : OutboxEvent}
    (hnone : s.db.outbox.get k = none) (he : s'.db.outbox.get k = some e) :
    (∃ t, e.payload.leaseToken = some t) ∧ e.deliveredAt = none := by
  have hmap : ∀ {f}, s'.db.outbox.get k = (s.db.outbox.get k).map f →
      (∃ t, e.payload.leaseToken = some t) ∧ e.deliveredAt = none := by
    intro f hf
    rw [hf, hnone] at he
    cases he
  cases a with
  | lease p tokens eventIds now =>
    obtain ⟨_, _, -, -, -, -, -, hdb, rfl⟩ := step_lease h
    obtain ⟨houtbox, -, -⟩ := Db.leaseShards_eq_some hdb
    rcases Table.get_append? houtbox he with hold | ⟨hnew, -⟩
    · rw [hnone] at hold
      cases hold
    · obtain ⟨i, hi⟩ := List.mem_iff_getElem?.mp hnew
      obtain ⟨⟨shardId, token⟩, id, -, -, rfl⟩ := List.getElem?_zipWith_eq_some.mp hi
      exact ⟨⟨token, rfl⟩, rfl⟩
  | dropEvent =>
    obtain ⟨_, _, _, _, -, -, -, rfl⟩ := step_dropEvent h
    exact hmap (Db.get_flushEvent s.db _ _ k)
  | bindToken =>
    obtain ⟨_, _, _, _, -, -, -, -, -, rfl⟩ := step_bindToken h
    exact hmap (Db.get_flushEvent _ _ _ k)
  | settleEvent =>
    obtain ⟨_, _, _, -, -, ⟨-, rfl⟩ | ⟨_, -, rfl⟩⟩ := step_settleEvent h
    · exact hmap (Db.get_flushEvent s.db _ _ k)
    · exact hmap (Db.get_flushEvent s.db _ _ k)
  | _ =>
    rw [outbox_frame h rfl, hnone] at he
    cases he

/-- What a pass has bound is in the outbox with its token. -/
theorem bindToken_binds {p : Nat} {token : Uuid} {pub : Publication} {c : OutboxEvent}
    {rest : List OutboxEvent} (hf : s.Follows pub) (hC : s.upgrades (.bindToken p token) = true)
    (h : s.step settings (.bindToken p token) = some s') (hp : s.publications[p]? = some pub)
    (hpending : pub.pending = c :: rest) :
    ∃ e, s'.db.outbox.get c.id = some e ∧ e.payload = ⟨c.payload.shardId, some token⟩ := by
  obtain ⟨pub', c', rest', l, hp', hpending', -, -, -, rfl⟩ := step_bindToken h
  rw [hp] at hp'
  cases hp'
  rw [hpending] at hpending'
  cases hpending'
  obtain ⟨e, he, hshard, htoken⟩ := hf.loaded c (hpending ▸ List.mem_cons_self)
  obtain ⟨hlegacy, -⟩ := unhandled_event hC hp hpending he
  have hpayload := payload_bound hshard htoken (OutboxEvent.token_of_legacy hlegacy) token
  refine ⟨OutboxEvent.writeBack c (c.bound token) e, ?_, hshard ▸ hpayload⟩
  rw [Db.get_flushEvent]
  show (s.db.outbox.get c.id).map _ = _
  rw [he, Option.map_some, if_pos rfl]

/-! ## Leased rows -/

/-- The lease of the row has its intent in the outbox. -/
def State.Carries (s : State) (k : Uuid) (r : ScanShard) : Prop :=
  ∃ t, r.leaseToken = some t ∧ ∃ id e, s.db.outbox.get id = some e ∧ e.payload = ⟨k, some t⟩

/-- A leased row of a lease that commits stands beside its event. -/
theorem lease_carries {p : Nat} {tokens eventIds : List Uuid} {now : DateTime} {d : Dispatch}
    {r : ScanShard} {token : Uuid} (h : s.step settings (.lease p tokens eventIds now) = some s')
    (hd : s.dispatches[p]? = some d)
    (hlookup : (((s.db.dispatchableShards d.runId now d.capacity).map ScanShard.id).zip
      tokens).lookup r.id = some token) :
    s'.Carries r.id (Db.leaseShard settings now token r) := by
  obtain ⟨d', db, hd', -, hlen, -, -, hdb, rfl⟩ := step_lease h
  rw [hd] at hd'
  cases hd'
  obtain ⟨houtbox, -, -⟩ := Db.leaseShards_eq_some hdb
  -- the event of the pair stands at the pair's place in the list
  obtain ⟨i, hpair⟩ := List.mem_iff_getElem?.mp (mem_of_lookup_eq_some hlookup)
  have hlt : i < eventIds.length := by
    have hlt := (List.getElem?_eq_some_iff.mp hpair).1
    rw [List.length_zip, List.length_map] at hlt
    omega
  have hevent : Db.leaseEvent now r.id token eventIds[i] ∈ db.outbox.rows := by
    rw [Table.rows_append? houtbox]
    refine List.mem_append_right _ (List.mem_iff_getElem?.mpr ⟨i, ?_⟩)
    rw [List.getElem?_zipWith, hpair, List.getElem?_eq_getElem hlt]
  exact ⟨token, rfl, eventIds[i], _, Table.get_of_mem hevent, rfl⟩

/-- What a pass writes to the shard it has looked up, and to no other. -/
theorem bindToken_row {p : Nat} {token : Uuid} {pub : Publication} {c : OutboxEvent}
    {rest : List OutboxEvent} (hf : s.Follows pub)
    (hissued : ∀ l, pub.phase = .looked (some l) → ∀ t, l.leaseToken = some t → t ∈ s.issued)
    (h : s.step settings (.bindToken p token) = some s') (hp : s.publications[p]? = some pub)
    (hpending : pub.pending = c :: rest) {k : Uuid} {r r' : ScanShard}
    (hr : s.db.shards.get k = some r) (hr' : s'.db.shards.get k = some r') :
    (c.payload.shardId = k ∧ r'.leaseToken = some token) ∨ (c.payload.shardId ≠ k ∧ r' = r) := by
  obtain ⟨pub', c', rest', l, hp', hpending', hphase, -, hfresh, rfl⟩ := step_bindToken h
  rw [hp] at hp'
  cases hp'
  rw [hpending] at hpending'
  cases hpending'
  have hid : l.id = c.payload.shardId := hf.looked l hphase c rest hpending
  by_cases hk : c.payload.shardId = k
  · left
    rw [← hk, ← hid] at hr hr'
    obtain ⟨l', hl', -, hget⟩ := Db.get_flushShards_of_mem
      (fun shard => { shard with leaseToken := some token }) hr (List.mem_singleton_self l)
    cases List.mem_singleton.mp hl'
    have hbound : _ = r' := Option.some.inj (hget.symm.trans hr')
    refine ⟨hk, ?_⟩
    rw [← hbound, ScanShard.writeBack_bound]
    refine writeBack_of_ne (fun heq => hfresh ?_) _
    exact hissued l hphase token heq.symm
  · right
    obtain ⟨r'', hr'', rfl | ⟨l', hl', hlid, -⟩⟩ := Db.get_flushShards_cases [l]
      (fun shard => { shard with leaseToken := some token }) hr
    · exact ⟨hk, Option.some.inj (hr'.symm.trans hr'')⟩
    · cases List.mem_singleton.mp hl'
      exact absurd (hid.symm.trans (hlid.trans (Table.get_key hr))) hk

/-- A leased row after a step has its intent in the outbox, or is as it was. -/
theorem leased_kept (hc : Copies s) (hf : ∀ pub ∈ s.publications, s.Follows pub)
    (hissued : ∀ pub ∈ s.publications, ∀ l, pub.phase = .looked (some l) →
      ∀ t, l.leaseToken = some t → t ∈ s.issued)
    (hC : s.upgrades a = true) (h : s.step settings a = some s') {k : Uuid} {r' : ScanShard}
    (hr' : s'.db.shards.get k = some r') (hl : r'.status = .leased) :
    s'.Carries k r' ∨ (s.db.shards.get k = some r' ∧ ∀ p token pub c rest, a = .bindToken p token →
      s.publications[p]? = some pub → pub.pending = c :: rest → c.payload.shardId ≠ k) := by
  rcases shard_cases h hr' with ⟨r, hr, hcase⟩ | hnew
  · have hid : r.id = k := Table.get_key hr
    by_cases hbind : ∃ p token, a = .bindToken p token
    · obtain ⟨p, token, rfl⟩ := hbind
      obtain ⟨pub, c, rest, -, hp, hpending, -⟩ := step_bindToken h
      have hmem := List.mem_of_getElem? hp
      rcases bindToken_row (hf pub hmem) (hissued pub hmem) h hp hpending hr hr' with
        ⟨rfl, htoken⟩ | ⟨hne, rfl⟩
      · obtain ⟨e, he, hpayload⟩ := bindToken_binds (hf pub hmem) hC h hp hpending
        exact Or.inl ⟨token, htoken, c.id, e, he, hpayload⟩
      · refine Or.inr ⟨hr, fun p' token' pub' c' rest' ha hp' hpending' => ?_⟩
        cases ha
        rw [hp] at hp'
        cases hp'
        rw [hpending] at hpending'
        cases hpending'
        exact hne
    · have hkept : ∀ p token pub c rest, a = .bindToken p token → s.publications[p]? = some pub →
          pub.pending = c :: rest → c.payload.shardId ≠ k :=
        fun p token _ _ _ ha => absurd ⟨p, token, ha⟩ hbind
      rcases hcase with rfl | hstep
      · exact Or.inr ⟨hr, hkept⟩
      · cases hstep with
        | lease hd _ _ _ _ hlookup => exact Or.inl (hid ▸ lease_carries h hd hlookup)
        | bind => exact absurd ⟨_, _, rfl⟩ hbind
        | recover hp hl' _ =>
          rw [(ScanShard.writeBack_requeued (hc.stale _ (List.mem_of_getElem? hp) _ hl') r).1] at hl
          cases hl
        | cancel hp hl' _ =>
          rw [ScanShard.writeBack_cancelled (hc.selected _ (List.mem_of_getElem? hp) _ hl').1] at hl
          cases hl
        | claim => cases hl
        | beat _ hheld =>
          have hrunning := (ScanShard.held_iff.mp hheld).2.1
          rw [show r.status = .leased from hl] at hrunning
          cases hrunning
        | @finish _ _ _ o => cases o <;> cases hl
  · rw [hnew.blank] at hl
    cases hl

/-! ## Passes -/

/-- A pass after a step was there before it, does not look at a shard, or has just
looked one up. -/
theorem publication_cases (h : s.step settings a = some s') {q : Publication}
    (hq : q ∈ s'.publications) :
    q ∈ s.publications ∨ (∀ shard, q.phase ≠ .looked shard) ∨
      ∃ p copy c rest, a = .lookupShard p copy ∧ q.pending = c :: rest ∧
        (∀ l, copy = some l → l.id = c.payload.shardId) ∧
        q.phase = .looked (copy.or (s.db.shards.get c.payload.shardId)) := by
  have hset : ∀ {p : Nat} {pub : Publication}, s'.publications = s.publications.set p pub →
      q ∈ s.publications ∨ q = pub := by
    intro p pub heq
    rw [heq] at hq
    exact List.mem_or_eq_of_mem_set hq
  have hquiet : ∀ {p : Nat} {pub : Publication}, s'.publications = s.publications.set p pub →
      (∀ shard, pub.phase ≠ .looked shard) →
      q ∈ s.publications ∨ (∀ shard, q.phase ≠ .looked shard) ∨
        ∃ p copy c rest, a = .lookupShard p copy ∧ q.pending = c :: rest ∧
          (∀ l, copy = some l → l.id = c.payload.shardId) ∧
          q.phase = .looked (copy.or (s.db.shards.get c.payload.shardId)) := by
    intro p pub heq hphase
    rcases hset heq with hold | rfl
    · exact Or.inl hold
    · exact Or.inr (Or.inl hphase)
  rcases (step_effect h).publications with heq | hp
  · exact Or.inl (heq ▸ hq)
  cases a with
  | loadEvents limit =>
    cases step_loadEvents h
    rcases List.mem_append.mp hq with hq | hq
    · exact Or.inl hq
    · cases List.mem_singleton.mp hq
      exact Or.inr (Or.inl fun _ => nofun)
  | lookupShard p copy =>
    obtain ⟨pub, c, rest, hp, hpending, hid, rfl⟩ := lookupShard_answers h
    rcases hset rfl with hold | rfl
    · exact Or.inl hold
    · exact Or.inr (Or.inr ⟨p, copy, c, rest, rfl, hpending, hid, rfl⟩)
  | dropEvent =>
    obtain ⟨_, _, _, _, -, -, -, rfl⟩ := step_dropEvent h
    exact hquiet rfl fun _ => nofun
  | bindToken =>
    obtain ⟨_, _, _, _, -, -, -, -, -, rfl⟩ := step_bindToken h
    exact hquiet rfl fun _ => nofun
  | sendTask =>
    obtain ⟨_, _, _, -, -, -, ⟨_, -, -, rfl⟩ | ⟨_, -, rfl⟩⟩ := step_sendTask h
    · exact hquiet rfl fun _ => nofun
    · exact hquiet rfl fun _ => nofun
  | settleEvent =>
    obtain ⟨_, _, _, -, -, ⟨-, rfl⟩ | ⟨_, -, rfl⟩⟩ := step_settleEvent h
    · exact hquiet rfl fun _ => nofun
    · exact hquiet rfl fun _ => nofun
  | _ => cases hp

theorem EventMove.shardId {e e' : OutboxEvent} (h : EventMove s a e e') :
    e'.payload.shardId = e.payload.shardId := by
  cases h with
  | kept hpayload => rw [hpayload]
  | delivered _ _ _ hpayload => rw [hpayload]
  | dropped _ _ _ _ _ _ _ _ _ _ hpayload => rw [hpayload]
  | bound _ _ _ _ _ _ _ _ _ _ hpayload => rw [hpayload]

/-- A token that an event has stays. -/
theorem EventMove.token {e e' : OutboxEvent} (h : EventMove s a e e') {t : Uuid}
    (ht : e.payload.leaseToken = some t) : e'.payload.leaseToken = some t := by
  cases h with
  | kept hpayload => rw [hpayload, ht]
  | delivered _ _ _ hpayload => rw [hpayload, ht]
  | dropped _ _ _ _ _ _ _ _ _ _ hpayload => rw [hpayload, ht]
  | bound _ _ _ _ _ _ _ _ _ hlegacy =>
    rw [OutboxEvent.token_of_legacy hlegacy] at ht
    cases ht

theorem follows_kept (hf : ∀ pub ∈ s.publications, s.Follows pub) (hC : s.upgrades a = true)
    (h : s.step settings a = some s') {pub : Publication} (hpub : s.Follows pub) :
    s'.Follows pub where
  loaded := by
    intro c hc
    obtain ⟨e, he, hshard, htoken⟩ := hpub.loaded c hc
    obtain ⟨e', he', hmove⟩ := event_move hf hC h he
    exact ⟨e', he', hmove.shardId.trans hshard, fun t ht => hmove.token (htoken t ht)⟩
  pending := hpub.pending
  looked := hpub.looked
  handed := fun hphase c rest hc => by
    obtain ⟨t, ht, hsent⟩ := hpub.handed hphase c rest hc
    exact ⟨t, ht, sent_mono h hsent⟩

/-- A pass that neither looks at a shard nor has sent only has to be loaded. -/
theorem State.Follows.unsent {pub : Publication}
    (hloaded : ∀ c ∈ pub.pending, ∃ e, s.db.outbox.get c.id = some e ∧
      e.payload.shardId = c.payload.shardId ∧
        ∀ t, c.payload.leaseToken = some t → e.payload.leaseToken = some t)
    (hpending : ∀ c ∈ pub.pending, c.deliveredAt = none)
    (hlooked : ∀ shard, pub.phase ≠ .looked shard) (hsent : pub.phase ≠ .sent) :
    s.Follows pub where
  loaded := hloaded
  pending := hpending
  looked := fun l hphase => absurd hphase (hlooked (some l))
  handed := fun hphase => absurd hphase hsent

theorem follows_step (hf : ∀ pub ∈ s.publications, s.Follows pub) (hC : s.upgrades a = true)
    (h : s.step settings a = some s') : ∀ pub ∈ s'.publications, s'.Follows pub := by
  have hold : ∀ pub ∈ s.publications, s'.Follows pub :=
    fun pub hp => follows_kept hf hC h (hf pub hp)
  have hset : ∀ {p : Nat} {pub : Publication}, s'.publications = s.publications.set p pub →
      s'.Follows pub → ∀ q ∈ s'.publications, s'.Follows q := by
    intro p pub heq hnew q hq
    rw [heq] at hq
    rcases List.mem_or_eq_of_mem_set hq with hq | rfl
    · exact hold q hq
    · exact hnew
  -- a pass that goes on with the rest of its events
  have hrest : ∀ {p : Nat} {pub : Publication} {c : OutboxEvent} {rest : List OutboxEvent},
      s.publications[p]? = some pub → pub.pending = c :: rest →
      s'.Follows { pending := rest, phase := .next } := by
    intro p pub c rest hp hpending
    have hpub := hold pub (List.mem_of_getElem? hp)
    exact .unsent (fun x hx => hpub.loaded x (hpending ▸ List.mem_cons_of_mem _ hx))
      (fun x hx => hpub.pending x (hpending ▸ List.mem_cons_of_mem _ hx)) (fun _ => nofun) nofun
  rcases (step_effect h).publications with heq | hp
  · rw [heq]
    exact hold
  cases a with
  | loadEvents limit =>
    cases step_loadEvents h
    intro q hq
    rcases List.mem_append.mp hq with hq | hq
    · exact hold q hq
    · cases List.mem_singleton.mp hq
      refine .unsent (fun c hc => ?_) (fun c hc => ?_) (fun _ => nofun) nofun
      · exact ⟨c, Table.get_of_mem (Db.mem_outbox_of_pending hc), rfl, fun _ ht => ht⟩
      · exact Db.deliveredAt_of_pending hc
  | lookupShard p copy =>
    obtain ⟨pub, c, rest, hp, hpending, hid, rfl⟩ := lookupShard_answers h
    have hpub := hold pub (List.mem_of_getElem? hp)
    refine hset rfl ⟨hpub.loaded, hpub.pending, fun l hphase c' rest' hpending' => ?_, nofun⟩
    rw [hpending] at hpending'
    cases hpending'
    have hlooked := PublishPhase.looked.inj hphase
    cases copy with
    | none => exact Table.get_key hlooked
    | some _ =>
      cases hlooked
      exact hid l rfl
  | dropEvent =>
    obtain ⟨_, _, _, _, hp, hpending, -, rfl⟩ := step_dropEvent h
    exact hset rfl (hrest hp hpending)
  | bindToken p token =>
    obtain ⟨pub, c, rest, l, hp, hpending, -, -, -, hs'⟩ := step_bindToken h
    have hmem := List.mem_of_getElem? hp
    have hpub := hold pub hmem
    obtain ⟨e, he, hpayload⟩ := bindToken_binds (hf pub hmem) hC h hp hpending
    have heq : s'.publications = s.publications.set p { pending := c.bound token :: rest } := by
      rw [hs']
    refine hset heq (.unsent (fun x hx => ?_) (fun x hx => ?_) (fun _ => nofun) nofun)
    · rcases List.mem_cons.mp hx with rfl | hx
      · refine ⟨e, he, by rw [hpayload]; rfl, fun t ht => ?_⟩
        cases ht
        rw [hpayload]
      · exact hpub.loaded x (hpending ▸ List.mem_cons_of_mem _ hx)
    · rcases List.mem_cons.mp hx with rfl | hx
      · exact hpub.pending c (hpending ▸ List.mem_cons_self)
      · exact hpub.pending x (hpending ▸ List.mem_cons_of_mem _ hx)
  | sendTask p error =>
    obtain ⟨pub, c, rest, hp, hpending, -, ⟨token, -, htoken, rfl⟩ | ⟨message, -, rfl⟩⟩ :=
      step_sendTask h
    · have hpub := hold pub (List.mem_of_getElem? hp)
      refine hset rfl ⟨hpub.loaded, hpub.pending, (fun _ => nofun), ?_⟩
      intro _ c' rest' hpending'
      rw [hpending] at hpending'
      cases hpending'
      exact ⟨token, htoken, List.mem_append_right _ (List.mem_singleton_self _)⟩
    · have hpub := hold pub (List.mem_of_getElem? hp)
      exact hset rfl (.unsent hpub.loaded hpub.pending (fun _ => nofun) nofun)
  | settleEvent =>
    obtain ⟨_, _, _, hp, hpending, ⟨-, rfl⟩ | ⟨_, -, rfl⟩⟩ := step_settleEvent h
    · exact hset rfl (hrest hp hpending)
    · exact hset rfl (hrest hp hpending)
  | _ => cases hp

end

/-! ## The invariant -/

/-- An undelivered event of the old system waits for the shard, and no pass has seen the
shard out of its lease. -/
def State.Awaits (s : State) (k : Uuid) : Prop :=
  ∃ id e, s.db.outbox.get id = some e ∧ e.legacy = true ∧ e.payload.shardId = k ∧
    e.deliveredAt = none ∧
      ∀ pub ∈ s.publications, ∀ c rest shard, pub.pending = c :: rest → c.id = id →
        pub.phase = .looked shard → ∃ l, shard = some l ∧ l.status = .leased

/-- The lease is one the old system has published. -/
def Db.Published (db : Db) (k : Uuid) (r : ScanShard) : Prop :=
  db.shards.get k = some r ∧ ∀ e ∈ db.outbox.rows, e.payload.shardId = k → e.deliveredAt ≠ none

/-- `db` is the database of the old system. -/
structure Carried (db : Db) (s : State) : Prop where
  copied : ∀ pub ∈ s.publications, ∀ l, pub.phase = .looked (some l) →
    ∀ t, l.leaseToken = some t → t ∈ s.issued
  follows : ∀ pub ∈ s.publications, s.Follows pub
  delivered : ∀ id e t, s.db.outbox.get id = some e → e.payload.leaseToken = some t →
    e.deliveredAt ≠ none → (e.payload.shardId, t) ∈ s.sent
  leased : ∀ k r, s.db.shards.get k = some r → r.status = .leased →
    s.Carries k r ∨ (r.leaseToken = none ∧ s.Awaits k) ∨ db.Published k r

section
variable {settings : Settings} {db : Db} {s s' : State} {a : Action}

theorem carried_start (hshards : ∀ r ∈ db.shards.rows, r.leaseToken = none)
    (hdb : ∀ e ∈ db.outbox.rows, e.legacy = true) : Carried db (State.start db) where
  copied := fun _ hp => absurd hp List.not_mem_nil
  follows := fun _ hp => absurd hp List.not_mem_nil
  delivered := fun _ e t he ht => by
    rw [OutboxEvent.token_of_legacy (hdb e (Table.get_mem he))] at ht
    cases ht
  leased := by
    intro k r hr hl
    by_cases hwait : ∃ e ∈ db.outbox.rows, e.payload.shardId = k ∧ e.deliveredAt = none
    · obtain ⟨e, he, hk, hnone⟩ := hwait
      exact Or.inr (Or.inl ⟨hshards r (Table.get_mem hr), e.id, e, Table.get_of_mem he, hdb e he,
        hk, hnone, fun _ hp => absurd hp List.not_mem_nil⟩)
    · exact Or.inr (Or.inr ⟨hr, fun e he hk hnone => hwait ⟨e, he, hk, hnone⟩⟩)

theorem carries_kept (hf : ∀ pub ∈ s.publications, s.Follows pub) (hC : s.upgrades a = true)
    (h : s.step settings a = some s') {k : Uuid} {r : ScanShard} (hr : s.Carries k r) :
    s'.Carries k r := by
  obtain ⟨t, ht, id, e, he, hpayload⟩ := hr
  obtain ⟨e', he', hmove⟩ := event_move hf hC h he
  have hshard : e'.payload.shardId = k := by rw [hmove.shardId, hpayload]
  have htoken : e'.payload.leaseToken = some t := hmove.token (by rw [hpayload])
  refine ⟨t, ht, id, e', he', ?_⟩
  rw [← hshard, ← htoken]

/-- A pass that looks the shard of a lease up finds the lease. -/
theorem awaits_kept (hf : ∀ pub ∈ s.publications, s.Follows pub) (hC : s.upgrades a = true)
    (hanswers : ∀ p copy, a = .lookupShard p copy → s.Answers copy)
    (h : s.step settings a = some s') {k : Uuid} {r : ScanShard} (hr : s.db.shards.get k = some r)
    (hl : r.status = .leased) (htoken : r.leaseToken = none)
    (hbind : ∀ p token pub c rest, a = .bindToken p token → s.publications[p]? = some pub →
      pub.pending = c :: rest → c.payload.shardId ≠ k) (hw : s.Awaits k) : s'.Awaits k := by
  obtain ⟨id, e, he, hlegacy, hk, hnone, hwatch⟩ := hw
  have hid : e.id = id := Table.get_key he
  obtain ⟨e', he', hmove⟩ := event_move hf hC h he
  have hwatch' : ∀ pub ∈ s'.publications, ∀ c rest shard, pub.pending = c :: rest → c.id = id →
      pub.phase = .looked shard → ∃ l, shard = some l ∧ l.status = .leased := by
    intro pub hpub c rest shard hpending hc hphase
    rcases publication_cases h hpub with hold | hquiet |
      ⟨p, copy, c', rest', ha, hpending', hcopy, hphase'⟩
    · exact hwatch pub hold c rest shard hpending hc hphase
    · exact absurd hphase (hquiet shard)
    · rw [hpending] at hpending'
      cases hpending'
      -- the event the pass holds is for the shard
      obtain ⟨e'', he'', hshard, -⟩ :=
        (follows_step hf hC h pub hpub).loaded c (hpending ▸ List.mem_cons_self)
      rw [hc, he'] at he''
      cases he''
      have hfor : c.payload.shardId = k := by rw [← hshard, hmove.shardId, hk]
      rw [hfor, hr, hphase] at hphase'
      have hlooked := PublishPhase.looked.inj hphase'
      cases copy with
      | none => exact ⟨r, hlooked, hl⟩
      | some l =>
        refine ⟨l, hlooked, (hanswers p _ ha).leased l rfl r ?_ hl htoken⟩
        rw [hcopy l rfl, hfor, hr]
  cases hmove with
  | kept hpayload htopic hdelivered =>
    exact ⟨id, e', he', (OutboxEvent.legacy_congr hpayload htopic).trans hlegacy,
      by rw [hpayload, hk], hdelivered.trans hnone, hwatch'⟩
  | delivered t htoken =>
    rw [OutboxEvent.token_of_legacy hlegacy] at htoken
    cases htoken
  | dropped pub c rest shard hpub hpending hphase hc hunleased =>
    obtain ⟨l, rfl, hleased⟩ := hwatch pub hpub c rest shard hpending (hc.trans hid) hphase
    exact absurd hleased (hunleased l rfl)
  | bound p t pub c rest hact hp hpending hc =>
    obtain ⟨e'', he'', hshard, -⟩ :=
      (hf pub (List.mem_of_getElem? hp)).loaded c (hpending ▸ List.mem_cons_self)
    rw [hc, hid, he] at he''
    cases he''
    exact absurd (hshard.symm.trans hk) (hbind p t pub c rest hact hp hpending)

theorem delivered_step (hi : Carried db s) (hC : s.upgrades a = true)
    (h : s.step settings a = some s') {id : Uuid} {e' : OutboxEvent} {t : Uuid}
    (he' : s'.db.outbox.get id = some e') (ht : e'.payload.leaseToken = some t)
    (hd : e'.deliveredAt ≠ none) : (e'.payload.shardId, t) ∈ s'.sent := by
  cases he : s.db.outbox.get id with
  | none => exact absurd (event_fresh h he he').2 hd
  | some e =>
    obtain ⟨e'', he'', hmove⟩ := event_move hi.follows hC h he
    rw [he'] at he''
    cases he''
    rw [hmove.shardId]
    cases hmove with
    | kept hpayload _ hdelivered =>
      exact sent_mono h (hi.delivered id e t he (hpayload ▸ ht) (hdelivered ▸ hd))
    | delivered t' htoken hsent hpayload =>
      rw [hpayload, htoken] at ht
      cases ht
      exact sent_mono h hsent
    | dropped _ _ _ _ _ _ _ _ _ hlegacy hpayload =>
      rw [hpayload, OutboxEvent.token_of_legacy hlegacy] at ht
      cases ht
    | bound _ _ _ _ _ _ _ _ _ _ _ hdelivered => exact absurd hdelivered hd

theorem carried_step (hc : Copies s) (hfence : Fenced s) (hi : Carried db s)
    (hC : s.upgrades a = true) (hanswers : ∀ p copy, a = .lookupShard p copy → s.Answers copy)
    (h : s.step settings a = some s') : Carried db s' where
  copied := by
    intro pub hpub l hphase t ht
    rcases publication_cases h hpub with hold | hquiet | ⟨p, copy, c, rest, ha, -, -, hphase'⟩
    · exact issued_mono h (hi.copied pub hold l hphase t ht)
    · exact absurd hphase (hquiet _)
    · rw [hphase] at hphase'
      have hlooked := PublishPhase.looked.inj hphase'
      cases copy with
      | none => exact issued_mono h (hfence.rows _ l t hlooked.symm ht)
      | some l' =>
        cases hlooked
        exact issued_mono h ((hanswers p _ ha).issued l rfl t ht)
  follows := follows_step hi.follows hC h
  delivered := fun _ _ _ he' ht hd => delivered_step hi hC h he' ht hd
  leased := by
    intro k r hr hl
    rcases leased_kept hc hi.follows hi.copied hC h hr hl with hcarries | ⟨hold, hbind⟩
    · exact Or.inl hcarries
    · rcases hi.leased k r hold hl with hcarries | ⟨htoken, hwait⟩ | hpublished
      · exact Or.inl (carries_kept hi.follows hC h hcarries)
      · exact Or.inr (Or.inl ⟨htoken,
          awaits_kept hi.follows hC hanswers h hold hl htoken hbind hwait⟩)
      · exact Or.inr (Or.inr hpublished)

end

/-! ## Runs -/

/-- The invariant of a run, with what the run has been through. -/
structure Upgrading (db : Db) (tr : List (Transition State Action)) (s : State) : Prop where
  copies : Copies s
  fenced : Fenced s
  carried : Carried db s
  issued : ∀ y ∈ tr, ∀ k r t, y.pre.db.shards.get k = some r → r.leaseToken = some t →
    t ∈ s.issued
  /-- A lease without a token has always been there as it is. -/
  untouched : ∀ k r, s.db.shards.get k = some r → r.status = .leased → r.leaseToken = none →
    ∀ y ∈ tr, y.pre.db.shards.get k = some r

section
variable {settings : Settings} {db : Db} {s s' : State} {a : Action}
  {tr : List (Transition State Action)}

/-- A copy whose columns were once the row's answers a lookup as it should. -/
theorem answers_remembered (hu : Upgrading db tr s) {p : Nat} {copy : Option ScanShard}
    (hremembers : Remembers (tr ++ [⟨s, .lookupShard p copy, s'⟩])) : s.Answers copy where
  issued := by
    rintro l rfl t ht
    obtain ⟨-, y, hy, row, hrow, htoken⟩ := hremembers tr _ [] p l rfl rfl
    rw [ht] at htoken
    rcases List.mem_append.mp hy with hy | hy
    · exact hu.issued y hy l.id row t hrow htoken
    · cases List.mem_singleton.mp hy
      exact hu.fenced.rows l.id row t hrow htoken
  leased := by
    rintro l rfl r hr hl hnone
    obtain ⟨⟨y, hy, row, hrow, hstatus⟩, -⟩ := hremembers tr _ [] p l rfl rfl
    rcases List.mem_append.mp hy with hy | hy
    · rw [hu.untouched l.id r hr hl hnone y hy] at hrow
      cases hrow
      exact hstatus.symm.trans hl
    · cases List.mem_singleton.mp hy
      have hsame : some r = some row := hr.symm.trans hrow
      cases hsame
      exact hstatus.symm.trans hl

theorem upgrading_step (hu : Upgrading db tr s) (hC : s.upgrades a = true)
    (hremembers : Remembers (tr ++ [⟨s, a, s'⟩])) (h : s.step settings a = some s') :
    Upgrading db (tr ++ [⟨s, a, s'⟩]) s' where
  copies := copies_step hu.copies h
  fenced := fenced_step hu.copies hu.fenced h
  carried := carried_step hu.copies hu.fenced hu.carried hC
    (fun _ _ ha => by subst ha; exact answers_remembered hu hremembers) h
  issued := by
    intro y hy k r t hr ht
    rcases List.mem_append.mp hy with hy | hy
    · exact issued_mono h (hu.issued y hy k r t hr ht)
    · cases List.mem_singleton.mp hy
      exact issued_mono h (hu.fenced.rows k r t hr ht)
  untouched := by
    intro k r hr hl hnone y hy
    have hold : s.db.shards.get k = some r := by
      rcases leased_kept hu.copies hu.carried.follows hu.carried.copied hC h hr hl with
        ⟨t, ht, -⟩ | ⟨hold, -⟩
      · rw [hnone] at ht
        cases ht
      · exact hold
    rcases List.mem_append.mp hy with hy | hy
    · exact hu.untouched k r hold hl hnone y hy
    · cases List.mem_singleton.mp hy
      exact hold

theorem upgrading_run (hshards : ∀ r ∈ db.shards.rows, r.leaseToken = none)
    (hevents : ∀ e ∈ db.outbox.rows, e.legacy = true) {t : State}
    (h : Run settings (State.start db) tr t) (hC : Along State.upgrades tr)
    (hremembers : Remembers tr) : Upgrading db tr t := by
  induction h with
  | nil =>
    exact ⟨copies_start db, fenced_start hshards, carried_start hshards hevents,
      fun _ hy => absurd hy List.not_mem_nil, fun _ _ _ _ _ _ hy => absurd hy List.not_mem_nil⟩
  | @snoc s u tr a hp hs ih =>
    have hlast : s.upgrades a = true :=
      hC ⟨s, a, u⟩ (List.mem_append_right tr (List.mem_singleton_self _))
    refine upgrading_step (ih (fun x hx => hC x (List.mem_append_left _ hx)) ?_) hlast
      hremembers hs
    intro l x r p shard htr hact
    exact hremembers l x (r ++ [⟨s, a, u⟩]) p shard (by rw [htr]; simp) hact

end

/-- No lease is stranded: its message is on the way or was, or its event waits for a
pass, or it is one whose event the old system has sent, which a recovery takes back once it
has expired. -/
structure UpgradeSafe (settings : Settings) (db : Db) (t : State) : Prop where
  leased : ∀ k r, t.db.shards.get k = some r → r.status = .leased →
    (∃ token, r.leaseToken = some token ∧ ∃ id e, t.db.outbox.get id = some e ∧
      e.payload = ⟨k, some token⟩ ∧
      ((e.deliveredAt = none ∧ ∀ limit, t.db.outbox.rows.length ≤ limit →
          e ∈ t.db.pendingEvents limit) ∨
        (k, token) ∈ t.sent)) ∨
    (∃ e, e.legacy = true ∧ e.payload.shardId = k ∧
      ∀ limit, t.db.outbox.rows.length ≤ limit → e ∈ t.db.pendingEvents limit) ∨
    (db.Published k r ∧ ∃ expiry, r.leaseExpiresAt = some expiry ∧ ∀ now, expiry < now →
      r ∈ Db.staleShards settings t.db now)

/-- From a database of the old system, over every run in which no two passes write one
of its events. -/
theorem upgrade_carries (settings : Settings) (db : Db)
    (hshards : ∀ r ∈ db.shards.rows, r.leaseToken = none)
    (hexpiry : ∀ r ∈ db.shards.rows, r.status = .leased → r.leaseExpiresAt.isSome = true)
    (hevents : ∀ e ∈ db.outbox.rows, e.legacy = true) (tr : List (Transition State Action))
    (t : State) (h : Run settings (State.start db) tr t) (hC : Along State.upgrades tr)
    (hremembers : Remembers tr) : UpgradeSafe settings db t := by
  have hi := (upgrading_run hshards hevents h hC hremembers).carried
  constructor
  intro k r hr hl
  rcases hi.leased k r hr hl with ⟨token, ht, id, e, he, hpayload⟩ | ⟨-, hwait⟩ | hpublished
  · refine Or.inl ⟨token, ht, id, e, he, hpayload, ?_⟩
    by_cases hd : e.deliveredAt = none
    · exact Or.inl ⟨hd, fun _ hlimit => (Db.mem_pendingEvents hlimit).mpr ⟨Table.get_mem he, hd⟩⟩
    · have hsent := hi.delivered id e token he (by rw [hpayload]) hd
      rw [hpayload] at hsent
      exact Or.inr hsent
  · obtain ⟨id, e, he, hlegacy, hk, hnone, -⟩ := hwait
    exact Or.inr (Or.inl ⟨e, hlegacy, hk,
      fun _ hlimit => (Db.mem_pendingEvents hlimit).mpr ⟨Table.get_mem he, hnone⟩⟩)
  · obtain ⟨expiry, hsome⟩ :=
      Option.isSome_iff_exists.mp (hexpiry r (Table.get_mem hpublished.1) hl)
    refine Or.inr (Or.inr ⟨hpublished, expiry, hsome, fun now hlt => ?_⟩)
    refine Table.mem_select.mpr ⟨Table.get_mem hr, ?_⟩
    rw [Bool.or_eq_true, Bool.and_eq_true, decide_eq_true_eq]
    exact Or.inl ⟨hl, isBefore_iff.mpr ⟨expiry, hsome, hlt⟩⟩

namespace Demo

/-- The old system has leased two shards and published the second. -/
def unfenced : Db where
  shards :=
    { rows :=
        [{ id := "s1", runId := "run", cidr := "10.0.0.0/24", zone := "default",
           status := .leased, leaseExpiresAt := some 60 },
          { id := "s2", runId := "run", cidr := "10.0.1.0/24", zone := "default",
            status := .leased, leaseExpiresAt := some 60 }]
      nodup := by decide }
  outbox :=
    { rows :=
        [{ id := "e1", topic := "scan_shard", payload := ⟨"s1", none⟩, createdAt := 0 },
          { id := "e2", topic := "scan_shard", payload := ⟨"s2", none⟩, createdAt := 0,
            deliveredAt := some 1 }]
      nodup := by decide }

/-- A pass binds a token and stops; the next one sends the message. -/
def handover : List Action :=
  [.loadEvents 100, .lookupShard 0 none, .bindToken 0 "t1", .loadEvents 100, .sendTask 1 none]

/-- Two passes bind tokens to one event.  The first marks the event delivered, and the
second stops. -/
def contention : List Action :=
  [.loadEvents 100, .loadEvents 100, .lookupShard 0 none, .lookupShard 1 none, .bindToken 0 "t1",
    .bindToken 1 "t2", .sendTask 0 none, .settleEvent 0 2]

end Demo

theorem upgrade_carries_handover :
    ∃ tr t, Run {} (State.start Demo.unfenced) tr t ∧ UpgradeSafe {} Demo.unfenced t ∧
      t.sent = [("s1", "t1")] ∧
      t.db.shards.rows.map ScanShard.leaseToken = [some "t1", none] ∧
      t.db.outbox.rows.map (fun e => e.payload.leaseToken) = [some "t1", none] := by
  have hrun : (runWhile (State.step {}) State.upgrades (State.start Demo.unfenced)
      Demo.handover).map (fun t => (t.sent, t.db.shards.rows.map ScanShard.leaseToken,
        t.db.outbox.rows.map fun e => e.payload.leaseToken)) =
      some ([("s1", "t1")], [some "t1", none], [some "t1", none]) := by
    decide +kernel
  obtain ⟨t, ht, hobs⟩ := Option.map_eq_some_iff.mp hrun
  obtain ⟨tr, hp, halong, hacts⟩ := Path.of_runWhile ht
  obtain ⟨hsent, hrest⟩ := Prod.mk.inj hobs
  obtain ⟨hshards, hevents⟩ := Prod.mk.inj hrest
  have hremembers : Remembers tr := by
    intro l x r p shard htr hact
    have hmem : x.act ∈ Demo.handover := by
      rw [← hacts, htr]
      simp
    rw [hact] at hmem
    simp [Demo.handover] at hmem
  exact ⟨tr, t, hp, upgrade_carries {} Demo.unfenced (by decide) (by decide) (by decide) tr t hp
    halong hremembers, hsent, hshards, hevents⟩

-- without the condition, the lease is under a token that nobody was sent
example : ((runAll (State.step {}) (State.start Demo.unfenced) Demo.contention).map fun t =>
      (t.sent, (t.db.shards.get "s1").map ScanShard.leaseToken,
        (t.db.outbox.get "e1").map OutboxEvent.deliveredAt)) =
    some ([("s1", "t1")], some (some "t2"), some (some 2)) := by
  decide +kernel

end TransportLookout
