/-
The concurrency budget of a run.

The budget is checked against a count taken before any row is locked, and two
dispatches that count before either commits may exceed it between them.  Nothing
else makes a count too low: claims, finishes, recoveries and cancellations only
make shards of a run inactive.  So a dispatch has the room it counted on unless
leases of its run were committed since, and the budget holds in every run in
which no dispatch is overtaken so.
-/
import TransportLookout.System.Dispatching
import TransportLookout.System.Tracking

namespace TransportLookout

open Relational Trace

def ScanShard.activeIn (runId : Uuid) (s : ScanShard) : Bool :=
  s.runId = runId && (s.status = .leased || s.status = .running)

theorem ScanShard.activeIn_iff {runId : Uuid} {r : ScanShard} :
    r.activeIn runId = true ↔ r.runId = runId ∧ r.status.inFlight = true := by
  rw [ScanShard.activeIn, Bool.and_eq_true, Bool.or_eq_true, decide_eq_true_eq, decide_eq_true_eq,
    decide_eq_true_eq, ShardStatus.inFlight_iff]

theorem Db.activeShards_eq (db : Db) (runId : Uuid) :
    db.activeShards runId = db.shards.count (ScanShard.activeIn runId) := rfl

/-- The profile whose budget a run has. -/
def Db.runProfile (db : Db) (runId : Uuid) : Option ScanProfile :=
  (db.runs.get runId).bind fun run => db.profiles.get run.profileId

def Db.WithinBudget (db : Db) : Prop :=
  ∀ runId profile, db.runProfile runId = some profile →
    db.activeShards runId ≤ profile.maxConcurrentShards

/-- The commit takes no more shards than a count made now would leave. -/
def Dispatching.roomLeft (s : Dispatching) : DispatchAction → Bool
  | .commit q _ _ => (s.selections[q]?).all fun sel =>
      (s.base.db.runProfile sel.runId).all fun profile =>
        sel.locked.length ≤ s.base.db.dispatchCapacity profile sel.runId
  | _ => true

/-- No leases of the run have been committed since the count. -/
def Dispatching.current (s : Dispatching) (sel : Selection) : Bool :=
  sel.runId ∉ s.committed.drop sel.counted

/-- Between the count of a dispatch and its own commit of leases no other
dispatch commits leases of the run. -/
def Dispatching.undisturbed (s : Dispatching) : DispatchAction → Bool
  | .commit q _ _ => (s.selections[q]?).all fun sel => sel.locked = [] || s.current sel
  | _ => true

/-! ## What makes a shard active -/

section
variable {settings : Settings} {s s' : State} {a : Action}

/-- Only a lease makes a row active. -/
theorem ShardStep.inFlight {r r' : ScanShard} (h : ShardStep settings s a r r')
    (ha : a.leases = false) (hflight : r'.status.inFlight = true) : r.status.inFlight = true := by
  have hwrite : ∀ {loaded assigned : ShardStatus}, assigned.inFlight = false →
      (Relational.writeBack loaded assigned r.status).inFlight = true →
        r.status.inFlight = true := by
    intro loaded assigned hidle h
    by_cases heq : assigned = loaded
    · rw [Relational.writeBack, if_pos heq] at h
      exact h
    · rw [writeBack_of_ne heq, hidle] at h
      cases h
  cases h with
  | lease => cases ha
  | bind =>
    rw [ScanShard.writeBack_bound] at hflight
    exact hflight
  | recover => exact hwrite rfl hflight
  | cancel => exact hwrite rfl hflight
  | claim _ hheld =>
    rw [(ScanShard.held_iff.mp hheld).2.1]
    rfl
  | beat => exact hflight
  | @finish _ _ _ o => cases o <;> cases hflight

theorem activeShards_step (h : s.step settings a = some s') (ha : a.leases = false)
    (runId : Uuid) : s'.db.activeShards runId ≤ s.db.activeShards runId := by
  rw [Db.activeShards_eq, Db.activeShards_eq]
  refine Table.count_le_count fun r' hr' hactive => ?_
  obtain ⟨hrun, hflight⟩ := ScanShard.activeIn_iff.mp hactive
  rcases shard_cases h (Table.get_of_mem hr') with ⟨r, hr, rfl | hstep⟩ | hnew
  · exact ⟨r', Table.get_mem hr, rfl, hactive⟩
  · refine ⟨r, Table.get_mem hr, Table.get_key hr, ScanShard.activeIn_iff.mpr ⟨?_, ?_⟩⟩
    · rw [← hrun, hstep.runId]
    · exact hstep.inFlight ha hflight
  · rw [hnew.blank] at hflight
    cases hflight

/-- A step keeps the profile of a run. -/
theorem runProfile_step (h : s.step settings a = some s') {run : ScanRun}
    (hrun : s.db.runs.get run.id = some run) :
    s'.db.runProfile run.id = s.db.runProfile run.id := by
  obtain ⟨run', hrun', hcase⟩ := run_step h hrun
  have hsame : run'.profileId = run.profileId := by
    rcases hcase with rfl | hstep
    · rfl
    · exact (Prod.mk.inj hstep.pair).2
  rw [Db.runProfile, hrun', Option.bind_some, (inventory_step h).2, hsame, Db.runProfile, hrun,
    Option.bind_some]

/-- A new run has no shards before the step that creates it. -/
theorem budget_step (hh : s.db.Housed) (hb : s.db.WithinBudget) (h : s.step settings a = some s')
    (ha : a.leases = false) : s'.db.WithinBudget := by
  intro runId profile hprofile
  refine Nat.le_trans (activeShards_step h ha runId) ?_
  cases hrun : s.db.runs.get runId with
  | some run =>
    cases show run.id = runId from Table.get_key hrun
    rw [runProfile_step h hrun] at hprofile
    exact hb run.id profile hprofile
  | none =>
    have hzero : s.db.activeShards runId = 0 := by
      refine Table.count_eq_zero.mpr fun r hr => Bool.eq_false_iff.mpr fun hactive => ?_
      have hhoused := hh r hr
      rw [(ScanShard.activeIn_iff.mp hactive).1, hrun] at hhoused
      cases hhoused
    rw [hzero]
    exact Nat.zero_le _

end

/-! ## The commit of leases -/

/-- A commit makes active what its dispatch has locked. -/
theorem activeShards_leased {settings : Settings} {db db' : Db} {now : DateTime} {runId : Uuid}
    {locked : List ScanShard} {tokens eventIds : List Uuid}
    (hcurrent : ∀ l ∈ locked, db.shards.get l.id = some l ∧ l.status = .queued ∧ l.runId = runId)
    (hnodup : (locked.map ScanShard.id).Nodup) (hlen : tokens.length = locked.length)
    (h : Db.leaseShards settings db now ((locked.map ScanShard.id).zip tokens) eventIds = some db')
    (k : Uuid) :
    db'.activeShards k = db.activeShards k + if k = runId then locked.length else 0 := by
  have hlength : (if k = runId then locked.length else 0) =
      (if k = runId then locked.map ScanShard.id else []).length := by
    split <;> simp
  rw [Db.activeShards_eq, Db.activeShards_eq, hlength]
  refine Table.count_eq_add ?_ ?_ ?_
  · split
    · exact hnodup
    · exact List.nodup_nil
  · -- locked rows are queued
    intro r hr hactive hin
    split at hin
    · obtain ⟨l, hl, hid⟩ := List.mem_map.mp hin
      obtain ⟨hrow, hstatus, -⟩ := hcurrent l hl
      rw [hid, show db.shards.get (Keyed.key r) = some r from Table.get_of_mem hr] at hrow
      cases hrow
      have hflight := (ScanShard.activeIn_iff.mp hactive).2
      rw [hstatus] at hflight
      cases hflight
    · cases hin
  · intro j
    constructor
    · rintro ⟨r', hr', hactive, hid⟩
      have hget' := Table.get_of_mem hr'
      rw [hid] at hget'
      obtain ⟨-, -, hget⟩ := Db.leaseShards_eq_some h
      obtain ⟨r, hr, -⟩ := Option.map_eq_some_iff.mp ((hget j).symm.trans hget')
      rcases Db.get_leaseShards hlen h hr with ⟨-, hsame⟩ | ⟨hin, token, hleased⟩
      · rw [hget'] at hsame
        cases hsame
        exact Or.inl ⟨r', Table.get_mem hr, hactive, hid⟩
      · right
        rw [hget'] at hleased
        cases hleased
        obtain ⟨l, hl, hlid⟩ := List.mem_map.mp hin
        obtain ⟨hrow, -, hrun⟩ := hcurrent l hl
        rw [hlid, hr] at hrow
        cases hrow
        rw [if_pos ((ScanShard.activeIn_iff.mp hactive).1.symm.trans hrun)]
        exact hin
    · rintro (⟨r, hr, hactive, hid⟩ | hin)
      · have hget := Table.get_of_mem hr
        rw [hid] at hget
        rcases Db.get_leaseShards hlen h hget with ⟨-, hsame⟩ | ⟨-, token, hleased⟩
        · exact ⟨r, Table.get_mem hsame, hactive, hid⟩
        · refine ⟨_, Table.get_mem hleased, ScanShard.activeIn_iff.mpr ⟨?_, rfl⟩, hid⟩
          exact (ScanShard.activeIn_iff.mp hactive).1
      · split at hin
        · next hk =>
          obtain ⟨l, hl, rfl⟩ := List.mem_map.mp hin
          obtain ⟨hrow, -, hrun⟩ := hcurrent l hl
          rcases Db.get_leaseShards hlen h hrow with ⟨hnot, -⟩ | ⟨-, token, hleased⟩
          · exact absurd hin hnot
          · refine ⟨_, Table.get_mem hleased, ScanShard.activeIn_iff.mpr ⟨?_, rfl⟩, rfl⟩
            exact hrun.trans hk.symm
        · cases hin

theorem runProfile_leased {settings : Settings} {db db' : Db} {now : DateTime}
    {leases : List (Uuid × Uuid)} {eventIds : List Uuid}
    (h : Db.leaseShards settings db now leases eventIds = some db') (k : Uuid) :
    db'.runProfile k = db.runProfile k := by
  obtain ⟨-, hframe, -⟩ := Db.leaseShards_eq_some h
  rw [hframe]
  rfl

/-! ## The history -/

structure Budgeted (s : Dispatching) : Prop where
  locked : Locked s
  housed : s.base.db.Housed
  copies : s.base.Tracks SamePair

/-- A dispatch that counted after `counted` commits has room for `n` shards of
the run, if no leases of the run were committed since. -/
def Dispatching.Room (s : Dispatching) (runId : Uuid) (n counted : Nat) : Prop :=
  counted ≤ s.committed.length ∧ (runId ∉ s.committed.drop counted →
    ∃ profile, s.base.db.runProfile runId = some profile ∧
      n ≤ s.base.db.dispatchCapacity profile runId)

/-- What every dispatch counted, and what every selection then took. -/
structure Counted (s : Dispatching) : Prop where
  length : s.counted.length = s.base.dispatches.length
  dispatches : ∀ (p : Nat) d n, s.base.dispatches[p]? = some d → s.counted[p]? = some n →
    s.Room d.runId d.capacity n
  selections : ∀ sel ∈ s.selections, sel.locked ≠ [] →
    s.Room sel.runId sel.locked.length sel.counted

section
variable {settings : Settings} {s s' : Dispatching} {a : DispatchAction}

theorem budgeted_start (scopes : Table InventoryScope) (profiles : Table ScanProfile) :
    Budgeted { base := State.initial scopes profiles } where
  locked := locked_start _
  housed := fun _ hr => absurd hr List.not_mem_nil
  copies := tracks_start SamePair _

theorem budgeted_step (hb : Budgeted s) (h : s.step settings a = some s') : Budgeted s' where
  locked := locked_step hb.locked h
  housed := by
    cases a with
    | other a => exact housed_step hb.housed (dispatching_other h).2.1
    | select p skipped now =>
      obtain ⟨_, -, rfl⟩ := dispatching_select h
      exact hb.housed
    | commit q tokens eventIds =>
      obtain ⟨_, db, -, -, hdb, rfl⟩ := dispatching_commit h
      intro r' hr'
      have hget' := Table.get_of_mem hr'
      obtain ⟨-, hframe, hget⟩ := Db.leaseShards_eq_some hdb
      rw [hget] at hget'
      obtain ⟨r, hr, rfl⟩ := Option.map_eq_some_iff.mp hget'
      rw [hframe]
      have hrun := hb.housed r (Table.get_mem hr)
      split
      · exact hrun
      · exact hrun
    | abort q =>
      obtain ⟨_, -, rfl⟩ := dispatching_abort h
      exact hb.housed
  copies := by
    cases a with
    | other a => exact tracks_step tracking_pair hb.copies (dispatching_other h).2.1
    | select p skipped now =>
      obtain ⟨_, -, rfl⟩ := dispatching_select h
      exact { hb.copies with }
    | commit q tokens eventIds =>
      obtain ⟨_, db, -, -, hdb, rfl⟩ := dispatching_commit h
      obtain ⟨-, hframe, -⟩ := Db.leaseShards_eq_some hdb
      have hkept : s.base.db.runs = db.runs := by rw [hframe]
      exact { hb.copies.of_db fun _ hcopy => hcopy.of_runs fun _ _ hr => hkept ▸ hr with }
    | abort q =>
      obtain ⟨_, -, rfl⟩ := dispatching_abort h
      exact hb.copies

/-- A step leaves a run with no more active shards, unless it commits leases of it. -/
theorem history_step (hb : Budgeted s) (h : s.step settings a = some s') :
    ∃ committed, s'.committed = s.committed ++ committed ∧ ∀ runId ∉ committed,
      s'.base.db.activeShards runId ≤ s.base.db.activeShards runId ∧
      ∀ run, s.base.db.runs.get runId = some run →
        s'.base.db.runProfile runId = s.base.db.runProfile runId := by
  cases a with
  | other a =>
    obtain ⟨hl, hstep, -, hs'⟩ := dispatching_other h
    refine ⟨[], by rw [hs', List.append_nil], fun runId _ => ⟨activeShards_step hstep hl runId, ?_⟩⟩
    intro run hrun
    cases show run.id = runId from Table.get_key hrun
    exact runProfile_step hstep hrun
  | select p skipped now =>
    obtain ⟨_, -, rfl⟩ := dispatching_select h
    exact ⟨[], (List.append_nil _).symm, fun _ _ => ⟨Nat.le_refl _, fun _ _ => rfl⟩⟩
  | abort q =>
    obtain ⟨_, -, rfl⟩ := dispatching_abort h
    exact ⟨[], (List.append_nil _).symm, fun _ _ => ⟨Nat.le_refl _, fun _ _ => rfl⟩⟩
  | commit q tokens eventIds =>
    obtain ⟨sel, db, hsel, hlen, hdb, rfl⟩ := dispatching_commit h
    have hmem : sel ∈ s.selections := List.mem_of_getElem? hsel
    refine ⟨sel.committed, rfl, fun runId hother => ⟨?_, fun _ _ => runProfile_leased hdb runId⟩⟩
    have hcount := activeShards_leased (hb.locked.current sel hmem) (hb.locked.nodup sel hmem)
      hlen hdb runId
    have hnone : (if runId = sel.runId then sel.locked.length else 0) = 0 := by
      rw [Selection.committed] at hother
      by_cases hempty : sel.locked = []
      · rw [hempty, List.length_nil, ite_self]
      · rw [if_neg hempty] at hother
        exact if_neg fun heq => hother (List.mem_singleton.mpr heq)
    rw [hnone] at hcount
    exact Nat.le_of_eq hcount

theorem room_step (hb : Budgeted s) (h : s.step settings a = some s') {runId : Uuid}
    {n counted : Nat} (hroom : s.Room runId n counted) : s'.Room runId n counted := by
  obtain ⟨committed, hhistory, hkept⟩ := history_step hb h
  obtain ⟨hle, hroom⟩ := hroom
  refine ⟨?_, fun hnone => ?_⟩
  · rw [hhistory, List.length_append]
    omega
  · rw [hhistory, List.drop_append_of_le_length hle, List.mem_append, not_or] at hnone
    obtain ⟨profile, hprofile, hn⟩ := hroom hnone.1
    obtain ⟨hactive, hsame⟩ := hkept runId hnone.2
    obtain ⟨run, hrun, -⟩ := Option.bind_eq_some_iff.mp hprofile
    refine ⟨profile, (hsame run hrun).trans hprofile, ?_⟩
    rw [Db.dispatchCapacity] at hn ⊢
    omega

theorem Dispatching.Room.mono {runId : Uuid} {n m counted : Nat} (h : s.Room runId n counted)
    (hle : m ≤ n) : s.Room runId m counted := by
  refine ⟨h.1, fun hnone => ?_⟩
  obtain ⟨profile, hprofile, hn⟩ := h.2 hnone
  exact ⟨profile, hprofile, Nat.le_trans hle hn⟩

/-- A count is right when it is made. -/
theorem room_counted (hb : Budgeted s) {runId : Uuid} {session : Session} {run : ScanRun}
    {profile : ScanProfile} (hrun : s.base.sessionRun runId session = some run)
    (hprofile : s.base.db.profiles.get run.profileId = some profile) :
    s.Room runId (s.base.db.dispatchCapacity profile runId) s.committed.length := by
  refine ⟨Nat.le_refl _, fun _ => ⟨profile, ?_, Nat.le_refl _⟩⟩
  obtain ⟨r, hr, hsame⟩ := sessionRun_profileId hb.copies hrun
  rw [Db.runProfile, hr, Option.bind_some, hsame, hprofile]

theorem counted_start (b : State) (h : b.dispatches = []) : Counted { base := b } where
  length := by rw [h, List.length_nil, List.length_nil]
  dispatches := fun _ _ _ hd => by rw [h] at hd; cases hd
  selections := fun _ hsel => absurd hsel List.not_mem_nil

/-- A step of the system makes no count, or one count for the dispatch it begins. -/
theorem counts_cases {a : Action} (h : s.step settings (.other a) = some s') :
    (s'.base.dispatches = s.base.dispatches ∧ s'.counted = s.counted) ∨
    ∃ runId session run profile, s.base.sessionRun runId session = some run ∧
      s.base.db.profiles.get run.profileId = some profile ∧
      s'.base.dispatches =
        s.base.dispatches ++ [⟨runId, s.base.db.dispatchCapacity profile runId⟩] ∧
      s'.counted = s.counted ++ [s.committed.length] := by
  obtain ⟨hl, hstep, -, hs'⟩ := dispatching_other h
  have hhistory : s'.counted = s.counted ++ if a.counts then [s.committed.length] else [] :=
    congrArg Dispatching.counted hs'
  cases hcounts : a.counts with
  | false =>
    rw [hcounts, if_neg Bool.false_ne_true, List.append_nil] at hhistory
    rcases (step_effect hstep).dispatches with hsame | ⟨_, _, _, rfl, -⟩ | ⟨_, _, _, _, rfl⟩
    · exact Or.inl ⟨hsame, hhistory⟩
    · cases hcounts
    · cases hl
  | true =>
    cases a with
    | countActive session runId =>
      obtain ⟨run, profile, hrun, -, hprofile, hbase⟩ := step_countActive hstep
      rw [hcounts, if_pos rfl] at hhistory
      have hnew := congrArg State.dispatches hbase
      exact Or.inr ⟨runId, session, run, profile, hrun, hprofile, hnew, hhistory⟩
    | _ => cases hcounts

/-- A selection took its rows for a dispatch that had counted. -/
theorem selections_step (hb : Budgeted s) (hc : Counted s) (h : s.step settings a = some s') :
    ∀ sel ∈ s'.selections, sel.locked ≠ [] →
      s'.Room sel.runId sel.locked.length sel.counted := by
  intro sel hsel hsome
  obtain ⟨i, hi⟩ := List.mem_iff_getElem?.mp hsel
  rcases selection_cases h hi with hold | hnone | ⟨p, skipped, now, d, rfl, hd, -, rfl⟩
  · exact room_step hb h (hc.selections sel (List.mem_of_getElem? hold) hsome)
  · exact absurd hnone hsome
  · have hlt : p < s.counted.length := by
      rw [hc.length]
      exact (List.getElem?_eq_some_iff.mp hd).1
    have hn : s.counted[p]? = some s.counted[p] := List.getElem?_eq_getElem hlt
    have hroom := room_step hb h (hc.dispatches p d _ hd hn)
    rw [hn, Option.getD_some]
    exact hroom.mono (List.length_take_le _ _)

/-- The dispatches after a step counted before it, except for one that counts in it. -/
theorem counted_step (hb : Budgeted s) (hc : Counted s) (h : s.step settings a = some s') :
    Counted s' := by
  have hselections := selections_step hb hc h
  have hroom : ∀ {runId n counted}, s.Room runId n counted → s'.Room runId n counted :=
    room_step hb h
  cases a with
  | select p skipped now =>
    obtain ⟨d, hd, rfl⟩ := dispatching_select h
    refine ⟨hc.length.trans (List.length_set ..).symm, fun j d' n hd' hn => ?_, hselections⟩
    by_cases hj : p = j
    · subst hj
      rw [List.getElem?_set_self (List.getElem?_eq_some_iff.mp hd).1] at hd'
      cases hd'
      exact (hroom (hc.dispatches p d n hd hn)).mono (Nat.zero_le _)
    · rw [List.getElem?_set_ne hj] at hd'
      exact hroom (hc.dispatches j d' n hd' hn)
  | commit q tokens eventIds =>
    obtain ⟨_, _, -, -, -, rfl⟩ := dispatching_commit h
    exact ⟨hc.length, fun p d n hd hn => hroom (hc.dispatches p d n hd hn), hselections⟩
  | abort q =>
    obtain ⟨_, -, rfl⟩ := dispatching_abort h
    exact ⟨hc.length, fun p d n hd hn => hroom (hc.dispatches p d n hd hn), hselections⟩
  | other a =>
    rcases counts_cases h with
      ⟨hsame, hhistory⟩ | ⟨runId, session, run, profile, hrun, hprofile, hnew, hhistory⟩
    · refine ⟨by rw [hhistory, hsame, hc.length], fun p d n hd hn => ?_, hselections⟩
      rw [hsame] at hd
      rw [hhistory] at hn
      exact hroom (hc.dispatches p d n hd hn)
    · have hlength : s'.counted.length = s'.base.dispatches.length := by
        rw [hhistory, hnew, List.length_append, List.length_append, hc.length]
        rfl
      refine ⟨hlength, fun p d n hd hn => ?_, hselections⟩
      rw [hnew] at hd
      rw [hhistory] at hn
      rcases Nat.lt_or_ge p s.base.dispatches.length with hlt | hge
      · rw [List.getElem?_append_left hlt] at hd
        rw [List.getElem?_append_left (hc.length.symm ▸ hlt)] at hn
        exact hroom (hc.dispatches p d n hd hn)
      · -- the one that counts now
        rw [List.getElem?_append_right hge] at hd
        rw [List.getElem?_append_right (hc.length.symm ▸ hge), hc.length] at hn
        have hzero : p - s.base.dispatches.length = 0 :=
          Nat.lt_one_iff.mp (List.getElem?_eq_some_iff.mp hd).1
        rw [hzero] at hd hn
        cases hd
        cases hn
        exact hroom (room_counted hb hrun hprofile)

/-- The budget survives a step exactly when a commit has the room it takes. -/
theorem within_step (hb : Budgeted s) (hw : s.base.db.WithinBudget)
    (h : s.step settings a = some s') : s'.base.db.WithinBudget ↔ s.roomLeft a = true := by
  cases a with
  | other a =>
    obtain ⟨hl, hstep, -, -⟩ := dispatching_other h
    exact iff_of_true (budget_step hb.housed hw hstep hl) rfl
  | select p skipped now =>
    obtain ⟨_, -, rfl⟩ := dispatching_select h
    exact iff_of_true hw rfl
  | abort q =>
    obtain ⟨_, -, rfl⟩ := dispatching_abort h
    exact iff_of_true hw rfl
  | commit q tokens eventIds =>
    obtain ⟨sel, db, hsel, hlen, hdb, rfl⟩ := dispatching_commit h
    have hmem : sel ∈ s.selections := List.mem_of_getElem? hsel
    have hcount := activeShards_leased (hb.locked.current sel hmem) (hb.locked.nodup sel hmem)
      hlen hdb
    simp only [Dispatching.roomLeft, hsel, Option.all_some]
    constructor
    · intro hafter
      cases hprofile : s.base.db.runProfile sel.runId with
      | none => rfl
      | some profile =>
        have hle := hafter sel.runId profile (by rw [runProfile_leased hdb, hprofile])
        rw [show db.activeShards sel.runId = _ from hcount sel.runId, if_pos rfl] at hle
        refine decide_eq_true ?_
        rw [Db.dispatchCapacity]
        omega
    · intro hroom runId profile hprofile
      rw [runProfile_leased hdb] at hprofile
      have hle := hw runId profile hprofile
      show db.activeShards runId ≤ _
      rw [hcount]
      by_cases hrun : runId = sel.runId
      · subst hrun
        rw [hprofile, Option.all_some] at hroom
        have hleft := of_decide_eq_true hroom
        rw [Db.dispatchCapacity] at hleft
        rw [if_pos rfl]
        omega
      · rw [if_neg hrun]
        exact hle

/-- A dispatch that is not overtaken has the room it counted on. -/
theorem roomLeft_of_undisturbed (hc : Counted s) (h : s.undisturbed a = true) :
    s.roomLeft a = true := by
  cases a with
  | commit q tokens eventIds =>
    simp only [Dispatching.undisturbed] at h
    simp only [Dispatching.roomLeft]
    cases hsel : s.selections[q]? with
    | none => rfl
    | some sel =>
      rw [hsel, Option.all_some, Bool.or_eq_true] at h
      rw [Option.all_some]
      by_cases hempty : sel.locked = []
      · simp only [hempty, List.length_nil, Nat.zero_le, decide_true]
        cases s.base.db.runProfile sel.runId with
        | none => rfl
        | some profile => rfl
      · have hcurrent : s.current sel = true := h.resolve_left fun hnone =>
          hempty (of_decide_eq_true hnone)
        obtain ⟨profile, hprofile, hn⟩ :=
          (hc.selections sel (List.mem_of_getElem? hsel) hempty).2 (of_decide_eq_true hcurrent)
        rw [hprofile, Option.all_some]
        exact decide_eq_true hn
  | _ => rfl

end

section
variable {settings : Settings} {scopes : Table InventoryScope} {profiles : Table ScanProfile}
  {tr : List (Transition Dispatching DispatchAction)} {t : Dispatching}

theorem budgeted_along
    (h : Path (Dispatching.step settings) { base := State.initial scopes profiles } tr t) :
    ∀ x ∈ tr, Budgeted x.pre ∧ Counted x.pre := fun _ hx =>
  (h.invariant_at (I := fun s => Budgeted s ∧ Counted s) (C := fun _ _ => true)
    ⟨budgeted_start scopes profiles, counted_start _ rfl⟩
    (fun _ _ _ hi _ hs => ⟨budgeted_step hi.1 hs, counted_step hi.1 hi.2 hs⟩)
    (fun _ _ => rfl) hx).1

/-- The budget holds in every state of a run exactly when every commit of leases
in it has room for them. -/
theorem within_iff_roomLeft
    (h : Path (Dispatching.step settings) { base := State.initial scopes profiles } tr t) :
    (∀ x ∈ tr, x.post.base.db.WithinBudget) ↔ Along Dispatching.roomLeft tr := by
  have hempty : (State.initial scopes profiles).db.WithinBudget := by
    intro runId profile hprofile
    cases hprofile
  exact h.posts_iff_along (I := fun s => s.base.db.WithinBudget) hempty
    fun x hx hw => within_step (budgeted_along h x hx).1 hw (h.step_of_mem hx)

end

/-- The budget holds in every state of a run in which no leases of a run are
committed between the count of another dispatch of it and that one's commit. -/
theorem within_budget (settings : Settings) (scopes : Table InventoryScope)
    (profiles : Table ScanProfile) (tr : List (Transition Dispatching DispatchAction))
    (t : Dispatching)
    (h : Path (Dispatching.step settings) { base := State.initial scopes profiles } tr t)
    (hundisturbed : Along Dispatching.undisturbed tr) :
    ∀ x ∈ tr, x.post.base.db.WithinBudget := by
  refine (within_iff_roomLeft h).mpr fun x hx => ?_
  exact roomLeft_of_undisturbed (budgeted_along h x hx).2 (hundisturbed x hx)

namespace Demo

def overlapping : List DispatchAction :=
  createRun.map .other ++ [.other (.countActive .fresh "run"), .other (.countActive .fresh "run")]

end Demo

/-- Two dispatches count before either has leased, and each leases the one shard
the profile allows. -/
theorem overlapping_dispatches_exceed :
    ¬ ∀ (settings : Settings) (scopes : Table InventoryScope) (profiles : Table ScanProfile)
      (tr : List (Transition Dispatching DispatchAction)) (t : Dispatching),
      Path (Dispatching.step settings) { base := State.initial scopes profiles } tr t →
        t.base.db.WithinBudget := by
  intro hall
  have hrun : (runAll (Dispatching.step {}) { base := Demo.start } (Demo.overlapping ++
      [.select 0 [] 0, .commit 0 ["t1"] ["e1"], .select 1 [] 0, .commit 1 ["t2"] ["e2"]])).map
        (fun t => ((t.base.db.runProfile "run").map ScanProfile.maxConcurrentShards,
          t.base.db.activeShards "run")) = some (some 1, 2) := by
    decide +kernel
  obtain ⟨tr, t, hp, hobs⟩ := Path.of_runAll_map hrun
  obtain ⟨hprofile, hactive⟩ := Prod.mk.inj hobs
  obtain ⟨profile, hget, hmax⟩ := Option.map_eq_some_iff.mp hprofile
  have hle := hall {} _ _ tr t hp "run" profile hget
  rw [hactive, hmax] at hle
  exact absurd hle (by decide)

/-- The second dispatch finds the one queued shard locked and leases nothing, and a
third counts after the lease of the first has been recovered. -/
theorem within_budget_skipped :
    ∃ tr t, Path (Dispatching.step {}) { base := Demo.start } tr t ∧
      (∀ x ∈ tr, x.post.base.db.WithinBudget) ∧ t.base.db.activeShards "run" = 1 := by
  have hrun : (runWhile (Dispatching.step {}) Dispatching.undisturbed { base := Demo.start }
      (Demo.overlapping ++ [.select 0 [] 0, .select 1 ["s2"] 0, .commit 0 ["t1"] ["e1"],
        .commit 1 [] [], .other (.loadStale (seconds 3601)), .other (.commitRecovery 0),
        .other (.countActive .fresh "run"), .select 2 [] (seconds 3601),
        .commit 2 ["t2"] ["e2"]])).map (fun t => t.base.db.activeShards "run") = some 1 := by
    decide +kernel
  obtain ⟨tr, t, hp, halong, hobs⟩ := Path.of_runWhile_map hrun
  exact ⟨tr, t, hp, within_budget {} _ _ tr t hp halong, hobs⟩

end TransportLookout
