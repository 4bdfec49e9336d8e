/-
Sharding as a partition.

`shard_cidr` cuts a scope into networks of one prefix length, or refuses to.  No
two of them share an address, and together they have the addresses of the scope.
`create_run` gives each a shard, and no step changes the network of a shard or of
the scope of a run, so an address of a scope is in one shard of each of its runs
at all times.
-/
import TransportLookout.Safety.Authorized

namespace TransportLookout

open Relational Trace
open Ipv4 (Network)

/-! ## Cutting a scope -/

/-- The network would be cut into more shards than a run may have. -/
def InventorySettings.Exceeded (policy : InventorySettings) (network : Network) : Prop :=
  network.prefixLength < policy.shardPrefix ∧
    policy.maxShardsPerRun < 2 ^ (policy.shardPrefix - network.prefixLength).toNat

instance (policy : InventorySettings) (network : Network) : Decidable (policy.Exceeded network) :=
  inferInstanceAs (Decidable (_ ∧ _))

/-- The texts are those of networks of one prefix length, which partition `network`. -/
structure Sharded (policy : InventorySettings) (network : Network) (cidrs : List String)
    (shards : List Network) : Prop where
  nonempty : cidrs ≠ []
  canonical : cidrs = shards.map Ipv4.format
  parsed : cidrs.map Ipv4.parse = shards.map some
  prefixLength : ∀ m ∈ shards, (m.prefixLength : Int) = max ↑network.prefixLength policy.shardPrefix
  partitions : Network.Partitions shards network

section
variable {policy : InventorySettings} {isIpv6 : String → Bool} {network : Network}

theorem Sharded.of_partitions {shards : List Network} (h : Network.Partitions shards network)
    (hlength : ∀ m ∈ shards,
      (m.prefixLength : Int) = max ↑network.prefixLength policy.shardPrefix) :
    Sharded policy network (shards.map Ipv4.format) shards where
  nonempty := fun hnil => h.ne_nil (List.map_eq_nil_iff.mp hnil)
  canonical := rfl
  parsed := by
    rw [List.map_map]
    exact List.map_congr_left fun m _ => Ipv4.parse_format m
  prefixLength := hlength
  partitions := h

/-- A network no longer than a shard is cut into all its subnets of that length. -/
theorem subnets_eq (hle : policy.shardPrefix ≤ 32)
    (hlt : network.prefixLength < policy.shardPrefix) :
    ∃ (h : network.prefixLength ≤ policy.shardPrefix.toNat) (h' : policy.shardPrefix.toNat ≤ 32),
      network.subnets policy.shardPrefix.toNat =
        some (List.ofFn (network.subnet policy.shardPrefix.toNat h h')) := by
  have h : network.prefixLength ≤ policy.shardPrefix.toNat := by omega
  have h' : policy.shardPrefix.toNat ≤ 32 := by omega
  refine ⟨h, h', ?_⟩
  rw [Network.subnets, if_neg (by omega), dif_pos ⟨h, h'⟩]

theorem shardCidr_cases (hle : policy.shardPrefix ≤ 32) {cidr : String}
    (h : parseApprovedCidr policy isIpv6 cidr = .ok network) :
    (policy.Exceeded network ∧
        shardCidr policy isIpv6 cidr = refuse 422 "run would create too many shards") ∨
      (¬ policy.Exceeded network ∧ ∃ cidrs shards,
        shardCidr policy isIpv6 cidr = .ok cidrs ∧ Sharded policy network cidrs shards) := by
  rw [shardCidr, h]
  dsimp only
  split
  · next hge =>
    refine Or.inr ⟨fun hexceeded => absurd hexceeded.1 (Int.not_lt.mpr hge), _, [network], rfl, ?_⟩
    refine Sharded.of_partitions (Network.partitions_self network) fun m hm => ?_
    rw [List.mem_singleton.mp hm, max_eq_left hge]
  · next hlt =>
    rw [Int.not_le] at hlt
    obtain ⟨hlonger, hbound, hsubnets⟩ := subnets_eq hle hlt
    have hcount : (List.ofFn (network.subnet policy.shardPrefix.toNat hlonger hbound)).length =
        2 ^ (policy.shardPrefix - network.prefixLength).toNat := by
      rw [List.length_ofFn, Network.cuts]
      congr 1
      omega
    rw [hsubnets]
    dsimp only
    rw [hcount, Nat.cast_pow, Nat.cast_ofNat]
    split
    · next hmany => exact Or.inl ⟨⟨hlt, hmany⟩, rfl⟩
    · next hfew =>
      refine Or.inr ⟨fun hexceeded => hfew hexceeded.2, _,
        List.ofFn (network.subnet policy.shardPrefix.toNat hlonger hbound), rfl, ?_⟩
      refine Sharded.of_partitions (Network.partitions_subnets hlonger hbound) fun m hm => ?_
      obtain ⟨i, rfl⟩ := List.mem_ofFn.mp hm
      rw [max_eq_right (Int.le_of_lt hlt)]
      exact Int.toNat_of_nonneg (by omega)

end

/-! ## The shards of a run -/

/-- The address is one of the network of the shard, which is one of the run. -/
def Db.Scans (db : Db) (runId : Uuid) (a : Nat) (shardId : Uuid) : Prop :=
  ∃ r m, db.shards.get shardId = some r ∧ r.runId = runId ∧ Ipv4.parse r.cidr = some m ∧
    m.Contains a

/-- The shards of the run have the addresses of the network, each in one shard. -/
structure Db.ScansOnce (db : Db) (runId : Uuid) (network : Network) : Prop where
  once : ∀ a, network.Contains a → ∃! shardId, db.Scans runId a shardId
  inside : ∀ a shardId, db.Scans runId a shardId → network.Contains a

/-- The shards of every run partition its scope. -/
def Db.Partitioned (db : Db) : Prop :=
  ∀ run ∈ db.runs.rows, ∃ scope network, db.scopes.get run.inventoryScopeId = some scope ∧
    Ipv4.parse scope.cidr = some network ∧ db.ScansOnce run.id network

section
variable {db db' : Db}

theorem Db.ScansOnce.frame {runId : Uuid} {network : Network} (h : db.ScansOnce runId network)
    (hscans : ∀ a k, db'.Scans runId a k ↔ db.Scans runId a k) : db'.ScansOnce runId network where
  once := by
    intro a ha
    simp only [hscans]
    exact h.once a ha
  inside := fun a k hk => h.inside a k ((hscans a k).mp hk)

theorem scansOnce_nonempty {runId : Uuid} {network : Network}
    (h : db.ScansOnce runId network) : ∃ r ∈ db.shards.rows, r.runId = runId := by
  have hpos : 0 < network.size := Nat.two_pow_pos _
  obtain ⟨k, ⟨r, m, hr, hrun, -⟩, -⟩ := h.once network.address ⟨Nat.le_refl _, by omega⟩
  exact ⟨r, Table.get_mem hr, hrun⟩

theorem partitioned_keeps (h : db.Partitioned) (hk : db.Keeps db') : db'.Partitioned := by
  intro run hrun
  rw [hk.runs] at hrun
  obtain ⟨scope, network, hscope, hparse, honce⟩ := h run hrun
  obtain ⟨scope', hscope', hcidr, -, -⟩ := hk.scope run hrun scope hscope
  refine ⟨scope', network, hscope', hcidr ▸ hparse, honce.frame fun a k => ?_⟩
  rw [Db.Scans, hk.shards, Db.Scans]

/-- The rows inserted with a run are the texts of the cut, in order. -/
theorem mem_createRun_rows {cidrs : List String} {ids : Nat → Uuid} {runId : Uuid} {zone : String}
    {r : ScanShard} :
    r ∈ ((cidrs.mapIdx fun i cidr => (ids i, cidr)).map fun shard =>
        { id := shard.1, runId := runId, cidr := shard.2, zone := zone : ScanShard }) ↔
      ∃ i cidr, cidrs[i]? = some cidr ∧
        r = { id := ids i, runId := runId, cidr := cidr, zone := zone } := by
  constructor
  · intro hr
    obtain ⟨shard, hshard, rfl⟩ := List.mem_map.mp hr
    obtain ⟨i, hi, rfl⟩ := List.mem_mapIdx.mp hshard
    exact ⟨i, cidrs[i], List.getElem?_eq_getElem hi, rfl⟩
  · rintro ⟨i, cidr, hi, rfl⟩
    obtain ⟨hlt, rfl⟩ := List.getElem?_eq_some_iff.mp hi
    exact List.mem_map.mpr ⟨_, List.mem_mapIdx.mpr ⟨i, hlt, rfl⟩, rfl⟩

/-- The texts of a cut, read by their position. -/
theorem Sharded.getElem? {policy : InventorySettings} {network : Network} {cidrs : List String}
    {shards : List Network} (h : Sharded policy network cidrs shards) {i : Nat} {m : Network} :
    shards[i]? = some m ↔ ∃ cidr, cidrs[i]? = some cidr ∧ Ipv4.parse cidr = some m := by
  rw [h.canonical, List.getElem?_map]
  constructor
  · intro hm
    exact ⟨Ipv4.format m, by rw [hm, Option.map_some], Ipv4.parse_format m⟩
  · rintro ⟨cidr, hcidr, hparse⟩
    obtain ⟨m', hm', rfl⟩ := Option.map_eq_some_iff.mp hcidr
    rw [Ipv4.parse_format] at hparse
    rw [hm', hparse]

/-- The rows inserted with a run scan what the cut partitions. -/
theorem scansOnce_created {policy : InventorySettings} {network : Network} {cidrs : List String}
    {shards : List Network} (hcut : Sharded policy network cidrs shards) {ids : Nat → Uuid}
    {runId : Uuid} {zone : String} (hold : ∀ k r, db.shards.get k = some r → r.runId ≠ runId)
    (hadded : db.shards.append? ((cidrs.mapIdx fun i cidr => (ids i, cidr)).map fun shard =>
      { id := shard.1, runId := runId, cidr := shard.2, zone := zone : ScanShard }) =
        some db'.shards) :
    db'.ScansOnce runId network := by
  have hscans : ∀ a k, db'.Scans runId a k ↔
      ∃ i, (∃ m, shards[i]? = some m ∧ m.Contains a) ∧ k = ids i := by
    intro a k
    constructor
    · rintro ⟨r, m, hr, hrun, hparse, ha⟩
      rcases Table.get_append? hadded hr with hbefore | ⟨hnew, -⟩
      · exact absurd hrun (hold k r hbefore)
      · obtain ⟨i, cidr, hi, rfl⟩ := mem_createRun_rows.mp hnew
        exact ⟨i, ⟨m, hcut.getElem?.mpr ⟨cidr, hi, hparse⟩, ha⟩, (Table.get_key hr).symm⟩
    · rintro ⟨i, ⟨m, hm, ha⟩, rfl⟩
      obtain ⟨cidr, hi, hparse⟩ := hcut.getElem?.mp hm
      have hrow := Table.get_append?_of_mem hadded (mem_createRun_rows.mpr ⟨i, cidr, hi, rfl⟩)
      exact ⟨_, m, hrow, rfl, hparse, ha⟩
  constructor
  · intro a ha
    obtain ⟨i, hi, honly⟩ := hcut.partitions.existsUnique ha
    refine ⟨ids i, (hscans a _).mpr ⟨i, hi, rfl⟩, fun k hk => ?_⟩
    obtain ⟨j, hj, rfl⟩ := (hscans a k).mp hk
    rw [honly j hj]
  · intro a k hk
    obtain ⟨i, ⟨m, hm, ha⟩, -⟩ := (hscans a k).mp hk
    exact (hcut.partitions.covers a).mpr ⟨m, List.mem_of_getElem? hm, ha⟩

theorem partitioned_createRun {policy : InventorySettings} {isIpv6 : String → Bool}
    {scope : InventoryScope} {profile : ScanProfile} {actor : String} {runId : Uuid}
    {ids : Nat → Uuid} (hle : policy.shardPrefix ≤ 32) (ha : db.Authorized) (hp : db.Partitioned)
    (hscope : scope ∈ db.scopes.rows)
    (h : db.createRunIn policy isIpv6 scope profile actor runId ids = .ok db') :
    db'.Partitioned := by
  obtain ⟨cidrs, hcidrs, hcreate⟩ := Db.createRunIn_ok h
  obtain ⟨-, -, hruns, hshards, hframe⟩ := Db.createRun_ok hcreate
  have hscopes : db'.scopes = db.scopes := by rw [hframe]
  have hfresh : db.runs.get runId = none := Table.get_of_append? hruns (List.mem_singleton_self _)
  have hold : ∀ k r, db.shards.get k = some r → ∃ run, db.runs.get r.runId = some run := by
    intro k r hr
    obtain ⟨run, -, hrun, -⟩ := ha.shard r (Table.get_mem hr)
    exact ⟨run, hrun⟩
  intro run hrun
  rw [hscopes]
  rw [Table.rows_append? hruns, List.mem_append] at hrun
  rcases hrun with hrun | hrun
  · obtain ⟨scope₁, network, hscope₁, hparse, honce⟩ := hp run hrun
    refine ⟨scope₁, network, hscope₁, hparse, honce.frame fun a k => ?_⟩
    constructor
    · rintro ⟨r, m, hr, hid, hrest⟩
      rcases Table.get_append? hshards hr with hbefore | ⟨hnew, -⟩
      · exact ⟨r, m, hbefore, hid, hrest⟩
      · obtain ⟨i, cidr, -, rfl⟩ := mem_createRun_rows.mp hnew
        exact absurd hid.symm (Table.key_ne_of_get_eq_none hfresh hrun)
    · rintro ⟨r, m, hr, hrest⟩
      exact ⟨r, m, Table.get_append?_of_get hshards hr, hrest⟩
  · cases List.mem_singleton.mp hrun
    obtain ⟨network, hnetwork⟩ : ∃ network,
        parseApprovedCidr policy isIpv6 scope.cidr = .ok network := by
      rw [shardCidr] at hcidrs
      split at hcidrs
      · cases hcidrs
      · next network hnetwork => exact ⟨network, hnetwork⟩
    rcases shardCidr_cases hle hnetwork with ⟨-, hrefused⟩ | ⟨-, cidrs', shards, hok, hcut⟩
    · rw [hrefused] at hcidrs
      cases hcidrs
    · rw [hok] at hcidrs
      cases hcidrs
      refine ⟨scope, network, Table.get_of_mem hscope, parse_of_approved hnetwork,
        scansOnce_created hcut (fun k r hr hrun => ?_) hshards⟩
      obtain ⟨run, hget⟩ := hold k r hr
      rw [hrun, hfresh] at hget
      cases hget

theorem partitioned_system {settings : Settings} {s s' : State} {a : Action}
    (hp : s.db.Partitioned) (hcreates : a.creates = false) (h : s.step settings a = some s') :
    s'.db.Partitioned := by
  obtain ⟨hscopes, -⟩ := inventory_step h
  intro run' hrun'
  have hget' : s'.db.runs.get run'.id = some run' := Table.get_of_mem hrun'
  cases hget : s.db.runs.get run'.id with
  | none =>
    obtain ⟨-, _, _, _, _, rfl⟩ := run_new h hget hget'
    cases hcreates
  | some run =>
    obtain ⟨run₁, hrun₁, hcase⟩ := run_step h hget
    rw [hget'] at hrun₁
    cases hrun₁
    have hpair : run'.pair = run.pair := by
      rcases hcase with rfl | hstep
      · rfl
      · exact hstep.pair
    obtain ⟨scope, network, hscope, hparse, honce⟩ := hp run (Table.get_mem hget)
    have hid : run.id = run'.id := Table.get_key hget
    rw [hid] at honce
    refine ⟨scope, network, ?_, hparse, honce.frame fun x k => ?_⟩
    · rw [hscopes, (Prod.mk.inj hpair).1]
      exact hscope
    · constructor
      · rintro ⟨r', m, hr', hrun, hparse, hx⟩
        rcases shard_cases h hr' with ⟨r, hr, rfl | hstep⟩ | hnew
        · exact ⟨r', m, hr, hrun, hparse, hx⟩
        · exact ⟨r, m, hr, hstep.runId ▸ hrun, hstep.cidr.1 ▸ hparse, hx⟩
        · obtain ⟨_, _, _, _, rfl, -⟩ := hnew.created
          cases hcreates
      · rintro ⟨r, m, hr, hrun, hparse, hx⟩
        obtain ⟨r', hr', rfl | hstep⟩ := shard_step h hr
        · exact ⟨r', m, hr', hrun, hparse, hx⟩
        · exact ⟨r', m, hr', hstep.runId.trans hrun, hstep.cidr.1.symm ▸ hparse, hx⟩

end

theorem partitioned_step {d : Deployment} {s s' : Control} {a : ControlAction}
    (hle : d.policy.shardPrefix ≤ 32) (ha : s.base.db.Authorized) (hp : s.base.db.Partitioned)
    (h : s.step d a = some s') : s'.base.db.Partitioned := by
  cases a with
  | request q =>
    obtain ⟨db, hok, hbase⟩ := control_request h
    rw [hbase]
    rcases perform_cases hok with hkeeps | ⟨scope, profile, actor, run, hscope, -, hcreate⟩
    · exact partitioned_keeps hp hkeeps
    · exact partitioned_createRun hle ha hp hscope hcreate
  | dispatchDue now ids =>
    obtain ⟨db, hpass, hbase⟩ := control_dispatchDue h
    rw [hbase]
    have hloop := dispatchLoop_rule (P := fun db => db.Authorized ∧ db.Partitioned) d now ids
      (fun _ _ heq h => ⟨authorized_keeps h.1 (heq ▸ {}), partitioned_keeps h.2 (heq ▸ {})⟩)
      (fun _ _ _ _ _ _ hscope hprofile hok h =>
        ⟨authorized_createRun h.1 hscope hprofile hok,
          partitioned_createRun hle h.1 h.2 hscope hok⟩)
      (dueSchedules s.schedules now) s.base.db s.schedules ⟨ha, hp⟩
    rw [hpass] at hloop
    exact hloop.2
  | system a =>
    obtain ⟨hcreates, hstep, -⟩ := control_system h
    exact partitioned_system hp hcreates hstep

/-- What a deployment makes of the scopes it approves, and of their runs. -/
structure ExactPartition (d : Deployment) : Prop where
  refused : ∀ cidr network, parseApprovedCidr d.policy d.isIpv6 cidr = .ok network →
    d.policy.Exceeded network →
      shardCidr d.policy d.isIpv6 cidr = refuse 422 "run would create too many shards"
  cut : ∀ cidr network, parseApprovedCidr d.policy d.isIpv6 cidr = .ok network →
    ¬ d.policy.Exceeded network →
      ∃ cidrs shards, shardCidr d.policy d.isIpv6 cidr = .ok cidrs ∧
        Sharded d.policy network cidrs shards
  run : ∀ tr t, Path (Control.step d) Control.initial tr t → ∀ run ∈ t.base.db.runs.rows,
    ∃ scope network, t.base.db.scopes.get run.inventoryScopeId = some scope ∧
      Ipv4.parse scope.cidr = some network ∧ t.base.db.ScansOnce run.id network ∧
      ∃ r ∈ t.base.db.shards.rows, r.runId = run.id

theorem exact_partition (d : Deployment) (hle : d.policy.shardPrefix ≤ 32) : ExactPartition d where
  refused := by
    intro cidr network hnetwork hexceeded
    rcases shardCidr_cases hle hnetwork with ⟨-, hrefused⟩ | ⟨hno, -⟩
    · exact hrefused
    · exact absurd hexceeded hno
  cut := by
    intro cidr network hnetwork hfits
    rcases shardCidr_cases hle hnetwork with ⟨hexceeded, -⟩ | ⟨-, hcut⟩
    · exact absurd hexceeded hfits
    · exact hcut
  run := by
    intro tr t h run hrun
    have hinvariant := h.invariant (C := fun _ _ => true)
      (I := fun s => s.base.db.Authorized ∧ s.base.db.Partitioned)
      ⟨authorized_empty, fun _ hrun => absurd hrun List.not_mem_nil⟩
      (fun _ _ _ hs _ hstep => ⟨authorized_step hs.1 hstep, partitioned_step hle hs.1 hs.2 hstep⟩)
      fun _ _ => rfl
    obtain ⟨scope, network, hscope, hparse, honce⟩ := hinvariant.2 run hrun
    exact ⟨scope, network, hscope, hparse, honce, scansOnce_nonempty honce⟩

/-- A scope of 512 addresses is cut in two. -/
theorem exact_partition_scheduled :
    ∃ tr t, Path (Control.step {}) Control.initial tr t ∧
      t.base.db.shards.rows.map ScanShard.cidr = ["10.0.0.0/24", "10.0.1.0/24"] ∧
      ∀ a, 0x0A000000 ≤ a → a < 0x0A000200 → ∃! shardId, t.base.db.Scans "run" a shardId := by
  have hrun : (runAll (Control.step {}) Control.initial Demo.scheduled).map (fun t =>
      (t.base.db.shards.rows.map ScanShard.cidr, t.base.db.runs.rows.map fun run =>
        (run.id, (t.base.db.scopes.get run.inventoryScopeId).map fun scope => scope.cidr))) =
      some (["10.0.0.0/24", "10.0.1.0/24"], [("run", some "10.0.0.0/23")]) := by
    decide +kernel
  obtain ⟨tr, t, hp, hobs⟩ := Path.of_runAll_map hrun
  obtain ⟨hcidrs, hruns⟩ := Prod.mk.inj hobs
  obtain ⟨run, hmem, hid⟩ : ∃ run ∈ t.base.db.runs.rows,
      (run.id, (t.base.db.scopes.get run.inventoryScopeId).map fun scope => scope.cidr) =
        ("run", some "10.0.0.0/23") := by
    refine List.mem_map.mp ?_
    rw [hruns]
    exact List.mem_singleton_self _
  obtain ⟨hname, hcidr⟩ := Prod.mk.inj hid
  obtain ⟨scope, network, hscope, hparse, honce, -⟩ :=
    (exact_partition {} (by decide)).run tr t hp run hmem
  rw [hscope, Option.map_some, Option.some.injEq] at hcidr
  have hnetwork : (Ipv4.parse "10.0.0.0/23").map (fun n => (n.address, n.prefixLength)) =
      some (0x0A000000, 23) := by
    decide +kernel
  rw [hcidr] at hparse
  rw [hparse, Option.map_some, Option.some.injEq, Prod.mk.injEq] at hnetwork
  refine ⟨tr, t, hp, hcidrs, fun a hlow hhigh => hname ▸ honce.once a ?_⟩
  rw [Network.Contains, Network.size, hnetwork.1, hnetwork.2]
  omega

end TransportLookout
