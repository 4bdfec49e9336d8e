/-
What changed between two scans: `exposure_diff`.

The open services on up hosts are a map from address, protocol and port to what was
found there.  The list of changes is a patch from the map of the previous run to the
map of the current one.  No two changes touch a key in common, so the order they
are applied in does not matter.
-/
import Mathlib.Data.List.Dedup
import TransportLookout.Library.Patch
import TransportLookout.ReadModel.Materialization

namespace TransportLookout

open Relational Patch

/-! ## The function -/

structure Details where
  service : Option String
  product : Option String
  version : Option String
deriving DecidableEq, Repr

def ServiceObservation.details (s : ServiceObservation) : Details :=
  ⟨s.service, s.product, s.version⟩

inductive Change
  | hostDisappeared (address : String)
  | portOpened (key : ServiceKey) (new : Details)
  | portClosed (key : ServiceKey) (previous : Details)
  | serviceChanged (key : ServiceKey) (new previous : Details)
deriving DecidableEq, Repr

structure ExposureDiff where
  current : Option ScanRun
  previous : Option ScanRun
  changes : List Change
  coverageComplete : Bool
deriving DecidableEq, Repr

/-- The order of tuples. -/
def ServiceKey.le (a b : ServiceKey) : Bool :=
  a.1 < b.1 || (a.1 = b.1 && (a.2.1 < b.2.1 || (a.2.1 = b.2.1 && a.2.2 ≤ b.2.2)))

namespace Diff

/-- The dict of the observations under a key: the last one counts. -/
def item (items : List Observation) (k : ServiceKey) : Option Details :=
  (items.reverse.find? fun x => x.key = k).map fun x => x.2.details

def itemKeys (items : List Observation) : List ServiceKey := (items.map Observation.key).dedup

def sortedKeys (keys : List ServiceKey) : List ServiceKey := keys.insertionSort fun a b => a.le b

def upHosts (db : Db) (runId : Uuid) : List String :=
  ((db.hosts.select fun host => host.runId = runId && host.state = "up").map
    HostObservation.address).dedup

section
variable (old new : List Observation) (oldHosts newHosts : List String)

def disappeared : List Change :=
  ((oldHosts.filter fun address => address ∉ newHosts).insertionSort (· ≤ ·)).map .hostDisappeared

def opened : List Change :=
  (sortedKeys ((itemKeys new).filter fun k => k ∉ itemKeys old)).filterMap fun k =>
    (item new k).map (.portOpened k)

def closed : List Change :=
  (sortedKeys ((itemKeys old).filter fun k => k ∉ itemKeys new)).filterMap fun k =>
    if k.1 ∈ newHosts then (item old k).map (.portClosed k) else none

def changed : List Change :=
  (sortedKeys ((itemKeys new).filter fun k => k ∈ itemKeys old)).filterMap fun k =>
    match item new k, item old k with
    | some details, some previous =>
      if details ≠ previous then some (.serviceChanged k details previous) else none
    | _, _ => none

def changes : List Change :=
  disappeared oldHosts newHosts ++ opened old new ++ closed old new newHosts ++ changed old new

end

end Diff

open Diff

/-- The completed runs of a scope and profile, the latest completion first. -/
def Db.completedRunsOf (db : Db) (pair : Pair) : List ScanRun :=
  db.completedRuns.filter fun run => run.pair = pair

def exposureDiff (db : Db) (scopeId profileId : Uuid) : ExposureDiff :=
  match (db.completedRunsOf (scopeId, profileId)).take 2 with
  | [] => ⟨none, none, [], true⟩
  | current :: rest =>
    if db.incompleteDiscoveryShards current.id ≠ 0 then ⟨some current, rest.head?, [], false⟩
    else
      let new := db.openServices current.id
      match rest.head? with
      | none => ⟨some current, none, opened [] new, true⟩
      | some previous =>
        ⟨some current, some previous,
          changes (db.openServices previous.id) new (upHosts db previous.id)
            (upHosts db current.id), true⟩

/-! ## Which changes there are -/

section
variable {old new : List Observation} {oldHosts newHosts : List String} {k : ServiceKey}
  {c : Change}

theorem item_isSome {items : List Observation} :
    (item items k).isSome = true ↔ ∃ x ∈ items, x.key = k := by
  rw [item, Option.isSome_map, List.find?_isSome]
  simp only [List.mem_reverse, decide_eq_true_eq]

theorem mem_itemKeys {items : List Observation} :
    k ∈ itemKeys items ↔ (item items k).isSome = true := by
  rw [itemKeys, List.mem_dedup, List.mem_map, item_isSome]

theorem nodup_itemKeys (items : List Observation) : (itemKeys items).Nodup := List.nodup_dedup _

theorem mem_sortedKeys {keys : List ServiceKey} : k ∈ sortedKeys keys ↔ k ∈ keys :=
  List.mem_insertionSort _

theorem nodup_sortedKeys {keys : List ServiceKey} (h : keys.Nodup) : (sortedKeys keys).Nodup :=
  (List.perm_insertionSort _ keys).nodup_iff.mpr h

theorem mem_disappeared :
    c ∈ disappeared oldHosts newHosts ↔
      ∃ a, a ∈ oldHosts ∧ a ∉ newHosts ∧ c = .hostDisappeared a := by
  rw [disappeared, List.mem_map]
  simp only [List.mem_insertionSort, List.mem_filter, decide_eq_true_eq, and_assoc,
    eq_comm (b := c)]

theorem mem_opened :
    c ∈ opened old new ↔
      ∃ k details, item old k = none ∧ item new k = some details ∧ c = .portOpened k details := by
  rw [opened, List.mem_filterMap]
  simp only [mem_sortedKeys, List.mem_filter, decide_eq_true_eq, mem_itemKeys,
    Option.not_isSome_iff_eq_none, Option.map_eq_some_iff]
  constructor
  · rintro ⟨k, ⟨-, hnone⟩, details, hsome, rfl⟩
    exact ⟨k, details, hnone, hsome, rfl⟩
  · rintro ⟨k, details, hnone, hsome, rfl⟩
    exact ⟨k, ⟨by rw [hsome]; rfl, hnone⟩, details, hsome, rfl⟩

theorem mem_closed :
    c ∈ closed old new newHosts ↔
      ∃ k previous, item old k = some previous ∧ item new k = none ∧ k.1 ∈ newHosts ∧
        c = .portClosed k previous := by
  rw [closed, List.mem_filterMap]
  simp only [mem_sortedKeys, List.mem_filter, decide_eq_true_eq, mem_itemKeys,
    Option.not_isSome_iff_eq_none]
  constructor
  · rintro ⟨k, ⟨-, hnone⟩, hc⟩
    split at hc
    · next hhost =>
      obtain ⟨previous, hsome, rfl⟩ := Option.map_eq_some_iff.mp hc
      exact ⟨k, previous, hsome, hnone, hhost, rfl⟩
    · cases hc
  · rintro ⟨k, previous, hsome, hnone, hhost, rfl⟩
    exact ⟨k, ⟨by rw [hsome]; rfl, hnone⟩, by rw [if_pos hhost, hsome]; rfl⟩

theorem mem_changed :
    c ∈ changed old new ↔
      ∃ k details previous, item new k = some details ∧ item old k = some previous ∧
        details ≠ previous ∧ c = .serviceChanged k details previous := by
  rw [changed, List.mem_filterMap]
  simp only [mem_sortedKeys, List.mem_filter, decide_eq_true_eq, mem_itemKeys]
  constructor
  · rintro ⟨k, -, hc⟩
    split at hc
    · next details previous hnew hold =>
      split at hc
      · next hne =>
        cases hc
        exact ⟨k, details, previous, hnew, hold, hne, rfl⟩
      · cases hc
    · cases hc
  · rintro ⟨k, details, previous, hnew, hold, hne, rfl⟩
    exact ⟨k, ⟨by rw [hnew]; rfl, by rw [hold]; rfl⟩, by rw [hnew, hold]; exact if_pos hne⟩

/-! ## The change at a key -/

theorem nodup_keyed {keys : List ServiceKey} {f : ServiceKey → Option Change}
    (key : Change → Option ServiceKey) (h : keys.Nodup) (hf : ∀ k c, c ∈ f k → key c = some k) :
    ((sortedKeys keys).filterMap f).Nodup := by
  refine (nodup_sortedKeys h).filterMap fun k k' c hc hc' => ?_
  exact Option.some.inj ((hf k c hc).symm.trans (hf k' c hc'))

/-- The key a change names. -/
def Change.key : Change → Option ServiceKey
  | .hostDisappeared _ => none
  | .portOpened k _ | .portClosed k _ | .serviceChanged k _ _ => some k

theorem nodup_changes (hhosts : oldHosts.Nodup) : (changes old new oldHosts newHosts).Nodup := by
  have hdisappeared : (disappeared oldHosts newHosts).Nodup := by
    refine List.Nodup.map (fun _ _ h => Change.hostDisappeared.inj h) ?_
    exact (List.perm_insertionSort _ _).nodup_iff.mpr (hhosts.filter _)
  have hopened : (opened old new).Nodup := by
    refine nodup_keyed Change.key ((nodup_itemKeys new).filter _) fun k c hc => ?_
    obtain ⟨_, -, rfl⟩ := Option.map_eq_some_iff.mp hc
    rfl
  have hclosed : (closed old new newHosts).Nodup := by
    refine nodup_keyed Change.key ((nodup_itemKeys old).filter _) fun k c hc => ?_
    split at hc
    · obtain ⟨_, -, rfl⟩ := Option.map_eq_some_iff.mp hc
      rfl
    · cases hc
  have hchanged : (changed old new).Nodup := by
    refine nodup_keyed Change.key ((nodup_itemKeys new).filter _) fun k c hc => ?_
    split at hc
    · split at hc
      · cases hc
        rfl
      · cases hc
    · cases hc
  refine List.nodup_append'.mpr ⟨List.nodup_append'.mpr ⟨List.nodup_append'.mpr
    ⟨hdisappeared, hopened, fun c hc hc' => ?_⟩, hclosed, fun c hc hc' => ?_⟩, hchanged,
    fun c hc hc' => ?_⟩
  · obtain ⟨_, -, -, rfl⟩ := mem_disappeared.mp hc
    obtain ⟨_, _, -, -, h⟩ := mem_opened.mp hc'
    cases h
  · obtain ⟨_, _, -, -, -, rfl⟩ := mem_closed.mp hc'
    rcases List.mem_append.mp hc with hc | hc
    · obtain ⟨_, -, -, h⟩ := mem_disappeared.mp hc
      cases h
    · obtain ⟨_, _, -, -, h⟩ := mem_opened.mp hc
      cases h
  · obtain ⟨_, _, _, -, -, -, rfl⟩ := mem_changed.mp hc'
    rcases List.mem_append.mp hc with hc | hc
    · rcases List.mem_append.mp hc with hc | hc
      · obtain ⟨_, -, -, h⟩ := mem_disappeared.mp hc
        cases h
      · obtain ⟨_, _, -, -, h⟩ := mem_opened.mp hc
        cases h
    · obtain ⟨_, _, -, -, -, h⟩ := mem_closed.mp hc
      cases h

def Change.edit : Change → Edit ServiceKey Details
  | .hostDisappeared address => .remove fun k => k.1 = address
  | .portOpened k details => .insert k details
  | .portClosed k _ => .remove fun k' => k' = k
  | .serviceChanged k details previous => .rewrite k previous details

/-- What becomes of a key from one run to the next. -/
def changeAt (old new : List Observation) (oldHosts newHosts : List String) (k : ServiceKey) :
    Option Change :=
  match item old k, item new k with
  | none, none =>
    if k.1 ∈ oldHosts ∧ k.1 ∉ newHosts then some (.hostDisappeared k.1) else none
  | none, some details => some (.portOpened k details)
  | some previous, none =>
    if k.1 ∈ newHosts then some (.portClosed k previous) else some (.hostDisappeared k.1)
  | some previous, some details =>
    if details ≠ previous then some (.serviceChanged k details previous) else none

/-- The services are on hosts that are up. -/
def OnHosts (items : List Observation) (hosts : List String) : Prop :=
  ∀ k, (item items k).isSome = true → k.1 ∈ hosts

theorem mem_changes : c ∈ changes old new oldHosts newHosts ↔
    c ∈ disappeared oldHosts newHosts ∨ c ∈ opened old new ∨ c ∈ closed old new newHosts ∨
      c ∈ changed old new := by
  rw [changes, List.mem_append, List.mem_append, List.mem_append, or_assoc, or_assoc]

/-- The changes that touch a key are the one `changeAt` names. -/
theorem changeAt_iff (hold : OnHosts old oldHosts) (hnew : OnHosts new newHosts) :
    changeAt old new oldHosts newHosts k = some c ↔
      c ∈ changes old new oldHosts newHosts ∧ c.edit.touches k = true := by
  rw [mem_changes]
  constructor
  · intro h
    rw [changeAt] at h
    split at h
    · split at h
      · next hhost =>
        cases h
        exact ⟨Or.inl (mem_disappeared.mpr ⟨k.1, hhost.1, hhost.2, rfl⟩), decide_eq_true rfl⟩
      · cases h
    · next details holdk hnewk =>
      cases h
      exact ⟨Or.inr (Or.inl (mem_opened.mpr ⟨k, details, holdk, hnewk, rfl⟩)), decide_eq_true rfl⟩
    · next previous holdk hnewk =>
      split at h
      · next hhost =>
        cases h
        exact ⟨Or.inr (Or.inr (Or.inl (mem_closed.mpr ⟨k, previous, holdk, hnewk, hhost, rfl⟩))),
          decide_eq_true rfl⟩
      · next hhost =>
        cases h
        have hwas := hold k (by rw [holdk]; rfl)
        exact ⟨Or.inl (mem_disappeared.mpr ⟨k.1, hwas, hhost, rfl⟩), decide_eq_true rfl⟩
    · next previous details holdk hnewk =>
      split at h
      · next hne =>
        cases h
        exact ⟨Or.inr (Or.inr (Or.inr (mem_changed.mpr
          ⟨k, details, previous, hnewk, holdk, hne, rfl⟩))), decide_eq_true rfl⟩
      · cases h
  · rintro ⟨hc, htouches⟩
    rcases hc with hc | hc | hc | hc
    · obtain ⟨a, hwas, hgone, rfl⟩ := mem_disappeared.mp hc
      cases of_decide_eq_true htouches
      have hnone : item new k = none :=
        Option.not_isSome_iff_eq_none.mp fun hsome => hgone (hnew k hsome)
      rw [changeAt, hnone]
      cases item old k with
      | none => exact if_pos ⟨hwas, hgone⟩
      | some previous => exact if_neg hgone
    · obtain ⟨k', details, holdk, hnewk, rfl⟩ := mem_opened.mp hc
      cases of_decide_eq_true htouches
      rw [changeAt, holdk, hnewk]
    · obtain ⟨k', previous, holdk, hnewk, hhost, rfl⟩ := mem_closed.mp hc
      cases of_decide_eq_true htouches
      rw [changeAt, holdk, hnewk]
      exact if_pos hhost
    · obtain ⟨k', details, previous, hnewk, holdk, hne, rfl⟩ := mem_changed.mp hc
      cases of_decide_eq_true htouches
      rw [changeAt, holdk, hnewk]
      exact if_pos hne

theorem value_of_changeAt (h : changeAt old new oldHosts newHosts k = some c) :
    c.edit.value = item new k := by
  rw [changeAt] at h
  split at h
  · next holdk hnewk =>
    split at h
    · cases h
      exact hnewk.symm
    · cases h
  · next details holdk hnewk =>
    cases h
    exact hnewk.symm
  · next previous holdk hnewk =>
    split at h
    · cases h
      exact hnewk.symm
    · cases h
      exact hnewk.symm
  · next previous details holdk hnewk =>
    split at h
    · cases h
      exact hnewk.symm
    · cases h

theorem same_of_changeAt (oldHosts newHosts : List String)
    (h : changeAt old new oldHosts newHosts k = none) :
    item old k = item new k := by
  rw [changeAt] at h
  split at h
  · next holdk hnewk => rw [holdk, hnewk]
  · cases h
  · split at h
    · cases h
    · cases h
  · next previous details holdk hnewk =>
    split at h
    · cases h
    · next heq => rw [holdk, hnewk, not_not.mp heq]

theorem edit_admits (hc : c ∈ changes old new oldHosts newHosts) :
    c.edit.admits (item old) = true := by
  rcases mem_changes.mp hc with hc | hc | hc | hc
  · obtain ⟨_, -, -, rfl⟩ := mem_disappeared.mp hc
    rfl
  · obtain ⟨k, details, holdk, -, rfl⟩ := mem_opened.mp hc
    rw [Change.edit, Edit.admits, holdk]
    rfl
  · obtain ⟨_, _, -, -, -, rfl⟩ := mem_closed.mp hc
    rfl
  · obtain ⟨k, details, previous, -, holdk, -, rfl⟩ := mem_changed.mp hc
    rw [Change.edit, Edit.admits, holdk]
    exact decide_eq_true rfl

/-! ## Exactness -/

/-- The changes are a patch that says no more than what differs. -/
structure ExactPatch (l : List Change) (m m' : ServiceKey → Option Details)
    (hosts hosts' : List String) : Prop where
  applies : ∀ l' : List Change, l'.Perm l → applyAll m (l'.map Change.edit) = some m'
  disjoint : l.Pairwise fun c d => c.edit.Disjoint d.edit
  named : ∀ c ∈ l, ∀ k, c.key = some k → m k ≠ m' k
  disappeared : ∀ a, .hostDisappeared a ∈ l → a ∈ hosts ∧ a ∉ hosts'
  empty : l = [] ↔ m = m' ∧ ∀ a ∈ hosts, a ∈ hosts'

theorem changes_exact (hold : OnHosts old oldHosts) (hnew : OnHosts new newHosts)
    (hhosts : oldHosts.Nodup) :
    ExactPatch (changes old new oldHosts newHosts) (item old) (item new) oldHosts newHosts := by
  have hdisjoint : (changes old new oldHosts newHosts).Pairwise
      fun c d => c.edit.Disjoint d.edit := by
    refine (nodup_changes hhosts).pairwise_of_forall_ne fun c hc d hd hne k htouches => hne ?_
    have hatc := (changeAt_iff hold hnew).mpr ⟨hc, htouches.1⟩
    have hatd := (changeAt_iff hold hnew).mpr ⟨hd, htouches.2⟩
    exact Option.some.inj (hatc.symm.trans hatd)
  refine ⟨fun l' hperm => ?_, hdisjoint, fun c hc k hk => ?_, fun a ha => ?_, ?_⟩
  · have hmem : ∀ e ∈ l'.map Change.edit, ∃ c ∈ changes old new oldHosts newHosts, c.edit = e := by
      intro e he
      obtain ⟨c, hc, rfl⟩ := List.mem_map.mp he
      exact ⟨c, hperm.mem_iff.mp hc, rfl⟩
    refine applyAll_eq ?_ (fun e he => ?_) (fun e he k hk => ?_) fun k hk => ?_
    · rw [List.pairwise_map]
      refine hperm.symm.pairwise hdisjoint fun h k => ?_
      exact fun ⟨hc, hd⟩ => h k ⟨hd, hc⟩
    · obtain ⟨c, hc, rfl⟩ := hmem e he
      exact edit_admits hc
    · obtain ⟨c, hc, rfl⟩ := hmem e he
      exact value_of_changeAt ((changeAt_iff hold hnew).mpr ⟨hc, hk⟩)
    · refine same_of_changeAt oldHosts newHosts
        (Option.eq_none_iff_forall_ne_some.mpr fun c hc => ?_)
      obtain ⟨hin, htouches⟩ := (changeAt_iff hold hnew).mp hc
      have hno := hk c.edit (List.mem_map_of_mem (hperm.mem_iff.mpr hin))
      rw [htouches] at hno
      cases hno
  · rcases mem_changes.mp hc with hc | hc | hc | hc
    · obtain ⟨_, -, -, rfl⟩ := mem_disappeared.mp hc
      cases hk
    · obtain ⟨_, details, holdk, hnewk, rfl⟩ := mem_opened.mp hc
      cases hk
      rw [holdk, hnewk]
      exact nofun
    · obtain ⟨_, previous, holdk, hnewk, -, rfl⟩ := mem_closed.mp hc
      cases hk
      rw [holdk, hnewk]
      exact nofun
    · obtain ⟨_, details, previous, hnewk, holdk, hne, rfl⟩ := mem_changed.mp hc
      cases hk
      rw [holdk, hnewk]
      exact fun hsame => hne (Option.some.inj hsame).symm
  · rcases mem_changes.mp ha with ha | ha | ha | ha
    · obtain ⟨_, hwas, hgone, h⟩ := mem_disappeared.mp ha
      cases h
      exact ⟨hwas, hgone⟩
    · obtain ⟨_, _, -, -, h⟩ := mem_opened.mp ha
      cases h
    · obtain ⟨_, _, -, -, -, h⟩ := mem_closed.mp ha
      cases h
    · obtain ⟨_, _, _, -, -, -, h⟩ := mem_changed.mp ha
      cases h
  · constructor
    · intro hnil
      have hnone : ∀ c, c ∉ changes old new oldHosts newHosts := by
        rw [hnil]
        exact fun c => List.not_mem_nil
      refine ⟨funext fun k => ?_, fun a ha => ?_⟩
      · refine same_of_changeAt oldHosts newHosts
          (Option.eq_none_iff_forall_ne_some.mpr fun c hc => ?_)
        exact hnone c ((changeAt_iff hold hnew).mp hc).1
      · by_contra hgone
        exact hnone _ (mem_changes.mpr (Or.inl (mem_disappeared.mpr ⟨a, ha, hgone, rfl⟩)))
    · rintro ⟨hsame, hup⟩
      refine List.eq_nil_iff_forall_not_mem.mpr fun c hc => ?_
      rcases mem_changes.mp hc with hc | hc | hc | hc
      · obtain ⟨a, hwas, hgone, -⟩ := mem_disappeared.mp hc
        exact hgone (hup a hwas)
      · obtain ⟨k, details, holdk, hnewk, -⟩ := mem_opened.mp hc
        rw [hsame, hnewk] at holdk
        cases holdk
      · obtain ⟨k, previous, holdk, hnewk, -⟩ := mem_closed.mp hc
        rw [hsame, hnewk] at holdk
        cases holdk
      · obtain ⟨k, details, previous, hnewk, holdk, hne, -⟩ := mem_changed.mp hc
        rw [hsame, hnewk] at holdk
        exact hne (Option.some.inj holdk)

theorem changes_first (new : List Observation) (newHosts : List String) :
    changes [] new [] newHosts = opened [] new := by
  simp [changes, disappeared, closed, changed, itemKeys, sortedKeys]

/-! ## The observations of a run -/

/-- What a run found under a key. -/
def Db.exposureMap (db : Db) (runId : Uuid) (k : ServiceKey) : Option Details :=
  ((db.openServices runId).find? fun x : Observation => x.key = k).map fun x => x.2.details

theorem find?_key {α κ : Type} [DecidableEq κ] {key : α → κ} {l : List α}
    (h : (l.map key).Nodup) {k : κ} {x : α} :
    l.find? (fun y => key y = k) = some x ↔ x ∈ l ∧ key x = k := by
  constructor
  · intro hx
    exact ⟨List.mem_of_find?_eq_some hx, by simpa using List.find?_some hx⟩
  · rintro ⟨hx, rfl⟩
    obtain ⟨y, hy⟩ : ∃ y, l.find? (fun y => key y = key x) = some y := by
      rw [← Option.isSome_iff_exists, List.find?_isSome]
      exact ⟨x, hx, decide_eq_true rfl⟩
    have hsame : key y = key x := by simpa using List.find?_some hy
    rw [hy, List.inj_on_of_nodup_map h (List.mem_of_find?_eq_some hy) hx hsame]

/-- Where no key repeats, the order of the rows does not matter. -/
theorem item_openServices {db : Db} {runId : Uuid}
    (h : ((db.openServices runId).map Observation.key).Nodup) :
    item (db.openServices runId) = db.exposureMap runId := by
  funext k
  rw [item, Db.exposureMap]
  congr 1
  refine Option.ext fun x => ?_
  have hrev : ((db.openServices runId).reverse.map Observation.key).Nodup := by
    rw [List.map_reverse]
    exact List.nodup_reverse.mpr h
  rw [find?_key hrev, find?_key h, List.mem_reverse]

theorem onHosts_openServices (db : Db) (runId : Uuid) :
    OnHosts (db.openServices runId) (upHosts db runId) := by
  intro k hk
  obtain ⟨x, hx, rfl⟩ := item_isSome.mp hk
  obtain ⟨host, hhost, hx⟩ := List.mem_flatMap.mp hx
  obtain ⟨service, hservice, rfl⟩ := List.mem_map.mp hx
  obtain ⟨-, hjoin⟩ := List.mem_filter.mp hservice
  simp only [Bool.and_eq_true, decide_eq_true_eq] at hjoin
  obtain ⟨⟨⟨-, hrun⟩, hup⟩, -⟩ := hjoin
  refine List.mem_dedup.mpr (List.mem_map_of_mem (Table.mem_select.mpr ⟨hhost, ?_⟩))
  rw [hrun, hup, decide_eq_true rfl, decide_eq_true rfl]
  rfl

/-- The runs a diff with changes compares. -/
theorem exposureDiff_cases (db : Db) (scopeId profileId : Uuid) :
    (db.completedRunsOf (scopeId, profileId) = [] ∧
      exposureDiff db scopeId profileId = ⟨none, none, [], true⟩) ∨
    ∃ current previous rest, db.completedRunsOf (scopeId, profileId) = current :: rest ∧
      previous = rest.head? ∧
      ((db.incompleteDiscoveryShards current.id ≠ 0 ∧
          exposureDiff db scopeId profileId = ⟨some current, previous, [], false⟩) ∨
        (db.incompleteDiscoveryShards current.id = 0 ∧
          exposureDiff db scopeId profileId = ⟨some current, previous,
            changes (previous.elim [] fun run => db.openServices run.id)
              (db.openServices current.id) (previous.elim [] fun run => upHosts db run.id)
              (upHosts db current.id), true⟩)) := by
  rw [exposureDiff]
  cases hruns : db.completedRunsOf (scopeId, profileId) with
  | nil => exact Or.inl ⟨rfl, rfl⟩
  | cons current rest =>
    refine Or.inr ⟨current, rest.head?, rest, rfl, rfl, ?_⟩
    have hhead : (rest.take 1).head? = rest.head? := by
      cases rest <;> rfl
    rw [List.take_succ_cons]
    dsimp only
    rw [hhead]
    by_cases hcomplete : db.incompleteDiscoveryShards current.id = 0
    · refine Or.inr ⟨hcomplete, ?_⟩
      rw [if_neg (not_not_intro hcomplete)]
      cases rest.head? with
      | none => exact congrArg (ExposureDiff.mk _ _ · _) (changes_first _ _).symm
      | some previous => rfl
    · exact Or.inl ⟨hcomplete, if_pos hcomplete⟩

end

/-- The changes turn the previous run's services into the current run's. -/
theorem exposure_diff_exact (db : Db) (scopeId profileId : Uuid) (current : ScanRun)
    (hcurrent : (exposureDiff db scopeId profileId).current = some current)
    (hcomplete : (exposureDiff db scopeId profileId).coverageComplete = true)
    (hunique : ∀ run, run = current ∨ (exposureDiff db scopeId profileId).previous = some run →
      ((db.openServices run.id).map Observation.key).Nodup) :
    ExactPatch (exposureDiff db scopeId profileId).changes
      ((exposureDiff db scopeId profileId).previous.elim (fun _ => none) fun run =>
        db.exposureMap run.id)
      (db.exposureMap current.id)
      ((exposureDiff db scopeId profileId).previous.elim [] fun run => upHosts db run.id)
      (upHosts db current.id) := by
  rcases exposureDiff_cases db scopeId profileId with ⟨-, hnone⟩ |
    ⟨run, previous, rest, -, -, hcase⟩
  · rw [hnone] at hcurrent
    cases hcurrent
  rcases hcase with ⟨-, hdiff⟩ | ⟨-, hdiff⟩
  · rw [hdiff] at hcomplete
    cases hcomplete
  rw [hdiff] at hcurrent hunique
  obtain rfl : run = current := Option.some.inj hcurrent
  rw [hdiff, ← item_openServices (hunique run (Or.inl rfl))]
  cases previous with
  | none =>
    exact changes_exact (fun k hk => by cases hk) (onHosts_openServices db run.id) List.nodup_nil
  | some previous =>
    dsimp only [Option.elim]
    rw [← item_openServices (hunique previous (Or.inr rfl))]
    exact changes_exact (onHosts_openServices db previous.id) (onHosts_openServices db run.id)
      (List.nodup_dedup _)

namespace Demo

def completedRun (id : Uuid) (completedAt : DateTime) : ScanRun :=
  { id, inventoryScopeId := "scope", profileId := "profile", status := .completed,
    requestedBy := "operator", completedAt := some completedAt }

def upHost (id runId : Uuid) (address : String) : HostObservation :=
  { id, runId, shardId := runId, address, state := "up" }

def openPort (id host : Uuid) (port : Int) (service : String) (version : Option String := none) :
    ServiceObservation :=
  { id, hostObservationId := host, protocol := "tcp", port, state := "open",
    service := some service, version }

/-- Two scans: one host is upgraded and serves another port, one is replaced. -/
def rescanned : Db where
  runs := ⟨[completedRun "old" 0, completedRun "new" 1], by decide⟩
  hosts := ⟨[upHost "h1" "old" "10.80.0.10", upHost "h2" "old" "10.80.0.20",
    upHost "h3" "new" "10.80.0.10", upHost "h4" "new" "10.80.0.30"], by decide⟩
  services := ⟨[openPort "v1" "h1" 22 "ssh" "8.0", openPort "v2" "h1" 80 "http",
    openPort "v3" "h2" 443 "https", openPort "v4" "h3" 22 "ssh" "9.0",
    openPort "v5" "h3" 8080 "http-proxy", openPort "v6" "h4" 443 "https"], by decide⟩

end Demo

theorem exposure_diff_exact_rescanned :
    (exposureDiff Demo.rescanned "scope" "profile").changes =
      [.hostDisappeared "10.80.0.20",
        .portOpened ("10.80.0.10", "tcp", 8080) ⟨"http-proxy", none, none⟩,
        .portOpened ("10.80.0.30", "tcp", 443) ⟨"https", none, none⟩,
        .portClosed ("10.80.0.10", "tcp", 80) ⟨"http", none, none⟩,
        .serviceChanged ("10.80.0.10", "tcp", 22) ⟨"ssh", none, "9.0"⟩ ⟨"ssh", none, "8.0"⟩] ∧
    ExactPatch (exposureDiff Demo.rescanned "scope" "profile").changes
      ((exposureDiff Demo.rescanned "scope" "profile").previous.elim (fun _ => none) fun run =>
        Demo.rescanned.exposureMap run.id)
      (Demo.rescanned.exposureMap "new")
      ((exposureDiff Demo.rescanned "scope" "profile").previous.elim [] fun run =>
        upHosts Demo.rescanned run.id)
      (upHosts Demo.rescanned "new") := by
  have hruns : (exposureDiff Demo.rescanned "scope" "profile").previous =
      some (Demo.completedRun "old" 0) := by
    decide +kernel
  refine ⟨by decide +kernel, exposure_diff_exact Demo.rescanned "scope" "profile"
    (Demo.completedRun "new" 1) (by decide +kernel) (by decide +kernel) ?_⟩
  rintro run (rfl | hprevious)
  · decide +kernel
  · rw [hruns] at hprevious
    cases hprevious
    decide +kernel

/-! ## Coverage -/

/-- Every shard of the run with discovery candidates has been confirmed by Nmap. -/
def Db.Confirmed (db : Db) (run : ScanRun) : Prop :=
  ∀ shard ∈ db.shards.rows, shard.runId = run.id →
    (∃ o ∈ db.discoveries.rows, o.shardId = shard.id) → shard.artifactKey ≠ none

/-- What `complete` coverage promises of the compared runs. -/
structure ConfirmedPair (db : Db) (d : ExposureDiff) : Prop where
  current : d.coverageComplete = true → ∀ run, d.current = some run → db.Confirmed run
  previous : d.coverageComplete = true → ∀ run, d.previous = some run → db.Confirmed run

/-- The run before the latest is confirmed, or there is none, or the latest is not. -/
def Db.baselineConfirmed (db : Db) (pair : Pair) : Bool :=
  match db.completedRunsOf pair with
  | current :: previous :: _ =>
    db.incompleteDiscoveryShards current.id ≠ 0 || db.incompleteDiscoveryShards previous.id = 0
  | _ => true

theorem confirmed_iff {db : Db} {run : ScanRun} :
    db.Confirmed run ↔ db.incompleteDiscoveryShards run.id = 0 := by
  rw [Db.incompleteDiscoveryShards, Table.count_eq_zero]
  refine forall₂_congr fun shard _ => ?_
  rw [← Bool.not_eq_true]
  simp only [Bool.and_eq_true, decide_eq_true_eq, List.any_eq_true, not_and,
    Option.isNone_iff_eq_none]
  exact ⟨fun h ⟨hrun, hnone⟩ hany => h hrun hany hnone,
    fun h hrun hany hnone => h ⟨hrun, hnone⟩ hany⟩

/-- The previous run's coverage is not asked for. -/
theorem diff_covered_iff (db : Db) (scopeId profileId : Uuid) :
    ConfirmedPair db (exposureDiff db scopeId profileId) ↔
      db.baselineConfirmed (scopeId, profileId) = true := by
  rw [Db.baselineConfirmed]
  rcases exposureDiff_cases db scopeId profileId with ⟨hruns, hdiff⟩ |
    ⟨current, previous, rest, hruns, rfl, ⟨hcomplete, hdiff⟩ | ⟨hcomplete, hdiff⟩⟩
  · rw [hdiff, hruns]
    exact iff_of_true ⟨nofun, nofun⟩ rfl
  · rw [hdiff, hruns]
    refine iff_of_true ⟨nofun, nofun⟩ ?_
    cases rest with
    | nil => rfl
    | cons => exact Bool.or_eq_true_iff.mpr (Or.inl (decide_eq_true hcomplete))
  · have hcurrent : db.Confirmed current := confirmed_iff.mpr hcomplete
    rw [hdiff, hruns]
    cases rest with
    | nil =>
      refine iff_of_true ⟨fun _ run hrun => ?_, nofun⟩ rfl
      cases hrun
      exact hcurrent
    | cons previous rest =>
      dsimp only
      rw [Bool.or_eq_true, decide_eq_true_eq, decide_eq_true_eq]
      constructor
      · intro hpair
        exact Or.inr (confirmed_iff.mp (hpair.previous rfl previous rfl))
      · intro hcondition
        refine ⟨fun _ run hrun => ?_, fun _ run hrun => ?_⟩
        · cases hrun
          exact hcurrent
        · cases hrun
          exact confirmed_iff.mpr (hcondition.resolve_left fun hne => hne hcomplete)

namespace Demo

/-- The first scan has candidates of a shard that Nmap has not confirmed. -/
def unconfirmed : Db where
  runs := ⟨[completedRun "old" 0, completedRun "new" 1], by decide⟩
  shards := ⟨[{ id := "s1", runId := "old", cidr := "10.80.0.0/24", zone := "default",
                status := .completed }], by decide⟩
  discoveries := ⟨[{ runId := "old", shardId := "s1", address := "10.80.0.10", protocol := "tcp",
                     port := 443 }], by decide⟩
  hosts := ⟨[upHost "h1" "new" "10.80.0.10"], by decide⟩
  services := ⟨[openPort "v1" "h1" 443 "https"], by decide⟩

end Demo

/-- A port the first scan had found, and not confirmed, is reported as opened. -/
theorem unconfirmed_baseline_compared :
    (exposureDiff Demo.unconfirmed "scope" "profile").changes =
        [.portOpened ("10.80.0.10", "tcp", 443) ⟨"https", none, none⟩] ∧
      ¬ ∀ (db : Db) (scopeId profileId : Uuid),
        ConfirmedPair db (exposureDiff db scopeId profileId) := by
  refine ⟨by decide +kernel, fun hall => ?_⟩
  have hconfirmed := (hall Demo.unconfirmed "scope" "profile").previous (by decide +kernel)
    (Demo.completedRun "old" 0) (by decide +kernel)
  exact hconfirmed _ List.mem_cons_self rfl ⟨_, List.mem_cons_self, rfl⟩ rfl

end TransportLookout
