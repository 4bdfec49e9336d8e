/-
Every request is given a user or refused.

The two schemes fall through into one another: a bearer token is compared with the
bootstrap token, then validated, then looked up.  Two calls on the way raise what
nothing catches.  `hmac.compare_digest` takes no `str` with a character outside
ASCII, and a driver need not compare a subject that is not a text.
`current_user_decides` says that nothing else does, and that whoever is let in was
let in by one of the schemes.
-/
import TransportLookout.Services.Auth

namespace TransportLookout

open Relational

/-! ## The two schemes -/

section
variable (settings : AuthSettings) (header : Option String)

/-- A bearer token is compared with the bootstrap token. -/
def ComparesTokens : Prop :=
  settings.bootstrapEnabled = true ∧ settings.bootstrapToken ≠ "" ∧
    isBearer (header.getD "") = true

/-- The bearer token is the bootstrap token. -/
def Bootstraps : Prop :=
  ComparesTokens settings header ∧ bearerToken (header.getD "") = settings.bootstrapToken

/-- The bearer token is validated. -/
def AsksOidc : Prop :=
  settings.oidcIssuer ≠ "" ∧ settings.oidcAudience ≠ "" ∧ isBearer (header.getD "") = true ∧
    ¬Bootstraps settings header

/-- Both tokens of the comparison are ASCII. -/
def AsciiTokens : Prop :=
  isAscii (bearerToken (header.getD "")) = true ∧ isAscii settings.bootstrapToken = true

instance : Decidable (ComparesTokens settings header) := inferInstanceAs (Decidable (_ ∧ _))
instance : Decidable (Bootstraps settings header) := inferInstanceAs (Decidable (_ ∧ _))
instance : Decidable (AsksOidc settings header) := inferInstanceAs (Decidable (_ ∧ _))
instance : Decidable (AsciiTokens settings header) := inferInstanceAs (Decidable (_ ∧ _))

end

/-- The subject of a token that validates, where it has one. -/
def SubjectOf (validateOidcToken : String → Option Claims) (token : String) (c : Claim) : Prop :=
  ∃ claims, validateOidcToken token = some claims ∧ claims.sub = some c ∧ c.truthy = true

theorem SubjectOf.unique {validateOidcToken : String → Option Claims} {token : String}
    {c c' : Claim} (h : SubjectOf validateOidcToken token c)
    (h' : SubjectOf validateOidcToken token c') : c = c' := by
  obtain ⟨claims, hclaims, hsub, -⟩ := h
  obtain ⟨claims', hclaims', hsub', -⟩ := h'
  rw [hclaims] at hclaims'
  cases hclaims'
  rw [hsub] at hsub'
  exact Option.some.inj hsub'

/-- `user` comes from the bootstrap token. -/
structure Bootstrapped (settings : AuthSettings) (users : Table User) (header : Option String)
    (user : User) (users' : Table User) : Prop where
  subject : user.subject = "bootstrap-admin"
  enabled : settings.bootstrapEnabled = true
  configured : settings.bootstrapToken ≠ ""
  header : header = some ("Bearer " ++ settings.bootstrapToken)
  /-- It was there, or it is the one row that is new. -/
  users : (user ∈ users.rows ∧ users' = users) ∨
    ((∀ old ∈ users.rows, old.subject ≠ "bootstrap-admin") ∧ user.role = .platformAdmin ∧
      users'.rows = users.rows ++ [user])

/-- `user` comes from a token of the OIDC provider. -/
structure Provisioned (validateOidcToken : String → Option Claims) (settings : AuthSettings)
    (users : Table User) (header : Option String) (user : User) (users' : Table User) :
    Prop where
  issuer : settings.oidcIssuer ≠ ""
  audience : settings.oidcAudience ≠ ""
  token : ∃ token claims, header = some ("Bearer " ++ token) ∧
    validateOidcToken token = some claims ∧ claims.sub = some (.text user.subject)
  subject : user.subject ≠ ""
  provisioned : user ∈ users.rows
  users : users' = users

/-- The request is refused with 401 or 403. -/
def Refused (e : AuthError) : Prop := ∃ detail, e = .http 401 detail ∨ e = .http 403 detail

def Decided (validateOidcToken : String → Option Claims) (settings : AuthSettings)
    (users : Table User) (header : Option String) :
    Except AuthError (User × Table User) → Prop
  | .ok (user, users') => Bootstrapped settings users header user users' ∨
      Provisioned validateOidcToken settings users header user users'
  | .error e => Refused e

/-- Nothing on the way raises: the tokens that are compared are ASCII, and the subject
that is looked up is one the driver takes, and is the text it takes it for. -/
structure Regular (driver : Driver) (validateOidcToken : String → Option Claims)
    (settings : AuthSettings) (users : Table User) (header : Option String) : Prop where
  ascii : ComparesTokens settings header → AsciiTokens settings header
  subject : AsksOidc settings header →
    ∀ c, SubjectOf validateOidcToken (bearerToken (header.getD "")) c →
      ∃ s, driver.bind c = some s ∧ ∀ user ∈ users.rows, user.subject = s → c = .text s

/-! ## Which scheme answers -/

theorem compareDigest_ascii {a b : String} (ha : isAscii a = true) (hb : isAscii b = true) :
    compareDigest a b = .ok (a = b) := by
  rw [compareDigest, ha, hb]
  rfl

theorem compareDigest_error {a b : String} (h : ¬(isAscii a = true ∧ isAscii b = true)) :
    compareDigest a b = .error .typeError := by
  rw [compareDigest, if_neg]
  rw [Bool.and_eq_true]
  exact h

/-- A bearer token comes from a header that is `Bearer` and the token. -/
theorem header_eq {header : Option String} (h : isBearer (header.getD "") = true) :
    header = some ("Bearer " ++ bearerToken (header.getD "")) := by
  cases header with
  | none => exact absurd h (by decide)
  | some authorization => exact congrArg some (Text.append_removePrefix h).symm

section
variable {driver : Driver} {validateOidcToken : String → Option Claims} {settings : AuthSettings}
  {users : Table User} {header : Option String}

theorem currentUser_typeError (hc : ComparesTokens settings header)
    (h : ¬AsciiTokens settings header) :
    currentUser driver users validateOidcToken settings header = .error .typeError := by
  unfold ComparesTokens at hc
  rw [currentUser, if_pos hc, compareDigest_error h]

theorem currentUser_bootstrap (hb : Bootstraps settings header)
    (h : AsciiTokens settings header) :
    currentUser driver users validateOidcToken settings header = bootstrapUser driver users := by
  obtain ⟨hc, htoken⟩ := hb
  unfold ComparesTokens at hc
  rw [currentUser, if_pos hc, compareDigest_ascii h.1 h.2, decide_eq_true htoken]

theorem currentUser_oidc (hb : ¬Bootstraps settings header)
    (h : ComparesTokens settings header → AsciiTokens settings header) :
    currentUser driver users validateOidcToken settings header =
      oidcPath driver users validateOidcToken settings (header.getD "") := by
  rw [currentUser]
  split
  · next hc =>
    have hne : bearerToken (header.getD "") ≠ settings.bootstrapToken := fun heq => hb ⟨hc, heq⟩
    rw [compareDigest_ascii (h hc).1 (h hc).2, decide_eq_false hne]
  · rfl

/-! ## The bootstrap token -/

theorem findUser_bootstrap : findUser driver users (.text "bootstrap-admin") =
    .ok (users.get "bootstrap-admin") := by
  have htakes : driver.bind (.text "bootstrap-admin") ≠ none := driver.printable (by decide)
  obtain ⟨s, hs⟩ := Option.ne_none_iff_exists'.mp htakes
  rw [findUser, hs, driver.bind_text hs]

variable (driver users) in
/-- The bootstrap token gives its user, who is new only where there was none. -/
theorem bootstrapUser_ok : ∃ user users', bootstrapUser driver users = .ok (user, users') ∧
    user.subject = "bootstrap-admin" ∧
    ((user ∈ users.rows ∧ users' = users) ∨
      ((∀ old ∈ users.rows, old.subject ≠ "bootstrap-admin") ∧ user.role = .platformAdmin ∧
        users'.rows = users.rows ++ [user])) := by
  rw [bootstrapUser, findUser_bootstrap]
  cases hget : users.get "bootstrap-admin" with
  | some user =>
    exact ⟨user, users, rfl, Table.get_key hget, Or.inl ⟨Table.get_mem hget, rfl⟩⟩
  | none =>
    have hnone : ∀ r ∈ [User.mk "bootstrap-admin" .platformAdmin],
        users.get (Keyed.key r) = none := by
      intro r hr
      cases List.mem_singleton.mp hr
      exact hget
    have hnodup : ([User.mk "bootstrap-admin" .platformAdmin].map Keyed.key).Nodup :=
      List.nodup_singleton _
    obtain ⟨users', happend⟩ := Table.append?_of_fresh hnodup hnone
    refine ⟨_, users', ?_, rfl, Or.inr ⟨?_, rfl, Table.rows_append? happend⟩⟩
    · simp only [happend]
    · exact fun _ hold => Table.key_ne_of_get_eq_none hget hold

/-! ## The OIDC provider -/

/-- A token without a subject is refused. -/
theorem oidcUser_refused {token : String} (h : ∀ c, ¬SubjectOf validateOidcToken token c) :
    ∃ detail, oidcUser driver users validateOidcToken token = .error (.http 401 detail) := by
  rw [oidcUser]
  cases hclaims : validateOidcToken token with
  | none => exact ⟨_, rfl⟩
  | some claims =>
    cases hsub : claims.sub with
    | none =>
      simp only [hsub]
      exact ⟨_, rfl⟩
    | some c =>
      by_cases htruthy : c.truthy = true
      · exact absurd ⟨claims, hclaims, hsub, htruthy⟩ (h c)
      · simp only [hsub, if_neg htruthy]
        exact ⟨_, rfl⟩

theorem oidcUser_error {token : String} {c : Claim} (h : SubjectOf validateOidcToken token c)
    (hbind : driver.bind c = none) :
    oidcUser driver users validateOidcToken token = .error .database := by
  obtain ⟨claims, hclaims, hsub, htruthy⟩ := h
  simp only [oidcUser, hclaims, hsub, if_pos htruthy, findUser, hbind]

theorem oidcUser_get {token : String} {c : Claim} {s : String}
    (h : SubjectOf validateOidcToken token c) (hbind : driver.bind c = some s) :
    oidcUser driver users validateOidcToken token =
      match users.get s with
      | some user => .ok user
      | none => .error (.http 403 "user is not provisioned") := by
  obtain ⟨claims, hclaims, hsub, htruthy⟩ := h
  simp only [oidcUser, hclaims, hsub, if_pos htruthy, findUser, hbind]
  cases users.get s with
  | none => rfl
  | some user => rfl

/-- Whoever the bootstrap token lets in presented it. -/
theorem Bootstrapped.bootstraps {user : User} {users' : Table User}
    (h : Bootstrapped settings users header user users') : Bootstraps settings header := by
  have hheader : header.getD "" = "Bearer " ++ settings.bootstrapToken := by
    rw [h.header]
    rfl
  refine ⟨⟨h.enabled, h.configured, ?_⟩, ?_⟩
  · rw [hheader]
    exact Text.startsWith_append _ _
  · rw [hheader]
    exact Text.removePrefix_append _ _

/-- The subject a provisioned user has is the one his token names. -/
theorem Provisioned.subject_eq {user : User} {users' : Table User} {c : Claim}
    (h : Provisioned validateOidcToken settings users header user users')
    (hc : SubjectOf validateOidcToken (bearerToken (header.getD "")) c) :
    c = .text user.subject := by
  obtain ⟨token, claims, hheader, hclaims, hsub⟩ := h.token
  obtain ⟨claims', hclaims', hsub', -⟩ := hc
  have htoken : bearerToken (header.getD "") = token := by
    rw [hheader]
    exact Text.removePrefix_append _ _
  rw [htoken, hclaims] at hclaims'
  cases hclaims'
  rw [hsub] at hsub'
  exact (Option.some.inj hsub').symm

/-- What nothing catches is no refusal. -/
theorem Refused.caught {e : AuthError} (h : Refused e) : e ≠ .database ∧ e ≠ .typeError := by
  obtain ⟨detail, rfl | rfl⟩ := h
  · simp
  · simp

/-- A token with a subject lets its user in, unless the driver raises or compares the
subject with a text it is not. -/
theorem oidcPath_decided_iff {c : Claim} (ho : AsksOidc settings header)
    (hc : SubjectOf validateOidcToken (bearerToken (header.getD "")) c) :
    Decided validateOidcToken settings users header
        (oidcPath driver users validateOidcToken settings (header.getD "")) ↔
      ∃ s, driver.bind c = some s ∧ ∀ user ∈ users.rows, user.subject = s → c = .text s := by
  obtain ⟨hissuer, haudience, hbearer, hboot⟩ := ho
  rw [oidcPath, if_pos ⟨hissuer, haudience, hbearer⟩]
  cases hbind : driver.bind c with
  | none =>
    rw [oidcUser_error hc hbind]
    refine iff_of_false (fun h => h.caught.1 rfl) fun h => ?_
    obtain ⟨s, hs, -⟩ := h
    cases hs
  | some s =>
    rw [oidcUser_get hc hbind]
    cases hget : users.get s with
    | none =>
      exact iff_of_true ⟨_, Or.inr rfl⟩
        ⟨s, rfl, fun _ huser hsubject =>
          absurd hsubject (Table.key_ne_of_get_eq_none hget huser)⟩
    | some user =>
      have hsubject : user.subject = s := Table.get_key hget
      constructor
      · intro h
        cases h with
        | inl h => exact absurd h.bootstraps hboot
        | inr h =>
          refine ⟨s, rfl, fun _ _ _ => ?_⟩
          rw [h.subject_eq hc, hsubject]
      · intro h
        obtain ⟨t, ht, htext⟩ := h
        cases ht
        have heq : c = .text user.subject := by
          rw [htext user (Table.get_mem hget) hsubject, hsubject]
        obtain ⟨claims, hclaims, hsub, htruthy⟩ := hc
        rw [heq] at hsub htruthy
        exact Or.inr
          { issuer := hissuer
            audience := haudience
            token := ⟨_, claims, header_eq hbearer, hclaims, hsub⟩
            subject := of_decide_eq_true htruthy
            provisioned := Table.get_mem hget
            users := rfl }

variable (driver users) in
/-- Where no subject is looked up, the request is refused. -/
theorem oidcPath_refused
    (h : AsksOidc settings header →
      ∀ c, ¬SubjectOf validateOidcToken (bearerToken (header.getD "")) c)
    (hboot : ¬Bootstraps settings header) :
    ∃ detail, oidcPath driver users validateOidcToken settings (header.getD "") =
      .error (.http 401 detail) := by
  rw [oidcPath]
  split
  · next ho =>
    obtain ⟨detail, hdetail⟩ := oidcUser_refused (h ⟨ho.1, ho.2.1, ho.2.2, hboot⟩)
    rw [hdetail]
    exact ⟨detail, rfl⟩
  · exact ⟨_, rfl⟩

end

/-! ## Every request -/

/-- Every request is given a user by one of the schemes or refused, exactly when
nothing on the way raises. -/
theorem current_user_decides (driver : Driver) (validateOidcToken : String → Option Claims)
    (settings : AuthSettings) (users : Table User) (header : Option String) :
    Decided validateOidcToken settings users header
        (currentUser driver users validateOidcToken settings header) ↔
      Regular driver validateOidcToken settings users header := by
  by_cases hascii : ComparesTokens settings header → AsciiTokens settings header
  · by_cases hboot : Bootstraps settings header
    · obtain ⟨user, users', huser, hsubject, hrows⟩ := bootstrapUser_ok driver users
      rw [currentUser_bootstrap hboot (hascii hboot.1), huser]
      have hheader := header_eq hboot.1.2.2
      rw [hboot.2] at hheader
      exact iff_of_true
        (Or.inl ⟨hsubject, hboot.1.1, hboot.1.2.1, hheader, hrows⟩)
        ⟨hascii, fun ho => absurd hboot ho.2.2.2⟩
    · rw [currentUser_oidc hboot hascii]
      by_cases hsub : AsksOidc settings header ∧
          ∃ c, SubjectOf validateOidcToken (bearerToken (header.getD "")) c
      · obtain ⟨ho, c, hc⟩ := hsub
        rw [oidcPath_decided_iff ho hc]
        constructor
        · intro h
          refine ⟨hascii, fun _ c' hc' => ?_⟩
          rw [hc'.unique hc]
          exact h
        · intro h
          exact h.subject ho c hc
      · have hnone : AsksOidc settings header →
            ∀ c, ¬SubjectOf validateOidcToken (bearerToken (header.getD "")) c :=
          fun ho c hc => hsub ⟨ho, c, hc⟩
        obtain ⟨detail, hdetail⟩ := oidcPath_refused driver users hnone hboot
        rw [hdetail]
        exact iff_of_true ⟨detail, Or.inl rfl⟩ ⟨hascii, fun ho c hc => absurd hc (hnone ho c)⟩
  · obtain ⟨hc, hnot⟩ := Classical.not_imp.mp hascii
    rw [currentUser_typeError hc hnot]
    exact iff_of_false (fun h => h.caught.2 rfl) fun h => hascii h.ascii

/-- A bootstrap token is configured and no provider. -/
def Demo.bootstrap : AuthSettings := { bootstrapEnabled := true, bootstrapToken := "secret" }

/-- A bearer token with a character outside ASCII is neither let in nor refused. -/
theorem bearer_not_ascii_raises :
    currentUser postgres Table.empty (fun _ => none) Demo.bootstrap (some "Bearer pässword") =
        .error .typeError ∧
      ¬Decided (fun _ => none) Demo.bootstrap Table.empty (some "Bearer pässword")
        (currentUser postgres Table.empty (fun _ => none) Demo.bootstrap
          (some "Bearer pässword")) := by
  have hraises : currentUser postgres Table.empty (fun _ => none) Demo.bootstrap
      (some "Bearer pässword") = .error .typeError := by
    refine currentUser_typeError ?_ ?_
    · decide
    · decide
  rw [hraises]
  exact ⟨rfl, fun h => h.caught.2 rfl⟩

/-! ## Roles -/

/-- A route that asks for a role lets in only users of one of the schemes who have it,
and refuses every other request. -/
theorem routeUser_decides {driver : Driver} {validateOidcToken : String → Option Claims}
    {settings : AuthSettings} {users : Table User} {header : Option String} (roles : List Role)
    (h : Regular driver validateOidcToken settings users header) :
    match routeUser driver users validateOidcToken settings header roles with
    | .error e => Refused e
    | .ok user => user.role ∈ roles ∧ ∃ users',
        Bootstrapped settings users header user users' ∨
          Provisioned validateOidcToken settings users header user users' := by
  have hdecided := (current_user_decides driver validateOidcToken settings users header).mpr h
  rw [routeUser]
  cases hcurrent : currentUser driver users validateOidcToken settings header with
  | error e =>
    rw [hcurrent] at hdecided
    exact hdecided
  | ok outcome =>
    obtain ⟨user, users'⟩ := outcome
    rw [hcurrent] at hdecided
    by_cases hrole : user.role ∈ roles
    · simp only [requireRoles, if_pos hrole]
      exact ⟨hrole, users', hdecided⟩
    · simp only [requireRoles, if_neg hrole]
      exact ⟨_, Or.inr rfl⟩

end TransportLookout
