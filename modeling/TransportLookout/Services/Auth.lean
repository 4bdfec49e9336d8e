/-
Who a request comes from: `current_user` and `require_roles` of `auth.py`.

`validate_oidc_token` is PyJWT and stands as a parameter.  It gives the claims of
a token, or none where it raises `PyJWTError`.  The database driver is one too: the
subject of a token is a parameter of a query, and not every JSON value is one the
driver compares with a text column.
-/
import TransportLookout.Library.Table
import TransportLookout.Library.Text

namespace TransportLookout

open Relational

/-- The settings `current_user` reads, with the defaults of `config.py`. -/
structure AuthSettings where
  bootstrapEnabled : Bool := false
  bootstrapToken : String := ""
  oidcIssuer : String := ""
  oidcAudience : String := ""

inductive Role
  | platformAdmin
  | inventoryManager
  | scanOperator
  | auditor
deriving DecidableEq, Repr

structure User where
  subject : String
  role : Role
deriving DecidableEq, Repr

instance : Keyed User String := ⟨User.subject⟩

/-- A claim of a token.  PyJWT before 2.10 leaves the type of `sub` open, so it may be
another JSON value than a text. -/
inductive Claim
  | text (s : String)
  | other (truthy : Bool) (source : String)
deriving DecidableEq, Repr

def Claim.truthy : Claim → Bool
  | .text s => s ≠ ""
  | .other truthy _ => truthy

structure Claims where
  sub : Option Claim
deriving DecidableEq, Repr

/-- What a request raises on the way to its user. -/
inductive AuthError
  | http (statusCode : Nat) (detail : String)
  | typeError
  | database
deriving DecidableEq, Repr

def isAscii (s : String) : Bool := s.toList.all fun c => c.toNat < 128

def isPrintable (s : String) : Bool := s.toList.all fun c => 32 ≤ c.toNat && c.toNat < 127

/-- The text the driver compares with `users.subject`; none where it raises.  A text
it takes is compared as it is, and it takes what is printable ASCII. -/
structure Driver where
  bind : Claim → Option String
  bind_text : ∀ {s t : String}, bind (.text s) = some t → t = s
  printable : ∀ {s : String}, isPrintable s = true → bind (.text s) ≠ none

/-- PostgreSQL's: no NUL character, and a text column is compared with texts only. -/
def postgresBind : Claim → Option String
  | .text s => if '\x00' ∈ s.toList then none else some s
  | .other _ _ => none

def postgres : Driver where
  bind := postgresBind
  bind_text {s t} h := by
    rw [postgresBind] at h
    split at h
    · cases h
    · exact (Option.some.inj h).symm
  printable {s} h := by
    have hnul : '\x00' ∉ s.toList := fun hmem =>
      absurd (List.all_eq_true.mp h '\x00' hmem) (by decide)
    rw [postgresBind, if_neg hnul]
    exact Option.some_ne_none s

/-! ## Tokens -/

/-- `hmac.compare_digest` of two `str`. -/
def compareDigest (a b : String) : Except AuthError Bool :=
  if isAscii a && isAscii b then .ok (a = b) else .error .typeError

def isBearer (authorization : String) : Bool := Text.startsWith "Bearer " authorization

def bearerToken (authorization : String) : String := Text.removePrefix "Bearer " authorization

/-! ## Users -/

section
variable (driver : Driver) (users : Table User)

/-- `query(User).filter_by(subject=subject).one_or_none()`. -/
def findUser (subject : Claim) : Except AuthError (Option User) :=
  match driver.bind subject with
  | none => .error .database
  | some s => .ok (users.get s)

/-- The user of the bootstrap token, created by its first request. -/
def bootstrapUser : Except AuthError (User × Table User) :=
  match findUser driver users (.text "bootstrap-admin") with
  | .error e => .error e
  | .ok (some user) => .ok (user, users)
  | .ok none =>
    let user : User := { subject := "bootstrap-admin", role := .platformAdmin }
    match users.append? [user] with
    | none => .error .database
    | some users => .ok (user, users)

def missingSubject : Except AuthError User :=
  .error (.http 401 "access token missing subject")

variable (validateOidcToken : String → Option Claims)

def oidcUser (token : String) : Except AuthError User :=
  match validateOidcToken token with
  | none => .error (.http 401 "invalid access token")
  | some claims =>
    match claims.sub with
    | none => missingSubject
    | some subject =>
      if subject.truthy then
        match findUser driver users subject with
        | .error e => .error e
        | .ok (some user) => .ok user
        | .ok none => .error (.http 403 "user is not provisioned")
      else missingSubject

variable (settings : AuthSettings)

/-- `current_user` past the bootstrap token. -/
def oidcPath (authorization : String) : Except AuthError (User × Table User) :=
  if settings.oidcIssuer ≠ "" ∧ settings.oidcAudience ≠ "" ∧ isBearer authorization = true then
    match oidcUser driver users validateOidcToken (bearerToken authorization) with
    | .error e => .error e
    | .ok user => .ok (user, users)
  else .error (.http 401 "authentication required")

/-- `current_user`, with the users it leaves. -/
def currentUser (header : Option String) : Except AuthError (User × Table User) :=
  let authorization := header.getD ""
  if settings.bootstrapEnabled = true ∧ settings.bootstrapToken ≠ "" ∧
      isBearer authorization = true then
    match compareDigest (bearerToken authorization) settings.bootstrapToken with
    | .error e => .error e
    | .ok true => bootstrapUser driver users
    | .ok false => oidcPath driver users validateOidcToken settings authorization
  else oidcPath driver users validateOidcToken settings authorization

/-- The dependency `require_roles(*roles)` makes, past its own dependency. -/
def requireRoles (roles : List Role) (user : User) : Except AuthError User :=
  if user.role ∈ roles then .ok user else .error (.http 403 "insufficient role")

/-- The user of a route that depends on `require_roles(*roles)`. -/
def routeUser (header : Option String) (roles : List Role) : Except AuthError User :=
  match currentUser driver users validateOidcToken settings header with
  | .error e => .error e
  | .ok (user, _) => requireRoles roles user

end

end TransportLookout
