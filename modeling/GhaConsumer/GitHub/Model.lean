import GhaConsumer.Interleave.Pool
import Mathlib.Data.Int.Notation

/-!
# GitHub — installation tokens

`Installations` looks an account's installation id up once, mints
installation tokens against it and keeps the last one in a cache;
`send_authed` sends a request with such a token and, answered 401, drops
the token from the cache, takes another and sends once more. Neither the
lookup nor the mint holds the cache's lock, so what one call does between
two of its own accesses to the cache is left to the others.

An HTTP request is one call, answered from outside. A block under the
cache's lock is one call too: nothing else is done in it but reading the
clock.
-/

namespace GhaConsumer

namespace GitHub

open Interleave

/-- An error and its causes, the outermost first. -/
abbrev Error := List String

/-- Wall-clock time, in nanoseconds from the Unix epoch. -/
abbrev SystemTime := ℤ

def secs (n : ℤ) : ℤ := n * 1000000000

/-- How long a minted token is held before it is refreshed. -/
def tokenTtl : ℤ := secs (50 * 60)

/-- A cached token with less than this left is not served. -/
def refreshMargin : ℤ := secs (5 * 60)

/-- A response's status. -/
structure Status where
  code : ℕ
  /-- What it is printed as. -/
  text : String
  deriving DecidableEq, Repr

def Status.isSuccess (s : Status) : Bool := 200 ≤ s.code && s.code < 300

/-- A response whose body is an `α`. -/
structure Response (α : Type) where
  status : Status
  /-- The body as text, empty if it cannot be read. -/
  text : String
  json : Except Error α
  deriving Repr

/-- What `send().await` comes to: the request may not get through. -/
abbrev Answer (α : Type) := Except Error (Response α)

/-- The claims of an app's JWT. -/
structure Claims where
  iat : ℕ
  exp : ℕ
  iss : ℕ
  deriving DecidableEq, Repr

structure ScopedPermissions where
  contents : Option String
  deriving DecidableEq, Repr

/-- The body of a down-scoped mint. -/
structure ScopedTokenReq where
  repositoryIds : List ℕ
  permissions : ScopedPermissions
  deriving DecidableEq, Repr

/-- A request as `build` makes it: neither the standard headers nor the
token are in it. -/
structure Request where
  method : String
  url : String
  body : Option String
  deriving DecidableEq, Repr

structure CachedToken where
  token : String
  validUntil : SystemTime
  deriving DecidableEq, Repr

/-- More than the margin of its life is left. -/
def CachedToken.isFreshAt (c : CachedToken) (now : SystemTime) : Bool :=
  now + refreshMargin < c.validUntil

/-! ## Calls -/

inductive Op where
  /-- `get_or_try_init` of the installation id: the id, or the turn to
  look it up. -/
  | initEnter
  /-- The lookup's turn ends with an id. -/
  | initSet (id : ℕ)
  /-- The lookup's turn ends without. -/
  | initFail
  | systemTime
  /-- The app's key, read, and the claims encoded with it; an error comes
  with its context. -/
  | sign (claims : Claims)
  /-- GET /users/{account}/installation. -/
  | getInstallation (account jwt : String)
  /-- POST /app/installations/{id}/access_tokens. -/
  | postAccessTokens (id : ℕ) (jwt : String) (body : Option ScopedTokenReq)
  /-- Under the lock: the cached token, if it is fresh. -/
  | readCache
  /-- Under the lock: replace the cached token. -/
  | writeCache (cached : CachedToken)
  /-- `Installations::invalidate`, under the lock. -/
  | invalidate (stale : String)
  /-- Send what `build` made, stamped with the token. -/
  | send (request : Request) (tok : String)
  deriving DecidableEq, Repr

@[reducible] def Resp : Op → Type
  | .initEnter => Option ℕ
  | .systemTime => SystemTime
  | .sign _ => Except Error String
  | .getInstallation .. => Answer ℕ
  | .postAccessTokens .. => Answer String
  | .readCache => Option String
  | .send .. => Answer String
  | _ => Unit

abbrev Program := Prog Resp

/-- One call. -/
abbrev op (o : Op) : Program (Resp o) := Prog.op o

/-! ## `app_jwt` and `Installations` -/

/-- `app_jwt::mint`. -/
def mintJwt (appId : ℕ) : Program (Except Error String) := do
  let now ← op .systemTime
  if now < 0 then
    pure (.error ["system clock before unix epoch"])
  else do
    let secs := now.toNat / 1000000000
    op (.sign { iat := secs - 60, exp := secs + 9 * 60, iss := appId })

/-- What both requests of `Installations` make of an answer: its body,
where it is a success. -/
def received {α : Type} (context what : String) : Answer α → Except Error α
  | .error e => .error (context :: e)
  | .ok resp =>
    if resp.status.isSuccess then resp.json
    else .error [what ++ ": " ++ resp.status.text ++ " " ++ resp.text]

/-- The lookup `installation_id` runs at most once to an id. -/
def lookupInstallation (appId : ℕ) (account : String) : Program (Except Error ℕ) := do
  match ← mintJwt appId with
  | .error e => pure (.error e)
  | .ok jwt =>
    let answer ← op (.getInstallation account jwt)
    pure (received "GET /users/{account}/installation" "installation lookup" answer)

def installationId (appId : ℕ) (account : String) : Program (Except Error ℕ) := do
  match ← op .initEnter with
  | some id => pure (.ok id)
  | none =>
    match ← lookupInstallation appId account with
    | .error e =>
      op .initFail
      pure (.error e)
    | .ok id =>
      op (.initSet id)
      pure (.ok id)

/-- What `token` does where the cache has nothing to serve. -/
def mintToken (appId id : ℕ) : Program (Except Error String) := do
  match ← mintJwt appId with
  | .error e => pure (.error e)
  | .ok jwt =>
    let answer ← op (.postAccessTokens id jwt none)
    match received "POST /app/installations/{id}/access_tokens" "token mint" answer with
    | .error e => pure (.error e)
    | .ok tok =>
      let now ← op .systemTime
      op (.writeCache { token := tok, validUntil := now + tokenTtl })
      pure (.ok tok)

def token (appId : ℕ) (account : String) : Program (Except Error String) := do
  match ← installationId appId account with
  | .error e => pure (.error e)
  | .ok id =>
    match ← op .readCache with
    | some tok => pure (.ok tok)
    | none => mintToken appId id

/-- A mint of its own, which leaves the cache alone. -/
def scopedToken (appId : ℕ) (account : String) (repositoryIds : List ℕ)
    (permissions : ScopedPermissions) : Program (Except Error String) := do
  match ← installationId appId account with
  | .error e => pure (.error e)
  | .ok id =>
    match ← mintJwt appId with
    | .error e => pure (.error e)
    | .ok jwt =>
      let answer ← op (.postAccessTokens id jwt (some ⟨repositoryIds, permissions⟩))
      pure (received "POST /app/installations/{id}/access_tokens (scoped)" "scoped token mint"
        answer)

/-! ## `GhClient` -/

/-- An answer with the caller's context on its error. -/
def withContext {α : Type} (ctx : String) : Answer α → Answer α
  | .error e => .error (ctx :: e)
  | .ok resp => .ok resp

/-- `send_authed`. -/
def sendAuthed (appId : ℕ) (account ctx : String) (build : Request) :
    Program (Answer String) := do
  match ← token appId account with
  | .error e => pure (.error e)
  | .ok tok =>
    match withContext ctx (← op (.send build tok)) with
    | .error e => pure (.error e)
    | .ok resp =>
      if resp.status.code ≠ 401 then pure (.ok resp)
      else do
        op (.invalidate tok)
        match ← token appId account with
        | .error e => pure (.error e)
        | .ok tok => do
          let answer ← op (.send build tok)
          pure (withContext ctx answer)

/-- `contents_read_token`. -/
def contentsReadToken (appId : ℕ) (account : String) (repoId : ℕ) :
    Program (Except Error String) :=
  scopedToken appId account [repoId] { contents := some "read" }

/-! ## The machine -/

/-- The installation id's cell: empty, being filled by a thread, or
filled. -/
inductive Cell where
  | empty
  | filling (t : Tid)
  | filled (id : ℕ)
  deriving DecidableEq, Repr

/-- What the callers share: the two fields of `Installations`, the clock,
and the tokens GitHub has returned so far. -/
structure World where
  cell : Cell
  cache : Option CachedToken
  now : SystemTime
  minted : List String
  deriving DecidableEq, Repr

/-- What an operation leaves open. -/
@[reducible] def Oracle : Op → Type
  | .sign _ => Except Error String
  | .getInstallation .. => Answer ℕ
  | .postAccessTokens .. => Answer String
  | .send .. => Answer String
  | _ => Unit

/-- The token of a successful mint. -/
def issued : Answer String → Option String
  | .ok ⟨status, _, .ok tok⟩ => if status.isSuccess then some tok else none
  | _ => none

/-- A mint returns a token never returned before. -/
def mintStep (a : Answer String) (w : World) : Option (Answer String × World) :=
  match issued a with
  | none => some (a, w)
  | some tok => if tok ∈ w.minted then none else some (a, { w with minted := tok :: w.minted })

/-- What the cache serves at `now`. -/
def served (cache : Option CachedToken) (now : SystemTime) : Option String :=
  match cache with
  | none => none
  | some c => if c.isFreshAt now then some c.token else none

/-- `Installations::invalidate`: the cached token goes only if it is the
stale one. -/
def invalidated (stale : String) (cache : Option CachedToken) : Option CachedToken :=
  match cache with
  | none => none
  | some c => if c.token = stale then none else some c

def step (t : Tid) : (o : Op) → Oracle o → World → Option (Resp o × World)
  | .initEnter, _, w =>
    match w.cell with
    | .empty => some (none, { w with cell := .filling t })
    | .filling _ => none
    | .filled id => some (some id, w)
  | .initSet id, _, w => some ((), { w with cell := .filled id })
  | .initFail, _, w => some ((), { w with cell := .empty })
  | .systemTime, _, w => some (w.now, w)
  | .sign _, r, w => some (r, w)
  | .getInstallation .., r, w => some (r, w)
  | .postAccessTokens .., a, w => mintStep a w
  | .readCache, _, w => some (served w.cache w.now, w)
  | .writeCache cached, _, w => some ((), { w with cache := some cached })
  | .invalidate stale, _, w => some ((), { w with cache := invalidated stale w.cache })
  | .send .., r, w => some (r, w)

/-- What uses one `Installations`. -/
inductive Task where
  | sendAuthed (appId : ℕ) (account ctx : String) (build : Request)
  | contentsReadToken (appId : ℕ) (account : String) (repoId : ℕ)
  deriving DecidableEq, Repr

def body : Task → Program (Option Task)
  | .sendAuthed appId account ctx build => sendAuthed appId account ctx build >>= fun _ => pure none
  | .contentsReadToken appId account repoId =>
    contentsReadToken appId account repoId >>= fun _ => pure none

/-- What moves by itself: time passes. -/
inductive Env where
  | tick (d : ℕ)
  deriving DecidableEq, Repr

/-- A caller dropped while it fills the cell leaves it empty. -/
def Cell.dropped (t : Tid) : Cell → Cell
  | .filling u => if u = t then .empty else .filling u
  | c => c

/-- The callers of one `Installations`, in any order, each of which may be
dropped at any point. -/
@[reducible] def machine : Machine Resp Task World where
  body := body
  Oracle := Oracle
  step := step
  forks _ _ := none
  Env := Env
  env | .tick d, w => some { w with now := w.now + d }
  leave _ w := w
  crash t w := some { w with cell := w.cell.dropped t }

end GitHub

end GhaConsumer
