import GhaConsumer.GitHub.Model
import GhaConsumer.Interleave.Local

/-!
# GitHub — tokens under concurrent callers

Tokens are minted outside the cache's lock and the last writer wins, so
what keeps a rejected token from coming back is who may still write it: a
mint's token is new, so one caller at most has it in hand unwritten
(`Inv.unique`), and a caller rejects only what has been through the cache
(`Inv.given`). A rejected token is then neither cached nor in hand, and
nothing gives it again (`tokens_fresh`).
-/

namespace GhaConsumer

namespace GitHub

open Interleave Trace Entry

/-- What a caller has called. -/
abbrev Own := Interleave.History Resp

/-! ## What a call says of tokens -/

/-- The token a `token()` returns after this call. -/
def gives : Event Resp → Option String
  | ⟨.readCache, tok⟩ => tok
  | ⟨.writeCache cached, _⟩ => some cached.token
  | _ => none

/-- The call a `token()` starts with. -/
def asks : Event Resp → Bool
  | ⟨.initEnter, _⟩ => true
  | _ => false

def sends : Event Resp → Bool
  | ⟨.send .., _⟩ => true
  | _ => false

/-- The token a mint has just returned, in hand and not yet written. -/
def inHand : Own → Option String
  | ⟨.postAccessTokens .., a⟩ :: _ => issued a
  | ⟨.systemTime, _⟩ :: ⟨.postAccessTokens .., a⟩ :: _ => issued a
  | _ => none

/-- The call puts `tok` into the cache. -/
def Writes (tok : String) (e : Event Resp) : Prop :=
  ∃ cached, e = ⟨.writeCache cached, ()⟩ ∧ cached.token = tok

/-- `tok` has been in the cache. -/
def Written (tok : String) (τ : Own) : Prop := ∃ e ∈ τ, Writes tok e

variable {tok tok' : String} {τ σ : Own} {e : Event Resp}

theorem Written.cons (h : Written tok τ) : Written tok (e :: τ) := by
  obtain ⟨e', he', hw⟩ := h
  exact ⟨e', List.mem_cons_of_mem _ he', hw⟩

theorem written_cons : Written tok (e :: τ) ↔ Writes tok e ∨ Written tok τ := by
  constructor
  · rintro ⟨e', he', hw⟩
    rcases List.mem_cons.mp he' with rfl | he'
    · exact .inl hw
    · exact .inr ⟨e', he', hw⟩
  · rintro (hw | h)
    · exact ⟨e, List.mem_cons_self, hw⟩
    · exact h.cons

theorem issued_of_received {context what : String} {a : Answer String}
    (h : received context what a = .ok tok) : issued a = some tok := by
  cases a with
  | error e => cases h
  | ok resp =>
    obtain ⟨status, text, json⟩ := resp
    simp only [received] at h
    split at h
    · rename_i hs
      subst h
      exact if_pos hs
    · cases h

/-! ## What a caller makes sure of -/

/-- The request was answered 401. -/
def Refused (r : Answer String) : Prop := ∃ resp, r = .ok resp ∧ resp.status.code = 401

/-- Every token sent so far was refused, and rejected since. -/
def AllRejected (τ : Own) : Prop :=
  ∀ build tok r, (⟨.send build tok, r⟩ : Event Resp) ∈ τ →
    Refused r ∧ (⟨.invalidate tok, ()⟩ : Event Resp) ∈ τ

/-- What a call is good for, given the caller's calls before it. -/
def Good (τ : Own) : Event Resp → Prop
  | ⟨.initEnter, _⟩ => τ.countP asks < 2
  | ⟨.writeCache cached, _⟩ => inHand τ = some cached.token
  | ⟨.invalidate stale, _⟩ => ∃ build r e σ, τ = ⟨.send build stale, r⟩ :: e :: σ ∧
      Refused r ∧ gives e = some stale
  | ⟨.send _ tok, _⟩ => ∃ e σ, τ = e :: σ ∧ gives e = some tok ∧ σ.countP sends < 2 ∧
      AllRejected σ
  | _ => True

/-- A caller has asked for `a` tokens and sent `n` requests, and has
rejected what it sent. -/
structure Between (a n : ℕ) (τ : Own) : Prop where
  asks : τ.countP asks = a
  sends : τ.countP sends = n
  rejected : AllRejected τ

/-- The call neither asks for a token nor sends one. -/
def Quiet : Op → Prop
  | .initEnter | .writeCache _ | .invalidate _ | .send .. => False
  | _ => True

variable {a n : ℕ} {o : Op} {r : Resp o}

theorem Between.nil : Between 0 0 [] :=
  ⟨rfl, rfl, fun _ _ _ h => by cases h⟩

theorem AllRejected.cons (h : AllRejected τ) (he : sends e = false) : AllRejected (e :: τ) := by
  intro build tok r hmem
  rcases List.mem_cons.mp hmem with rfl | hmem
  · cases he
  · obtain ⟨hr, hi⟩ := h build tok r hmem
    exact ⟨hr, List.mem_cons_of_mem _ hi⟩

theorem Between.cons (h : Between a n τ) (ha : GitHub.asks e = false)
    (hs : GitHub.sends e = false) : Between a n (e :: τ) :=
  ⟨by rw [List.countP_cons_of_neg (by simp [ha]), h.asks],
    by rw [List.countP_cons_of_neg (by simp [hs]), h.sends], h.rejected.cons hs⟩

theorem Between.cons_quiet (h : Between a n τ) (ho : Quiet o) : Between a n (⟨o, r⟩ :: τ) := by
  cases o <;> first | exact h.cons rfl rfl | exact ho.elim

theorem Between.cons_gives (h : Between a n τ) (hg : gives e = some tok) :
    Between a n (e :: τ) := by
  obtain ⟨o, r⟩ := e
  cases o <;> first | exact h.cons rfl rfl | cases hg

theorem good_of_quiet (ho : Quiet o) : Good τ ⟨o, r⟩ := by
  cases o <;> trivial

theorem quiet_triple {α : Type} {p : Program α} (hp : p.Only Quiet) :
    Triple Good (Between a n) p fun _ => Between a n :=
  Triple.only hp fun _ _ _ ho hτ => ⟨good_of_quiet ho, hτ.cons_quiet ho⟩

theorem mintJwt_quiet (appId : ℕ) : (mintJwt appId).Only Quiet := by
  refine .step trivial fun now => ?_
  split
  · trivial
  · exact Prog.only_op trivial

theorem lookupInstallation_quiet (appId : ℕ) (account : String) :
    (lookupInstallation appId account).Only Quiet := by
  refine (mintJwt_quiet appId).bind fun jwt => ?_
  split
  · trivial
  · exact .step trivial fun _ => trivial

/-- The one call that asks. -/
theorem installationId_triple (ha : a < 2) (appId : ℕ) (account : String) :
    Triple Good (Between a n) (installationId appId account) fun _ => Between (a + 1) n := by
  refine Triple.step (B := fun _ => Between (a + 1) n) (fun τ r hτ => ⟨?_, ?_⟩) fun id => ?_
  · show τ.countP asks < 2
    rw [hτ.asks]
    exact ha
  · refine ⟨?_, ?_, hτ.rejected.cons rfl⟩
    · rw [List.countP_cons_of_pos rfl, hτ.asks]
    · rw [List.countP_cons_of_neg (by simp [sends]), hτ.sends]
  · cases id with
    | some id => exact Triple.ret fun _ hτ => hτ
    | none =>
      refine (quiet_triple (lookupInstallation_quiet appId account)).bind fun id => ?_
      cases id with
      | error e => exact quiet_triple (.step trivial fun _ => trivial)
      | ok id => exact quiet_triple (.step trivial fun _ => trivial)

/-- A token returned is what the last call gave. -/
def Given (a n : ℕ) (r : Except Error String) (τ : Own) : Prop :=
  ∀ tok, r = .ok tok → ∃ e σ, τ = e :: σ ∧ gives e = some tok ∧ Between a n σ

theorem given_error {err : Error} : Given a n (.error err) τ := fun _ h => by cases h

theorem mintToken_triple (appId id : ℕ) :
    Triple Good (Between a n) (mintToken appId id) (Given a n) := by
  refine (quiet_triple (mintJwt_quiet appId)).bind fun jwt => ?_
  cases jwt with
  | error err => exact Triple.ret fun _ _ => given_error
  | ok jwt =>
    refine Triple.step
      (B := fun r τ => Between a n τ ∧ ∃ σ, τ = ⟨.postAccessTokens id jwt none, r⟩ :: σ)
      (fun τ r hτ => ⟨trivial, hτ.cons rfl rfl, τ, rfl⟩) fun answer => ?_
    split
    · exact Triple.ret fun _ _ => given_error
    · rename_i tok hrec
      have hissued := issued_of_received hrec
      refine Triple.step (B := fun _ τ => Between a n τ ∧ inHand τ = some tok)
        (fun τ now hτ => ⟨trivial, hτ.1.cons rfl rfl, ?_⟩) fun now => ?_
      · -- the clock is read between the mint and the write
        obtain ⟨σ, rfl⟩ := hτ.2
        exact hissued
      · refine Triple.step (B := fun _ => Given a n (.ok tok))
          (fun τ r hτ => ⟨hτ.2, fun tok' h => ?_⟩) fun _ => Triple.ret fun _ hτ => hτ
        cases h
        exact ⟨_, τ, rfl, rfl, hτ.1⟩

theorem token_triple (ha : a < 2) (appId : ℕ) (account : String) :
    Triple Good (Between a n) (token appId account) (Given (a + 1) n) := by
  refine (installationId_triple ha appId account).bind fun id => ?_
  cases id with
  | error err => exact Triple.ret fun _ _ => given_error
  | ok id =>
    refine Triple.step
      (B := fun r τ => Between (a + 1) n τ ∧ ∀ tok, r = some tok → Given (a + 1) n (.ok tok) τ)
      (fun τ r hτ => ⟨trivial, hτ.cons rfl rfl, fun tok h tok' h' => ?_⟩) fun cached => ?_
    · cases h
      cases h'
      exact ⟨_, τ, rfl, rfl, hτ⟩
    · cases cached with
      | some tok => exact Triple.ret fun τ hτ => hτ.2 tok rfl
      | none => exact (mintToken_triple appId id).pre fun τ hτ => hτ.1

/-- One request, with the token just given. -/
theorem send_step {build : Request} (hn : n < 2) (hτ : Given a n (.ok tok) τ)
    (r : Answer String) : Good τ ⟨.send build tok, r⟩ := by
  obtain ⟨e, σ, rfl, hg, hσ⟩ := hτ tok rfl
  exact ⟨e, σ, rfl, hg, hσ.sends.symm ▸ hn, hσ.rejected⟩

/-- What was sent with the token just given and refused is rejected. -/
theorem invalidate_step {build : Request} {r : Answer String} (hr : Refused r)
    (hτ : Given a n (.ok tok) τ) :
    Good (⟨.send build tok, r⟩ :: τ) ⟨.invalidate tok, ()⟩ ∧
      Between a (n + 1) (⟨.invalidate tok, ()⟩ :: ⟨.send build tok, r⟩ :: τ) := by
  obtain ⟨e, σ, rfl, hg, hσ⟩ := hτ tok rfl
  have hτ := hσ.cons_gives hg
  refine ⟨⟨build, r, e, σ, rfl, hr, hg⟩, ?_, ?_, fun build' tok' r' hmem => ?_⟩
  · rw [List.countP_cons_of_neg (by simp [asks]), List.countP_cons_of_neg (by simp [asks]), hτ.asks]
  · rw [List.countP_cons_of_neg (by simp [sends]), List.countP_cons_of_pos rfl, hτ.sends]
  · rcases List.mem_cons.mp hmem with heq | hmem
    · cases heq
    · rcases List.mem_cons.mp hmem with heq | hmem
      · cases heq
        exact ⟨hr, List.mem_cons_self⟩
      · obtain ⟨hr', hi⟩ := hτ.rejected build' tok' r' hmem
        exact ⟨hr', List.mem_cons_of_mem _ (List.mem_cons_of_mem _ hi)⟩

/-- What `send_authed` does on a 401. -/
def resend (appId : ℕ) (account ctx : String) (build : Request) (tok : String) :
    Program (Answer String) := do
  op (.invalidate tok)
  match ← token appId account with
  | .error e => pure (.error e)
  | .ok tok => do
    let answer ← op (.send build tok)
    pure (withContext ctx answer)

theorem sendAuthed_triple (appId : ℕ) (account ctx : String) (build : Request) :
    Triple Good (Between 0 0) (sendAuthed appId account ctx build) fun _ _ => True := by
  refine (token_triple (by decide) appId account).bind fun r => ?_
  cases r with
  | error err => exact Triple.ret fun _ _ => trivial
  | ok tok =>
    refine Triple.step (B := fun r τ => ∃ σ, τ = ⟨.send build tok, r⟩ :: σ ∧ Given 1 0 (.ok tok) σ)
      (fun τ r hτ => ⟨send_step (by decide) hτ r, τ, rfl, hτ⟩) fun answer => ?_
    cases answer with
    | error err => exact Triple.ret fun _ _ => trivial
    | ok resp =>
      show Triple Good _ (if resp.status.code ≠ 401 then pure (.ok resp) else
        resend appId account ctx build tok) fun _ _ => True
      split
      · exact Triple.ret fun _ _ => trivial
      · rename_i hcode
        refine Triple.step (B := fun _ => Between 1 1) (fun τ r hτ => ?_) fun _ => ?_
        · obtain ⟨σ, rfl, hσ⟩ := hτ
          exact invalidate_step ⟨resp, rfl, not_not.mp hcode⟩ hσ
        · refine (token_triple (by decide) appId account).bind fun r => ?_
          cases r with
          | error err => exact Triple.ret fun _ _ => trivial
          | ok tok =>
            exact Triple.step (B := fun _ _ => True)
              (fun τ r hτ => ⟨send_step (by decide) hτ r, trivial⟩)
              fun _ => Triple.ret fun _ _ => trivial

theorem scopedToken_triple (appId : ℕ) (account : String) (repositoryIds : List ℕ)
    (permissions : ScopedPermissions) :
    Triple Good (Between 0 0) (scopedToken appId account repositoryIds permissions)
      fun _ _ => True := by
  refine (installationId_triple (by decide) appId account).bind fun id => ?_
  cases id with
  | error err => exact Triple.ret fun _ _ => trivial
  | ok id =>
    refine (quiet_triple (mintJwt_quiet appId)).bind fun jwt => ?_
    cases jwt with
    | error err => exact Triple.ret fun _ _ => trivial
    | ok jwt =>
      have hpost : (op (.postAccessTokens id jwt (some ⟨repositoryIds, permissions⟩)) >>= fun answer =>
          pure (received "POST /app/installations/{id}/access_tokens (scoped)" "scoped token mint"
            answer)).Only Quiet := .step trivial fun _ => trivial
      exact (quiet_triple hpost).post fun _ _ _ => trivial

/-- The callers' habits. -/
@[reducible] def habits : Habits machine where
  good _ _ := Good
  pre _ _ τ := τ = []

theorem sound_habits : habits.Sound := by
  refine ⟨fun t k => ?_, fun h => by cases h⟩
  have hnil : ∀ τ : Own, τ = [] → Between 0 0 τ := by
    rintro τ rfl
    exact Between.nil
  cases k with
  | sendAuthed appId account ctx build =>
    exact ((sendAuthed_triple appId account ctx build).pre hnil).bind fun _ =>
      Triple.ret fun _ _ => trivial
  | contentsReadToken appId account repoId =>
    exact ((scopedToken_triple appId account _ _).pre hnil).bind fun _ =>
      Triple.ret fun _ _ => trivial

/-! ## What a step does to the tokens -/

/-- The call leaves the cache and what GitHub has minted as they are, and
says nothing of a token. -/
structure Mute (w w' : World) (e : Event Resp) : Prop where
  cache : w'.cache = w.cache
  minted : w'.minted = w.minted
  gives : gives e = none
  inHand : ∀ τ tok, inHand (e :: τ) = some tok → inHand τ = some tok
  keeps : ∀ stale, e ≠ ⟨.invalidate stale, ()⟩

/-- What one call does to the tokens. -/
inductive Moves (w w' : World) : Event Resp → Prop
  | mint {id : ℕ} {jwt : String} {scope : Option ScopedTokenReq} {a : Answer String} {tok : String}
      (issued : issued a = some tok) (new : tok ∉ w.minted) (minted : w'.minted = tok :: w.minted)
      (cache : w'.cache = w.cache) : Moves w w' ⟨.postAccessTokens id jwt scope, a⟩
  | read {cached : CachedToken} (held : w.cache = some cached) (same : w' = w) :
      Moves w w' ⟨.readCache, some cached.token⟩
  | write {cached : CachedToken} (cache : w'.cache = some cached) (minted : w'.minted = w.minted) :
      Moves w w' ⟨.writeCache cached, ()⟩
  | drop {stale : String} (cache : w'.cache = invalidated stale w.cache)
      (minted : w'.minted = w.minted) : Moves w w' ⟨.invalidate stale, ()⟩
  | mute {e : Event Resp} (mute : Mute w w' e) : Moves w w' e

/-- A call that is neither a mint nor a look at the cache. -/
theorem mute_of_rfl {w w' : World} (hcache : w'.cache = w.cache) (hminted : w'.minted = w.minted)
    (hgives : gives e = none) (hhand : ∀ τ, inHand (e :: τ) = none)
    (hkeeps : ∀ stale, e ≠ ⟨.invalidate stale, ()⟩) : Moves w w' e := by
  refine .mute ⟨hcache, hminted, hgives, fun τ tok h => ?_, hkeeps⟩
  rw [hhand τ] at h
  cases h

/-- The clock may be read between a mint and the write. -/
theorem inHand_of_systemTime {now : SystemTime}
    (h : inHand ((⟨.systemTime, now⟩ : Event Resp) :: τ) = some tok) : inHand τ = some tok := by
  unfold inHand at h
  split at h
  · rename_i heq
    cases heq
  · rename_i heq
    cases heq
    exact h
  · cases h

theorem served_cases (cache : Option CachedToken) (now : SystemTime) :
    served cache now = none ∨
      ∃ cached, cache = some cached ∧ served cache now = some cached.token := by
  cases cache with
  | none => exact .inl rfl
  | some cached =>
    by_cases hfresh : cached.isFreshAt now = true
    · exact .inr ⟨cached, rfl, if_pos hfresh⟩
    · exact .inl (if_neg hfresh)

theorem moves_of_step {t : Tid} {q : Oracle o} {w w' : World} (h : step t o q w = some (r, w')) :
    Moves w w' ⟨o, r⟩ := by
  cases o with
  | initEnter =>
    simp only [step] at h
    split at h
    · cases h
      exact mute_of_rfl rfl rfl rfl (fun _ => rfl) fun _ h => by cases h
    · cases h
    · cases h
      exact mute_of_rfl rfl rfl rfl (fun _ => rfl) fun _ h => by cases h
  | systemTime =>
    cases h
    exact .mute ⟨rfl, rfl, rfl, fun _ _ => inHand_of_systemTime, fun _ h => by cases h⟩
  | postAccessTokens id jwt scope =>
    have h : mintStep q w = some (r, w') := h
    unfold mintStep at h
    split at h
    · rename_i hnone
      cases h
      exact mute_of_rfl rfl rfl rfl (fun _ => hnone) fun _ h => by cases h
    · rename_i tok hissued
      split at h
      · cases h
      · rename_i hnew
        cases h
        exact .mint hissued hnew rfl rfl
  | readCache =>
    have h : some (served w.cache w.now, w) = some (r, w') := h
    obtain ⟨hr, rfl⟩ := Prod.mk.inj (Option.some.inj h)
    rcases served_cases w.cache w.now with hnone | ⟨cached, hheld, hserved⟩
    · obtain rfl : r = none := hr.symm.trans hnone
      exact mute_of_rfl rfl rfl rfl (fun _ => rfl) fun _ h => by cases h
    · obtain rfl : r = some cached.token := hr.symm.trans hserved
      exact .read hheld rfl
  | writeCache cached =>
    cases h
    exact .write rfl rfl
  | invalidate stale =>
    cases h
    exact .drop rfl rfl
  | initSet id | initFail | sign claims | getInstallation account jwt | send build tok =>
    cases h
    exact mute_of_rfl rfl rfl rfl (fun _ => rfl) fun _ h => by cases h

theorem mem_of_invalidated {stale : String} {cache : Option CachedToken} {x : CachedToken}
    (h : invalidated stale cache = some x) : cache = some x ∧ x.token ≠ stale := by
  unfold invalidated at h
  split at h
  · cases h
  · split at h
    · cases h
    · rename_i hne
      cases h
      exact ⟨rfl, hne⟩

theorem invalidated_of_ne {stale : String} {x : CachedToken} (h : x.token ≠ stale) :
    invalidated stale (some x) = some x :=
  if_neg h

/-! ## Where a token can be -/

/-- Where the tokens are after the calls `τ`, of which `hist` are each
caller's: minted, then in the hand of one caller, then written, and once
rejected neither cached nor in hand. -/
structure Inv (w : World) (τ : Own) (hist : Tid → Own) : Prop where
  history : ∀ t e, e ∈ hist t → e ∈ τ
  cached : ∀ x, w.cache = some x → Written x.token τ
  written : ∀ tok, Written tok τ → tok ∈ w.minted
  hand : ∀ t tok, inHand (hist t) = some tok → tok ∈ w.minted ∧ ¬Written tok τ
  unique : ∀ t u tok, inHand (hist t) = some tok → inHand (hist u) = some tok → t = u
  given : ∀ e tok, e ∈ τ → gives e = some tok → Written tok τ
  rejected : ∀ stale, (⟨.invalidate stale, ()⟩ : Event Resp) ∈ τ →
    Written stale τ ∧ ∀ x, w.cache = some x → x.token ≠ stale
  fresh : ∀ e σ tok, e :: σ <:+ τ → gives e = some tok →
    (⟨.invalidate tok, ()⟩ : Event Resp) ∉ σ

/-- The callers' histories after a call of `t`. -/
abbrev afterCall (hist : Tid → Own) (t : Tid) (e : Event Resp) : Tid → Own :=
  Function.update hist t (e :: hist t)

variable {w w' : World} {hist : Tid → Own} {t : Tid}

theorem Inv.history_cons (h : Inv w τ hist) (u : Tid) (e' : Event Resp)
    (he : e' ∈ afterCall hist t e u) : e' ∈ e :: τ := by
  rcases eq_or_ne u t with rfl | hut
  · rw [afterCall, Function.update_self] at he
    rcases List.mem_cons.mp he with rfl | he
    · exact List.mem_cons_self
    · exact List.mem_cons_of_mem _ (h.history u e' he)
  · rw [afterCall, Function.update_of_ne hut] at he
    exact List.mem_cons_of_mem _ (h.history u e' he)

theorem Inv.fresh_cons (h : Inv w τ hist)
    (he : ∀ tok, gives e = some tok → (⟨.invalidate tok, ()⟩ : Event Resp) ∉ τ) (e' : Event Resp)
    (σ : Own) (tok : String) (hsuf : e' :: σ <:+ e :: τ) (hg : gives e' = some tok) :
    (⟨.invalidate tok, ()⟩ : Event Resp) ∉ σ := by
  rcases List.suffix_cons_iff.mp hsuf with heq | hsuf
  · cases heq
    exact he tok hg
  · exact h.fresh e' σ tok hsuf hg

/-- What is in hand after a call of `t` that leaves nothing in its hand. -/
theorem inHand_of_afterCall (hnone : inHand (e :: hist t) = none) {u : Tid}
    (h : inHand (afterCall hist t e u) = some tok) : u ≠ t ∧ inHand (hist u) = some tok := by
  rcases eq_or_ne u t with rfl | hut
  · rw [afterCall, Function.update_self, hnone] at h
    cases h
  · rw [afterCall, Function.update_of_ne hut] at h
    exact ⟨hut, h⟩

/-- A call that leaves the cache as it is, gives only what is cached, and
takes only new tokens in hand. -/
theorem Inv.keep (h : Inv w τ hist) (hcache : w'.cache = w.cache)
    (hminted : ∀ tok ∈ w.minted, tok ∈ w'.minted) (hwrites : ∀ tok, ¬Writes tok e)
    (hkeeps : ∀ stale, e ≠ ⟨.invalidate stale, ()⟩)
    (hgives : ∀ tok, gives e = some tok → ∃ x, w.cache = some x ∧ x.token = tok)
    (hhand : ∀ tok, inHand (e :: hist t) = some tok →
      inHand (hist t) = some tok ∨ tok ∉ w.minted ∧ tok ∈ w'.minted) :
    Inv w' (e :: τ) (afterCall hist t e) := by
  have hback : ∀ tok, Written tok (e :: τ) → Written tok τ := fun tok hw =>
    (written_cons.mp hw).resolve_left (hwrites tok)
  -- what a caller has in hand it had, or nobody has had
  have hcases : ∀ u tok, inHand (afterCall hist t e u) = some tok →
      inHand (hist u) = some tok ∨ u = t ∧ tok ∉ w.minted ∧ tok ∈ w'.minted := by
    intro u tok hu
    rcases eq_or_ne u t with rfl | hut
    · rw [afterCall, Function.update_self] at hu
      exact (hhand tok hu).imp_right fun hnew => ⟨rfl, hnew⟩
    · rw [afterCall, Function.update_of_ne hut] at hu
      exact .inl hu
  refine ⟨h.history_cons, fun x hx => ?_, fun tok hw => hminted tok (h.written tok (hback tok hw)),
    fun u tok hu => ?_, fun u v tok hu hv => ?_, fun e' tok he' hg => ?_, fun stale hs => ?_,
    h.fresh_cons fun tok hg hi => ?_⟩
  · rw [hcache] at hx
    exact (h.cached x hx).cons
  · rcases hcases u tok hu with hu | ⟨-, hnew, hin⟩
    · exact ⟨hminted tok (h.hand u tok hu).1, fun hw => (h.hand u tok hu).2 (hback tok hw)⟩
    · exact ⟨hin, fun hw => hnew (h.written tok (hback tok hw))⟩
  · rcases hcases u tok hu with hu | ⟨rfl, hnew, -⟩
    · rcases hcases v tok hv with hv | ⟨-, hnew, -⟩
      · exact h.unique u v tok hu hv
      · exact absurd (h.hand u tok hu).1 hnew
    · rcases hcases v tok hv with hv | ⟨rfl, -, -⟩
      · exact absurd (h.hand v tok hv).1 hnew
      · rfl
  · rcases List.mem_cons.mp he' with rfl | he'
    · obtain ⟨x, hx, rfl⟩ := hgives tok hg
      exact (h.cached x hx).cons
    · exact (h.given e' tok he' hg).cons
  · rcases List.mem_cons.mp hs with heq | hs
    · exact absurd heq.symm (hkeeps stale)
    · rw [hcache]
      exact ⟨(h.rejected stale hs).1.cons, (h.rejected stale hs).2⟩
  · obtain ⟨x, hx, heq⟩ := hgives tok hg
    exact (h.rejected tok hi).2 x hx heq

/-- The write of what is in hand. -/
theorem Inv.write (h : Inv w τ hist) {cached : CachedToken} (hcache : w'.cache = some cached)
    (hminted : w'.minted = w.minted) (hgood : inHand (hist t) = some cached.token) :
    Inv w' (⟨.writeCache cached, ()⟩ :: τ) (afterCall hist t ⟨.writeCache cached, ()⟩) := by
  obtain ⟨hin, hnot⟩ := h.hand t _ hgood
  have hnew : Written cached.token (⟨.writeCache cached, ()⟩ :: τ) :=
    written_cons.mpr (.inl ⟨cached, rfl, rfl⟩)
  -- the only token newly written is the one in hand, which no other task holds
  have hback : ∀ tok, Written tok (⟨.writeCache cached, ()⟩ :: τ) →
      tok = cached.token ∨ Written tok τ := by
    intro tok hw
    rcases written_cons.mp hw with ⟨cached', heq, rfl⟩ | hw
    · cases heq
      exact .inl rfl
    · exact .inr hw
  refine ⟨h.history_cons, fun x hx => ?_, fun tok hw => ?_, fun u tok hu => ?_,
    fun u v tok hu hv => ?_, fun e' tok he' hg => ?_, fun stale hs => ?_,
    h.fresh_cons fun tok hg hi => ?_⟩
  · rw [hcache] at hx
    cases hx
    exact hnew
  · rw [hminted]
    rcases hback tok hw with rfl | hw
    · exact hin
    · exact h.written tok hw
  · obtain ⟨hut, hu⟩ := inHand_of_afterCall rfl hu
    rw [hminted]
    refine ⟨(h.hand u tok hu).1, fun hw => ?_⟩
    rcases hback tok hw with rfl | hw
    · exact hut (h.unique u t _ hu hgood)
    · exact (h.hand u tok hu).2 hw
  · exact h.unique u v tok (inHand_of_afterCall rfl hu).2 (inHand_of_afterCall rfl hv).2
  · rcases List.mem_cons.mp he' with rfl | he'
    · cases hg
      exact hnew
    · exact (h.given e' tok he' hg).cons
  · rcases List.mem_cons.mp hs with heq | hs
    · cases heq
    · refine ⟨(h.rejected stale hs).1.cons, fun x hx heq => ?_⟩
      rw [hcache] at hx
      cases hx
      exact hnot (heq ▸ (h.rejected stale hs).1)
  · cases hg
    exact hnot (h.rejected _ hi).1

/-- The rejection of what the cache has given. -/
theorem Inv.drop (h : Inv w τ hist) {stale : String} (hcache : w'.cache = invalidated stale w.cache)
    (hminted : w'.minted = w.minted) (hwritten : Written stale τ) :
    Inv w' (⟨.invalidate stale, ()⟩ :: τ) (afterCall hist t ⟨.invalidate stale, ()⟩) := by
  have hback : ∀ tok, Written tok (⟨.invalidate stale, ()⟩ :: τ) → Written tok τ := fun tok hw =>
    (written_cons.mp hw).resolve_left fun ⟨_, heq, _⟩ => by cases heq
  have hold : ∀ x, w'.cache = some x → w.cache = some x ∧ x.token ≠ stale := fun x hx =>
    mem_of_invalidated (hcache.symm.trans hx)
  refine ⟨h.history_cons, fun x hx => (h.cached x (hold x hx).1).cons, fun tok hw => ?_,
    fun u tok hu => ?_, fun u v tok hu hv => ?_, fun e' tok he' hg => ?_, fun stale' hs => ?_,
    h.fresh_cons fun tok hg => by cases hg⟩
  · rw [hminted]
    exact h.written tok (hback tok hw)
  · rw [hminted]
    have hu := (inHand_of_afterCall rfl hu).2
    exact ⟨(h.hand u tok hu).1, fun hw => (h.hand u tok hu).2 (hback tok hw)⟩
  · exact h.unique u v tok (inHand_of_afterCall rfl hu).2 (inHand_of_afterCall rfl hv).2
  · rcases List.mem_cons.mp he' with rfl | he'
    · cases hg
    · exact (h.given e' tok he' hg).cons
  · rcases List.mem_cons.mp hs with heq | hs
    · cases heq
      exact ⟨hwritten.cons, fun x hx => (hold x hx).2⟩
    · exact ⟨(h.rejected stale' hs).1.cons, fun x hx => (h.rejected stale' hs).2 x (hold x hx).1⟩

/-- One call keeps the invariant. -/
theorem Inv.call (h : Inv w τ hist) (hm : Moves w w' e) (hgood : Good (hist t) e) :
    Inv w' (e :: τ) (afterCall hist t e) := by
  cases hm with
  | @mint id jwt scope a tok hissued hnew hminted hcache =>
    refine h.keep hcache (fun tok' h' => ?_) (fun _ ⟨_, heq, _⟩ => by cases heq)
      (fun _ heq => by cases heq) (fun _ hg => by cases hg) fun tok' hhand => .inr ?_
    · rw [hminted]
      exact List.mem_cons_of_mem _ h'
    · obtain rfl : tok = tok' := Option.some.inj (hissued.symm.trans hhand)
      rw [hminted]
      exact ⟨hnew, List.mem_cons_self⟩
  | read hheld hsame =>
    subst hsame
    refine h.keep rfl (fun _ h' => h') (fun _ ⟨_, heq, _⟩ => by cases heq)
      (fun _ heq => by cases heq) (fun tok hg => ?_) fun _ hhand => by cases hhand
    exact ⟨_, hheld, Option.some.inj hg⟩
  | write hcache hminted => exact h.write hcache hminted hgood
  | @drop stale hcache hminted =>
    obtain ⟨build, r, g, σ, hhist, -, hg⟩ := hgood
    have hmem : g ∈ hist t := by
      rw [hhist]
      exact List.mem_cons_of_mem _ List.mem_cons_self
    exact h.drop hcache hminted (h.given g stale (h.history t g hmem) hg)
  | mute hmute =>
    refine h.keep hmute.cache (fun tok h' => hmute.minted.symm ▸ h') (fun tok hw => ?_)
      hmute.keeps (fun tok hg => ?_) fun tok hhand => .inl (hmute.inHand _ _ hhand)
    · obtain ⟨cached, rfl, -⟩ := hw
      cases hmute.gives
    · rw [hmute.gives] at hg
      cases hg

/-! ## Runs -/

/-- Callers about to start, with a cell and a cache as `Installations::new`
makes them or, the cell, already filled. -/
structure Start (c : Interleave.Config Resp Task World) : Prop extends habits.Start c where
  cache : c.world.cache = none

variable {Meets : Shared Resp Task World → Entry Resp Task World → Prop}
variable {c₀ c : Interleave.Config Resp Task World}

theorem Inv.run (h₀ : Start c₀) (hr : machine.Run Meets c₀ c) :
    Inv c.world (calls c.trace) fun t => own t c.trace := by
  -- on the run; the monitor's line says what the caller may do next
  induction hr with
  | start =>
    rw [h₀.trace]
    refine ⟨fun _ _ h => (by cases h), fun x hx => ?_, fun _ ⟨_, h, _⟩ => (by cases h),
      fun _ _ h => (by cases h), fun _ _ _ h => (by cases h), fun _ _ h => (by cases h),
      fun _ h => (by cases h), fun _ _ _ h => ?_⟩
    · rw [h₀.cache] at hx
      cases hx
    · cases List.eq_nil_of_suffix_nil h
  | @step c c' e hr hs hm ih =>
    cases hs with
    | @call t k o f q r w hat hq hnew =>
      have hline := sound_habits.line h₀.toStart (hr.step (.call hat hq hnew) hm)
        (List.suffix_refl _)
      have hcall := ih.call (moves_of_step hq) hline
      have hown : (fun u => own u (.did t k o r c.world :: c.trace)) =
          afterCall (fun u => own u c.trace) t ⟨o, r⟩ := by
        funext u
        rcases eq_or_ne u t with rfl | hut
        · rw [own_did, afterCall, Function.update_self]
        · rw [own_did_of_ne hut.symm, afterCall, Function.update_of_ne hut]
      rw [← hown] at hcall
      exact hcall
    | again hat | exit hat => exact ih
    | crash hat hw =>
      cases hw
      exact ⟨ih.history, ih.cached, ih.written, ih.hand, ih.unique, ih.given, ih.rejected, ih.fresh⟩
    | @env e w hw =>
      cases e
      cases hw
      exact ⟨ih.history, ih.cached, ih.written, ih.hand, ih.unique, ih.given, ih.rejected, ih.fresh⟩

/-- A token returned is what the last call gave. -/
theorem gives_of_token {appId : ℕ} {account : String}
    (h : Prog.Steps (token appId account) [] (.ret (.ok tok)) τ) :
    ∃ e σ, τ = e :: σ ∧ gives e = some tok := by
  have hgiven : Given 1 0 (.ok tok) τ :=
    (token_triple (by decide) appId account).returns Between.nil h
  obtain ⟨e, σ, hτ, hg, -⟩ := hgiven tok rfl
  exact ⟨e, σ, hτ, hg⟩

/-- A request is sent with a token given since the last one sent was
rejected. -/
theorem send_fresh (h₀ : Start c₀) (hr : machine.Run Meets c₀ c) {t : Tid} {build : Request}
    {r : Answer String} (hsuf : ⟨.send build tok, r⟩ :: σ <:+ own t c.trace) {build' : Request}
    {r' : Answer String} (hmem : (⟨.send build' tok', r'⟩ : Event Resp) ∈ σ) :
    Refused r' ∧ tok' ≠ tok := by
  obtain ⟨k, w, τ, hτ, rfl⟩ := exists_of_own_suffix hsuf
  obtain ⟨e, σ, hown, hg, -, hall⟩ : Good (own t τ) ⟨.send build tok, r⟩ :=
    sound_habits.line h₀.toStart hr hτ
  have hmem' : (⟨.send build' tok', r'⟩ : Event Resp) ∈ σ := by
    rw [hown] at hmem
    rcases List.mem_cons.mp hmem with rfl | hmem
    · cases hg
    · exact hmem
  obtain ⟨hrefused, hrejected⟩ := hall build' tok' r' hmem'
  refine ⟨hrefused, fun heq => ?_⟩
  subst heq
  have hsuf' : e :: σ <:+ own t τ := hown ▸ List.suffix_refl _
  obtain ⟨k', w', τ', hτ', rfl⟩ := exists_of_own_suffix hsuf'
  exact (Inv.run h₀ hr).fresh e _ _
    (calls_suffix (hτ'.trans ((List.suffix_cons _ _).trans hτ))) hg (mem_calls_of_own hrejected)

theorem countP_le (h₀ : Start c₀) (hr : machine.Run Meets c₀ c) (t : Tid) :
    (own t c.trace).countP sends ≤ 2 ∧ (own t c.trace).countP asks ≤ 2 := by
  have hgood : ∀ e σ, e :: σ <:+ own t c.trace → Good σ e := by
    intro e σ hsuf
    obtain ⟨k, w, τ, hτ, rfl⟩ := exists_of_own_suffix hsuf
    exact sound_habits.line h₀.toStart hr hτ
  refine ⟨History.countP_le fun e σ hsuf he => ?_, History.countP_le fun e σ hsuf he => ?_⟩
  · have hg := hgood e σ hsuf
    obtain ⟨o, r⟩ := e
    cases o with
    | send build tok =>
      obtain ⟨e, σ, rfl, hg, hlt, -⟩ := hg
      have he : sends e = false := by
        obtain ⟨o, r⟩ := e
        cases o <;> first | rfl | cases hg
      rw [List.countP_cons_of_neg (by simp [he])]
      exact hlt
    | _ => cases he
  · have hg := hgood e σ hsuf
    obtain ⟨o, r⟩ := e
    cases o with
    | initEnter => exact hg
    | _ => cases he

/-- **A rejected token stays rejected**, in any order of the callers'
steps. A rejection leaves another token cached; a `token()` whose calls
are `block` returns nothing rejected before its last call; a second
request carries another token than the one refused; and a caller sends
twice and asks for a token twice at most. -/
theorem tokens_fresh (h₀ : Start c₀) (hr : machine.Run Meets c₀ c) :
    (∀ t k stale c', machine.Step c (some (.did t k (.invalidate stale) () c.world)) c' →
      ∀ x, c.world.cache = some x → x.token ≠ stale → c'.world.cache = some x) ∧
    (∀ appId account tok block earlier t k o r w τ,
      Prog.Steps (token appId account) [] (.ret (.ok tok)) block →
      .did t k o r w :: τ <:+ c.trace → own t (.did t k o r w :: τ) = block ++ earlier →
      (⟨.invalidate tok, ()⟩ : Event Resp) ∉ calls τ) ∧
    (∀ t build tok r σ, ⟨.send build tok, r⟩ :: σ <:+ own t c.trace →
      ∀ build' tok' r', (⟨.send build' tok', r'⟩ : Event Resp) ∈ σ → Refused r' ∧ tok' ≠ tok) ∧
    ∀ t, (own t c.trace).countP sends ≤ 2 ∧ (own t c.trace).countP asks ≤ 2 := by
  refine ⟨fun t k stale c' hs x hx hne => ?_, ?_, ?_, countP_le h₀ hr⟩
  · cases hs with
    | @call t k o f q r w hat hq hnew =>
      cases hq
      show invalidated stale c.world.cache = some x
      rw [hx]
      exact invalidated_of_ne hne
  · intro appId account tok block earlier t k o r w τ hblock hline hown
    obtain ⟨e, σ, rfl, hg⟩ := gives_of_token hblock
    rw [own_did, List.cons_append] at hown
    obtain ⟨rfl, -⟩ := List.cons.inj hown
    exact (Inv.run h₀ hr).fresh _ _ _ (calls_suffix hline) hg
  · intro t build tok r σ hsuf build' tok' r' hmem
    exact send_fresh h₀ hr hsuf hmem

/-! ## Two callers refused at once -/

def sampleResponse (code : ℕ) (text : String) : Answer String :=
  .ok { status := ⟨code, text⟩, text := "", json := .ok text }

/-- Answers where a mint issues `tok` and a request is answered `code`. -/
def sampleOracle (tok : String) (code : ℕ) : (o : Op) → Oracle o
  | .sign _ => .ok "jwt"
  | .getInstallation .. => .ok { status := ⟨200, "200 OK"⟩, text := "", json := .ok 7 }
  | .postAccessTokens .. => sampleResponse 201 tok
  | .send .. => sampleResponse code ""
  | .initEnter | .initSet _ | .initFail | .systemTime | .readCache | .writeCache _
  | .invalidate _ => ()

/-- Two calls of `send_authed` about to start. -/
def samplePool : Interleave.Config Resp Task World where
  world := { cell := .empty, cache := none, now := 0, minted := [] }
  next := 2
  trace := []
  threads t := if t < 2 then
      let task : Task := .sendAuthed 1 "octocat" "GET /runners" ⟨"GET", "/runners", none⟩
      some (task, body task)
    else none

theorem samplePool_start : Start samplePool := by
  refine ⟨⟨rfl, fun t k p h => ?_⟩, rfl⟩
  have h : (if t < 2 then _ else none) = some (k, p) := h
  split at h
  · rename_i ht
    cases h
    exact ⟨ht, rfl, rfl⟩
  · cases h

/-- Caller 0 mints `tok-1` and caller 1 reads it; both are refused. Caller
0 rejects it and mints `tok-2`, then caller 1 rejects `tok-1` too. -/
def sampleSchedule : List machine.Move :=
  .replicate 11 (.call 0 (sampleOracle "tok-1" 401)) ++
    .replicate 3 (.call 1 (sampleOracle "tok-1" 401)) ++
    .replicate 9 (.call 0 (sampleOracle "tok-2" 401)) ++
    .replicate 4 (.call 1 (sampleOracle "tok-2" 200)) ++ [.call 0 (sampleOracle "tok-2" 200)]

theorem follow_sample :
    (machine.follow (fun _ _ => true) sampleSchedule samplePool).map
      (fun c => (c.world.cache.map CachedToken.token, (own 0 c.trace).countP sends,
        (own 1 c.trace).countP sends)) = some (some "tok-2", 2, 2) := by
  decide +kernel

/-- The second rejection leaves the new token cached, and both callers
send it. -/
theorem tokens_fresh_sample :
    ∃ c : Interleave.Config Resp Task World, machine.Run (fun _ _ => True) samplePool c ∧
      c.world.cache.map CachedToken.token = some "tok-2" ∧ (own 1 c.trace).countP sends = 2 ∧
      ∀ t, (own t c.trace).countP sends ≤ 2 ∧ (own t c.trace).countP asks ≤ 2 := by
  obtain ⟨c, hc, heq⟩ := Option.map_eq_some_iff.mp follow_sample
  obtain ⟨hcache, hcount⟩ := Prod.mk.inj heq
  have hr : machine.Run (fun _ _ => True) samplePool c :=
    (Machine.run_of_follow hc).mono fun _ _ _ => trivial
  exact ⟨c, hr, hcache, (Prod.mk.inj hcount).2, (tokens_fresh samplePool_start hr).2.2.2⟩

end GitHub

end GhaConsumer
