import GhaConsumer.GitHub.Model
import GhaConsumer.Interleave.Timed
import Mathlib.Algebra.Order.BigOperators.Group.List
import Mathlib.Algebra.Order.Group.Nat
import Mathlib.Algebra.Order.Ring.Int
import Mathlib.Data.Int.ConditionallyCompleteOrder
import Mathlib.Order.ConditionallyCompleteLattice.Basic
import Mathlib.Tactic.Ring

/-!
# GitHub — how long a call takes

One caller of `send_authed` by the clock. A request ends by its timeout;
all else takes no time, but for the wait in `get_or_try_init`: while the
installation id is not known its callers stand in line, and each whose
turn it is looks the id up, which may fail. A call whose id is known makes
four requests at most (`sendAuthed_known`); one that is not makes five,
after the lookups of those before it in line (`sendAuthed_cold`).
-/

namespace GhaConsumer

namespace GitHub

open Interleave Alone

/-- The installation id is known. -/
def World.Known (w : World) : Prop := ∃ id, w.cell = .filled id

/-- While a call waits time passes, and the other callers go on: they may
fill the cell and do with the cache what they like. -/
structure Passes (d : ℕ) (w w₁ : World) : Prop where
  now : w₁.now = w.now + d
  known : ∀ id, w.cell = .filled id → w₁.cell = .filled id
  filling : w.cell = .filling 0 → w₁.cell = .filling 0
  minted : w.minted ⊆ w₁.minted

/-- How long a call may take: `timeout` for a request, and at the cell as
many lookups as there are callers in line. -/
def limit (timeout line : ℕ) (cell : Cell) : Op → ℕ
  | .initEnter =>
    match cell with
    | .filled _ => 0
    | _ => line * timeout
  | .getInstallation .. | .postAccessTokens .. | .send .. => timeout
  | _ => 0

/-- One call by the clock. -/
def timedStep (timeout line : ℕ) : Alone.Step Resp World := fun o w r w' =>
  ∃ (d : ℕ) (w₁ : World) (q : Oracle o),
    d ≤ limit timeout line w.cell o ∧ Passes d w w₁ ∧ step 0 o q w₁ = some (r, w')

variable {timeout line : ℕ} {o : Op} {r : Resp o} {w w' : World} {appId id : ℕ}
variable {account ctx : String} {build : Request}

/-! ## One call -/

/-- The calls that neither are requests nor touch the cell. -/
def isLocal : Op → Prop
  | .systemTime | .sign _ | .readCache | .writeCache _ | .invalidate _ => True
  | _ => False

/-- The requests. -/
def isRemote : Op → Prop
  | .getInstallation .. | .postAccessTokens .. | .send .. => True
  | _ => False

/-- A call that is not about the cell leaves it, as far as it is known,
and the clock as the others did. -/
theorem known_of_step {q : Oracle o} (h : step 0 o q w = some (r, w'))
    (ho : isLocal o ∨ isRemote o) : w'.now = w.now ∧ w'.cell = w.cell := by
  cases o with
  | initEnter | initSet | initFail => exact absurd ho (by simp [isLocal, isRemote])
  | postAccessTokens =>
    simp only [step, mintStep] at h
    split at h
    · cases h
      exact ⟨rfl, rfl⟩
    · split at h
      · cases h
      · cases h
        exact ⟨rfl, rfl⟩
  | _ =>
    cases h
    exact ⟨rfl, rfl⟩

theorem timed_local (h : timedStep timeout line o w r w') (ho : isLocal o) :
    w'.now = w.now ∧ (w.Known → w'.Known) := by
  obtain ⟨d, w₁, q, hd, hp, hs⟩ := h
  obtain ⟨hnow, hcell⟩ := known_of_step hs (.inl ho)
  have hd : d = 0 := by
    cases o with
    | initEnter | initSet | initFail | getInstallation | postAccessTokens | send => exact ho.elim
    | _ => exact Nat.le_zero.mp hd
  refine ⟨by rw [hnow, hp.now, hd]; simp, fun ⟨id, hid⟩ => ⟨id, ?_⟩⟩
  rw [hcell, hp.known id hid]

theorem timed_remote (h : timedStep timeout line o w r w') (ho : isRemote o) :
    w'.now ≤ w.now + timeout ∧ (w.Known → w'.Known) := by
  obtain ⟨d, w₁, q, hd, hp, hs⟩ := h
  obtain ⟨hnow, hcell⟩ := known_of_step hs (.inr ho)
  have hd : d ≤ timeout := by
    cases o with
    | getInstallation | postAccessTokens | send => exact hd
    | _ => exact ho.elim
  have hle : w₁.now ≤ w.now + timeout := by
    rw [hp.now]
    exact add_le_add_right (Int.ofNat_le.mpr hd) _
  refine ⟨hnow ▸ hle, fun ⟨id, hid⟩ => ⟨id, ?_⟩⟩
  rw [hcell, hp.known id hid]

/-! ## The programs -/

/-- The program takes at most `c`, and returns with `Q`. -/
abbrev Takes (timeout line : ℕ) {α : Type} (A : World → Prop) (c : ℕ) (p : Program α)
    (Q : α → World → Prop) : Prop :=
  Within (timedStep timeout line) World.now A (c : ℤ) p Q

/-- What is kept where the call succeeds: the id is known. -/
def OkKnown {ε α : Type} (r : Except ε α) (w : World) : Prop := r.isOk = true → w.Known

section

variable {α β : Type} {c d : ℕ} {A : World → Prop} {p : Program α} {Q : α → World → Prop}
variable {R : β → World → Prop}

theorem Takes.bind {f : α → Program β} (hp : Takes timeout line A c p Q)
    (hf : ∀ a, Takes timeout line (Q a) d (f a) R) : Takes timeout line A (c + d) (p >>= f) R := by
  have h := Within.bind hp (Int.natCast_nonneg d) hf
  rwa [← Nat.cast_add] at h

theorem Takes.ret {a : α} (h : ∀ w, A w → Q a w) : Takes timeout line A c (.ret a) Q :=
  Within.ret (Int.natCast_nonneg c) h

theorem Takes.mono {A' : World → Prop} {Q' : α → World → Prop} (h : Takes timeout line A c p Q)
    (hc : c ≤ d) (hA : ∀ w, A' w → A w) (hQ : ∀ a w, Q a w → Q' a w) :
    Takes timeout line A' d p Q' :=
  Within.mono h (Int.ofNat_le.mpr hc) hA hQ

/-- One call. -/
theorem Takes.ofStep {Q : Resp o → World → Prop}
    (h : ∀ w r w', A w → timedStep timeout line o w r w' → w'.now ≤ w.now + (c : ℤ) ∧ Q r w') :
    Takes timeout line A c (Prog.op o) Q :=
  fun w hw => ⟨le_add_of_nonneg_right (Int.natCast_nonneg c), fun r w₁ hs => h w r w₁ hw hs⟩

/-- A request, and the rest: an id known stays known. -/
theorem Takes.request {K : Prop} {f : Resp o → Program β} (ho : isRemote o)
    (hf : ∀ r, Takes timeout line (fun w => K → w.Known) d (f r) R) :
    Takes timeout line (fun w => K → w.Known) (timeout + d) (Prog.op o >>= f) R := by
  refine Takes.bind (Q := fun _ w => K → w.Known) (Takes.ofStep fun w r w₁ hw hs => ?_) hf
  obtain ⟨hnow, hknown⟩ := timed_remote hs ho
  exact ⟨hnow, fun hk => hknown (hw hk)⟩

/-- Local work takes no time. -/
theorem Takes.only {K : Prop} (hp : p.Only isLocal) :
    Takes timeout line (fun w => K → w.Known) 0 p fun _ w => K → w.Known :=
  Within.only hp fun _ _ _ _ ho hw hs =>
    ⟨(timed_local hs ho).1.le, fun hk => (timed_local hs ho).2 (hw hk)⟩

end

theorem mintJwt_only : (mintJwt appId).Only isLocal := by
  refine .step trivial fun now => ?_
  split
  · exact trivial
  · exact .step trivial fun _ => trivial

/-- A call at the cell ends when the wait before it does. -/
theorem now_of_cell {q : Oracle o} {w₁ : World} {c d : ℕ} (hd : d ≤ c) (hp : Passes d w w₁)
    (hs : step 0 o q w₁ = some (r, w')) (ho : ¬ isRemote o) : w'.now ≤ w.now + c := by
  have hnow : w'.now = w₁.now := by
    cases o with
    | getInstallation | postAccessTokens | send => exact absurd trivial ho
    | initEnter =>
      simp only [step] at hs
      split at hs <;> cases hs <;> rfl
    | _ =>
      cases hs
      rfl
  rw [hnow, hp.now]
  exact add_le_add_right (Int.ofNat_le.mpr hd) _

/-- The cell gives the id at once where it is known. -/
theorem installationId_known :
    Takes timeout line World.Known 0 (installationId appId account) fun _ => World.Known := by
  intro w hw
  refine ⟨by simp, fun r w₁ hs => ?_⟩
  obtain ⟨d, w₂, q, hd, hp, hs⟩ := hs
  obtain ⟨id, hid⟩ := hw
  have hd : d ≤ limit timeout line (.filled id) .initEnter := hid ▸ hd
  have hnow : w₁.now ≤ w.now + ((0 : ℕ) : ℤ) := now_of_cell hd hp hs fun h => h
  simp only [step, hp.known id hid] at hs
  cases hs
  exact ⟨hnow, id, hp.known id hid⟩

theorem limit_initEnter_le (cell : Cell) : limit timeout line cell .initEnter ≤ line * timeout := by
  cases cell with
  | filled id => exact Nat.zero_le _
  | _ => exact le_refl _

/-- Where the id is not known, a caller stands in line for it or for its
turn to look it up. -/
theorem takes_initEnter : Takes timeout line (fun _ => True) (line * timeout)
    (op .initEnter) fun r w => r.isSome = true → w.Known := by
  refine Takes.ofStep fun w r w' _ hs => ?_
  obtain ⟨d, w₁, q, hd, hp, hs⟩ := hs
  have hnow := now_of_cell (hd.trans (limit_initEnter_le w.cell)) hp hs fun h => h
  refine ⟨hnow, fun hr => ?_⟩
  simp only [step] at hs
  split at hs
  · cases hs
    cases hr
  · cases hs
  · rename_i id hid
    cases hs
    exact ⟨id, hid⟩

/-- The lookup is one request. -/
theorem lookupInstallation_takes : Takes timeout line (fun w => False → w.Known) timeout
    (lookupInstallation appId account) fun _ w => False → w.Known := by
  have h : Takes timeout line (fun w => False → w.Known) (0 + (timeout + 0))
      (lookupInstallation appId account) fun _ w => False → w.Known := by
    refine Takes.bind (Takes.only mintJwt_only) fun r => ?_
    cases r with
    | error e => exact Takes.ret fun _ h => h
    | ok jwt => exact Takes.request trivial fun _ => Takes.ret fun _ h => h
  exact h.mono (by omega) (fun _ h => h) fun _ _ h => h

/-- The end of a turn takes no time. -/
theorem takes_initSet {A : World → Prop} :
    Takes timeout line A 0 (Prog.op (.initSet id)) fun _ w => w.Known := by
  refine Takes.ofStep fun w r w' _ hs => ?_
  obtain ⟨d, w₁, q, hd, hp, hs⟩ := hs
  have hnow := now_of_cell hd hp hs fun h => h
  cases hs
  exact ⟨hnow, id, rfl⟩

theorem takes_initFail {A : World → Prop} :
    Takes timeout line A 0 (Prog.op .initFail) fun _ _ => True := by
  refine Takes.ofStep fun w r w' _ hs => ?_
  obtain ⟨d, w₁, q, hd, hp, hs⟩ := hs
  exact ⟨now_of_cell hd hp hs fun h => h, trivial⟩

/-- Where the id is not known: the line, and a lookup of one's own. -/
theorem installationId_cold : Takes timeout line (fun _ => True) (line * timeout + timeout)
    (installationId appId account) OkKnown := by
  refine Takes.bind takes_initEnter fun r => ?_
  cases r with
  | some id => exact Takes.ret fun w hw _ => hw rfl
  | none =>
    show Takes timeout line _ (timeout + 0) _ _
    refine Takes.bind (lookupInstallation_takes.mono (le_refl _) (fun _ _ h => h.elim)
      fun _ _ h => h) fun r => ?_
    cases r with
    | error e =>
      show Takes timeout line _ (0 + 0) _ _
      exact Takes.bind takes_initFail fun _ => Takes.ret fun _ _ h => by cases h
    | ok id =>
      show Takes timeout line _ (0 + 0) _ _
      exact Takes.bind takes_initSet fun _ => Takes.ret fun _ hw _ => hw

/-- A mint is one request. -/
theorem mintToken_takes :
    Takes timeout line World.Known timeout (mintToken appId id) fun _ => World.Known := by
  have h : Takes timeout line (fun w => True → w.Known) (0 + (timeout + (0 + 0)))
      (mintToken appId id) fun _ w => True → w.Known := by
    refine Takes.bind (Takes.only mintJwt_only) fun r => ?_
    cases r with
    | error e => exact Takes.ret fun _ h => h
    | ok jwt =>
      refine Takes.request trivial fun answer => ?_
      split
      · exact Takes.ret fun _ h => h
      · exact Takes.only (.step trivial fun _ => .step trivial fun _ => trivial)
  exact h.mono (by omega) (fun _ h _ => h) fun _ _ h => h trivial

/-- What `token` does once the id is known: it takes what the cache
serves, or mints. -/
theorem Takes.served {α : Type} {c : ℕ} {A : World → Prop} {f : Option String → Program α} {Q : α → World → Prop}
    (hA : ∀ w, A w → w.Known) (hf : ∀ cached, Takes timeout line World.Known c (f cached) Q) :
    Takes timeout line A c (op .readCache >>= f) Q := by
  have h := Takes.bind (Takes.only (K := True) (p := op .readCache) (.step trivial fun _ => trivial))
    fun cached => (hf cached).mono (le_refl _) (fun _ h => h trivial) fun _ _ h => h
  exact h.mono (by omega) (fun w hw _ => hA w hw) fun _ _ h => h

theorem token_known :
    Takes timeout line World.Known timeout (token appId account) fun _ => World.Known := by
  have h : Takes timeout line World.Known (0 + timeout) (token appId account)
      fun _ => World.Known := by
    refine Takes.bind installationId_known fun r => ?_
    cases r with
    | error e => exact Takes.ret fun _ h => h
    | ok id =>
      refine Takes.served (fun _ h => h) fun cached => ?_
      cases cached with
      | some tok => exact Takes.ret fun _ h => h
      | none => exact mintToken_takes
  exact h.mono (by omega) (fun _ h => h) fun _ _ h => h

theorem token_cold : Takes timeout line (fun _ => True) (line * timeout + 2 * timeout)
    (token appId account) OkKnown := by
  have h : Takes timeout line (fun _ => True) (line * timeout + timeout + timeout)
      (token appId account) OkKnown := by
    refine Takes.bind installationId_cold fun r => ?_
    cases r with
    | error e => exact Takes.ret fun _ _ h => by cases h
    | ok id =>
      refine Takes.served (fun _ h => h rfl) fun cached => ?_
      cases cached with
      | some tok => exact Takes.ret fun _ h _ => h
      | none => exact mintToken_takes.mono (le_refl _) (fun _ h => h) fun _ _ h _ => h
  exact h.mono (by omega) (fun _ h => h) fun _ _ h => h

/-- After its first token `send_authed` makes three requests at most: it
sends, and after a 401 mints and sends once more. -/
theorem sendAuthed_after {c : ℕ} {A : World → Prop} {K : Prop}
    (htok : Takes timeout line A c (token appId account) fun r w => K ∨ r.isOk = true → w.Known) :
    Takes timeout line A (c + 3 * timeout) (sendAuthed appId account ctx build)
      fun a w => K ∨ a.isOk = true → w.Known := by
  have hsum : c + 3 * timeout = c + (timeout + (0 + (timeout + (timeout + 0)))) := by omega
  rw [hsum]
  refine Takes.bind htok fun r => ?_
  cases r with
  | error e => exact Takes.ret fun _ h hk => h (hk.imp id fun h => by cases h)
  | ok tok =>
    refine Takes.mono (Takes.request (K := True) trivial fun answer => ?_) (le_refl _)
      (fun _ h _ => h (.inr rfl)) fun _ _ h => h
    split
    · exact Takes.ret fun _ h _ => h trivial
    · split
      · exact Takes.ret fun _ h _ => h trivial
      · refine Takes.bind (Takes.only (.step trivial fun _ => trivial)) fun _ => ?_
        refine Takes.bind (token_known.mono (le_refl _) (fun _ h => h trivial) fun _ _ h => h)
          fun r => ?_
        cases r with
        | error e => exact Takes.ret fun _ h _ => h
        | ok tok =>
          exact Takes.mono
            (Takes.request (K := True) trivial fun _ => Takes.ret fun _ h _ => h trivial)
            (le_refl _) (fun _ h _ => h) fun _ _ h => h

/-- **Four requests at most where the id is known**: twice a token and the
request itself. -/
theorem sendAuthed_known : Takes timeout line World.Known (4 * timeout)
    (sendAuthed appId account ctx build) fun _ => World.Known := by
  have htok : Takes timeout line World.Known timeout (token appId account)
      fun r w => True ∨ r.isOk = true → w.Known :=
    token_known.mono (le_refl _) (fun _ h => h) fun _ _ h _ => h
  exact (sendAuthed_after htok).mono (by omega) (fun _ h => h) fun _ _ h => h (.inl trivial)

/-- **Five where it is not, after the lookups of those in line**: the
second token finds the id known. -/
theorem sendAuthed_cold : Takes timeout line (fun _ => True) (line * timeout + 5 * timeout)
    (sendAuthed appId account ctx build) OkKnown := by
  have htok : Takes timeout line (fun _ => True) (line * timeout + 2 * timeout)
      (token appId account) fun r w => False ∨ r.isOk = true → w.Known :=
    token_cold.mono (le_refl _) (fun _ h => h) fun _ _ h hk => h (hk.resolve_left id)
  exact (sendAuthed_after htok).mono (by omega) (fun _ h => h) fun _ _ h hk => h (.inr hk)

/-! ## The slowest calls

The bound of four is met: every request may run to its timeout, the first
answer to `send_authed` be a 401, and the cache empty at each look. -/

/-- `d` later, with nothing in the cache. -/
def World.idle (w : World) (d : ℕ) : World := { w with now := w.now + d, cache := none }

theorem passes_idle (w : World) (d : ℕ) : Passes d w (w.idle d) where
  now := rfl
  known _ h := h
  filling h := h
  minted := List.Subset.refl _

/-- One call made after `d`, and the rest. -/
theorem ends_idle {α : Type} {f : Resp o → Program α} {a : α} {w₁ w' : World} {r : Resp o}
    (d : ℕ) (q : Oracle o) (hd : d ≤ limit timeout line w.cell o)
    (hs : step 0 o q (w.idle d) = some (r, w₁)) (hf : Ends (timedStep timeout line) (f r) w₁ a w') :
    Ends (timedStep timeout line) (op o >>= f) w a w' :=
  ends_step.mpr ⟨r, w₁, ⟨d, w.idle d, q, hd, passes_idle w d, hs⟩, hf⟩

/-- There is always another string. -/
theorem exists_fresh (l : List String) : ∃ tok, tok ∉ l := by
  refine ⟨String.ofList (.replicate ((l.map String.length).sum + 1) 'x'), fun h => ?_⟩
  have hle := List.single_le_sum (by simp) _ (List.mem_map_of_mem (f := String.length) h)
  simp only [String.length_ofList, List.length_replicate] at hle
  omega

@[simp] theorem idle_idle (w : World) (d d' : ℕ) : (w.idle d).idle d' = w.idle (d + d') := by
  simp only [World.idle, Nat.cast_add, add_assoc]

/-- A JWT is made at once. -/
theorem ends_mintJwt (hnow : 0 ≤ w.now) :
    Ends (timedStep timeout line) (mintJwt appId) w (.ok "jwt") (w.idle 0) := by
  have hlater : ¬ (w.idle 0).now < 0 := by simpa [World.idle] using hnow
  refine ends_idle 0 () (Nat.zero_le _) rfl ?_
  rw [if_neg hlater]
  refine ends_step.mpr ⟨_, _, ⟨0, _, .ok "jwt", Nat.zero_le _, passes_idle _ 0, rfl⟩, rfl, ?_⟩
  rw [idle_idle]

/-- The answer to a lookup. -/
def found : Answer ℕ := .ok ⟨⟨200, "200 OK"⟩, "", .ok 1⟩

/-- The answer to a mint. -/
def mintedAs (tok : String) : Answer String := .ok ⟨⟨201, "201 Created"⟩, "", .ok tok⟩

def unauthorized : Response String := ⟨⟨401, "401 Unauthorized"⟩, "", .ok ""⟩

def created : Response String := ⟨⟨201, "201 Created"⟩, "", .ok ""⟩

/-- `d` later, with a token just minted in the cache. -/
def World.minting (w : World) (d : ℕ) (tok : String) : World :=
  { w with now := w.now + d, cache := some ⟨tok, w.now + d + tokenTtl⟩, minted := tok :: w.minted }

@[simp] theorem idle_minting (w : World) (d d' : ℕ) (tok : String) :
    (w.idle d).minting d' tok = w.minting (d + d') tok := by
  simp only [World.idle, World.minting, Nat.cast_add, add_assoc]

theorem now_idle (w : World) (d : ℕ) (hnow : 0 ≤ w.now) : 0 ≤ (w.idle d).now :=
  add_nonneg hnow (Int.natCast_nonneg d)

/-- A mint that runs to its timeout. -/
theorem ends_mintToken {tok : String} (hnow : 0 ≤ w.now) (htok : tok ∉ w.minted) :
    Ends (timedStep timeout line) (mintToken appId id) w (.ok tok) (w.minting timeout tok) := by
  refine ends_bind.mpr ⟨_, _, ends_mintJwt hnow, ?_⟩
  refine ends_idle timeout (mintedAs tok) (le_refl _) (if_neg htok) ?_
  refine ends_idle 0 () (Nat.zero_le _) rfl (ends_idle 0 () (Nat.zero_le _) rfl ⟨rfl, ?_⟩)
  simp [World.idle, World.minting]

/-- The cell gives the id at once. -/
theorem ends_installationId (hid : w.cell = .filled id) :
    Ends (timedStep timeout line) (installationId appId account) w (.ok id) (w.idle 0) := by
  have hs : step 0 .initEnter () (w.idle 0) = some (some id, w.idle 0) := by
    simp only [step, World.idle, hid]
  exact ends_idle 0 () (Nat.zero_le _) hs ⟨rfl, rfl⟩

/-- The cache is empty, and the token minted. -/
theorem ends_token {tok : String} {w₁ : World} (hnow : 0 ≤ w₁.now) (htok : tok ∉ w₁.minted)
    (hid : Ends (timedStep timeout line) (installationId appId account) w (.ok id) w₁) :
    Ends (timedStep timeout line) (token appId account) w (.ok tok) (w₁.minting timeout tok) := by
  have h : Ends (timedStep timeout line) (mintToken appId id) (w₁.idle 0) (.ok tok) _ :=
    ends_mintToken (now_idle w₁ 0 hnow) htok
  rw [idle_minting, Nat.zero_add] at h
  exact ends_bind.mpr ⟨_, _, hid, ends_idle 0 () (Nat.zero_le _) rfl h⟩

/-- A request answered 401, another mint, and another request. -/
theorem ends_sendAuthed {tok tok' : String} {w₁ : World} (hnow : 0 ≤ w₁.now)
    (htok : tok' ∉ w₁.minted) (hid : w₁.cell = .filled id)
    (hf : Ends (timedStep timeout line) (token appId account) w (.ok tok) w₁) :
    Ends (timedStep timeout line) (sendAuthed appId account ctx build) w (.ok created)
      ((w₁.minting (2 * timeout) tok').idle timeout) := by
  have hlater : 0 ≤ (w₁.idle timeout).now := now_idle w₁ timeout hnow
  have hagain : Ends (timedStep timeout line) (token appId account) ((w₁.idle timeout).idle 0)
      (.ok tok') _ :=
    ends_token (now_idle _ 0 (now_idle _ 0 hlater)) htok (ends_installationId hid)
  refine ends_bind.mpr ⟨_, _, hf, ?_⟩
  refine ends_idle timeout (.ok unauthorized) (le_refl _) rfl ?_
  refine ends_idle 0 () (Nat.zero_le _) rfl ?_
  refine ends_bind.mpr ⟨_, _, hagain, ?_⟩
  refine ends_idle timeout (.ok created) (le_refl _) rfl ⟨rfl, ?_⟩
  simp only [idle_minting]
  congr 2
  omega

/-- **The bound of four requests is met.** -/
theorem sendAuthed_known_slow (hnow : 0 ≤ w.now) (hid : w.cell = .filled id) : ∃ w',
    Ends (timedStep timeout line) (sendAuthed appId account ctx build) w (.ok created) w' ∧
      w'.now = w.now + (4 * timeout : ℕ) ∧ w'.cell = .filled id := by
  obtain ⟨tok, htok⟩ := exists_fresh w.minted
  obtain ⟨tok', htok'⟩ := exists_fresh (tok :: w.minted)
  have hfirst : Ends (timedStep timeout line) (token appId account) w (.ok tok) _ :=
    ends_token (now_idle w 0 hnow) htok (ends_installationId hid)
  have hcell : ((w.idle 0).minting timeout tok).cell = .filled id := hid
  refine ⟨_, ends_sendAuthed ?_ htok' hcell hfirst, ?_, hid⟩
  · exact add_nonneg (now_idle w 0 hnow) (Int.natCast_nonneg _)
  · simp only [World.minting, World.idle]
    push_cast
    ring

end GitHub

end GhaConsumer
