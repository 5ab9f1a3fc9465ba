import GhaConsumer.Gc.Reading
import GhaConsumer.Host.Sample

/-!
# GC — what the startup reap accounts for

The reap at startup, whatever `cur/` holds, the listing says and the
deletes return. The map of claims has one file for each VM name, and two
files can have one id: `42.job` and `042.job` are both claims of job 42.
`accounted_iff` says exactly when every claim is handed to
`finalize_error`.
-/

namespace GhaConsumer

open Interleave Trace

/-! ## What the history says -/

/-- The files handed to `finalize_error`. -/
def handed : Calls → List String
  | [] => []
  | ⟨.finalizeError cur _, _⟩ :: τ => cur :: handed τ
  | _ :: τ => handed τ

/-- Whether a call returned `Ok`. -/
def succeeded : Except String Unit → Bool
  | .ok () => true
  | .error _ => false

/-- The outcome of a delete attempt, put to the VM it is made for. -/
def addAttempt (vm : String) (ok : Bool) : List (String × List Bool) → List (String × List Bool)
  | [] => []
  | (v, oks) :: rest => if v = vm then (v, ok :: oks) :: rest else (v, oks) :: rest

/-- The VMs reaped, one for each row of the listing, with what the delete
attempts for that row returned; the latest first. -/
def attempts : Calls → List (String × List Bool)
  | [] => []
  | ⟨.stop vm, _⟩ :: τ => (vm, []) :: attempts τ
  | ⟨.delete vm, r⟩ :: τ => addAttempt vm (succeeded r) (attempts τ)
  | _ :: τ => attempts τ

/-- What the listing returned. -/
def listing : Calls → Option (Except String (List (String × Option String)))
  | [] => none
  | ⟨.listInstances, r⟩ :: _ => some r
  | _ :: τ => listing τ

/-- The VM was listed, and every delete attempt for it failed. -/
def AllFailed (rows : List (String × Option String)) (τ : Calls) (vm : String) : Prop :=
  vm ∈ rows.map Prod.fst ∧ ∀ oks, (vm, oks) ∈ attempts τ → true ∉ oks

/-- The VM could not be deleted: every attempt for some row of it failed. -/
def GaveUp (τ : Calls) (vm : String) : Prop := ∃ oks, (vm, oks) ∈ attempts τ ∧ true ∉ oks

/-- The calls that may change the file at `cur/<name>`. -/
def Call.Touches (name : String) : Call → Prop
  | .finalizeError cur _ => cur = name
  | .host (.fs (.openDir _)) | .host (.fs .nextEntry) | .host (.fs (.fileType _))
  | .host (.sched .sleep) | .stop _ | .delete _ | .listInstances => False
  | _ => True

/-- **Every claim is accounted for.** Each file listed as a claim has been
handed to `finalize_error`, unless its VM's deletes all failed; and one
whose VM could not be deleted has not been touched. -/
def Accounted (rows : List (String × Option String)) (listed : List String) (τ : Calls) : Prop :=
  ∀ name ∈ listed, ∀ vm, claimedVm name = some vm →
    (name ∈ handed τ ∨ AllFailed rows τ vm) ∧ (GaveUp τ vm → ∀ e ∈ τ, ¬ e.1.Touches name)

/-! ## The reap -/

/-- The calls of the reap. -/
def Reaps (_ : Calls) (e : Event Call.Resp) : Prop := ∀ name, e.1.Touches name →
  ∃ reason, e.1 = .finalizeError name reason

variable {rs : List Bool} {L : List (String × List Bool)} {H : List String} {R : Reading}

/-- How far the reap has come. -/
structure At (R : Reading) (H : List String) (L : List (String × List Bool)) (τ : Calls) :
    Prop where
  reading : reading τ = R
  handed : handed τ = H
  attempts : attempts τ = L

/-- What the attempts for one row have come to: none has succeeded, or the
last has. -/
def Attempted (R : Reading) (H : List String) (vm : String) (L : List (String × List Bool))
    (ok : Bool) (τ : Calls) : Prop :=
  ∃ oks, At R H ((vm, oks) :: L) τ ∧ (true ∈ oks ↔ ok = true)

theorem delete_startup {vm : String} :
    Triple Reaps (Attempted R H vm L false) (call (.delete vm)) fun r =>
      Attempted R H vm L (succeeded r) := by
  refine Triple.op fun τ r ⟨oks, hat, hoks⟩ => ⟨fun _ h => h.elim, succeeded r :: oks, ?_, ?_⟩
  · refine ⟨hat.reading, hat.handed, ?_⟩
    simp only [attempts, hat.attempts, addAttempt, if_true]
  · rw [List.mem_cons]
    simp only [hoks, Bool.false_eq_true, or_false]
    exact eq_comm

theorem deleteRetrying_startup {vm : String} (left : ℕ) :
    Triple Reaps (Attempted R H vm L false) (deleteRetrying vm left) fun r =>
      Attempted R H vm L (succeeded r) := by
  induction left with
  | zero => exact delete_startup
  | succ left ih =>
    refine delete_startup.bind fun r => ?_
    split
    · exact Triple.ret fun τ h => h
    · -- a pause between two attempts says nothing of either
      refine Triple.step (B := fun _ => Attempted R H vm L false) ?_ fun _ => ih
      rintro τ r ⟨oks, hat, hoks⟩
      exact ⟨fun _ h => h.elim, oks, ⟨hat.reading, hat.handed, hat.attempts⟩, hoks⟩

/-- The VMs recorded as not deleted are those given up. -/
def Records (failed : List String) (L : List (String × List Bool)) : Prop :=
  ∀ vm, vm ∈ failed ↔ ∃ oks, (vm, oks) ∈ L ∧ true ∉ oks

theorem records_nil : Records [] [] := fun vm => by simp

theorem Records.deleted {failed : List String} {oks : List Bool} (h : Records failed L)
    (hok : true ∈ oks) (vm : String) : Records failed ((vm, oks) :: L) := by
  intro v
  rw [h v]
  constructor
  · rintro ⟨oks', hmem, hno⟩
    exact ⟨oks', List.mem_cons_of_mem _ hmem, hno⟩
  · rintro ⟨oks', hmem, hno⟩
    rcases List.mem_cons.mp hmem with heq | hmem
    · cases heq; exact absurd hok hno
    · exact ⟨oks', hmem, hno⟩

theorem Records.gaveUp {failed : List String} {oks : List Bool} (h : Records failed L)
    (hno : true ∉ oks) (vm : String) : Records (vm :: failed) ((vm, oks) :: L) := by
  intro v
  rw [List.mem_cons, h v]
  constructor
  · rintro (rfl | ⟨oks', hmem, hno'⟩)
    · exact ⟨oks, List.mem_cons_self .., hno⟩
    · exact ⟨oks', List.mem_cons_of_mem _ hmem, hno'⟩
  · rintro ⟨oks', hmem, hno'⟩
    rcases List.mem_cons.mp hmem with heq | hmem
    · cases heq; exact .inl rfl
    · exact .inr ⟨oks', hmem, hno'⟩

/-- What the loop over the listing has recorded is what the history says. -/
def Recorded (R : Reading) (H : List String) (reaped : Reaped) (τ : Calls) : Prop :=
  ∃ L, At R H L τ ∧ Records reaped.deleteFailed L

theorem reapListed_startup (rows : List (String × Option String)) (reaped : Reaped) :
    Triple Reaps (Recorded R H reaped) (reapListed reaped rows) (Recorded R H) := by
  induction rows generalizing reaped with
  | nil => exact Triple.ret fun τ h => h
  | cons row rest ih =>
    obtain ⟨name, dir⟩ := row
    unfold reapListed
    split
    · exact ih reaped
    · refine Triple.step (B := fun _ τ => ∃ L, Records reaped.deleteFailed L ∧
          Attempted R H name L false τ) ?_ fun _ => ?_
      · rintro τ r ⟨L, hat, hrec⟩
        refine ⟨fun _ h => h.elim, L, hrec, [], ⟨hat.reading, hat.handed, ?_⟩, by simp⟩
        simp only [attempts, hat.attempts]
      · rintro τ ⟨L, hrec, hτ⟩
        refine ((deleteRetrying_startup _).bind fun r => ?_) τ hτ
        split
        · refine (ih _).pre fun τ ⟨oks, hat, hoks⟩ => ⟨_, hat, hrec.deleted (hoks.mpr rfl) name⟩
        · refine (ih _).pre fun τ ⟨oks, hat, hoks⟩ => ⟨_, hat, hrec.gaveUp (fun h => ?_) name⟩
          exact Bool.false_ne_true (hoks.mp h)

theorem finalizePlanned_startup (plan : List (String × StartupFinalizeReason)) :
    Triple Reaps (At R H L) (finalizePlanned plan) fun _ =>
      At R ((plan.map Prod.fst).reverse ++ H) L := by
  induction plan generalizing H with
  | nil => exact Triple.ret fun τ h => h
  | cons fin rest ih =>
    obtain ⟨cur, reason⟩ := fin
    refine Triple.step (B := fun _ => At R (cur :: H) L) ?_ fun _ => ?_
    · intro τ r hat
      refine ⟨fun name h => ⟨reason.message, by rw [← (h : cur = name)]⟩, hat.reading, ?_,
        hat.attempts⟩
      simp only [handed, hat.handed]
    · refine (ih (H := cur :: H)).post fun _ τ hat => ?_
      rwa [List.map_cons, List.reverse_cons, List.append_assoc]

/-! ## The plan -/

/-- The files planned are those the map has for a VM that was not given
up. -/
theorem mem_planStartupClaimFinalizes {order : HashOrder} {claims : ClaimMap}
    {present failed : List String} {name : String} :
    name ∈ (planStartupClaimFinalizes order claims present failed).map Prod.fst ↔
      ∃ vm, claims.lookup vm = some name ∧ vm ∉ failed := by
  simp only [planStartupClaimFinalizes, List.mem_map, List.mem_filterMap]
  constructor
  · rintro ⟨fin, ⟨e, he, hfin⟩, rfl⟩
    split at hfin <;> cases hfin
    rename_i hfailed
    obtain ⟨⟨vm, cur⟩, hmem, rfl⟩ := List.mem_map.mp ((order.perm _).mem_iff.mp he)
    exact ⟨vm, AList.mem_lookup_iff.mpr hmem, hfailed⟩
  · rintro ⟨vm, hvm, hfailed⟩
    refine ⟨(name, if vm ∈ present then .reapedVm else .noVm), ⟨(vm, name), ?_, ?_⟩, rfl⟩
    · exact (order.perm _).mem_iff.mpr
        (List.mem_map.mpr ⟨⟨vm, name⟩, AList.mem_lookup_iff.mp hvm, rfl⟩)
    · rw [if_neg hfailed]

/-! ## The whole -/

/-- What is handed over when the reap returns: for each VM not given up,
its claim. -/
def HandsOver (listed : List String) (τ : Calls) : Prop :=
  ∀ name, name ∈ handed τ ↔ ∃ vm, claimOf listed vm = some name ∧ ¬ GaveUp τ vm

theorem kept_untouched : Kept Call.ReadsDir fun τ => handed τ = [] ∧ attempts τ = [] := by
  intro c r τ hc h
  simp only [Call.ReadsDir] at hc
  split at hc
  · exact h
  · exact h
  · exact h
  · exact hc.elim

theorem reaps_of_readsDir (τ : Calls) (e : Event Call.Resp) (h : e.1.ReadsDir) : Reaps τ e := by
  obtain ⟨c, r⟩ := e
  simp only [Call.ReadsDir] at h
  split at h
  · exact fun _ ht => ht.elim
  · exact fun _ ht => ht.elim
  · exact fun _ ht => ht.elim
  · exact h.elim

/-- Carrying the plan out hands over the claims of the VMs not given up. -/
theorem finalizePlanned_handsOver {claims : Except Files.Errno ClaimMap} (order : HashOrder)
    (reaped : Reaped)
    (hread : ∀ listed, R = .done listed → ∃ out, claims = .ok out ∧ Maps out listed) :
    Triple Reaps (Recorded R [] reaped) (finalizePlanned (planStartupClaimFinalizes order
        (claims.toOption.getD ∅) reaped.present reaped.deleteFailed))
      fun _ τ => ∀ listed, reading τ = .done listed → HandsOver listed τ := by
  rintro σ ⟨L, hσ, hrec⟩
  refine (finalizePlanned_startup _ σ hσ).mono fun _ τ hτ listed hl name => ?_
  obtain ⟨out, rfl, hmaps⟩ := hread listed (hτ.reading ▸ hl)
  rw [hτ.handed, List.append_nil, List.mem_reverse, mem_planStartupClaimFinalizes]
  have hgave : ∀ vm, vm ∈ reaped.deleteFailed ↔ GaveUp τ vm := by
    intro vm
    rw [hrec vm, GaveUp, hτ.attempts]
  constructor
  · rintro ⟨vm, hvm, hfailed⟩
    exact ⟨vm, (hmaps vm).symm.trans hvm, fun h => hfailed ((hgave vm).mpr h)⟩
  · rintro ⟨vm, hvm, hfailed⟩
    exact ⟨vm, (hmaps vm).trans hvm, fun h => hfailed ((hgave vm).mp h)⟩

theorem reapAllManagedVmsAtStartup_handsOver (cfg : Config) (fuel : ℕ) :
    Triple Reaps (fun τ => handed τ = [] ∧ attempts τ = []) (reapAllManagedVmsAtStartup cfg fuel)
      fun _ τ => (∃ e, listing τ = some (.error e)) ∨
        ∀ listed, reading τ = .done listed → HandsOver listed τ := by
  refine (liveVmMapFromCur_reads reaps_of_readsDir kept_untouched fuel).bind fun claims => ?_
  refine Triple.step (B := fun r τ => listing τ = some r ∧ ReadOf claims τ ∧
    At (reading τ) [] [] τ) ?_ fun r => ?_
  · rintro τ r ⟨⟨hh, ha⟩, hread⟩
    exact ⟨fun _ h => h.elim, rfl, by cases claims <;> exact hread, rfl, hh, ha⟩
  rcases r with e | rows
  · exact Triple.ret fun τ h => .inl ⟨e, h.1⟩
  · rintro τ ⟨-, hread, hat⟩
    have hclaims : ∀ listed, reading τ = .done listed → ∃ out, claims = .ok out ∧ Maps out listed := by
      intro listed hl
      cases claims with
      | error e => exact absurd hl (hread listed)
      | ok out =>
        obtain ⟨listed', hl', hmaps⟩ := hread
        rw [hl] at hl'
        cases hl'
        exact ⟨out, rfl, hmaps⟩
    have hreap := (reapListed_startup rows ⟨[], []⟩).bind fun reaped =>
      finalizePlanned_handsOver cfg.order reaped hclaims
    exact (hreap τ ⟨[], hat, records_nil⟩).mono fun _ _ h => .inr h

/-- A file touched was handed over. -/
theorem handed_of_touched {τ : Calls} {name : String}
    (hgood : ∀ e σ, e :: σ <:+ τ → Reaps σ e) (h : ∃ e ∈ τ, e.1.Touches name) :
    name ∈ handed τ := by
  induction τ with
  | nil => obtain ⟨e, he, -⟩ := h; cases he
  | cons e τ ih =>
    have ih := ih fun e' σ hsuf => hgood e' σ (hsuf.trans (List.suffix_cons e τ))
    obtain ⟨e', he', ht⟩ := h
    rcases List.mem_cons.mp he' with rfl | he'
    · obtain ⟨reason, hreason⟩ := hgood e' τ List.suffix_rfl name ht
      obtain ⟨c, r⟩ := e'
      cases hreason
      exact List.mem_cons_self ..
    · have hmem := ih ⟨e', he', ht⟩
      unfold handed
      split
      · cases ‹_ = []›
      · rename_i heq
        cases heq
        exact List.mem_cons_of_mem _ hmem
      · rename_i heq
        cases heq
        exact hmem

/-- **When every claim is accounted for.** A reap at startup that has read
`cur/` and got a listing accounts for every claim if and only if each
claim is either one whose VM's deletes all failed, or the file listed
last of those of its id, with no row of its VM given up. -/
theorem accounted_iff (cfg : Config) (fuel : ℕ) {τ : Calls} {listed : List String}
    {rows : List (String × Option String)}
    (hs : Prog.Steps (reapAllManagedVmsAtStartup cfg fuel) [] (.ret ()) τ)
    (hread : reading τ = .done listed) (hlist : listing τ = some (.ok rows)) :
    Accounted rows listed τ ↔ ∀ name ∈ listed, ∀ vm, claimedVm name = some vm →
      AllFailed rows τ vm ∨ (claimOf listed vm = some name ∧ ¬ GaveUp τ vm) := by
  have htriple := reapAllManagedVmsAtStartup_handsOver cfg fuel
  have hover : HandsOver listed τ := by
    rcases htriple.returns ⟨rfl, rfl⟩ hs with ⟨e, he⟩ | h
    · rw [hlist] at he; cases he
    · exact h listed hread
  have htouched : ∀ name, (∃ e ∈ τ, e.1.Touches name) → name ∈ handed τ :=
    fun name => handed_of_touched (htriple.steps ⟨rfl, rfl⟩ hs)
  -- a file handed over is the claim of its own VM
  have hown : ∀ name vm, claimedVm name = some vm →
      (name ∈ handed τ ↔ claimOf listed vm = some name ∧ ¬ GaveUp τ vm) := by
    intro name vm hvm
    rw [hover name]
    constructor
    · rintro ⟨vm', hclaim, hgave⟩
      have heq := (claimOf_eq_some hclaim).2
      rw [hvm] at heq
      cases heq
      exact ⟨hclaim, hgave⟩
    · rintro ⟨hclaim, hgave⟩
      exact ⟨vm, hclaim, hgave⟩
  constructor
  · intro h name hname vm hvm
    rcases (h name hname vm hvm).1 with hhanded | hfailed
    · exact .inr ((hown name vm hvm).mp hhanded)
    · exact .inl hfailed
  · intro h name hname vm hvm
    refine ⟨?_, fun hgave e he ht => ?_⟩
    · rcases h name hname vm hvm with hfailed | hclaim
      · exact .inr hfailed
      · exact .inl ((hown name vm hvm).mpr hclaim)
    · exact ((hown name vm hvm).mp (htouched name ⟨e, he, ht⟩)).2 hgave

/-- The listing of `cur/` as a reap at startup reads it. -/
def readsCur (names : List String) : List (Event Call.Resp) :=
  ⟨.host (.fs (.openDir .cur)), .ok ()⟩ :: names.flatMap (fun name =>
      [⟨.host (.fs .nextEntry), .ok (some ⟨name, .regular⟩)⟩,
        ⟨.host (.fs (.fileType ⟨name, .regular⟩)), .ok .regular⟩]) ++
    [⟨.host (.fs .nextEntry), .ok none⟩]

/-- A program that has returned. -/
def returned : Option (Proc Unit) → Bool
  | some (.ret _) => true
  | _ => false

theorem steps_of_returned (es : List (Event Call.Resp)) (p : Proc Unit)
    (h : returned (Prog.replay es p) = true) : Prog.Steps p [] (.ret ()) es.reverse := by
  unfold returned at h
  split at h
  · rename_i heq
    have hs := Prog.steps_replay (σ := []) .refl heq
    rwa [List.append_nil] at hs
  · cases h

/-- The claim `42.job`, whose VM is deleted at the second attempt. -/
def secondAttempt : List (Event Call.Resp) :=
  readsCur ["42.job"] ++
    [⟨.listInstances, .ok [(vmName 42, none)]⟩, ⟨.stop (vmName 42), .ok ()⟩,
      ⟨.delete (vmName 42), .error ""⟩, ⟨.host (.sched .sleep), ()⟩, ⟨.delete (vmName 42), .ok ()⟩,
      ⟨.finalizeError "42.job" StartupFinalizeReason.reapedVm.message, .ok ()⟩]

/-- One claim is accounted for. -/
theorem accounted_secondAttempt :
    Prog.Steps (reapAllManagedVmsAtStartup sampleConfig 2) [] (.ret ()) secondAttempt.reverse ∧
      Accounted [(vmName 42, none)] ["42.job"] secondAttempt.reverse := by
  have hs := steps_of_returned secondAttempt (reapAllManagedVmsAtStartup sampleConfig 2)
    (by decide)
  refine ⟨hs, (accounted_iff sampleConfig 2 hs (by decide) (by rfl)).mpr ?_⟩
  intro name hname vm hvm
  rw [List.mem_singleton.mp hname] at hvm ⊢
  have hvm : vm = vmName 42 := (Option.some.inj (hvm.symm.trans (by decide)))
  subst hvm
  refine .inr ⟨by decide, ?_⟩
  rintro ⟨oks, hmem, hno⟩
  have hat : attempts secondAttempt.reverse = [(vmName 42, [true, false])] := by decide
  rw [hat, List.mem_singleton] at hmem
  cases hmem
  exact hno (by decide)

/-- Two files of one id, and no VM. -/
def twoSpellings : List (Event Call.Resp) :=
  readsCur ["42.job", "042.job"] ++
    [⟨.listInstances, .ok []⟩,
      ⟨.finalizeError "042.job" StartupFinalizeReason.noVm.message, .ok ()⟩]

/-- **A claim can drop out of the map.** -/
theorem claim_dropped :
    ∃ listed rows τ, Prog.Steps (reapAllManagedVmsAtStartup sampleConfig 3) [] (.ret ()) τ ∧
      reading τ = .done listed ∧ listing τ = some (.ok rows) ∧ ¬ Accounted rows listed τ := by
  have hs := steps_of_returned twoSpellings (reapAllManagedVmsAtStartup sampleConfig 3)
    (by decide)
  refine ⟨["042.job", "42.job"], [], _, hs, by decide, by rfl, fun h => ?_⟩
  rcases (h "42.job" (by decide) (vmName 42) (by decide)).1 with hhanded | ⟨hrow, -⟩
  · exact absurd hhanded (by decide)
  · cases hrow

end GhaConsumer
