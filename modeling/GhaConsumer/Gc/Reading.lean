import GhaConsumer.Gc.Model
import GhaConsumer.Interleave.Trace

/-!
# GC — reading `cur/`

What a history says of the claims in `cur/`, and that the map
`live_vm_map_from_cur` builds says the same: for each VM name, the claim
listed last among those whose id names it.
-/

namespace GhaConsumer

open Interleave Trace
open Files (Errno DirEntry)

/-- A history of calls, the latest first. -/
abbrev Calls := History Call.Resp

/-! ## What the history says -/

/-- How the last read of `cur/` stands: the names listed and not found to
be other than regular files, the latest first. -/
inductive Reading where
  | none
  | going (listed : List String)
  | done (listed : List String)
  | failed
  deriving DecidableEq, Repr

namespace Reading

def add (name : String) : Reading → Reading
  | going listed => going (name :: listed)
  | r => r

def drop (name : String) : Reading → Reading
  | going listed => going (listed.erase name)
  | r => r

def finish : Reading → Reading
  | going listed => done listed
  | r => r

end Reading

/-- The read of `cur/` that a history ends with; a listing of runners
asks for a new one. -/
def reading : Calls → Reading
  | [] => .none
  | ⟨.host (.fs (.openDir .cur)), .ok ()⟩ :: _ => .going []
  | ⟨.host (.fs (.openDir .cur)), .error _⟩ :: _ => .failed
  | ⟨.host (.fs .nextEntry), .ok (some ent)⟩ :: τ => (reading τ).add ent.name
  | ⟨.host (.fs .nextEntry), .ok none⟩ :: τ => (reading τ).finish
  | ⟨.host (.fs .nextEntry), .error _⟩ :: _ => .failed
  | ⟨.host (.fs (.fileType ent)), .ok (.other _)⟩ :: τ => (reading τ).drop ent.name
  | ⟨.host (.hub (.listRunners ..)), _⟩ :: _ => .none
  | _ :: τ => reading τ

/-- The VM a file of `cur/` claims, if its name is a claim's. -/
def claimedVm (name : String) : Option String := (parseSpoolFilename name).map vmName

/-- The claim of a VM: the one listed last. -/
def claimOf (listed : List String) (vm : String) : Option String :=
  listed.find? fun name => claimedVm name == some vm

theorem claimedVm_jobFileName (id : JobId) : claimedVm (jobFileName id) = some (vmName id) := by
  rw [claimedVm, parseSpoolFilename_jobFileName, Option.map_some]

theorem claimOf_eq_some {listed : List String} {vm name : String}
    (h : claimOf listed vm = some name) : name ∈ listed ∧ claimedVm name = some vm :=
  ⟨List.mem_of_find?_eq_some h, by simpa using List.find?_some h⟩

theorem claimOf_eq_none {listed : List String} {vm : String} :
    claimOf listed vm = none ↔ ∀ name ∈ listed, claimedVm name ≠ some vm := by
  simp [claimOf]

/-! ## The map -/

/-- The map says what the reading does. -/
def Maps (out : ClaimMap) (listed : List String) : Prop :=
  ∀ vm, out.lookup vm = claimOf listed vm

theorem maps_empty : Maps ∅ [] := fun vm => AList.lookup_empty vm

/-- A name that is no claim changes nothing. -/
theorem Maps.skip {out : ClaimMap} {listed : List String} {name : String} (h : Maps out listed)
    (hn : parseSpoolFilename name = none) : Maps out (name :: listed) := by
  intro vm
  rw [h vm, claimOf, claimOf, List.find?_cons_of_neg]
  simp [claimedVm, hn]

/-- A claim takes the place of an earlier one of the same id. -/
theorem Maps.insert {out : ClaimMap} {listed : List String} {name : String} {id : JobId}
    (h : Maps out listed) (hn : parseSpoolFilename name = some id) :
    Maps (out.insert (vmName id) name) (name :: listed) := by
  intro vm
  by_cases hvm : vm = vmName id
  · subst hvm
    rw [AList.lookup_insert, claimOf, List.find?_cons_of_pos]
    simp [claimedVm, hn]
  · rw [AList.lookup_insert_ne hvm, h vm, claimOf, claimOf, List.find?_cons_of_neg]
    simpa [claimedVm, hn] using Ne.symm hvm

/-- What is established of a read: a read that succeeded is done and its
map right; one that failed is not done. -/
def ReadOf (r : Except Errno ClaimMap) (τ : Calls) : Prop :=
  match r with
  | .ok out => ∃ listed, reading τ = .done listed ∧ Maps out listed
  | .error _ => ∀ listed, reading τ ≠ .done listed

/-- The loop has built the map of the names listed so far. -/
def Listing (out : ClaimMap) (τ : Calls) : Prop :=
  ∃ listed, reading τ = .going listed ∧ Maps out listed

/-- What the next entry, the end or a failure leaves to be done. -/
def AfterNext (out : ClaimMap) : Except Errno (Option (DirEntry String)) → Calls → Prop
  | .ok (some ent), τ => ∃ listed, reading τ = .going (ent.name :: listed) ∧ Maps out listed
  | .ok none, τ => ReadOf (.ok out) τ
  | .error e, τ => ReadOf (.error e) τ

/-- The calls that read a directory. -/
def Call.ReadsDir : Call → Prop
  | .host (.fs (.openDir _)) | .host (.fs .nextEntry) | .host (.fs (.fileType _)) => True
  | _ => False

theorem addClaim_only {φ : Call → Prop} (hφ : ∀ c, c.ReadsDir → φ c) (claims : ClaimMap)
    (ent : Files.DirEntry String) : (addClaim claims ent).Only φ := by
  unfold addClaim
  split
  · trivial
  · refine .step (hφ _ trivial) fun r => ?_
    split <;> trivial

theorem liveVmMapFromCur_only {fuel : ℕ} {φ : Call → Prop} (hφ : ∀ c, c.ReadsDir → φ c) :
    (liveVmMapFromCur fuel).Only φ := by
  refine .step (hφ _ trivial) fun r => ?_
  split
  · trivial
  · exact Prog.Only.whileSome (Prog.only_op (hφ (.host (.fs .nextEntry)) trivial)) (addClaim_only hφ) fuel ∅

variable {good : Calls → Event Call.Resp → Prop} {B : Calls → Prop} {out : ClaimMap}

theorem nextEntry_reads (hgood : ∀ τ e, e.1.ReadsDir → good τ e) (hB : Kept Call.ReadsDir B) :
    Triple good (fun τ => B τ ∧ Listing out τ) (hostFs .nextEntry) fun r τ =>
      B τ ∧ AfterNext out r τ := by
  refine Triple.op fun τ r hτ => ⟨hgood _ _ trivial, hB _ _ _ trivial hτ.1, ?_⟩
  obtain ⟨-, listed, hl, hm⟩ := hτ
  rcases r with e | _ | ent
  · intro listed'
    simp only [reading, ne_eq, reduceCtorEq, not_false_eq_true]
  · exact ⟨listed, by simp only [reading, hl, Reading.finish], hm⟩
  · exact ⟨listed, by simp only [reading, hl, Reading.add], hm⟩

/-- One entry: it is added if its name is a claim's and it was not found
to be other than a regular file. -/
theorem addClaim_reads (hgood : ∀ τ e, e.1.ReadsDir → good τ e) (hB : Kept Call.ReadsDir B)
    (ent : DirEntry String) :
    Triple good (fun τ => B τ ∧ AfterNext out (.ok (some ent)) τ) (addClaim out ent)
      fun out τ => B τ ∧ Listing out τ := by
  unfold addClaim
  split
  · rename_i hn
    exact Triple.ret fun τ ⟨hτ, listed, hl, hm⟩ => ⟨hτ, _, hl, hm.skip hn⟩
  · rename_i id hn
    refine Triple.step (B := fun r τ => B τ ∧ ∃ listed, Maps out listed ∧
      reading τ = if Files.saysOther r then .going listed else .going (ent.name :: listed))
        (fun τ r hτ => ⟨hgood _ _ trivial, hB _ _ _ trivial hτ.1, ?_⟩) fun r => ?_
    · obtain ⟨-, listed, hl, hm⟩ := hτ
      refine ⟨listed, hm, ?_⟩
      rcases r with e | _ | _
      · exact hl
      · exact hl
      · simp only [reading, hl, Reading.drop, List.erase_cons_head, Files.saysOther, if_true]
    · rcases r with e | _ | _
      · exact Triple.ret fun τ ⟨hτ, listed, hm, hl⟩ => ⟨hτ, _, hl, hm.insert hn⟩
      · exact Triple.ret fun τ ⟨hτ, listed, hm, hl⟩ => ⟨hτ, _, hl, hm.insert hn⟩
      · exact Triple.ret fun τ ⟨hτ, listed, hm, hl⟩ => ⟨hτ, listed, hl, hm⟩

/-- **Reading `cur/`.** Whatever entries come, and whatever fails. -/
theorem liveVmMapFromCur_reads (hgood : ∀ τ e, e.1.ReadsDir → good τ e) (hB : Kept Call.ReadsDir B)
    (fuel : ℕ) : Triple good B (liveVmMapFromCur fuel) fun r τ => B τ ∧ ReadOf r τ := by
  refine Triple.step (B := fun r τ => B τ ∧ reading τ = if r = .ok () then .going [] else .failed)
    (fun τ r hτ => ⟨hgood _ _ trivial, hB _ _ _ trivial hτ, ?_⟩) fun r => ?_
  · rcases r with e | ⟨⟨⟩⟩ <;> rfl
  rcases r with e | ⟨⟨⟩⟩
  · exact Triple.ret fun τ h => ⟨h.1, fun listed => by rw [h.2]; simp⟩
  · refine Triple.pre (Triple.whileSome (I := fun out τ => B τ ∧ Listing out τ)
      (J := fun out r τ => B τ ∧ AfterNext out r τ) (Q := fun r τ => B τ ∧ ReadOf r τ)
      (fun out => nextEntry_reads hgood hB) (fun out ent => addClaim_reads hgood hB ent)
      (fun out τ h => h) (fun out e τ h => h) ?_ fuel ∅) fun τ h => ⟨h.1, [], h.2, maps_empty⟩
    rintro out τ ⟨hτ, listed, hl, -⟩
    exact ⟨hτ, fun listed' => by rw [hl]; simp⟩

end GhaConsumer
