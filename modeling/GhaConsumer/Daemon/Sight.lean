import GhaConsumer.Daemon.Ownership
import GhaConsumer.Files.Scan

/-!
# The daemon — what a read of `cur/` sees

The sweep and the reconciler read `cur/` while others claim and finalize.
What such a read has returned is a function of the reader's own calls
(`sight`), and the map it builds knows every claim among it
(`liveVmMapFromCur_sight`). What stands in `cur/` is not: but a claim that
was there when the directory was opened and has not been made anew since
is among what the read returns (`sees_run`).
-/

namespace GhaConsumer

namespace Sight

open Interleave Trace Daemon Slots
open Ownership (slot_of_step slot_ne_of_tmp staffed_run)
open Pause (Own claims)
open Files (DirEntry)

/-! ## What has been read -/

/-- A read of `cur/`: the entries returned and not found to be other than
regular files, the latest first, and whether it has come to its end. -/
structure View where
  seen : List (DirEntry String)
  ended : Bool
  deriving DecidableEq

namespace View

def add (ent : DirEntry String) (v : View) : View := { v with seen := ent :: v.seen }

def drop (ent : DirEntry String) (v : View) : View := { v with seen := v.seen.erase ent }

def finish (v : View) : View := { v with ended := true }

end View

/-- The read of `cur/` a thread's calls end with; a listing of runners
asks for a new one. -/
def sight : Own → Option View
  | [] => none
  | ⟨.fs (.openDir .cur), .ok ()⟩ :: _ => some ⟨[], false⟩
  | ⟨.fs (.openDir _), _⟩ :: _ => none
  | ⟨.fs .nextEntry, .ok (some ent)⟩ :: τ => (sight τ).map (View.add ent)
  | ⟨.fs .nextEntry, .ok none⟩ :: τ => (sight τ).map View.finish
  | ⟨.fs (.fileType ent), .ok (.other _)⟩ :: τ => (sight τ).map (View.drop ent)
  | ⟨.hub (.listRunners ..), _⟩ :: _ => none
  | _ :: τ => sight τ

/-- What one call of a read adds to what it has returned. -/
inductive Glance (e : Event Resp) (v : View) : View → Prop
  | still : (∀ x, e ≠ ⟨.fs .nextEntry, .ok x⟩) → Glance e v v
  | add (ent : DirEntry String) : e = ⟨.fs .nextEntry, .ok (some ent)⟩ → Glance e v (v.add ent)
  | finish : e = ⟨.fs .nextEntry, .ok none⟩ → Glance e v v.finish
  | drop (ent : DirEntry String) (special : Files.Special) :
      e = ⟨.fs (.fileType ent), .ok (.other special)⟩ → Glance e v (v.drop ent)

/-- A read begins with the call, or is as far as it was but for the call. -/
theorem sight_cons {e : Event Resp} {τ : Own} {v : View} (h : sight (e :: τ) = some v) :
    e = ⟨.fs (.openDir .cur), .ok ()⟩ ∧ v = ⟨[], false⟩ ∨
      (∀ d, e.1 ≠ .fs (.openDir d)) ∧ (∀ owner repo pre, e.1 ≠ .hub (.listRunners owner repo pre)) ∧
        ∃ v₀, sight τ = some v₀ ∧ Glance e v₀ v := by
  obtain ⟨o, r⟩ := e
  unfold sight at h
  split at h
  · cases h
  · rename_i heq
    cases heq
    cases h
    exact .inl ⟨rfl, rfl⟩
  · cases h
  · rename_i heq
    cases heq
    obtain ⟨v₀, hv₀, rfl⟩ := Option.map_eq_some_iff.mp h
    exact .inr ⟨by simp, by simp, v₀, hv₀, .add _ rfl⟩
  · rename_i heq
    cases heq
    obtain ⟨v₀, hv₀, rfl⟩ := Option.map_eq_some_iff.mp h
    exact .inr ⟨by simp, by simp, v₀, hv₀, .finish rfl⟩
  · rename_i heq
    cases heq
    obtain ⟨v₀, hv₀, rfl⟩ := Option.map_eq_some_iff.mp h
    exact .inr ⟨by simp, by simp, v₀, hv₀, .drop _ _ rfl⟩
  · cases h
  · rename_i hopen hsome hnone _ hlist heq
    cases heq
    refine .inr ⟨?_, ?_, v, h, .still ?_⟩
    · rintro d rfl
      exact hopen d _ rfl
    · rintro owner repo pre rfl
      exact hlist owner repo pre _ rfl
    · intro x hx
      rcases x with _ | ent
      · exact hnone hx
      · exact hsome ent hx

/-- The call is no part of a read. -/
def Blind (o : Op) : Prop := ∀ (r : Resp o) (τ : Own), sight (⟨o, r⟩ :: τ) = sight τ

section Blind

variable {o : Op}

theorem blind_lima (o : Lima.Op) : Blind (.lima o) := fun _ _ => rfl

theorem blind_sched (o : Sched.Op) : Blind (.sched o) := fun _ _ => rfl

theorem blind_of_finalizes {name : String} (h : o.finalizes name) : Blind o := by
  cases o with
  | fs o =>
    cases o with
    | openDir | nextEntry | fileType => exact h.elim
    | _ => exact fun _ _ => rfl
  | sched o => exact blind_sched o
  | lima o | hub o => exact h.elim

end Blind

/-! ## The map -/

/-- The map knows every claim among these entries. -/
def Covers (out : ClaimMap) (seen : List (DirEntry String)) : Prop :=
  ∀ ent ∈ seen, ∀ vm, claimedVm ent.name = some vm → (out.lookup vm).isSome

/-- A read that succeeded has come to its end, and its map knows what it
has returned. -/
def SightOf (r : Except Files.Errno ClaimMap) (τ : Own) : Prop :=
  ∀ out, r = .ok out → ∃ v, sight τ = some v ∧ v.ended = true ∧ Covers out v.seen

section Map

variable {cfg : Config} {fuel : ℕ} {good : Own → Event Resp → Prop} {B : Own → Prop}
variable {out : ClaimMap} {seen : List (DirEntry String)} {ent : DirEntry String} {id : JobId}

theorem Covers.skip (h : Covers out seen) (hn : parseSpoolFilename ent.name = none) :
    Covers out (ent :: seen) := by
  intro e he vm hvm
  rcases List.mem_cons.mp he with rfl | he
  · rw [claimedVm, hn] at hvm
    cases hvm
  · exact h e he vm hvm

theorem Covers.insert (h : Covers out seen) (hn : parseSpoolFilename ent.name = some id) :
    Covers (out.insert (vmName id) ent.name) (ent :: seen) := by
  intro e he vm hvm
  by_cases hid : vm = vmName id
  · rw [hid, AList.lookup_insert]
    rfl
  · rw [AList.lookup_insert_ne hid]
    rcases List.mem_cons.mp he with rfl | he
    · rw [claimedVm, hn] at hvm
      exact absurd (Option.some.inj hvm).symm hid
    · exact h e he vm hvm

/-- The loop has put what it has read into the map. -/
def Mapping (out : ClaimMap) (τ : Own) : Prop := ∃ v, sight τ = some v ∧ Covers out v.seen

/-- What the next entry, the end or a failure leaves to be done. -/
def AfterNext (out : ClaimMap) : Except Files.Errno (Option (DirEntry String)) → Own → Prop
  | .ok (some ent), τ => ∃ v, sight τ = some (View.add ent v) ∧ Covers out v.seen
  | .ok none, τ => SightOf (.ok out) τ
  | .error _, _ => True

theorem nextEntry_sight (hgood : ∀ o r τ, Op.lists o → good τ ⟨o, r⟩) (hB : Kept Op.lists B) :
    Triple good (fun τ => B τ ∧ Mapping out τ) (fs .nextEntry) fun r τ =>
      B τ ∧ AfterNext out r τ := by
  refine Triple.op fun τ r hτ => ⟨hgood _ _ _ trivial, hB _ _ _ trivial hτ.1, ?_⟩
  obtain ⟨-, v, hv, hcov⟩ := hτ
  rcases r with e | _ | ent
  · trivial
  · rintro _ ⟨rfl⟩
    exact ⟨v.finish, by simp only [sight, hv, Option.map_some], rfl, hcov⟩
  · exact ⟨v, by simp only [sight, hv, Option.map_some], hcov⟩

/-- One entry is put into the map if its name is a claim's and it was not
found to be other than a regular file. -/
theorem addClaim_sight (hgood : ∀ o r τ, Op.lists o → good τ ⟨o, r⟩) (hB : Kept Op.lists B) :
    Triple good (fun τ => B τ ∧ AfterNext out (.ok (some ent)) τ)
      ((addClaim out ent).lower (Call.impl cfg fuel)) fun out τ => B τ ∧ Mapping out τ := by
  unfold addClaim
  split
  · rename_i hn
    refine Triple.ret fun τ h => ?_
    obtain ⟨hτ, v, hv, hcov⟩ := h
    exact ⟨hτ, _, hv, hcov.skip hn⟩
  · rename_i id hn
    refine Triple.step (o := Op.fs (.fileType ent))
      (B := fun r τ => B τ ∧ ∃ v, Covers out v.seen ∧
        sight τ = some (if Files.saysOther r then v else v.add ent))
      (fun τ r hτ => ⟨hgood _ _ _ trivial, hB _ _ _ trivial hτ.1, ?_⟩) fun r => ?_
    · obtain ⟨-, v, hv, hcov⟩ := hτ
      refine ⟨v, hcov, ?_⟩
      rcases r with e | _ | _
      · exact hv
      · exact hv
      · simp only [sight, hv, Option.map_some, View.drop, View.add, List.erase_cons_head,
          Files.saysOther, if_true]
    · rcases r with e | _ | _
      · refine Triple.ret fun τ h => ?_
        obtain ⟨hτ, v, hcov, hv⟩ := h
        exact ⟨hτ, _, hv, hcov.insert hn⟩
      · refine Triple.ret fun τ h => ?_
        obtain ⟨hτ, v, hcov, hv⟩ := h
        exact ⟨hτ, _, hv, hcov.insert hn⟩
      · refine Triple.ret fun τ h => ?_
        obtain ⟨hτ, v, hcov, hv⟩ := h
        exact ⟨hτ, v, hv, hcov⟩

/-- **The map knows every claim read**, whatever entries come and whatever
fails. -/
theorem liveVmMapFromCur_sight (hgood : ∀ o r τ, Op.lists o → good τ ⟨o, r⟩)
    (hB : Kept Op.lists B) :
    Triple good B ((liveVmMapFromCur fuel).lower (Call.impl cfg fuel)) fun r τ =>
      B τ ∧ SightOf r τ := by
  refine Triple.step (o := Op.fs (.openDir .cur))
    (B := fun r τ => B τ ∧ (r = .ok () → sight τ = some ⟨[], false⟩))
    (fun τ r hτ => ⟨hgood _ _ _ trivial, hB _ _ _ trivial hτ, ?_⟩) fun r => ?_
  · rintro rfl
    rfl
  rcases r with e | ⟨⟨⟩⟩
  · exact Triple.ret fun τ h => ⟨h.1, nofun⟩
  · show Triple _ _ (Prog.lower _ (Prog.whileSome Files.Errno.other (hostFs .nextEntry) addClaim
      fuel ∅)) _
    rw [Prog.lower_whileSome, Prog.lower_op]
    refine Triple.pre (Triple.whileSome (I := fun out τ => B τ ∧ Mapping out τ)
      (J := fun out r τ => B τ ∧ AfterNext out r τ) (Q := fun r τ => B τ ∧ SightOf r τ)
      (fun out => nextEntry_sight hgood hB) (fun out ent => addClaim_sight hgood hB)
      (fun out τ h => h) (fun out e τ h => ⟨h.1, nofun⟩) (fun out τ h => ⟨h.1, nofun⟩) fuel ∅)
      fun τ h => ⟨h.1, _, h.2 rfl, fun ent he => (by cases he)⟩

end Map

/-! ## What stands meanwhile -/

/-- The claim of the id is in `cur/`: to those who read it a claim is a
regular file. -/
def Claimed (w : World) (id : JobId) : Prop :=
  ∃ i, w.fs.tree.ino (slot id) = some i ∧ (w.fs.tree.node i).kind = .regular

/-- The entries claimed since the thread last opened `cur/`. -/
def claimedSince (t : Tid) : Daemon.History → List String
  | [] => []
  | .did u _ o r _ :: τ =>
    if u = t ∧ o = .fs (.openDir .cur) then []
    else (claims ⟨o, r⟩).toList ++ claimedSince t τ
  | .ended .. :: τ => claimedSince t τ

/-- What a reader returns for the claim of the id. -/
abbrev entryOf (id : JobId) : DirEntry String := ⟨jobFileName id, .regular⟩

/-- A claim that stands and has not been made since `cur/` was opened is
among what was read, or still to come. -/
def Sees (s : Daemon.State) (t : Tid) (id : JobId) : Prop :=
  Claimed s.world id → jobFileName id ∉ claimedSince t s.trace →
    ∀ v, sight (Entry.own t s.trace) = some v →
      entryOf id ∈ v.seen ∨ v.ended = false ∧ s.world.fs.Owes t (slot id) .regular

section Runs

variable {cfg : Config} {fuel : ℕ} {t u : Tid} {k : Task} {o : Op} {q : Oracle o} {r : Resp o}
variable {id : JobId} {w w' : World} {τ : Daemon.History} {c₀ c : Pool}
variable {Meets : Daemon.State → Line → Prop}

theorem claims_of_moved {o : Files.Op Dir String} {r : Files.Resp o} {a : Path} {name : String}
    (h : Files.moved o r = some (a, curPath name)) : claims ⟨.fs o, r⟩ = some name := by
  simp only [claims, h, if_pos]

/-- What leaves a slot leaves it empty. -/
theorem slot_of_vacates (h : step cfg.codec t o q w = some (r, w')) (ht : Tidy cfg k o)
    (hv : vacates ⟨o, r⟩ = some (jobFileName id)) : w'.fs.tree.ino (slot id) = none := by
  cases o with
  | fs o =>
    obtain ⟨s, hs, rfl⟩ := step_fs h
    -- a rename within `cur/` would fill the slot again, so it must lead elsewhere
    have hmoved : ∀ {a b : Path}, Files.moved o r = some (a, b) → a = slot id → b ≠ slot id →
        s.tree.ino (slot id) = none := by
      rintro a b hm rfl hb
      rw [(Files.state_of_moved hs hm).2, Files.State.tree_move, Files.Tree.ino_move_from hb.symm]
    have hslot : ∀ {a : Path}, (if a.dir = Dir.cur then some a.name else none) =
        some (jobFileName id) → a = slot id := by
      rintro ⟨dir, name⟩ ha
      split at ha
      · rename_i hdir
        cases ha
        cases hdir
        rfl
      · cases ha
    cases o with
    | removeFile a =>
      rcases r with e | ⟨⟨⟩⟩
      · cases hv
      · obtain rfl := hslot hv
        rw [(Files.removeFile_ok hs).2, Files.State.tree_unlink, Files.Tree.ino_unlink_self]
    | rename a b =>
      rcases r with e | ⟨⟨⟩⟩
      · cases hv
      · refine hmoved rfl (hslot hv) ?_
        rintro rfl
        cases ht.2
    | renameNoClobber a b =>
      rcases r with e | ⟨⟨⟩⟩
      · cases hv
      · refine hmoved rfl (hslot hv) ?_
        obtain rfl := hslot hv
        rintro rfl
        rcases ht with ⟨-, hb⟩ | ⟨name, -, ha | ha⟩
        · cases hb
        · cases ha
        · exact slot_ne_of_tmp ha rfl
    | _ => cases hv
  | _ => cases hv

/-- A claim that stands after a call, and was not made by it, stood
before. -/
theorem Claimed.back (h : step cfg.codec t o q w = some (r, w')) (ht : Tidy cfg k o)
    (hc : claims ⟨o, r⟩ ≠ some (jobFileName id)) {i : Files.Ino}
    (hi : w'.fs.tree.ino (slot id) = some i) :
    w.fs.tree.ino (slot id) = some i ∧ (w'.fs.tree.node i).kind = (w.fs.tree.node i).kind := by
  rcases slot_of_step h ht with hsame | hclaims | hv
  · rw [hsame] at hi
    refine ⟨hi, ?_⟩
    cases o with
    | fs o =>
      obtain ⟨s, hs, rfl⟩ := step_fs h
      exact Files.kind_of_step hs (Files.Tree.lt_next_of_ino hi)
    | _ => rw [fs_of_step h (by simp)]
  · exact absurd hclaims hc
  · rw [slot_of_vacates h ht hv] at hi
    cases hi

/-- What a call leaves owed: the claim, unless it was just returned. -/
theorem owes_of_step (h : step cfg.codec u o q w = some (r, w')) (howes : w.fs.Owes t (slot id) .regular)
    {i : Files.Ino} (hi : w.fs.tree.ino (slot id) = some i) (hi' : w'.fs.tree.ino (slot id) = some i)
    (hc : claims ⟨o, r⟩ ≠ some (jobFileName id)) (hopen : t = u → ∀ d, o ≠ .fs (.openDir d)) :
    w'.fs.Owes t (slot id) .regular ∧
        (t = u → (⟨o, r⟩ : Event Resp) ≠ ⟨.fs .nextEntry, .ok none⟩) ∨
      t = u ∧ (⟨o, r⟩ : Event Resp) = ⟨.fs .nextEntry, .ok (some (entryOf id))⟩ := by
  cases o with
  | fs o =>
    obtain ⟨s, hs, rfl⟩ := step_fs h
    have hm : ∀ a, Files.moved o r ≠ some (a, slot id) := fun a hm => hc (claims_of_moved hm)
    rcases howes.step hs hi hi' hm fun ht d hd => hopen ht d (by rw [hd]) with ⟨ho, hne⟩ | ⟨ht, he⟩
    · exact .inl ⟨ho, fun ht he => hne ht (by cases he; rfl)⟩
    · exact .inr ⟨ht, by cases he; rfl⟩
  | _ => exact .inl ⟨by rwa [fs_of_step h (by simp)], fun _ he => by cases he⟩

/-- What a read has returned of a claim it does not lose: only what is no
regular file is dropped. -/
theorem Glance.mem {v₀ v : View} (hg : Glance ⟨o, r⟩ v₀ v)
    (h : step cfg.codec u o q w = some (r, w')) (hmem : entryOf id ∈ v₀.seen) :
    entryOf id ∈ v.seen := by
  cases hg with
  | still | finish => exact hmem
  | add => exact List.mem_cons_of_mem _ hmem
  | drop ent special he =>
    cases he
    obtain ⟨s, hs, rfl⟩ := step_fs h
    simp only [Files.step, Option.some.injEq, Prod.mk.injEq] at hs
    have hother : ent.kind = .other special := by
      obtain ⟨hkind, -⟩ := hs
      split at hkind
      · cases hkind
      · exact Except.ok.inj hkind
    have hne : entryOf id ≠ ent := by
      rintro rfl
      cases hother
    exact (List.mem_erase_of_ne hne).mpr hmem

theorem Sees.called {s : Daemon.State} (hs : Sees s t id)
    (h : step cfg.codec u o q s.world = some (r, w')) (ht : Tidy cfg k o) :
    Sees (s.called (machine cfg fuel) u k o r w') t id := by
  rintro ⟨i, hino, hreg⟩ hsince v hv
  have hi : w'.fs.tree.ino (slot id) = some i := hino
  have hkind : (w'.fs.tree.node i).kind = .regular := hreg
  by_cases hopen : u = t ∧ o = .fs (.openDir .cur)
  · -- the read begins
    obtain ⟨rfl, rfl⟩ := hopen
    obtain ⟨hi₀, hk⟩ := Claimed.back h ht (by simp [claims, Files.moved]) hi
    obtain ⟨s', hs', rfl⟩ := step_fs h
    simp only [Shared.called, Entry.own_did] at hv
    rcases sight_cons hv with ⟨he, rfl⟩ | ⟨hne, -⟩
    · cases he
      have howes := Files.owes_openDir hs' (p := slot id) rfl hi₀
      rw [hk.symm.trans hkind] at howes
      exact .inr ⟨rfl, howes⟩
    · exact absurd rfl (hne .cur)
  have hlist : claimedSince t (.did u k o r s.world :: s.trace) =
      (claims ⟨o, r⟩).toList ++ claimedSince t s.trace := if_neg hopen
  obtain ⟨hc, hsince⟩ : claims ⟨o, r⟩ ≠ some (jobFileName id) ∧
      jobFileName id ∉ claimedSince t s.trace := by
    have hnot : jobFileName id ∉ claimedSince t (.did u k o r s.world :: s.trace) := hsince
    rwa [hlist, List.mem_append, not_or, Option.mem_toList] at hnot
  obtain ⟨hi₀, hk⟩ := Claimed.back h ht hc hi
  have hstood := hs ⟨i, hi₀, hk ▸ hkind⟩ hsince
  by_cases hut : u = t
  · subst hut
    simp only [Shared.called, Entry.own_did] at hv
    rcases sight_cons hv with ⟨he, -⟩ | ⟨hnopen, -, v₀, hv₀, hglance⟩
    · cases he
      exact absurd ⟨rfl, rfl⟩ hopen
    rcases hstood v₀ hv₀ with hmem | ⟨hended, howes⟩
    · exact .inl (hglance.mem h hmem)
    rcases owes_of_step h howes hi₀ hi hc fun _ d => hnopen d with ⟨howes, hne⟩ | ⟨-, he⟩
    · cases hglance with
      | finish he => exact absurd he (hne rfl)
      | _ => exact .inr ⟨hended, howes⟩
    · -- the claim itself is returned
      cases hglance with
      | still hno => exact absurd he (hno _)
      | add ent he' =>
        rw [he] at he'
        cases he'
        exact .inl List.mem_cons_self
      | finish he' | drop _ _ he' =>
        rw [he] at he'
        cases he'
  · simp only [Shared.called, Entry.own_did_of_ne hut] at hv
    rcases hstood v hv with hseen | hlater
    · exact .inl hseen
    · obtain ⟨hended, howes⟩ := hlater
      refine .inr ⟨hended, ?_⟩
      rcases owes_of_step h howes hi₀ hi hc fun htu => absurd htu.symm hut with ⟨ho, -⟩ | ⟨htu, -⟩
      · exact ho
      · exact absurd htu.symm hut

/-- **What stands is seen**: in every run, a claim that stands and has not
been made since one of the loops last opened `cur/` is among what that
read has returned, once it has come to its end. -/
theorem sees_run (h₀ : Daemon.Start cfg fuel c₀) (hr : (machine cfg fuel).Run Meets c₀ c)
    (ht : t < 3) (id : JobId) : Sees c.toShared t id := by
  induction hr with
  | start =>
    intro _ _ v hv
    rw [h₀.trace] at hv
    cases hv
  | @step c c' e hr hs hm ih =>
    have hr' := hr.step hs hm
    cases hs with
    | @call u k o f q r w hat hq hnew =>
      exact ih.called hq (Slots.good_line (w := c.world) h₀ hr' (List.suffix_refl _)).tidy
    | again => exact ih
    | @exit u k hat =>
      have hu : 3 ≤ u := ((staffed_run h₀ hr).stands u k _ hat).ends
      have hut : t ≠ u := Nat.ne_of_lt (ht.trans_le hu)
      intro hclaimed hsince v hv
      exact (ih hclaimed hsince v hv).imp_right fun ⟨hended, howes⟩ => ⟨hended, howes.setScan hut⟩
    | crash _ hw => cases hw
    | @env e w hw =>
      cases hw
      rintro ⟨i, hi, hkind⟩ hsince v hv
      have hi : c.world.fs.tree.ino (slot id) = some i := (e.ino_step (by simp)).symm.trans hi
      rw [e.node_step (Files.Tree.lt_next_of_ino hi)] at hkind
      refine (ih ⟨i, hi, hkind⟩ hsince v hv).imp_right fun ⟨hended, howes⟩ => ⟨hended, ?_⟩
      cases e with
      | deliver name file =>
        have hnew : (⟨.new, name⟩ : Path) ≠ slot id := by simp [slot]
        exact howes.create hnew
      | _ => exact howes

end Runs

end Sight

end GhaConsumer
