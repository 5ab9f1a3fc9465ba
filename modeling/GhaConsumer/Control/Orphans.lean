import GhaConsumer.Control.Jobs
import GhaConsumer.Host.Sample

/-!
# Control — the orphans GC plans

GC's map of live VMs has the VMs of all names in `cur/` that are claims,
but for those it can see are no files. A row needs more than that, and so
the response calls an orphan what GC does not plan to reap exactly where
some VM of the snapshot has a claim that may not be shown (`agrees_iff`).
-/

namespace GhaConsumer

namespace Jobs

open Interleave Alone Ranking
open Files (Bytes Errno)

variable {cfg : Config} {C : Codec} {F : Faults} {lossy : Bytes → String}
variable {snapshot : VmSnapshot} {name vm : String} {w w' s s' : World}
variable {seen : List String} {fuel n : ℕ} {out out' : ClaimMap}

/-! ## The live map -/

/-- The VM GC takes an entry of `cur/` for a claim of. -/
def gcClaims (F : Faults) (w : World) (name : String) : Option String :=
  match w.fs.tree.ino (curPath name) with
  | none => none
  | some i =>
    let kind := (w.fs.tree.node i).kind
    if kind ≠ .regular ∧ F (.fileType ⟨name, kind⟩) = false then none else claimedVm name

/-- `live_vm_map_from_cur` at one entry, on the host. -/
def addClaimHost (cfg : Config) (fuel : ℕ) (out : ClaimMap) (ent : Files.DirEntry String) :
    Prog Resp ClaimMap := (addClaim out ent).lower (Call.impl cfg fuel)

theorem addClaim_ends {e : Files.DirEntry String} (he : e ∈ w.fs.list .cur)
    (h : Ends (hostStep C (Failing F)) (addClaimHost cfg fuel out e) s out' s') :
    (∃ n, s' = s.later n) ∧ ∀ vm, vm ∈ out' ↔ vm ∈ out ∨ gcClaims F w e.name = some vm := by
  obtain ⟨i, hi, hkind⟩ := Files.mem_list.mp he
  unfold gcClaims claimedVm
  unfold addClaimHost addClaim at h
  simp only [hi, ← hkind]
  cases hid : parseSpoolFilename e.name with
  | none =>
    rw [hid] at h
    obtain ⟨rfl, rfl⟩ := h
    exact ⟨⟨0, rfl⟩, fun vm => by simp⟩
  | some id =>
    rw [hid] at h
    obtain ⟨r, s₁, h₁, h⟩ := ends_step.mp h
    obtain ⟨hlater, rfl⟩ := fileType_failing h₁
    have hadded : ∀ vm, vm ∈ out.insert (vmName id) e.name ↔
        vm ∈ out ∨ (some id).map vmName = some vm := by
      intro vm
      rw [AList.mem_insert, Option.map_some, Option.some.injEq, or_comm]
      exact or_congr_right eq_comm
    cases hk : e.kind with
    | regular =>
      -- seen to be a file or not seen, it is a claim
      rw [hk] at h
      rw [if_neg (by simp)]
      cases hF : F (.fileType e) <;> rw [hF] at h <;> obtain ⟨rfl, rfl⟩ := h <;>
        exact ⟨hlater, hadded⟩
    | other special =>
      have he' : e = ⟨e.name, .other special⟩ := by rw [← hk]
      rw [hk] at h
      rw [← he']
      cases hF : F (.fileType e) with
      | true =>
        rw [hF] at h
        obtain ⟨rfl, rfl⟩ := h
        rw [if_neg (by simp)]
        exact ⟨hlater, hadded⟩
      | false =>
        rw [hF] at h
        obtain ⟨rfl, rfl⟩ := h
        rw [if_pos ⟨by simp, rfl⟩]
        exact ⟨hlater, fun vm => by simp⟩

/-- The loop of `live_vm_map_from_cur`, on the host. -/
def mapRest (cfg : Config) (fuel n : ℕ) (out : ClaimMap) : Prog Resp (Except Errno ClaimMap) :=
  Prog.whileSome Errno.other (Prog.op (Op.fs .nextEntry)) (addClaimHost cfg fuel) n out

/-- The loop goes through the names to come, once each. -/
theorem mapRest_ends {r : Except Errno ClaimMap} (hnext : F .nextEntry = false)
    (hfuel : (w.names .cur).length < seen.length + n) (hr : ReadUpTo w .cur seen s)
    (h : Ends (hostStep C (Failing F)) (mapRest cfg fuel n out) s r s') :
    ∃ out' more, r = .ok out' ∧ (seen ++ more).Perm (w.names .cur) ∧
      ∀ vm, vm ∈ out' ↔ vm ∈ out ∨ ∃ name ∈ more, gcClaims F w name = some vm := by
  induction n generalizing seen s out with
  | zero =>
    obtain ⟨sc, -, hperm, -⟩ := hr.rest
    have hlen := hperm.length_eq
    rw [List.length_append] at hlen
    omega
  | succ n ih =>
    obtain ⟨ent, s₁, h₁, h⟩ := ends_step.mp h
    rcases hr.nextEntry (fun q hq => hq.trans hnext) h₁ with ⟨rfl, hperm, -⟩ | ⟨e, rfl, he, hr₁⟩
    · obtain ⟨rfl, -⟩ := h
      exact ⟨out, [], rfl, by simpa using hperm, fun vm => by simp⟩
    · obtain ⟨out₁, s₂, h₂, h⟩ := ends_bind.mp h
      obtain ⟨⟨k, rfl⟩, hout₁⟩ := addClaim_ends he h₂
      have hfuel₁ : (w.names .cur).length < (seen ++ [e.name]).length + n := by
        rw [List.length_append, List.length_singleton]
        omega
      obtain ⟨out', more, rfl, hperm, hout'⟩ := ih hfuel₁ (hr₁.later k) h
      refine ⟨out', e.name :: more, rfl, by simpa using hperm, fun vm => ?_⟩
      rw [hout', hout₁, or_assoc]
      simp only [List.mem_cons, exists_eq_or_imp]

/-- `live_vm_map_from_cur`, on the host. -/
def liveVmMapHost (cfg : Config) (fuel : ℕ) : Prog Resp (Except Errno ClaimMap) :=
  (liveVmMapFromCur fuel).lower (Call.impl cfg fuel)

/-- **The live map**: none where `cur/` cannot be read, and otherwise the
VMs of all that GC takes for claims. -/
theorem liveVmMap_ends {r : Except Errno ClaimMap} (hfuel : (w.names .cur).length < fuel)
    (h : Ends (hostStep C (Failing F)) (liveVmMapHost cfg fuel) w r w') :
    if curUnreadable F then r = .error .other
    else ∃ out, r = .ok out ∧
      ∀ vm, vm ∈ out ↔ ∃ name ∈ w.names .cur, gcClaims F w name = some vm := by
  obtain ⟨r₁, w₁, h₁, h⟩ := ends_step.mp h
  unfold curUnreadable
  cases hopen : F (.openDir .cur) with
  | true =>
    obtain rfl := openDir_error hopen h₁
    exact h.1
  | false =>
    obtain ⟨rfl, hr⟩ := readUpTo_openDir (fun q hq => hq.trans hopen) rfl h₁
    have h : Ends _ ((Prog.whileSome Errno.other (hostFs .nextEntry) addClaim fuel ∅).lower
      (Call.impl cfg fuel)) _ r w' := h
    rw [Prog.lower_whileSome] at h
    have h : Ends _ (mapRest cfg fuel fuel ∅) _ r w' := h
    cases hnext : F .nextEntry with
    | true =>
      obtain ⟨k, rfl⟩ : ∃ k, fuel = k + 1 := ⟨fuel - 1, by omega⟩
      obtain ⟨ent, w₂, h₂, h⟩ := ends_step.mp h
      obtain rfl := nextEntry_error hnext h₂
      exact h.1
    | false =>
      obtain ⟨out, more, rfl, hperm, hout⟩ := mapRest_ends hnext (by simpa using hfuel) hr h
      refine ⟨out, rfl, fun vm => ?_⟩
      rw [hout]
      have hperm : more.Perm (w.names .cur) := by simpa using hperm
      constructor
      · rintro (hmem | ⟨name, hname, hvm⟩)
        · exact absurd hmem (AList.notMem_empty vm)
        · exact ⟨name, hperm.mem_iff.mp hname, hvm⟩
      · rintro ⟨name, hname, hvm⟩
        exact .inr ⟨name, hperm.mem_iff.mpr hname, hvm⟩

/-- It is read. -/
theorem exists_liveVmMap (cfg : Config) (fuel : ℕ) (F : Faults) (w : World) :
    ∃ r w', Ends (hostStep C (Failing F)) (liveVmMapHost cfg fuel) w r w' := by
  have honly : (liveVmMapHost cfg fuel).Only Op.readsOnly := by
    refine (liveVmMapFromCur_only fun _ h => h).lower _ fun o ho => ?_
    cases o with
    | host o =>
      cases o with
      | fs o => cases o <;> first | exact ho.elim | exact Prog.only_op trivial
      | _ => exact ho.elim
    | _ => exact ho.elim
  obtain ⟨r, w₁, h₁⟩ := exists_read (C := C) (F := F) (s := w) (o := .fs (.openDir .cur)) trivial
    (by simp)
  obtain ⟨x, w', hend, -⟩ := exists_reading (C := C) (F := F) (honly.2 r) (scanOk_openDir h₁)
  exact ⟨x, w', r, w₁, h₁, hend⟩

/-! ## The two views -/

/-- **The response and the plan name the same orphans**, whatever each is
given of the names in `cur/`, and whatever image the VMs have. -/
def AgreesWithGc (cfg : Config) (lossy : Bytes → String) (F : Faults) (w : World)
    (snapshot : VmSnapshot) : Prop :=
  ∀ (fuel : ℕ) (resp : JobsResponse) (live : Except Errno ClaimMap) (w₁ w₂ : World)
    (managed : List ManagedVm) (current : Option ImageIdentity),
    (w.names .cur).length < fuel →
    Ends (hostStep cfg.codec (Failing F)) (jobs cfg lossy snapshot) w resp w₁ →
    Ends (hostStep cfg.codec (Failing F)) (liveVmMapHost cfg fuel) w live w₂ →
    managed.map (·.name) = snapshot.names →
    ∀ vm, vm ∈ resp.orphanVms ↔ .orphan vm ∈ planVmReaps managed live.toOption current

/-- There is a claim of every VM that GC takes for claimed among those
listed: more of its claims can be read than names are left out. And where
`cur/` cannot be read there is no VM. -/
def ShowsClaims (C : Codec) (F : Faults) (w : World) (snapshot : VmSnapshot) : Prop :=
  if curUnreadable F then snapshot.names = []
  else ∀ vm ∈ snapshot.names, (∃ name ∈ w.names .cur, gcClaims F w name = some vm) →
    (w.names .cur).length - activeCap <
      (w.names .cur).countP fun name => vmShown C F w.fs.tree name == some vm

/-- A claim that shows is one GC counts. -/
theorem gcClaims_of_shown (h : vmShown C F w.fs.tree name = some vm) :
    gcClaims F w name = some vm := by
  unfold vmShown readable at h
  unfold gcClaims
  cases ho : Files.opened w.fs.tree (curPath name) with
  | error e =>
    rw [ho] at h
    cases h
  | ok i =>
    rw [ho] at h
    obtain ⟨hi, -⟩ := Files.opened_ok ho
    have hkind : (w.fs.tree.node i).kind = .regular := by
      by_contra hkind
      obtain ⟨e, hread⟩ : ∃ e, readResult C (curPath name) w.fs.tree = .error e :=
        readResult_of_special hi hkind
      rw [hread] at h
      simp [Except.isOk, Except.toBool] at h
    rw [hi]
    show (if (w.fs.tree.node i).kind ≠ .regular ∧ _ then none else claimedVm name) = some vm
    rw [if_neg (by simp [hkind])]
    exact (Option.ite_none_right_eq_some.mp h).2

theorem orphan_mem_planVmReaps {managed : List ManagedVm} {current : Option ImageIdentity} :
    .orphan vm ∈ planVmReaps managed (some out) current ↔
      vm ∈ managed.map (·.name) ∧ vm ∉ out := by
  unfold planVmReaps planVmReap
  simp only [List.mem_filterMap, List.mem_map]
  constructor
  · rintro ⟨m, hm, h⟩
    cases hl : out.lookup m.name with
    | none =>
      rw [hl] at h
      cases h
      exact ⟨⟨m, hm, rfl⟩, AList.lookup_eq_none.mp hl⟩
    | some cur =>
      rw [hl] at h
      dsimp only at h
      split at h
      · split at h <;> cases h
      · cases h
  · rintro ⟨⟨m, hm, rfl⟩, hout⟩
    exact ⟨m, hm, by rw [AList.lookup_eq_none.mpr hout]⟩

/-- **Exactly where every claim has one that shows** do the two agree. -/
theorem agrees_iff (cfg : Config) (lossy : Bytes → String) (F : Faults) (w : World)
    (snapshot : VmSnapshot) :
    AgreesWithGc cfg lossy F w snapshot ↔ ShowsClaims cfg.codec F w snapshot := by
  constructor
  · intro h
    obtain ⟨live, w₂, hlive⟩ := exists_liveVmMap (C := cfg.codec) cfg ((w.names .cur).length + 1) F w
    have hmap := liveVmMap_ends (Nat.lt_succ_self _) hlive
    -- what a run of `jobs` shows is compared with this map
    have hvms : ∀ claimed, ClaimsShown cfg.codec F w claimed → ∀ vm ∈ snapshot.names,
        vm ∉ claimed → .orphan vm ∈ planVmReaps
          (snapshot.names.map fun vm => ⟨vm, none⟩) live.toOption none := by
      intro claimed hclaimed vm hvm hnot
      obtain ⟨resp, w₁, hjobs, horphans⟩ := exists_jobs hclaimed lossy snapshot
      refine (h _ resp live w₁ w₂ _ none (Nat.lt_succ_self _) hjobs hlive ?_ vm).mp ?_
      · rw [List.map_map]
        exact List.map_id _
      · rw [horphans]
        exact mem_orphanVmNames.mpr ⟨hvm, hnot⟩
    unfold ShowsClaims
    unfold ClaimsShown at hvms
    split at hmap <;> rename_i hun
    · rw [if_pos hun]
      rw [hmap] at hvms
      refine List.eq_nil_iff_forall_not_mem.mpr fun vm hvm => ?_
      have hplan := hvms [] (by rw [if_pos hun]) vm hvm (by simp)
      cases hplan
    · rw [if_neg hun]
      obtain ⟨out, rfl, hout⟩ := hmap
      intro vm hvm hclaim
      by_contra hfew
      obtain ⟨given, rest, hperm, hlen, hcount⟩ := exists_given (w.names .cur)
        (fun name => vmShown cfg.codec F w.fs.tree name == some vm) activeCap
      have hnone : vm ∉ given.filterMap (vmShown cfg.codec F w.fs.tree) := by
        intro hmem
        obtain ⟨name, hname, hshown⟩ := List.mem_filterMap.mp hmem
        have hpos : 0 < given.countP fun name => vmShown cfg.codec F w.fs.tree name == some vm :=
          List.countP_pos_iff.mpr ⟨name, hname, by simp [hshown]⟩
        omega
      have hplan := hvms _ (by rw [if_neg hun]; exact ⟨given, ⟨⟨rest, hperm⟩, hlen⟩, rfl⟩) vm hvm
        hnone
      exact (orphan_mem_planVmReaps.mp hplan).2 ((hout vm).mpr hclaim)
  · intro h fuel resp live w₁ w₂ managed current hfuel hjobs hlive hmanaged vm
    obtain ⟨claimed, hclaimed, horphans⟩ := jobs_orphans hjobs
    have hmap := liveVmMap_ends hfuel hlive
    rw [horphans, mem_orphanVmNames]
    unfold ShowsClaims at h
    unfold ClaimsShown at hclaimed
    split at hmap <;> rename_i hun
    · rw [if_pos hun] at h
      rw [hmap, h]
      simp [Except.toOption, planVmReaps]
    · rw [if_neg hun] at h hclaimed
      obtain ⟨out, rfl, hout⟩ := hmap
      obtain ⟨given, ⟨⟨rest, hperm⟩, hlen⟩, rfl⟩ := hclaimed
      rw [Except.toOption, orphan_mem_planVmReaps, hmanaged]
      refine and_congr_right fun hvm => not_congr ?_
      rw [List.mem_filterMap, hout]
      constructor
      · rintro ⟨name, hname, hshown⟩
        exact ⟨name, hperm.mem_iff.mp (List.mem_append_left _ hname), gcClaims_of_shown hshown⟩
      · intro hclaim
        have hmany := h vm hvm hclaim
        have hcount := countP_given
          (P := fun name => vmShown cfg.codec F w.fs.tree name == some vm) hperm
        obtain ⟨name, hname, hshown⟩ := List.countP_pos_iff.mp
          (show 0 < given.countP fun name => vmShown cfg.codec F w.fs.tree name == some vm by omega)
        exact ⟨name, hname, by simpa using hshown⟩

/-- Job 42 is claimed. -/
def claimedWorld : World := .sample [(curPath "42.job", ⟨.regular, [10], 0⟩)] 9000000000

/-- `cur/` cannot be opened. -/
def noCur : Faults := (· = .openDir .cur)

/-- **Shown as an orphan, and kept**: `cur/` cannot be read, so GC reaps
nothing, and the response says GC will reap the VM of a claimed job. -/
theorem unreadable_orphan : ∃ resp live w₁ w₂,
    Ends (hostStep sampleConfig.codec (Failing noCur))
      (jobs sampleConfig (fun _ => "") ⟨9000, [(vmName 42, none)]⟩) claimedWorld resp w₁ ∧
    Ends (hostStep sampleConfig.codec (Failing noCur)) (liveVmMapHost sampleConfig 2) claimedWorld
      live w₂ ∧
    vmName 42 ∈ resp.orphanVms ∧
    planVmReaps [⟨vmName 42, none⟩] live.toOption none = [] ∧
    ¬ AgreesWithGc sampleConfig (fun _ => "") noCur claimedWorld ⟨9000, [(vmName 42, none)]⟩ := by
  have hshown : ClaimsShown sampleConfig.codec noCur claimedWorld [] := rfl
  obtain ⟨resp, w₁, hjobs, horphans⟩ := exists_jobs hshown (fun _ => "") ⟨9000, [(vmName 42, none)]⟩
  obtain ⟨live, w₂, hlive⟩ := exists_liveVmMap (C := sampleConfig.codec) sampleConfig 2 noCur
    claimedWorld
  have hfuel : (claimedWorld.names .cur).length < 2 := by decide +kernel
  have hmap : live = .error .other := liveVmMap_ends hfuel hlive
  have hmem : vmName 42 ∈ resp.orphanVms := by
    rw [horphans]
    exact mem_orphanVmNames.mpr ⟨List.mem_cons_self, by simp⟩
  rw [hmap] at hlive
  refine ⟨resp, _, w₁, w₂, hjobs, hlive, hmem, rfl, fun h => ?_⟩
  have hplan := (h 2 resp _ w₁ w₂ [⟨vmName 42, none⟩] none hfuel hjobs hlive rfl (vmName 42)).mp hmem
  cases hplan

end Jobs

end GhaConsumer
