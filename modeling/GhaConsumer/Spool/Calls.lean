import GhaConsumer.Spool.Model

/-!
# Spool — which calls each function makes

Most of what one task owes the others is a matter of which calls it makes
and on which paths, whatever the answers: a stamp changes times, a
finalize moves its own claim and markers, a claim and a synthetic claim
move files into their own slot of `cur/`.
-/

namespace GhaConsumer

open Interleave Prog

/-! ## Kinds of calls -/

/-- The archive directories. -/
def Dir.isArchive : Dir → Bool
  | .done | .error => true
  | _ => false

/-- The calls of `stamp_mtime_now`. -/
def Op.stamps : Op → Prop
  | .fs (.openRead _) | .fs (.fstat _) | .fs .now | .fs (.setModified ..) => True
  | _ => False

/-- The calls of `read_spool_file`. -/
def Op.reads : Op → Prop
  | .fs (.openRead _) | .fs (.fstat _) | .fs (.read ..) => True
  | _ => False

/-- The calls of a finalize of `cur/<name>`: the claim moves into the
archive, and markers move within it. -/
def Op.finalizes (name : String) : Op → Prop
  | .sched .lockArchive | .sched .unlockArchive | .fs (.tryExists _) => True
  | .fs (.write p _) => p = ⟨.error, name ++ ".err"⟩
  | .fs (.renameNoClobber p p') | .fs (.rename p p') =>
    (p = curPath name ∨ p.dir.isArchive = true) ∧ p'.dir.isArchive = true
  | o => o.stamps

/-- The calls of `try_claim`. -/
def Op.claims (name : String) : Op → Prop
  | .fs (.tryExists _) => True
  | .fs (.removeFile p) => p = ⟨.new, name⟩ ∨ p = curPath name
  | .fs (.renameNoClobber p p') => p = ⟨.new, name⟩ ∧ p' = curPath name
  | o => o.stamps

/-- The calls of `write_synthetic_claim`. -/
def Op.synthesizes (cfg : Config) (job : JobStatus) : Op → Prop
  | .fs (.tryExists _) | .fs (.writeAll ..) | .fs (.syncAll _) => True
  | .fs (.createNew p) | .fs (.removeFile p) => ∃ nonce, p = curPath (tmpName job cfg.pid nonce)
  | .fs (.renameNoClobber p p') =>
    (∃ nonce, p = curPath (tmpName job cfg.pid nonce)) ∧ p' = curPath (jobFileName job.id)
  | o => o.stamps

/-- The calls of `expire_stale_cur`. -/
def Op.expires (o : Op) : Prop :=
  (∃ name, o.finalizes name) ∨ o = .fs (.openDir .cur) ∨ o = .fs .nextEntry ∨
    ∃ name, o = .fs (.lstat (curPath name))

/-- A finalize may stamp. -/
theorem Op.stamps.finalizes {o : Op} (h : o.stamps) (name : String) : o.finalizes name := by
  unfold Op.stamps at h
  split at h <;> trivial

/-- And so may a claim. -/
theorem Op.stamps.claims {o : Op} (h : o.stamps) (name : String) : o.claims name := by
  unfold Op.stamps at h
  split at h <;> trivial

theorem Op.stamps.synthesizes {o : Op} (h : o.stamps) (cfg : Config) (job : JobStatus) :
    o.synthesizes cfg job := by
  unfold Op.stamps at h
  split at h <;> trivial

/-- The calls on files, and those that take and release the archive lock. -/
def Op.files : Op → Prop
  | .fs _ | .sched .lockArchive | .sched .unlockArchive => True
  | _ => False

/-- None of these functions does anything else. -/
theorem Op.finalizes.files {o : Op} {name : String} (h : o.finalizes name) : o.files := by
  cases o with
  | fs => trivial
  | sched o =>
    cases o with
    | lockArchive | unlockArchive => trivial
    | _ => exact h.elim
  | lima | hub => exact h.elim

theorem Op.claims.files {o : Op} {name : String} (h : o.claims name) : o.files := by
  cases o with
  | fs => trivial
  | sched | lima | hub => exact h.elim

theorem Op.stamps.files {o : Op} (h : o.stamps) : o.files := (h.claims "").files

theorem Op.synthesizes.files {o : Op} {cfg : Config} {job : JobStatus}
    (h : o.synthesizes cfg job) : o.files := by
  cases o with
  | fs => trivial
  | sched | lima | hub => exact h.elim

theorem Op.expires.files {o : Op} (h : o.expires) : o.files := by
  rcases h with ⟨name, h⟩ | rfl | rfl | ⟨name, rfl⟩
  · exact h.files
  all_goals trivial

/-! ## Names -/

/-- A name a claim is staged under begins with a dot. -/
theorem tmpName_toList (job : JobStatus) (pid nonce : ℕ) :
    ∃ cs, (tmpName job pid nonce).toList = '.' :: cs := by
  have hlit : (toString ".tmp-reconcile-").toList = '.' :: "tmp-reconcile-".toList := by decide
  unfold tmpName
  simp only [String.toList_append, String.append_assoc]
  rw [hlit, List.cons_append]
  exact ⟨_, rfl⟩

/-- No name a claim is staged under is a claim's. -/
theorem tmpName_ne_jobFileName (job : JobStatus) (pid nonce : ℕ) (id : JobId) :
    tmpName job pid nonce ≠ jobFileName id := by
  intro h
  obtain ⟨cs, hcs⟩ := tmpName_toList job pid nonce
  rw [h, jobFileName, String.toList_append] at hcs
  have hdigits : (toString id.toNat).toList = Nat.toDigits 10 id.toNat := by simp
  rw [hdigits] at hcs
  have hmem : '.' ∈ Nat.toDigits 10 id.toNat := by
    cases hd : Nat.toDigits 10 id.toNat with
    | nil => exact absurd hd Nat.toDigits_ne_nil
    | cons c cs' =>
      rw [hd, List.cons_append] at hcs
      rw [(List.cons.inj hcs).1]
      exact List.mem_cons_self
  have := Nat.isDigit_of_mem_toDigits (b := 10) (n := id.toNat) (c := '.') (by omega) (by omega)
    hmem
  simp at this

/-! ## Functions -/

/-- A stamp is a stamp, wherever it gets to. -/
theorem stampMtimeNow_only (p : Path) : (stampMtimeNow p).Only Op.stamps := by
  refine .step trivial fun r => ?_
  split
  · trivial
  · refine .step trivial fun r => ?_
    split
    · trivial
    · split
      · trivial
      · exact .step trivial fun _ => .step trivial fun _ => trivial

/-- A stamp names no path to change, and rewrites no file. -/
theorem Op.stamps.paths {o : Files.Op Dir String} (h : Op.stamps (.fs o)) :
    o.paths = [] ∧ ∀ (s : FileState) i, ¬ o.Rewrites s i := by
  cases o with
  | openRead | fstat | now | setModified => exact ⟨rfl, fun _ _ hr => hr⟩
  | _ => exact h.elim

theorem readSpoolFileAt_only (C : Codec) (p : Path) : (readSpoolFileAt C p).Only Op.reads := by
  refine .step trivial fun r => ?_
  split
  · trivial
  · refine .step trivial fun r => ?_
    split
    · trivial
    · split
      · trivial
      · split
        · trivial
        · refine .step trivial fun r => ?_
          split <;> trivial

/-- The archives are only asked after. -/
theorem isArchived_only {φ : Op → Prop} (h : ∀ p, φ (.fs (.tryExists p))) (name : String) :
    (isArchived name).Only φ := by
  refine .step (h _) fun r => ?_
  split
  · trivial
  · exact only_op (h _)

/-- A claim leaves `new/` for its own slot, or is undone. -/
theorem tryClaim_only (name : String) : (tryClaim name).Only (Op.claims name) := by
  have harch : (isArchived name).Only (Op.claims name) := isArchived_only (fun _ => trivial) name
  refine harch.bind fun b => ?_
  split
  · exact .step (.inl rfl) fun _ => trivial
  · refine ((stampMtimeNow_only _).mono fun o h => h.claims name).bind fun _ =>
      .step ⟨rfl, rfl⟩ fun r => ?_
    split
    · refine harch.bind fun b => ?_
      split
      · exact .step (.inr rfl) fun _ => trivial
      · trivial
    · trivial
    · exact .step (.inl rfl) fun _ => trivial
    · trivial

theorem preserveExisting_only (name : String) {dest : Path} (h : dest.dir.isArchive = true) :
    (preserveExisting dest).Only (Op.finalizes name) := by
  refine .step trivial fun r => ?_
  split
  · refine .step trivial fun now => .step ⟨.inr h, h⟩ fun r => ?_
    split <;> trivial
  · trivial

/-- A marker preserved stays in its directory. -/
theorem preserveExisting_returns (dest : Path) :
    (preserveExisting dest).Returns fun bak => ∀ p, bak = some p → p.dir = dest.dir := by
  refine .step fun r => ?_
  split
  · refine .step fun now => .step fun r => ?_
    split
    · rintro p ⟨⟩; rfl
    · rintro p ⟨⟩
  · rintro p ⟨⟩

/-- Over a marker or not, what moves ends in the archive. -/
theorem archiveOver_only (name : String) {dest : Path} (h : dest.dir.isArchive = true) :
    (archiveOver name dest).Only (Op.finalizes name) := by
  refine (preserveExisting_only name h).bind_returns (preserveExisting_returns dest)
    fun bak hbak => ?_
  rcases bak with _ | bak
  · refine .step ⟨.inl rfl, h⟩ fun r => ?_
    split <;> trivial
  · have hdir : bak.dir.isArchive = true := by rw [hbak bak rfl]; exact h
    refine .step ⟨.inl rfl, h⟩ fun r => ?_
    split
    · trivial
    · exact .step ⟨.inr hdir, h⟩ fun _ => trivial

theorem archive_only (name : String) {dest : Path} (h : dest.dir.isArchive = true) :
    (archive name dest).Only (Op.finalizes name) := by
  refine .step ⟨.inl rfl, h⟩ fun r => ?_
  split
  · trivial
  · trivial
  · exact archiveOver_only name h
  · trivial

theorem stampInstalled_only (dest : Path) (r : Except String Bool) :
    (stampInstalled dest r).Only Op.stamps := by
  unfold stampInstalled
  split
  · exact stampMtimeNow_only dest
  · trivial

theorem archiveAndStamp_only (context name : String) {dest : Path}
    (h : dest.dir.isArchive = true) :
    (archiveAndStamp context name dest).Only (Op.finalizes name) :=
  (archive_only name h).bind fun r =>
    ((stampInstalled_only dest r).mono fun _ ho => ho.finalizes name).bind fun _ =>
      .step trivial fun _ => trivial

theorem finalizeDone_only (name : String) : (finalizeDone name).Only (Op.finalizes name) :=
  .step trivial fun _ => archiveAndStamp_only _ name rfl

/-- A reason is written, and then the claim is archived. -/
theorem finalizeError_only (name reason : String) :
    (finalizeError name reason).Only (Op.finalizes name) :=
  .step trivial fun _ => .step rfl fun _ => archiveAndStamp_only _ name rfl

theorem writePrivateFile_only {φ : Op → Prop} {p : Path} {bytes : Files.Bytes}
    (hcreate : φ (.fs (.createNew p))) (hwrite : ∀ i, φ (.fs (.writeAll i bytes)))
    (hsync : ∀ i, φ (.fs (.syncAll i))) : (writePrivateFile p bytes).Only φ := by
  refine .step hcreate fun r => ?_
  split
  · trivial
  · refine .step (hwrite _) fun r => ?_
    split
    · trivial
    · exact only_op (hsync _)

/-- A claim is staged under a name of its own before it takes its slot. -/
theorem writeSyntheticClaim_only (cfg : Config) (job : JobStatus) (fullName : String) :
    (writeSyntheticClaim cfg job fullName).Only (Op.synthesizes cfg job) := by
  refine .step trivial fun r => ?_
  split
  · trivial
  · refine .step trivial fun nonce => (writePrivateFile_only ⟨nonce, rfl⟩ (fun _ => trivial)
      fun _ => trivial).bind fun r => ?_
    split
    · trivial
    · refine .step ⟨⟨nonce, rfl⟩, rfl⟩ fun r => ?_
      split
      · exact ((stampMtimeNow_only _).mono fun _ ho => ho.synthesizes cfg job).bind
          fun _ => trivial
      · exact .step ⟨nonce, rfl⟩ fun _ => trivial
      · exact .step ⟨nonce, rfl⟩ fun _ => trivial

theorem expireEntry_only (maxAgeSecs now : ℕ) (name : String) :
    (expireEntry maxAgeSecs now name).Only Op.expires := by
  refine .step (.inr (.inr (.inr ⟨name, rfl⟩))) fun r => ?_
  split
  · trivial
  · split
    · exact ((finalizeError_only name _).mono fun _ ho => .inl ⟨name, ho⟩).bind fun _ => trivial
    · trivial

theorem expireStaleCur_only (fuel maxAgeSecs : ℕ) :
    (expireStaleCur fuel maxAgeSecs).Only Op.expires := by
  refine .step (.inr (.inl rfl)) fun r => ?_
  split
  · trivial
  · refine .step (.inl ⟨"", trivial⟩) fun now => ?_
    have hnext : (fs .nextEntry).Only Op.expires := only_op (.inr (.inr (.inl rfl)))
    exact hnext.whileSome (fun _ ent => expireEntry_only maxAgeSecs now ent.name) fuel ()

end GhaConsumer
