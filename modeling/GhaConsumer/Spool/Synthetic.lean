import GhaConsumer.Gc.Reconcile
import GhaConsumer.Host.Alone
import GhaConsumer.Host.Sample
import GhaConsumer.Intake.Verdict
import GhaConsumer.Spool.Calls
import GhaConsumer.Spool.Read

/-!
# Spool — synthetic claims

A synthetic claim is the reconciler's own webhook record: it signs the
body itself, so that whoever reads the claim back checks it as any other
and gets the event the worker was started with (`classify_synthetic`). It
is written under another name, synced, and moved into its slot without
clobbering, so that the slot holds nothing else on the way
(`synthetic_claim_runs`).
-/

namespace GhaConsumer

namespace Synthetic

open Interleave Alone
open Files (Bytes Errno Ino)

variable {C : Codec} {secret body : Bytes} {job : JobStatus} {fullName : String}

/-! ## The signature -/

theorem hexVal_digitChar {d : ℕ} (h : d < 16) : hexVal (Nat.digitChar d) = some d := by
  have hd : ∀ d < 16, hexVal (Nat.digitChar d) = some d := by decide
  exact hd d h

theorem hexDecode_flatMap (bs : Bytes) :
    hexDecode (bs.flatMap fun b => [Nat.digitChar (b.toNat / 16), Nat.digitChar (b.toNat % 16)])
      = some bs := by
  induction bs with
  | nil => rfl
  | cons b bs ih =>
    have hb : b.toNat < 256 := b.toNat_lt
    have hbyte : UInt8.ofNat (16 * (b.toNat / 16) + b.toNat % 16) = b := by
      rw [Nat.div_add_mod, UInt8.ofNat_toNat]
    rw [List.flatMap_cons]
    simp only [List.cons_append, List.nil_append, hexDecode]
    rw [hexVal_digitChar (by omega), hexVal_digitChar (by omega), ih]
    simp only [Option.bind_eq_bind, Option.bind_some, hbyte]
    rfl

/-- Hex digits written read back. -/
theorem hexDecode_hexEncode (bs : Bytes) : hexDecode (hexEncode bs).toList = some bs := by
  rw [hexEncode, String.toList_ofList]
  exact hexDecode_flatMap bs

/-- What `sign_body` writes, `verify_signature` accepts. -/
theorem verifySignature_signBody (hlen : (C.hmacSha256 secret body).length = 32) :
    verifySignature C (signBody C secret body) body secret = true := by
  have hpre : List.isPrefixOf? "sha256=".toList (signBody C secret body).toList
      = some (hexEncode (C.hmacSha256 secret body)).toList := by
    rw [List.isPrefixOf?_eq_some_iff_append_eq, signBody, String.toList_append]
  rw [verifySignature_eq_true]
  simp only [parseSignature, hpre, hexDecode_hexEncode, Option.bind_eq_bind, Option.bind_some,
    if_pos hlen]

/-! ## The record -/

/-- What the libraries are relied on for: a digest is 32 bytes long,
compact JSON is one line, and both halves of this record read back. -/
structure Reads (C : Codec) (secret : Bytes) (job : JobStatus) (fullName : String) : Prop where
  digest : (C.hmacSha256 secret (C.encodeJob (syntheticEvent job fullName))).length = 32
  line : 10 ∉ C.encodeEnvelope (syntheticEnvelope C secret job fullName)
  envelope : C.decodeEnvelope (C.encodeEnvelope (syntheticEnvelope C secret job fullName)) =
    .ok (syntheticEnvelope C secret job fullName)
  body : C.decodeJob (C.encodeJob (syntheticEvent job fullName)) =
    .ok (syntheticEvent job fullName)

/-- The record is within the limits of `read_spool_file`. -/
structure Fits (C : Codec) (secret : Bytes) (job : JobStatus) (fullName : String) : Prop where
  file : (syntheticBytes C secret job fullName).length ≤ maxFileBytes
  envelope : (C.encodeEnvelope (syntheticEnvelope C secret job fullName)).length ≤
    maxEnvelopeBytes

theorem splitSpoolFile_synthetic {name : String} (hr : Reads C secret job fullName)
    (hf : Fits C secret job fullName) :
    splitSpoolFile C name (syntheticBytes C secret job fullName) =
      .ok (syntheticEnvelope C secret job fullName, C.encodeJob (syntheticEvent job fullName)) := by
  have hnl : (syntheticBytes C secret job fullName).findIdx? (· == 10) =
      some (C.encodeEnvelope (syntheticEnvelope C secret job fullName)).length := by
    rw [syntheticBytes, List.findIdx?_append]
    have hnone : (C.encodeEnvelope (syntheticEnvelope C secret job fullName)).findIdx? (· == 10)
        = none := by
      rw [List.findIdx?_eq_none_iff]
      intro b hb
      rw [beq_eq_false_iff_ne]
      rintro rfl
      exact hr.line hb
    rw [hnone]
    simp [List.findIdx?_cons]
  simp only [splitSpoolFile, hnl, if_neg (Nat.not_lt.mpr hf.file),
    if_neg (Nat.not_lt.mpr hf.envelope)]
  simp only [syntheticBytes, List.take_left, hr.envelope]
  simp

/-- **A synthetic record is accepted as the event the worker gets.** -/
theorem classify_synthetic {allowedRepos runnerLabels : List String} {runnerLabel : String}
    (hr : Reads C secret job fullName) (hrepo : fullName ∈ allowedRepos)
    (hlabels : classifyJobLabels C job.labels runnerLabel runnerLabels = .accept) :
    classifyValidatedEntry C job.id (syntheticEnvelope C secret job fullName)
      (C.encodeJob (syntheticEvent job fullName)) secret allowedRepos runnerLabel runnerLabels
        = .run (buildEvent fullName job) := by
  rw [classify_eq_run, validateEnvelope_eq_none, crossCheck_eq_none]
  have hsig : verifySignature C (syntheticEnvelope C secret job fullName).signature
      (C.encodeJob (syntheticEvent job fullName)) secret = true :=
    verifySignature_signBody hr.digest
  exact ⟨⟨.inr rfl, hsig, rfl, hrepo⟩, rfl, hr.body, ⟨rfl, rfl, rfl, rfl⟩, rfl, hlabels⟩

/-! ## The slot -/

/-- The host, and which files are on disk as they stand. -/
structure Disk where
  world : World
  synced : Ino → Bool

/-- Which files are, after a call. -/
def syncedAfter (synced : Ino → Bool) : (o : Op) → Resp o → Ino → Bool
  | .fs (.createNew _), .ok i => Function.update synced i false
  | .fs (.writeAll i _), _ => Function.update synced i false
  | .fs (.syncAll i), .ok () => Function.update synced i true
  | _, _ => synced

/-- One call, whatever the host answers. -/
def diskStep (C : Codec) : Alone.Step Resp Disk := fun o s r s' =>
  hostStep C AnyAnswer o s.world r s'.world ∧ s'.synced = syncedAfter s.synced o r

/-- The job's slot in `cur/`. -/
abbrev slot (job : JobStatus) : Path := curPath (jobFileName job.id)

/-- A file of these bytes, and on disk. -/
def Stands (p : Path) (data : Bytes) (s : Disk) : Prop :=
  ∃ i, s.world.fs.tree.ino p = some i ∧
    s.world.contents p = some (.regular, data) ∧ s.synced i = true

/-- The slot is as it was in `w`. -/
def Untouched (job : JobStatus) (w : World) (s : Disk) : Prop :=
  s.world.contents (slot job) = w.contents (slot job)

/-- File `i` is staged under another name, with these bytes. -/
def Staged (job : JobStatus) (w : World) (tmp : Path) (i : Ino) (data : Bytes) (s : Disk) : Prop :=
  Untouched job w s ∧ s.world.fs.tree.ino tmp = some i ∧
    s.world.contents tmp = some (.regular, data)

variable {w : World} {s s' : Disk} {tmp p : Path} {i : Ino} {data : Bytes} {pid nonce : ℕ}

/-- A call that neither names the slot nor rewrites its file. -/
theorem untouched_of_step {o : Files.Op Dir String} {r : Files.Resp o} (hu : Untouched job w s)
    (h : diskStep C (.fs o) s r s') (hp : slot job ∉ o.paths)
    (hw : ∀ i, s.world.fs.tree.ino (slot job) = some i → ¬ o.Rewrites s.world.fs i) :
    Untouched job w s' :=
  (contents_host h.1 hp hw).trans hu

/-- On the way, the slot is as it was or holds the record. -/
def SlotKept (job : JobStatus) (w : World) (data : Bytes) (s : Disk) : Prop :=
  Untouched job w s ∨ Stands (slot job) data s

/-- A call of a stamp leaves what stands as it stands. -/
theorem stands_of_stamps {o : Op} {r : Resp o} (ho : o.stamps) (hst : Stands p data s)
    (h : diskStep C o s r s') : Stands p data s' := by
  obtain ⟨i, hi, hdata, hsync⟩ := hst
  cases o with
  | fs o =>
    obtain ⟨hpaths, hrw⟩ := Op.stamps.paths ho
    refine ⟨i, ?_, (contents_host h.1 (by simp [hpaths]) fun _ _ => hrw _ _).trans hdata, ?_⟩
    · exact (ino_host h.1 (by simp [hpaths])).trans hi
    · rw [h.2]
      cases o with
      | openRead | fstat | now | setModified => exact hsync
      | _ => exact ho.elim
  | _ => exact ho.elim

/-! ## The steps -/

theorem untouched_look {o : Files.Op Dir String} {r : Files.Resp o} (hu : Untouched job w s)
    (h : diskStep C (.fs o) s r s') (hp : o.paths = []) (hw : ∀ (s : FileState) i, ¬ o.Rewrites s i) :
    Untouched job w s' :=
  untouched_of_step hu h (by simp [hp]) fun _ _ => hw _ _

/-- The temporary is new, and empty. -/
theorem staged_of_createNew {r : Except Errno Ino} (hne : tmp ≠ slot job) (hu : Untouched job w s)
    (h : diskStep C (.fs (.createNew tmp)) s r s') :
    Untouched job w s' ∧ ∀ i, r = .ok i → Staged job w tmp i [] s' := by
  have hu' : Untouched job w s' :=
    untouched_of_step hu h (by simpa [Files.Op.paths] using hne.symm) fun _ _ hr => hr
  refine ⟨hu', fun i hr => ⟨hu', ?_⟩⟩
  obtain ⟨q, now, f, -, -, hs, hw⟩ := fs_host h.1
  subst hr
  simp only [Files.step] at hs
  split at hs
  · cases hs
  · split at hs <;> cases hs
    rw [hw]
    refine ⟨Files.Tree.ino_create_self, ?_⟩
    simp [World.contents]

/-- What is written to the temporary does not reach the slot. -/
theorem staged_of_writeAll {data' : Bytes} {r : Except Errno Unit} (hne : tmp ≠ slot job)
    (hst : Staged job w tmp i data s) (h : diskStep C (.fs (.writeAll i data')) s r s') :
    Untouched job w s' ∧ (r = .ok () → Staged job w tmp i data' s') := by
  obtain ⟨hu, hi, hdata⟩ := hst
  have hu' : Untouched job w s' := by
    refine untouched_of_step hu h (by simp [Files.Op.paths]) fun j hj hr => ?_
    have hij : j = i := hr
    exact hne (Files.Tree.path_unique hi (hij ▸ hj))
  refine ⟨hu', fun hr => ⟨hu', ?_⟩⟩
  obtain ⟨q, now, f, -, -, hs, hw⟩ := fs_host h.1
  subst hr
  simp only [Files.step] at hs
  split at hs <;> cases hs
  have hkind : (s.world.fs.tree.node i).kind = .regular := by
    simp only [World.contents, hi, Option.map_some, Option.some.injEq, Prod.mk.injEq] at hdata
    exact hdata.1
  rw [hw]
  refine ⟨hi, ?_⟩
  simp [World.contents, hi, hkind]

theorem synced_of_syncAll {r : Except Errno Unit} (hst : Staged job w tmp i data s)
    (h : diskStep C (.fs (.syncAll i)) s r s') :
    Staged job w tmp i data s' ∧ (r = .ok () → s'.synced i = true) := by
  have hworld : s'.world.fs.tree = s.world.fs.tree := by
    obtain ⟨q, now, f, -, -, hs, hw⟩ := fs_host h.1
    cases hs
    rw [hw]
  refine ⟨?_, fun hr => ?_⟩
  · unfold Staged Untouched World.contents at hst ⊢
    rwa [hworld]
  · rw [h.2, hr]
    exact Function.update_self ..

/-- The slot takes the record whole, or stays as it was. -/
theorem stands_of_rename {r : Except Errno Unit} (hst : Staged job w tmp i data s)
    (hsync : s.synced i = true)
    (h : diskStep C (.fs (.renameNoClobber tmp (slot job))) s r s') :
    r = .ok () ∧ Stands (slot job) data s' ∨ (∃ e, r = .error e) ∧ Untouched job w s' := by
  obtain ⟨q, now, f, -, -, hs, hw⟩ := fs_host h.1
  obtain ⟨hu, hi, hdata⟩ := hst
  rcases r with e | _
  · refine .inr ⟨⟨e, rfl⟩, ?_⟩
    have hsame := Files.renameNoClobber_error hs
    unfold Untouched World.contents at hu ⊢
    rw [hw, hsame]
    exact hu
  · obtain ⟨-, -, hmove⟩ := Files.renameNoClobber_ok hs
    have hino : s'.world.fs.tree.ino (slot job) = some i := by
      rw [hw, hmove, Files.State.tree_move]
      exact Files.Tree.ino_move_to hi
    have hnode : s'.world.fs.tree.node = s.world.fs.tree.node := by
      rw [hw, hmove, Files.State.tree_move]
      exact Files.Tree.node_move
    refine .inl ⟨rfl, i, hino, ?_, by rw [h.2]; exact hsync⟩
    simp only [World.contents, hi, hino, Option.map_some, hnode] at hdata ⊢
    exact hdata

theorem untouched_of_removeFile {r : Except Errno Unit} (hne : tmp ≠ slot job)
    (hu : Untouched job w s) (h : diskStep C (.fs (.removeFile tmp)) s r s') : Untouched job w s' :=
  untouched_of_step hu h (by simpa [Files.Op.paths] using hne.symm) fun _ _ hr => hr

/-! ## The claim -/

/-- The temporary is written and synced, or an error is returned. -/
theorem writePrivateFile_staged (hne : tmp ≠ slot job) :
    Triple (diskStep C) (SlotKept job w data) (Untouched job w) (writePrivateFile tmp data)
      fun r s => Untouched job w s ∧
        (r = .ok () → ∃ i, Staged job w tmp i data s ∧ s.synced i = true) := by
  refine Triple.call (B := fun r s => Untouched job w s ∧ ∀ i, r = .ok i → Staged job w tmp i [] s)
    (fun s r s₁ _ hu hs => ?_) fun r => ?_
  · have := staged_of_createNew hne hu hs
    exact ⟨.inl this.1, this⟩
  · split
    · exact Triple.ret fun s _ h => ⟨h.1, nofun⟩
    · rename_i i
      refine Triple.call (B := fun r s => Untouched job w s ∧
        (r = .ok () → Staged job w tmp i data s)) (fun s r s₁ _ hu hs => ?_) fun r => ?_
      · have := staged_of_writeAll hne (hu.2 i rfl) hs
        exact ⟨.inl this.1, this⟩
      · split
        · exact Triple.ret fun s _ h => ⟨h.1, nofun⟩
        · refine Triple.call (B := fun r s => Untouched job w s ∧
            (r = .ok () → ∃ i, Staged job w tmp i data s ∧ s.synced i = true))
            (fun s r s₁ _ hu hs => ?_) fun r => Triple.ret fun s _ h => h
          have hst := synced_of_syncAll (hu.2 rfl) hs
          exact ⟨.inl hst.1.1, hst.1.1, fun hr => ⟨i, hst.1, hst.2 hr⟩⟩

/-- What has been claimed is the record. -/
def Claims (job : JobStatus) (data : Bytes) (r : Except String (Option String)) (s : Disk) : Prop :=
  ∀ name, r = .ok (some name) → name = jobFileName job.id ∧ Stands (slot job) data s

theorem writeSyntheticClaim_kept (cfg : Config) (hC : cfg.codec = C) :
    Triple (diskStep C) (SlotKept job w (syntheticBytes C cfg.webhookSecret job fullName))
      (Untouched job w) (writeSyntheticClaim cfg job fullName)
      (Claims job (syntheticBytes C cfg.webhookSecret job fullName)) := by
  subst hC
  set data := syntheticBytes cfg.codec cfg.webhookSecret job fullName with hdata
  have hlook : ∀ {o : Files.Op Dir String} {s s' : Disk} {r : Files.Resp o}, o.paths = [] →
      (∀ (s : FileState) i, ¬ o.Rewrites s i) → Untouched job w s →
      diskStep cfg.codec (.fs o) s r s' → SlotKept job w data s' ∧ Untouched job w s' :=
    fun hp hrw hu hs => ⟨.inl (untouched_look hu hs hp hrw), untouched_look hu hs hp hrw⟩
  refine Triple.call (B := fun _ => Untouched job w)
    (fun s r s₁ _ hu hs => hlook (o := .tryExists _) rfl (fun _ _ hr => hr) hu hs) fun r => ?_
  split
  · exact Triple.ret fun s _ _ => nofun
  · refine Triple.call (B := fun _ => Untouched job w)
      (fun s r s₁ _ hu hs => hlook (o := .now) rfl (fun _ _ hr => hr) hu hs) fun nonce => ?_
    have hne : curPath (tmpName job cfg.pid nonce) ≠ slot job := fun h =>
      tmpName_ne_jobFileName job cfg.pid nonce job.id (congrArg Files.Path.name h)
    have hremove : ∀ {α : Type} {a : α} {Q : α → Disk → Prop}, (∀ s, Q a s) →
        Triple (diskStep cfg.codec) (SlotKept job w data) (Untouched job w)
          (fs (.removeFile (curPath (tmpName job cfg.pid nonce))) >>= fun _ => pure a) Q :=
      fun hQ => Triple.call (B := fun _ => Untouched job w)
        (fun s r s₁ _ hu hs => ⟨.inl (untouched_of_removeFile hne hu hs),
          untouched_of_removeFile hne hu hs⟩) fun _ => Triple.ret fun s _ _ => hQ s
    refine (writePrivateFile_staged hne).bind fun r => ?_
    split
    · exact Triple.ret fun s _ _ => nofun
    · refine Triple.call (B := fun r s => r = .ok () ∧ Stands (slot job) data s ∨
        (∃ e, r = .error e) ∧ Untouched job w s) (fun s r s₁ _ hu hs => ?_) fun r => ?_
      · obtain ⟨i, hst, hsync⟩ := hu.2 rfl
        have := stands_of_rename hst hsync hs
        exact ⟨this.elim (fun h => .inr h.2) fun h => .inl h.2, this⟩
      · split
        · have hstamp : Triple (diskStep cfg.codec) (SlotKept job w data)
              (Stands (slot job) data) (stampMtimeNow (curPath (jobFileName job.id)))
              fun _ => Stands (slot job) data :=
            Triple.only (stampMtimeNow_only _) fun o s r s₁ ho _ hst hs =>
              ⟨.inr (stands_of_stamps ho hst hs), stands_of_stamps ho hst hs⟩
          refine (hstamp.pre fun s _ h => ?_).bind fun _ => Triple.ret fun s _ hst => ?_
          · rcases h with h | ⟨⟨e, he⟩, -⟩
            · exact h.2
            · cases he
          · rintro name ⟨⟩
            exact ⟨rfl, hst⟩
        · exact (hremove fun _ => nofun).pre fun s _ h => by
            rcases h with ⟨he, -⟩ | h
            · cases he
            · exact h.2
        · exact (hremove fun _ => nofun).pre fun s _ h => by
            rcases h with ⟨he, -⟩ | h
            · cases he
            · exact h.2

/-! ## Reading it back -/

/-- The claim `name`, read where the disk does not fail and checked under
its own name and the policy, runs `event`. -/
def RunsAs (cfg : Config) (name : String) (event : WorkflowJob) (w : World) : Prop :=
  (∃ r w', Ends (hostStep cfg.codec Faultless) (readSpoolFile cfg.codec name) w r w') ∧
    ∀ r w', Ends (hostStep cfg.codec Faultless) (readSpoolFile cfg.codec name) w r w' →
      ∃ id env body, parseSpoolFilename name = some id ∧ r = .ok (env, body) ∧
        classifyValidatedEntry cfg.codec id env body cfg.webhookSecret cfg.allowedRepos
          cfg.runnerLabel cfg.runnerLabels = .run event

variable {cfg : Config}

/-- The record in its slot runs as the worker's event. -/
theorem runsAs_of_stands (hr : Reads cfg.codec cfg.webhookSecret job fullName)
    (hf : Fits cfg.codec cfg.webhookSecret job fullName) (hrepo : fullName ∈ cfg.allowedRepos)
    (hlabels : classifyJobLabels cfg.codec job.labels cfg.runnerLabel cfg.runnerLabels = .accept)
    (hst : Stands (slot job) (syntheticBytes cfg.codec cfg.webhookSecret job fullName) s) :
    RunsAs cfg (jobFileName job.id) (buildEvent fullName job) s.world := by
  obtain ⟨i, hi, hdata, -⟩ := hst
  have hlooks := looks_readSpoolFileAt (C := cfg.codec) (slot job)
  obtain ⟨n, htotal⟩ := hlooks.total s.world
  refine ⟨⟨_, _, htotal⟩, fun r w' h => ⟨job.id, syntheticEnvelope cfg.codec cfg.webhookSecret job
    fullName, _, parseSpoolFilename_jobFileName job.id, ?_,
    classify_synthetic hr hrepo hlabels⟩⟩
  simp only [World.contents, hi, Option.map_some, Option.some.injEq, Prod.mk.injEq] at hdata
  obtain ⟨hkind, hbytes⟩ := hdata
  rw [(hlooks.ends h).1, readResult_of_some hi (by rw [hkind]; rfl)]
  simp only [readNode, hkind, hbytes, if_neg (Nat.not_lt.mpr hf.file), ne_eq, not_true_eq_false,
    if_false]
  exact splitSpoolFile_synthetic hr hf

/-- **A synthetic claim says what its worker was told.** Whatever its
calls answer: when it has claimed, its slot holds a file that is read back
and accepted as the worker's very event; and wherever it is stopped, the
slot is as it was or holds that file, which is then on disk. -/
theorem synthetic_claim_runs (s : Disk)
    (hr : Reads cfg.codec cfg.webhookSecret job fullName)
    (hf : Fits cfg.codec cfg.webhookSecret job fullName) (hrepo : fullName ∈ cfg.allowedRepos)
    (hlabels : classifyJobLabels cfg.codec job.labels cfg.runnerLabel cfg.runnerLabels = .accept) :
    (∀ name s', Ends (diskStep cfg.codec) (writeSyntheticClaim cfg job fullName) s
        (.ok (some name)) s' →
      name = jobFileName job.id ∧
        Stands (slot job) (syntheticBytes cfg.codec cfg.webhookSecret job fullName) s' ∧
        RunsAs cfg name (buildEvent fullName job) s'.world) ∧
    ∀ s', Visits (diskStep cfg.codec) (writeSyntheticClaim cfg job fullName) s s' →
      s'.world.contents (slot job) = s.world.contents (slot job) ∨
        Stands (slot job) (syntheticBytes cfg.codec cfg.webhookSecret job fullName) s' ∧
          RunsAs cfg (jobFileName job.id) (buildEvent fullName job) s'.world := by
  have hkept := @writeSyntheticClaim_kept _ job fullName s.world cfg rfl s (.inl rfl) rfl
  refine ⟨fun name s' h => ?_, fun s' h => ?_⟩
  · obtain ⟨rfl, hst⟩ := (hkept.ends h).2 name rfl
    exact ⟨rfl, hst, runsAs_of_stands hr hf hrepo hlabels hst⟩
  · rcases hkept.visits h with hu | hst
    · exact .inl hu
    · exact .inr ⟨hst, runsAs_of_stands hr hf hrepo hlabels hst⟩

/-! ## One record -/

/-- The body of the sample job's record. -/
def sampleBody : Bytes :=
  ("\x7b\"action\":\"queued\",\"repository\":\x7b\"full_name\":\"o/r\",\"id\":1\x7d," ++
    "\"workflow_job\":\x7b\"id\":42,\"labels\":[\"mac\"],\"name\":\"build\"," ++
    "\"run_attempt\":1,\"run_id\":7\x7d\x7d").toUTF8.toList

/-- Its HMAC-SHA-256 under the secret `s`, in hex. -/
def sampleDigest : String := "f4336bc4c6b571eb4ada1dc659c1615b07d22426fd734f8becd1fb22cad30989"

/-- Its envelope, and the line that spells it. -/
def sampleSynthetic : Envelope where
  schema := 2
  event := "workflow_job"
  delivery := "reconciler:42"
  repoId := 1
  repo := "o/r"
  action := "queued"
  workflowJobId := 42
  receivedAtMs := 0
  signature := "sha256=" ++ sampleDigest

def sampleLine : Bytes :=
  ("\x7b\"action\":\"queued\",\"delivery\":\"reconciler:42\",\"event\":\"workflow_job\"," ++
    "\"received_at_ms\":0,\"repo\":\"o/r\",\"repo_id\":1,\"schema\":2," ++
    "\"signature\":\"sha256=" ++ sampleDigest ++ "\",\"workflow_job_id\":42\x7d").toUTF8.toList

/-- The libraries, on this record. -/
def recordCodec : Codec where
  hmacSha256 secret body :=
    if secret = [115] ∧ body = sampleBody then (hexDecode sampleDigest.toList).getD []
    else .replicate 32 0
  decodeEnvelope bytes := if bytes = sampleLine then .ok sampleSynthetic else .error "line"
  decodeJob bytes := if bytes = sampleBody then .ok (syntheticEvent sampleStatus "o/r")
    else .error "body"
  encodeEnvelope _ := sampleLine
  encodeJob _ := sampleBody
  decodeInstance _ := none
  debugStr s := s

def recordConfig : Config := { sampleConfig with codec := recordCodec, webhookSecret := [115] }

theorem syntheticEnvelope_sample :
    syntheticEnvelope recordCodec [115] sampleStatus "o/r" = sampleSynthetic := by decide +kernel

theorem reads_sample : Reads recordCodec [115] sampleStatus "o/r" where
  digest := by decide +kernel
  line := show 10 ∉ sampleLine by decide +kernel
  envelope := by rw [syntheticEnvelope_sample]; exact if_pos rfl
  body := if_pos rfl

theorem fits_sample : Fits recordCodec [115] sampleStatus "o/r" where
  file := by decide +kernel
  envelope := by decide +kernel

/-- No call fails, and no time passes. -/
def diskExec (o : Op) (s : Disk) : Option (Resp o × Disk) :=
  (step recordCodec 0 o (Answers.oracle {} o) (s.world.later 0)).map fun x =>
    (x.1, ⟨x.2, syncedAfter s.synced o x.1⟩)

theorem diskStep_of_exec (o : Op) (s : Disk) (r : Resp o) (s' : Disk)
    (h : diskExec o s = some (r, s')) : diskStep recordCodec o s r s' := by
  obtain ⟨⟨r', w⟩, hs, heq⟩ := Option.map_eq_some_iff.mp h
  cases heq
  exact ⟨⟨Answers.oracle {} o, 0, trivial, hs⟩, rfl⟩

theorem claims_sample : (run diskExec (writeSyntheticClaim recordConfig sampleStatus "o/r")
    ⟨.sample [] 9000000000, fun _ => false⟩).map (·.1) = some (.ok (some "42.job")) := by
  decide +kernel

/-- The sample job's record is claimed and read back, on a host without
files. -/
theorem synthetic_claim_runs_sample :
    ∃ s', Ends (diskStep recordConfig.codec) (writeSyntheticClaim recordConfig sampleStatus "o/r")
        ⟨.sample [] 9000000000, fun _ => false⟩ (.ok (some "42.job")) s' ∧
      RunsAs recordConfig "42.job" (buildEvent "o/r" sampleStatus) s'.world := by
  obtain ⟨⟨r, s'⟩, hrun, hr⟩ := Option.map_eq_some_iff.mp claims_sample
  have hr : r = .ok (some "42.job") := hr
  subst hr
  have hends := ends_of_run diskStep_of_exec hrun
  have hreads : Reads recordConfig.codec recordConfig.webhookSecret sampleStatus "o/r" :=
    reads_sample
  have hfits : Fits recordConfig.codec recordConfig.webhookSecret sampleStatus "o/r" := fits_sample
  have hlabels : classifyJobLabels recordConfig.codec sampleStatus.labels recordConfig.runnerLabel
      recordConfig.runnerLabels = .accept := by decide +kernel
  have hall := (synthetic_claim_runs _ hreads hfits (by decide) hlabels).1 "42.job" s' hends
  exact ⟨s', hends, hall.2.2⟩

end Synthetic

end GhaConsumer
