import GhaConsumer.Gc.Reading
import GhaConsumer.Gc.Reconcile
import GhaConsumer.Host.Alone
import GhaConsumer.Host.Sample
import GhaConsumer.Spool.Calls

/-!
# GC — what a reconcile pass covers

One pass of the reconciler on a host to itself, whatever each call
answers. A synthetic claim takes a free slot or finds it taken; nothing
the pass does frees one. So a job that is started once is not started
again, and a job the pass has been past is covered to its end
(`reconcile_covers`).
-/

namespace GhaConsumer

namespace Coverage

open Interleave Alone
open Files (Errno)

/-! ## Slots -/

/-- The job's claim is in its slot. -/
def Claimed (id : JobId) (w : World) : Prop :=
  (w.fs.tree.ino (curPath (jobFileName id))).isSome = true

variable {cfg : Config} {C : Codec} {job : JobStatus} {fullName : String} {id : JobId}
variable {w w' : World}

/-- A call that does not name the slot leaves it. -/
theorem claimed_of_paths {o : Files.Op Dir String} {r : Files.Resp o}
    (h : hostStep C AnyAnswer (.fs o) w r w') (hp : curPath (jobFileName id) ∉ o.paths) :
    Claimed id w' ↔ Claimed id w := by
  unfold Claimed
  rw [ino_host h hp]

theorem slot_ne_tmp {pid nonce : ℕ} (id : JobId) :
    curPath (jobFileName id) ≠ curPath (tmpName job pid nonce) := fun h =>
  tmpName_ne_jobFileName job pid nonce id (congrArg Files.Path.name h).symm

/-- What the rename of a synthetic claim does to the slots. -/
theorem claimed_of_rename {pid nonce : ℕ} {r : Except Errno Unit}
    (h : hostStep C AnyAnswer
      (.fs (.renameNoClobber (curPath (tmpName job pid nonce)) (curPath (jobFileName job.id)))) w r w') :
    (Claimed id w → Claimed id w') ∧ (r = .ok () → ¬ Claimed job.id w ∧ Claimed job.id w') ∧
      (r = .error .alreadyExists → Claimed job.id w') := by
  obtain ⟨q, now, s, -, -, hs, rfl⟩ := fs_host h
  rcases r with e | _
  · have hsame := Files.renameNoClobber_error hs
    refine ⟨fun hc => by rw [hsame]; exact hc, fun h => (by cases h), fun he => ?_⟩
    cases he
    simp only [Files.step] at hs
    split at hs
    · cases hs
    · split at hs <;> cases hs
      rename_i hp'
      unfold Claimed
      rw [show w.fs.tree.ino (curPath (jobFileName job.id)) = _ from hp']
      rfl
  · obtain ⟨⟨i, hi⟩, hfree, hmove⟩ := Files.renameNoClobber_ok hs
    have hnew : s.tree.ino (curPath (jobFileName job.id)) = some i := by
      rw [hmove, Files.State.tree_move]
      exact Files.Tree.ino_move_to hi
    have hnot : ¬ Claimed job.id w := by
      unfold Claimed
      rw [show w.fs.tree.ino (curPath (jobFileName job.id)) = none from hfree]
      simp
    have hclaimed : Claimed job.id { w with fs := s } := by
      unfold Claimed
      rw [hnew]
      rfl
    refine ⟨fun hc => ?_, fun _ => ⟨hnot, hclaimed⟩, fun h => by cases h⟩
    by_cases hid : jobFileName id = jobFileName job.id
    · unfold Claimed
      rw [hid]
      exact hclaimed
    · have hne : curPath (jobFileName id) ≠ curPath (jobFileName job.id) := fun heq =>
        hid (congrArg Files.Path.name heq)
      unfold Claimed at hc ⊢
      rw [hmove, Files.State.tree_move, Files.Tree.ino_move_of_ne (slot_ne_tmp id) hne]
      exact hc

/-- A synthetic claim frees no slot. -/
theorem claimed_of_synthesizes {o : Op} {r : Resp o} (ho : o.synthesizes cfg job)
    (h : hostStep C AnyAnswer o w r w') (hc : Claimed id w) : Claimed id w' := by
  cases o with
  | fs o =>
    cases o with
    | tryExists | writeAll | syncAll | openRead | fstat | now | setModified =>
      exact (claimed_of_paths h (by simp [Files.Op.paths])).mpr hc
    | createNew p | removeFile p =>
      obtain ⟨nonce, rfl⟩ := ho
      exact (claimed_of_paths h (by simpa [Files.Op.paths] using slot_ne_tmp id)).mpr hc
    | renameNoClobber p p' =>
      obtain ⟨⟨nonce, rfl⟩, rfl⟩ := ho
      exact (claimed_of_rename h).1 hc
    | _ => exact ho.elim
  | _ => exact ho.elim

/-- A synthetic claim does not touch the runtime. -/
theorem sched_of_synthesizes {o : Op} {r : Resp o} (ho : o.synthesizes cfg job)
    (h : hostStep C AnyAnswer o w r w') : w'.sched = w.sched := by
  cases o with
  | fs o =>
    obtain ⟨q, now, s, -, -, -, rfl⟩ := fs_host h
    rfl
  | _ => exact ho.elim

/-- What a synthetic claim's answer says of its slot, which was free or
not as `taken` says. -/
def SlotAfter (id : JobId) (taken : Prop) : Except String (Option String) → World → Prop
  | .ok (some _), w => ¬ taken ∧ Claimed id w
  | .ok none, w => Claimed id w
  | .error _, _ => True

theorem writeSyntheticClaim_slot (taken : Prop) :
    Triple (hostStep cfg.codec AnyAnswer) (fun _ => True) (fun w => Claimed job.id w ↔ taken)
      (writeSyntheticClaim cfg job fullName) (SlotAfter job.id taken) := by
  have hpaths : ∀ {o : Files.Op Dir String} {r : Files.Resp o} {w w' : World},
      curPath (jobFileName job.id) ∉ o.paths → (Claimed job.id w ↔ taken) →
      hostStep cfg.codec AnyAnswer (.fs o) w r w' → (Claimed job.id w' ↔ taken) :=
    fun hp hA hs => (claimed_of_paths hs hp).trans hA
  refine Triple.call (B := fun r w => (Claimed job.id w ↔ taken) ∧ (r = true → Claimed job.id w))
    (fun w r w₁ _ hA hs => ⟨trivial, hpaths (o := .tryExists _) (by simp [Files.Op.paths]) hA hs,
      fun hr => ?_⟩) fun r => ?_
  · obtain ⟨q, now, s, -, -, hstep, rfl⟩ := fs_host hs
    cases hstep
    have hboth : (!q.fails && w.fs.tree.leads (curPath (jobFileName job.id))) = true := hr
    exact Files.Tree.isSome_of_leads (Bool.and_eq_true_iff.mp hboth).2
  split
  · rename_i hr
    exact Triple.ret fun w _ hA => hA.2 hr
  · refine Triple.call (B := fun _ w => Claimed job.id w ↔ taken) (fun w r w₁ _ hA hs =>
      ⟨trivial, hpaths (o := .now) (by simp [Files.Op.paths]) hA.1 hs⟩) fun nonce => ?_
    have hne : curPath (jobFileName job.id) ≠ curPath (tmpName job cfg.pid nonce) :=
      slot_ne_tmp job.id
    -- the claim is staged under another name: its slot is as it was until the rename
    have hwrite : Triple (hostStep cfg.codec AnyAnswer) (fun _ => True)
        (fun w => Claimed job.id w ↔ taken)
        (writePrivateFile (curPath (tmpName job cfg.pid nonce))
          (syntheticBytes cfg.codec cfg.webhookSecret job fullName))
        fun _ w => Claimed job.id w ↔ taken :=
      Triple.only (φ := fun o => ∃ o', o = .fs o' ∧ curPath (jobFileName job.id) ∉ o'.paths)
        (writePrivateFile_only ⟨_, rfl, by simpa [Files.Op.paths] using hne⟩
          (fun _ => ⟨_, rfl, by simp [Files.Op.paths]⟩)
          fun _ => ⟨_, rfl, by simp [Files.Op.paths]⟩)
        fun o w r w₁ ho _ hA hs => by
          obtain ⟨o', rfl, hp⟩ := ho
          exact ⟨trivial, hpaths hp hA hs⟩
    refine hwrite.bind fun r => ?_
    split
    · exact Triple.ret fun _ _ _ => trivial
    · refine Triple.call (B := fun r w => (r = .ok () → ¬ taken ∧ Claimed job.id w) ∧
          (r = .error .alreadyExists → Claimed job.id w))
        (fun w r w₁ _ hA hs => ⟨trivial, fun hr => ?_, (@claimed_of_rename _ _ job.id _ _ _ _ _ hs).2.2⟩)
        fun r => ?_
      · obtain ⟨hnot, hc⟩ := (@claimed_of_rename _ _ job.id _ _ _ _ _ hs).2.1 hr
        exact ⟨fun ht => hnot (hA.mpr ht), hc⟩
      · split
        · have hstamp : Triple (hostStep cfg.codec AnyAnswer) (fun _ => True)
              (fun w => ¬ taken ∧ Claimed job.id w) (stampMtimeNow (curPath (jobFileName job.id)))
              fun _ w => ¬ taken ∧ Claimed job.id w :=
            Triple.only (stampMtimeNow_only _) fun o w r w₁ ho _ hA hs =>
              ⟨trivial, hA.1, claimed_of_synthesizes (ho.synthesizes cfg job) hs hA.2⟩
          exact (hstamp.pre fun _ _ h => h.1 rfl).bind fun _ => Triple.ret fun _ _ h => h
        · refine Triple.call (B := fun _ w => Claimed job.id w) (fun w r w₁ _ hA hs =>
            ⟨trivial, (claimed_of_paths (o := .removeFile _) hs
              (by simpa [Files.Op.paths] using hne)).mpr (hA.2 rfl)⟩) fun _ => Triple.ret fun _ _ h => h
        · exact Triple.call (B := fun _ _ => True) (fun _ _ _ _ _ _ => ⟨trivial, trivial⟩)
            fun _ => Triple.ret fun _ _ _ => trivial

/-! ## The pass -/

/-- The host, and what the pass has called so far, the latest first. -/
structure Pass where
  world : World
  history : Calls

/-- One call of the pass, carried out on a host to itself. -/
def passStep (cfg : Config) (fuel : ℕ) : Alone.Step Call.Resp Pass := fun c s r s' =>
  Ends (hostStep cfg.codec AnyAnswer) (c.impl cfg fuel) s.world r s'.world ∧
    s'.history = ⟨c, r⟩ :: s.history

/-- The call of the host was made, and answered so. -/
def Said (h : Calls) (o : Op) (r : Resp o) : Prop := (⟨.host o, r⟩ : Event Call.Resp) ∈ h

/-- The claim and the event of a worker started. -/
def spawns : Event Call.Resp → Option (String × WorkflowJob)
  | ⟨.host (.sched (.spawnJob cur event)), _⟩ => some (cur, event)
  | _ => none

/-- The workers started. -/
def spawned (h : Calls) : List (String × WorkflowJob) := h.filterMap spawns

variable {fuel : ℕ} {s s' : Pass} {c : Call}

/-- A call of the host, by the pass. -/
theorem host_pass {o : Op} {r : Resp o} (h : passStep cfg fuel (.host o) s r s') :
    hostStep cfg.codec AnyAnswer o s.world r s'.world ∧ s'.history = ⟨.host o, r⟩ :: s.history := by
  obtain ⟨⟨r', w, hs, rfl, rfl⟩, hh⟩ := h
  exact ⟨hs, hh⟩

/-! ## Reading `cur/` -/

/-- The pass has only looked since `s₀`. -/
structure Idle (s₀ s : Pass) : Prop where
  tree : s.world.fs.tree = s₀.world.fs.tree
  sched : s.world.sched = s₀.world.sched
  history : s₀.history <:+ s.history
  spawned : spawned s.history = spawned s₀.history

variable {s₀ : Pass}

theorem Idle.refl : Idle s s := ⟨rfl, rfl, List.suffix_refl _, rfl⟩

/-- A call on files that changes none. -/
theorem Idle.look {o : Files.Op Dir String} {r : Files.Resp o} (hi : Idle s₀ s)
    (h : passStep cfg fuel (.host (.fs o)) s r s')
    (ho : ∀ (q : Files.Oracle String) f f', Files.step 0 o q f = some (r, f') → f'.tree = f.tree) :
    Idle s₀ s' := by
  obtain ⟨hs, hh⟩ := host_pass h
  obtain ⟨q, now, f, -, -, hs, hw⟩ := fs_host hs
  refine ⟨?_, ?_, hh ▸ hi.history.trans (List.suffix_cons _ _), ?_⟩
  · rw [hw]
    exact (ho q _ f hs).trans hi.tree
  · rw [hw]
    exact hi.sched
  · rw [hh]
    exact hi.spawned

/-- The names the read of `cur/` may still return are names there, and
each round has taken one from those it began with. -/
def Scanned (s₀ : Pass) (fuel n : ℕ) (s : Pass) : Prop :=
  ∃ sc, s.world.fs.scan 0 = some sc ∧
    (∀ e ∈ sc.offered, (s₀.world.fs.tree.ino (curPath e.name)).isSome = true) ∧
    sc.offered.length + fuel ≤ (s₀.world.fs.list .cur).length + n

/-- The VMs of a map are those of names in `cur/`. -/
def FromCur (s₀ : Pass) (claims : ClaimMap) : Prop :=
  ∀ vm ∈ claims.keys, ∃ name id, (s₀.world.fs.tree.ino (curPath name)).isSome = true ∧
    parseSpoolFilename name = some id ∧ vm = vmName id

/-- Why `cur/` could not be read. -/
def Unread (s₀ : Pass) (fuel : ℕ) (s : Pass) : Prop :=
  (∃ e, Said s.history (.fs (.openDir .cur)) (.error e)) ∨
    (∃ e, Said s.history (.fs .nextEntry) (.error e)) ∨
    fuel ≤ (s₀.world.fs.list .cur).length

theorem addClaim_scanned {m n : ℕ} {claims : ClaimMap} {ent : Files.DirEntry String}
    (hin : (s₀.world.fs.tree.ino (curPath ent.name)).isSome = true) :
    Triple (passStep cfg fuel) (Idle s₀) (fun s => Scanned s₀ m n s ∧ FromCur s₀ claims)
      (addClaim claims ent) fun claims s => Scanned s₀ m n s ∧ FromCur s₀ claims := by
  unfold addClaim
  split
  · exact Triple.ret fun _ _ h => h
  · rename_i id hid
    refine Triple.call (B := fun _ s => Scanned s₀ m n s ∧ FromCur s₀ claims)
      (fun s r s₁ hi hA hs => ⟨hi.look hs fun q f f' h => by cases h; rfl, ?_, hA.2⟩) fun r => ?_
    · obtain ⟨sc, hscan, hrest⟩ := hA.1
      refine ⟨sc, ?_, hrest⟩
      obtain ⟨q, now, f, -, -, hstep, hw⟩ := fs_host (host_pass hs).1
      cases hstep
      rw [hw]
      exact hscan
    · split
      · exact Triple.ret fun _ _ h => h
      · refine Triple.ret fun s _ h => ⟨h.1, fun vm hvm => ?_⟩
        rw [AList.keys_insert] at hvm
        rcases List.mem_cons.mp hvm with rfl | hvm
        · exact ⟨ent.name, id, hin, hid, rfl⟩
        · exact h.2 vm (List.mem_of_mem_erase hvm)

/-- What the next entry says. -/
def AfterNext (s₀ : Pass) (m n : ℕ) :
    Except Errno (Option (Files.DirEntry String)) → Pass → Prop
  | .ok (some ent), s => (s₀.world.fs.tree.ino (curPath ent.name)).isSome = true ∧ Scanned s₀ m n s
  | .ok none, _ => True
  | .error e, s => Said s.history (.fs .nextEntry) (.error e)

theorem scanned_nextEntry {m n : ℕ} {r : Except Errno (Option (Files.DirEntry String))}
    (hsc : Scanned s₀ m (n + 1) s) (h : passStep cfg fuel (.host (.fs .nextEntry)) s r s') :
    s'.world.fs.tree = s.world.fs.tree ∧ AfterNext s₀ m n r s' := by
  obtain ⟨hs, hh⟩ := host_pass h
  obtain ⟨sc, hscan, hin, hlen⟩ := hsc
  obtain ⟨q, now, f, -, -, hstep, hw⟩ := fs_host hs
  have herror : ∀ e, r = .error e → AfterNext s₀ m n r s' := by
    rintro e rfl
    show (_ : Event Call.Resp) ∈ s'.history
    rw [hh]
    exact List.mem_cons_self
  simp only [Files.step, hscan] at hstep
  split at hstep
  · cases hstep
    exact ⟨by rw [hw], herror _ rfl⟩
  · split at hstep
    · split at hstep <;> cases hstep
      exact ⟨by rw [hw], trivial⟩
    · rename_i e _
      split at hstep <;> cases hstep
      rename_i he
      refine ⟨by rw [hw]; rfl, hin e he, sc.returned e, ?_, fun e' he' => ?_, ?_⟩
      · rw [hw]
        exact Files.State.scan_setScan_self
      · exact hin e' (List.mem_of_mem_erase he')
      · have hpos : 0 < sc.offered.length := List.length_pos_of_mem he
        have herase : (sc.offered.erase e).length = sc.offered.length - 1 :=
          List.length_erase_of_mem he
        show (sc.offered.erase e).length + m ≤ _
        omega

theorem Idle.scanned {m n : ℕ} {r : Except Errno (Option (Files.DirEntry String))}
    (hi : Idle s₀ s) (hsc : Scanned s₀ m (n + 1) s)
    (h : passStep cfg fuel (.host (.fs .nextEntry)) s r s') : Idle s₀ s' := by
  have htree := (scanned_nextEntry hsc h).1
  obtain ⟨hs, hh⟩ := host_pass h
  obtain ⟨q, now, f, -, -, -, hw⟩ := fs_host hs
  refine ⟨htree.trans hi.tree, ?_, hh ▸ hi.history.trans (List.suffix_cons _ _), ?_⟩
  · rw [hw]
    exact hi.sched
  · rw [hh]
    exact hi.spawned

/-- The pass looks through `cur/`, and says why where it cannot. -/
theorem liveVmMapFromCur_pass :
    Triple (passStep cfg fuel) (Idle s₀) (fun _ => True) (liveVmMapFromCur fuel) fun r s =>
      (∀ claims, r = .ok claims → FromCur s₀ claims) ∧ ∀ e, r = .error e → Unread s₀ fuel s := by
  refine Triple.call (B := fun r s => (∀ e, r = .error e → Unread s₀ fuel s) ∧
    (r = .ok () → Scanned s₀ fuel fuel s)) (fun s r s₁ hi _ hs => ?_) fun r => ?_
  · obtain ⟨hstep, hh⟩ := host_pass hs
    obtain ⟨q, now, f, -, -, hstep, hw⟩ := fs_host hstep
    refine ⟨hi.look hs fun q f f' h => ?_, fun e he => ?_, fun hr => ?_⟩
    · simp only [Files.step] at h
      split at h <;> cases h <;> rfl
    · subst he
      refine .inl ⟨e, ?_⟩
      show (_ : Event Call.Resp) ∈ s₁.history
      rw [hh]
      exact List.mem_cons_self
    · subst hr
      simp only [Files.step] at hstep
      split at hstep <;> cases hstep
      refine ⟨⟨.cur, (s₀.world.fs.list .cur).map (·.name), s₀.world.fs.list .cur⟩, ?_,
        fun e he => ?_, le_refl _⟩
      · rw [hw]
        have hlist : ∀ n, Files.State.list { s.world.fs with now := n } .cur
            = s₀.world.fs.list .cur := by
          intro n
          unfold Files.State.list
          rw [hi.tree]
        rw [hlist]
        exact Files.State.scan_setScan_self
      · obtain ⟨i, hi, -⟩ := Files.mem_list.mp he
        rw [hi]
        rfl
  · split
    · rename_i e
      exact Triple.ret fun s _ h => ⟨fun _ hr => (by cases hr), fun e' he' => h.1 e rfl⟩
    -- by the entries left to offer, one fewer each turn: the fuel does not run out before them
    · refine (Triple.whileSome (B := fun n claims s => Scanned s₀ fuel n s ∧ FromCur s₀ claims)
        (J := fun n claims r s => AfterNext s₀ fuel n r s ∧ FromCur s₀ claims)
        (Q := fun r s => (∀ claims, r = .ok claims → FromCur s₀ claims) ∧
          ∀ e, r = .error e → Unread s₀ fuel s) (fun n claims => ?_) (fun n claims ent => ?_)
        (fun n claims s _ h => ?_) (fun n claims e s _ h => ?_) (fun claims s _ h => ?_)
        fuel ∅).pre fun s _ h => ⟨h.2 rfl, fun vm hvm => by cases hvm⟩
      · refine Triple.call (B := fun r s => AfterNext s₀ fuel n r s ∧ FromCur s₀ claims)
          (fun s r s₁ hi hA hs => ?_) fun r => Triple.ret fun _ _ h => h
        exact ⟨hi.scanned hA.1 hs, (scanned_nextEntry hA.1 hs).2, hA.2⟩
      · intro s hi hA
        exact addClaim_scanned hA.1.1 s hi ⟨hA.1.2, hA.2⟩
      · exact ⟨fun claims' hr => by cases hr; exact h.2, fun _ hr => by cases hr⟩
      · refine ⟨fun _ hr => (by cases hr), fun e' he' => .inr (.inl ⟨e, h.1⟩)⟩
      · obtain ⟨⟨sc, -, -, hlen⟩, -⟩ := h
        exact ⟨fun _ hr => (by cases hr), fun e _ => .inr (.inr (by omega))⟩

/-! ## Minting -/

/-- `classify_job_labels` accepts the job. -/
def Accepted (cfg : Config) (job : JobStatus) : Prop :=
  classifyJobLabels cfg.codec job.labels cfg.runnerLabel cfg.runnerLabels = .accept

/-- The job was listed as queued for an allowed repository, and is
accepted. -/
def Offered (cfg : Config) (h : Calls) (repoFull : String) (job : JobStatus) : Prop :=
  repoFull ∈ cfg.allowedRepos ∧ Accepted cfg job ∧ ∃ owner repo queued,
    splitOnce repoFull = some (owner, repo) ∧
    Said h (.hub (.listQueuedJobs owner repo)) (.ok queued) ∧ job ∈ queued

/-- What holds of the pass since `s₀`, while it holds `n` permits. -/
structure Good (cfg : Config) (s₀ : Pass) (n : ℕ) (s : Pass) : Prop where
  paused : s.world.sched.paused = false
  capacity : s.world.sched.capacity = s₀.world.sched.capacity
  /-- Each worker started has a permit. -/
  held : s.world.sched.holders.length =
    s₀.world.sched.holders.length + (spawned s.history).length + n
  mine : 0 < n → 0 ∈ s.world.sched.holders
  room : s.world.sched.holders.length ≤ s.world.sched.capacity
  nodup : ((spawned s.history).map fun x => x.2.workflowJob.id).Nodup
  slots : ∀ x ∈ spawned s.history, Claimed x.2.workflowJob.id s.world
  offered : ∀ x ∈ spawned s.history, ∃ repoFull job,
    Offered cfg s.history repoFull job ∧ x.2 = buildEvent repoFull job

/-- What later states keep: claims, and what has been said. -/
structure Later (s s' : Pass) : Prop where
  claimed : ∀ id, Claimed id s.world → Claimed id s'.world
  history : s.history <:+ s'.history

theorem Later.trans {s₁ s₂ s₃ : Pass} (h : Later s₁ s₂) (h' : Later s₂ s₃) : Later s₁ s₃ :=
  ⟨fun id hc => h'.claimed id (h.claimed id hc), h.history.trans h'.history⟩

theorem Later.said {o : Op} {r : Resp o} (h : Later s s') (hs : Said s.history o r) :
    Said s'.history o r := h.history.subset hs

theorem Offered.later {repoFull : String} (h : Later s s')
    (ho : Offered cfg s.history repoFull job) : Offered cfg s'.history repoFull job := by
  obtain ⟨hrepo, hacc, owner, repo, queued, hsplit, hs, hmem⟩ := ho
  exact ⟨hrepo, hacc, owner, repo, queued, hsplit, h.said hs, hmem⟩

/-- The calls of the pass once it knows the claims. -/
def Mints : Call → Prop
  | .host (.sched _) | .host (.hub _) | .writeSyntheticClaim .. => True
  | _ => False

/-- What is said is in the history. -/
theorem said_of_step {o : Op} {r : Resp o} (h : passStep cfg fuel (.host o) s r s') :
    Said s'.history o r := by
  show (_ : Event Call.Resp) ∈ s'.history
  rw [h.2]
  exact List.mem_cons_self

theorem later_pass {r : c.Resp} (hc : Mints c) (h : passStep cfg fuel c s r s') : Later s s' := by
  refine ⟨fun id hid => ?_, h.2 ▸ List.suffix_cons _ _⟩
  cases c with
  | host o =>
    cases o with
    | sched o =>
      obtain ⟨-, -, -, -, htree⟩ := sched_host (host_pass h).1
      unfold Claimed
      rwa [htree]
    | hub o =>
      unfold Claimed
      rwa [(hub_host (host_pass h).1).2]
    | fs o | lima o => exact hc.elim
  | writeSyntheticClaim job fullName =>
    exact h.1.only (writeSyntheticClaim_only cfg job fullName) (B := Claimed id)
      (fun o r w w' ho hs hB => claimed_of_synthesizes ho hs hB) hid
  | _ => exact hc.elim

theorem later_of_ends {α : Type} {p : Proc α} {a : α} (hp : p.Only Mints)
    (h : Ends (passStep cfg fuel) p s a s') : Later s s' :=
  h.only hp (B := Later s) (fun _ _ _ _ ho hs hB => hB.trans (later_pass ho hs))
    ⟨fun _ hc => hc, List.suffix_refl _⟩

/-- Only what the program calls is added to the history. -/
theorem called_of_ends {α : Type} {p : Proc α} {a : α} {φ : Call → Prop} (hp : p.Only φ)
    (h : Ends (passStep cfg fuel) p s a s') : ∀ e ∈ s'.history, e ∈ s.history ∨ φ e.1 := by
  refine h.only hp (B := fun s₁ : Pass => ∀ e ∈ s₁.history, e ∈ s.history ∨ φ e.1)
    (fun c r s₁ s₂ hc hs hB e he => ?_) fun e he => .inl he
  rw [hs.2] at he
  rcases List.mem_cons.mp he with rfl | he
  · exact .inr hc
  · exact hB e he

variable {n : ℕ}

/-- A call that starts no worker, and leaves the runtime and the claims. -/
theorem Good.quiet {r : c.Resp} (hg : Good cfg s₀ n s) (hc : Mints c)
    (h : passStep cfg fuel c s r s') (hs : s'.world.sched = s.world.sched)
    (hsp : spawns ⟨c, r⟩ = none) : Good cfg s₀ n s' := by
  have hlater := later_pass hc h
  have hspawned : spawned s'.history = spawned s.history := by
    rw [h.2]
    exact List.filterMap_cons_none hsp
  refine ⟨hs ▸ hg.paused, hs ▸ hg.capacity, ?_, hs ▸ hg.mine, hs ▸ hg.room, ?_, fun x hx => ?_,
    fun x hx => ?_⟩
  · rw [hs, hspawned]
    exact hg.held
  · rw [hspawned]
    exact hg.nodup
  · rw [hspawned] at hx
    exact hlater.claimed _ (hg.slots x hx)
  · rw [hspawned] at hx
    obtain ⟨repoFull, job, ho, heq⟩ := hg.offered x hx
    exact ⟨repoFull, job, ho.later hlater, heq⟩

theorem Good.isPaused {r : Bool} (hg : Good cfg s₀ n s)
    (h : passStep cfg fuel (.host (.sched .isPaused)) s r s') :
    r = false ∧ Good cfg s₀ n s' := by
  obtain ⟨q, st, hstep, hs, -⟩ := sched_host (host_pass h).1
  cases hstep
  exact ⟨hg.paused, hg.quiet (c := .host (.sched .isPaused)) trivial h hs rfl⟩

theorem Good.hub {o : Hub.Op} {r : Hub.Resp o} (hg : Good cfg s₀ n s)
    (h : passStep cfg fuel (.host (.hub o)) s r s') : Good cfg s₀ n s' :=
  hg.quiet (c := .host (.hub o)) trivial h (hub_host (host_pass h).1).1 rfl

/-- A permit is taken, or there is none. -/
theorem Good.tryAcquire {r : Bool} (hg : Good cfg s₀ 0 s)
    (h : passStep cfg fuel (.host (.sched .tryAcquire)) s r s') :
    (r = true → Good cfg s₀ 1 s') ∧ (r = false → Good cfg s₀ 0 s') := by
  obtain ⟨q, st, hstep, hs, -⟩ := sched_host (host_pass h).1
  have hlater := later_pass (c := .host (.sched .tryAcquire)) trivial h
  have hspawned : spawned s'.history = spawned s.history := by rw [h.2]; rfl
  simp only [Sched.step] at hstep
  split at hstep <;> cases hstep
  · rename_i hroom
    refine ⟨fun _ => ⟨?_, ?_, ?_, fun _ => ?_, ?_, ?_, fun x hx => ?_, fun x hx => ?_⟩, nofun⟩
    · rw [hs]; exact hg.paused
    · rw [hs]; exact hg.capacity
    · rw [hs, hspawned]
      show (0 :: s.world.sched.holders).length = _
      rw [List.length_cons, hg.held]
    · rw [hs]
      exact List.mem_cons_self
    · rw [hs]
      exact hroom
    · rw [hspawned]
      exact hg.nodup
    · rw [hspawned] at hx
      exact hlater.claimed _ (hg.slots x hx)
    · rw [hspawned] at hx
      obtain ⟨repoFull, job, ho, heq⟩ := hg.offered x hx
      exact ⟨repoFull, job, ho.later hlater, heq⟩
  · exact ⟨nofun, fun _ => hg.quiet (c := .host (.sched .tryAcquire)) trivial h hs rfl⟩

/-- The permit goes back. -/
theorem Good.release {r : Unit} (hg : Good cfg s₀ 1 s)
    (h : passStep cfg fuel (.host (.sched .release)) s r s') : Good cfg s₀ 0 s' := by
  obtain ⟨q, st, hstep, hs, -⟩ := sched_host (host_pass h).1
  cases hstep
  have hlater := later_pass (c := .host (.sched .release)) trivial h
  have hspawned : spawned s'.history = spawned s.history := by rw [h.2]; rfl
  have hlen : (s.world.sched.holders.erase 0).length = s.world.sched.holders.length - 1 :=
    List.length_erase_of_mem (hg.mine Nat.one_pos)
  have hheld := hg.held
  have hroom := hg.room
  refine ⟨?_, ?_, ?_, fun hn => absurd hn (lt_irrefl 0), ?_, ?_, fun x hx => ?_, fun x hx => ?_⟩
  · rw [hs]
    exact hg.paused
  · rw [hs]
    exact hg.capacity
  · rw [hs, hspawned]
    show (s.world.sched.holders.erase 0).length = _
    omega
  · rw [hs]
    show (s.world.sched.holders.erase 0).length ≤ s.world.sched.capacity
    omega
  · rw [hspawned]
    exact hg.nodup
  · rw [hspawned] at hx
    exact hlater.claimed _ (hg.slots x hx)
  · rw [hspawned] at hx
    obtain ⟨repoFull, job, ho, heq⟩ := hg.offered x hx
    exact ⟨repoFull, job, ho.later hlater, heq⟩

/-- The permit goes to a worker, of a job none was started for. -/
theorem Good.spawn {r : Interleave.Tid} {repoFull cur : String} (hg : Good cfg s₀ 1 s)
    (h : passStep cfg fuel (.host (.sched (.spawnJob cur (buildEvent repoFull job)))) s r s')
    (hnew : ∀ x ∈ spawned s.history, x.2.workflowJob.id ≠ job.id)
    (hslot : Claimed job.id s.world) (hoffer : Offered cfg s.history repoFull job) :
    Good cfg s₀ 0 s' := by
  obtain ⟨q, st, hstep, hs, -⟩ := sched_host (host_pass h).1
  cases hstep
  have hlater := later_pass (c := .host (.sched (.spawnJob cur (buildEvent repoFull job)))) trivial h
  have hspawned : spawned s'.history
      = (cur, buildEvent repoFull job) :: spawned s.history := by rw [h.2]; rfl
  have hlen : (s.world.sched.holders.erase 0).length = s.world.sched.holders.length - 1 :=
    List.length_erase_of_mem (hg.mine Nat.one_pos)
  have hheld := hg.held
  have hroom := hg.room
  refine ⟨?_, ?_, ?_, fun hn => absurd hn (lt_irrefl 0), ?_, ?_, ?_, ?_⟩
  · rw [hs]
    exact hg.paused
  · rw [hs]
    exact hg.capacity
  · rw [hs, hspawned]
    show (q.tid :: s.world.sched.holders.erase 0).length = _
    rw [List.length_cons, List.length_cons]
    omega
  · rw [hs]
    show (q.tid :: s.world.sched.holders.erase 0).length ≤ s.world.sched.capacity
    rw [List.length_cons]
    omega
  · rw [hspawned, List.map_cons, List.nodup_cons]
    refine ⟨fun hmem => ?_, hg.nodup⟩
    obtain ⟨x, hx, heq⟩ := List.mem_map.mp hmem
    exact hnew x hx heq
  · rw [hspawned]
    refine List.forall_mem_cons.mpr ⟨hlater.claimed _ hslot, fun x hx => ?_⟩
    exact hlater.claimed _ (hg.slots x hx)
  · rw [hspawned]
    refine List.forall_mem_cons.mpr ⟨⟨repoFull, job, hoffer.later hlater, rfl⟩, fun x hx => ?_⟩
    obtain ⟨repoFull', job', ho, heq⟩ := hg.offered x hx
    exact ⟨repoFull', job', ho.later hlater, heq⟩

/-- The claim is written, or its slot was taken, or it failed. -/
theorem Good.write {r : Except String (Option String)} {repoFull : String}
    (hg : Good cfg s₀ n s) (h : passStep cfg fuel (.writeSyntheticClaim job repoFull) s r s') :
    Good cfg s₀ n s' ∧ SlotAfter job.id (Claimed job.id s.world) r s'.world := by
  have hends : Ends (hostStep cfg.codec AnyAnswer) (writeSyntheticClaim cfg job repoFull)
      s.world r s'.world := h.1
  have hs : s'.world.sched = s.world.sched :=
    hends.only (writeSyntheticClaim_only cfg job repoFull)
      (B := fun w => w.sched = s.world.sched)
      (fun o r w w' ho hs hB => (sched_of_synthesizes ho hs).trans hB) rfl
  exact ⟨hg.quiet (c := .writeSyntheticClaim job repoFull) trivial h hs rfl,
    ((writeSyntheticClaim_slot (Claimed job.id s.world) s.world trivial Iff.rfl).ends hends).2⟩

/-- The job is done with: its slot is taken, or its claim could not be
written. -/
def Settled (s : Pass) (repoFull : String) (job : JobStatus) : Prop :=
  Claimed job.id s.world ∨
    ∃ e, (⟨.writeSyntheticClaim job repoFull, .error e⟩ : Event Call.Resp) ∈ s.history

theorem Settled.later {repoFull : String} (h : Later s s') (hs : Settled s repoFull job) :
    Settled s' repoFull job := by
  rcases hs with hc | ⟨e, he⟩
  · exact .inl (h.claimed _ hc)
  · exact .inr ⟨e, h.history.subset he⟩

/-- On a permit held, the job is settled, and the permit is not held any
more. -/
theorem mintClaimed_settles {repoFull : String} {r : Unit} (hg : Good cfg s₀ 1 s)
    (hoffer : Offered cfg s.history repoFull job)
    (h : Ends (passStep cfg fuel) (mintClaimed repoFull job) s r s') :
    Good cfg s₀ 0 s' ∧ Settled s' repoFull job := by
  obtain ⟨r, s₁, hwrite, h⟩ := ends_step.mp h
  obtain ⟨hg₁, hslot⟩ := hg.write hwrite
  have hlater := later_pass (c := .writeSyntheticClaim job repoFull) trivial hwrite
  rcases r with e | cur | cur
  · obtain ⟨r, s₂, hrel, -, rfl⟩ := ends_step.mp h
    have hlater₁ := later_pass (c := .host (.sched .release)) trivial hrel
    refine ⟨hg₁.release hrel, .inr ⟨e, hlater₁.history.subset ?_⟩⟩
    rw [hwrite.2]
    exact List.mem_cons_self
  · obtain ⟨r, s₂, hrel, -, rfl⟩ := ends_step.mp h
    have hlater₁ := later_pass (c := .host (.sched .release)) trivial hrel
    exact ⟨hg₁.release hrel, .inl (hlater₁.claimed _ hslot)⟩
  · obtain ⟨r, s₂, hspawn, -, rfl⟩ := ends_step.mp h
    have hlater₁ := later_pass
      (c := .host (.sched (.spawnJob cur (buildEvent repoFull job)))) trivial hspawn
    obtain ⟨hfree, hslot⟩ := hslot
    -- a worker started for this id would have left the slot taken
    have hnew : ∀ x ∈ spawned s₁.history, x.2.workflowJob.id ≠ job.id := by
      intro x hx heq
      have hspawned : spawned s₁.history = spawned s.history := by rw [hwrite.2]; rfl
      rw [hspawned] at hx
      exact hfree (heq ▸ hg.slots x hx)
    exact ⟨hg₁.spawn hspawn hnew hslot (hoffer.later hlater), .inl (hlater₁.claimed _ hslot)⟩

/-- A job is settled, unless no permit is free. -/
theorem mintJob_settles {repoFull : String} {more : Bool} (hg : Good cfg s₀ 0 s)
    (hoffer : Offered cfg s.history repoFull job)
    (h : Ends (passStep cfg fuel) (mintJob repoFull job) s more s') :
    Good cfg s₀ 0 s' ∧ (more = true → Settled s' repoFull job) ∧
      (more = false → Said s'.history (.sched .tryAcquire) false) := by
  obtain ⟨permit, s₁, hacq, h⟩ := ends_step.mp h
  have hlater := later_pass (c := .host (.sched .tryAcquire)) trivial hacq
  obtain ⟨hgot, hnone⟩ := hg.tryAcquire hacq
  cases permit with
  | false =>
    obtain ⟨rfl, rfl⟩ := h
    exact ⟨hnone rfl, nofun, fun _ => said_of_step hacq⟩
  | true =>
    obtain ⟨paused, s₂, hpaused, h⟩ := ends_step.mp h
    have hlater₁ := later_pass (c := .host (.sched .isPaused)) trivial hpaused
    obtain ⟨rfl, hg₂⟩ := (hgot rfl).isPaused hpaused
    obtain ⟨u, s₃, hmint, rfl, rfl⟩ := ends_bind.mp h
    obtain ⟨hg₃, hsettled⟩ := mintClaimed_settles hg₂ (hoffer.later (hlater.trans hlater₁)) hmint
    exact ⟨hg₃, fun _ => hsettled, nofun⟩

/-! ## The queue and the repositories -/

/-- An online idle managed runner of the job's name was listed for the
repository. -/
def RunnerListed (s : Pass) (owner repo : String) (job : JobStatus) : Prop :=
  ∃ runners, Said s.history (.hub (.listRunners owner repo vmNamePrefix)) (.ok runners) ∧
    ∃ r ∈ runners, isManagedVmName r.name = true ∧ runnerCanServe r = true ∧
      r.name = vmName job.id

/-- A job of the repository has its claim, or a runner to serve it, or its
claim could not be written. -/
def Covered (s : Pass) (owner repo : String) (job : JobStatus) : Prop :=
  Claimed job.id s.world ∨ RunnerListed s owner repo job ∨
    ∃ repoFull e, splitOnce repoFull = some (owner, repo) ∧
      (⟨.writeSyntheticClaim job repoFull, .error e⟩ : Event Call.Resp) ∈ s.history

variable {owner repo repoFull : String} {live idle : List String}

theorem Covered.later (h : Later s s') (hc : Covered s owner repo job) :
    Covered s' owner repo job := by
  rcases hc with hc | ⟨runners, hs, hrest⟩ | ⟨repoFull, e, hsplit, he⟩
  · exact .inl (h.claimed _ hc)
  · exact .inr (.inl ⟨runners, h.said hs, hrest⟩)
  · exact .inr (.inr ⟨repoFull, e, hsplit, h.history.subset he⟩)

/-- Every accepted job the pass was told of is covered. -/
def AllCovered (cfg : Config) (s : Pass) : Prop :=
  ∀ owner repo queued, Said s.history (.hub (.listQueuedJobs owner repo)) (.ok queued) →
    ∀ job ∈ queued, Accepted cfg job → Covered s owner repo job

/-- The calls that tell the pass of no job. -/
def Quiet : Call → Prop
  | .host (.hub (.listQueuedJobs ..)) => False
  | c => Mints c

theorem Quiet.mints (h : Quiet c) : Mints c := by
  cases c with
  | host o =>
    cases o with
    | hub o => trivial
    | _ => exact h
  | _ => exact h

theorem AllCovered.later (hall : AllCovered cfg s) (h : Later s s')
    (hq : ∀ e ∈ s'.history, e ∈ s.history ∨ Quiet e.1) : AllCovered cfg s' := by
  intro owner repo queued hs job hjob hacc
  rcases hq _ hs with hs | hs
  · exact (hall owner repo queued hs job hjob hacc).later h
  · exact hs.elim

theorem AllCovered.call {r : c.Resp} (hall : AllCovered cfg s) (hc : Quiet c)
    (h : passStep cfg fuel c s r s') : AllCovered cfg s' := by
  refine hall.later (later_pass hc.mints h) fun e he => ?_
  rw [h.2] at he
  rcases List.mem_cons.mp he with rfl | he
  · exact .inr hc
  · exact .inl he

/-- What mints tells the pass of no job. -/
theorem quiet_of_mints (h : c.mints) : Quiet c := by
  unfold Call.mints at h
  split at h <;> trivial

theorem mintJob_quiet : (mintJob repoFull job).Only Quiet :=
  mintJob_calls.mono fun _ => quiet_of_mints

theorem mintQueued_quiet (queue : List JobStatus) :
    (mintQueued cfg repoFull live idle queue).Only Quiet :=
  (mintQueued_calls queue).mono fun _ => quiet_of_mints

/-- The jobs of a queue are settled or need no claim, unless no permit is
free. -/
theorem mintQueued_settles {queue : List JobStatus} {more : Bool} (hg : Good cfg s₀ 0 s)
    (hoffer : ∀ job ∈ queue, Accepted cfg job → Offered cfg s.history repoFull job)
    (h : Ends (passStep cfg fuel) (mintQueued cfg repoFull live idle queue) s more s') :
    Good cfg s₀ 0 s' ∧ (more = false → Said s'.history (.sched .tryAcquire) false) ∧
      (more = true → ∀ job ∈ queue, Accepted cfg job →
        vmName job.id ∈ live ∨ vmName job.id ∈ idle ∨ Settled s' repoFull job) := by
  -- on the queue: a job is refused, or covered already, or settled by its mint; the loop stops
  -- only where a permit was refused
  induction queue generalizing s with
  | nil =>
    obtain ⟨rfl, rfl⟩ := h
    exact ⟨hg, fun h => (by cases h), fun _ job hjob => by cases hjob⟩
  | cons job rest ih =>
    obtain ⟨paused, s₁, hpaused, h⟩ := ends_step.mp h
    have hlater := later_pass (c := .host (.sched .isPaused)) trivial hpaused
    obtain ⟨rfl, hg₁⟩ := hg.isPaused hpaused
    have hrest : ∀ job ∈ rest, Accepted cfg job → Offered cfg s₁.history repoFull job :=
      fun job hjob hacc => (hoffer job (List.mem_cons_of_mem _ hjob) hacc).later hlater
    replace h : Ends (passStep cfg fuel)
        (mintNext cfg repoFull live idle job (mintQueued cfg repoFull live idle rest)) s₁ more s' := h
    unfold mintNext at h
    split at h
    · rename_i hrej
      obtain ⟨hg', hstop, hdone⟩ := ih hg₁ hrest h
      refine ⟨hg', hstop, fun hm => List.forall_mem_cons.mpr ⟨fun hacc => ?_, hdone hm⟩⟩
      exact absurd (hacc.symm.trans hrej) (by simp)
    · rename_i hacc
      by_cases hmint : shouldMint (vmName job.id) live idle = true
      · rw [hmint] at h
        obtain ⟨more₁, s₂, hjob, h⟩ := ends_bind.mp h
        have hlater₁ := later_of_ends (mintJob_quiet.mono fun _ => Quiet.mints) hjob
        obtain ⟨hg₂, hsettled, hnone⟩ := mintJob_settles hg₁
          ((hoffer job List.mem_cons_self hacc).later hlater) hjob
        cases more₁ with
        | false =>
          obtain ⟨rfl, rfl⟩ := h
          exact ⟨hg₂, fun _ => hnone rfl, fun h => by cases h⟩
        | true =>
          have hlater₂ := later_of_ends ((mintQueued_quiet rest).mono fun _ hc => hc.mints) h
          obtain ⟨hg', hstop, hdone⟩ := ih hg₂
            (fun job hjob hacc => (hrest job hjob hacc).later hlater₁) h
          exact ⟨hg', hstop, fun hm => List.forall_mem_cons.mpr
            ⟨fun _ => .inr (.inr ((hsettled rfl).later hlater₂)), hdone hm⟩⟩
      · rw [Bool.not_eq_true] at hmint
        have hcover : vmName job.id ∈ live ∨ vmName job.id ∈ idle := by
          unfold shouldMint at hmint
          by_contra hnot
          obtain ⟨hlive, hidle⟩ := not_or.mp hnot
          simp [hlive, hidle] at hmint
        rw [hmint] at h
        obtain ⟨hg', hstop, hdone⟩ := ih hg₁ hrest h
        exact ⟨hg', hstop, fun hm => List.forall_mem_cons.mpr
          ⟨fun _ => hcover.imp_right .inl, hdone hm⟩⟩

/-- The runners of the repository were asked for, and its jobs unless that
failed. -/
def Asked (s : Pass) (repoFull : String) : Prop :=
  ∀ owner repo, splitOnce repoFull = some (owner, repo) →
    ∃ runners, Said s.history (.hub (.listRunners owner repo vmNamePrefix)) runners ∧
      ((∃ e, runners = .error e) ∨ ∃ queued, Said s.history (.hub (.listQueuedJobs owner repo)) queued)

theorem Asked.later (h : Later s s') (ha : Asked s repoFull) : Asked s' repoFull := by
  intro owner repo hsplit
  obtain ⟨runners, hs, hrest⟩ := ha owner repo hsplit
  refine ⟨runners, h.said hs, hrest.imp_right fun ⟨queued, hq⟩ => ⟨queued, h.said hq⟩⟩

theorem reconcileRepos_only (repos : List String) : (reconcileRepos cfg live repos).Only Mints :=
  (reconcileRepos_calls repos).mono fun c hc => by
    unfold Call.reconciles at hc
    split at hc
    · trivial
    · trivial
    · exact (quiet_of_mints hc).mints

/-- A queue that could not be read tells of no job. -/
theorem AllCovered.unread {e : String} (hall : AllCovered cfg s)
    (h : passStep cfg fuel (.host (.hub (.listQueuedJobs owner repo))) s (.error e) s') :
    AllCovered cfg s' := by
  intro owner' repo' queued hs job hjob hacc
  have hmem : (_ : Event Call.Resp) ∈ s'.history := hs
  rw [h.2] at hmem
  rcases List.mem_cons.mp hmem with heq | hmem
  · cases heq
  · exact (hall owner' repo' queued hmem job hjob hacc).later
      (later_pass (c := .host (.hub (.listQueuedJobs owner repo))) trivial h)

/-- A queue has been read and gone through, and its jobs are covered. -/
theorem AllCovered.minted {queued : List JobStatus} {more : Bool} {s₁ s₂ : Pass}
    (hall : AllCovered cfg s)
    (hqueue : passStep cfg fuel (.host (.hub (.listQueuedJobs owner repo))) s (.ok queued) s₁)
    (hmint : Ends (passStep cfg fuel) (mintQueued cfg repoFull live idle queued) s₁ more s₂)
    (hdone : ∀ job ∈ queued, Accepted cfg job → Covered s₂ owner repo job) :
    AllCovered cfg s₂ := by
  have hlater : Later s s₂ :=
    (later_pass (c := .host (.hub (.listQueuedJobs owner repo))) trivial hqueue).trans
      (later_of_ends ((mintQueued_quiet queued).mono fun _ => Quiet.mints) hmint)
  intro owner' repo' queued' hs job hjob hacc
  rcases called_of_ends (mintQueued_quiet queued) hmint _ hs with hs | hs
  · have hmem : (_ : Event Call.Resp) ∈ s₁.history := hs
    rw [hqueue.2] at hmem
    rcases List.mem_cons.mp hmem with heq | hmem
    · cases heq
      exact hdone job hjob hacc
    · exact (hall owner' repo' queued' hmem job hjob hacc).later hlater
  · exact hs.elim

/-- A job that was settled, or needed no claim, is covered. -/
theorem covered_of_settled {runners : List Runner}
    (hsplit : splitOnce repoFull = some (owner, repo))
    (hlive : ∀ id, vmName id ∈ live → Claimed id s.world)
    (hsaid : Said s.history (.hub (.listRunners owner repo vmNamePrefix)) (.ok runners))
    (h : vmName job.id ∈ live ∨ vmName job.id ∈ idleRunners runners ∨ Settled s repoFull job) :
    Covered s owner repo job := by
  rcases h with hin | hin | hc | ⟨e, he⟩
  · exact .inl (hlive _ hin)
  · obtain ⟨r, hr, hname⟩ := List.mem_map.mp hin
    obtain ⟨hr, hserve⟩ := List.mem_filter.mp hr
    obtain ⟨hmanaged, hserve⟩ := Bool.and_eq_true_iff.mp hserve
    exact .inr (.inl ⟨runners, hsaid, r, hr, hmanaged, hserve, hname⟩)
  · exact .inl hc
  · exact .inr (.inr ⟨repoFull, e, hsplit, he⟩)

/-- Every repository is asked, and every accepted job of its queue covered,
unless no permit is free. -/
theorem reconcileRepos_covers {repos : List String} {r : Unit} (hg : Good cfg s₀ 0 s)
    (hrepos : ∀ repoFull ∈ repos, repoFull ∈ cfg.allowedRepos)
    (hlive : ∀ id, vmName id ∈ live → Claimed id s.world) (hall : AllCovered cfg s)
    (h : Ends (passStep cfg fuel) (reconcileRepos cfg live repos) s r s') :
    Good cfg s₀ 0 s' ∧ (¬ Said s'.history (.sched .tryAcquire) false →
      AllCovered cfg s' ∧ ∀ repoFull ∈ repos, Asked s' repoFull) := by
  induction repos generalizing s with
  | nil =>
    obtain ⟨-, rfl⟩ := h
    exact ⟨hg, fun _ => ⟨hall, fun repoFull hr => by cases hr⟩⟩
  | cons repoFull rest ih =>
    obtain ⟨paused, s₁, hpaused, h⟩ := ends_step.mp h
    have hlater := later_pass (c := .host (.sched .isPaused)) trivial hpaused
    obtain ⟨rfl, hg₁⟩ := hg.isPaused hpaused
    have hall₁ := hall.call (c := .host (.sched .isPaused)) trivial hpaused
    have hrest : ∀ repoFull ∈ rest, repoFull ∈ cfg.allowedRepos :=
      fun repoFull hr => hrepos repoFull (List.mem_cons_of_mem _ hr)
    -- what is asked of this repository before the rest is asked at the end
    have hthen : ∀ {s₂ : Pass}, Later s s₂ → Good cfg s₀ 0 s₂ → AllCovered cfg s₂ →
        Asked s₂ repoFull → Ends (passStep cfg fuel) (reconcileRepos cfg live rest) s₂ r s' →
        Good cfg s₀ 0 s' ∧ (¬ Said s'.history (.sched .tryAcquire) false →
          AllCovered cfg s' ∧ ∀ repoFull' ∈ repoFull :: rest, Asked s' repoFull') := by
      intro s₂ hl hg₂ hall₂ hasked h
      obtain ⟨hg', hdone⟩ := ih hg₂ hrest (fun id hid => hl.claimed _ (hlive id hid)) hall₂ h
      refine ⟨hg', fun hnone => ⟨(hdone hnone).1, List.forall_mem_cons.mpr ⟨?_, (hdone hnone).2⟩⟩⟩
      exact hasked.later (later_of_ends (reconcileRepos_only rest) h)
    replace h : Ends (passStep cfg fuel)
        (reconcileNext cfg live repoFull (reconcileRepos cfg live rest)) s₁ r s' := h
    unfold reconcileNext at h
    split at h
    · rename_i hsplit
      exact hthen hlater hg₁ hall₁ (fun owner repo h' => by rw [hsplit] at h'; cases h') h
    · rename_i owner repo hsplit
      obtain ⟨runners, s₂, hlist, h⟩ := ends_step.mp h
      have hlater₁ := hlater.trans
        (later_pass (c := .host (.hub (.listRunners owner repo vmNamePrefix))) trivial hlist)
      have hg₂ := hg₁.hub hlist
      have hall₂ := hall₁.call (c := .host (.hub (.listRunners owner repo vmNamePrefix))) trivial hlist
      have hsaid := said_of_step hlist
      rcases runners with e | runners
      · refine hthen hlater₁ hg₂ hall₂ (fun owner' repo' h' => ?_) h
        rw [hsplit] at h'
        cases h'
        exact ⟨_, hsaid, .inl ⟨e, rfl⟩⟩
      · obtain ⟨queued, s₃, hqueue, h⟩ := ends_step.mp h
        have hlater₂ := later_pass (c := .host (.hub (.listQueuedJobs owner repo))) trivial hqueue
        have hg₃ := hg₂.hub hqueue
        have hsaidq := said_of_step hqueue
        have hasked : Asked s₃ repoFull := by
          intro owner' repo' h'
          rw [hsplit] at h'
          cases h'
          exact ⟨_, hlater₂.said hsaid, .inr ⟨queued, hsaidq⟩⟩
        rcases queued with e | queued
        · exact hthen (hlater₁.trans hlater₂) hg₃ (hall₂.unread hqueue) hasked h
        · obtain ⟨more, s₄, hmint, h⟩ := ends_bind.mp h
          have hlater₃ := later_of_ends ((mintQueued_quiet queued).mono fun _ hc => hc.mints) hmint
          obtain ⟨hg₄, hstop, hdone⟩ := mintQueued_settles hg₃ (fun job hjob hacc =>
            ⟨hrepos repoFull List.mem_cons_self, hacc, owner, repo, queued, hsplit, hsaidq, hjob⟩) hmint
          cases more with
          | false =>
            obtain ⟨-, rfl⟩ := h
            exact ⟨hg₄, fun hnone => absurd (hstop rfl) hnone⟩
          | true =>
            have hlater₄ := (hlater₁.trans hlater₂).trans hlater₃
            refine hthen hlater₄ hg₄ ?_ (hasked.later hlater₃) h
            refine hall₂.minted hqueue hmint fun job hjob hacc => ?_
            exact covered_of_settled hsplit (fun id hid => hlater₄.claimed _ (hlive id hid))
              ((hlater₂.trans hlater₃).said hsaid) (hdone rfl job hjob hacc)

/-! ## A pass -/

/-- What stands in `cur/` under a name that parses stands in its slot. -/
def CanonicalCur (w : World) : Prop :=
  ∀ name id, (w.fs.tree.ino (curPath name)).isSome = true → parseSpoolFilename name = some id →
    name = jobFileName id

/-- A temporary is no claim. -/
theorem parseSpoolFilename_tmpName (job : JobStatus) (pid nonce : ℕ) :
    parseSpoolFilename (tmpName job pid nonce) = none := by
  obtain ⟨cs, hcs⟩ := tmpName_toList job pid nonce
  exact parseSpoolFilename_of_dot hcs

/-- Jobs' names and temporaries make a `cur/` canonical. -/
theorem canonicalCur_of_names
    (h : ∀ name, (w.fs.tree.ino (curPath name)).isSome = true →
      (∃ id, name = jobFileName id) ∨ ∃ job pid nonce, name = tmpName job pid nonce) :
    CanonicalCur w := by
  intro name id hin hparse
  rcases h name hin with ⟨id', rfl⟩ | ⟨job, pid, nonce, rfl⟩
  · rw [parseSpoolFilename_jobFileName] at hparse
    cases hparse
    rfl
  · rw [parseSpoolFilename_tmpName] at hparse
    cases hparse

/-- What the map of `cur/` has is claimed. -/
theorem FromCur.claimed {claims : ClaimMap} (h : FromCur s₀ claims) (hcur : CanonicalCur s₀.world)
    (hid : vmName id ∈ claims.keys) : Claimed id s₀.world := by
  obtain ⟨name, id', hin, hparse, hvm⟩ := h _ hid
  obtain rfl := vmName_injective hvm
  unfold Claimed
  rw [← hcur name id hin hparse]
  exact hin

variable {k : ℕ} {r : Except Errno Unit}

/-- **A pass of the reconciler.** By itself, not paused, with `k` permits
free, whatever `cur/` holds under canonical names and whatever each call
answers: it starts workers for accepted jobs it was told of only, one for
an id and `k` in all. Unless `cur/` cannot be read or no permit is left,
it asks for every repository, and every accepted job it is told of ends
covered. -/
theorem reconcile_covers (hpaused : w.sched.paused = false)
    (hfree : w.sched.holders.length + k = w.sched.capacity) (hcur : CanonicalCur w)
    (h : Ends (passStep cfg fuel) (reconcileInner cfg fuel) ⟨w, []⟩ r s') :
    (∀ x ∈ spawned s'.history, ∃ repoFull job,
        Offered cfg s'.history repoFull job ∧ x.2 = buildEvent repoFull job) ∧
      ((spawned s'.history).map fun x => x.2.workflowJob.id).Nodup ∧
      (spawned s'.history).length ≤ k ∧
      (∀ e, r = .error e → Unread ⟨w, []⟩ fuel s') ∧
      (r = .ok () → ¬ Said s'.history (.sched .tryAcquire) false →
        AllCovered cfg s' ∧ ∀ repoFull ∈ cfg.allowedRepos, Asked s' repoFull) := by
  obtain ⟨claims, s₁, hread, h⟩ := ends_bind.mp h
  have hstart : Idle ⟨w, []⟩ ⟨w, []⟩ := Idle.refl
  obtain ⟨hidle, hmap, hunread⟩ := (liveVmMapFromCur_pass _ hstart trivial).ends hread
  have hnone : spawned s₁.history = [] := hidle.spawned
  have hg : Good cfg ⟨w, []⟩ 0 s₁ := by
    refine ⟨?_, ?_, ?_, fun hn => absurd hn (lt_irrefl 0), ?_, ?_, fun x hx => ?_, fun x hx => ?_⟩
    · rw [hidle.sched]
      exact hpaused
    · rw [hidle.sched]
    · rw [hidle.sched, hnone]
      rfl
    · rw [hidle.sched]
      show w.sched.holders.length ≤ w.sched.capacity
      omega
    · rw [hnone]
      exact List.nodup_nil
    · rw [hnone] at hx
      cases hx
    · rw [hnone] at hx
      cases hx
  -- each worker started holds one of the permits that were free
  have hbounded : ∀ {s : Pass}, Good cfg ⟨w, []⟩ 0 s → (spawned s.history).length ≤ k := by
    intro s hg
    have hheld := hg.held
    have hroom := hg.room
    have hcap : s.world.sched.capacity = w.sched.capacity := hg.capacity
    have hheld : s.world.sched.holders.length =
      w.sched.holders.length + (spawned s.history).length + 0 := hheld
    omega
  rcases claims with e | claims
  · obtain ⟨rfl, rfl⟩ := h
    exact ⟨hg.offered, hg.nodup, hbounded hg, fun e' _ => hunread e rfl, nofun⟩
  · obtain ⟨u, s₂, hrepos, rfl, rfl⟩ := ends_bind.mp h
    have hall : AllCovered cfg s₁ := by
      intro owner repo queued hs
      rcases called_of_ends (liveVmMapFromCur_only fun _ hc => hc) hread _ hs with hs | hs
      · cases hs
      · exact hs.elim
    have hlive : ∀ id, vmName id ∈ claims.keys → Claimed id s₁.world := by
      intro id hid
      unfold Claimed
      rw [hidle.tree]
      exact (hmap claims rfl).claimed hcur hid
    obtain ⟨hg', hdone⟩ := reconcileRepos_covers hg (fun _ hr => hr) hlive hall hrepos
    exact ⟨hg'.offered, hg'.nodup, hbounded hg', nofun, fun _ => hdone⟩

/-! ## One job -/

/-- No call fails, no time passes, and GitHub lists the sample job. -/
def passExec (c : Call) (s : Pass) : Option (c.Resp × Pass) :=
  (run (fun o w => step sampleCodec 0 o
    (Answers.oracle { hub := ⟨none, true, "", [], none, none, [sampleStatus]⟩ } o) (w.later 0))
    (c.impl sampleConfig 1) s.world).map fun x => (x.1, ⟨x.2, ⟨c, x.1⟩ :: s.history⟩)

theorem passStep_of_exec (c : Call) (s : Pass) (r : c.Resp) (s' : Pass)
    (h : passExec c s = some (r, s')) : passStep sampleConfig 1 c s r s' := by
  obtain ⟨⟨r', w⟩, hs, heq⟩ := Option.map_eq_some_iff.mp h
  cases heq
  exact ⟨ends_of_run (fun o w r w' hs => ⟨_, 0, trivial, hs⟩) hs, rfl⟩

/-- The pass was refused a permit. -/
def refused : Event Call.Resp → Bool
  | ⟨.host (.sched .tryAcquire), false⟩ => true
  | _ => false

theorem mints_sample : (run passExec (reconcileInner sampleConfig 1) ⟨.sample [] 0, []⟩).map
    (fun x => (x.1, x.2.history.any refused, (spawned x.2.history).map (·.1))) =
      some (.ok (), false, ["42.job"]) := by
  decide +kernel

/-- On a host without files, the sample job is claimed and its worker
started. -/
theorem reconcile_covers_sample :
    ∃ s', Ends (passStep sampleConfig 1) (reconcileInner sampleConfig 1) ⟨.sample [] 0, []⟩
        (.ok ()) s' ∧ (spawned s'.history).map (·.1) = ["42.job"] ∧
      (spawned s'.history).length ≤ 2 ∧ AllCovered sampleConfig s' := by
  obtain ⟨⟨r, s'⟩, hrun, hr⟩ := Option.map_eq_some_iff.mp mints_sample
  obtain ⟨rfl, hr⟩ := Prod.mk.inj hr
  obtain ⟨hrefused, hspawned⟩ := Prod.mk.inj hr
  have hends := ends_of_run passStep_of_exec hrun
  have hnone : ¬ Said s'.history (.sched .tryAcquire) false := by
    intro hs
    have := List.any_eq_false.mp hrefused _ hs
    exact this rfl
  have hall := reconcile_covers (k := 2) rfl rfl
    (fun name id hin => by cases hin) hends
  exact ⟨s', hends, hspawned, hall.2.2.1, (hall.2.2.2.2 rfl hnone).1⟩

end Coverage

end GhaConsumer
