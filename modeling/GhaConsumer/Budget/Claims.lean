import GhaConsumer.Budget.Bound
import GhaConsumer.Spool.Calls
import GhaConsumer.Supervisor.Model

/-!
# Budget — what time a claim carries

A claim that comes to a worker carried the time it was made when it came
to its place in `cur/`: `try_claim` stamps the file before it moves it, and
a synthetic claim is written just before. A file that cannot be stamped for
what it is cannot be read either, and comes to no worker.
-/

namespace GhaConsumer

namespace Budget

open Interleave Alone
open Files (Ino)

variable {cfg : Config} {t : ℕ} {s s' : State} {p p' : Path} {i : Ino} {name : String}

/-- It is `t`, finalize has not been called and the installation id is
known. -/
structure At (t : ℕ) (s : State) : Prop extends Working s where
  now : s.world.fs.now = t

/-! ## Calls on files -/

section

variable {o : Files.Op Dir String} {r : Files.Resp o}

/-- A call on files takes no time. -/
theorem fs_timed (h : timedStep cfg (.fs o) s r s') (ht : At t s) :
    At t s' ∧ s'.mtime = mtimeAfter s s'.world (.fs o) r ∧
      ∃ (q : Files.Oracle String) (f : FileState), Stamps (.fs o) q ∧
        Files.step 0 o q s.world.fs = some (r, f) ∧ s'.world.fs = f := by
  obtain ⟨d, q, hq, ⟨rfl, hg⟩, hs, -, -, hmtime, hcalled⟩ := h
  obtain ⟨f, hf, hw⟩ := step_fs hs
  have hf : Files.step 0 o q s.world.fs = some (r, f) := hf
  refine ⟨⟨⟨hcalled.trans ht.called, hg ▸ ht.known⟩, ?_⟩, hmtime, q, f, hq, hf, by rw [hw]⟩
  rw [hw]
  exact (Files.now_of_step hf).trans ht.now

/-- Calls that leave the files as they are. -/
def looks : Files.Op Dir String → Prop
  | .tryExists _ | .openRead _ | .fstat _ | .read .. | .syncAll _ | .now => True
  | _ => False

theorem looks_timed (h : timedStep cfg (.fs o) s r s') (ht : At t s) (ho : looks o) :
    At t s' ∧ s'.mtime = s.mtime ∧ s'.world.fs.tree = s.world.fs.tree := by
  obtain ⟨ht', hmtime, q, f, -, hs, hf⟩ := fs_timed h ht
  refine ⟨ht', ?_, ?_⟩
  · rw [hmtime]
    cases o with
    | tryExists | openRead | fstat | read | syncAll | now => rfl
    | _ => exact ho.elim
  · rw [hf]
    cases o with
    | tryExists | openRead | fstat | read | syncAll | now =>
      cases hs
      rfl
    | _ => exact ho.elim

/-- What an open says of the file at the path. -/
def Opened (p : Path) (r : Except Files.Errno Ino) (s : State) : Prop :=
  match r with
  | .ok i => s.world.fs.tree.ino p = some i
  | .error _ => ∀ i, s.world.fs.tree.ino p = some i → (s.world.fs.tree.node i).kind ≠ .regular

/-- A file opened is the one at the path; no regular one is there if it
cannot be opened. -/
theorem openRead_timed {r : Except Files.Errno Ino}
    (h : timedStep cfg (.fs (.openRead p)) s r s') (ht : At t s) : Opened p r s' := by
  obtain ⟨-, -, htree⟩ := looks_timed h ht trivial
  obtain ⟨-, -, q, f, hq, hs, -⟩ := fs_timed h ht
  unfold Opened
  rw [htree]
  have hq : q.fails = false := hq
  simp only [Files.step, hq, Bool.false_eq_true, if_false, Option.some.injEq, Prod.mk.injEq] at hs
  obtain ⟨hs, -⟩ := hs
  cases r with
  | ok i => exact (Files.opened_ok hs).1
  | error e => exact fun i hi => Files.not_regular_of_opened hs hi

theorem fstat_timed {r : Except Files.Errno Files.Meta}
    (h : timedStep cfg (.fs (.fstat i)) s r s') (ht : At t s) :
    r = .ok (s.world.fs.tree.node i).meta := by
  obtain ⟨-, -, q, f, hq, hs, -⟩ := fs_timed h ht
  have hq : q.fails = false := hq
  simp only [Files.step, hq, Bool.false_eq_true, if_false, Option.some.injEq, Prod.mk.injEq] at hs
  exact hs.1.symm

end

/-! ## `try_claim` -/

/-- What is at `p`, if it is a file, was modified at `t`. -/
def Stamped (t : ℕ) (p : Path) (s : State) : Prop :=
  ∀ i, s.world.fs.tree.ino p = some i → (s.world.fs.tree.node i).kind = .regular →
    (s.world.fs.tree.node i).mtime = t

/-- The file at `p` has just been claimed. -/
def Carries (t : ℕ) (p : Path) (s : State) : Prop :=
  Stamped t p s ∧ ∃ i, s.world.fs.tree.ino p = some i ∧
    s.mtime = some (s.world.fs.tree.node i).mtime

/-- A look leaves all that is so here. -/
theorem carries_of_looks {o : Files.Op Dir String} {r : Files.Resp o}
    (h : timedStep cfg (.fs o) s r s') (ht : At t s) (ho : looks o) (hc : Carries t p s) :
    Carries t p s' := by
  obtain ⟨-, hmtime, htree⟩ := looks_timed h ht ho
  unfold Carries Stamped
  rw [hmtime, htree]
  exact hc

/-- A stamp leaves a file with the time it is. -/
theorem stampMtimeNow_stamped :
    Triple (timedStep cfg) (At t) (fun _ => True) (stampMtimeNow p)
      fun _ => Stamped t p := by
  refine Triple.call (B := Opened p) (fun s r s' ht _ hs => ?_) fun r => ?_
  · exact ⟨(looks_timed hs ht trivial).1, openRead_timed hs ht⟩
  · cases r with
    | error e =>
      exact Triple.ret fun s _ hnone i hi hreg => absurd hreg (hnone i hi)
    | ok i =>
      refine Triple.call (B := fun (r : Except Files.Errno Files.Meta) s =>
        s.world.fs.tree.ino p = some i ∧ r = .ok (s.world.fs.tree.node i).meta)
        (fun s r s' ht hi hs => ?_) fun r => ?_
      · obtain ⟨ht', -, htree⟩ := looks_timed hs ht trivial
        rw [htree]
        exact ⟨ht', hi, fstat_timed hs ht⟩
      · cases r with
        | error e => exact Triple.ret fun s _ h => absurd h.2 (by simp)
        | ok md =>
          dsimp only
          split
          · rename_i hkind
            refine Triple.ret fun s _ h j hj hreg => absurd ?_ hkind
            obtain ⟨hi, hmd⟩ := h
            rw [hi] at hj
            cases hj
            cases hmd
            exact hreg
          · refine Triple.call (B := fun now s => s.world.fs.tree.ino p = some i ∧ now = t)
              (fun s now s' ht h hs => ?_) fun now => ?_
            · obtain ⟨ht', -, htree⟩ := looks_timed hs ht trivial
              obtain ⟨-, -, q, f, -, hf, -⟩ := fs_timed hs ht
              cases hf
              rw [htree]
              exact ⟨ht', h.1, ht.now⟩
            · refine Triple.call (B := fun _ => Stamped t p) (fun s r s' ht h hs => ?_) fun _ =>
                Triple.ret fun _ _ h => h
              obtain ⟨ht', -, q, f, hq, hf, hw⟩ := fs_timed hs ht
              have hq : q.fails = false := hq
              obtain ⟨hi, rfl⟩ := h
              simp only [Files.step, hq, Bool.false_eq_true, if_false, Option.some.injEq,
                Prod.mk.injEq] at hf
              refine ⟨ht', fun j hj _ => ?_⟩
              rw [hw, ← hf.2] at hj ⊢
              have hj : s.world.fs.tree.ino p = some j := hj
              rw [hi] at hj
              cases hj
              simp

/-- A rename into `cur/` takes the file and its time along. -/
theorem renamed_timed (h : timedStep cfg (.fs (.renameNoClobber p p')) s (.ok ()) s')
    (ht : At t s) (hp' : p'.dir = .cur) : ∃ i, s.world.fs.tree.ino p = some i ∧
      s'.world.fs.tree.ino p' = some i ∧ s'.world.fs.tree.node = s.world.fs.tree.node ∧
      s'.mtime = some (s.world.fs.tree.node i).mtime := by
  obtain ⟨-, hmtime, q, f, -, hs, hw⟩ := fs_timed h ht
  obtain ⟨⟨i, hi⟩, -, rfl⟩ := Files.renameNoClobber_ok hs
  have hino : s'.world.fs.tree.ino p' = some i := by
    rw [hw, Files.State.tree_move]
    exact Files.Tree.ino_move_to hi
  have hnode : s'.world.fs.tree.node = s.world.fs.tree.node := by
    rw [hw, Files.State.tree_move]
    exact Files.Tree.node_move
  refine ⟨i, hi, hino, hnode, ?_⟩
  rw [hmtime]
  simp only [mtimeAfter, hp', if_true, hino, Option.map_some, hnode]

theorem carries_of_rename {r : Except Files.Errno Unit}
    (h : timedStep cfg (.fs (.renameNoClobber p p')) s r s') (ht : At t s)
    (hp' : p'.dir = .cur) (hst : Stamped t p s) : At t s' ∧ (r = .ok () → Carries t p' s') := by
  refine ⟨(fs_timed h ht).1, fun hr => ?_⟩
  subst hr
  obtain ⟨i, hi, hino, hnode, hmtime⟩ := renamed_timed h ht hp'
  refine ⟨fun j hj => ?_, i, hino, hnode ▸ hmtime⟩
  rw [hino] at hj
  cases hj
  rw [hnode]
  exact hst i hi

theorem isArchived_keeps {A : State → Prop}
    (hA : ∀ {s s' : State} {q : Path} {r : Bool}, At t s → A s →
      timedStep cfg (.fs (.tryExists q)) s r s' → A s') :
    Triple (timedStep cfg) (At t) A (isArchived name) fun _ => A := by
  refine Triple.call (B := fun _ => A) (fun s r s' ht ha hs => ?_) fun r => ?_
  · exact ⟨(looks_timed hs ht trivial).1, hA ht ha hs⟩
  · split
    · exact Triple.ret fun _ _ h => h
    · exact fun s ht ha => ⟨ht, fun r s' hs => ⟨(looks_timed hs ht trivial).1, hA ht ha hs⟩⟩

/-- What `try_claim` has claimed carries the time it is. -/
theorem tryClaim_carries : Triple (timedStep cfg) (At t) (fun _ => True) (tryClaim name)
    fun r s => ∀ cur, r = .ok (some cur) → cur = name ∧ Carries t (curPath name) s := by
  have hremove : ∀ q : Path, Triple (timedStep cfg) (At t) (fun _ => True)
      (fs (.removeFile q) >>= fun _ => pure (.ok none)) fun (r : Except String (Option String)) s =>
        ∀ cur, r = .ok (some cur) → cur = name ∧ Carries t (curPath name) s := by
    intro q
    refine Triple.call (B := fun _ _ => True) (fun s r s' ht _ hs => ⟨(fs_timed hs ht).1, trivial⟩)
      fun _ => Triple.ret fun _ _ _ => nofun
  refine (isArchived_keeps (A := fun _ => True) fun _ _ _ => trivial).bind fun archived => ?_
  split
  · exact hremove _
  · refine stampMtimeNow_stamped.bind fun _ => ?_
    refine Triple.call (B := fun (r : Except Files.Errno Unit) s => r = .ok () → Carries t (curPath name) s)
      (fun s r s' ht hst hs => carries_of_rename hs ht rfl hst) fun r => ?_
    split
    · refine (Triple.bind (Q := fun _ => Carries t (curPath name)) ?_ fun archived => ?_)
      · exact (isArchived_keeps fun ht hc hs => carries_of_looks hs ht trivial hc).pre
          fun _ _ h => h rfl
      · split
        · exact (hremove _).pre fun _ _ _ => trivial
        · refine Triple.ret fun s _ hc cur hcur => ?_
          cases hcur
          exact ⟨rfl, hc⟩
    · exact Triple.ret fun _ _ _ => nofun
    · exact (hremove _).pre fun _ _ _ => trivial
    · exact Triple.ret fun _ _ _ => nofun

/-! ## The two ways to a worker -/

/-- A claim read is a file, so it carries the time it is. -/
theorem readSpoolFile_carries :
    Triple (timedStep cfg) (At t) (Carries t (curPath name)) (readSpoolFile cfg.codec name)
      fun r s => r.isOk = true → s.mtime = some t := by
  refine Triple.call (B := fun r s => Opened (curPath name) r s ∧ Carries t (curPath name) s)
    (fun s r s' ht hc hs => ?_) fun r => ?_
  · exact ⟨(looks_timed hs ht trivial).1, openRead_timed hs ht, carries_of_looks hs ht trivial hc⟩
  · cases r with
    | error e => exact Triple.ret fun _ _ _ => nofun
    | ok i =>
      refine Triple.call (B := fun (r : Except Files.Errno Files.Meta) s =>
        ∀ md, r = .ok md → md.kind = .regular → s.mtime = some t)
        (fun s r s' ht h hs => ?_) fun r => ?_
      · obtain ⟨hi, hst, j, hj, hmtime⟩ := h
        have hi : s.world.fs.tree.ino (curPath name) = some i := hi
        rw [hi] at hj
        cases hj
        obtain ⟨ht', hmtime', -⟩ := looks_timed hs ht trivial
        refine ⟨ht', fun md hmd hkind => ?_⟩
        rw [fstat_timed hs ht] at hmd
        cases hmd
        rw [hmtime', hmtime, hst i hi hkind]
      · cases r with
        | error e => exact Triple.ret fun _ _ _ => nofun
        | ok md =>
          dsimp only
          split
          · exact Triple.ret fun _ _ _ => nofun
          · rename_i hkind
            have hkind : md.kind = .regular := not_not.mp hkind
            split
            · exact Triple.ret fun _ _ _ => nofun
            · refine Triple.call (B := fun _ s => s.mtime = some t) (fun s r s' ht h hs => ?_)
                fun r => ?_
              · obtain ⟨ht', hmtime, -⟩ := looks_timed hs ht trivial
                exact ⟨ht', hmtime.trans (h md rfl hkind)⟩
              · split <;> exact Triple.ret fun _ _ h _ => h

/-- **A claim of the dispatcher that comes to a worker carried the time it
was made.** -/
theorem prepare_carries : Triple (timedStep cfg) (At t) (fun _ => True) (prepare cfg name)
    fun r s => ∀ cur event, r = .run cur event → s.mtime = some t := by
  unfold prepare
  split
  · exact Triple.ret fun _ _ _ _ _ => nofun
  · rename_i id hid
    refine tryClaim_carries.bind fun r => ?_
    split
    · rename_i cur
      unfold prepareClaim
      split
      · exact Triple.ret fun _ _ _ _ _ => nofun
      · refine Triple.bind (Q := fun r s => r.isOk = true → s.mtime = some t) ?_ fun r => ?_
        · refine readSpoolFile_carries.pre fun s _ h => ?_
          obtain ⟨rfl, hc⟩ := h cur rfl
          exact hc
        · split
          · exact Triple.ret fun _ _ _ _ _ => nofun
          · exact Triple.ret fun _ _ h _ _ _ => h rfl
    · exact Triple.ret fun _ _ _ _ _ => nofun

/-- The file at `p` was modified at `t`. -/
def ModifiedAt (t : ℕ) (p : Path) (s : State) : Prop :=
  ∃ i, s.world.fs.tree.ino p = some i ∧ (s.world.fs.tree.node i).mtime = t

/-- A file just made carries the time it is, and so it does written. -/
theorem writePrivateFile_modified {bytes : Files.Bytes} :
    Triple (timedStep cfg) (At t) (fun _ => True) (writePrivateFile p bytes)
      fun r s => r = .ok () → ModifiedAt t p s := by
  refine Triple.call (B := fun (r : Except Files.Errno Ino) s =>
    ∀ i, r = .ok i → s.world.fs.tree.ino p = some i) (fun s r s' ht _ hs => ?_) fun r => ?_
  · obtain ⟨ht', -, q, f, -, hf, hw⟩ := fs_timed hs ht
    refine ⟨ht', fun i hr => ?_⟩
    subst hr
    simp only [Files.step] at hf
    split at hf
    · cases hf
    · split at hf
      · cases hf
      · cases hf
        rw [hw]
        exact Files.Tree.ino_create_self
  · split
    · exact Triple.ret fun _ _ _ h => by cases h
    · rename_i i
      refine Triple.call (B := fun _ => ModifiedAt t p) (fun s r s' ht h hs => ?_) fun r => ?_
      · obtain ⟨ht', -, q, f, -, hf, hw⟩ := fs_timed hs ht
        have hover : ∃ data, s'.world.fs = s.world.fs.overwrite i data := by
          simp only [Files.step] at hf
          split at hf <;> cases hf <;> exact ⟨_, hw⟩
        obtain ⟨data, hw⟩ := hover
        refine ⟨ht', i, ?_, ?_⟩
        · rw [hw]
          exact h i rfl
        · rw [hw]
          simp [ht.now]
      · split
        · exact Triple.ret fun _ _ _ h => by cases h
        · intro s ht hst
          refine ⟨ht, fun r s' hs => ⟨(looks_timed hs ht trivial).1, fun _ => ?_⟩⟩
          obtain ⟨-, -, htree⟩ := looks_timed hs ht trivial
          unfold ModifiedAt
          rw [htree]
          exact hst

/-- A stamp is no rename into `cur/`. -/
theorem mtime_of_stamps {o : Op} {r : Resp o} (ho : o.stamps) (h : timedStep cfg o s r s')
    (ht : At t s) : At t s' ∧ s'.mtime = s.mtime := by
  cases o with
  | fs o =>
    obtain ⟨ht', hmtime, -⟩ := fs_timed h ht
    refine ⟨ht', hmtime.trans ?_⟩
    cases o with
    | openRead | fstat | now | setModified => rfl
    | _ => exact ho.elim
  | _ => exact ho.elim

/-- **So did a synthetic claim.** -/
theorem writeSyntheticClaim_carries {job : JobStatus} {fullName : String} :
    Triple (timedStep cfg) (At t) (fun _ => True) (writeSyntheticClaim cfg job fullName)
      fun r s => ∀ cur, r = .ok (some cur) → s.mtime = some t := by
  have hremove : ∀ (p : Path) (x : Except String (Option String)), (∀ cur, x ≠ .ok (some cur)) →
      Triple (timedStep cfg) (At t) (fun _ => True)
        (fs (.removeFile p) >>= fun _ => pure x) fun r s =>
          ∀ cur, r = .ok (some cur) → s.mtime = some t := by
    intro p x hx
    refine Triple.call (B := fun _ _ => True) (fun s r s' ht _ hs => ⟨(fs_timed hs ht).1, trivial⟩)
      fun _ => Triple.ret fun _ _ _ cur hcur => absurd hcur (hx cur)
  refine Triple.call (B := fun _ _ => True) (fun s r s' ht _ hs => ⟨(fs_timed hs ht).1, trivial⟩)
    fun occupied => ?_
  split
  · exact Triple.ret fun _ _ _ _ => nofun
  · refine Triple.call (B := fun _ _ => True) (fun s r s' ht _ hs => ⟨(fs_timed hs ht).1, trivial⟩)
      fun nonce => ?_
    refine writePrivateFile_modified.bind fun r => ?_
    split
    · exact Triple.ret fun _ _ _ _ => nofun
    · refine Triple.call (B := fun (r : Except Files.Errno Unit) s => r = .ok () → s.mtime = some t)
        (fun s r s' ht h hs => ?_) fun r => ?_
      · refine ⟨(fs_timed hs ht).1, fun hr => ?_⟩
        subst hr
        obtain ⟨i, hi, -, -, hmtime⟩ := renamed_timed hs ht rfl
        obtain ⟨j, hj, hmod⟩ := h rfl
        rw [hi] at hj
        cases hj
        rw [hmtime, hmod]
      · split
        · refine Triple.bind (Q := fun _ s => s.mtime = some t) ?_ fun _ => ?_
          · refine (Triple.only (stampMtimeNow_only _) fun o s r s' ho ht hm hs => ?_).pre
              fun _ _ h => h rfl
            obtain ⟨ht', hmtime⟩ := mtime_of_stamps ho hs ht
            exact ⟨ht', hmtime.trans hm⟩
          · exact Triple.ret fun _ _ h _ _ => h
        · exact (hremove _ _ (by simp)).pre fun _ _ _ => trivial
        · exact (hremove _ _ (by simp)).pre fun _ _ _ => trivial

end Budget

end GhaConsumer
