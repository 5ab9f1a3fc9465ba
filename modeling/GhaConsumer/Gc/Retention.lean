import GhaConsumer.Gc.Prune
import GhaConsumer.Host.Sample
import GhaConsumer.Interleave.RelyGuarantee
import GhaConsumer.Spool.Calls

/-!
# GC — the archive prune beside finalizes

Any number of prunes of `done/` and `error/` and of finalizes, call by
call. A prune judges a file by a look without the lock, and again under
it; the time it judges by is that of the start of its scan. A finalize
installs a claim first, with the claim's own time, and stamps it
afterwards, all under the lock. So what a prune finds old under the lock
is old (`prunes_old`).
-/

namespace GhaConsumer

namespace Retention

open Interleave Protocol
open Files (Errno Ino)

/-! ## The machine -/

inductive Task where
  /-- `prune_archive_dir` over `done/` or `error/`. -/
  | prune (dir : Dir) (retentionSecs : ℕ)
  | finalizeDone (cur : String)
  | finalizeError (cur reason : String)
  deriving DecidableEq, Repr

/-- What happens outside: claims are made, and all the host does by
itself. -/
inductive Env where
  | claim (name : String) (file : Files.Node)
  | host (e : GhaConsumer.Env)

def Env.step : Env → World → Option World
  | .claim name file, w =>
    if (w.fs.tree.ino (curPath name)).isNone then
      some { w with fs := w.fs.create (curPath name) file }
    else none
  | .host e, w => some (e.step w)

variable (cfg : Config) (fuel : ℕ)

def body : Task → Prog Resp (Option Task)
  | .prune dir retentionSecs => do
    pruneArchiveDir fuel dir retentionSecs
    pure none
  | .finalizeDone cur => do
    let _ ← finalizeDone cur
    pure none
  | .finalizeError cur reason => do
    let _ ← finalizeError cur reason
    pure none

def machine : Machine Resp Task World where
  body := body fuel
  Oracle := Oracle
  step := step cfg.codec
  forks _ _ := none
  Env := Env
  env := Env.step
  leave := World.leave
  crash _ _ := none

abbrev State := Shared Resp Task World

/-- A line of the history. -/
abbrev Line := Entry Resp Task World

abbrev Pool := Interleave.Config Resp Task World

/-- Nothing has happened yet, whatever the files; every thread is at the
start of its task, and every prune is of an archive. -/
structure Start (c : Pool) : Prop where
  trace : c.trace = []
  archiveLock : c.world.sched.archiveLock = none
  fresh : ∀ t k p, c.threads t = some (k, p) → t < c.next ∧ p = body fuel k
  archives : ∀ t dir n p, c.threads t = some (.prune dir n, p) → dir.isArchive = true

/-! ## What the history says -/

/-- The file a line installs in the archive, a claim moved there or a
sidecar written. -/
def installs : Line → Option Ino
  | .did _ _ (.fs (.renameNoClobber p p')) (.ok ()) w =>
    if p.dir = .cur ∧ p'.dir.isArchive = true then w.fs.tree.ino p else none
  | .did _ _ (.fs (.rename p p')) (.ok ()) w =>
    if p.dir = .cur ∧ p'.dir.isArchive = true then w.fs.tree.ino p else none
  | .did _ _ (.fs (.write p _)) (.ok ()) w =>
    if p.dir.isArchive = true then some ((w.fs.tree.ino p).getD w.fs.tree.next) else none
  | _ => none

/-- When file `i` was last installed. -/
def installedAt (i : Ino) : List Line → Option ℕ
  | [] => none
  | x :: τ => if installs x = some i then some x.before.fs.now else installedAt i τ

/-- What a prune unlinks: where, and by which retention. -/
def unlinks : Line → Option (Path × ℕ)
  | .did _ (.prune _ n) (.fs (.removeFile p)) (.ok ()) _ => some (p, n)
  | _ => none

/-- The line, after the history `τ`, unlinks nothing but a regular file
that is older than the retention and was installed longer ago. -/
def UnlinksOld (τ : List Line) (x : Line) : Prop :=
  ∀ p n, unlinks x = some (p, n) → ∃ i, x.before.fs.tree.ino p = some i ∧
    (x.before.fs.tree.node i).kind = .regular ∧
    n < ageSecs x.before.fs.now (x.before.fs.tree.node i).mtime ∧
    ∀ m, installedAt i τ = some m → n < ageSecs x.before.fs.now m

/-- Every line of the history does, after those before it. -/
def PrunesOld : List Line → Prop
  | [] => True
  | x :: τ => UnlinksOld τ x ∧ PrunesOld τ

/-- The calls of a stamp that succeed. -/
def stampsSucceed : Line → Bool
  | .did _ _ (.fs (.openRead _)) (.error _) _ => false
  | .did _ _ (.fs (.fstat _)) (.error _) _ => false
  | .did _ _ (.fs (.setModified ..)) (.error _) _ => false
  | _ => true

/-! ## The protocol -/

/-- Every regular file installed is as new as its installation, but for
`j`. -/
def FreshBut (j : Option Ino) (x : State) : Prop :=
  ∀ i n, some i ≠ j → installedAt i x.trace = some n →
    (x.world.fs.tree.node i).kind = .regular → n ≤ (x.world.fs.tree.node i).mtime

/-- The lock protects the archives: while `t` holds it, no other thread
changes them, a file's contents or time, or what has been installed. -/
structure Guar (a : Option Tid) (x y : State) : Prop where
  now : x.world.fs.now ≤ y.world.fs.now
  lock : ∀ t, a ≠ some t → y.world.sched.archiveLock = some t →
    x.world.sched.archiveLock = some t
  held : ∀ t, a ≠ some t → x.world.sched.archiveLock = some t →
    y.world.sched.archiveLock = some t
  ino : ∀ t p, a ≠ some t → x.world.sched.archiveLock = some t → p.dir.isArchive = true →
    y.world.fs.tree.ino p = x.world.fs.tree.ino p
  node : ∀ t i, a ≠ some t → x.world.sched.archiveLock = some t → i < x.world.fs.tree.next →
    y.world.fs.tree.node i = x.world.fs.tree.node i
  installs : ∀ t i, a ≠ some t → x.world.sched.archiveLock = some t →
    installedAt i y.trace = installedAt i x.trace

/-- What holds of every state. -/
structure Inv (x : State) : Prop where
  /-- Files installed exist, and were installed in the past. -/
  past : ∀ i n, installedAt i x.trace = some n →
    i < x.world.fs.tree.next ∧ n ≤ x.world.fs.now
  fresh : x.world.sched.archiveLock = none → FreshBut none x
  old : PrunesOld x.trace

/-- `t` does not hold the lock. -/
def Free (t : Tid) (x : State) : Prop := x.world.sched.archiveLock ≠ some t

/-- `t` holds the lock, and all installed but `j` is fresh. -/
def Holding (t : Tid) (j : Option Ino) (x : State) : Prop :=
  x.world.sched.archiveLock = some t ∧ FreshBut j x

/-- What a thread knows at the start of its task. -/
def pre (t : Tid) : Task → State → Prop
  | .prune dir _ => fun x => dir.isArchive = true ∧ Free t x
  | _ => Free t

/-- The protocol of the archives. -/
def protocol : Protocol (machine cfg fuel) where
  Meets _ x := stampsSucceed x = true
  inv := Inv
  guar := Guar
  pre := pre
  fin t _ := Free t
  good _ _ := True

variable {cfg fuel}
variable {t : Tid} {k : Task} {o : Op} {j : Option Ino} {i : Ino} {x y : State} {n : ℕ}
variable {p p' dest : Path}

/-! ## Stability -/

theorem stable_free : (protocol cfg fuel).Stable t (Free t) :=
  fun _ _ _ ha _ _ hg hf hy => hf (hg.lock t ha hy)

theorem stable_now : (protocol cfg fuel).Stable t fun x => n ≤ x.world.fs.now :=
  fun _ _ _ _ _ _ hg h => h.trans hg.now

theorem stable_holding : (protocol cfg fuel).Stable t (Holding t j) := by
  rintro a x y ha hx - hg ⟨hl, hf⟩
  refine ⟨hg.held t ha hl, fun i n hi hat hk => ?_⟩
  rw [hg.installs t i ha hl] at hat
  have hnode := hg.node t i ha hl (hx.past i n hat).1
  rw [hnode] at hk ⊢
  exact hf i n hi hat hk

/-- What the holder of the lock knows of an archive path, the file there
and its installation. -/
structure Knows (t : Tid) (j : Option Ino) (p : Path) (i : Ino)
    (A : Files.Node → Option ℕ → Prop) (x : State) : Prop where
  holding : Holding t j x
  ino : x.world.fs.tree.ino p = some i
  about : A (x.world.fs.tree.node i) (installedAt i x.trace)

theorem stable_knows {A : Files.Node → Option ℕ → Prop} (hp : p.dir.isArchive = true) :
    (protocol cfg fuel).Stable t (Knows t j p i A) := by
  rintro a x y ha hx hy hg ⟨hh, hi, hA⟩
  refine ⟨stable_holding a x y ha hx hy hg hh, (hg.ino t p ha hh.1 hp).trans hi, ?_⟩
  rwa [hg.node t i ha hh.1 (Files.Tree.lt_next_of_ino hi), hg.installs t i ha hh.1]

/-! ## Calls -/

/-- The calls that leave everything as it is. -/
def looks : Op → Prop
  | .fs (.tryExists _) | .fs (.openRead _) | .fs (.fstat _) | .fs (.lstat _) | .fs .now
  | .fs (.openDir _) | .fs .nextEntry => True
  | _ => False

/-- Two states alike but for the trace. -/
structure Same (x y : State) : Prop where
  tree : y.world.fs.tree = x.world.fs.tree
  now : y.world.fs.now = x.world.fs.now
  sched : y.world.sched = x.world.sched
  installs : ∀ i, installedAt i y.trace = installedAt i x.trace

theorem same_of_looks {q : Oracle o} {r : Resp o} {w : World} (ho : looks o)
    (hw : step cfg.codec t o q x.world = some (r, w)) :
    Same x (x.called (machine cfg fuel) t k o r w) := by
  cases o with
  | fs o =>
    have hnow := now_of_step hw
    obtain ⟨s, hs, rfl⟩ := step_fs hw
    have htree : s.tree = x.world.fs.tree := by
      cases o with
      | tryExists | openRead | fstat | lstat | now | openDir | nextEntry =>
        cases Files.change_of_step hs with
        | same _ ht => exact ht
        | create _ hp => simp [Files.Op.paths] at hp
        | move hm => cases hm
        | overwrite _ hr => exact hr.elim
      | _ => exact ho.elim
    refine ⟨htree, hnow, rfl, fun i => ?_⟩
    have hinst : installs (.did t k (.fs o) r x.world : Line) = none := by
      cases o with
      | tryExists | openRead | fstat | lstat | now | openDir | nextEntry => rfl
      | _ => exact ho.elim
    show installedAt i (_ :: x.trace) = _
    rw [installedAt, hinst]
    rfl
  | _ => exact ho.elim

theorem Same.freshBut (hs : Same x y) (h : FreshBut j x) : FreshBut j y := by
  intro i n hi hat hk
  rw [hs.installs] at hat
  rw [hs.tree] at hk ⊢
  exact h i n hi hat hk

theorem Same.holding (hs : Same x y) (h : Holding t j x) : Holding t j y :=
  ⟨by rw [hs.sched]; exact h.1, hs.freshBut h.2⟩

theorem Same.free (hs : Same x y) (h : Free t x) : Free t y := by
  unfold Free at h ⊢
  rwa [hs.sched]

theorem Same.knows {A : Files.Node → Option ℕ → Prop} (hs : Same x y) (h : Knows t j p i A x) :
    Knows t j p i A y :=
  ⟨hs.holding h.holding, by rw [hs.tree]; exact h.ino, by rw [hs.tree, hs.installs]; exact h.about⟩

/-- Only a removal unlinks. -/
theorem unlinksOld_of_ne {τ : List Line} {r : Resp o} {w : World}
    (h : ∀ p, o ≠ .fs (.removeFile p)) : UnlinksOld τ (.did t k o r w) := by
  intro p n hu
  unfold unlinks at hu
  split at hu
  · rename_i heq
    cases heq
    exact absurd rfl (h _)
  · cases hu

/-- A call that looks keeps the promises. -/
theorem does_looks {A : State → Prop} {B : Resp o → State → Prop} (ho : looks o)
    (hB : ∀ x q r w, Inv x → A x → step cfg.codec t o q x.world = some (r, w) →
      stampsSucceed (.did t k o r x.world) = true →
      Same x (x.called (machine cfg fuel) t k o r w) →
        B r (x.called (machine cfg fuel) t k o r w)) :
    (protocol cfg fuel).Does t k A o B := by
  intro x q r w hx hA hw hm _
  have hs : Same x (x.called (machine cfg fuel) t k o r w) := same_of_looks ho hw
  refine ⟨⟨trivial, ⟨fun i n hi => ?_, fun hl => ?_, ?_, hx.old⟩, ⟨?_, fun u _ hu => ?_,
    fun u _ hu => ?_, fun u p _ _ _ => ?_, fun u i _ _ _ => ?_, fun u i _ _ => hs.installs i⟩,
    trivial, fun u k' hf => by cases hf⟩, hB x q r w hx hA hw hm hs⟩
  · rw [hs.installs] at hi
    rw [hs.tree, hs.now]
    exact hx.past i n hi
  · rw [hs.sched] at hl
    exact hs.freshBut (hx.fresh hl)
  · exact unlinksOld_of_ne fun p hp => by rw [hp] at ho; exact ho
  · exact hs.now.ge
  · rwa [hs.sched] at hu
  · rwa [hs.sched]
  · rw [hs.tree]
  · rw [hs.tree]

/-- A call of the lock's holder keeps the promises, if it keeps the lock,
unlinks nothing young, and what it installs exists. -/
theorem kept_holding {q : Oracle o} {r : Resp o} {w : World} (hx : Inv x)
    (hl : x.world.sched.archiveLock = some t) (hw : step cfg.codec t o q x.world = some (r, w))
    (hl' : w.sched.archiveLock = some t)
    (hpast : ∀ i, installs (.did t k o r x.world) = some i → i < w.fs.tree.next)
    (hnext : x.world.fs.tree.next ≤ w.fs.tree.next)
    (hold : UnlinksOld x.trace (.did t k o r x.world)) :
    (protocol cfg fuel).Kept t k o r x (x.called (machine cfg fuel) t k o r w) := by
  have hnow := now_of_step hw
  have hnot : ∀ u, some t ≠ some u → x.world.sched.archiveLock ≠ some u := fun u hu heq =>
    hu (hl.symm.trans heq)
  refine ⟨trivial, ⟨fun i' n hi => ?_, fun hfree => ?_, hold, hx.old⟩, ⟨hnow.ge, fun u hu hy => ?_,
    fun u hu hy => absurd hy (hnot u hu), fun u p hu hy => absurd hy (hnot u hu),
    fun u i hu hy => absurd hy (hnot u hu), fun u i hu hy => absurd hy (hnot u hu)⟩, trivial,
    fun u k' hf => by cases hf⟩
  · have hi : installedAt i' (.did t k o r x.world :: x.trace) = some n := hi
    unfold installedAt at hi
    split at hi
    · rename_i hinst
      cases hi
      exact ⟨hpast i' hinst, hnow.ge⟩
    · exact ⟨(hx.past i' n hi).1.trans_le hnext, (hx.past i' n hi).2.trans hnow.ge⟩
  · have hfree : w.sched.archiveLock = none := hfree
    rw [hl'] at hfree
    cases hfree
  · have hy : w.sched.archiveLock = some u := hy
    exact absurd (hl'.symm.trans hy) hu

/-- A call on files leaves the lock alone. -/
theorem sched_of_step {o : Files.Op Dir String} {q : Files.Oracle String} {r : Files.Resp o}
    {w w' : World} (hw : step cfg.codec t (.fs o) q w = some (r, w')) : w'.sched = w.sched := by
  obtain ⟨s, -, rfl⟩ := step_fs hw
  rfl

/-- A call on files of the lock's holder keeps the promises, if it
unlinks nothing young and what it installs exists. -/
theorem kept_files {o : Files.Op Dir String} {q : Files.Oracle String} {r : Files.Resp o} {w : World}
    (hx : Inv x) (hl : x.world.sched.archiveLock = some t)
    (hw : step cfg.codec t (.fs o) q x.world = some (r, w))
    (hpast : ∀ i, installs (.did t k (.fs o) r x.world) = some i → i < w.fs.tree.next)
    (hold : UnlinksOld x.trace (.did t k (.fs o) r x.world)) :
    (protocol cfg fuel).Kept t k (.fs o) r x (x.called (machine cfg fuel) t k (.fs o) r w) := by
  refine kept_holding hx hl hw (by rw [sched_of_step hw]; exact hl) hpast ?_ hold
  obtain ⟨s, hs, rfl⟩ := step_fs hw
  exact Files.next_le_of_step hs

/-- A claim has been installed at `dest`, and may be older than that. -/
def Landed (t : Tid) (dest : Path) (x : State) : Prop :=
  ∃ i, Knows t (some i) dest i (fun _ _ => True) x

theorem stable_landed (hp : dest.dir.isArchive = true) :
    (protocol cfg fuel).Stable t (Landed t dest) :=
  Stable.exists fun _ => stable_knows hp

/-- What the archive's rename of the claim leaves. -/
theorem landed_of_moved {cur : String} {r : Resp o} {w : World} (hh : Holding t none x)
    (hin : installs (.did t k o r x.world) = x.world.fs.tree.ino (curPath cur))
    (hi : x.world.fs.tree.ino (curPath cur) = some i)
    (hs : w.sched = x.world.sched) (ht : w.fs.tree = x.world.fs.tree.move (curPath cur) dest) :
    Landed t dest (x.called (machine cfg fuel) t k o r w) := by
  refine ⟨i, ⟨?_, fun i' n hne hat hk => ?_⟩, ?_, trivial⟩
  · show w.sched.archiveLock = some t
    rw [hs]
    exact hh.1
  · have hat : installedAt i' (.did t k o r x.world :: x.trace) = some n := hat
    unfold installedAt at hat
    rw [hin, hi, if_neg fun he => hne he.symm] at hat
    have hnode : w.fs.tree.node = x.world.fs.tree.node := by rw [ht, Files.Tree.node_move]
    show n ≤ (w.fs.tree.node i').mtime
    have hk : (w.fs.tree.node i').kind = .regular := hk
    rw [hnode] at hk ⊢
    exact hh.2 i' n (by simp) hat hk
  · show w.fs.tree.ino dest = some i
    rw [ht, Files.Tree.ino_move_to hi]

/-- What a call of the holder leaves that installs nothing and changes no
node. -/
theorem holding_of_same {r : Resp o} {w : World} (hh : Holding t j x)
    (hin : installs (.did t k o r x.world) = none) (hs : w.sched = x.world.sched)
    (ht : w.fs.tree.node = x.world.fs.tree.node) :
    Holding t j (x.called (machine cfg fuel) t k o r w) := by
  refine ⟨?_, fun i' n hne hat hk => ?_⟩
  · show w.sched.archiveLock = some t
    rw [hs]
    exact hh.1
  · have hat : installedAt i' (.did t k o r x.world :: x.trace) = some n := hat
    unfold installedAt at hat
    rw [hin] at hat
    show n ≤ (w.fs.tree.node i').mtime
    have hk : (w.fs.tree.node i').kind = .regular := hk
    rw [ht] at hk ⊢
    exact hh.2 i' n hne hat hk

/-- What `archive` has left, by the answer of its rename. -/
def afterRename (t : Tid) (dest : Path) : Except Errno Unit → State → Prop
  | .ok () => Landed t dest
  | .error _ => Holding t none

theorem stable_afterRename (hp : dest.dir.isArchive = true) (r : Except Errno Unit) :
    (protocol cfg fuel).Stable t (afterRename t dest r) := by
  rcases r with e | _
  · exact stable_holding
  · exact stable_landed hp

theorem does_renameNoClobber {cur : String} (hd : dest.dir.isArchive = true) :
    (protocol cfg fuel).Does t k (Holding t none) (.fs (.renameNoClobber (curPath cur) dest))
      (afterRename t dest) := by
  intro x q r w hx hh hw _ _
  have hw : step cfg.codec t (.fs (.renameNoClobber (curPath cur) dest)) q x.world = some (r, w) := hw
  have hsched := sched_of_step hw
  have hold : UnlinksOld x.trace
      (.did t k (.fs (.renameNoClobber (curPath cur) dest)) r x.world) := unlinksOld_of_ne (by simp)
  obtain ⟨s, hs, heq⟩ := step_fs hw
  rcases r with e | _
  · refine ⟨kept_files hx hh.1 hw (fun i hi => by cases hi) hold, ?_⟩
    refine holding_of_same hh rfl hsched ?_
    rw [heq, Files.renameNoClobber_error hs]
  · obtain ⟨⟨i, hi⟩, -, hmove⟩ := Files.renameNoClobber_ok hs
    have hin : installs (.did t k (.fs (.renameNoClobber (curPath cur) dest)) (.ok ()) x.world)
        = x.world.fs.tree.ino (curPath cur) := if_pos ⟨rfl, hd⟩
    have htree : w.fs.tree = x.world.fs.tree.move (curPath cur) dest := by
      rw [heq, hmove, Files.State.tree_move]
    refine ⟨kept_files hx hh.1 hw (fun i' hi' => ?_) hold, landed_of_moved hh hin hi hsched htree⟩
    rw [hin] at hi'
    rw [htree, Files.Tree.next_move]
    exact Files.Tree.lt_next_of_ino hi'

theorem does_rename {cur : String} (hd : dest.dir.isArchive = true) :
    (protocol cfg fuel).Does t k (Holding t none) (.fs (.rename (curPath cur) dest))
      (afterRename t dest) := by
  intro x q r w hx hh hw _ _
  have hw : step cfg.codec t (.fs (.rename (curPath cur) dest)) q x.world = some (r, w) := hw
  have hsched := sched_of_step hw
  have hold : UnlinksOld x.trace
      (.did t k (.fs (.rename (curPath cur) dest)) r x.world) := unlinksOld_of_ne (by simp)
  obtain ⟨s, hs, heq⟩ := step_fs hw
  rcases r with e | _
  · refine ⟨kept_files hx hh.1 hw (fun i hi => by cases hi) hold, ?_⟩
    refine holding_of_same hh rfl hsched ?_
    rw [heq, Files.rename_error hs]
  · obtain ⟨⟨i, hi⟩, hmove⟩ := Files.rename_ok hs
    have hin : installs (.did t k (.fs (.rename (curPath cur) dest)) (.ok ()) x.world)
        = x.world.fs.tree.ino (curPath cur) := if_pos ⟨rfl, hd⟩
    have htree : w.fs.tree = x.world.fs.tree.move (curPath cur) dest := by
      rw [heq, hmove, Files.State.tree_move]
    refine ⟨kept_files hx hh.1 hw (fun i' hi' => ?_) hold, landed_of_moved hh hin hi hsched htree⟩
    rw [hin] at hi'
    rw [htree, Files.Tree.next_move]
    exact Files.Tree.lt_next_of_ino hi'

/-- A marker moved within the archive is not installed anew. -/
theorem does_rename_marker (hp : p.dir.isArchive = true) :
    (protocol cfg fuel).Does t k (Holding t none) (.fs (.rename p p')) fun _ => Holding t none := by
  intro x q r w hx hh hw _ _
  have hw : step cfg.codec t (.fs (.rename p p')) q x.world = some (r, w) := hw
  have hsched := sched_of_step hw
  have hold : UnlinksOld x.trace (.did t k (.fs (.rename p p')) r x.world) :=
    unlinksOld_of_ne (by simp)
  have hin : installs (.did t k (.fs (.rename p p')) r x.world) = none := by
    rcases r with e | _
    · rfl
    · exact if_neg fun h => by rw [h.1] at hp; cases hp
  refine ⟨kept_files hx hh.1 hw (fun i hi => by rw [hin] at hi; cases hi) hold,
    holding_of_same hh hin hsched ?_⟩
  obtain ⟨s, hs, rfl⟩ := step_fs hw
  rcases r with e | _
  · rw [Files.rename_error hs]
  · obtain ⟨-, rfl⟩ := Files.rename_ok hs
    rw [Files.State.tree_move, Files.Tree.node_move]

/-- A sidecar is as new as its writing. -/
theorem does_write {data : Files.Bytes} (hp : p.dir.isArchive = true) :
    (protocol cfg fuel).Does t k (Holding t none) (.fs (.write p data)) fun _ => Holding t none := by
  intro x q r w hx hh hw _ _
  have hw : step cfg.codec t (.fs (.write p data)) q x.world = some (r, w) := hw
  have hsched := sched_of_step hw
  have hold : UnlinksOld x.trace (.did t k (.fs (.write p data)) r x.world) :=
    unlinksOld_of_ne (by simp)
  obtain ⟨s, hs, heq⟩ := step_fs hw
  rcases r with e | ⟨⟨⟩⟩
  · exact ⟨kept_files hx hh.1 hw (fun i hi => by cases hi) hold,
      holding_of_same hh rfl hsched (by rw [heq, Files.write_error hs])⟩
  · -- the sidecar is file `i` now, of time now
    obtain ⟨i, hin, hlt, hmtime, hrest⟩ : ∃ i,
        installs (.did t k (.fs (.write p data)) (.ok ()) x.world) = some i ∧
        i < w.fs.tree.next ∧ (w.fs.tree.node i).mtime = x.world.fs.now ∧
        ∀ i', i' ≠ i → w.fs.tree.node i' = x.world.fs.tree.node i' := by
      rcases Files.write_ok hs with ⟨hnone, rfl⟩ | ⟨i, hi, rfl⟩
      · refine ⟨x.world.fs.tree.next, ?_, by rw [heq]; exact Nat.lt_succ_self _, ?_,
          fun i' hi' => ?_⟩
        · show (if p.dir.isArchive = true then _ else none) = _
          rw [if_pos hp, hnone]
          rfl
        · rw [heq, Files.State.tree_create, Files.Tree.node_create_self]
        · rw [heq, Files.State.tree_create, Files.Tree.node_create_of_ne hi']
      · refine ⟨i, ?_, by rw [heq]; exact Files.Tree.lt_next_of_ino hi, ?_, fun i' hi' => ?_⟩
        · show (if p.dir.isArchive = true then _ else none) = _
          rw [if_pos hp, hi]
          rfl
        · rw [heq, Files.State.tree_overwrite, Files.Tree.node_setNode_self]
        · rw [heq, Files.State.tree_overwrite, Files.Tree.node_setNode_of_ne hi']
    refine ⟨kept_files hx hh.1 hw (fun i' hi' => ?_) hold, ?_, fun i' n hne hat hk => ?_⟩
    · rw [hin] at hi'
      cases hi'
      exact hlt
    · show w.sched.archiveLock = some t
      rw [hsched]
      exact hh.1
    · have hat : installedAt i' (.did t k (.fs (.write p data)) (.ok ()) x.world :: x.trace)
          = some n := hat
      show n ≤ (w.fs.tree.node i').mtime
      unfold installedAt at hat
      rw [hin] at hat
      by_cases hii : i' = i
      · subst hii
        rw [if_pos rfl] at hat
        cases hat
        exact hmtime.ge
      · rw [if_neg fun he => hii (Option.some.inj he).symm] at hat
        have hk : (w.fs.tree.node i').kind = .regular := hk
        rw [hrest i' hii] at hk ⊢
        exact hh.2 i' n hne hat hk

/-! ## The stamp -/

/-- A stamp of the file at hand, at a time no earlier than its
installation. -/
theorem does_setModified {m : ℕ} :
    (protocol cfg fuel).Does t k
      (Knows t (some i) dest i fun _ installed => ∀ n, installed = some n → n ≤ m)
      (.fs (.setModified i m)) fun _ => Holding t none := by
  intro x q r w hx hh hw hm _
  have hw : step cfg.codec t (.fs (.setModified i m)) q x.world = some (r, w) := hw
  have hsched := sched_of_step hw
  have hin : installs (.did t k (.fs (.setModified i m)) r x.world) = none := rfl
  refine ⟨kept_files hx hh.holding.1 hw (fun i' hi' => by rw [hin] at hi'; cases hi')
    (unlinksOld_of_ne (by simp)), ?_, fun i' n _ hat hk => ?_⟩
  · show w.sched.archiveLock = some t
    rw [hsched]
    exact hh.holding.1
  · have hat : installedAt i' (.did t k (.fs (.setModified i m)) r x.world :: x.trace)
        = some n := hat
    unfold installedAt at hat
    rw [hin] at hat
    obtain ⟨s, hs, rfl⟩ := step_fs hw
    simp only [Files.step] at hs
    split at hs
    · cases hs
      cases hm
    · cases hs
      show n ≤ ((x.world.fs.stamp i m).tree.node i').mtime
      have hk : ((x.world.fs.stamp i m).tree.node i').kind = .regular := hk
      rw [Files.State.tree_stamp] at hk ⊢
      by_cases hii : i' = i
      · subst hii
        rw [Files.Tree.node_setNode_self]
        exact hh.about n hat
      · rw [Files.Tree.node_setNode_of_ne hii] at hk ⊢
        exact hh.holding.2 i' n (fun he => hii (Option.some.inj he)) hat hk

/-- A claim installed and stamped is as new as its installation. -/
theorem stampMtimeNow_landed (hp : dest.dir.isArchive = true) :
    (protocol cfg fuel).Triple t k (Landed t dest) (stampMtimeNow dest)
      fun _ => Holding t none := by
  refine Triple.exists fun i => Triple.step
    (B := fun r x => r = .ok i ∧ Knows t (some i) dest i (fun _ _ => True) x)
    (does_looks trivial fun x q r w _ hA hw hm hs => ⟨?_, hs.knows hA⟩)
    (fun r => Stable.const.and (stable_knows hp)) fun r => Triple.pure_and fun hr => ?_
  · have hw : step cfg.codec t (.fs (.openRead dest)) q x.world = some (r, w) := hw
    obtain ⟨s, hstep, -⟩ := step_fs hw
    rcases r with e | j
    · cases hm
    · have hino := (Files.openRead_ok hstep).1
      rw [hA.ino] at hino
      cases hino
      rfl
  subst hr
  refine Triple.step
    (B := fun r x => ∃ md, r = .ok md ∧
      Knows t (some i) dest i (fun n _ => n.kind = md.kind) x)
    (does_looks trivial fun x q r w _ hA hw hm hs => ?_)
    (fun r => Stable.exists fun md => Stable.const.and (stable_knows hp)) fun r =>
      Triple.exists fun md => Triple.pure_and fun hr => ?_
  · have hnode : w.fs.tree = x.world.fs.tree := hs.tree
    obtain ⟨s, hstep, rfl⟩ := step_fs hw
    have hr : (if q.fails then .error .other else .ok (x.world.fs.tree.node i).meta) = r :=
      congrArg Prod.fst (Option.some.inj hstep)
    split at hr <;> subst hr
    · cases hm
    · exact ⟨_, rfl, (hs.knows hA).holding, (hs.knows hA).ino, congrArg Files.Node.kind
        (congrFun (congrArg Files.Tree.node hnode) i)⟩
  subst hr
  dsimp only
  split
  · -- what was moved is no regular file, and needs no stamp
    rename_i hkind
    refine Triple.ret fun x _ hA => ⟨hA.holding.1, fun i' n _ hat hk => ?_⟩
    by_cases hii : i' = i
    · subst hii
      exact absurd (hA.about.symm.trans hk) hkind
    · exact hA.holding.2 i' n (fun he => hii (Option.some.inj he)) hat hk
  · refine Triple.step
      (B := fun m => Knows t (some i) dest i fun _ installed => ∀ n, installed = some n → n ≤ m)
      (does_looks trivial fun x q r w hx hA hw _ hs => ?_) (fun m => stable_knows hp) fun m =>
        Triple.step does_setModified (fun _ => stable_holding) fun _ => Triple.ret fun _ _ h => h
    obtain ⟨s, hstep, -⟩ := step_fs hw
    have hr : x.world.fs.now = r := congrArg Prod.fst (Option.some.inj hstep)
    refine ⟨(hs.knows hA).holding, (hs.knows hA).ino, fun n hat => ?_⟩
    rw [hs.installs] at hat
    rw [← hr]
    exact (hx.past i n hat).2

/-! ## Finalizes -/

/-- A call that looks is no matter to the lock's holder. -/
theorem does_looks_holding (ho : looks o) :
    (protocol cfg fuel).Does t k (Holding t j) o fun _ => Holding t j :=
  does_looks ho fun _ _ _ _ _ hA _ _ hs => hs.holding hA

theorem does_looks_free (ho : looks o) :
    (protocol cfg fuel).Does t k (fun x => n ≤ x.world.fs.now ∧ Free t x) o
      fun _ x => n ≤ x.world.fs.now ∧ Free t x :=
  does_looks ho fun _ _ _ _ _ hA _ _ hs => ⟨hA.1.trans hs.now.ge, hs.free hA.2⟩

/-- The lock taken: what has been installed is fresh. -/
theorem does_lockArchive :
    (protocol cfg fuel).Does t k (fun x => n ≤ x.world.fs.now ∧ Free t x) (.sched .lockArchive)
      fun _ x => n ≤ x.world.fs.now ∧ Holding t none x := by
  intro x q r w hx hA hw _ _
  have hw : step cfg.codec t (.sched .lockArchive) q x.world = some (r, w) := hw
  obtain ⟨hfree, rfl⟩ : x.world.sched.archiveLock = none ∧
      w = { x.world with sched := { x.world.sched with archiveLock := some t } } := by
    obtain ⟨s, hs, rfl⟩ := step_sched hw
    have hfree : x.world.sched.archiveLock = none := by
      by_contra hlock
      simp only [Sched.step, if_neg hlock] at hs
      cases hs
    simp only [Sched.step, if_pos hfree] at hs
    cases hs
    exact ⟨hfree, rfl⟩
  have hinst : ∀ i, installedAt i (.did t k (.sched .lockArchive) r x.world :: x.trace)
      = installedAt i x.trace := fun i => rfl
  refine ⟨⟨trivial, ⟨fun i n hi => hx.past i n hi, fun hl => (by cases hl), ?_, hx.old⟩,
    ⟨le_refl _, fun u hu hy => ?_, fun u _ hu => ?_, fun u p _ _ _ => rfl, fun u i _ _ _ => rfl,
      fun u i _ _ => hinst i⟩, trivial, fun u k' hf => by cases hf⟩, hA.1, rfl, ?_⟩
  · exact unlinksOld_of_ne fun p hp => by cases hp
  · exact absurd hy hu
  · rw [hfree] at hu
    cases hu
  · exact hx.fresh hfree

theorem does_unlockArchive :
    (protocol cfg fuel).Does t k (fun x => n ≤ x.world.fs.now ∧ Holding t none x)
      (.sched .unlockArchive) fun _ x => n ≤ x.world.fs.now ∧ Free t x := by
  intro x q r w hx hA hw _ _
  have hw : step cfg.codec t (.sched .unlockArchive) q x.world = some (r, w) := hw
  obtain rfl : w = { x.world with sched := { x.world.sched with archiveLock := none } } := by
    obtain ⟨s, hs, rfl⟩ := step_sched hw
    simp only [Sched.step, hA.2.1, if_true] at hs
    cases hs
    rfl
  have hother : ∀ u, some t ≠ some u → x.world.sched.archiveLock ≠ some u := fun u hu heq =>
    hu (hA.2.1.symm.trans heq)
  refine ⟨⟨trivial, ⟨fun i n hi => hx.past i n hi, fun _ => hA.2.2, ?_, hx.old⟩,
    ⟨le_refl _, fun u _ hy => (by cases hy), fun u hu hy => absurd hy (hother u hu),
      fun u p _ _ _ => rfl, fun u i _ _ _ => rfl, fun u i _ _ => rfl⟩, trivial,
    fun u k' hf => by cases hf⟩, hA.1, fun hy => by cases hy⟩
  exact unlinksOld_of_ne fun p hp => by cases hp

theorem preserveExisting_holding (hp : dest.dir.isArchive = true) :
    (protocol cfg fuel).Triple t k (Holding t none) (preserveExisting dest)
      fun _ => Holding t none := by
  refine Triple.step (does_looks_holding trivial) (fun _ => stable_holding) fun b => ?_
  split
  · refine Triple.step (does_looks_holding trivial) (fun _ => stable_holding) fun now =>
      Triple.step (does_rename_marker hp) (fun _ => stable_holding) fun r => ?_
    split <;> exact Triple.ret fun _ _ h => h
  · exact Triple.ret fun _ _ h => h

/-- What `archive` has left, by what it returned. -/
def afterArchive (t : Tid) (dest : Path) : Except String Bool → State → Prop
  | .ok true => Landed t dest
  | _ => Holding t none

theorem archiveOver_holding {cur : String} (hp : dest.dir.isArchive = true) :
    (protocol cfg fuel).Triple t k (Holding t none) (archiveOver cur dest)
      (afterArchive t dest) := by
  refine ((preserveExisting_holding hp).returns (preserveExisting_returns dest)).bind fun bak =>
    Triple.pure_and fun hbak => ?_
  rcases bak with _ | bak
  · refine Triple.step (does_rename hp) (stable_afterRename hp) fun r => ?_
    split <;> exact Triple.ret fun _ _ h => h
  · have hdir : bak.dir.isArchive = true := by rw [hbak bak rfl]; exact hp
    refine Triple.step (does_rename hp) (stable_afterRename hp) fun r => ?_
    split
    · exact Triple.ret fun _ _ h => h
    · exact Triple.step (does_rename_marker hdir) (fun _ => stable_holding)
        fun _ => Triple.ret fun _ _ h => h

theorem archive_holding {cur : String} (hp : dest.dir.isArchive = true) :
    (protocol cfg fuel).Triple t k (Holding t none) (archive cur dest) (afterArchive t dest) := by
  refine Triple.step (does_renameNoClobber hp) (stable_afterRename hp) fun r => ?_
  split
  · exact Triple.ret fun _ _ h => h
  · exact Triple.ret fun _ _ h => h
  · exact archiveOver_holding hp
  · exact Triple.ret fun _ _ h => h

/-- The lock is given back with everything installed fresh. -/
theorem archiveAndStamp_free {context cur : String} (hp : dest.dir.isArchive = true) :
    (protocol cfg fuel).Triple t k (Holding t none) (archiveAndStamp context cur dest)
      fun _ => Free t := by
  refine (archive_holding hp).bind fun r => ?_
  have hstamp : (protocol cfg fuel).Triple t k (afterArchive t dest r) (stampInstalled dest r)
      fun _ => Holding t none := by
    unfold stampInstalled
    split
    · exact stampMtimeNow_landed hp
    · rename_i hr
      refine Triple.ret fun x _ h => ?_
      unfold afterArchive at h
      split at h
      · exact absurd rfl hr
      · exact h
  refine hstamp.bind fun _ => Triple.step (B := fun _ x => 0 ≤ x.world.fs.now ∧ Free t x)
    ?_ (fun _ => stable_now.and stable_free) fun _ => Triple.ret fun _ _ h => h.2
  intro x q r w hx hh hw hm hf
  exact does_unlockArchive x q r w hx ⟨Nat.zero_le _, hh⟩ hw hm hf

theorem lockArchive_holding {α : Type} {f : Unit → Prog Resp α} {Q : α → State → Prop}
    (hf : (protocol cfg fuel).Triple t k (Holding t none) (f ()) Q) :
    (protocol cfg fuel).Triple t k (Free t) (sched .lockArchive >>= f) Q := by
  refine Triple.step (B := fun _ x => 0 ≤ x.world.fs.now ∧ Holding t none x) ?_
    (fun _ => stable_now.and stable_holding) fun _ => hf.pre fun _ _ h => h.2
  intro x q r w hx hh hw hm hf
  exact does_lockArchive x q r w hx ⟨Nat.zero_le _, hh⟩ hw hm hf

theorem finalizeDone_free {cur : String} :
    (protocol cfg fuel).Triple t k (Free t) (finalizeDone cur) fun _ => Free t :=
  lockArchive_holding (archiveAndStamp_free rfl)

theorem finalizeError_free {cur reason : String} :
    (protocol cfg fuel).Triple t k (Free t) (finalizeError cur reason) fun _ => Free t :=
  lockArchive_holding (Triple.step (does_write rfl) (fun _ => stable_holding)
    fun _ => archiveAndStamp_free rfl)

/-! ## The prune -/

/-- What a prune unlinks is old now, for it was at the start of the scan,
and so is its installation. -/
theorem does_removeFile {dir : Dir} {name : String} {m : ℕ} {md : Files.Meta}
    (hold : outlived md n m = true) :
    (protocol cfg fuel).Does t (.prune dir m)
      (fun x => n ≤ x.world.fs.now ∧
        ∃ i, Knows t none ⟨dir, name⟩ i (fun node _ => md = node.meta) x)
      (.fs (.removeFile ⟨dir, name⟩)) fun _ x => n ≤ x.world.fs.now ∧ Holding t none x := by
  rintro x q r w hx ⟨hnow, i, hh⟩ hw _ _
  have hw : step cfg.codec t (.fs (.removeFile ⟨dir, name⟩)) q x.world = some (r, w) := hw
  have hin : installs (.did t (.prune dir m) (.fs (.removeFile ⟨dir, name⟩)) r x.world) = none := rfl
  simp only [outlived, Bool.and_eq_true, beq_iff_eq, decide_eq_true_eq] at hold
  obtain ⟨hkind, hage⟩ := hold
  have hmeta : md = (x.world.fs.tree.node i).meta := hh.about
  have hage' : m < ageSecs x.world.fs.now (x.world.fs.tree.node i).mtime := by
    have := ageSecs_mono md.mtime hnow
    rw [hmeta] at hage this
    exact hage.trans_le this
  have hreg : (x.world.fs.tree.node i).kind = .regular := by
    rw [hmeta] at hkind
    exact hkind
  have hunlinks : UnlinksOld x.trace
      (.did t (.prune dir m) (.fs (.removeFile ⟨dir, name⟩)) r x.world) := by
    intro p n' hu
    unfold unlinks at hu
    split at hu <;> cases hu
    rename_i heq
    cases heq
    refine ⟨i, hh.ino, hreg, hage', fun n' hat => hage'.trans_le ?_⟩
    -- no file in the archive is older than its installation
    exact ageSecs_anti _ (hh.holding.2 i n' (by simp) hat hreg)
  refine ⟨kept_files hx hh.holding.1 hw (fun i' hi' => by rw [hin] at hi'; cases hi') hunlinks,
    hnow.trans (now_of_step hw).ge, holding_of_same hh.holding hin (sched_of_step hw) ?_⟩
  obtain ⟨s, hs, rfl⟩ := step_fs hw
  rcases r with e | ⟨⟨⟩⟩
  · rw [Files.removeFile_error hs]
  · rw [(Files.removeFile_ok hs).2]
    rfl

/-- One entry: a file seen expired without the lock is judged again under
it. -/
theorem pruneArchiveEntry_free {dir : Dir} {name : String} {m : ℕ} (hd : dir.isArchive = true) :
    (protocol cfg fuel).Triple t (.prune dir m) (fun x => n ≤ x.world.fs.now ∧ Free t x)
      (pruneArchiveEntry dir m n name) fun _ x => n ≤ x.world.fs.now ∧ Free t x := by
  have hunlock : (protocol cfg fuel).Triple t (.prune dir m)
      (fun x => n ≤ x.world.fs.now ∧ Holding t none x) (sched .unlockArchive)
      fun _ x => n ≤ x.world.fs.now ∧ Free t x :=
    Triple.op does_unlockArchive fun _ => stable_now.and stable_free
  refine Triple.step (does_looks_free trivial) (fun _ => stable_now.and stable_free) fun r => ?_
  split
  · exact Triple.ret fun _ _ h => h
  · split
    · exact Triple.ret fun _ _ h => h
    · refine Triple.step does_lockArchive (fun _ => stable_now.and stable_holding) fun _ =>
        Triple.step
          (B := fun r x => n ≤ x.world.fs.now ∧ Holding t none x ∧ ∀ md, r = .ok md →
            ∃ i, Knows t none ⟨dir, name⟩ i (fun node _ => md = node.meta) x)
          (does_looks trivial fun x q r w _ hA hw _ hs => ?_) (fun r => ?_) fun r => ?_
      · refine ⟨hA.1.trans hs.now.ge, hs.holding hA.2, fun md hr => ?_⟩
        have hw : step cfg.codec t (.fs (.lstat ⟨dir, name⟩)) q x.world = some (r, w) := hw
        rw [hr] at hw
        obtain ⟨s, hstep, -⟩ := step_fs hw
        obtain ⟨i, hi, hmd⟩ := Files.lstat_ok hstep
        exact ⟨i, hs.knows ⟨hA.2, hi, hmd⟩⟩
      · refine stable_now.and (stable_holding.and fun a x y ha hx hy hg h md hr => ?_)
        exact Stable.exists (fun i => stable_knows hd) a x y ha hx hy hg (h md hr)
      · split
        · exact hunlock.pre fun _ _ h => ⟨h.1, h.2.1⟩
        · rename_i fresh
          split
          · exact hunlock.pre fun _ _ h => ⟨h.1, h.2.1⟩
          · rename_i hold
            exact Triple.step (Does.pre (does_removeFile (by simpa using hold))
              fun x _ h => ⟨h.1, h.2.2 fresh rfl⟩) (fun _ => stable_now.and stable_holding)
              fun _ => hunlock

theorem pruneArchiveDir_free {dir : Dir} {m : ℕ} (hd : dir.isArchive = true) :
    (protocol cfg fuel).Triple t (.prune dir m) (Free t) (pruneArchiveDir fuel dir m)
      fun _ => Free t := by
  refine Triple.step (B := fun _ => Free t)
    (does_looks trivial fun _ _ _ _ _ hA _ _ hs => hs.free hA) (fun _ => stable_free) fun r => ?_
  split
  · exact Triple.ret fun _ _ h => h
  · refine Triple.step (B := fun now x => now ≤ x.world.fs.now ∧ Free t x)
      (does_looks trivial fun x q r w _ hA hw _ hs => ⟨?_, hs.free hA⟩)
      (fun now => stable_now.and stable_free) fun now => ?_
    · obtain ⟨s, hstep, rfl⟩ := step_fs hw
      cases hstep
      exact le_refl _
    · refine Triple.bind (Q := fun _ => Free t) ?_ fun _ => Triple.ret fun _ _ h => h
      exact Triple.whileSome (I := fun _ x => now ≤ x.world.fs.now ∧ Free t x)
        (J := fun _ _ x => now ≤ x.world.fs.now ∧ Free t x) (Q := fun _ => Free t)
        (fun _ => Triple.op (does_looks_free (o := .fs .nextEntry) trivial)
          fun _ => stable_now.and stable_free)
        (fun _ _ => pruneArchiveEntry_free hd) (fun _ _ _ h => h.2) (fun _ _ _ _ h => h.2)
        (fun _ _ _ h => h.2) fuel ()

/-! ## Runs -/

theorem stable_pre {k : Task} : (protocol cfg fuel).Stable t (pre t k) := by
  cases k with
  | prune dir m => exact Stable.const.and stable_free
  | finalizeDone | finalizeError => exact stable_free

/-- The outside leaves the archives and the lock alone. -/
theorem env_step {e : Env} {w : World} (hx : Inv x) (hw : e.step x.world = some w) :
    Inv { x with world := w } ∧ Guar none x { x with world := w } := by
  obtain ⟨hnow, hsched, hino, hnode, hnext⟩ : x.world.fs.now ≤ w.fs.now ∧
      w.sched.archiveLock = x.world.sched.archiveLock ∧
      (∀ p, p.dir.isArchive = true → w.fs.tree.ino p = x.world.fs.tree.ino p) ∧
      (∀ i, i < x.world.fs.tree.next → w.fs.tree.node i = x.world.fs.tree.node i) ∧
      x.world.fs.tree.next ≤ w.fs.tree.next := by
    -- what is put into another directory is a new file, and leaves the archives' as they are
    have hcreate : ∀ {d : Dir} {name : String} {file : Files.Node}, d.isArchive = false →
        (∀ p, p.dir.isArchive = true →
          (x.world.fs.create ⟨d, name⟩ file).tree.ino p = x.world.fs.tree.ino p) ∧
        (∀ i, i < x.world.fs.tree.next →
          (x.world.fs.create ⟨d, name⟩ file).tree.node i = x.world.fs.tree.node i) ∧
        x.world.fs.tree.next ≤ (x.world.fs.create ⟨d, name⟩ file).tree.next := by
      intro d name file hd
      refine ⟨fun p hp => ?_, fun i hi => Files.Tree.node_create_of_ne (Nat.ne_of_lt hi), Nat.le_succ _⟩
      exact Files.Tree.ino_create_of_ne fun hpd => by rw [hpd, hd] at hp; cases hp
    cases e with
    | claim name file =>
      simp only [Env.step] at hw
      split at hw <;> cases hw
      exact ⟨le_refl _, rfl, hcreate rfl⟩
    | host e =>
      cases hw
      cases e with
      | deliver name file => exact ⟨le_refl _, rfl, hcreate rfl⟩
      | tick n => exact ⟨Nat.le_add_right _ n, rfl, fun _ _ => rfl, fun _ _ => rfl, le_refl _⟩
      | _ => exact ⟨le_refl _, rfl, fun _ _ => rfl, fun _ _ => rfl, le_refl _⟩
  refine ⟨⟨fun i n hi => ?_, fun hl i n hi hat hk => ?_, hx.old⟩, hnow, fun u _ hu => ?_,
    fun u _ hu => ?_, fun u p _ _ hp => hino p hp, fun u i _ _ hi => hnode i hi, fun _ _ _ _ => rfl⟩
  · have := hx.past i n hi
    exact ⟨this.1.trans_le hnext, this.2.trans hnow⟩
  · have hl : w.sched.archiveLock = none := hl
    rw [hsched] at hl
    have hk : (w.fs.tree.node i).kind = .regular := hk
    show n ≤ (w.fs.tree.node i).mtime
    rw [hnode i (hx.past i n hat).1] at hk ⊢
    exact hx.fresh hl i n hi hat hk
  · exact hsched ▸ hu
  · exact hsched.trans hu

/-- **The protocol of the archives is kept by every task.** -/
theorem sound : (protocol cfg fuel).Sound where
  pre_stable _ _ := stable_pre
  hold_stable _ _ := Stable.true
  hold_of_pre _ _ _ _ _ := trivial
  body t k := by
    cases k with
    | prune dir m =>
      exact Triple.pure_and fun hd => (pruneArchiveDir_free hd).bind
        fun _ => Triple.ret fun _ _ h => h
    | finalizeDone cur => exact finalizeDone_free.bind fun _ => Triple.ret fun _ _ h => h
    | finalizeError cur reason => exact finalizeError_free.bind fun _ => Triple.ret fun _ _ h => h
  exit t k x hx hfree _ := by
    have hlock : (World.leave t x.world).sched.archiveLock = x.world.sched.archiveLock :=
      if_neg hfree
    refine ⟨trivial, ⟨fun i n hi => hx.past i n hi, fun hl => ?_, ?_, hx.old⟩, le_refl _,
      fun u _ hu => ?_, fun u _ hu => hlock.trans hu, fun _ _ _ _ _ => rfl, fun _ _ _ _ _ => rfl,
      fun _ _ _ _ => rfl⟩
    · exact hx.fresh (hlock.symm.trans hl)
    · intro p n hu
      cases hu
    · exact hlock.symm.trans hu
  crash t k x w _ hw := by cases hw
  env e x w hx hw := env_step hx hw

/-- **A prune unlinks only what is old.** In every run in which the clock
does not go back and no stamp fails, whatever a prune unlinks is then a
regular file older than its retention, and was installed there longer ago
than that. -/
theorem prunes_old {c₀ c : Pool} (h₀ : Start fuel c₀)
    (hr : (machine cfg fuel).Run (fun _ x => stampsSucceed x = true) c₀ c) : PrunesOld c.trace := by
  have hinst : ∀ i, installedAt i c₀.trace = none := fun i => by rw [h₀.trace]; rfl
  have hinit : (protocol cfg fuel).Holds c₀ := by
    refine sound.init ⟨fun i n hi => ?_, fun _ i n _ hat _ => ?_, ?_⟩ fun t k p ht => ?_
    · rw [hinst] at hi
      cases hi
    · rw [hinst] at hat
      cases hat
    · rw [h₀.trace]
      trivial
    · have hfree : Free t c₀.toShared := by
        unfold Free
        rw [h₀.archiveLock]
        simp
      refine ⟨(h₀.fresh t k p ht).1, (h₀.fresh t k p ht).2, ?_⟩
      cases k with
      | prune dir n => exact ⟨h₀.archives t dir n p ht, hfree⟩
      | finalizeDone | finalizeError => exact hfree
  exact (sound.run hinit hr).inv.old

/-! ## A run -/

/-- A prune of `done/` and a finalize of a claim whose marker is old. -/
def samplePool : Pool where
  world := .sample [(curPath "42.job", ⟨.regular, [1], 0⟩), (⟨.done, "42.job"⟩, ⟨.regular, [0], 0⟩)]
    9000000000
  next := 2
  trace := []
  threads
    | 0 => some (.prune .done 5, body 2 (.prune .done 5))
    | 1 => some (.finalizeDone "42.job", body 2 (.finalizeDone "42.job"))
    | _ => none

theorem samplePool_start : Start 2 samplePool where
  trace := rfl
  archiveLock := rfl
  fresh t k p ht := by
    match t, ht with
    | 0, ht => cases ht; exact ⟨by decide, rfl⟩
    | 1, ht => cases ht; exact ⟨by decide, rfl⟩
    | _ + 2, ht => cases ht
  archives t dir n p ht := by
    match t, ht with
    | 0, ht => cases ht; rfl
    | 1, ht => cases ht
    | _ + 2, ht => cases ht

/-- `n` calls of thread `t`, none of which fails. -/
def calls (t : Tid) (n : ℕ) : List (machine sampleConfig 2).Move :=
  .replicate n (.call t (Answers.oracle { fs := ⟨false, 0, some ⟨"42.job", .regular⟩⟩ }))

/-- The old marker is judged expired; the claim is archived in its place;
the prune goes on, and takes the lock. -/
theorem prunes_old_around_finalize :
    ∃ c, (machine sampleConfig 2).Run (fun _ x => stampsSucceed x = true) samplePool c ∧
      ((c.world.fs.tree.ino ⟨.done, "42.job"⟩).map fun i => (c.world.fs.tree.node i).data)
        = some [1] ∧ PrunesOld c.trace := by
  have h : (((machine sampleConfig 2).follow (fun _ x => stampsSucceed x)
      (calls 0 4 ++ calls 1 11 ++ calls 0 3) samplePool).map fun c =>
        (c.world.fs.tree.ino ⟨.done, "42.job"⟩).map fun i => (c.world.fs.tree.node i).data)
      = some (some [1]) := by decide
  obtain ⟨c, hc, hdata⟩ := Option.map_eq_some_iff.mp h
  have hr := Machine.run_of_follow hc
  exact ⟨c, hr, hdata, prunes_old samplePool_start hr⟩

end Retention

end GhaConsumer
