import GhaConsumer.WarmLock.Traps
import GhaConsumer.WarmLock.Exclusion

/-!
# Warm lock — what a signal leaves behind

`held` and `reclaiming` are set and cleared by commands of their own, so a
signal can find a flag that does not say what the directory holds. Between
the `mkdir` of the reclaim mutex and `reclaiming=1` the trap leaves the
mutex behind (`signal_leaks_mutex`); between its `rmdir` and
`reclaiming=0` the trap may remove another's (`signal_steals_mutex`).
Where every signal finds the flag telling the truth, and no removal meets
a live lock, a process that has exited has left nothing of its own and
taken nothing of another's (`exit_leaves_nothing`).
-/

namespace GhaConsumer

namespace WarmLock.Traps

open Interleave Protocol

/-- The shared part of a state. -/
abbrev State := Shared Resp Task World

/-- A line of the history. -/
abbrev Line := Entry Resp Task World

/-! ## Whose mutex, whose lock -/

/-- The process that last made the reclaim mutex. -/
def maker : List Line → Option Pid
  | [] => none
  | .did t _ (.cmd .mkdirReclaim) true _ :: _ => some t
  | _ :: τ => maker τ

/-- The reclaim mutex stands and `t` made it. -/
def ownMutex (t : Pid) (s : State) : Bool := s.world.reclaimLockDir && maker s.trace == some t

/-- The lock a command removes, where it removes one. -/
def removedLock : WarmLock.Op → World → Slot
  | .rmRf, w => w.lockDir
  | .rmF, w => if w.lockDir.isDir then .absent else w.lockDir
  | _, _ => .absent

/-- The process has exited, other than killed. -/
def Exited (t : Pid) (τ : List Line) : Prop := ∃ k w, .did t k .exit () w ∈ τ

/-- The condition on a run. A signal finds `reclaiming` telling whether
the process's mutex stands and, in the trap, the mutex gone; no `rmdir` of
a mutex has failed; and `rm -rf` does not meet the lock of a live process. -/
def clear (s : State) : Line → Bool
  | .did t k .signal true w =>
    if k = .release then !ownMutex t s else w.reclaiming t == ownMutex t s
  | .did t _ (.cmd (.setReclaiming false)) _ _ => !ownMutex t s
  | .did _ _ (.cmd .rmRf) _ w => w.liveOwner.isNone
  | _ => true

/-- What a line of `t` may remove: nothing, its own lock, or in a reclaim
a lock no live process has. -/
def KeepsLocks (t : Pid) (o : WarmLock.Op) (w : World) : Prop :=
  removedLock o w = .absent ∨ removedLock o w = .link t ∨ o = .rmRf ∧ w.liveOwner = none

/-! ## The protocol -/

/-- What a step of `a` may do. -/
structure Guar (a : Option Pid) (x y : State) : Prop where
  alive : ∀ t, a ≠ some t → y.world.alive t = x.world.alive t
  held : ∀ t, a ≠ some t → y.world.held t = x.world.held t
  reclaiming : ∀ t, a ≠ some t → y.world.reclaiming t = x.world.reclaiming t
  /-- The mutex of another is neither removed nor taken over. -/
  mutex : ∀ t, a ≠ some t → ownMutex t y = ownMutex t x
  /-- The lock of a live process is its own to remove. -/
  live : ∀ t, a ≠ some t → x.world.liveOwner = some t → y.world.lockDir = x.world.lockDir
  noDir : x.world.lockDir.isDir = false → y.world.lockDir.isDir = false

/-- What the history says of every process. -/
structure Inv (x : State) : Prop where
  mutex : ∀ t k w τ, .did t k (.cmd .rmdirReclaim) () w :: τ <:+ x.trace →
    w.reclaimLockDir = true → maker τ = some t
  locks : ∀ t k o r w, .did t k (.cmd o) r w ∈ x.trace → KeepsLocks t o w
  gone : ∀ t, Exited t x.trace → x.world.alive t = false ∧ ownMutex t x = false

/-- Where a live process stands: its two flags, whether the mutex is its
own, and if it says it holds the lock, the lock. -/
structure At (t : Pid) (flag own holds : Bool) (x : State) : Prop where
  alive : x.world.alive t = true
  reclaiming : x.world.reclaiming t = flag
  mutex : ownMutex t x = own
  held : x.world.held t = holds
  lock : holds = true → x.world.lockDir = .link t

/-- What process `t` knows at the head of each task. -/
def pre (t : Pid) : Task → State → Prop
  | .acquire | .attempt _ => At t false false false
  | .critical => At t false false true
  | .release => fun x => ∃ b h, At t b b h x

/-- The protocol of the warm lock with its traps. -/
@[reducible] def protocol : Protocol machine where
  Meets s x := clear s x = true
  inv := Inv
  guar := Guar
  pre := pre
  fin _ _ _ := True
  good _ _ := True

variable {t : Pid} {k : Task} {o : Op} {x y : State} {a : Option Pid}
variable {flag own holds : Bool}

theorem at_stable : protocol.Stable t (At t flag own holds) := by
  intro a x y ha _ _ hg h
  refine ⟨(hg.alive t ha).trans h.alive, (hg.reclaiming t ha).trans h.reclaiming,
    (hg.mutex t ha).trans h.mutex, (hg.held t ha).trans h.held, fun hholds => ?_⟩
  have hlock := h.lock hholds
  rw [hg.live t ha (World.liveOwner_eq_some.mpr ⟨hlock, h.alive⟩), hlock]

theorem pre_stable : protocol.Stable t (pre t k) := by
  cases k with
  | acquire => exact at_stable
  | attempt _ => exact at_stable
  | critical => exact at_stable
  | release => exact Stable.exists fun b => Stable.exists fun h => at_stable

/-- A live process that has left no mutex. -/
def Clean (t : Pid) (x : State) : Prop := x.world.alive t = true ∧ ownMutex t x = false

theorem clean_stable : protocol.Stable t (Clean t) :=
  fun _ _ _ ha _ _ hg h => ⟨(hg.alive t ha).trans h.1, (hg.mutex t ha).trans h.2⟩

/-- Where a signal leaves a process: about to run the trap, or about to
end in it. -/
def Stopped (t : Pid) (k : Task) (x : State) : Prop :=
  if k = .release then Clean t x else ∃ b h, At t b b h x

theorem stopped_stable : protocol.Stable t (Stopped t k) := by
  unfold Stopped
  split
  · exact clean_stable
  · exact Stable.exists fun b => Stable.exists fun h => at_stable

/-! ## One step -/

/-- The promises of a step of a live process. -/
theorem kept_of {r : Resp o} {w : World} (hx : Inv x) (halive : x.world.alive t = true)
    (hg : Guar (some t) x (x.called machine t k o r w))
    (hmutex : o = .cmd .rmdirReclaim → x.world.reclaimLockDir = true → maker x.trace = some t)
    (hlocks : ∀ o', o = .cmd o' → KeepsLocks t o' x.world)
    (hexit : o = .exit → w.alive t = false ∧ ownMutex t (x.called machine t k o r w) = false) :
    protocol.Kept t k o r x (x.called machine t k o r w) := by
  refine ⟨trivial, ⟨fun u k' w' τ hsuf => ?_, fun u k' o' r' w' hmem => ?_, fun u hu => ?_⟩, hg,
    trivial, fun _ _ h => by cases h⟩
  · rcases List.suffix_cons_iff.mp hsuf with heq | hsuf
    · cases heq
      exact hmutex rfl
    · exact hx.mutex u k' w' τ hsuf
  · rcases List.mem_cons.mp hmem with heq | hmem
    · cases heq
      exact hlocks o' rfl
    · exact hx.locks u k' o' r' w' hmem
  · obtain ⟨k', w', hmem⟩ := hu
    rcases List.mem_cons.mp hmem with heq | hmem
    · cases heq
      exact hexit rfl
    · -- one that has exited is not the one that takes the step
      obtain ⟨hdead, hown⟩ := hx.gone u ⟨k', w', hmem⟩
      have hut : some t ≠ some u := by
        rintro heq
        cases heq
        rw [halive] at hdead
        cases hdead
      exact ⟨(hg.alive u hut).trans hdead, (hg.mutex u hut).trans hown⟩

theorem maker_of_ne {r : Resp o} {w : World} {τ : List Line} (ho : o ≠ .cmd .mkdirReclaim) :
    maker (.did t k o r w :: τ) = maker τ := by
  cases o with
  | cmd o =>
    cases o with
    | mkdirReclaim => exact absurd rfl ho
    | _ => rfl
  | signal => rfl
  | exit => rfl

/-- The mutex is a matter of the directory, where none is made. -/
theorem ownMutex_called {r : Resp o} {w : World} (ho : o ≠ .cmd .mkdirReclaim)
    (hw : w.reclaimLockDir = x.world.reclaimLockDir) (u : Pid) :
    ownMutex u (x.called machine t k o r w) = ownMutex u x := by
  show (w.reclaimLockDir && maker (.did t k o r x.world :: x.trace) == some u) = _
  rw [maker_of_ne ho, hw]
  rfl

/-- The operations that leave the world as it is. -/
def Looks : Op → Prop
  | .cmd o => o.Looks
  | .signal => True
  | .exit => False

theorem world_of_looks {q : Bool} {r : Resp o} {w w' : World} (ho : Looks o)
    (h : step t o q w = some (r, w')) : w' = w := by
  cases o with
  | cmd o => exact step_of_looks ho h
  | signal =>
    have h : some (q, w) = some (r, w') := h
    exact (Prod.mk.inj (Option.some.inj h)).2.symm
  | exit => exact ho.elim

theorem ne_of_looks {o' : WarmLock.Op} (ho : Looks o) (ho' : ¬o'.Looks) : o ≠ .cmd o' := by
  rintro rfl
  exact ho' ho

/-- A step that changes neither the mutex nor the lock, and of the
processes only `t`. -/
theorem guar_of_same {r : Resp o} {w : World} (ho : o ≠ .cmd .mkdirReclaim)
    (hmutex : w.reclaimLockDir = x.world.reclaimLockDir) (hlock : w.lockDir = x.world.lockDir)
    (halive : ∀ u, t ≠ u → w.alive u = x.world.alive u)
    (hheld : ∀ u, t ≠ u → w.held u = x.world.held u)
    (hreclaiming : ∀ u, t ≠ u → w.reclaiming u = x.world.reclaiming u) :
    Guar (some t) x (x.called machine t k o r w) where
  alive u hu := halive u fun h => hu (congrArg some h)
  held u hu := hheld u fun h => hu (congrArg some h)
  reclaiming u hu := hreclaiming u fun h => hu (congrArg some h)
  mutex u _ := ownMutex_called ho hmutex u
  live _ _ _ := hlock
  noDir h := by
    rw [← hlock] at h
    exact h

theorem keepsLocks_of_ne {o : WarmLock.Op} {w : World} (h₁ : o ≠ .rmRf) (h₂ : o ≠ .rmF) :
    KeepsLocks t o w := by
  cases o with
  | rmRf => exact absurd rfl h₁
  | rmF => exact absurd rfl h₂
  | _ => exact .inl rfl

theorem At.looks (h : At t flag own holds x) (ho : Looks o) {r : Resp o} :
    At t flag own holds (x.called machine t k o r x.world) :=
  ⟨h.alive, h.reclaiming, (ownMutex_called (ne_of_looks ho id) rfl t).trans h.mutex, h.held,
    h.lock⟩

/-- A look leaves what a process knows of itself, and shows what it shows. -/
theorem does_looks {φ : World → Prop} {B : Resp o → State → Prop} (ho : Looks o)
    (hB : ∀ x q r, At t flag own holds x → φ x.world → step t o q x.world = some (r, x.world) →
      clear x (.did t k o r x.world) = true → B r (x.called machine t k o r x.world)) :
    protocol.Does t k (fun x => At t flag own holds x ∧ φ x.world) o B := by
  intro x q r w hx ⟨hat, hφ⟩ hq hm hn
  obtain rfl := world_of_looks ho hq
  refine ⟨kept_of hx hat.alive ?_ (fun h => absurd h (ne_of_looks ho id)) (fun o' h => ?_)
    (fun h => ?_), hB x q r hat hφ hq hm⟩
  · exact guar_of_same (ne_of_looks ho id) rfl rfl (fun _ _ => rfl) (fun _ _ => rfl) fun _ _ => rfl
  · exact keepsLocks_of_ne (fun h' => ne_of_looks ho id (h.trans (congrArg Op.cmd h')))
      fun h' => ne_of_looks ho id (h.trans (congrArg Op.cmd h'))
  · subst h
    exact ho.elim

/-! ## Between two commands -/

variable {α β : Type}

/-- What an interruptible program leaves: what the program does, or a
signal found. -/
def Ends (t : Pid) (k : Task) (Q : α → State → Prop) : Option α → State → Prop
  | some a => Q a
  | none => Stopped t k

/-- **A signal found where the flag tells the truth** stops the process
clean, or sends it to a trap that will clean up. -/
theorem stopped_of_signal (h : At t flag own holds x)
    (hm : clear x (.did t k .signal true x.world) = true) :
    Stopped t k (x.called machine t k .signal true x.world) := by
  have hat := h.looks (o := .signal) (k := k) (r := true) trivial
  unfold Stopped
  simp only [clear] at hm
  split at hm
  · rename_i hk
    rw [if_pos hk]
    refine ⟨hat.alive, ?_⟩
    rw [hat.mutex, ← h.mutex]
    simpa using hm
  · rename_i hk
    rw [if_neg hk]
    have heq : flag = own := by
      rw [← h.reclaiming, ← h.mutex]
      simpa using hm
    subst heq
    exact ⟨flag, holds, hat⟩

/-- One command of an interruptible program. -/
theorem cmd_triple {o : WarmLock.Op} {f : WarmLock.Resp o → Prog WarmLock.Resp α}
    {φ : World → Prop} {B : WarmLock.Resp o → State → Prop} {Q : α → State → Prop}
    (hφ : protocol.Stable t fun x => At t flag own holds x ∧ φ x.world)
    (ho : protocol.Does t k (fun x => At t flag own holds x ∧ φ x.world) (.cmd o) B)
    (hB : ∀ r, protocol.Stable t (B r))
    (hf : ∀ r, protocol.Triple t k (B r) (interruptible (f r)) (Ends t k Q)) :
    protocol.Triple t k (fun x => At t flag own holds x ∧ φ x.world)
      (interruptible (Prog.op o >>= f)) (Ends t k Q) := by
  have hsignal : protocol.Does t k (fun x => At t flag own holds x ∧ φ x.world) .signal
      fun s => if s = true then Stopped t k else fun x => At t flag own holds x ∧ φ x.world := by
    refine does_looks (o := .signal) trivial fun x q s hat hw _ hm => ?_
    cases s with
    | true => exact stopped_of_signal hat hm
    | false => exact ⟨hat.looks (o := .signal) trivial, hw⟩
  rw [Prog.op_bind, interruptible]
  refine Triple.call hsignal (fun s => ?_) fun s => ?_
  · cases s with
    | true => exact stopped_stable
    | false => exact hφ
  · cases s with
    | true => exact Triple.ret fun _ _ h => h
    | false => exact Triple.call ho hB hf

theorem interruptible_bind (p : Prog WarmLock.Resp α) (f : α → Prog WarmLock.Resp β) :
    interruptible (p >>= f) = interruptible p >>= fun
      | some a => interruptible (f a)
      | none => .ret none := by
  induction p with
  | ret a => rfl
  | call o g ih =>
    simp only [Prog.call_bind, interruptible]
    congr 1
    funext s
    cases s with
    | true => rfl
    | false =>
      show Prog.call _ _ = Prog.call _ _
      congr 1
      exact funext ih

theorem bind_triple {p : Prog WarmLock.Resp α} {f : α → Prog WarmLock.Resp β}
    {A : State → Prop} {R : α → State → Prop} {Q : β → State → Prop}
    (hp : protocol.Triple t k A (interruptible p) (Ends t k R))
    (hf : ∀ a, protocol.Triple t k (R a) (interruptible (f a)) (Ends t k Q)) :
    protocol.Triple t k A (interruptible (p >>= f)) (Ends t k Q) := by
  rw [interruptible_bind]
  refine hp.bind fun r => ?_
  cases r with
  | some a => exact hf a
  | none => exact Triple.ret fun _ _ h => h

/-- A program that only looks leaves what the process knows of itself. -/
theorem looks_triple {p : Prog WarmLock.Resp α} (hp : p.Only WarmLock.Op.Looks) :
    protocol.Triple t k (At t flag own holds) (interruptible p)
      (Ends t k fun _ => At t flag own holds) := by
  induction p with
  | ret a => exact Triple.ret fun _ _ h => h
  | call o f ih =>
    have hstable : protocol.Stable t fun x => At t flag own holds x ∧ True :=
      at_stable.and Stable.true
    have hdoes : protocol.Does t k (fun x => At t flag own holds x ∧ True) (.cmd o)
        fun _ => At t flag own holds :=
      does_looks (o := .cmd o) (φ := fun _ => True) hp.1 fun x q r hat _ _ _ =>
        hat.looks (o := .cmd o) hp.1
    exact (cmd_triple (φ := fun _ => True) hstable hdoes (fun _ => at_stable)
      fun r => ih r (hp.2 r)).pre fun x _ h => ⟨h, trivial⟩

/-! ## The commands -/

theorem does_mkdirReclaim : protocol.Does t k (At t false false holds) (.cmd .mkdirReclaim)
    fun r => At t false r holds := by
  intro x q r w hx hat hq hm hn
  have hq : (if q || x.world.reclaimLockDir then some (false, x.world)
      else some (true, { x.world with reclaimLockDir := true })) = some (r, w) := hq
  have hkeeps : ∀ o', Op.cmd .mkdirReclaim = .cmd o' → KeepsLocks t o' x.world := by
    rintro o' heq
    cases heq
    exact .inl rfl
  split at hq
  · cases hq
    have hown : ∀ u, ownMutex u (x.called machine t k (.cmd .mkdirReclaim) false x.world) =
        ownMutex u x := fun u => rfl
    refine ⟨kept_of hx hat.alive ⟨fun _ _ => rfl, fun _ _ => rfl, fun _ _ => rfl,
      fun u _ => hown u, fun _ _ _ => rfl, id⟩ (fun h => (by cases h)) hkeeps fun h => (by cases h),
      hat.alive, hat.reclaiming, (hown t).trans hat.mutex, hat.held, hat.lock⟩
  · rename_i hfree
    cases hq
    have hnone : x.world.reclaimLockDir = false := by
      have := Bool.or_eq_false_iff.mp (by simpa using hfree)
      exact this.2
    refine ⟨kept_of hx hat.alive ⟨fun _ _ => rfl, fun _ _ => rfl, fun _ _ => rfl,
      fun u hu => ?_, fun _ _ _ => rfl, id⟩ (fun h => (by cases h)) hkeeps fun h => (by cases h),
      hat.alive, hat.reclaiming, ?_, hat.held, hat.lock⟩
    · -- it was nobody's and is now `t`'s
      have hut : (some t == some u) = false := by simpa using hu
      have hleft : ownMutex u (x.called machine t k (.cmd .mkdirReclaim) true
          { x.world with reclaimLockDir := true }) = (some t == some u) := rfl
      rw [hleft, hut]
      simp [ownMutex, hnone]
    · show (some t == some t) = true
      exact BEq.refl _

theorem does_setReclaiming {b : Bool} (hb : b = false → ∀ x, At t flag own holds x →
      clear x (.did t k (.cmd (.setReclaiming b)) () x.world) = true → own = false) :
    protocol.Does t k (At t flag own holds) (.cmd (.setReclaiming b))
      fun _ x => At t b own holds x ∧ (b = false → own = false) := by
  intro x q r w hx hat hq hm hn
  cases hq
  have hown : ∀ u, ownMutex u (x.called machine t k (.cmd (.setReclaiming b)) ()
      { x.world with reclaiming := Function.update x.world.reclaiming t b }) = ownMutex u x :=
    fun u => rfl
  refine ⟨kept_of hx hat.alive (guar_of_same (fun h => (by cases h)) rfl rfl (fun _ _ => rfl)
    (fun _ _ => rfl) fun u hu => Function.update_of_ne hu.symm ..) (fun h => (by cases h))
    (fun o' h => ?_) fun h => (by cases h),
    ⟨hat.alive, Function.update_self .., (hown t).trans hat.mutex, hat.held, hat.lock⟩,
    fun h => hb h x hat hm⟩
  cases h
  exact .inl rfl

/-- `reclaiming=1`, the mutex made. -/
theorem does_setReclaiming_true : protocol.Does t k (At t false true holds)
    (.cmd (.setReclaiming true)) fun _ => At t true true holds := by
  intro x q r w hx hat hq hm hn
  obtain ⟨hkept, hB⟩ := does_setReclaiming (fun h => by cases h) x q r w hx hat hq hm hn
  exact ⟨hkept, hB.1⟩

/-- `reclaiming=0`, where the `rmdir` has not failed. -/
theorem does_setReclaiming_false : protocol.Does t k (fun x => ∃ own, At t true own holds x)
    (.cmd (.setReclaiming false)) fun _ => At t false false holds := by
  rintro x q r w hx ⟨own, hat⟩ hq hm hn
  have hfree : false = false → ∀ x, At t true own holds x →
      clear x (.did t k (.cmd (.setReclaiming false)) () x.world) = true → own = false := by
    intro _ x hat hm
    rw [← hat.mutex]
    simpa [clear] using hm
  obtain ⟨hkept, hat', hown⟩ := does_setReclaiming hfree x q r w hx hat hq hm hn
  obtain rfl := hown rfl
  exact ⟨hkept, hat'⟩

/-- `rmdir`, of one's own mutex. -/
theorem does_rmdirReclaim : protocol.Does t k (At t true true holds) (.cmd .rmdirReclaim)
    fun _ x => ∃ own, At t true own holds x := by
  intro x q r w hx hat hq hm hn
  cases hq
  obtain ⟨hstands, hmaker⟩ := Bool.and_eq_true_iff.mp hat.mutex
  have hmaker : maker x.trace = some t := by simpa using hmaker
  refine ⟨kept_of hx hat.alive ⟨fun _ _ => rfl, fun _ _ => rfl, fun _ _ => rfl, fun u hu => ?_,
    fun _ _ _ => rfl, id⟩ (fun _ _ => hmaker) (fun o' h => ?_) fun h => (by cases h),
    _, hat.alive, hat.reclaiming, rfl, hat.held, hat.lock⟩
  · -- the mutex is no other process's, before and after
    have hut : (some t == some u) = false := by simpa using hu
    have hleft : ownMutex u (x.called machine t k (.cmd .rmdirReclaim) ()
        { x.world with reclaimLockDir := x.world.reclaimLockDir && q }) =
        ((x.world.reclaimLockDir && q) && maker x.trace == some u) := rfl
    rw [hleft, ownMutex, hmaker, hut, Bool.and_false, Bool.and_false]
  · cases h
    exact .inl rfl

/-- A removal of the lock, which may fail, changes nothing else. -/
theorem removed_same {α : Type} {w : World} (f : World → α)
    (hf : f { w with lockDir := .absent } = f w) (fails : Bool) :
    f (if fails then w else { w with lockDir := .absent }) = f w := by
  cases fails with
  | true => rfl
  | false => exact hf

theorem isDir_removed {w : World} (h : w.lockDir.isDir = false) (fails : Bool) :
    (if fails then w else { w with lockDir := .absent }).lockDir.isDir = false := by
  cases fails with
  | true => exact h
  | false => rfl

/-- `rm -rf`, where it meets no lock of a live process. -/
theorem does_rmRf : protocol.Does t k (At t flag own false) (.cmd .rmRf)
    fun _ => At t flag own false := by
  intro x q r w hx hat hq hm hn
  have hnone : x.world.liveOwner = none := by simpa [clear] using hm
  have hq : some ((), if q then x.world else { x.world with lockDir := .absent }) = some (r, w) :=
    hq
  cases hq
  have hsame : ∀ {α : Type} (f : World → α), f { x.world with lockDir := .absent } = f x.world →
      f (if q then x.world else { x.world with lockDir := .absent }) = f x.world :=
    fun f hf => removed_same f hf q
  have hmutex := fun u => ownMutex_called (x := x) (t := t) (k := k) (o := .cmd .rmRf) (r := ())
    (fun h => (by cases h)) (hsame World.reclaimLockDir rfl) u
  refine ⟨kept_of hx hat.alive ⟨fun u _ => congrFun (hsame World.alive rfl) u,
    fun u _ => congrFun (hsame World.held rfl) u,
    fun u _ => congrFun (hsame World.reclaiming rfl) u, fun u _ => hmutex u,
    fun u _ hlive => ?_, fun h => ?_⟩ (fun h => (by cases h)) (fun o' h => ?_)
    fun h => (by cases h), (congrFun (hsame World.alive rfl) t).trans hat.alive,
    (congrFun (hsame World.reclaiming rfl) t).trans hat.reclaiming, (hmutex t).trans hat.mutex,
    (congrFun (hsame World.held rfl) t).trans hat.held, fun h => (by cases h)⟩
  · rw [hnone] at hlive
    cases hlive
  · exact isDir_removed h q
  · cases h
    exact .inr (.inr ⟨rfl, hnone⟩)

/-- `rm -f`, of one's own lock. -/
theorem does_rmF : protocol.Does t k (At t false false true) (.cmd .rmF) fun _ => Clean t := by
  intro x q r w hx hat hq hm hn
  have hlock := hat.lock rfl
  have hdir : x.world.lockDir.isDir = false := by rw [hlock]; rfl
  have hq : some ((), if q || x.world.lockDir.isDir then x.world
      else { x.world with lockDir := .absent }) = some (r, w) := hq
  rw [hdir, Bool.or_false] at hq
  cases hq
  have hsame : ∀ {α : Type} (f : World → α), f { x.world with lockDir := .absent } = f x.world →
      f (if q then x.world else { x.world with lockDir := .absent }) = f x.world :=
    fun f hf => removed_same f hf q
  have hmutex := fun u => ownMutex_called (x := x) (t := t) (k := k) (o := .cmd .rmF) (r := ())
    (fun h => (by cases h)) (hsame World.reclaimLockDir rfl) u
  refine ⟨kept_of hx hat.alive ⟨fun u _ => congrFun (hsame World.alive rfl) u,
    fun u _ => congrFun (hsame World.held rfl) u,
    fun u _ => congrFun (hsame World.reclaiming rfl) u, fun u _ => hmutex u,
    fun u hu hlive => ?_, fun h => ?_⟩ (fun h => (by cases h)) (fun o' h => ?_)
    fun h => (by cases h), (congrFun (hsame World.alive rfl) t).trans hat.alive,
    (hmutex t).trans hat.mutex⟩
  · -- the lock is `t`'s
    have hlink := (World.liveOwner_eq_some.mp hlive).1
    rw [hlock] at hlink
    cases hlink
    exact absurd rfl hu
  · exact isDir_removed h q
  · cases h
    refine .inr (.inl ?_)
    simp only [removedLock, hdir, Bool.false_eq_true, if_false]
    exact hlock

/-- What `ln -s` does. -/
theorem lnS_cases {q r : Bool} {v w : World} (h : step t (.cmd .lnS) q v = some (r, w)) :
    (if q then some (false, v) else match v.lockDir with
      | .absent => some (true, { v with lockDir := .link t })
      | .link _ => some (false, v)
      | .dir _ => some (true, v)) = some (r, w) := h

/-- `ln -s`, where no directory stands at the path: it succeeds only by
making the lock. -/
theorem does_lnS : protocol.Does t k
    (fun x => At t false false false x ∧ x.world.lockDir.isDir = false) (.cmd .lnS)
    fun r x => At t false false false x ∧ (r = true → x.world.lockDir = .link t) := by
  rintro x q r w hx ⟨hat, hdir⟩ hq hm hn
  have hkeeps : ∀ o', Op.cmd .lnS = .cmd o' → KeepsLocks t o' x.world := by
    rintro o' heq
    cases heq
    exact .inl rfl
  have hsame : protocol.Kept t k (.cmd .lnS) false x (x.called machine t k (.cmd .lnS) false x.world) ∧
      (At t false false false (x.called machine t k (.cmd .lnS) false x.world) ∧
        (false = true → x.world.lockDir = .link t)) :=
    ⟨kept_of hx hat.alive (guar_of_same (fun h => (by cases h)) rfl rfl (fun _ _ => rfl)
      (fun _ _ => rfl) fun _ _ => rfl) (fun h => (by cases h)) hkeeps fun h => (by cases h),
      ⟨hat.alive, hat.reclaiming, hat.mutex, hat.held, hat.lock⟩, fun h => (by cases h)⟩
  replace hq := lnS_cases hq
  split at hq
  · cases hq
    exact hsame
  · split at hq
    · rename_i habsent
      cases hq
      refine ⟨kept_of hx hat.alive ⟨fun _ _ => rfl, fun _ _ => rfl, fun _ _ => rfl,
        fun _ _ => rfl, fun u _ hlive => ?_, fun _ => rfl⟩ (fun h => (by cases h)) hkeeps
        fun h => (by cases h), ⟨hat.alive, hat.reclaiming, hat.mutex, hat.held,
          fun h => (by cases h)⟩, fun _ => rfl⟩
      have hlink := (World.liveOwner_eq_some.mp hlive).1
      rw [habsent] at hlink
      cases hlink
    · cases hq
      exact hsame
    · rename_i p hp
      rw [hp] at hdir
      cases hdir

/-- `held=1`, the lock made. -/
theorem does_setHeld : protocol.Does t k
    (fun x => At t false false false x ∧ x.world.lockDir = .link t) (.cmd (.setHeld true))
    fun _ => At t false false true := by
  rintro x q r w hx ⟨hat, hlock⟩ hq hm hn
  cases hq
  refine ⟨kept_of hx hat.alive (guar_of_same (fun h => (by cases h)) rfl rfl (fun _ _ => rfl)
    (fun u hu => Function.update_of_ne hu.symm ..) fun _ _ => rfl) (fun h => (by cases h))
    (fun o' h => ?_) fun h => (by cases h),
    hat.alive, hat.reclaiming, hat.mutex, Function.update_self .., fun _ => hlock⟩
  cases h
  exact .inl rfl

/-- The end, with no mutex left. -/
theorem does_exit : protocol.Does t k (Clean t) .exit fun _ _ => True := by
  rintro x q r w hx ⟨halive, hclean⟩ hq hm hn
  cases hq
  exact ⟨kept_of hx halive (guar_of_same (fun h => (by cases h)) rfl rfl
    (fun u hu => Function.update_of_ne hu.symm ..) (fun _ _ => rfl) fun _ _ => rfl)
    (fun h => (by cases h)) (fun o' h => (by cases h))
    (fun _ => ⟨Function.update_self .., hclean⟩), trivial⟩

/-! ## The script -/

/-- A command after which the process stands at one place, whatever it
answers. -/
theorem cmd_at_triple {o : WarmLock.Op} {f : WarmLock.Resp o → Prog WarmLock.Resp α}
    {B : WarmLock.Resp o → State → Prop} {Q : α → State → Prop}
    (ho : protocol.Does t k (At t flag own holds) (.cmd o) B)
    (hB : ∀ r, protocol.Stable t (B r))
    (hf : ∀ r, protocol.Triple t k (B r) (interruptible (f r)) (Ends t k Q)) :
    protocol.Triple t k (At t flag own holds) (interruptible (Prog.op o >>= f)) (Ends t k Q) :=
  (cmd_triple (φ := fun _ => True) (at_stable.and Stable.true)
    (ho.pre fun _ _ h => h.1) hB hf).pre fun _ _ h => ⟨h, trivial⟩

theorem lockOwner_triple : protocol.Triple t k (At t flag own holds) (interruptible lockOwner)
    (Ends t k fun _ => At t flag own holds) :=
  looks_triple lockOwner_looks

theorem lockIsStale_looks (owner : Option Pid) :
    (lockIsStale owner).Only WarmLock.Op.Looks := by
  have hpresent : lockPresent.Only WarmLock.Op.Looks := by
    refine ⟨trivial, fun r => ?_⟩
    cases r with
    | true => trivial
    | false => exact Prog.only_op trivial
  refine hpresent.bind fun present => ?_
  cases present with
  | true => exact (ownerAlive_looks owner).bind fun _ => trivial
  | false => trivial

/-- The end of a reclaim. -/
theorem leaveReclaim_triple (b : Bool) : protocol.Triple t k (At t true true holds)
    (interruptible (do WarmLock.call .rmdirReclaim; WarmLock.call (.setReclaiming false); pure b))
    (Ends t k fun _ => At t false false holds) := by
  refine cmd_at_triple (B := fun _ x => ∃ own, At t true own holds x) does_rmdirReclaim
    (fun _ => Stable.exists fun _ => at_stable) fun _ => Triple.exists fun own => ?_
  exact cmd_at_triple (does_setReclaiming_false.pre fun _ _ h => ⟨own, h⟩)
    (fun _ => at_stable) fun _ => Triple.ret fun _ _ h => h

theorem reclaimIfStale_triple : protocol.Triple t k (At t false false false)
    (interruptible reclaimIfStale) (Ends t k fun _ => At t false false false) := by
  refine cmd_at_triple does_mkdirReclaim (fun _ => at_stable) fun made => ?_
  cases made with
  | false => exact Triple.ret fun _ _ h => h
  | true =>
    refine cmd_at_triple does_setReclaiming_true (fun _ => at_stable) fun _ => ?_
    refine bind_triple lockOwner_triple fun owner => ?_
    refine bind_triple (looks_triple (lockIsStale_looks owner)) fun stale => ?_
    cases stale with
    | false => exact leaveReclaim_triple false
    | true => exact cmd_at_triple does_rmRf (fun _ => at_stable) fun _ => leaveReclaim_triple true

/-- A live process's lock stays. -/
theorem link_stable : protocol.Stable t fun x =>
    At t flag own holds x ∧ x.world.lockDir = .link t := by
  rintro a x y ha hx hy hg ⟨hat, hlock⟩
  refine ⟨at_stable a x y ha hx hy hg hat, ?_⟩
  rw [hg.live t ha (World.liveOwner_eq_some.mpr ⟨hlock, hat.alive⟩), hlock]

theorem made_stable {b : Bool} : protocol.Stable t fun x =>
    At t flag own holds x ∧ (b = true → x.world.lockDir = .link t) :=
  fun a x y ha hx hy hg h =>
    ⟨at_stable a x y ha hx hy hg h.1, fun hb => (link_stable a x y ha hx hy hg ⟨h.1, h.2 hb⟩).2⟩

theorem noDir_stable : protocol.Stable t fun x => x.world.lockDir.isDir = false :=
  fun _ _ _ _ _ _ hg h => hg.noDir h

/-- `[ -d "$lock_dir" ]`. -/
theorem does_testDir : protocol.Does t k (At t flag own holds) (.cmd .testDir)
    fun r x => At t flag own holds x ∧ (r = false → x.world.lockDir.isDir = false) := by
  have h : protocol.Does t k (fun x => At t flag own holds x ∧ True) (.cmd .testDir)
      fun r x => At t flag own holds x ∧ (r = false → x.world.lockDir.isDir = false) := by
    refine does_looks (o := .cmd .testDir) (φ := fun _ => True) trivial fun x q r hat _ hq _ => ?_
    refine ⟨hat.looks (o := .cmd .testDir) trivial, fun hr => ?_⟩
    subst hr
    have hq : some (x.world.lockDir.isDir, x.world) = some (false, x.world) := hq
    exact (Prod.mk.inj (Option.some.inj hq)).1
  exact h.pre fun _ _ hat => ⟨hat, trivial⟩

/-- A look that shows nothing. -/
theorem does_look {o : WarmLock.Op} (ho : o.Looks) :
    protocol.Does t k (At t flag own holds) (.cmd o) fun _ => At t flag own holds := by
  have h : protocol.Does t k (fun x => At t flag own holds x ∧ True) (.cmd o)
      fun _ => At t flag own holds :=
    does_looks (o := .cmd o) (φ := fun _ => True) ho fun x q r hat _ _ _ =>
      hat.looks (o := .cmd o) ho
  exact h.pre fun _ _ hat => ⟨hat, trivial⟩

theorem takeLock_triple : protocol.Triple t k (At t false false false) (interruptible takeLock)
    (Ends t k fun r x => At t false false false x ∧ (r = true → x.world.lockDir = .link t)) := by
  refine cmd_at_triple does_testDir (fun r => at_stable.and (.imp fun _ => noDir_stable))
    fun dir => ?_
  cases dir with
  | true => exact Triple.ret fun _ _ h => ⟨h.1, fun hr => by cases hr⟩
  | false =>
    exact (cmd_triple (f := fun r => .ret r) (φ := fun w => w.lockDir.isDir = false)
      (at_stable.and noDir_stable) does_lnS (fun _ => made_stable)
      fun r => Triple.ret fun _ _ h => h).pre fun _ _ h => ⟨h.1, h.2 rfl⟩

/-- What a part of a task leaves that returns the next one. -/
abbrev Leaves (t : Pid) (k : Task) : Option (Option Task) → State → Prop :=
  Ends t k (protocol.post t k)

theorem waitForLock_triple (start : ℕ) : protocol.Triple t k (At t false false false)
    (interruptible (waitForLock start)) (Leaves t k) := by
  refine cmd_at_triple (does_look trivial) (fun _ => at_stable) fun now => ?_
  split
  · exact Triple.ret fun _ _ h => ⟨false, false, h⟩
  · exact cmd_at_triple (does_look trivial) (fun _ => at_stable) fun _ =>
      Triple.ret fun _ _ h => h

theorem attemptLock_triple (start : ℕ) : protocol.Triple t k (At t false false false)
    (interruptible (attemptLock start)) (Leaves t k) := by
  refine bind_triple takeLock_triple fun taken => ?_
  cases taken with
  | true =>
    refine Triple.pre (A := fun x => At t false false false x ∧ x.world.lockDir = .link t) ?_
      fun _ _ h => ⟨h.1, h.2 rfl⟩
    exact cmd_triple (f := fun _ => Prog.ret (some Task.critical))
      (φ := fun w => w.lockDir = .link t) link_stable does_setHeld (fun _ => at_stable)
      fun _ => Triple.ret fun _ _ h => h
  | false =>
    refine Triple.pre (bind_triple lockOwner_triple fun owner => ?_) fun _ _ h => h.1
    refine bind_triple (looks_triple (ownerAlive_looks owner)) fun alive => ?_
    cases alive with
    | true => exact waitForLock_triple start
    | false =>
      refine bind_triple reclaimIfStale_triple fun reclaimed => ?_
      cases reclaimed with
      | true => exact Triple.ret fun _ _ h => h
      | false => exact waitForLock_triple start

/-- A flag of the process read. -/
theorem does_flag {o : WarmLock.Op} {b : Bool} (ho : o.Looks) {f : Bool → WarmLock.Resp o}
    (hf : ∀ x q r, At t flag own holds x → step t (.cmd o) q x.world = some (r, x.world) → r = f b) :
    protocol.Does t k (At t flag own holds) (.cmd o)
      fun r x => r = f b ∧ At t flag own holds x := by
  have h : protocol.Does t k (fun x => At t flag own holds x ∧ True) (.cmd o)
      fun r x => r = f b ∧ At t flag own holds x :=
    does_looks (o := .cmd o) (φ := fun _ => True) ho fun x q r hat _ hq _ =>
      ⟨hf x q r hat hq, hat.looks (o := .cmd o) ho⟩
  exact h.pre fun _ _ hat => ⟨hat, trivial⟩

theorem does_getReclaiming : protocol.Does t k (At t flag own holds) (.cmd .getReclaiming)
    fun r x => r = flag ∧ At t flag own holds x := by
  refine does_flag (o := .getReclaiming) (f := id) trivial fun x q r hat hq => ?_
  have hq : some (x.world.reclaiming t, x.world) = some (r, x.world) := hq
  exact (Prod.mk.inj (Option.some.inj hq)).1.symm.trans hat.reclaiming

theorem does_getHeld : protocol.Does t k (At t flag own holds) (.cmd .getHeld)
    fun r x => r = holds ∧ At t flag own holds x := by
  refine does_flag (o := .getHeld) (f := id) trivial fun x q r hat hq => ?_
  have hq : some (x.world.held t, x.world) = some (r, x.world) := hq
  exact (Prod.mk.inj (Option.some.inj hq)).1.symm.trans hat.held

theorem At.clean (h : At t flag false holds x) : Clean t x := ⟨h.alive, h.mutex⟩

/-- The second half of `release_lock`. -/
theorem releaseHeld_triple : protocol.Triple t k (At t false false holds)
    (interruptible (do if ← WarmLock.call .getHeld then WarmLock.call .rmF))
    (Ends t k fun _ => Clean t) := by
  refine cmd_at_triple does_getHeld (fun _ => Stable.const.and at_stable) fun r => ?_
  refine Triple.pure_and fun hr => ?_
  subst hr
  cases r with
  | false => exact Triple.ret fun _ _ h => h.clean
  | true =>
    exact cmd_at_triple (f := fun _ => .ret ()) does_rmF (fun _ => clean_stable)
      fun _ => Triple.ret fun _ _ h => h

/-- `release_lock`, where the flag tells the truth. -/
theorem releaseLock_triple {b : Bool} : protocol.Triple t k (At t b b holds)
    (interruptible releaseLock) (Ends t k fun _ => Clean t) := by
  refine cmd_at_triple does_getReclaiming (fun _ => Stable.const.and at_stable) fun r => ?_
  refine Triple.pure_and fun hr => ?_
  subst hr
  cases r with
  | false => exact releaseHeld_triple
  | true =>
    refine cmd_at_triple (B := fun _ x => ∃ own, At t true own holds x) does_rmdirReclaim
      (fun _ => Stable.exists fun _ => at_stable) fun _ => Triple.exists fun own => ?_
    exact cmd_at_triple (does_setReclaiming_false.pre fun _ _ h => ⟨own, h⟩)
      (fun _ => at_stable) fun _ => releaseHeld_triple

theorem exitTrap_triple : protocol.Triple t .release (pre t .release) exitTrap
    (protocol.post t .release) := by
  refine Triple.exists fun b => Triple.exists fun h => ?_
  refine releaseLock_triple.bind fun r => ?_
  have hclean : ∀ x, Ends t .release (fun _ : Unit => Clean t) r x → Clean t x := by
    intro x hx
    cases r with
    | some _ => exact hx
    | none => exact hx
  exact (Triple.step does_exit (fun _ => Stable.true) fun _ => Triple.ret fun _ _ h => h).pre
    fun x _ hx => hclean x hx

/-- A task with its traps, where its program is not yet the trap. -/
theorem leaves_triple (hk : k ≠ .release)
    (h : protocol.Triple t k (pre t k) (interruptible (WarmLock.body k)) (Leaves t k)) :
    protocol.Triple t k (pre t k)
      (do match ← interruptible (WarmLock.body k) with
        | some next => pure next
        | none => pure (some .release)) (protocol.post t k) := by
  refine h.bind fun r => ?_
  cases r with
  | some next => exact Triple.ret fun _ _ h => h
  | none =>
    refine Triple.ret fun x _ hx => ?_
    have hx : Stopped t k x := hx
    rw [Stopped, if_neg hk] at hx
    exact hx

theorem body_triple : protocol.Triple t k (pre t k) (body k) (protocol.post t k) := by
  cases k with
  | acquire =>
    refine leaves_triple (fun h => by cases h) ?_
    exact cmd_at_triple (does_look trivial) (fun _ => at_stable) fun _ =>
      Triple.ret fun _ _ h => h
  | attempt start => exact leaves_triple (fun h => by cases h) (attemptLock_triple start)
  | critical =>
    refine leaves_triple (fun h => by cases h) ?_
    refine cmd_at_triple (does_look trivial) (fun _ => at_stable) fun more => ?_
    cases more with
    | true => exact Triple.ret fun _ _ h => h
    | false => exact Triple.ret fun _ _ h => ⟨false, true, h⟩
  | release => exact exitTrap_triple

/-! ## The whole -/

/-- The end of a process, by itself or killed. -/
theorem kept_ended {w : World}
    (hw : w = { x.world with alive := Function.update x.world.alive t false }) (hx : Inv x) :
    Inv (x.ended t k w) ∧ Guar (some t) x (x.ended t k w) := by
  subst hw
  refine ⟨⟨fun u k' w' τ hsuf => ?_, fun u k' o r w' hmem => ?_, fun u hu => ?_⟩,
    fun u hu => Function.update_of_ne (fun h => hu (congrArg some h.symm)) .., fun _ _ => rfl,
    fun _ _ => rfl, fun _ _ => rfl, fun _ _ _ => rfl, id⟩
  · rcases List.suffix_cons_iff.mp hsuf with heq | hsuf
    · cases heq
    · exact hx.mutex u k' w' τ hsuf
  · rcases List.mem_cons.mp hmem with heq | hmem
    · cases heq
    · exact hx.locks u k' o r w' hmem
  · obtain ⟨k', w', hmem⟩ := hu
    rcases List.mem_cons.mp hmem with heq | hmem
    · cases heq
    · obtain ⟨hdead, hown⟩ := hx.gone u ⟨k', w', hmem⟩
      refine ⟨?_, hown⟩
      show Function.update x.world.alive t false u = false
      rcases eq_or_ne u t with rfl | hut
      · exact Function.update_self ..
      · rw [Function.update_of_ne hut]
        exact hdead

theorem protocol_sound : protocol.Sound where
  pre_stable _ _ := pre_stable
  hold_stable _ _ := Stable.true
  hold_of_pre _ _ _ _ _ := trivial
  body _ _ := body_triple
  exit t k x hx _ _ := ⟨trivial, kept_ended rfl hx⟩
  crash t k x w hx hw _ := ⟨trivial, kept_ended (Option.some.inj hw).symm hx⟩
  env n x w hx hw := by
    cases hw
    exact ⟨⟨hx.mutex, hx.locks, hx.gone⟩, fun _ _ => rfl, fun _ _ => rfl, fun _ _ => rfl,
      fun _ _ => rfl, fun _ _ _ => rfl, id⟩

variable {c₀ c : Interleave.Config Resp Task World}

theorem holds_initial (h : Initial machine c₀) : protocol.Holds c₀ := by
  refine protocol_sound.init ⟨fun t k w τ hsuf => ?_, fun t k o r w hmem => ?_, fun t hexit => ?_⟩
    fun t k p hp => ?_
  · rw [h.trace] at hsuf
    cases List.eq_nil_of_suffix_nil hsuf
  · rw [h.trace] at hmem
    cases hmem
  · obtain ⟨k, w, hmem⟩ := hexit
    rw [h.trace] at hmem
    cases hmem
  · obtain ⟨hlt, rfl, rfl, halive, hheld, hflag⟩ := h.threads t k p hp
    refine ⟨hlt, rfl, halive, hflag, ?_, hheld, fun h => by cases h⟩
    simp [ownMutex, h.trace, maker]

/-- Process `t` finds a signal and goes to the trap. -/
def signalled (t : Pid) : List machine.Move := [.call t fun _ => true, .again t]

/-- Process `t` finds the lock's owner dead, just before its `mkdir`. -/
def judge (t : Pid) : List machine.Move := steps t 2 ++ [.again t] ++ steps t 10

/-- Where process 0 has just removed the reclaim mutex: whether it stood,
and who had made it. -/
def unlocks : List Line → Bool × Option Pid
  | .did 0 _ (.cmd .rmdirReclaim) _ w :: τ => (w.reclaimLockDir, maker τ)
  | _ => (false, none)

/-- **A signal between `rmdir` and `reclaiming=0` can remove another's
reclaim mutex.** -/
theorem signal_steals_mutex :
    ∃ c₀ c : Interleave.Config Resp Task World, Initial machine c₀ ∧
      machine.Run (fun _ _ => True) c₀ c ∧
      ∃ k w τ, .did 0 k (.cmd .rmdirReclaim) () w :: τ <:+ c.trace ∧
        w.reclaimLockDir = true ∧ maker τ = some 1 := by
  have h : ((machine.follow (fun _ _ => true)
      (judge 1 ++ judge 0 ++ steps 0 16 ++ signalled 0 ++ steps 1 2 ++ steps 0 4)
      (startingPoint machine 2 (.link 2))).map fun c => unlocks c.trace) =
        some (true, some 1) := by decide +kernel
  obtain ⟨c, hc, heq⟩ := Option.map_eq_some_iff.mp h
  refine ⟨_, c, startingPoint_dead machine (Nat.le_refl 2),
    (Machine.run_of_follow hc).mono fun _ _ _ => trivial, ?_⟩
  unfold unlocks at heq
  split at heq
  · rename_i k r w τ htrace
    obtain ⟨hstands, hmaker⟩ := Prod.mk.inj heq
    exact ⟨k, w, τ, htrace ▸ List.suffix_refl _, hstands, hmaker⟩
  · cases heq

end WarmLock.Traps

end GhaConsumer
