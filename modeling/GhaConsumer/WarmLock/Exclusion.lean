import GhaConsumer.WarmLock.Model
import GhaConsumer.Interleave.RelyGuarantee

/-!
# Warm lock — mutual exclusion

What the script's argument needs and what it leaves open. Under the
reclaim mutex a lock seen dead stays as it is, so removing it is safe
(`Guar.dead`). But `lock_owner` may find no lock, or the lock of a
process that then releases it: neither stops another process from taking
the lock before the reclaimer tests `-L` again, and the empty or dead
owner it read earlier then condemns a live lock
(`reclaim_removes_live_lock`). Where no removal meets such a lock, at
most one process is critical (`critical_unique`).
-/

namespace GhaConsumer

namespace WarmLock

open Interleave Protocol

/-- The shared part of a state. -/
abbrev State := Shared Resp Task World

/-- A line of the history. -/
abbrev Line := Entry Resp Task World

/-! ## What the history says -/

/-- The process that has entered the reclaim mutex and not left it. -/
def mutexOwner : List Line → Option Pid
  | [] => none
  | .did t _ .mkdirReclaim true _ :: _ => some t
  | .did _ _ .rmdirReclaim _ _ :: _ => none
  | _ :: τ => mutexOwner τ

/-- `p` has taken the lock since `t` last entered the reclaim mutex. -/
def takenSince (t p : Pid) : List Line → Bool
  | [] => false
  | .did u _ .mkdirReclaim true _ :: τ => u != t && takenSince t p τ
  | .did u _ .lnS true _ :: τ => u == p || takenSince t p τ
  | _ :: τ => takenSince t p τ

/-- The lock's owner is dead, or it is a legacy directory. -/
def World.dead (w : World) : Bool :=
  match w.lockDir with
  | .absent => false
  | .link p => !w.alive p
  | .dir _ => true

/-- `t` found a dead lock when it last read the owner: at the `readlink`
of `lock_owner` or, where that was no symlink, at its `-d`. -/
def sawDead (t : Pid) : List Line → Bool
  | [] => false
  | .did u _ .readlink _ w :: τ => if u = t then w.dead else sawDead t τ
  | .did u _ .testDir _ w :: τ => if u = t then w.dead else sawDead t τ
  | _ :: τ => sawDead t τ

/-- The process alive whose lock stands, if any. -/
def World.liveOwner (w : World) : Option Pid := w.lockDir.target.filter w.alive

/-- The condition on a removal: the reclaimer had found a dead lock, or
the lock that now stands is not one a live process has taken since the
reclaimer entered the mutex. -/
def removesNoTakenLock (s : State) : Line → Bool
  | .did t _ .rmRf _ w =>
    sawDead t s.trace || !w.liveOwner.any fun p => takenSince t p s.trace
  | _ => true

theorem World.liveOwner_eq_some {w : World} {p : Pid} :
    w.liveOwner = some p ↔ w.lockDir = .link p ∧ w.alive p = true := by
  simp [World.liveOwner, Option.filter_eq_some_iff]

theorem World.liveOwner_of_dead {w : World} (h : w.dead = true) : w.liveOwner = none := by
  rcases w with ⟨_ | p | o, _, _, _, _, _⟩ <;>
    simp_all [World.dead, World.liveOwner, Slot.target]

/-! ## The protocol -/

/-- What a step of `a` may do: to the processes, to the lock, and to the
reclaim mutex. -/
structure Guar (a : Option Pid) (x y : State) : Prop where
  alive : ∀ t, a ≠ some t → y.world.alive t = x.world.alive t
  noRevival : ∀ t, y.world.alive t = true → x.world.alive t = true
  held : ∀ t, a ≠ some t → y.world.held t = x.world.held t
  reclaiming : ∀ t, a ≠ some t → y.world.reclaiming t = x.world.reclaiming t
  /-- The lock of a live process is its own to remove. -/
  live : ∀ t, a ≠ some t → x.world.liveOwner = some t → y.world.lockDir = x.world.lockDir
  noDir : x.world.lockDir.isDir = false → y.world.lockDir.isDir = false
  mutex : ∀ t, a ≠ some t → mutexOwner x.trace = some t → mutexOwner y.trace = some t
  /-- Only the process in the mutex removes a dead lock. -/
  dead : ∀ t, a ≠ some t → mutexOwner x.trace = some t → x.world.dead = true →
    y.world.lockDir = x.world.lockDir
  saw : ∀ t, a ≠ some t → sawDead t y.trace = sawDead t x.trace
  taken : ∀ t p, a ≠ some t → takenSince t p x.trace = true → takenSince t p y.trace = true
  /-- A lock is new only if it was just taken. -/
  new : ∀ t p, a ≠ some t → y.world.lockDir = .link p →
    x.world.lockDir = .link p ∨ takenSince t p y.trace = true

/-- Process `t` is alive, with its flags as given. -/
def Flags (t : Pid) (held reclaiming : Bool) (x : State) : Prop :=
  x.world.alive t = true ∧ x.world.held t = held ∧ x.world.reclaiming t = reclaiming

/-- What process `t` knows at the head of each task. -/
def pre (t : Pid) : Task → State → Prop
  | .acquire | .attempt _ => Flags t false false
  | .critical => fun x => Flags t true false x ∧ x.world.lockDir = .link t
  | .release => fun x => Flags t false false x ∨ Flags t true false x ∧ x.world.lockDir = .link t

/-- The protocol of the warm lock. -/
def protocol : Protocol machine where
  Meets s x := removesNoTakenLock s x = true
  inv x := ∀ t, mutexOwner x.trace = some t → x.world.reclaimLockDir = true
  guar := Guar
  pre := pre
  hold t k x := x.world.alive t = true ∧ (k = .critical → x.world.lockDir = .link t)
  fin t _ x := x.world.alive t = true
  good _ _ := True

variable {t : Pid} {k : Task} {o : Op} {x y : State} {a : Option Pid}

theorem flags_stable {h r : Bool} : protocol.Stable t (Flags t h r) := by
  rintro a x y ha - - hg ⟨h₁, h₂, h₃⟩
  exact ⟨(hg.alive t ha).trans h₁, (hg.held t ha).trans h₂, (hg.reclaiming t ha).trans h₃⟩

/-- A process that is alive and holds the lock keeps it. -/
theorem own_stable {h r : Bool} :
    protocol.Stable t fun x => Flags t h r x ∧ x.world.lockDir = .link t := by
  rintro a x y ha hx hy hg ⟨hf, hl⟩
  refine ⟨flags_stable a x y ha hx hy hg hf, ?_⟩
  rw [hg.live t ha (World.liveOwner_eq_some.mpr ⟨hl, hf.1⟩), hl]

theorem pre_stable : protocol.Stable t (pre t k) := by
  cases k with
  | acquire => exact flags_stable
  | attempt _ => exact flags_stable
  | critical => exact own_stable
  | release =>
    intro a x y ha hx hy hg h
    exact h.imp (flags_stable a x y ha hx hy hg) (own_stable a x y ha hx hy hg)

/-! ## Operations that only look -/

/-- Operations that leave the world as it is. -/
def Op.Looks : Op → Prop
  | .testDir | .testLink | .readlink | .testPidFile | .catPid | .kill0 _ | .seconds | .sleep
  | .getHeld | .getReclaiming | .work => True
  | _ => False

theorem step_of_looks {q : Bool} {w w' : World} {r : Resp o} (ho : o.Looks)
    (h : step t o q w = some (r, w')) : w' = w := by
  cases o <;> first | exact ho.elim | (simp only [step, Option.some.injEq, Prod.mk.injEq] at h; exact h.2.symm)

theorem guar_looks {r : Resp o} (ho : o.Looks) :
    Guar (some t) x (x.called machine t k o r x.world) := by
  have hm : mutexOwner (.did t k o r x.world :: x.trace) = mutexOwner x.trace := by
    cases o <;> first | exact ho.elim | rfl
  have hs : ∀ p u, takenSince u p (.did t k o r x.world :: x.trace) = takenSince u p x.trace := by
    intro p u
    cases o <;> first | exact ho.elim | rfl
  have hd : ∀ u, some t ≠ some u →
      sawDead u (.did t k o r x.world :: x.trace) = sawDead u x.trace := by
    intro u hu
    have hne : t ≠ u := fun h => hu (h ▸ rfl)
    cases o <;> first | exact ho.elim | rfl | simp [sawDead, hne]
  constructor <;> simp_all [Shared.called]

/-- An operation that only looks keeps every promise; what is known after
it is what it saw. -/
theorem does_looks {A : State → Prop} {B : Resp o → State → Prop} (ho : o.Looks)
    (hA : ∀ x, A x → protocol.hold t k x)
    (hB : ∀ x q r, A x → step t o q x.world = some (r, x.world) →
      B r (x.called machine t k o r x.world)) : protocol.Does t k A o B := by
  intro x q r w hx hax hq hm hn
  obtain rfl := step_of_looks ho hq
  refine ⟨⟨trivial, fun u hu => ?_, guar_looks ho, hA x hax, fun u k' h => by cases h⟩,
    hB x q r hax hq⟩
  have hmu : mutexOwner (.did t k o r x.world :: x.trace) = mutexOwner x.trace := by
    cases o <;> first | exact ho.elim | rfl
  exact hx u (hmu ▸ hu)

/-- What an assertion about the world says, an operation that only looks
leaves alone. -/
theorem does_looks_flags {h r : Bool} (ho : o.Looks) (hk : k ≠ .critical) :
    protocol.Does t k (Flags t h r) o fun _ => Flags t h r :=
  does_looks ho (fun _ hx => ⟨hx.1, fun h => (hk h).elim⟩) fun _ _ _ hx _ => hx

/-! ## The reclaim -/

/-- Process `t` is in the reclaim mutex. -/
def InMutex (t : Pid) (x : State) : Prop :=
  Flags t false true x ∧ mutexOwner x.trace = some t

/-- What `t` knows of the lock once it has read `owner` in the mutex: a
lock it saw dead still is, and a live one is `owner`'s or was just taken. -/
structure Knows (t : Pid) (owner : Option Pid) (x : State) : Prop where
  dead : sawDead t x.trace = true → x.world.dead = true
  live : ∀ p, x.world.liveOwner = some p →
    owner = some p ∨ takenSince t p x.trace = true

theorem inMutex_stable : protocol.Stable t (InMutex t) :=
  flags_stable.and fun _ _ _ ha _ _ hg h => hg.mutex t ha h

theorem live_stable {owner : Option Pid} {x y : State} (ha : a ≠ some t) (hg : Guar a x y)
    (h : ∀ p, x.world.liveOwner = some p → owner = some p ∨ takenSince t p x.trace = true) :
    ∀ p, y.world.liveOwner = some p → owner = some p ∨ takenSince t p y.trace = true := by
  intro p hp
  obtain ⟨hl, hlive⟩ := World.liveOwner_eq_some.mp hp
  rcases hg.new t p ha hl with hx | ht
  · exact (h p (World.liveOwner_eq_some.mpr ⟨hx, hg.noRevival p hlive⟩)).imp_right
      (hg.taken t p ha)
  · exact .inr ht

/-- **A dead lock stays while its reclaimer is in the mutex.** -/
theorem knows_stable {owner : Option Pid} :
    protocol.Stable t fun x => InMutex t x ∧ Knows t owner x := by
  rintro a x y ha hx hy hg ⟨hm, hk⟩
  refine ⟨inMutex_stable a x y ha hx hy hg hm, fun hs => ?_, live_stable ha hg hk.live⟩
  have hdead := hk.dead (hg.saw t ha ▸ hs)
  have hlock := hg.dead t ha hm.2 hdead
  simp only [World.dead, hlock] at hdead ⊢
  cases hl : x.world.lockDir with
  | absent => simp [hl] at hdead
  | link p =>
    simp only [hl, Bool.not_eq_true', ← Bool.not_eq_true] at hdead ⊢
    exact fun h => hdead (hg.noRevival p h)
  | dir o => rfl

theorem hold_of_flags {h r : Bool} (hk : k ≠ .critical) (hx : Flags t h r x) :
    protocol.hold t k x := ⟨hx.1, fun h => (hk h).elim⟩

/-- In the mutex, with no live lock that was not just taken. -/
theorem Knows.of_dead_owner {owner : Option Pid} (h : Knows t owner x)
    (ho : ∀ p, owner = some p → x.world.alive p = false) : Knows t none x := by
  refine ⟨h.dead, fun p hp => .inr ((h.live p hp).resolve_left fun heq => ?_)⟩
  have hlive := (World.liveOwner_eq_some.mp hp).2
  rw [ho p heq] at hlive
  cases hlive

/-- `lock_owner`, run in the reclaim mutex. -/
theorem lockOwner_triple (hk : k ≠ .critical) :
    protocol.Triple t k (InMutex t) lockOwner
      fun owner x => InMutex t x ∧ Knows t owner x := by
  have hold : ∀ x, InMutex t x → protocol.hold t k x := fun x hx => hold_of_flags hk hx.1
  refine Triple.step
    (B := fun r x => InMutex t x ∧ (r = false → ∀ p, x.world.liveOwner = some p →
      (none : Option Pid) = some p ∨ takenSince t p x.trace = true))
    (does_looks trivial hold fun x q r hx hq => ⟨hx, ?_⟩)
    (fun r => inMutex_stable.and (.imp fun _ a x y ha _ _ hg h => live_stable ha hg h)) ?_
  · -- no symlink stands, so no live lock does
    rintro rfl p hp
    have hlink := (World.liveOwner_eq_some.mp hp).1
    simp only [step, Option.some.injEq, Prod.mk.injEq, and_true] at hq
    rw [show x.world.lockDir = .link p from hlink] at hq
    cases hq
  · rintro (_ | _)
    · refine Triple.step
        (B := fun _ x => InMutex t x ∧ Knows t none x)
        (does_looks trivial (fun x hx => hold x hx.1) fun x q r hx _ =>
          ⟨hx.1, fun hs => by simpa [Shared.called, sawDead] using hs, hx.2 rfl⟩)
        (fun _ => knows_stable) ?_
      rintro (_ | _)
      · exact Triple.ret fun x _ h => h
      · refine Triple.step (B := fun _ x => InMutex t x ∧ Knows t none x)
          (does_looks trivial (fun x hx => hold x hx.1) fun x q r hx _ =>
            ⟨hx.1, hx.2.dead, hx.2.live⟩)
          (fun _ => knows_stable) ?_
        rintro (_ | _)
        · exact Triple.ret fun x _ h => h
        · refine Triple.step (B := fun _ x => InMutex t x ∧ Knows t none x)
            (does_looks trivial (fun x hx => hold x hx.1) fun x q r hx _ =>
            ⟨hx.1, hx.2.dead, hx.2.live⟩)
            (fun _ => knows_stable) ?_
          exact fun r => Triple.ret fun x _ h =>
            ⟨h.1, h.2.dead, fun p hp => .inr ((h.2.live p hp).resolve_left (by simp))⟩
    · refine Triple.step (B := fun r x => InMutex t x ∧ Knows t r x)
        (does_looks trivial (fun x hx => hold x hx.1) fun x q r hx hq =>
          ⟨hx.1, fun hs => by simpa [Shared.called, sawDead] using hs, fun p hp => .inl ?_⟩)
        (fun _ => knows_stable) fun r => Triple.ret fun x _ h => h
      simp only [step, Option.some.injEq, Prod.mk.injEq, and_true] at hq
      rw [← hq]
      exact Slot.target_eq_some.mpr (World.liveOwner_eq_some.mp hp).1

/-- `kill -0` on the owner read. -/
theorem ownerAlive_triple (hk : k ≠ .critical) (owner : Option Pid) :
    protocol.Triple t k (fun x => InMutex t x ∧ Knows t owner x) (ownerAlive owner)
      fun r x => (InMutex t x ∧ Knows t owner x) ∧
        (r = false → ∀ p, owner = some p → x.world.alive p = false) := by
  cases owner with
  | none => exact Triple.ret fun x _ h => ⟨h, fun _ => nofun⟩
  | some p =>
    refine Triple.op (does_looks trivial (fun x hx => hold_of_flags hk hx.1.1) fun x q r hx hq =>
      ⟨⟨hx.1, hx.2.dead, hx.2.live⟩, ?_⟩) (fun r => knows_stable.and (.imp fun _ => ?_))
    · rintro rfl _ ⟨⟩
      simp only [step, Option.some.injEq, Prod.mk.injEq, and_true] at hq
      exact hq
    · rintro a x y - - - hg h p ⟨⟩
      simp only [← Bool.not_eq_true] at h ⊢
      exact fun hy => h p rfl (hg.noRevival p hy)

/-- The stale test finds a lock stale only if no live process holds it,
but for one that has just taken it. -/
theorem lockIsStale_triple (hk : k ≠ .critical) (owner : Option Pid) :
    protocol.Triple t k (fun x => InMutex t x ∧ Knows t owner x) (lockIsStale owner)
      fun stale x => InMutex t x ∧ (stale = true → Knows t none x) := by
  have hold : ∀ x, InMutex t x ∧ Knows t owner x → protocol.hold t k x :=
    fun x hx => hold_of_flags hk hx.1.1
  refine Triple.bind (Q := fun _ x => InMutex t x ∧ Knows t owner x) ?_ ?_
  · refine Triple.step (B := fun _ x => InMutex t x ∧ Knows t owner x)
      (does_looks trivial hold fun x q r hx _ => ⟨hx.1, hx.2.dead, hx.2.live⟩)
      (fun _ => knows_stable) ?_
    rintro (_ | _)
    · exact Triple.step (B := fun _ x => InMutex t x ∧ Knows t owner x)
        (does_looks trivial hold fun x q r hx _ =>
          ⟨hx.1, fun hs => by simpa [Shared.called, sawDead] using hs, hx.2.live⟩)
        (fun _ => knows_stable) fun _ => Triple.ret fun x _ h => h
    · exact Triple.ret fun x _ h => h
  rintro (_ | _)
  · exact Triple.ret fun x _ h => ⟨h.1, fun hs => by cases hs⟩
  · exact Triple.bind (ownerAlive_triple hk owner) fun r =>
      Triple.ret fun x _ h => ⟨h.1.1, fun hr => h.1.2.of_dead_owner (h.2 (by simpa using hr))⟩

theorem does_setReclaiming {h r b : Bool} (hk : k ≠ .critical) {φ : State → Prop}
    (hφ : ∀ x k r w, φ x → φ (x.called machine t k (.setReclaiming b) r w)) :
    protocol.Does t k (fun x => Flags t h r x ∧ φ x) (.setReclaiming b)
      fun _ x => Flags t h b x ∧ φ x := by
  rintro x q _ w hx ⟨⟨h₁, h₂, h₃⟩, hp⟩ hq hm hn
  simp only [step, Option.some.injEq, Prod.mk.injEq, true_and] at hq
  subst hq
  have hne : ∀ u, t ≠ u → Function.update x.world.reclaiming t b u = x.world.reclaiming u :=
    fun u hu => Function.update_of_ne hu.symm ..
  refine ⟨⟨trivial, hx, ?_, ⟨h₁, fun h => (hk h).elim⟩, nofun⟩,
    ⟨h₁, h₂, by simp [Shared.called]⟩, hφ x _ _ _ hp⟩
  constructor <;> simp_all [Shared.called, mutexOwner, takenSince, sawDead, World.dead]

theorem does_setHeld {r b : Bool} {φ : World → Prop} (hk : k ≠ .critical)
    (hφ : ∀ w, φ w → φ { w with held := Function.update w.held t b }) :
    protocol.Does t k (fun x => Flags t false r x ∧ φ x.world) (.setHeld b)
      fun _ x => Flags t b r x ∧ φ x.world := by
  rintro x q _ w hx ⟨⟨h₁, h₂, h₃⟩, hp⟩ hq hm hn
  simp only [step, Option.some.injEq, Prod.mk.injEq, true_and] at hq
  subst hq
  have hne : ∀ u, t ≠ u → Function.update x.world.held t b u = x.world.held u :=
    fun u hu => Function.update_of_ne hu.symm ..
  refine ⟨⟨trivial, hx, ?_, ⟨h₁, fun h => (hk h).elim⟩, nofun⟩,
    ⟨h₁, by simp [Shared.called], h₃⟩, hφ _ hp⟩
  constructor <;> simp_all [Shared.called, mutexOwner, takenSince, sawDead, World.dead]

theorem does_mkdirReclaim (hk : k ≠ .critical) :
    protocol.Does t k (Flags t false false) .mkdirReclaim
      fun r x => Flags t false false x ∧ (r = true → mutexOwner x.trace = some t) := by
  intro x q r w hx hf hq hm hn
  simp only [step] at hq
  split at hq
  · cases hq
    refine ⟨⟨trivial, hx, ?_, hold_of_flags hk hf, fun _ _ h => by cases h⟩, hf, fun h => by cases h⟩
    constructor <;> simp_all [Shared.called, mutexOwner, takenSince, sawDead, World.dead]
  · rename_i hfree
    cases hq
    have hfree' : ∀ u, mutexOwner x.trace ≠ some u := by
      intro u hu
      exact hfree (by rw [hx u hu]; exact Bool.or_true q)
    refine ⟨⟨trivial, fun u _ => rfl, ?_, hold_of_flags hk hf, fun _ _ h => by cases h⟩, hf, fun _ => rfl⟩
    constructor <;> simp_all [Shared.called, mutexOwner, takenSince, sawDead, World.dead]

theorem does_rmdirReclaim (hk : k ≠ .critical) :
    protocol.Does t k (InMutex t) .rmdirReclaim fun _ => Flags t false true := by
  rintro x q _ w hx ⟨hf, hown⟩ hq hm hn
  cases hq
  refine ⟨⟨trivial, fun u hu => ?_, ?_, hold_of_flags hk hf, nofun⟩, hf⟩
  · cases hu
  · constructor <;> simp_all [Shared.called, mutexOwner, takenSince, sawDead, World.dead]

/-- **The removal.** A reclaimer that has judged the lock stale removes
no live process's lock. -/
theorem does_rmRf (hk : k ≠ .critical) :
    protocol.Does t k (fun x => InMutex t x ∧ Knows t none x) .rmRf fun _ => InMutex t := by
  rintro x q _ w hx ⟨hmx, hk'⟩ hq hm hn
  have hnone : x.world.liveOwner = none := by
    simp only [protocol, removesNoTakenLock, Bool.or_eq_true, Bool.not_eq_true'] at hm
    rcases hm with hs | hs
    · exact World.liveOwner_of_dead (hk'.dead hs)
    · cases hl : x.world.liveOwner with
      | none => rfl
      | some p =>
        have ht := (hk'.live p hl).resolve_left nofun
        rw [hl, Option.any_some, ht] at hs
        cases hs
  simp only [step, Option.some.injEq, Prod.mk.injEq, true_and] at hq
  subst hq
  obtain ⟨⟨h₁, h₂, h₃⟩, hown⟩ := hmx
  refine ⟨⟨trivial, fun u hu => ?_, ?_, ?_, nofun⟩, ?_⟩
  · have := hx u hu
    split <;> exact this
  · split
    · constructor <;> simp_all [Shared.called, mutexOwner, takenSince, sawDead, World.dead]
    · constructor <;>
        simp_all [Shared.called, mutexOwner, takenSince, sawDead, World.dead, Slot.isDir]
  · refine ⟨?_, fun h => (hk h).elim⟩
    split <;> exact h₁
  · refine ⟨?_, hown⟩
    split <;> exact ⟨h₁, h₂, h₃⟩

/-- `reclaim_if_stale`. -/
theorem reclaimIfStale_triple (hk : k ≠ .critical) :
    protocol.Triple t k (Flags t false false) reclaimIfStale fun _ => Flags t false false := by
  have leave : ∀ b : Bool, protocol.Triple t k (InMutex t)
      (do call .rmdirReclaim; call (.setReclaiming false); pure b)
      fun _ => Flags t false false := by
    intro b
    refine Triple.step (does_rmdirReclaim hk) (fun _ => flags_stable) fun _ => ?_
    refine Triple.step (B := fun _ => Flags t false false) (fun x q r w hx hf hq hm hn => ?_)
      (fun _ => flags_stable) fun _ => Triple.ret fun x _ h => h
    obtain ⟨hkept, hB⟩ := does_setReclaiming (φ := fun _ => True) hk (fun _ _ _ _ h => h)
      x q r w hx ⟨hf, trivial⟩ hq hm hn
    exact ⟨hkept, hB.1⟩
  refine Triple.step (does_mkdirReclaim hk)
    (fun r => flags_stable.and (.imp fun _ _ _ _ ha _ _ hg h => hg.mutex t ha h)) ?_
  rintro (_ | _)
  · exact Triple.ret fun x _ h => h.1
  · refine Triple.step (B := fun _ => InMutex t)
      (fun x q r w hx hf => does_setReclaiming (φ := fun x => mutexOwner x.trace = some t) hk
        (fun _ _ _ _ h => h) x q r w hx ⟨hf.1, hf.2 rfl⟩)
      (fun _ => inMutex_stable) fun _ => ?_
    refine Triple.bind (lockOwner_triple hk) fun owner => ?_
    refine Triple.bind (lockIsStale_triple hk owner) ?_
    rintro (_ | _)
    · exact (leave false).pre fun x _ h => h.1
    · refine Triple.step (A := fun x => InMutex t x ∧ (true = true → Knows t none x))
        (B := fun _ => InMutex t) ?_ (fun _ => inMutex_stable) fun _ => leave true
      exact fun x q r w hx h => does_rmRf hk x q r w hx ⟨h.1, h.2 rfl⟩

/-! ## Taking and releasing the lock -/

/-- `ln -s`, where no directory stands at the path: it succeeds only by
making the lock. -/
theorem does_lnS (hk : k ≠ .critical) :
    protocol.Does t k (fun x => Flags t false false x ∧ x.world.lockDir.isDir = false) .lnS
      fun r x => Flags t false false x ∧ (r = true → x.world.lockDir = .link t) := by
  rintro x q r w hx ⟨hf, hdir⟩ hq hm hn
  have same : ∀ r, r = false → protocol.Kept t k .lnS r x (x.called machine t k .lnS r x.world) := by
    rintro _ rfl
    refine ⟨trivial, hx, ?_, hold_of_flags hk hf, fun _ _ h => by cases h⟩
    constructor <;> simp_all [Shared.called, mutexOwner, takenSince, sawDead, World.dead]
  simp only [step] at hq
  split at hq
  · cases hq
    exact ⟨same _ rfl, hf, fun h => by cases h⟩
  · split at hq
    · rename_i habs
      cases hq
      have hlive : x.world.liveOwner = none := by simp [World.liveOwner, habs, Slot.target]
      refine ⟨⟨trivial, hx, ?_, hold_of_flags hk hf, fun _ _ h => by cases h⟩, hf, fun _ => rfl⟩
      constructor <;>
        simp_all [Shared.called, mutexOwner, takenSince, sawDead, World.dead, Slot.isDir]
    · cases hq
      exact ⟨same _ rfl, hf, fun h => by cases h⟩
    · rename_i o ho
      rw [ho] at hdir
      cases hdir

theorem noDir_stable : protocol.Stable t fun x => x.world.lockDir.isDir = false :=
  fun _ _ _ _ _ _ hg h => hg.noDir h

theorem taken_stable {b : Bool} : protocol.Stable t fun x =>
    Flags t false false x ∧ (b = true → x.world.lockDir = .link t) := by
  rintro a x y ha hx hy hg ⟨hf, hl⟩
  exact ⟨flags_stable a x y ha hx hy hg hf, fun hb => (own_stable a x y ha hx hy hg ⟨hf, hl hb⟩).2⟩

theorem takeLock_triple (hk : k ≠ .critical) :
    protocol.Triple t k (Flags t false false) takeLock
      fun r x => Flags t false false x ∧ (r = true → x.world.lockDir = .link t) := by
  refine Triple.step
    (B := fun r x => Flags t false false x ∧ (r = false → x.world.lockDir.isDir = false))
    (does_looks trivial (fun x hx => hold_of_flags hk hx) fun x q r hx hq => ⟨hx, ?_⟩)
    (fun r => flags_stable.and (.imp fun _ => noDir_stable)) ?_
  · rintro rfl
    simp only [step, Option.some.injEq, Prod.mk.injEq, and_true] at hq
    exact hq
  · rintro (_ | _)
    · refine Triple.op (A := fun x => Flags t false false x ∧
        (false = false → x.world.lockDir.isDir = false)) ?_ fun _ => taken_stable
      exact fun x q r w hx h => does_lnS hk x q r w hx ⟨h.1, h.2 rfl⟩
    · exact Triple.ret fun x _ h => ⟨h.1, nofun⟩

/-- A program that only looks keeps what a process knows of itself. -/
theorem looks_triple {α : Type} {p : Prog Resp α} (hp : p.Only Op.Looks) (hk : k ≠ .critical)
    {h r : Bool} : protocol.Triple t k (Flags t h r) p fun _ => Flags t h r :=
  Triple.only hp flags_stable fun _ ho => does_looks_flags ho hk

theorem lockOwner_looks : lockOwner.Only Op.Looks := by
  refine ⟨trivial, ?_⟩
  rintro (_ | _)
  · refine ⟨trivial, ?_⟩
    rintro (_ | _)
    · trivial
    · refine ⟨trivial, ?_⟩
      rintro (_ | _)
      · trivial
      · exact Prog.only_op trivial
  · exact Prog.only_op trivial

theorem ownerAlive_looks (owner : Option Pid) : (ownerAlive owner).Only Op.Looks := by
  cases owner with
  | none => trivial
  | some p => exact Prog.only_op (o := Op.kill0 p) trivial

/-- A turn that goes on waiting, or gives up, has changed nothing. -/
theorem waitForLock_triple (hk : k ≠ .critical) (start : ℕ) :
    protocol.Triple t k (Flags t false false) (waitForLock start) (protocol.post t k) := by
  refine Triple.step (does_looks_flags trivial hk) (fun _ => flags_stable) fun now => ?_
  split
  · exact Triple.ret fun x _ h => .inl h
  · exact Triple.step (does_looks_flags trivial hk) (fun _ => flags_stable) fun _ =>
      Triple.ret fun x _ h => h

/-- One turn of the loop: the lock is this process's, or nothing has
changed. -/
theorem attemptLock_triple (start : ℕ) :
    protocol.Triple t (.attempt start) (Flags t false false) (attemptLock start)
      (protocol.post t (.attempt start)) := by
  have hk : Task.attempt start ≠ .critical := nofun
  refine Triple.bind (takeLock_triple hk) ?_
  rintro (_ | _)
  · refine Triple.bind ((looks_triple lockOwner_looks hk).pre fun x _ h => h.1) fun owner => ?_
    refine Triple.bind (looks_triple (ownerAlive_looks owner) hk) ?_
    rintro (_ | _)
    · refine Triple.bind (reclaimIfStale_triple hk) ?_
      rintro (_ | _)
      · exact waitForLock_triple hk start
      · exact Triple.ret fun x _ h => h
    · exact waitForLock_triple hk start
  · refine Triple.step
      (A := fun x => Flags t false false x ∧ (true = true → x.world.lockDir = .link t))
      (B := fun _ x => Flags t true false x ∧ x.world.lockDir = .link t)
      (fun x q r w hx h => does_setHeld (φ := fun w => w.lockDir = .link t) hk (fun _ h => h)
        x q r w hx ⟨h.1, h.2 rfl⟩)
      (fun _ => own_stable) fun _ => Triple.ret fun x _ h => h

/-- `rm -f` on one's own lock. -/
theorem does_rmF (hk : k ≠ .critical) :
    protocol.Does t k (fun x => Flags t true false x ∧ x.world.lockDir = .link t) .rmF
      fun _ => Flags t true false := by
  rintro x q _ w hx ⟨⟨h₁, h₂, h₃⟩, hl⟩ hq hm hn
  have hlive : x.world.liveOwner = some t := World.liveOwner_eq_some.mpr ⟨hl, h₁⟩
  simp only [step, hl, Slot.isDir, Option.some.injEq, Prod.mk.injEq,
    true_and] at hq
  subst hq
  refine ⟨⟨trivial, fun u hu => ?_, ?_, ?_, nofun⟩, ?_⟩
  · have := hx u hu
    split <;> exact this
  · split
    · constructor <;> simp_all [Shared.called, mutexOwner, takenSince, sawDead, World.dead]
    · constructor <;>
        simp_all [Shared.called, mutexOwner, takenSince, sawDead, World.dead, Slot.isDir]
  · refine ⟨?_, fun h => (hk h).elim⟩
    split <;> exact h₁
  · split <;> exact ⟨h₁, h₂, h₃⟩

theorem releaseLock_triple (hk : k ≠ .critical) :
    protocol.Triple t k (pre t .release) releaseLock fun _ x => x.world.alive t = true := by
  have hold : ∀ x, pre t .release x → protocol.hold t k x := fun x hx =>
    hx.elim (fun h => hold_of_flags hk h) fun h => hold_of_flags hk h.1
  refine Triple.step
    (B := fun r x => r = false ∧ pre t .release x)
    (does_looks trivial hold fun x q r hx hq => ⟨?_, hx⟩)
    (fun _ => Stable.const.and pre_stable) ?_
  · simp only [step, Option.some.injEq, Prod.mk.injEq, and_true] at hq
    rw [← hq]
    exact hx.elim (fun h => h.2.2) fun h => h.1.2.2
  · rintro r
    refine Triple.pure_and ?_
    rintro rfl
    refine Triple.step
      (B := fun r x => x.world.alive t = true ∧
        (r = true → Flags t true false x ∧ x.world.lockDir = .link t))
      (does_looks trivial hold fun x q r hx hq => ⟨(hold x hx).1, ?_⟩)
      (fun _ => .and (fun a x y ha _ _ hg h => (hg.alive t ha).trans h) (.imp fun _ => own_stable))
      ?_
    · rintro rfl
      refine hx.resolve_left fun h => ?_
      simp only [step, Option.some.injEq, Prod.mk.injEq, and_true] at hq
      rw [h.2.1] at hq
      cases hq
    · rintro (_ | _)
      · exact Triple.ret fun x _ h => h.1
      · refine (Triple.op (does_rmF hk) fun _ => flags_stable).conseq (fun x _ h => h.2 rfl)
          fun _ x _ h => h.1

/-! ## The whole -/

theorem body_triple : protocol.Triple t k (pre t k) (body k) (protocol.post t k) := by
  cases k with
  | acquire =>
    exact Triple.step (does_looks_flags trivial nofun) (fun _ => flags_stable) fun _ =>
      Triple.ret fun x _ h => h
  | attempt start => exact attemptLock_triple start
  | critical =>
    refine Triple.step (B := fun _ x => Flags t true false x ∧ x.world.lockDir = .link t)
      (does_looks trivial (fun x hx => ⟨hx.1.1, fun _ => hx.2⟩) fun x q r hx _ => hx)
      (fun _ => own_stable) ?_
    rintro (_ | _)
    · exact Triple.ret fun x _ h => .inr h
    · exact Triple.ret fun x _ h => h
  | release =>
    exact Triple.bind (releaseLock_triple nofun) fun _ => Triple.ret fun x _ h => h

theorem guar_ended {w : World} (hw : w = { x.world with alive := Function.update x.world.alive t false }) :
    Guar (some t) x (x.ended t k w) := by
  subst hw
  have hne : ∀ u, t ≠ u → Function.update x.world.alive t false u = x.world.alive u :=
    fun u hu => Function.update_of_ne hu.symm ..
  have hlive : ∀ u, Function.update x.world.alive t false u = true → x.world.alive u = true := by
    intro u hu
    rcases eq_or_ne t u with rfl | h
    · simp at hu
    · rwa [hne u h] at hu
  constructor <;> simp_all [Shared.ended, mutexOwner, takenSince, sawDead]

theorem protocol_sound : protocol.Sound where
  pre_stable _ _ := pre_stable
  hold_stable t k := by
    rintro a x y ha hx hy hg ⟨h₁, h₂⟩
    refine ⟨(hg.alive t ha).trans h₁, fun hk => ?_⟩
    rw [hg.live t ha (World.liveOwner_eq_some.mpr ⟨h₂ hk, h₁⟩), h₂ hk]
  hold_of_pre t k x _ h := by
    cases k with
    | acquire => exact hold_of_flags nofun h
    | attempt _ => exact hold_of_flags nofun h
    | critical => exact ⟨h.1.1, fun _ => h.2⟩
    | release => exact h.elim (fun h => hold_of_flags nofun h) fun h => hold_of_flags nofun h.1
  body _ _ := body_triple
  exit t k x hx _ _ := ⟨trivial, hx, guar_ended rfl⟩
  crash t k x w hx hw _ := by
    cases hw
    exact ⟨trivial, hx, guar_ended rfl⟩
  env n x w hx hw := by
    cases hw
    exact ⟨hx, by constructor <;> simp_all [World.liveOwner, World.dead]⟩

variable {c₀ c : Interleave.Config Resp Task World}

theorem holds_initial (h : Initial machine c₀) : protocol.Holds c₀ := by
  refine protocol_sound.init (fun t ht => ?_) fun t k p hp => ?_
  · rw [h.trace] at ht
    cases ht
  · obtain ⟨hn, rfl, rfl, hf⟩ := h.threads t k p hp
    exact ⟨hn, rfl, hf⟩

/-- **Mutual exclusion.** From any starting point, in every run whose
removals meet no lock taken behind the reclaimer's back, at most one live
process is critical. -/
theorem critical_unique (h : Initial machine c₀) (hr : machine.Run protocol.Meets c₀ c) :
    ∀ t u p q, c.threads t = some (.critical, p) → c.threads u = some (.critical, q) →
      t = u := by
  intro t u p q ht hu
  have hc := protocol_sound.run (holds_initial h) hr
  have h₁ := (hc.hold t _ p ht).2 rfl
  have h₂ := (hc.hold u _ q hu).2 rfl
  rw [h₁] at h₂
  exact Slot.link.inj h₂

/-! ## The race -/

/-- Process 0 finds the lock of a dead process, removes it and takes its
place. -/
def reclaim : List machine.Move :=
  [.call 0 fun _ => false, .again 0] ++ steps 0 14 ++ [.again 0] ++ steps 0 3 ++ [.again 0]

/-- A reclaim of a dead lock is such a run. -/
theorem critical_unique_after_reclaim :
    ∃ c : Interleave.Config Resp Task World,
      machine.Run protocol.Meets (startingPoint machine 2 (.link 5)) c ∧
      (c.threads 0).map Prod.fst = some .critical ∧
      ∀ t u p q, c.threads t = some (.critical, p) → c.threads u = some (.critical, q) →
        t = u := by
  have h : ((machine.follow removesNoTakenLock reclaim (startingPoint machine 2 (.link 5))).map fun c =>
      (c.threads 0).map Prod.fst) = some (some .critical) := by decide
  obtain ⟨c, hc, hth⟩ := Option.map_eq_some_iff.mp h
  have hr : machine.Run protocol.Meets (startingPoint machine 2 (.link 5)) c :=
    Machine.run_of_follow hc
  refine ⟨c, hr, hth, critical_unique (startingPoint_dead machine (by decide)) hr⟩

/-- Process 0 takes the lock and process 1 fails to; 0 releases it; 1
finds no lock, enters the mutex and again finds none; 2 takes the lock,
and 1 removes it and takes it too. -/
def race : List machine.Move :=
  [.call 0 fun _ => false, .again 0] ++ steps 0 3 ++ [.again 0] ++
  [.call 1 fun _ => false, .again 1] ++ steps 1 2 ++
  steps 0 1 ++ [.again 0] ++ steps 0 3 ++
  steps 1 6 ++
  [.call 2 fun _ => false, .again 2] ++ steps 2 3 ++ [.again 2] ++
  steps 1 4 ++ [.again 1] ++ steps 1 3 ++ [.again 1]

/-- **A reclaimer can remove a live lock.** Two live processes are
critical at once. -/
theorem reclaim_removes_live_lock :
    ∃ c₀ c : Interleave.Config Resp Task World, Initial machine c₀ ∧
      machine.Run (fun _ _ => True) c₀ c ∧
      ∃ t u p q, t ≠ u ∧ c.threads t = some (.critical, p) ∧ c.threads u = some (.critical, q) := by
  have h : ((machine.follow (fun _ _ => true) race (startingPoint machine 3 .absent)).map fun c =>
      ((c.threads 1).map Prod.fst, (c.threads 2).map Prod.fst)) =
        some (some .critical, some .critical) := by decide
  obtain ⟨c, hc, hth⟩ := Option.map_eq_some_iff.mp h
  simp only [Prod.mk.injEq, Option.map_eq_some_iff] at hth
  obtain ⟨⟨⟨_, p⟩, h₁, rfl⟩, ⟨_, q⟩, h₂, rfl⟩ := hth
  exact ⟨_, c, startingPoint_initial machine 3 (by simp),
    (Machine.run_of_follow hc).mono fun _ _ _ => trivial,
    1, 2, p, q, by decide, h₁, h₂⟩

end WarmLock

end GhaConsumer
