import GhaConsumer.Files.Scan
import GhaConsumer.Interleave.Lasting
import GhaConsumer.Interleave.Monitor
import GhaConsumer.Spool.Watch

/-!
# The spool watcher — delivery

A job file in `new/` reaches the dispatch loop. Whatever wakes the watcher
while the file stays where it is, by the time the watcher is back at its
`select!` with nothing left to wake it, the file's name has been received
or waits in the channel, unless a call of the scan has failed or the
dispatch loop is gone (`delivered_of_signal`). That rests on where the
watcher takes its wake-ups: before it opens the directory, so that what
comes later wakes it again. And what the dispatch loop receives has been
sent, in that order and no more often, and is the name of a job file that
stood in `new/` (`piped_of_run`).
-/

namespace GhaConsumer

namespace Watch

open Interleave

/-! ## The watcher's calls in order -/

/-- Where the watcher is between two calls. -/
inductive Stage where
  | starting (pass : Pass)
  | listing (pass : Pass)
  | typing (pass : Pass) (ent : Files.DirEntry String)
  | sending (pass : Pass) (name : String)
  | subscribing
  | setting
  | waiting
  | draining
  | over
  deriving DecidableEq

/-- After `enumerate_new`. -/
def Pass.done : Pass → Except Files.Errno Unit → Stage
  | .first, .error _ => .over
  | .first, .ok () => .subscribing
  | .again, _ => .waiting

/-- What each call leads to. -/
inductive Next : Task → Stage → Event Resp → Stage → Prop
  | opened {p : Pass} :
      Next (.enumerateNew p) (.starting p) ⟨.fs (.openDir .new), .ok ()⟩ (.listing p)
  | unopened {p : Pass} {e : Files.Errno} : Next (.enumerateNew p) (.starting p)
      ⟨.fs (.openDir .new), .error e⟩ (p.done (.error e))
  | listed {p : Pass} :
      Next (.nextEntry p) (.listing p) ⟨.fs .nextEntry, .ok none⟩ (p.done (.ok ()))
  | unlisted {p : Pass} {e : Files.Errno} :
      Next (.nextEntry p) (.listing p) ⟨.fs .nextEntry, .error e⟩ (p.done (.error e))
  | passed {p : Pass} {ent : Files.DirEntry String} : isJob ent.name = false →
      Next (.nextEntry p) (.listing p) ⟨.fs .nextEntry, .ok (some ent)⟩ (.listing p)
  | took {p : Pass} {ent : Files.DirEntry String} : isJob ent.name = true →
      Next (.nextEntry p) (.listing p) ⟨.fs .nextEntry, .ok (some ent)⟩ (.typing p ent)
  | untyped {p : Pass} {ent : Files.DirEntry String} {e : Files.Errno} :
      Next (.nextEntry p) (.typing p ent) ⟨.fs (.fileType ent), .error e⟩ (.listing p)
  | skipped {p : Pass} {ent : Files.DirEntry String} :
      Next (.nextEntry p) (.typing p ent) ⟨.fs (.fileType ent), .ok (.other special)⟩ (.listing p)
  | typed {p : Pass} {ent : Files.DirEntry String} : Next (.nextEntry p) (.typing p ent)
      ⟨.fs (.fileType ent), .ok .regular⟩ (.sending p ent.name)
  | sent {p : Pass} {name : String} :
      Next (.nextEntry p) (.sending p name) ⟨.send name, true⟩ (.listing p)
  | unsent {p : Pass} {name : String} :
      Next (.nextEntry p) (.sending p name) ⟨.send name, false⟩ (p.done (.ok ()))
  | subscribed : Next .subscribe .subscribing ⟨.subscribe, .ok ()⟩ .setting
  | unsubscribed {e : String} : Next .subscribe .subscribing ⟨.subscribe, .error e⟩ .over
  | set : Next .subscribe .setting ⟨.interval, ()⟩ .waiting
  | ticked : Next .select .waiting ⟨.select, .tick⟩ (.starting .again)
  | woken : Next .select .waiting ⟨.select, .event⟩ .draining
  | ended {wake : Wake} : wake = .unsubscribed ∨ wake = .closed →
      Next .select .waiting ⟨.select, wake⟩ .over
  | drained : Next .drain .draining ⟨.tryRecv, true⟩ .draining
  | dry : Next .drain .draining ⟨.tryRecv, false⟩ (.starting .again)
  /-- The others do as they like, but send nothing. -/
  | outside {k : Task} {e : Event Resp} : k.outside = true → (∀ name, e.1 ≠ .send name) →
      Next k (.starting .first) e (.starting .first)

/-- Where a task begins. -/
def Task.stage : Task → Stage
  | .enumerateNew p => .starting p
  | .nextEntry p => .listing p
  | .subscribe => .subscribing
  | .select => .waiting
  | .drain => .draining
  | _ => .starting .first

/-- The watcher's calls in order. -/
def stages : Monitor Resp Task Stage where
  init := .starting .first
  next := Next
  pre k s := s = k.stage
  fin _ _ := True

theorem post_next {k : Task} {p : Pass} {r : Except Files.Errno Unit} :
    stages.post k (p.next r) (p.done r) := by
  cases p with
  | first =>
    cases r with
    | error e => trivial
    | ok => rfl
  | again => rfl

theorem obeys_enumerateNew {p : Pass} {k : Task} (hk : k = .enumerateNew p) :
    stages.Triple k (stages.pre k) (enumerateNew p) (stages.post k) := by
  subst hk
  refine .step (B := fun r s => s = match r with
    | .ok () => .listing p
    | .error e => p.done (.error e)) ?_ fun r => ?_
  · rintro s (_ | _) rfl
    · exact ⟨_, .unopened, rfl⟩
    · exact ⟨_, .opened, rfl⟩
  · rcases r with e | _
    · exact .ret fun s hs => hs ▸ post_next
    · exact .ret fun s hs => hs

theorem obeys_nextEntry {p : Pass} {k : Task} (hk : k = .nextEntry p) :
    stages.Triple k (stages.pre k) (nextEntry p) (stages.post k) := by
  subst hk
  -- after each call the watcher is where that call leads
  refine .step (B := fun r s => Next (.nextEntry p) (.listing p) ⟨.fs .nextEntry, r⟩ s) ?_
    fun r => ?_
  · rintro s (_ | _ | ent) rfl
    · exact ⟨_, .unlisted, .unlisted⟩
    · exact ⟨_, .listed, .listed⟩
    · cases hjob : isJob ent.name with
      | false => exact ⟨_, .passed hjob, .passed hjob⟩
      | true => exact ⟨_, .took hjob, .took hjob⟩
  rcases r with e | _ | ent
  · exact .ret fun s hs => by cases hs; exact post_next
  · exact .ret fun s hs => by cases hs; exact post_next
  cases hjob : isJob ent.name with
  | false =>
    simp only [hjob, Bool.not_false, if_true]
    refine .ret fun s hs => ?_
    cases hs with
    | passed => rfl
    | took h => cases hjob.symm.trans h
  | true =>
    simp only [hjob, Bool.not_true, Bool.false_eq_true, if_false]
    refine .step (B := fun r s => Next (.nextEntry p) (.typing p ent) ⟨.fs (.fileType ent), r⟩ s)
      (fun s r hs => ?_) fun r => ?_
    · cases hs with
      | passed h => cases hjob.symm.trans h
      | took =>
        rcases r with e | _ | _
        · exact ⟨_, .untyped, .untyped⟩
        · exact ⟨_, .typed, .typed⟩
        · exact ⟨_, .skipped, .skipped⟩
    rcases r with e | _ | _
    · exact .ret fun s hs => by cases hs; rfl
    · refine .step (B := fun r s => Next (.nextEntry p) (.sending p ent.name) ⟨.send ent.name, r⟩ s)
        (fun s r hs => ?_) fun r => ?_
      · cases hs
        cases r with
        | false => exact ⟨_, .unsent, .unsent⟩
        | true => exact ⟨_, .sent, .sent⟩
      · cases r with
        | false => exact .ret fun s hs => by cases hs; exact post_next
        | true => exact .ret fun s hs => by cases hs; rfl
    · exact .ret fun s hs => by cases hs; rfl

theorem obeys_subscribe :
    stages.Triple .subscribe (stages.pre .subscribe) subscribe (stages.post .subscribe) := by
  refine .step (B := fun r s => s = match r with
    | .ok () => .setting
    | .error _ => .over) ?_ fun r => ?_
  · rintro s (_ | _) rfl
    · exact ⟨_, .unsubscribed, rfl⟩
    · exact ⟨_, .subscribed, rfl⟩
  rcases r with e | _
  · exact .ret fun _ _ => trivial
  · refine .step (B := fun _ s => s = .waiting) ?_ fun _ => .ret fun s hs => hs
    rintro s r rfl
    exact ⟨_, .set, rfl⟩

theorem obeys_select :
    stages.Triple .select (stages.pre .select) select (stages.post .select) := by
  refine .step (B := fun r s => s = match r with
    | .tick => .starting .again
    | .event => .draining
    | _ => .over) ?_ fun r => ?_
  · rintro s (_ | _ | _ | _) rfl
    · exact ⟨_, .ticked, rfl⟩
    · exact ⟨_, .woken, rfl⟩
    · exact ⟨_, .ended (.inl rfl), rfl⟩
    · exact ⟨_, .ended (.inr rfl), rfl⟩
  cases r with
  | tick | event => exact .ret fun s hs => hs
  | unsubscribed | closed => exact .ret fun _ _ => trivial

theorem obeys_drain :
    stages.Triple .drain (stages.pre .drain) drain (stages.post .drain) := by
  refine .step (B := fun r s => s = if r = true then .draining else .starting .again) ?_
    fun r => ?_
  · rintro s (_ | _) rfl
    · exact ⟨_, .dry, rfl⟩
    · exact ⟨_, .drained, rfl⟩
  cases r with
  | false => exact .ret fun s hs => hs
  | true => exact .ret fun s hs => hs

/-- The others' tasks only lead to one another. -/
theorem obeys_outside {k : Task} (hk : k.outside = true) :
    stages.Triple k (stages.pre k) (body k) (stages.post k) := by
  have hpre : ∀ {k : Task}, k.outside = true → k.stage = .starting .first := by
    intro k hk
    cases k <;> first | rfl | cases hk
  have honly : (body k).Only fun o => ∀ name, o ≠ .send name := by
    have hfiles : ∀ {more done : Option Task},
        (files more done).Only fun o => ∀ name, o ≠ .send name := by
      intro more done
      refine .step (fun _ h => by cases h) fun r => ?_
      cases r with
      | none => trivial
      | some o => exact .step (fun _ h => by cases h) fun _ => trivial
    cases k with
    | dispatch =>
      refine .step (fun _ h => by cases h) fun r => ?_
      cases r <;> trivial
    | handle | work => exact hfiles
    | notifier | timer => exact .step (fun _ h => by cases h) fun _ => trivial
    | _ => cases hk
  have hret : (body k).Returns fun k' => ∀ k'' ∈ k', k''.outside = true := by
    have hfiles : ∀ {more done : Option Task}, (∀ k ∈ more, k.outside = true) →
        (∀ k ∈ done, k.outside = true) →
        (files more done).Returns fun k' => ∀ k'' ∈ k', k''.outside = true := by
      intro more done hmore hdone
      refine .step fun r => ?_
      cases r with
      | none => exact hdone
      | some o => exact .step fun _ => hmore
    cases k with
    | dispatch =>
      refine .step fun r => ?_
      cases r with
      | none => exact fun _ h => by cases h
      | some _ => exact fun _ h => by cases h; rfl
    | handle => exact hfiles (fun _ h => by cases h; rfl) fun _ h => by cases h; rfl
    | work => exact hfiles (fun _ h => by cases h; rfl) fun _ h => by cases h
    | notifier | timer => exact .step fun _ => fun _ h => by cases h; rfl
    | _ => cases hk
  have hall : stages.Triple k (stages.pre k) (body k)
      fun k' s => (∀ k'' ∈ k', k''.outside = true) ∧ s = .starting .first := by
    refine ((Monitor.Triple.only (m := stages) (A := fun s => s = .starting .first)
      honly fun o r s ho hs => ?_).and_returns hret).pre fun s hs => ?_
    · subst hs
      exact ⟨_, .outside hk ho, rfl⟩
    · exact (show s = k.stage from hs).trans (hpre hk)
  refine hall.post fun k' s h => ?_
  cases k' with
  | none => trivial
  | some k' => exact h.2.trans (hpre (h.1 k' rfl)).symm

theorem sound_stages : stages.Sound machine where
  body k := by
    cases k with
    | enumerateNew p => exact obeys_enumerateNew rfl
    | nextEntry p => exact obeys_nextEntry rfl
    | subscribe => exact obeys_subscribe
    | select => exact obeys_select
    | drain => exact obeys_drain
    | _ => exact obeys_outside rfl
  forks h := by cases h
  crash _ _ _ := trivial

variable {c₀ c₁ c : Pool} {Meets : Shared Resp Task World → Line → Prop}

theorem Start.monitor (h : Start c₀) : stages.Start machine c₀ where
  trace := h.trace
  fresh t k p ht := by
    obtain ⟨hlt, hp, houtside⟩ := h.fresh t k p ht
    refine ⟨hlt, hp, ?_⟩
    by_cases hw : t = watcher
    · subst hw
      rw [h.watching] at ht
      cases ht
      rfl
    · have hk := houtside hw
      cases k <;> first | rfl | cases hk

/-! ## What a call does -/

variable {t : Tid} {o : Op} {q : Oracle o} {r : Resp o} {w w' : World} {k : Task}
variable {s s' : Stage} {σ : List Line} {x : Line} {name : String} {i : Files.Ino}

/-- What each call does to the world. -/
inductive Did (t : Tid) (w : World) : (o : Op) → Resp o → World → Prop
  | fs {f : Files.Op Dir String} {q : Files.Oracle String} {r : Files.Resp f} {fs : FileState} :
      Files.step t f q w.fs = some (r, fs) → Did t w (.fs f) r { w with fs := fs }
  | sent {name : String} {names : Names} : t = watcher → w.names.send name = some names →
      Did t w (.send name) true { w with names := names }
  | unsent {name : String} : Did t w (.send name) false w
  | received {name : String} {names : Names} : w.names.recv = some (name, names) →
      Did t w .recv (some name) { w with names := names }
  | hungUp : w.watching = false → Did t w .recv none w
  | subscribed : Did t w .subscribe (.ok ()) { w with subscribed := true }
  | unsubscribed {e : String} : Did t w .subscribe (.error e) w
  | set : Did t w .interval () { w with ticking := true, due := true }
  | ticked : t = watcher → Did t w .select .tick { w with due := false }
  | woken : t = watcher → Did t w .select .event { w with events := w.events - 1 }
  | ended {wake : Wake} : wake = .unsubscribed ∨ wake = .closed → Did t w .select wake w
  | drained : t = watcher → Did t w .tryRecv true { w with events := w.events - 1 }
  | dry : Did t w .tryRecv false w
  | notified : Did t w .notify true { w with events := w.events + 1 }
  | unheard : Did t w .notify false w
  | elapsed : Did t w .elapse true { w with due := true }
  | untimed : Did t w .elapse false w
  | chosen {f : Option (Files.Op Dir String)} : Did t w .choose f w

theorem did_of_step (h : step t o q w = some (r, w')) : Did t w o r w' := by
  cases o with
  | fs f =>
    obtain ⟨⟨r', fs⟩, hf, heq⟩ := Option.map_eq_some_iff.mp h
    cases heq
    exact .fs hf
  | send name =>
    simp only [step] at h
    split at h
    · cases h
    · rename_i ht
      split at h
      · obtain ⟨names, hsend, heq⟩ := Option.map_eq_some_iff.mp h
        cases heq
        exact .sent (Decidable.not_not.mp ht) hsend
      · cases h
        exact .unsent
  | recv =>
    simp only [step] at h
    split at h
    · cases h
    · split at h
      · rename_i hrecv
        cases h
        exact .received hrecv
      · split at h <;> cases h
        rename_i hgone
        exact .hungUp (Bool.not_eq_true _ ▸ hgone)
  | subscribe =>
    rcases q with e | _
    · cases h
      exact .unsubscribed
    · simp only [step] at h
      split at h <;> cases h
      exact .subscribed
  | interval =>
    simp only [step] at h
    split at h <;> cases h
    exact .set
  | select =>
    simp only [step] at h
    split at h
    · cases h
    · rename_i ht
      have ht : t = watcher := Decidable.not_not.mp ht
      -- the oracle names the branch of `select!`, and the step that it could go ahead
      cases q with
      | tick =>
        simp only at h
        split at h <;> cases h
        exact .ticked ht
      | event =>
        simp only at h
        split at h <;> cases h
        exact .woken ht
      | unsubscribed =>
        simp only at h
        split at h <;> cases h
        exact .ended (.inl rfl)
      | closed =>
        simp only at h
        split at h <;> cases h
        exact .ended (.inr rfl)
  | tryRecv =>
    simp only [step] at h
    split at h
    · cases h
    · rename_i ht
      split at h <;> cases h
      · exact .dry
      · exact .drained (Decidable.not_not.mp ht)
  | notify =>
    simp only [step] at h
    split at h <;> cases h
    · exact .notified
    · exact .unheard
  | elapse =>
    simp only [step] at h
    split at h <;> cases h
    · exact .elapsed
    · exact .untimed
  | choose =>
    cases h
    exact .chosen

/-- Only file calls touch the files. -/
theorem Did.fs_eq (h : Did t w o r w') (ho : ∀ f, o ≠ .fs f) : w'.fs = w.fs := by
  cases h with
  | fs hf => exact absurd rfl (ho _)
  | _ => rfl

/-- A file's type is asked for without a change. -/
theorem Did.fs_fileType {ent : Files.DirEntry String} {r : Except Files.Errno Files.Kind}
    (h : Did t w (.fs (.fileType ent)) r w') :
    w'.fs = w.fs ∧ ∀ kind, r = .ok kind → kind = ent.kind := by
  cases h with
  | fs hf =>
    simp only [Files.step, Option.some.injEq, Prod.mk.injEq] at hf
    obtain ⟨rfl, rfl⟩ := hf
    refine ⟨rfl, fun kind hk => ?_⟩
    split at hk <;> cases hk
    rfl

@[simp] theorem names_leave : (leave t w).names = w.names := by
  unfold leave
  dsimp only
  split
  · rfl
  · split <;> rfl

@[simp] theorem fs_leave : (leave t w).fs = Files.leave t w.fs := by
  unfold leave
  dsimp only
  split
  · rfl
  · split <;> rfl

/-! ## The channel -/

/-- What a call does with the names' channel. -/
def use : (o : Op) → Resp o → Option (Channel.Use String)
  | .send name, true => some (.sent name)
  | .recv, some name => some (.received name)
  | _, _ => none

theorem carries : Channel.Carries machine World.names use where
  step h := by
    cases did_of_step h with
    | sent _ hsend => exact hsend
    | received hrecv => exact hrecv
    | _ => rfl
  leave := names_leave
  crash h := by
    cases h
    exact names_leave
  env h := by
    cases h
    rfl

/-! ## What wakes the watcher -/

/-- Lines after which there is something to wake it. -/
def Signals : Line → Bool
  | .did _ _ .notify true _ | .did _ _ .elapse true _ | .did _ _ .interval _ _ => true
  | _ => false

/-- There is something to wake it. -/
def Pending (w : World) : Prop := 0 < w.events ∨ w.due = true

/-- The calls that take it. -/
def Op.takes : Op → Bool
  | .select | .tryRecv => true
  | _ => false

/-- No other call takes it, and nobody but the watcher. -/
theorem Did.pending (h : Did t w o r w') (ho : t = watcher → o.takes = false) (hp : Pending w) :
    Pending w' := by
  cases h with
  | ticked heq | woken heq | drained heq => cases ho heq
  | notified => exact .inl (Nat.succ_pos _)
  | set | elapsed => exact .inr rfl
  | _ => exact hp

theorem Did.pending_of_signals (h : Did t w o r w') (hx : Signals (.did t k o r w) = true) :
    Pending w' := by
  cases h with
  | notified => exact .inl (Nat.succ_pos _)
  | set | elapsed => exact .inr rfl
  | _ => cases hx

theorem pending_leave (hp : Pending w) : Pending (leave t w) := by
  unfold leave
  dsimp only
  split
  · exact hp
  · split <;> exact hp

/-! ## A file that stays -/

/-- The file `i`, a regular one, is at `name` in `new/`. -/
def Stands (w : World) (name : String) (i : Files.Ino) : Prop :=
  w.fs.tree.ino ⟨.new, name⟩ = some i ∧ (w.fs.tree.node i).kind = .regular

/-- The line moves nothing to `name` in `new/`. -/
def Spares (name : String) : Line → Prop
  | .did _ _ (.fs f) r _ => ∀ m ∈ Files.moved f r, m.2 ≠ ⟨.new, name⟩
  | _ => True

/-- **The condition**: the file is there, and nothing is moved in its
place. -/
def Stays (name : String) (i : Files.Ino) (s : Shared Resp Task World) (x : Line) : Prop :=
  Stands s.world name i ∧ Spares name x

/-- A scan that has failed, of the directory or at the file's entry; or a
name that had no receiver. -/
inductive Fails (name : String) : Line → Prop
  | openDir {k : Task} {e : Files.Errno} {w : World} :
      Fails name (.did watcher k (.fs (.openDir .new)) (.error e) w)
  | nextEntry {k : Task} {e : Files.Errno} {w : World} :
      Fails name (.did watcher k (.fs .nextEntry) (.error e) w)
  | fileType {k : Task} {e : Files.Errno} {w : World} :
      Fails name (.did watcher k (.fs (.fileType ⟨name, .regular⟩)) (.error e) w)
  | send {k : Task} {n : String} {w : World} : Fails name (.did watcher k (.send n) false w)

/-- The watcher is about to open the directory. -/
def Stage.coming : Stage → Prop
  | .starting _ | .draining => True
  | _ => False

/-- The scan will come to the file, or has it in hand. -/
def InHand (name : String) (w : World) : Stage → Prop
  | .listing _ => w.fs.Owes watcher ⟨.new, name⟩ .regular
  | .typing _ ent => w.fs.Owes watcher ⟨.new, name⟩ .regular ∨ ent = ⟨name, .regular⟩
  | .sending _ n => w.fs.Owes watcher ⟨.new, name⟩ .regular ∨ n = name
  | _ => False

/-- What has become of a file that has stayed during the lines `σ`, with
the watcher at this stage. -/
inductive Sought (name : String) (σ : List Line) (w : World) (s : Stage) : Prop
  /-- There was nothing to wake the watcher. -/
  | quiet : (∀ x ∈ σ, Signals x = false) → Sought name σ w s
  | pending : Pending w → Sought name σ w s
  | coming : s.coming → Sought name σ w s
  | inHand : InHand name w s → Sought name σ w s
  | sent : name ∈ Channel.sent use σ → Sought name σ w s
  | failed : (∃ x ∈ σ, Fails name x) → Sought name σ w s

/-- One more line: what was sent or failed has been, and the rest is to
be seen. -/
theorem Sought.line (h : Sought name σ w s) (hsignals : Signals x = true → Pending w')
    (hpending : Pending w → Sought name (x :: σ) w' s')
    (hcoming : s.coming → Sought name (x :: σ) w' s')
    (hhand : InHand name w s → Sought name (x :: σ) w' s') : Sought name (x :: σ) w' s' := by
  cases h with
  | quiet hq =>
    cases hx : Signals x with
    | false => exact .quiet (List.forall_mem_cons.mpr ⟨hx, hq⟩)
    | true => exact .pending (hsignals hx)
  | pending hp => exact hpending hp
  | coming hc => exact hcoming hc
  | inHand hh => exact hhand hh
  | sent hs =>
    refine .sent ?_
    rw [← List.singleton_append, Channel.sent_append]
    exact List.mem_append_left _ hs
  | failed hf =>
    obtain ⟨y, hy, hfails⟩ := hf
    exact .failed ⟨y, List.mem_cons_of_mem _ hy, hfails⟩

/-- Another's call leaves the watcher what it owes. -/
theorem owes_of_other (h : Did t w o r w') (ht : t ≠ watcher) (hstands : Stands w name i)
    (hstands' : Stands w' name i) (hspares : Spares name (.did t k o r w))
    (howes : w.fs.Owes watcher ⟨.new, name⟩ .regular) :
    w'.fs.Owes watcher ⟨.new, name⟩ .regular := by
  by_cases ho : ∃ f, o = .fs f
  · obtain ⟨f, rfl⟩ := ho
    cases h with
    | fs hf =>
      rcases howes.step hf hstands.1 hstands'.1 (fun a h => hspares _ h rfl)
        (fun heq => absurd heq.symm ht) with h | h
      · exact h.1
      · exact absurd h.1.symm ht
  · rw [h.fs_eq fun f hf => ho ⟨f, hf⟩]
    exact howes

/-- The watcher's own calls leave what they do not return. -/
theorem owes_of_own {f : Files.Op Dir String} {r : Files.Resp f}
    (h : Did watcher w (.fs f) r w') (hstands : Stands w name i) (hstands' : Stands w' name i)
    (hspares : Spares name (.did watcher k (.fs f) r w)) (hopen : ∀ d, f ≠ .openDir d)
    (howes : w.fs.Owes watcher ⟨.new, name⟩ .regular) :
    w'.fs.Owes watcher ⟨.new, name⟩ .regular ∧
        (⟨f, r⟩ : (f : Files.Op Dir String) × Files.Resp f) ≠ ⟨.nextEntry, .ok none⟩ ∨
      (⟨f, r⟩ : (f : Files.Op Dir String) × Files.Resp f) =
        ⟨.nextEntry, .ok (some ⟨name, .regular⟩)⟩ := by
  cases h with
  | fs hf =>
    rcases howes.step hf hstands.1 hstands'.1 (fun a h => hspares _ h rfl)
      (fun _ => hopen) with h | h
    · exact .inl ⟨h.1, h.2 rfl⟩
    · exact .inr h.2

/-- **The watcher's call.** It opens the directory while it owes the file
nothing, and then owes it to the end of the scan or till it sends it. -/
theorem Sought.own (hjob : isJob name = true) (h : Sought name σ w s)
    (hd : Did watcher w o r w') (hn : Next k s ⟨o, r⟩ s') (hstands : Stands w name i)
    (hstands' : Stands w' name i)
    (hspares : Spares name (.did watcher k o r w)) :
    Sought name (.did watcher k o r w :: σ) w' s' := by
  have hsignals := hd.pending_of_signals (k := k)
  have hpending : o.takes = false → Pending w → Sought name (.did watcher k o r w :: σ) w' s' :=
    fun ho hp => .pending (hd.pending (fun _ => ho) hp)
  have hhere : Fails name (.did watcher k o r w) → Sought name (.did watcher k o r w :: σ) w' s' :=
    fun hx => .failed ⟨_, List.mem_cons_self, hx⟩
  cases hn with
  | opened =>
    cases hd with
    | fs hf =>
      have howes := Files.owes_openDir hf (p := ⟨.new, name⟩) rfl hstands.1
      rw [hstands.2] at howes
      exact .inHand howes
  | unopened => exact hhere .openDir
  | unlisted => exact hhere .nextEntry
  | unsent => exact hhere .send
  | listed =>
    refine h.line hsignals (hpending rfl) False.elim fun howes => ?_
    -- a scan that is over owes nothing
    rcases owes_of_own hd hstands hstands' hspares (fun _ hf => by cases hf) howes with h | h
    · exact absurd rfl h.2
    · cases h
  | passed hpassed =>
    refine h.line hsignals (hpending rfl) False.elim fun howes => ?_
    rcases owes_of_own hd hstands hstands' hspares (fun _ hf => by cases hf) howes with h | h
    · exact .inHand h.1
    · cases h
      exact absurd hjob (Bool.eq_false_iff.mp hpassed)
  | took =>
    refine h.line hsignals (hpending rfl) False.elim fun howes => ?_
    rcases owes_of_own hd hstands hstands' hspares (fun _ hf => by cases hf) howes with h | h
    · exact .inHand (.inl h.1)
    · cases h
      exact .inHand (.inr rfl)
  | untyped =>
    refine h.line hsignals (hpending rfl) False.elim fun hhand => ?_
    rcases hhand with howes | rfl
    · refine .inHand ?_
      show w'.fs.Owes watcher _ _
      rw [hd.fs_fileType.1]
      exact howes
    · exact hhere .fileType
  | skipped =>
    refine h.line hsignals (hpending rfl) False.elim fun hhand => ?_
    rcases hhand with howes | rfl
    · refine .inHand ?_
      show w'.fs.Owes watcher _ _
      rw [hd.fs_fileType.1]
      exact howes
    · cases hd.fs_fileType.2 _ rfl
  | typed =>
    refine h.line hsignals (hpending rfl) False.elim fun hhand => ?_
    rcases hhand with howes | rfl
    · refine .inHand (.inl ?_)
      rw [hd.fs_fileType.1]
      exact howes
    · exact .inHand (.inr rfl)
  | sent =>
    refine h.line hsignals (hpending rfl) False.elim fun hhand => ?_
    rcases hhand with howes | rfl
    · refine .inHand ?_
      show w'.fs.Owes watcher _ _
      rw [hd.fs_eq fun f hf => by cases hf]
      exact howes
    · exact .sent (Channel.mem_sent List.mem_cons_self rfl)
  | subscribed | unsubscribed => exact h.line hsignals (hpending rfl) False.elim False.elim
  | ended hwake =>
    refine h.line hsignals (fun hp => .pending ?_) False.elim False.elim
    rcases hwake with rfl | rfl <;> cases hd <;> exact hp
  | set => exact .pending (hsignals rfl)
  | ticked | woken | drained | dry | outside => exact .coming trivial

/-- What the scan owes in one world and the next, the watcher has in hand
in both. -/
theorem InHand.frame (h : InHand name w s) (howes : w.fs.Owes watcher ⟨.new, name⟩ .regular →
    w'.fs.Owes watcher ⟨.new, name⟩ .regular) : InHand name w' s := by
  cases s with
  | listing p => exact howes h
  | typing p ent => exact h.imp_left howes
  | sending p n => exact h.imp_left howes
  | _ => exact h

/-- **Another's call** takes the watcher nothing. -/
theorem Sought.other (h : Sought name σ w s) (hd : Did t w o r w') (ht : t ≠ watcher)
    (hstands : Stands w name i) (hstands' : Stands w' name i)
    (hspares : Spares name (.did t k o r w)) :
    Sought name (.did t k o r w :: σ) w' s := by
  have howes := owes_of_other hd ht hstands hstands' hspares
  have hpending : Pending w → Pending w' := hd.pending fun heq => absurd heq ht
  exact h.line hd.pending_of_signals (fun hp => .pending (hpending hp)) .coming
    fun hhand => .inHand (hhand.frame howes)

/-- Another's end leaves the watcher what it has in hand. -/
theorem InHand.leave (h : InHand name w s) (ht : t ≠ watcher) : InHand name (leave t w) s := by
  refine h.frame fun howes => ?_
  rw [fs_leave]
  exact howes.setScan (Ne.symm ht)

theorem Sought.ended (h : Sought name σ w s) (ht : t ≠ watcher) :
    Sought name (.ended t k w :: σ) (leave t w) s :=
  h.line (fun hx => by cases hx) (fun hp => .pending (pending_leave hp)) .coming
    fun hhand => .inHand (hhand.leave ht)

theorem there_of_at {x : Task × Prog Resp (Option Task)} (h : c.threads t = some x) :
    c.threads t ≠ none :=
  h ▸ Option.some_ne_none x

/-- What another does at its turn, the watcher was there before. -/
theorem there_before {x : Option (Task × Prog Resp (Option Task))} (ht : t ≠ watcher)
    (h : Function.update c.threads t x watcher ≠ none) : c.threads watcher ≠ none := by
  rwa [Function.update_of_ne (Ne.symm ht)] at h

/-- While the watcher is there, it has the file in mind. -/
theorem sought_of_run (hjob : isJob name = true) (hr : machine.Run (Stays name i) c₁ c) :
    ∃ σ, c.trace = σ ++ c₁.trace ∧ (Stands c.world name i → c.threads watcher ≠ none →
      ∀ s, stages.At watcher c.trace s → Sought name σ c.world s) := by
  induction hr with
  | start => exact ⟨[], rfl, fun _ _ s _ => .quiet fun x hx => by cases hx⟩
  | @step c c' e hr hs hm ih =>
    obtain ⟨σ, hσ, ih⟩ := ih
    cases hs with
    | @call t k o f q r w hat hq hnew =>
      have hd : Did t c.world o r w := did_of_step hq
      obtain ⟨hstands, hspares⟩ := hm _ rfl
      refine ⟨.did t k o r c.world :: σ, congrArg (_ :: ·) hσ, fun hstands' hlive s hs => ?_⟩
      by_cases ht : t = watcher
      · subst ht
        obtain ⟨s₁, hs₁, hn⟩ := Monitor.at_did.mp hs
        exact (ih hstands (there_of_at hat) s₁ hs₁).own hjob hd hn hstands hstands' hspares
      · have hsought := ih hstands (there_before ht hlive) s ((Monitor.at_did_of_ne ht).mp hs)
        exact hsought.other hd ht hstands hstands' hspares
    | @again t k k' hat =>
      refine ⟨σ, hσ, fun hstands hlive s hs => ih hstands ?_ s hs⟩
      by_cases ht : t = watcher
      · exact there_of_at (ht ▸ hat)
      · exact there_before ht hlive
    | @exit t k hat =>
      refine ⟨.ended t k c.world :: σ, congrArg (_ :: ·) hσ, fun _ hlive s hs => ?_⟩
      -- a watcher that has ended is not there after
      have ht : t ≠ watcher := fun heq => hlive (heq ▸ Function.update_self ..)
      exact (ih (hm _ rfl).1 (there_before ht hlive) s hs).ended ht
    | @crash t k p w hat hw =>
      cases hw
      refine ⟨.ended t k c.world :: σ, congrArg (_ :: ·) hσ, fun _ hlive s hs => ?_⟩
      have ht : t ≠ watcher := fun heq => hlive (heq ▸ Function.update_self ..)
      exact (ih (hm _ rfl).1 (there_before ht hlive) s hs).ended ht
    | @env n w hw =>
      cases hw
      refine ⟨σ, hσ, fun hstands hlive s hs => ?_⟩
      cases ih hstands hlive s hs with
      | quiet h => exact .quiet h
      | pending h => exact .pending h
      | coming h => exact .coming h
      | inHand h => exact .inHand h
      | sent h => exact .sent h
      | failed h => exact .failed h

/-- A watcher at its `select!` waits. -/
theorem stage_of_select (h₀ : Start c₀) (hr : machine.Run Meets c₀ c)
    (hat : c.threads watcher = some (.select, body .select)) :
    stages.At watcher c.trace .waiting := by
  obtain ⟨-, s, hs, hobeys⟩ := (sound_stages.run h₀.monitor hr).thread _ _ _ hat
  obtain ⟨s', hn, -⟩ := hobeys Wake.tick
  cases hn with
  | ticked => exact hs
  | ended h => exact hs
  | outside hk _ => cases hk

/-- **Every job is delivered.** A job file stays where it is from some
point of a run on, and something wakes the watcher. Once the watcher is
back at its `select!` with nothing to wake it, the name has been received
since, or waits in the channel, or a call of the scan has failed. -/
theorem delivered_of_signal (hjob : isJob name = true) (h₀ : Start c₀)
    (hr₁ : machine.Run Meets c₀ c₁) (hr : machine.Run (Stays name i) c₁ c)
    (hstands : Stands c.world name i) (hσ : c.trace = σ ++ c₁.trace)
    (hsignal : ∃ x ∈ σ, Signals x = true)
    (hat : c.threads watcher = some (.select, body .select)) (hrest : ¬ Pending c.world) :
    name ∈ Channel.received use σ ∨ name ∈ c.world.names.waiting ∨ ∃ x ∈ σ, Fails name x := by
  have htrue : machine.Run (fun _ _ => True) c₀ c :=
    (hr₁.mono fun _ _ _ => trivial).trans (hr.mono fun _ _ _ => trivial)
  obtain ⟨σ', hσ', hsought⟩ := sought_of_run hjob hr
  obtain rfl : σ = σ' := List.append_cancel_right (hσ.symm.trans hσ')
  cases hsought hstands (there_of_at hat) _ (stage_of_select h₀ htrue hat) with
  | quiet hquiet =>
    obtain ⟨x, hx, hsig⟩ := hsignal
    exact absurd hsig (Bool.eq_false_iff.mp (hquiet x hx))
  | pending hp => exact absurd hp hrest
  | coming h => exact h.elim
  | inHand h => exact h.elim
  | sent hsent =>
    exact (carries.handed h₀.trace (hr₁.mono fun _ _ _ => trivial) htrue hσ hsent).imp_right .inl
  | failed h => exact .inr (.inr h)

/-! ## What is delivered -/

/-- The entry is one of a file in `new/`, now or before a line. -/
def Seen (τ : List Line) (w : World) (ent : Files.DirEntry String) : Prop :=
  w.fs.Has ⟨.new, ent.name⟩ ent.kind ∨ ∃ x ∈ τ, x.before.fs.Has ⟨.new, ent.name⟩ ent.kind

theorem Seen.cons {τ : List Line} {ent : Files.DirEntry String} (h : Seen τ w ent)
    (hx : x.before = w) : Seen (x :: τ) w' ent := by
  rcases h with h | ⟨y, hy, h⟩
  · exact .inr ⟨x, List.mem_cons_self, hx ▸ h⟩
  · exact .inr ⟨y, List.mem_cons_of_mem _ hy, h⟩

/-- What the watcher has in hand is genuine, and so is what its scan may
still return. -/
def Genuine (τ : List Line) (w : World) : Stage → Prop
  | .listing _ => w.fs.Vouched watcher .new (Seen τ w)
  | .typing _ ent => w.fs.Vouched watcher .new (Seen τ w) ∧ isJob ent.name = true ∧ Seen τ w ent
  | .sending _ name => w.fs.Vouched watcher .new (Seen τ w) ∧ isJob name = true ∧
      Seen τ w ⟨name, .regular⟩
  | _ => True

/-- The name is that of a job file seen in `new/`. -/
def Job (τ : List Line) (name : String) : Prop :=
  isJob name = true ∧ ∃ x ∈ τ, x.before.fs.Has ⟨.new, name⟩ .regular

variable {τ : List Line}

/-- What the scan may still return after a call that does not open the
directory. -/
theorem vouched_of_step (hv : w.fs.Vouched watcher .new (Seen τ w)) (hd : Did t w o r w')
    (hopen : t = watcher → ∀ d, o ≠ .fs (.openDir d)) :
    w'.fs.Vouched watcher .new (Seen (.did t k o r w :: τ) w') := by
  have hlater : w.fs.Vouched watcher .new (Seen (.did t k o r w :: τ) w') :=
    hv.mono fun ent hent => hent.cons rfl
  by_cases ho : ∃ f, o = .fs f
  · obtain ⟨f, rfl⟩ := ho
    cases hd with
    | fs hf =>
      refine hlater.step hf (fun heq d hfd => ?_) fun ent hent => .inl hent
      exact hopen heq.symm d (congrArg Op.fs hfd)
  · rw [hd.fs_eq fun f hf => ho ⟨f, hf⟩]
    exact hlater

/-- A line that leaves the scan genuine leaves genuine what the watcher has
in hand. -/
theorem Genuine.frame (h : Genuine τ w s) (hx : x.before = w)
    (hv : w.fs.Vouched watcher .new (Seen τ w) → w'.fs.Vouched watcher .new (Seen (x :: τ) w')) :
    Genuine (x :: τ) w' s := by
  cases s with
  | listing p => exact hv h
  | typing p ent => exact ⟨hv h.1, h.2.1, h.2.2.cons hx⟩
  | sending p name => exact ⟨hv h.1, h.2.1, h.2.2.cons hx⟩
  | _ => trivial

theorem Genuine.other (h : Genuine τ w s) (hd : Did t w o r w') (ht : t ≠ watcher) :
    Genuine (.did t k o r w :: τ) w' s :=
  h.frame rfl fun hv => vouched_of_step hv hd fun heq => absurd heq ht

theorem genuine_done {p : Pass} {res : Except Files.Errno Unit} : Genuine τ w (p.done res) := by
  cases p with
  | first =>
    cases res with
    | error e => trivial
    | ok => trivial
  | again => trivial

theorem Genuine.own (h : Genuine τ w s) (hd : Did watcher w o r w') (hn : Next k s ⟨o, r⟩ s') :
    Genuine (.did watcher k o r w :: τ) w' s' := by
  have hv : (∀ d, o ≠ .fs (.openDir d)) → w.fs.Vouched watcher .new (Seen τ w) →
      w'.fs.Vouched watcher .new (Seen (.did watcher k o r w :: τ) w') :=
    fun ho hv => vouched_of_step hv hd fun _ => ho
  cases hn with
  | opened =>
    cases hd with
    | fs hf => exact Files.vouched_openDir hf fun ent hent => Seen.cons (.inl hent) rfl
  | unopened | unlisted | listed | unsent => exact genuine_done
  | passed => exact hv (fun d hf => by cases hf) h
  | took hjob =>
    refine ⟨hv (fun d hf => by cases hf) h, hjob, ?_⟩
    cases hd with
    | fs hf => exact (Files.vouched_nextEntry h hf).cons rfl
  | untyped | skipped => exact hv (fun d hf => by cases hf) h.1
  | @typed p ent =>
    have hent : (⟨ent.name, .regular⟩ : Files.DirEntry String) = ent := by
      rw [hd.fs_fileType.2 _ rfl]
    refine ⟨hv (fun d hf => by cases hf) h.1, h.2.1, ?_⟩
    show Seen _ w' ⟨ent.name, .regular⟩
    rw [hent]
    exact h.2.2.cons rfl
  | sent => exact hv (fun d hf => by cases hf) h.1
  | _ => trivial

/-- The watcher, as long as it is there, has in hand what is genuine, and
so was all it has sent. -/
structure Honest (c : Pool) : Prop where
  hand : c.threads watcher ≠ none → ∀ s, stages.At watcher c.trace s → Genuine c.trace c.world s
  sent : ∀ name ∈ Channel.sent use c.trace, Job c.trace name

theorem Job.cons (h : Job τ name) : Job (x :: τ) name := by
  obtain ⟨hjob, y, hy, hhas⟩ := h
  exact ⟨hjob, y, List.mem_cons_of_mem _ hy, hhas⟩

/-- A name just sent, or one before. -/
theorem job_of_sent (hsent : ∀ name ∈ Channel.sent use τ, Job τ name)
    (hnow : ∀ n, use o r = some (.sent n) → Job (.did t k o r w :: τ) n) :
    ∀ name ∈ Channel.sent use (.did t k o r w :: τ), Job (.did t k o r w :: τ) name := by
  intro name hname
  rw [Channel.sent] at hname
  split at hname
  · rename_i n hn
    rcases List.mem_append.mp hname with h | h
    · exact (hsent name h).cons
    · obtain rfl := List.mem_singleton.mp h
      exact hnow name hn
  · exact (hsent name hname).cons

theorem Genuine.leave (h : Genuine τ w s) (ht : t ≠ watcher) :
    Genuine (.ended t k w :: τ) (leave t w) s := by
  refine h.frame rfl fun hv sc hsc => ?_
  rw [fs_leave] at hsc
  have hsame : (Files.leave t w.fs).scan watcher = w.fs.scan watcher :=
    Function.update_of_ne (Ne.symm ht) ..
  have hlater := hv.mono (ψ := Seen (.ended t k w :: τ) (Watch.leave t w))
    fun ent hent => hent.cons rfl
  exact hlater sc (hsame ▸ hsc)

theorem Genuine.later (h : Genuine τ w s) (m : ℕ) : Genuine τ (later m w) s := by
  cases s with
  | _ => exact h

/-- What the watcher sends it has in hand. -/
theorem Genuine.job (h : Genuine τ w s) (hn : Next k s ⟨o, r⟩ s')
    (hu : use o r = some (.sent name)) : Job (.did t k o r w :: τ) name := by
  cases hn with
  | sent =>
    cases hu
    refine ⟨h.2.1, ?_⟩
    rcases h.2.2 with hnow | ⟨x, hx, hhas⟩
    · exact ⟨_, List.mem_cons_self, hnow⟩
    · exact ⟨x, List.mem_cons_of_mem _ hx, hhas⟩
  | outside _ hsend =>
    cases o with
    | send n => exact absurd rfl (hsend n)
    | recv => cases r <;> cases hu
    | _ => cases hu
  | _ => cases hu

theorem honest_of_run (h₀ : Start c₀) (hr : machine.Run Meets c₀ c) : Honest c := by
  induction hr with
  | start =>
    refine ⟨fun _ s hs => ?_, fun name hname => ?_⟩
    · rw [h₀.trace] at hs
      obtain rfl : s = .starting .first := hs
      trivial
    · rw [h₀.trace] at hname
      cases hname
  | @step c c' e hr hs hm ih =>
    cases hs with
    | @call t k o f q r w hat hq hnew =>
      have hd : Did t c.world o r w := did_of_step hq
      by_cases ht : t = watcher
      · subst ht
        refine ⟨fun _ s hs => ?_, job_of_sent ih.sent fun n hu => ?_⟩
        · obtain ⟨s₁, hs₁, hn⟩ := Monitor.at_did.mp hs
          exact (ih.hand (there_of_at hat) s₁ hs₁).own hd hn
        · obtain ⟨s, hs, hobeys⟩ := ((sound_stages.run h₀.monitor hr).thread _ _ _ hat).2
          obtain ⟨s', hn, -⟩ := hobeys r
          exact (ih.hand (there_of_at hat) s hs).job hn hu
      · refine ⟨fun hlive s hs => ?_, job_of_sent ih.sent fun n hu => ?_⟩
        · exact (ih.hand (there_before ht hlive) s ((Monitor.at_did_of_ne ht).mp hs)).other hd ht
        · -- nobody else sends
          cases hd with
          | sent heq => exact absurd heq ht
          | _ => cases hu
    | @again t k k' hat =>
      refine ⟨fun hlive s hs => ih.hand ?_ s hs, ih.sent⟩
      by_cases ht : t = watcher
      · exact there_of_at (ht ▸ hat)
      · exact there_before ht hlive
    | @exit t k hat =>
      refine ⟨fun hlive s hs => ?_, fun name hname => (ih.sent name hname).cons⟩
      -- nothing is asked of a watcher that has ended
      have ht : t ≠ watcher := fun heq => hlive (heq ▸ Function.update_self ..)
      exact (ih.hand (there_before ht hlive) s hs).leave ht
    | @crash t k p w hat hw =>
      cases hw
      refine ⟨fun hlive s hs => ?_, fun name hname => (ih.sent name hname).cons⟩
      have ht : t ≠ watcher := fun heq => hlive (heq ▸ Function.update_self ..)
      exact (ih.hand (there_before ht hlive) s hs).leave ht
    | @env m w hw =>
      cases hw
      exact ⟨fun hlive s hs => (ih.hand hlive s hs).later m, ih.sent⟩

/-- **The dispatch loop is given what the watcher sent**, in that order and
each name as often as it was sent, and at most 256 names wait; and each is
the name of a job file that stood in `new/`, a regular one, before it was
sent. -/
theorem piped_of_run (h₀ : Start c₀) (hr : machine.Run Meets c₀ c) :
    Channel.sent use c.trace = Channel.received use c.trace ++ c.world.names.waiting ∧
      c.world.names.waiting.length ≤ 256 ∧
      ∀ τ, τ <:+ c.trace → ∀ name ∈ Channel.sent use τ, Job τ name := by
  refine ⟨?_, c.world.names.bounded, fun τ hτ name hname => ?_⟩
  · have hall := carries.run h₀.trace hr
    rw [h₀.names] at hall
    exact hall
  · obtain ⟨c₁, hr₁, rfl, -⟩ := hr.exists_of_suffix h₀.trace hτ
    exact (honest_of_run h₀ hr₁).sent name hname

/-! ## A file that comes during a scan -/

instance : Decidable (Pending w) :=
  inferInstanceAs (Decidable (_ ∨ _))

instance : Decidable (Stands w name i) :=
  inferInstanceAs (Decidable (_ ∧ _))

instance : Decidable (Spares name x) := by
  unfold Spares
  split <;> infer_instance

instance {s : Shared Resp Task World} : Decidable (Stays name i s x) :=
  inferInstanceAs (Decidable (_ ∧ _))

/-- The oracle's answers of one kind of call. -/
def answers (entry : Option (Files.DirEntry String)) (wake : Wake)
    (choice : Option (Files.Op Dir String)) : (o : Op) → Oracle o
  | .fs _ => ⟨false, 0, entry⟩
  | .subscribe => .ok ()
  | .select => wake
  | .notify => true
  | .choose => choice
  | .send _ | .recv | .interval | .tryRecv | .elapse => ()

/-- A job file that is still to come into `new/`. -/
def samplePool : Pool where
  world :=
    ⟨Files.State.create ⟨Files.Tree.empty, 0, fun _ => none⟩ ⟨.error, "42.job"⟩ ⟨.regular, [], 0⟩,
      .empty, 0, false, false, false, true, true⟩
  next := 4
  trace := []
  threads
    | 0 => some (.enumerateNew .first, body (.enumerateNew .first))
    | 1 => some (.dispatch, body .dispatch)
    | 2 => some (.notifier, body .notifier)
    | 3 => some (.work, body .work)
    | _ => none

theorem start_samplePool : Start samplePool where
  trace := rfl
  names := rfl
  watching := rfl
  dispatching := rfl
  fresh t k p h := by
    rcases t with _ | _ | _ | _ | t <;> cases h <;>
      exact ⟨by decide, rfl, fun ht => by first | rfl | exact absurd rfl ht⟩

/-- A call where nothing is to choose, or only what is read next. -/
abbrev plain (t : Tid) (entry : Option (Files.DirEntry String)) : machine.Move :=
  .call t (answers entry .tick none)

/-- The watcher comes to its second scan, and then the file comes. -/
def comes : List machine.Move :=
  [plain 0 none, .again 0, plain 0 none, .again 0, plain 0 none, plain 0 none, .again 0,
    plain 0 none, .again 0, plain 0 none, .again 0,
    .call 3 (answers none .tick (some (.rename ⟨.error, "42.job"⟩ ⟨.new, "42.job"⟩))),
    plain 3 none]

/-- The second scan misses it, and the third, after its event, does not. -/
def delivers : List machine.Move :=
  [plain 2 none, plain 0 none, .again 0, .call 0 (answers none .event none), .again 0,
    plain 0 none, .again 0, plain 0 none, .again 0, plain 0 (some ⟨"42.job", .regular⟩),
    plain 0 none, plain 0 none, .again 0, plain 0 none, plain 1 none]

/-- The watcher is about to come to its `select!`. -/
def Selects (c : Pool) : Bool :=
  match c.threads watcher with
  | some (_, .ret (some .select)) => true
  | _ => false

/-- The lines since another point of the run. -/
def since (c₁ c : Pool) : List Line := c.trace.take (c.trace.length - c₁.trace.length)

theorem since_eq (h : c.trace = σ ++ c₁.trace) : c.trace = since c₁ c ++ c₁.trace := by
  have htake : since c₁ c = σ := by
    unfold since
    rw [h, List.length_append, Nat.add_sub_cancel, List.take_left]
  rw [htake]
  exact h

set_option maxRecDepth 4000 in
theorem delivers_follows :
    ((machine.follow (fun _ _ => true) comes samplePool).bind fun c₁ =>
      (machine.follow (fun s x => decide (Stays "42.job" 0 s x)) delivers c₁).map fun c =>
        Selects c && decide (Stands c.world "42.job" 0) && (since c₁ c).any Signals &&
          decide (¬ Pending c.world) && decide (Channel.received use c.trace = ["42.job"])) =
      some true := by
  decide +kernel

/-- The two parts of that run. -/
theorem exists_delivers :
    ∃ c₁ c, machine.Run (fun _ _ => True) samplePool c₁ ∧
      machine.Run (Stays "42.job" 0) c₁ c ∧ Stands c.world "42.job" 0 ∧
      (∃ x ∈ since c₁ c, Signals x = true) ∧
      c.threads watcher = some (.select, body .select) ∧ ¬ Pending c.world ∧
      Channel.received use c.trace = ["42.job"] := by
  obtain ⟨c₁, h₁, h⟩ := Option.bind_eq_some_iff.mp delivers_follows
  obtain ⟨c, hc, htest⟩ := Option.map_eq_some_iff.mp h
  simp only [Bool.and_eq_true, decide_eq_true_eq, List.any_eq_true] at htest
  obtain ⟨⟨⟨⟨hselects, hstands⟩, hsignal⟩, hrest⟩, hreceived⟩ := htest
  have hr₁ := (Machine.run_of_follow h₁).mono fun _ _ _ => trivial
  have hr : machine.Run (Stays "42.job" 0) c₁ c :=
    (Machine.run_of_follow hc).mono fun _ _ h => of_decide_eq_true h
  obtain ⟨k, hat⟩ : ∃ k, c.threads watcher = some (k, .ret (some .select)) := by
    unfold Selects at hselects
    split at hselects
    · rename_i k hat
      exact ⟨k, hat⟩
    · cases hselects
  have hat' : Function.update c.threads watcher (some (.select, body .select)) watcher =
      some (.select, body .select) := Function.update_self ..
  exact ⟨c₁, _, hr₁, hr.step (.again hat) (fun x hx => by cases hx), hstands, hsignal, hat',
    hrest, hreceived⟩

theorem delivered_of_signal_sample :
    ∃ c₁ c, machine.Run (fun _ _ => True) samplePool c₁ ∧
      machine.Run (Stays "42.job" 0) c₁ c ∧
      ("42.job" ∈ Channel.received use (since c₁ c) ∨ "42.job" ∈ c.world.names.waiting ∨
        ∃ x ∈ since c₁ c, Fails "42.job" x) := by
  obtain ⟨c₁, c, hr₁, hr, hstands, hsignal, hat, hrest, -⟩ := exists_delivers
  obtain ⟨σ, hσ, -⟩ := sought_of_run (by decide) hr
  exact ⟨c₁, c, hr₁, hr, delivered_of_signal (by decide) start_samplePool hr₁ hr hstands
    (since_eq hσ) hsignal hat hrest⟩

theorem piped_of_run_sample :
    ∃ c, machine.Run (fun _ _ => True) samplePool c ∧
      Channel.received use c.trace = ["42.job"] ∧
      Channel.sent use c.trace = Channel.received use c.trace ++ c.world.names.waiting ∧
      c.world.names.waiting.length ≤ 256 ∧
      ∀ τ, τ <:+ c.trace → ∀ name ∈ Channel.sent use τ, Job τ name := by
  obtain ⟨c₁, c, hr₁, hr, -, -, -, -, hreceived⟩ := exists_delivers
  have hall := hr₁.trans (hr.mono fun _ _ _ => trivial)
  exact ⟨c, hall, hreceived, piped_of_run start_samplePool hall⟩

end Watch

end GhaConsumer
