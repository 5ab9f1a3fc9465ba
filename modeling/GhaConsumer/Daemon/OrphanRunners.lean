import GhaConsumer.Daemon.Reaps

/-!
# The daemon — runners deleted with their workers at work

The sweep lists a repository's runners, reads `cur/` again and deletes
those no claim read names, and those whose stale VM it has destroyed. A
runner's claim is written before the runner is minted, so a runner listed
has a claim the later read sees. But the VMs destroyed are remembered by
name, and a job minted anew has the same name as before. Where a destroyed
VM's name has been taken up by no other worker, no runner of a worker at
work is deleted but one whose VM the sweep destroyed
(`sparesBacked_of_settled`).
-/

namespace GhaConsumer

namespace OrphanRunners

open Interleave Daemon Sight Reaps
open Slots (slot)
open Pause (Own claims)
open Files (DirEntry)

/-! ## What the history says of runners -/

/-- The world in which the thread's read of `cur/` came to its end, and
the history until then, where neither a new read nor a new listing of
runners has begun since. -/
def ending (t : Tid) : Daemon.History → Option (World × Daemon.History)
  | [] => none
  | .did u _ o r w :: τ =>
    if u = t then
      match (⟨o, r⟩ : Event Resp) with
      | ⟨.fs .nextEntry, .ok none⟩ => some (w, τ)
      | ⟨.fs (.openDir _), _⟩ | ⟨.hub (.listRunners ..), _⟩ => none
      | _ => ending t τ
    else ending t τ
  | .ended .. :: τ => ending t τ

/-- The thread has asked for a runner of that name, when the id was the
next to be given. -/
def Mints (u : Tid) (name : String) (id : ℕ) (τ : Daemon.History) : Prop :=
  ∃ k owner repo labels r w σ,
    .did u k (.hub (.generateJitConfig owner repo name labels)) r w :: σ <:+ τ ∧ w.hub.nextId = id

/-- The entries claimed since the worker was started. -/
def claimedSinceStart (u : Tid) : Daemon.History → List String
  | [] => []
  | .did _ _ (.sched (.spawnJob ..)) v _ :: τ => if v = u then [] else claimedSinceStart u τ
  | .did _ _ o r _ :: τ => (claims ⟨o, r⟩).toList ++ claimedSinceStart u τ
  | .ended .. :: τ => claimedSinceStart u τ

/-- The thread is the worker of the name's job, and its claim is in
`cur/`: what stands there was there when it was started. -/
def Backs (u : Tid) (name : String) (w : World) (τ : Daemon.History) : Prop :=
  ∃ cur event, working u τ = some (cur, event) ∧ vmNameForEvent event = name ∧
    Claimed w event.workflowJob.id ∧
    jobFileName event.workflowJob.id ∉ claimedSinceStart u τ

/-- The history until the thread had destroyed the stale VM, in the sweep
it is at. -/
def destroyedAt (C : Codec) (t : Tid) (vm : String) : Daemon.History → Option Daemon.History
  | [] => none
  | .did u k o r w :: τ =>
    if u = t then
      if o = .sched .sleep then none
      else if destroys C (⟨o, r⟩ :: Entry.own t τ) = some vm then some (.did u k o r w :: τ)
      else destroyedAt C t vm τ
    else destroyedAt C t vm τ
  | .ended .. :: τ => destroyedAt C t vm τ

/-- The thread has begun to start the VM. -/
def Starts (u : Tid) (vm : String) (τ : Daemon.History) : Prop :=
  ∃ r, ⟨.lima (.start vm), r⟩ ∈ Entry.own u τ

/-- The runner's VM is the very one the sweep has destroyed: the worker
that minted the runner had begun to start it. -/
def Belongs (C : Codec) (t u : Tid) (vm : String) (τ : Daemon.History) : Prop :=
  ∃ σ, destroyedAt C t vm τ = some σ ∧ Starts u vm σ

/-- No runner is deleted whose minting worker was at work, with its claim
in `cur/`, when the read of `cur/` after the listing came to its end,
unless its VM is the one the sweep destroyed. -/
def SparesBacked (C : Codec) (τ : Daemon.History) : Prop :=
  ∀ t owner repo id r w σ, .did t .gc (.hub (.deleteRunner owner repo id)) r w :: σ <:+ τ →
    ∃ name w' ρ, lastLog (Entry.own t σ) = some (.orphanRunner name) ∧
      ending t σ = some (w', ρ) ∧
      ∀ u, Mints u name id ρ → Backs u name w' ρ → Belongs C t u name σ

/-- Where the sweep deletes a runner whose VM's name is that of a stale VM
it has destroyed, every worker that has minted under that name had begun
to start its VM by then. -/
def Settled (C : Codec) (s : Daemon.State) (x : Line) : Prop :=
  ∀ t owner repo id r w name σ, x = .did t .gc (.hub (.deleteRunner owner repo id)) r w →
    lastLog (Entry.own t s.trace) = some (.orphanRunner name) →
    destroyedAt C t name s.trace = some σ →
    ∀ u id', Mints u name id' s.trace → Starts u name σ

/-! ## Ends of reads -/

section Ending

variable {C : Codec} {t u : Tid} {k : Task} {o : Op} {r : Resp o} {w w' : World} {vm : String}
variable {τ ρ : Daemon.History} {v : View}

theorem ending_of_ne (h : u ≠ t) : ending t (.did u k o r w :: τ) = ending t τ := if_neg h

theorem ending_end {r : Resp (.fs .nextEntry)} (hr : r = .ok none) :
    ending t (.did t k (.fs .nextEntry) r w :: τ) = some (w, τ) := by
  subst hr
  exact if_pos rfl

theorem ending_open {d : Dir} {r : Resp (.fs (.openDir d))} :
    ending t (.did t k (.fs (.openDir d)) r w :: τ) = none := if_pos rfl

/-- A call that ends no read and begins none. -/
theorem ending_own (hend : (⟨o, r⟩ : Event Resp) ≠ ⟨.fs .nextEntry, .ok none⟩)
    (hopen : ∀ d, o ≠ .fs (.openDir d))
    (hlist : ∀ owner repo pre, o ≠ .hub (.listRunners owner repo pre)) :
    ending t (.did t k o r w :: τ) = ending t τ := by
  simp only [ending, if_true]
  split
  · rename_i heq
    exact absurd heq hend
  · rename_i d r' heq
    cases heq
    exact absurd rfl (hopen d)
  · rename_i owner repo pre r' heq
    cases heq
    exact absurd rfl (hlist owner repo pre)
  · rfl

/-- Where no new read has begun, the last one's end is where it was. -/
theorem ending_suffix (h : ending t τ = some (w', ρ)) :
    ∃ k, .did t k (.fs .nextEntry) (.ok none) w' :: ρ <:+ τ := by
  induction τ with
  | nil => cases h
  | cons x τ ih =>
    have htail : ending t τ = some (w', ρ) →
        ∃ k, .did t k (.fs .nextEntry) (.ok none) w' :: ρ <:+ x :: τ := by
      intro h
      obtain ⟨k, hsuf⟩ := ih h
      exact ⟨k, hsuf.trans (List.suffix_cons _ _)⟩
    cases x with
    | ended => exact htail h
    | did u k o r w =>
      by_cases hut : u = t
      · subst hut
        simp only [ending, if_true] at h
        split at h
        · rename_i heq
          cases heq
          cases h
          exact ⟨k, List.suffix_refl _⟩
        · cases h
        · cases h
        · exact htail h
      · rw [ending_of_ne hut] at h
        exact htail h

/-- A read that has come to its end has done so at some point. -/
theorem ending_of_ended (hv : sight (Entry.own t τ) = some v) (hended : v.ended = true) :
    (ending t τ).isSome := by
  induction τ generalizing v with
  | nil => cases hv
  | cons x τ ih =>
    cases x with
    | ended => exact ih hv hended
    | did u k o r w =>
      by_cases hut : u = t
      · subst hut
        rw [Entry.own_did] at hv
        rcases sight_cons hv with ⟨-, rfl⟩ | ⟨hopen, hlist, v₀, hv₀, hglance⟩
        · cases hended
        have hkeep : (⟨o, r⟩ : Event Resp) ≠ ⟨.fs .nextEntry, .ok none⟩ → v₀.ended = true →
            (ending u (.did u k o r w :: τ)).isSome := fun hend hv₀' => by
          rw [ending_own hend hopen hlist]
          exact ih hv₀ hv₀'
        cases hglance with
        | still hno => exact hkeep (hno none) hended
        | add ent he => exact hkeep (by rw [he]; simp) hended
        | finish he =>
          cases he
          rw [ending_end rfl]
          rfl
        | drop ent _ he => exact hkeep (by rw [he]; simp) hended
      · rw [ending_of_ne hut]
        rw [Entry.own_did_of_ne hut] at hv
        exact ih hv hended

/-- A stale VM that has been destroyed was destroyed at some point. -/
theorem destroyedAt_of_mem (h : vm ∈ destroyed C (Entry.own t τ)) :
    (destroyedAt C t vm τ).isSome := by
  induction τ with
  | nil => cases h
  | cons x τ ih =>
    cases x with
    | ended => exact ih h
    | did u k o r w =>
      by_cases hut : u = t
      · subst hut
        rw [Entry.own_did] at h
        simp only [destroyedAt, if_true]
        split
        · rename_i hsleep
          subst hsleep
          cases h
        · rename_i hsleep
          split
          · rfl
          · rename_i hnot
            refine ih ?_
            unfold destroyed at h
            split at h
            · cases h
            · rename_i heq
              cases heq
              exact absurd rfl hsleep
            · rename_i heq
              cases heq
              rcases List.mem_append.mp h with h | h
              · exact absurd (Option.mem_toList.mp h) hnot
              · exact h
      · simp only [destroyedAt, if_neg hut]
        rw [Entry.own_did_of_ne hut] at h
        exact ih h

end Ending

/-! ## The order of a claim, a mint and a listing -/

section Order

variable {cfg : Config} {fuel : ℕ} {t u v : Tid} {k : Task} {o : Op} {q : Oracle o} {r : Resp o}
variable {w w' : World} {name : String} {id : ℕ} {τ : Daemon.History} {c₀ c : Pool}
variable {Meets : Daemon.State → Line → Prop}

theorem Mints.cases (h : Mints u name id (.did v k o r w :: τ)) :
    v = u ∧ w.hub.nextId = id ∨ Mints u name id τ := by
  obtain ⟨k', owner, repo, labels, r', w₁, σ, hsuf, hid⟩ := h
  rcases List.suffix_cons_iff.mp hsuf with heq | hsuf
  · cases heq
    exact .inl ⟨rfl, hid⟩
  · exact .inr ⟨k', owner, repo, labels, r', w₁, σ, hsuf, hid⟩

theorem Mints.of_ended (h : Mints u name id (.ended v k w :: τ)) : Mints u name id τ := by
  obtain ⟨k', owner, repo, labels, r', w₁, σ, hsuf, hid⟩ := h
  rcases List.suffix_cons_iff.mp hsuf with heq | hsuf
  · cases heq
  · exact ⟨k', owner, repo, labels, r', w₁, σ, hsuf, hid⟩

/-- Who has minted has a line. -/
theorem Mints.mem (h : Mints u name id τ) : ∃ x ∈ τ, x.tid = u := by
  obtain ⟨k', owner, repo, labels, r', w₁, σ, hsuf, hid⟩ := h
  exact ⟨_, hsuf.subset List.mem_cons_self, rfl⟩

theorem lastListed_of_ne (hlist : ∀ owner repo pre, o ≠ .hub (.listRunners owner repo pre))
    {σ : Own} : lastListed (⟨o, r⟩ :: σ) = lastListed σ := by
  cases o with
  | hub o =>
    cases o with
    | listRunners owner repo pre => exact absurd rfl (hlist owner repo pre)
    | _ => rfl
  | _ => rfl

/-- A call that does not start the worker adds what it claims. -/
theorem claimedSinceStart_did (h : ∀ k', forks o r ≠ some (u, k')) :
    claimedSinceStart u (.did v k o r w :: τ) =
      (claims ⟨o, r⟩).toList ++ claimedSinceStart u τ := by
  cases o with
  | sched o =>
    cases o with
    | spawnJob cur event => exact if_neg fun hu => h (.work cur event) (by rw [← hu]; rfl)
    | _ => rfl
  | _ => rfl

/-- The runners listed last have their ids, and what has been claimed since
the read that followed was claimed after the workers that minted them were
started. -/
structure Order (t : Tid) (s : Daemon.State) : Prop where
  old : ∀ owner repo runners, lastListed (Entry.own t s.trace) = some (owner, repo, runners) →
    ∀ r ∈ runners, r.id < s.world.hub.nextId
  since : (sight (Entry.own t s.trace)).isSome → ∀ owner repo runners,
    lastListed (Entry.own t s.trace) = some (owner, repo, runners) → ∀ r ∈ runners,
      ∀ u name, Mints u name r.id s.trace → claimedSince t s.trace ⊆ claimedSinceStart u s.trace

theorem Order.called {s : Daemon.State} (hs : Order t s)
    (h : step cfg.codec v o q s.world = some (r, w'))
    (hfresh : ∀ u k', forks o r = some (u, k') → ∀ x ∈ s.trace, x.tid ≠ u) :
    Order t (s.called (machine cfg fuel) v k o r w') := by
  have hnext := nextId_le_of_step h
  have hold : ∀ owner repo runners, lastListed (Entry.own t s.trace) = some (owner, repo, runners) →
      ∀ r ∈ runners, r.id < w'.hub.nextId := fun owner repo runners hl r hr =>
    (hs.old owner repo runners hl r hr).trans_le hnext
  -- what the others call, and what is no listing of runners
  have hsince : ∀ owner repo runners, lastListed (Entry.own t s.trace) = some (owner, repo, runners) →
      (¬ (v = t ∧ o = .fs (.openDir .cur)) → (sight (Entry.own t s.trace)).isSome) →
      ∀ r' ∈ runners, ∀ u name, Mints u name r'.id (.did v k o r s.world :: s.trace) →
        claimedSince t (.did v k o r s.world :: s.trace) ⊆
          claimedSinceStart u (.did v k o r s.world :: s.trace) := by
    intro owner repo runners hl hsight r' hr' u name hmints
    by_cases hopen : v = t ∧ o = .fs (.openDir .cur)
    · rw [claimedSince, if_pos hopen]
      exact List.nil_subset _
    · rcases hmints.cases with ⟨-, hid⟩ | hmints
      · exact absurd hid (Nat.ne_of_gt (hs.old owner repo runners hl r' hr'))
      · obtain ⟨x, hx, hxu⟩ := hmints.mem
        rw [claimedSince, if_neg hopen, claimedSinceStart_did fun k' hf => hfresh u k' hf x hx hxu]
        have hsub := hs.since (hsight hopen) owner repo runners hl r' hr' u name hmints
        exact fun n hn => List.mem_append.mpr ((List.mem_append.mp hn).imp_right fun h => hsub h)
  by_cases hvt : v = t
  · subst hvt
    by_cases hlist : ∃ owner repo pre, o = .hub (.listRunners owner repo pre)
    · obtain ⟨owner, repo, pre, rfl⟩ := hlist
      refine ⟨fun owner' repo' runners hl r' hr' => ?_, fun hsight => ?_⟩
      · simp only [Shared.called, Entry.own_did] at hl ⊢
        obtain ⟨s', hs', rfl⟩ := step_hub h
        rcases r with e | rs
        · cases hl
        · cases hl
          obtain ⟨rfl, hlt⟩ := Hub.lt_nextId_of_listed hs'
          exact hlt r' hr'
      · simp only [Shared.called, Entry.own_did] at hsight
        cases hsight
    · have hlist : ∀ owner repo pre, o ≠ .hub (.listRunners owner repo pre) :=
        fun owner repo pre ho => hlist ⟨owner, repo, pre, ho⟩
      refine ⟨fun owner repo runners hl => ?_, fun hsight owner repo runners hl => ?_⟩
      · simp only [Shared.called, Entry.own_did, lastListed_of_ne hlist] at hl
        exact hold owner repo runners hl
      · simp only [Shared.called, Entry.own_did, lastListed_of_ne hlist] at hl hsight
        refine hsince owner repo runners hl fun hopen => ?_
        obtain ⟨w₁, hv⟩ := Option.isSome_iff_exists.mp hsight
        rcases sight_cons hv with ⟨he, -⟩ | ⟨-, -, v₀, hv₀, -⟩
        · cases he
          exact absurd ⟨rfl, rfl⟩ hopen
        · rw [hv₀]
          rfl
  · refine ⟨fun owner repo runners hl => ?_, fun hsight owner repo runners hl => ?_⟩
    · simp only [Shared.called, Entry.own_did_of_ne hvt] at hl
      exact hold owner repo runners hl
    · simp only [Shared.called, Entry.own_did_of_ne hvt] at hl hsight
      exact hsince owner repo runners hl fun _ => hsight

theorem order_run (h₀ : Daemon.Start cfg fuel c₀) (hr : (machine cfg fuel).Run Meets c₀ c) :
    Order t c.toShared := by
  induction hr with
  | start =>
    refine ⟨fun owner repo runners hl => ?_, fun _ owner repo runners hl => ?_⟩
    all_goals
      rw [h₀.trace] at hl
      cases hl
  | @step c c' e hr hs hm ih =>
    cases hs with
    | @call v k o f q r w hat hq hnew =>
      refine ih.called hq fun u k' hf x hx hxu => ?_
      have hlt := (Slots.sound_habits.run (Slots.start_habits h₀) hr).old x hx
      rw [hxu] at hlt
      exact Nat.not_lt.mpr (hnew u k' hf) hlt
    | again => exact ih
    | exit =>
      exact ⟨ih.old, fun hsight owner repo runners hl r hr' u name hmints =>
        ih.since hsight owner repo runners hl r hr' u name hmints.of_ended⟩
    | crash _ hw => cases hw
    | @env e w hw =>
      cases hw
      exact ⟨fun owner repo runners hl r hr' =>
        (ih.old owner repo runners hl r hr').trans_le e.nextId_le_step, ih.since⟩

end Order

/-! ## What a complete read has seen -/

section Runs

variable {cfg : Config} {fuel : ℕ} {t u : Tid} {w' : World} {ρ τ : Daemon.History} {v : View}
variable {c₀ c : Pool} {Meets : Daemon.State → Line → Prop}

/-- Since a read came to its end, no runners have been listed. -/
theorem lastListed_of_ending (h : ending t τ = some (w', ρ)) (hv : sight (Entry.own t τ) = some v) :
    lastListed (Entry.own t τ) = lastListed (Entry.own t ρ) ∧ (sight (Entry.own t ρ)).isSome := by
  induction τ generalizing v with
  | nil => cases h
  | cons x τ ih =>
    cases x with
    | ended => exact ih h hv
    | did u k o r w =>
      by_cases hut : u = t
      · subst hut
        rw [Entry.own_did] at hv ⊢
        rcases sight_cons hv with ⟨he, -⟩ | ⟨hopen, hlist, v₀, hv₀, -⟩
        · cases he
          rw [ending_open] at h
          cases h
        rw [lastListed_of_ne hlist]
        by_cases hend : (⟨o, r⟩ : Event Resp) = ⟨.fs .nextEntry, .ok none⟩
        · cases hend
          rw [ending_end rfl] at h
          cases h
          exact ⟨rfl, by rw [hv₀]; rfl⟩
        · rw [ending_own hend hopen hlist] at h
          exact ih h hv₀
      · rw [ending_of_ne hut] at h
        rw [Entry.own_did_of_ne hut] at hv ⊢
        exact ih h hv

/-- A claim that stood when a read came to its end, and had not been made
since the read began, is among what it has returned. -/
theorem saw_run (h₀ : Daemon.Start cfg fuel c₀) (hr : (machine cfg fuel).Run Meets c₀ c) (ht : t < 3)
    (hend : ending t c.trace = some (w', ρ)) (hv : sight (Entry.own t c.trace) = some v) {id : JobId}
    (hclaimed : Claimed w' id) (hsince : jobFileName id ∉ claimedSince t ρ) :
    entryOf id ∈ v.seen := by
  induction hr generalizing v with
  | start =>
    rw [h₀.trace] at hend
    cases hend
  | @step c c' e hr hs hm ih =>
    cases hs with
    | @call u k o f q r w hat hq hnew =>
      by_cases hut : u = t
      · subst hut
        simp only [Shared.called, Entry.own_did] at hv hend
        rcases sight_cons hv with ⟨he, -⟩ | ⟨hopen, hlist, v₀, hv₀, hglance⟩
        · cases he
          rw [ending_open] at hend
          cases hend
        refine hglance.mem hq ?_
        by_cases hlast : (⟨o, r⟩ : Event Resp) = ⟨.fs .nextEntry, .ok none⟩
        · -- the read comes to its end, and owes nothing any more
          cases hlast
          rw [ending_end rfl] at hend
          cases hend
          rcases sees_run h₀ hr ht id hclaimed hsince v₀ hv₀ with hseen | ⟨-, howes⟩
          · exact hseen
          · obtain ⟨s, hs, -⟩ := step_fs (C := cfg.codec) hq
            rcases Files.owes_nextEntry hs howes with ⟨-, hne⟩ | heq
            · exact absurd rfl hne
            · cases heq
        · rw [ending_own hlast hopen hlist] at hend
          exact ih hend hv₀
      · simp only [Shared.called, Entry.own_did_of_ne hut, ending_of_ne hut] at hv hend
        exact ih hend hv
    | again => exact ih hend hv
    | exit => exact ih hend hv
    | crash _ hw => cases hw
    | env => exact ih hend hv

/-- **Runners at work are spared** in every run in which the sweep takes
no runner for that of a VM it has destroyed unless the workers of that
name had begun to start their VM by then. -/
theorem sparesBacked_of_settled (h₀ : Daemon.Start cfg fuel c₀)
    (hr : (machine cfg fuel).Run (Settled cfg.codec) c₀ c) : SparesBacked cfg.codec c.trace := by
  intro t owner repo id r w σ hsuf
  have hcollector : t = collector := Ownership.place_of_line h₀ hr hsuf
  have ht : t < 3 := by rw [hcollector]; decide
  obtain ⟨runner, rfl, hlog, hunbacked⟩ := (Reaps.good_line h₀ hr hsuf).runner rfl owner repo id rfl
  obtain ⟨c₁, -, hr₁, rfl, rfl, -, -, hsettled⟩ := hr.exists_of_line h₀.trace hsuf
  obtain ⟨v, hv, hended⟩ := hunbacked.ended
  obtain ⟨⟨w', ρ⟩, hend⟩ := Option.isSome_iff_exists.mp (ending_of_ended hv hended)
  refine ⟨runner.name, w', ρ, hlog, hend, fun u hmints ⟨cur, event, hworking, hname, hclaimed, hsince⟩ => ?_⟩
  obtain ⟨k, hsufρ⟩ := ending_suffix hend
  rcases hunbacked.unlisted with ⟨v', hv', -, hunlisted⟩ | hdestroyed
  · -- the claim was made before the runners were listed, so the read has returned it
    obtain ⟨owner', hlisted, hmem⟩ := hunbacked.listed
    obtain ⟨hsame, hsight⟩ := lastListed_of_ending hend hv
    obtain ⟨c₂, -, hr₂, rfl, rfl, -⟩ := hr₁.exists_of_line h₀.trace hsufρ
    have hsub := (order_run h₀ hr₂).since hsight owner repo _ (hsame ▸ hlisted) runner hmem u
      runner.name hmints
    have hseen := saw_run h₀ hr₁ ht hend hv' hclaimed fun hmem => hsince (hsub hmem)
    refine absurd ?_ (hunlisted _ hseen)
    rw [claimedVm_jobFileName]
    exact congrArg some hname
  · obtain ⟨ρ', hρ'⟩ := Option.isSome_iff_exists.mp (destroyedAt_of_mem hdestroyed)
    obtain ⟨k', owner', repo', labels, r', w₁, σ₁, hsufm, hid⟩ := hmints
    have hmints : Mints u runner.name runner.id c₁.trace :=
      ⟨k', owner', repo', labels, r', w₁, σ₁,
        hsufm.trans ((List.suffix_cons _ _).trans hsufρ), hid⟩
    exact ⟨ρ', hρ', hsettled t owner repo runner.id r _ runner.name ρ' rfl hlog hρ' u _ hmints⟩

end Runs

/-! ## A name minted anew -/

/-- The name the line asks for a runner of, and the next id. -/
def mintOf : Line → Option (Tid × String × ℕ)
  | .did u _ (.hub (.generateJitConfig _ _ name _)) _ w => some (u, name, w.hub.nextId)
  | _ => none

theorem mem_mintOf {u : Tid} {name : String} {id : ℕ} {τ : Daemon.History} :
    (u, name, id) ∈ τ.filterMap mintOf ↔ Mints u name id τ := by
  constructor
  · intro hmem
    obtain ⟨x, hx, hof⟩ := List.mem_filterMap.mp hmem
    obtain ⟨pre, σ, rfl⟩ := List.append_of_mem hx
    unfold mintOf at hof
    split at hof
    · cases hof
      exact ⟨_, _, _, _, _, _, σ, List.suffix_append _ _, rfl⟩
    · cases hof
  · rintro ⟨k, owner, repo, labels, r, w, σ, hsuf, rfl⟩
    exact List.mem_filterMap.mpr ⟨_, hsuf.subset List.mem_cons_self, rfl⟩

/-- A runner deleted last of all, and what is said of job 42 and thread 3
where the read of `cur/` before it came to its end. -/
structure Removal where
  id : ℕ
  log : Option Sched.LogLine
  /-- The job thread 3 works at. -/
  job : Option JobId
  minted : Bool
  /-- What stands in the job's slot. -/
  claim : Option Files.Kind
  /-- Whether it was claimed since thread 3 was started. -/
  late : Bool
  /-- Where the VM has been destroyed, whether thread 3 had begun to start
  it. -/
  started : Option Bool
  deriving DecidableEq

/-- The last line, where it deletes a runner. -/
def lastRemoval (c : Pool) : Option Removal :=
  match c.trace with
  | .did t .gc (.hub (.deleteRunner _ _ id)) _ _ :: σ =>
    (ending t σ).map fun (w, ρ) => {
      id := id
      log := lastLog (Entry.own t σ)
      job := (working 3 ρ).map (·.2.workflowJob.id)
      minted := (3, vmName 42, id) ∈ ρ.filterMap mintOf
      claim := (w.fs.tree.ino (slot 42)).map fun i => (w.fs.tree.node i).kind
      late := jobFileName 42 ∈ claimedSinceStart 3 ρ
      started := (destroyedAt sampleCodec t (vmName 42) σ).map fun ρ' =>
        (Entry.own 3 ρ').any (·.1 == .lima (.start (vmName 42))) }
  | _ => none

/-- The runner of 42's VM. -/
def idle : Runner := ⟨0, vmName 42, "offline", false⟩

/-- `n` calls of thread `t`: what the directories offer, whether the VM is
listed, the runners listed, and the job queued. -/
def calls (t : Tid) (n : ℕ) (entry : Option (DirEntry String)) (vm : Bool) (runners : List Runner)
    (id : JobId) : List (machine sampleConfig 2).Move :=
  .replicate n (.call t (Answers.oracle {
    fs := ⟨false, 0, entry⟩
    sched := ⟨"", 3⟩
    lima := ⟨.ok ⟨true, ""⟩, true, false, if vm then "x\n".toUTF8.toList else [], "",
      some "/vm", none⟩
    hub := ⟨none, true, "", runners, none, none, [{ sampleStatus with id := id }]⟩ }))

/-- A claim, and its VM that has booted another image than the template's. -/
def staleWorld : World :=
  { World.sample [(⟨.cur, "42.job"⟩, ⟨.regular, [], 0⟩)] 0 with
    lima := ⟨[⟨0, vmName 42, some "/vm", "images:\n- location: /a.img"⟩], 1,
      "images:\n- location: /b.img"⟩ }

/-- The sweep destroys the stale VM and archives its claim; the reconciler
claims 42 anew and its worker mints a runner; the sweep lists it, reads
`cur/`, and deletes it. -/
def remintedSchedule : List (machine sampleConfig 2).Move :=
  let claim : Option (DirEntry String) := some ⟨"42.job", .regular⟩
  calls collector 3 none true [] 42 ++ calls collector 1 claim true [] 42 ++
    calls collector 5 none true [] 42 ++ calls collector 1 claim true [] 42 ++
    calls collector 16 none true [] 42 ++ calls reconciler 21 none false [] 42 ++
    calls 3 1 none false [] 42 ++ calls collector 2 none false [idle] 42 ++
    calls collector 1 claim false [idle] 42 ++ calls collector 4 none false [idle] 42

theorem reminted_sample :
    ((machine sampleConfig 2).follow (fun _ _ => true) remintedSchedule (pool staleWorld)).map
      lastRemoval =
      some (some ⟨0, some (.orphanRunner (vmName 42)), some 42, true, some .regular, false,
        some false⟩) := by
  decide +kernel

/-- **A runner just minted is deleted**: its job's former VM was stale, and
destroyed by the sweep, before the job was claimed anew. -/
theorem deletes_backed :
    ∃ c₀ c, Daemon.Start sampleConfig 2 c₀ ∧
      (machine sampleConfig 2).Run (fun _ _ => True) c₀ c ∧ ¬ SparesBacked sampleCodec c.trace := by
  obtain ⟨c, hc, hlast⟩ := Option.map_eq_some_iff.mp reminted_sample
  refine ⟨_, c, pool_start rfl rfl rfl rfl,
    (Machine.run_of_follow hc).mono fun _ _ _ => trivial, fun hspares => ?_⟩
  unfold lastRemoval at hlast
  split at hlast
  · rename_i t owner repo id r w σ htrace
    obtain ⟨⟨w', ρ⟩, hend, hlast⟩ := Option.map_eq_some_iff.mp hlast
    simp only [Removal.mk.injEq] at hlast
    obtain ⟨rfl, hlog, hjob, hminted, hclaim, hlate, hstarted⟩ := hlast
    obtain ⟨name, w₁, ρ₁, hlog', hend', hall⟩ := hspares t owner repo _ r w σ (by rw [htrace])
    obtain rfl : name = vmName 42 := by
      rw [hlog] at hlog'
      cases hlog'
      rfl
    obtain ⟨rfl, rfl⟩ : w' = w₁ ∧ ρ = ρ₁ := by
      rw [hend] at hend'
      cases hend'
      exact ⟨rfl, rfl⟩
    obtain ⟨⟨cur, event⟩, hworking, hid⟩ := Option.map_eq_some_iff.mp hjob
    have hid : event.workflowJob.id = 42 := hid
    obtain ⟨i, hi, hkind⟩ := Option.map_eq_some_iff.mp hclaim
    -- thread 3's runner it is, and thread 3's claim that was read
    have hbacks : Backs 3 (vmName 42) w' ρ := by
      refine ⟨cur, event, hworking, by rw [vmNameForEvent, hid], ?_, ?_⟩
      · rw [hid]
        exact ⟨i, hi, hkind⟩
      · rw [hid]
        exact of_decide_eq_false hlate
    obtain ⟨ρ', hρ', r', hmem⟩ := hall 3 (mem_mintOf.mp (of_decide_eq_true hminted)) hbacks
    rw [hρ'] at hstarted
    have hnone : (Entry.own 3 ρ').any (·.1 == .lima (.start (vmName 42))) = false :=
      Option.some.inj hstarted
    have hany := List.any_eq_false.mp hnone _ hmem
    exact hany (beq_self_eq_true _)
  · cases hlast

/-- A runner on GitHub that no claim names. -/
def strayWorld : World :=
  { World.sample [] 0 with hub := Hub.State.empty.register "o" "r" (vmName 42) }

/-- The reconciler claims 43 and its worker mints a runner; the sweep lists
both runners, reads `cur/`, and deletes the one left behind. -/
def strayedSchedule : List (machine sampleConfig 2).Move :=
  let claim : Option (DirEntry String) := some ⟨"43.job", .regular⟩
  let runners := [idle, ⟨1, vmName 43, "online", false⟩]
  calls reconciler 21 none false [] 43 ++ calls 3 1 none false [] 43 ++
    calls collector 3 none false runners 43 ++ calls collector 1 claim false runners 43 ++
    calls collector 5 none false runners 43 ++ calls collector 1 claim false runners 43 ++
    calls collector 6 none false runners 43 ++ calls collector 1 claim false runners 43 ++
    calls collector 4 none false runners 43

/-- No runner is deleted whose name a worker has minted under. -/
def sparesMinted (s : Daemon.State) : Line → Bool
  | .did t .gc (.hub (.deleteRunner ..)) _ _ =>
    (s.trace.filterMap mintOf).all fun m =>
      lastLog (Entry.own t s.trace) != some (.orphanRunner m.2.1)
  | _ => true

theorem settled_of_sparesMinted {C : Codec} {s : Daemon.State} {x : Line}
    (h : sparesMinted s x = true) : Settled C s x := by
  rintro t owner repo id r w name σ rfl hlog - u id' hmints
  have hne := List.all_eq_true.mp h _ (mem_mintOf.mpr hmints)
  rw [hlog] at hne
  exact absurd rfl (bne_iff_ne.mp hne)

theorem strayed_sample :
    ((machine sampleConfig 2).follow sparesMinted strayedSchedule (pool strayWorld)).map
      (fun c => (lastRemoval c, c.trace.filterMap mintOf)) =
      some (some ⟨0, some (.orphanRunner (vmName 42)), some 43, false, none, false, none⟩,
        [(3, vmName 43, 1)]) := by
  decide +kernel

/-- A runner left behind is deleted as the orphan it is, beside a worker's. -/
theorem sparesBacked_stray :
    ∃ c, (machine sampleConfig 2).Run (Settled sampleCodec) (pool strayWorld) c ∧
      lastRemoval c =
        some ⟨0, some (.orphanRunner (vmName 42)), some 43, false, none, false, none⟩ ∧
      c.trace.filterMap mintOf = [(3, vmName 43, 1)] ∧ SparesBacked sampleCodec c.trace := by
  obtain ⟨c, hc, hlast⟩ := Option.map_eq_some_iff.mp strayed_sample
  obtain ⟨hremoval, hmints⟩ := Prod.mk.inj hlast
  have hr : (machine sampleConfig 2).Run (Settled sampleCodec) (pool strayWorld) c :=
    (Machine.run_of_follow hc).mono fun _ _ => settled_of_sparesMinted
  exact ⟨c, hr, hremoval, hmints, sparesBacked_of_settled (pool_start rfl rfl rfl rfl) hr⟩

end OrphanRunners

end GhaConsumer
