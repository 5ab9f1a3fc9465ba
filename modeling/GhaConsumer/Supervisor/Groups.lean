import GhaConsumer.Daemon.Iteration
import GhaConsumer.Host.Sample
import GhaConsumer.Intake.Verdict

/-!
# Supervisor — two groups of checks

The README puts the checks of an entry in two groups: what fails one of
the first goes to `error/`, what fails only the second to `done/`. Where
an entry goes is a matter of its verdict, and of what the dispatcher does
with it (`Filed.of_dispatch`). The code looks at the `event` of the second
group between the checks of the first, so an entry of another event whose
body does not agree with its envelope is filed as done
(`followsReadme_iff`).
-/

namespace GhaConsumer

namespace Groups

open Interleave Alone
open Daemon (Turn turnStep dispatchOne)
open Files (Bytes)

variable {cfg : Config} {id : JobId} {env : Envelope} {body : Bytes}

/-! ## What the README says -/

/-- `classify_validated_entry` of a claim. -/
abbrev verdict (cfg : Config) (id : JobId) (env : Envelope) (body : Bytes) : EntryVerdict :=
  classifyValidatedEntry cfg.codec id env body cfg.webhookSecret cfg.allowedRepos cfg.runnerLabel
    cfg.runnerLabels

variable {C : Codec} {w w' : World} {cur : String} {s₀ s u s' : Turn}

/-- One turn of `dispatch_one` at an entry it claims and reads: from `s₀`
to the claim at `s`, and to the end at `s'`. -/
structure ReadTurn (cfg : Config) (id : JobId) (env : Envelope) (body : Bytes) (cur : String)
    (s₀ s s' : Turn) : Prop where
  claimed : Ends (turnStep cfg.codec) (tryClaim (jobFileName id)) s₀ (.ok (some cur)) s
  read : ∃ u, Ends (turnStep cfg.codec) (readSpoolFile cfg.codec cur) s (.ok (env, body)) u
  rest : Ends (turnStep cfg.codec)
    (prepareClaim cfg (jobFileName id) id cur >>= dispatchPrepared) s () s'

/-- It is a turn of `dispatch_one`. -/
theorem ReadTurn.turn (h : ReadTurn cfg id env body cur s₀ s s') :
    Ends (turnStep cfg.codec) (dispatchOne cfg (jobFileName id)) s₀ (some .dispatch) s' := by
  obtain ⟨prepared, s₁, hprepared, hdispatch⟩ := ends_bind.mp h.rest
  have hprepare : Ends (turnStep cfg.codec) (prepare cfg (jobFileName id)) s₀ prepared s₁ := by
    unfold prepare
    rw [parseSpoolFilename_jobFileName]
    exact ends_bind.mpr ⟨_, s, h.claimed, hprepared⟩
  exact ends_bind.mpr ⟨prepared, s₁, hprepare, ends_bind.mpr ⟨(), s', hdispatch, rfl, rfl⟩⟩

/-- And every turn that claims the entry goes on so. -/
theorem rest_of_turn {r : Option Daemon.Task}
    (h : Ends (turnStep cfg.codec) (dispatchOne cfg (jobFileName id)) s₀ r s') :
    ∃ claim s, Ends (turnStep cfg.codec) (tryClaim (jobFileName id)) s₀ claim s ∧
      ∀ cur, claim = .ok (some cur) → Ends (turnStep cfg.codec)
        (prepareClaim cfg (jobFileName id) id cur >>= dispatchPrepared) s () s' := by
  obtain ⟨prepared, s₁, hprepare, h⟩ := ends_bind.mp h
  obtain ⟨⟨⟩, s₂, hdispatch, -, rfl⟩ := ends_bind.mp h
  unfold prepare at hprepare
  rw [parseSpoolFilename_jobFileName] at hprepare
  obtain ⟨claim, s, hclaim, hprepare⟩ := ends_bind.mp hprepare
  refine ⟨claim, s, hclaim, ?_⟩
  rintro cur rfl
  exact ends_bind.mpr ⟨prepared, s₁, hprepare, hdispatch⟩

/-- What the claim reads as. -/
theorem ReadTurn.readResult (h : ReadTurn cfg id env body cur s₀ s s') :
    readResult cfg.codec (curPath cur) s.1.fs.tree = .ok (env, body) := by
  obtain ⟨u, hread⟩ := h.read
  have hquiet : (readSpoolFile cfg.codec cur).Only fun o => Daemon.spawns o = [] :=
    (Listing.readSpoolFile_answers cfg.codec cur).mono fun _ ho => Daemon.quiet_fs ho
  obtain ⟨hread, -⟩ := (Daemon.ends_quiet hquiet).mp hread
  exact ((looks_readSpoolFileAt (curPath cur)).ends hread).1.symm

/-- The claim is the entry's, and no marker stands but a link that leads
nowhere. -/
theorem ReadTurn.confirmed (h : ReadTurn cfg id env body cur s₀ s s') :
    cur = jobFileName id ∧ archived (jobFileName id) s.1.fs.tree = false := by
  have hquiet : (tryClaim (jobFileName id)).Only fun o => Daemon.spawns o = [] :=
    (Listing.tryClaim_answers (jobFileName id)).mono fun _ ho => Daemon.quiet_fs ho
  exact tryClaim_confirmed ((Daemon.ends_quiet hquiet).mp h.claimed).1

/-- What is dispatched is the entry's verdict; on the way to it files are
only looked at. -/
theorem ReadTurn.dispatched (h : ReadTurn cfg id env body cur s₀ s s') : ∃ s₁ : Turn,
    s₁.1.fs.tree = s.1.fs.tree ∧ s₁.2 = s.2 ∧ Ends (turnStep cfg.codec)
      (dispatchPrepared (.ofVerdict cur (verdict cfg id env body))) s₁ () s' := by
  obtain ⟨prepared, s₁, hprepared, hdispatch⟩ := ends_bind.mp h.rest
  unfold prepareClaim at hprepared
  rw [if_neg (not_not.mpr rfl)] at hprepared
  obtain ⟨r, s₂, hread, hverdict⟩ := ends_bind.mp hprepared
  have hquiet : (readSpoolFile cfg.codec cur).Only fun o => Daemon.spawns o = [] :=
    (Listing.readSpoolFile_answers cfg.codec cur).mono fun _ ho => Daemon.quiet_fs ho
  obtain ⟨hread, hspawned⟩ := (Daemon.ends_quiet hquiet).mp hread
  obtain ⟨rfl, n, hlater⟩ := (looks_readSpoolFileAt (curPath cur)).ends hread
  rw [h.readResult] at hverdict
  obtain ⟨rfl, rfl⟩ := hverdict
  exact ⟨s₁, by rw [hlater, later_tree], hspawned, hdispatch⟩

end Groups

end GhaConsumer
