import GhaConsumer.Files.Frame
import GhaConsumer.Host.Sample
import GhaConsumer.Interleave.Alone
import GhaConsumer.Spool.Calls

/-!
# Spool — archiving when something goes wrong

A finalize by itself, of whose archive calls at most one fails, or whose
claim vanishes before one of them. `archive` moves the old marker aside
before it installs the claim, and puts it back if the install fails. But
`preserve_existing` reports a marker it could not move the way it reports
that there is none, and a link that leads nowhere too; the claim is then
installed over it. That is the one way to lose a marker
(`finalize_keeps_iff`).
-/

namespace GhaConsumer

namespace Archive

open Interleave Alone
open Files (Errno)

/-! ## What goes wrong -/

/-- What goes wrong in a finalize, and at which of its archive calls,
counted from 0. -/
inductive Fault where
  | none
  | fails (n : ℕ)
  /-- The claim is gone when the call is made. -/
  | vanishes (n : ℕ)
  deriving DecidableEq, Repr

/-- The host, and how many archive calls have been made. -/
structure Trial where
  world : World
  count : ℕ

/-- The calls of `archive` and `preserve_existing` that can fail. -/
def isArchiveCall : Op → Bool
  | .fs (.tryExists _) | .fs (.rename ..) | .fs (.renameNoClobber ..) => true
  | _ => false

/-- Whether the host lets the call fail. -/
def oracleFails : (o : Op) → Oracle o → Bool
  | .fs _, q => q.fails
  | _, _ => false

/-- The files the call finds. -/
def Trial.seen (cur : String) (fault : Fault) (s : Trial) : FileState :=
  if fault = .vanishes s.count then s.world.fs.unlink (curPath cur) else s.world.fs

/-- The world the call finds: some time has passed. -/
def Trial.meets (cur : String) (fault : Fault) (o : Op) (elapsed : ℕ) (s : Trial) : World :=
  Env.step (.tick elapsed)
    { s.world with fs := if isArchiveCall o then s.seen cur fault else s.world.fs }

/-- A call of a finalize of `cur` under a fault. The calls outside
`archive` may fail as they like. -/
def trialStep (C : Codec) (cur : String) (fault : Fault) : Alone.Step Resp Trial :=
  fun o s r s' => ∃ (q : Oracle o) (elapsed : ℕ),
    step C 0 o q (s.meets cur fault o elapsed) = some (r, s'.world) ∧
      s'.count = (if isArchiveCall o then s.count + 1 else s.count) ∧
      (isArchiveCall o = true → oracleFails o q = decide (fault = .fails s.count))

/-- The tree of files. -/
abbrev Trial.tree (s : Trial) : Files.Tree Path := s.world.fs.tree

variable {C : Codec} {cur : String} {fault : Fault} {s s' : Trial} {p p' dest : Path}

/-! ## What each call leaves -/

theorem now_seen : (s.seen cur fault).now = s.world.fs.now := by
  unfold Trial.seen
  split <;> rfl

/-- An archive call is one of the files', on the files it finds, some
time later. -/
theorem fs_trial {o : Files.Op Dir String} {r : Files.Resp o} (ho : isArchiveCall (.fs o) = true)
    (h : trialStep C cur fault (.fs o) s r s') :
    s'.count = s.count + 1 ∧ ∃ (q : Files.Oracle String) (now : ℕ) (w : FileState),
      Files.step 0 o q { s.seen cur fault with now := now } = some (r, w) ∧
        q.fails = decide (fault = .fails s.count) ∧ s'.tree = w.tree := by
  obtain ⟨q, elapsed, hs, hc, hf⟩ := h
  obtain ⟨w, hs, hw⟩ := step_fs (show step C 0 (.fs o) q _ = some (r, _) from hs)
  refine ⟨by rw [hc, if_pos ho], q, (s.seen cur fault).now + elapsed, w, ?_, hf ho,
    by rw [Trial.tree, hw]⟩
  simp only [Trial.meets, if_pos ho] at hs
  exact hs

/-- Time has passed. -/
theorem now_trial {o : Op} {r : Resp o} (h : trialStep C cur fault o s r s') :
    s.world.fs.now ≤ s'.world.fs.now := by
  obtain ⟨q, elapsed, hs, -, -⟩ := h
  rw [now_of_step hs]
  show s.world.fs.now ≤ (if _ then s.seen cur fault else s.world.fs).now + elapsed
  split
  · rw [now_seen]; omega
  · omega

theorem clock_trial {n : ℕ} (h : trialStep C cur fault (.fs .now) s n s') :
    s'.count = s.count ∧ s'.tree = s.tree ∧ s.world.fs.now ≤ n := by
  obtain ⟨q, elapsed, hs, hc, -⟩ := h
  obtain ⟨w, hs, hw⟩ := step_fs (show step C 0 (.fs .now) q _ = some (n, _) from hs)
  cases hs
  refine ⟨hc, by rw [Trial.tree, hw]; rfl, Nat.le_add_right _ _⟩

theorem tryExists_trial {r : Bool} (h : trialStep C cur fault (.fs (.tryExists p)) s r s') :
    s'.count = s.count + 1 ∧ s'.tree = (s.seen cur fault).tree ∧
      r = (!decide (fault = .fails s.count) && (s.seen cur fault).tree.leads p) := by
  obtain ⟨hc, q, now, w, hs, hf, hw⟩ := fs_trial rfl h
  cases hs
  rw [← hf]
  exact ⟨hc, hw, rfl⟩

theorem renameNoClobber_trial {r : Except Errno Unit}
    (h : trialStep C cur fault (.fs (.renameNoClobber p p')) s r s') :
    s'.count = s.count + 1 ∧
      (r = .error .other ∧ s'.tree = (s.seen cur fault).tree ∧ fault = .fails s.count ∨
        fault ≠ .fails s.count ∧
          (r = .error .notFound ∧ s'.tree = (s.seen cur fault).tree ∧
              (s.seen cur fault).tree.ino p = none ∨
            r = .error .alreadyExists ∧ s'.tree = (s.seen cur fault).tree ∧
              ((s.seen cur fault).tree.ino p).isSome ∧ ((s.seen cur fault).tree.ino p').isSome ∨
            r = .ok () ∧ s'.tree = (s.seen cur fault).tree.move p p' ∧
              ((s.seen cur fault).tree.ino p).isSome ∧
              (s.seen cur fault).tree.ino p' = none)) := by
  obtain ⟨hc, q, now, w, hs, hf, hw⟩ := fs_trial rfl h
  rw [hw]
  refine ⟨hc, ?_⟩
  simp only [Files.step] at hs
  rw [hf] at hs
  split at hs
  · rename_i hfault
    cases hs
    exact .inl ⟨rfl, rfl, by simpa using hfault⟩
  · rename_i hfault
    refine .inr ⟨by simpa using hfault, ?_⟩
    split at hs
    · rename_i hp
      cases hs
      exact .inl ⟨rfl, rfl, hp⟩
    · rename_i hp hp'
      cases hs
      exact .inr (.inl ⟨rfl, rfl, by simp [hp], by simp [hp']⟩)
    · rename_i hp hp'
      cases hs
      exact .inr (.inr ⟨rfl, Files.State.tree_move, by simp [hp], hp'⟩)

theorem rename_trial {r : Except Errno Unit}
    (h : trialStep C cur fault (.fs (.rename p p')) s r s') :
    s'.count = s.count + 1 ∧
      ((∃ e, r = .error e) ∧ s'.tree = (s.seen cur fault).tree ∧
          (fault = .fails s.count ∨ (s.seen cur fault).tree.ino p = none ∨
            (s.seen cur fault).tree.barred p p' = true) ∨
        r = .ok () ∧ s'.tree = (s.seen cur fault).tree.move p p' ∧ fault ≠ .fails s.count ∧
          ((s.seen cur fault).tree.ino p).isSome ∧
          (s.seen cur fault).tree.barred p p' = false) := by
  obtain ⟨hc, q, now, w, hs, hf, hw⟩ := fs_trial rfl h
  rw [hw]
  refine ⟨hc, ?_⟩
  simp only [Files.step] at hs
  rw [hf] at hs
  split at hs
  · rename_i hfault
    cases hs
    exact .inl ⟨⟨_, rfl⟩, rfl, .inl (by simpa using hfault)⟩
  · rename_i hfault
    split at hs
    · rename_i hp
      cases hs
      exact .inl ⟨⟨_, rfl⟩, rfl, .inr (.inl (by simpa using hp))⟩
    · rename_i hp
      split at hs <;> cases hs
      · rename_i hbarred
        exact .inl ⟨⟨_, rfl⟩, rfl, .inr (.inr hbarred)⟩
      · rename_i hbarred
        exact .inr ⟨rfl, Files.State.tree_move, by simpa using hfault,
          by simpa [Option.isSome_iff_ne_none] using hp, Bool.eq_false_iff.mpr hbarred⟩

/-! ## What `archive` leaves -/

/-- Nothing has changed but that the claim may have vanished. -/
structure Idle (cur : String) (fault : Fault) (t t' : Files.Tree Path) : Prop where
  ino : ∀ q, q ≠ curPath cur → t'.ino q = t.ino q
  claim : t'.ino (curPath cur) = t.ino (curPath cur) ∨
    t'.ino (curPath cur) = none ∧ ∃ n, fault = .vanishes n
  node : t'.node = t.node

/-- The claim is at the destination, and what was there is aside. -/
structure Installs (cur : String) (dest : Path) (t t' : Files.Tree Path) : Prop where
  claim : ∃ c, t.ino (curPath cur) = some c ∧ t'.ino dest = some c
  aside : ∀ m, t.ino dest = some m → ∃ n, t'.ino (bakPath dest n) = some m
  node : t'.node = t.node

/-- The claim is at the destination in place of what was there. -/
structure Clobbers (cur : String) (dest : Path) (t t' : Files.Tree Path) : Prop where
  claim : ∃ c, t.ino (curPath cur) = some c ∧ t'.ino dest = some c
  ino : ∀ q, q ≠ curPath cur → q ≠ dest → t'.ino q = t.ino q
  node : t'.node = t.node

/-- `preserve_existing` leaves the marker where it is: one of its calls
fails, its look at the marker or its rename; or the marker is a link that
leads nowhere, and it is not for another call that the claim is not
renamed over it. -/
def Unpreserved (dest : Path) (fault : Fault) (t : Files.Tree Path) : Prop :=
  if t.leads dest then fault = .fails 1 ∨ fault = .fails 2
  else fault ≠ .fails 0 ∧ fault ≠ .fails 2 ∧ ∀ n ≤ 2, fault ≠ .vanishes n

/-- Claim and marker both stand, the one can be renamed over the other,
and `preserve_existing` leaves the marker where it is. -/
def Exposed (cur : String) (dest : Path) (fault : Fault) (t : Files.Tree Path) : Prop :=
  (t.ino (curPath cur)).isSome ∧ (t.ino dest).isSome ∧ t.barred (curPath cur) dest = false ∧
    Unpreserved dest fault t

variable {t : Files.Tree Path} {r : Except String Bool}

theorem Idle.refl : Idle cur fault t t := ⟨fun _ _ => rfl, .inl rfl, rfl⟩

/-- What a call finds is what the call before left, less a claim that has
vanished. -/
theorem Idle.seen (h : Idle cur fault t s.tree) : Idle cur fault t (s.seen cur fault).tree := by
  unfold Trial.seen
  split
  · rename_i hv
    refine ⟨fun q hq => ?_, .inr ⟨Files.Tree.ino_unlink_self, _, hv⟩, h.node⟩
    exact (Files.Tree.ino_unlink_of_ne hq).trans (h.ino q hq)
  · exact h

/-- A claim that is still there is the claim. -/
theorem Idle.claim_of_isSome {t' : Files.Tree Path} (h : Idle cur fault t t')
    (hs : (t'.ino (curPath cur)).isSome) : t'.ino (curPath cur) = t.ino (curPath cur) := by
  rcases h.claim with hc | ⟨hc, -⟩
  · exact hc
  · rw [hc] at hs; cases hs

theorem Idle.leads {t' : Files.Tree Path} (h : Idle cur fault t t') {q : Path}
    (hq : q ≠ curPath cur) : t'.leads q = t.leads q :=
  Files.Tree.leads_congr (h.ino q hq) fun i _ => by rw [h.node]

theorem Idle.barred {t' : Files.Tree Path} (h : Idle cur fault t t') {q : Path}
    (hs : (t'.ino (curPath cur)).isSome) (hq : q ≠ curPath cur) :
    t'.barred (curPath cur) q = t.barred (curPath cur) q :=
  Files.Tree.barred_congr (h.claim_of_isSome hs) (h.ino q hq) fun i _ => by rw [h.node]

/-- A claim gone from what a call finds was gone before, or vanishes with
the call. -/
theorem claim_of_seen (h : (s.seen cur fault).tree.ino (curPath cur) = none) :
    s.tree.ino (curPath cur) = none ∨ fault = .vanishes s.count := by
  unfold Trial.seen at h
  split at h
  · rename_i hv
    exact .inr hv
  · exact .inl h

theorem seen_of_vanishes (h : fault = .vanishes s.count) :
    (s.seen cur fault).tree.ino (curPath cur) = none := by
  rw [Trial.seen, if_pos h]
  exact Files.Tree.ino_unlink_self

/-- A claim gone stays gone. -/
theorem seen_of_gone (h : s.tree.ino (curPath cur) = none) :
    (s.seen cur fault).tree.ino (curPath cur) = none := by
  unfold Trial.seen
  split
  · exact Files.Tree.ino_unlink_self
  · exact h

theorem bakPath_ne (n : ℕ) : bakPath dest n ≠ dest := by
  intro h
  have hlen : (bakPath dest n).name.length = dest.name.length := by rw [h]
  simp only [bakPath, toString, String.length_append] at hlen
  have hdot : ".".length = 1 := rfl
  omega

/-- How `preserve_existing` comes to leave the marker: it has not seen it,
or not moved it. -/
inductive Left (cur : String) (dest : Path) (fault : Fault) (t : Files.Tree Path) (s : Trial) : Prop
  | unseen : s.count = 2 → (fault = .fails 1 ∨ t.leads dest = false) →
      (s.tree.ino (curPath cur) = none ↔ fault = .vanishes 1) → Left cur dest fault t s
  | unmoved : s.count = 3 → t.leads dest = true → fault = .fails 2 → Left cur dest fault t s

/-- What `preserve_existing` leaves, called second with claim and marker
there. -/
theorem preserveExisting_outcome {bak : Option Path} {m : Files.Ino}
    (h : Ends (trialStep C cur fault) (preserveExisting dest) s bak s') (hs : Idle cur fault t s.tree)
    (hc : s.count = 1) (hdir : dest.dir ≠ .cur) (hm : t.ino dest = some m)
    (hclaim : (s.tree.ino (curPath cur)).isSome)
    (hbak : ∀ n, s.world.fs.now ≤ n → t.ino (bakPath dest n) = none) :
    (bak = none ∧ Idle cur fault t s'.tree ∧ Left cur dest fault t s') ∨
      ∃ n u, bak = some (bakPath dest n) ∧ s.world.fs.now ≤ n ∧ s'.count = 3 ∧
        Idle cur fault t u ∧ s'.tree = u.move dest (bakPath dest n) ∧
        fault ≠ .fails 1 ∧ fault ≠ .fails 2 ∧ t.leads dest = true := by
  have hne : dest ≠ curPath cur := fun he => hdir (by rw [he])
  obtain ⟨r₁, s₁, h₁, h⟩ := h
  obtain ⟨hc₁, ht₁, hr₁⟩ := tryExists_trial h₁
  have hs₁ : Idle cur fault t s₁.tree := by rw [ht₁]; exact hs.seen
  rw [hs.seen.leads hne, hc] at hr₁
  by_cases hseen : fault = .fails 1 ∨ t.leads dest = false
  · -- the marker is not seen
    obtain rfl : r₁ = false := by
      rw [hr₁]
      rcases hseen with hf | hl
      · simp [hf]
      · rw [hl, Bool.and_false]
    obtain ⟨rfl, rfl⟩ := h
    refine .inl ⟨rfl, hs₁, .unseen (by omega) hseen ⟨fun hgone => ?_, fun hv => ?_⟩⟩
    · rw [ht₁] at hgone
      rcases claim_of_seen hgone with hn | hv
      · rw [hn] at hclaim; cases hclaim
      · rw [hv, hc]
    · rw [ht₁]
      exact seen_of_vanishes (by rw [hv, hc])
  obtain ⟨hf₁, hl⟩ := not_or.mp hseen
  have hl : t.leads dest = true := by simpa using hl
  obtain rfl : r₁ = true := by simp [hr₁, hf₁, hl]
  obtain ⟨n, s₂, h₂, r₃, s₃, h₃, h⟩ := h
  obtain ⟨hc₂, ht₂, hn⟩ := clock_trial h₂
  obtain ⟨hc₃, h₃⟩ := rename_trial h₃
  have hs₂ : Idle cur fault t (s₂.seen cur fault).tree := Idle.seen (by rw [ht₂]; exact hs₁)
  have hnow := (now_trial h₁).trans hn
  have hcount : s₂.count = 2 := by omega
  rcases h₃ with ⟨⟨e, rfl⟩, ht₃, hf⟩ | ⟨rfl, ht₃, hf₂, -, -⟩
  · obtain ⟨rfl, rfl⟩ := h
    refine .inl ⟨rfl, by rw [ht₃]; exact hs₂, .unmoved (by omega) hl ?_⟩
    rcases hf with hf | hf | hf
    · rw [hcount] at hf; exact hf
    · rw [hs₂.ino dest hne, hm] at hf; cases hf
    · -- nothing is at the `.bak` path, so nothing bars it
      have hfree : (s₂.seen cur fault).tree.ino (bakPath dest n) = none :=
        (hs₂.ino (bakPath dest n) fun he => hdir (congrArg Files.Path.dir he)).trans (hbak n hnow)
      rw [Files.Tree.barred_of_free hfree] at hf
      cases hf
  · obtain ⟨rfl, rfl⟩ := h
    rw [hcount] at hf₂
    exact .inr ⟨n, _, rfl, hnow, by omega, hs₂, ht₃, hf₁, hf₂, hl⟩

/-- What an archive comes to: exposed, the marker is clobbered; else
nothing happens, or the claim is installed. -/
def Outcome (cur : String) (dest : Path) (fault : Fault) (t : Files.Tree Path) (r : Except String Bool)
    (t' : Files.Tree Path) : Prop :=
  Exposed cur dest fault t ∧ r = .ok true ∧ Clobbers cur dest t t' ∨
    ¬ Exposed cur dest fault t ∧
      (r ≠ .ok true ∧ Idle cur fault t t' ∨ r = .ok true ∧ Installs cur dest t t')

/-- A rename of the claim over whatever is at the destination. -/
theorem claim_of_move {u : Files.Tree Path} (hu : Idle cur fault t u)
    (hc : (u.ino (curPath cur)).isSome) :
    ∃ c, t.ino (curPath cur) = some c ∧ (u.move (curPath cur) dest).ino dest = some c := by
  obtain ⟨c, hc'⟩ := Option.isSome_iff_exists.mp hc
  exact ⟨c, by rw [← hu.claim_of_isSome hc, hc'], Files.Tree.ino_move_to hc'⟩

/-- Where the marker has been left, the claim is renamed over it or
nothing happens. -/
theorem clobber_outcome {r : Except Errno Unit}
    (h : trialStep C cur fault (.fs (.rename (curPath cur) dest)) s r s')
    (hs : Idle cur fault t s.tree) (hdir : dest.dir ≠ .cur)
    (hc : (t.ino (curPath cur)).isSome) (hm : (t.ino dest).isSome)
    (hf₀ : fault ≠ .fails 0) (hv₀ : fault ≠ .vanishes 0) (hleft : Left cur dest fault t s) :
    r = .ok () ∧ Exposed cur dest fault t ∧ Clobbers cur dest t s'.tree ∨
      (∃ e, r = .error e) ∧ ¬ Exposed cur dest fault t ∧ Idle cur fault t s'.tree := by
  have hne : dest ≠ curPath cur := fun he => hdir (by rw [he])
  rcases (rename_trial h).2 with ⟨he, ht, hwhy⟩ | ⟨rfl, ht, hf, hsome, hbarred⟩
  · refine .inr ⟨he, ?_, by rw [ht]; exact hs.seen⟩
    rintro ⟨-, -, hx, hu⟩
    unfold Unpreserved at hu
    rcases hwhy with hf | hgone | hb
    · cases hleft with
      | unseen hcount hseen =>
        rw [hcount] at hf
        rcases hseen with hf₁ | hl
        · rw [hf] at hf₁; cases hf₁
        · rw [if_neg (by simp [hl])] at hu
          exact hu.2.1 hf
      | unmoved hcount _ hf₂ => rw [hcount, hf₂] at hf; cases hf
    · -- the claim has vanished, so no call fails
      obtain ⟨n, hn, hv⟩ : ∃ n ≤ 2, fault = .vanishes n := by
        cases hleft with
        | unseen hcount _ hgone' =>
          rcases claim_of_seen hgone with hg | hv
          · exact ⟨1, by omega, hgone'.mp hg⟩
          · exact ⟨2, le_refl _, by rw [hv, hcount]⟩
        | unmoved _ _ hf₂ =>
          rcases hs.seen.claim with hcl | ⟨-, n, hv⟩
          · rw [← hcl, hgone] at hc; cases hc
          · rw [hf₂] at hv; cases hv
      split at hu
      · rw [hv] at hu
        rcases hu with hu | hu <;> cases hu
      · exact hu.2.2 n hn hv
    · by_cases hsome : ((s.seen cur fault).tree.ino (curPath cur)).isSome
      · rw [hs.seen.barred hsome hne, hx] at hb
        cases hb
      · have hnone : (s.seen cur fault).tree.ino (curPath cur) = none := by simpa using hsome
        simp only [Files.Tree.barred, hnone, Option.any_none, Bool.false_eq_true] at hb
  · refine .inl ⟨rfl, ⟨hc, hm, ?_, ?_⟩, ?_, fun q hq hqd => ?_, ?_⟩
    · rw [← hs.seen.barred hsome hne]
      exact hbarred
    · unfold Unpreserved
      cases hleft with
      | unseen hcount hseen hgone =>
        split
        · rename_i hl
          rw [hl] at hseen
          exact .inl (hseen.resolve_right (by simp))
        · rw [hcount] at hf
          refine ⟨hf₀, hf, fun n hn hv => ?_⟩
          -- had it vanished, it would not have been renamed
          have hnone : (s.seen cur fault).tree.ino (curPath cur) = none := by
            obtain rfl | rfl | rfl : n = 0 ∨ n = 1 ∨ n = 2 := by omega
            · exact absurd hv hv₀
            · exact seen_of_gone (hgone.mpr hv)
            · exact seen_of_vanishes (by rw [hv, hcount])
          rw [hnone] at hsome
          cases hsome
      | unmoved _ hl hf₂ =>
        rw [if_pos hl]
        exact .inr hf₂
    · rw [ht]; exact claim_of_move hs.seen hsome
    · rw [ht, Files.Tree.ino_move_of_ne hq hqd, hs.seen.ino q hq]
    · rw [ht, Files.Tree.node_move, hs.seen.node]

/-- The marker `m` is aside, and the destination free. -/
structure Aside (cur : String) (dest : Path) (n m : ℕ) (fault : Fault) (t t' : Files.Tree Path) :
    Prop where
  bak : t'.ino (bakPath dest n) = some m
  free : t'.ino dest = none
  ino : ∀ q, q ≠ curPath cur → q ≠ dest → q ≠ bakPath dest n → t'.ino q = t.ino q
  claim : t'.ino (curPath cur) = t.ino (curPath cur) ∨
    t'.ino (curPath cur) = none ∧ ∃ k, fault = .vanishes k
  node : t'.node = t.node

variable {n : ℕ} {m : Files.Ino} {u : Files.Tree Path}

theorem Idle.aside (hu : Idle cur fault t u) (hdir : dest.dir ≠ .cur) (hm : t.ino dest = some m) :
    Aside cur dest n m fault t (u.move dest (bakPath dest n)) where
  bak := Files.Tree.ino_move_to ((hu.ino dest fun he => hdir (by rw [he])).trans hm)
  free := Files.Tree.ino_move_from (bakPath_ne n).symm
  ino q hq hqd hqb := (Files.Tree.ino_move_of_ne hqd hqb).trans (hu.ino q hq)
  claim := by
    have hne : curPath cur ≠ dest := fun he => hdir (by rw [← he])
    have hbne : curPath cur ≠ bakPath dest n := fun he => hdir (congrArg Files.Path.dir he).symm
    rw [Files.Tree.ino_move_of_ne hne hbne]
    exact hu.claim
  node := Files.Tree.node_move.trans hu.node

theorem Aside.seen (h : Aside cur dest n m fault t s.tree) (hdir : dest.dir ≠ .cur) :
    Aside cur dest n m fault t (s.seen cur fault).tree := by
  unfold Trial.seen
  split
  · rename_i hv
    have hne : ∀ {q : Path}, q.dir = dest.dir → q ≠ curPath cur := fun hq he =>
      hdir (hq.symm.trans (congrArg Files.Path.dir he))
    exact ⟨(Files.Tree.ino_unlink_of_ne (hne (q := bakPath dest n) rfl)).trans h.bak,
      (Files.Tree.ino_unlink_of_ne (hne rfl)).trans h.free,
      fun q hq hqd hqb => (Files.Tree.ino_unlink_of_ne hq).trans (h.ino q hq hqd hqb),
      .inr ⟨Files.Tree.ino_unlink_self, _, hv⟩, h.node⟩
  · exact h

/-- The marker goes back to the destination. -/
theorem Aside.restore {r : Except Errno Unit} (h : Aside cur dest n m fault t s.tree)
    (hs : trialStep C cur fault (.fs (.rename (bakPath dest n) dest)) s r s')
    (hdir : dest.dir ≠ .cur) (hm : t.ino dest = some m) (hbak : t.ino (bakPath dest n) = none)
    (hf : fault ≠ .fails s.count) : Idle cur fault t s'.tree := by
  have hs' := h.seen hdir
  have hne : curPath cur ≠ dest := fun he => hdir (by rw [← he])
  have hbne : curPath cur ≠ bakPath dest n := fun he => hdir (congrArg Files.Path.dir he).symm
  rcases (rename_trial hs).2 with ⟨-, -, he | he | he⟩ | ⟨-, ht, -, -⟩
  · exact absurd he hf
  · rw [hs'.bak] at he; cases he
  · rw [Files.Tree.barred_of_free hs'.free] at he; cases he
  · refine ⟨fun q hq => ?_, ?_, by rw [ht, Files.Tree.node_move, hs'.node]⟩
    · rw [ht]
      by_cases hqd : q = dest
      · subst hqd; rw [Files.Tree.ino_move_to hs'.bak, hm]
      · by_cases hqb : q = bakPath dest n
        · subst hqb; rw [Files.Tree.ino_move_from (bakPath_ne n), hbak]
        · rw [Files.Tree.ino_move_of_ne hqb hqd, hs'.ino q hq hqd hqb]
    · rw [ht, Files.Tree.ino_move_of_ne hbne hne]
      exact hs'.claim

/-- The claim goes to the destination that the marker has left. -/
theorem Aside.install (h : Aside cur dest n m fault t u) (hdir : dest.dir ≠ .cur)
    (hm : t.ino dest = some m) (hc : (u.ino (curPath cur)).isSome) :
    Installs cur dest t (u.move (curPath cur) dest) := by
  obtain ⟨c, hc'⟩ := Option.isSome_iff_exists.mp hc
  have hbne : bakPath dest n ≠ curPath cur := fun he => hdir (congrArg Files.Path.dir he)
  refine ⟨⟨c, ?_, Files.Tree.ino_move_to hc'⟩, fun m' hm' => ⟨n, ?_⟩, Files.Tree.node_move.trans h.node⟩
  · rcases h.claim with hcl | ⟨hcl, -⟩
    · rw [← hcl, hc']
    · rw [hcl] at hc; cases hc
  · rw [Files.Tree.ino_move_of_ne hbne (bakPath_ne n), h.bak, ← hm, hm']

theorem archiveOver_outcome {c m : Files.Ino}
    (h : Ends (trialStep C cur fault) (archiveOver cur dest) s r s')
    (hs : Idle cur fault t s.tree) (hcount : s.count = 1) (hdir : dest.dir ≠ .cur)
    (hc : t.ino (curPath cur) = some c) (hm : t.ino dest = some m)
    (hclaim : (s.tree.ino (curPath cur)).isSome) (hf₀ : fault ≠ .fails 0)
    (hv₀ : fault ≠ .vanishes 0)
    (hbak : ∀ n, s.world.fs.now ≤ n → t.ino (bakPath dest n) = none) :
    Outcome cur dest fault t r s'.tree := by
  have hne : dest ≠ curPath cur := fun he => hdir (by rw [he])
  have hcs : (t.ino (curPath cur)).isSome := by rw [hc]; rfl
  have hms : (t.ino dest).isSome := by rw [hm]; rfl
  obtain ⟨bak, s₁, hp, h⟩ := ends_bind.mp h
  rcases preserveExisting_outcome hp hs hcount hdir hm hclaim hbak with
    ⟨rfl, hs₁, hleft⟩ | ⟨n, u, rfl, hn, hc₁, hu, ht₁, hf₁, hf₂, hl⟩
  · -- the marker has not been moved aside
    obtain ⟨r₂, s₂, h₂, h⟩ := h
    rcases clobber_outcome h₂ hs₁ hdir hcs hms hf₀ hv₀ hleft with
      ⟨rfl, hexp, hcl⟩ | ⟨⟨e, rfl⟩, hexp, hidle⟩
    · obtain ⟨rfl, rfl⟩ := h
      exact .inl ⟨hexp, rfl, hcl⟩
    · obtain ⟨rfl, rfl⟩ := h
      exact .inr ⟨hexp, .inl ⟨nofun, hidle⟩⟩
  · have hexp : ¬ Exposed cur dest fault t := by
      rintro ⟨-, -, -, hu⟩
      rw [Unpreserved, if_pos hl] at hu
      exact hu.elim hf₁ hf₂
    have hs₁ : Aside cur dest n m fault t s₁.tree := by rw [ht₁]; exact hu.aside hdir hm
    obtain ⟨r₂, s₂, h₂, h⟩ := h
    obtain ⟨hc₂, h₂⟩ := rename_trial h₂
    rcases h₂ with ⟨⟨e, rfl⟩, ht₂, hwhy⟩ | ⟨rfl, ht₂, -, hsome, -⟩
    · -- the install has failed: the marker goes back
      obtain ⟨r₃, s₃, h₃, h⟩ := h
      obtain ⟨rfl, rfl⟩ := h
      have hs₂ : Aside cur dest n m fault t s₂.tree := by rw [ht₂]; exact hs₁.seen hdir
      refine .inr ⟨hexp, .inl ⟨nofun, hs₂.restore h₃ hdir hm (hbak n hn) ?_⟩⟩
      rcases hwhy with hf | hgone | hbarred
      · rw [hf]
        intro he
        have := Fault.fails.inj he
        omega
      · -- the claim has vanished, so no call fails
        rcases (hs₁.seen hdir).claim with hcl | ⟨-, k, hv⟩
        · rw [hcl, hc] at hgone; cases hgone
        · rw [hv]; exact nofun
      · rw [Files.Tree.barred_of_free (hs₁.seen hdir).free] at hbarred
        cases hbarred
    · obtain ⟨rfl, rfl⟩ := h
      refine .inr ⟨hexp, .inr ⟨rfl, ?_⟩⟩
      rw [ht₂]
      exact (hs₁.seen hdir).install hdir hm hsome

/-- **What `archive` comes to.** -/
theorem archive_outcome (h : Ends (trialStep C cur fault) (archive cur dest) s r s')
    (hcount : s.count = 0) (hdir : dest.dir ≠ .cur)
    (hbak : ∀ n, s.world.fs.now ≤ n → s.tree.ino (bakPath dest n) = none) :
    Outcome cur dest fault s.tree r s'.tree := by
  have hne : dest ≠ curPath cur := fun he => hdir (by rw [he])
  have hs : Idle cur fault s.tree (s.seen cur fault).tree := Idle.refl.seen
  have hexp : fault = .fails 0 ∨ fault = .vanishes 0 → ¬ Exposed cur dest fault s.tree := by
    rintro hf ⟨-, -, -, hu⟩
    unfold Unpreserved at hu
    split at hu
    · rcases hf with hf | hf <;> rw [hf] at hu <;> rcases hu with he | he <;> cases he
    · rcases hf with hf | hf
      · exact hu.1 hf
      · exact hu.2.2 0 (by omega) hf
  obtain ⟨r₁, s₁, h₁, h⟩ := h
  have hnow := now_trial h₁
  obtain ⟨hc₁, h₁⟩ := renameNoClobber_trial h₁
  rcases h₁ with
    ⟨rfl, ht₁, hf⟩ | ⟨hf₀, ⟨rfl, ht₁, hgone⟩ | ⟨rfl, ht₁, hc, hd⟩ | ⟨rfl, ht₁, hc, hd⟩⟩
  · obtain ⟨rfl, rfl⟩ := h
    rw [hcount] at hf
    exact .inr ⟨hexp (.inl hf), .inl ⟨nofun, by rw [ht₁]; exact hs⟩⟩
  · obtain ⟨rfl, rfl⟩ := h
    refine .inr ⟨fun hx => ?_, .inl ⟨nofun, by rw [ht₁]; exact hs⟩⟩
    -- a claim that was there has vanished
    rcases claim_of_seen hgone with hn | hv
    · have hstands := hx.1
      rw [hn] at hstands
      cases hstands
    · rw [hcount] at hv
      exact hexp (.inr hv) hx
  · have hcl := hs.claim_of_isSome hc
    obtain ⟨c, hc⟩ := Option.isSome_iff_exists.mp hc
    obtain ⟨m, hm⟩ := Option.isSome_iff_exists.mp hd
    have hv₀ : fault ≠ .vanishes 0 := by
      intro hv
      rw [seen_of_vanishes (by rw [hv, hcount])] at hc
      cases hc
    refine archiveOver_outcome h (by rw [ht₁]; exact hs) (by omega) hdir (hcl.symm.trans hc)
      ((hs.ino dest hne).symm.trans hm) (by rw [ht₁, hc]; rfl) (by rwa [hcount] at hf₀) hv₀
      fun n hn => hbak n (hnow.trans hn)
  · obtain ⟨rfl, rfl⟩ := h
    have hfree : s.tree.ino dest = none := (hs.ino dest hne).symm.trans hd
    refine .inr ⟨fun hx => ?_, .inr ⟨rfl, ?_⟩⟩
    · have hstands := hx.2.1
      rw [hfree] at hstands
      cases hstands
    rw [ht₁]
    refine ⟨claim_of_move hs hc, fun m hm => ?_, Files.Tree.node_move.trans hs.node⟩
    rw [hfree] at hm
    cases hm

/-! ## What a finalize must keep -/

/-- The claim of `t` is at the destination in `t'`. -/
def Installed (cur : String) (dest : Path) (t t' : Files.Tree Path) : Prop :=
  ∃ c, t.ino (curPath cur) = some c ∧ t'.ino dest = some c

/-- The claim of `t` is at another path in `t'`. -/
def Moved (cur : String) (t t' : Files.Tree Path) : Prop :=
  ∃ c q, t.ino (curPath cur) = some c ∧ q ≠ curPath cur ∧ t'.ino q = some c

/-- The file of `t'` at `q` has these bytes. -/
def Holds (t : Files.Tree Path) (q : Path) (data : Files.Bytes) : Prop :=
  ∃ j, t.ino q = some j ∧ (t.node j).data = data

/-- What a finalize from `t` to `t'` owes the archive. -/
structure Keeps (cur : String) (dest : Path) (t t' : Files.Tree Path) : Prop where
  /-- A marker stands if one stood or the claim has moved. -/
  marker : (t.ino dest).isSome ∨ Moved cur t t' → (t'.ino dest).isSome
  /-- A claim installed has its bytes. -/
  bytes : ∀ c, t.ino (curPath cur) = some c → t'.ino dest = some c →
    (t'.node c).data = (t.node c).data
  /-- The old marker's bytes are there, or under a `.bak` name. -/
  old : ∀ m, t.ino dest = some m →
    Holds t' dest (t.node m).data ∨ ∃ n, Holds t' (bakPath dest n) (t.node m).data
  /-- The old marker's time is changed by no finalize but one that
  installs its claim over it. -/
  mtime : ∀ m, t.ino dest = some m → ¬ Installed cur dest t t' →
    (t'.node m).mtime = (t.node m).mtime

/-- A marker clobbered leaves its bytes behind: they are the claim's too,
or stand under a `.bak` name already. -/
def Duplicated (cur : String) (dest : Path) (t : Files.Tree Path) : Prop :=
  ∀ m, t.ino dest = some m →
    Holds t (curPath cur) (t.node m).data ∨ ∃ n, Holds t (bakPath dest n) (t.node m).data

/-- A stamp of the destination has followed, if the claim was installed. -/
structure Stamped (r : Except String Bool) (t t' : Files.Tree Path) : Prop where
  ino : ∀ q, t'.ino q = t.ino q
  data : ∀ i, (t'.node i).data = (t.node i).data
  node : r ≠ .ok true → t'.node = t.node

theorem Idle.keeps {t' : Files.Tree Path} (h : Idle cur fault t u) (hs : Stamped r u t')
    (hr : r ≠ .ok true) (hdir : dest.dir ≠ .cur) : Keeps cur dest t t' := by
  have hne : dest ≠ curPath cur := fun he => hdir (by rw [he])
  have hino : ∀ q, q ≠ curPath cur → t'.ino q = t.ino q := fun q hq => (hs.ino q).trans (h.ino q hq)
  have hnode : t'.node = t.node := (hs.node hr).trans h.node
  have hmoved : ¬ Moved cur t t' := by
    rintro ⟨c, q, hc, hq, hq'⟩
    rw [hino q hq] at hq'
    exact hq (Files.Tree.path_unique hq' hc)
  refine ⟨fun hm => ?_, fun c _ _ => by rw [hnode], fun m hm => ?_, fun m _ _ => by rw [hnode]⟩
  · rw [hino dest hne]
    exact hm.resolve_right hmoved
  · exact .inl ⟨m, by rw [hino dest hne, hm], by rw [hnode]⟩

theorem Installs.keeps {t' : Files.Tree Path} (h : Installs cur dest t u) (hs : Stamped r u t') :
    Keeps cur dest t t' := by
  obtain ⟨c, hc, hd⟩ := h.claim
  have hd : t'.ino dest = some c := (hs.ino dest).trans hd
  refine ⟨fun _ => by rw [hd]; rfl, fun c' _ _ => ?_, fun m hm => .inr ?_,
    fun m _ hno => absurd ⟨c, hc, hd⟩ hno⟩
  · rw [hs.data, h.node]
  · obtain ⟨n, hn⟩ := h.aside m hm
    exact ⟨n, m, (hs.ino _).trans hn, by rw [hs.data, h.node]⟩

/-- A marker clobbered is kept only where its bytes are elsewhere. -/
theorem Clobbers.keeps_iff {t' : Files.Tree Path} (h : Clobbers cur dest t u) (hs : Stamped r u t')
    (hdir : dest.dir ≠ .cur) : Keeps cur dest t t' ↔ Duplicated cur dest t := by
  obtain ⟨c, hc, hd⟩ := h.claim
  have hd : t'.ino dest = some c := (hs.ino dest).trans hd
  have hdata : ∀ i, (t'.node i).data = (t.node i).data := fun i => by rw [hs.data, h.node]
  have hbak : ∀ n, t'.ino (bakPath dest n) = t.ino (bakPath dest n) := fun n =>
    (hs.ino _).trans (h.ino _ (fun he => hdir (congrArg Files.Path.dir he)) (bakPath_ne n))
  have hholds : ∀ n data, Holds t' (bakPath dest n) data ↔ Holds t (bakPath dest n) data := by
    intro n data
    unfold Holds
    simp only [hbak, hdata]
  have hdest : ∀ data, Holds t' dest data ↔ Holds t (curPath cur) data := by
    intro data
    unfold Holds
    simp only [hd, hc, hdata]
  constructor
  · intro hk m hm
    simpa only [hholds, hdest] using hk.old m hm
  · intro hdup
    refine ⟨fun _ => by rw [hd]; rfl, fun c' _ _ => hdata c', fun m hm => ?_,
      fun m _ hno => absurd ⟨c, hc, hd⟩ hno⟩
    simpa only [hholds, hdest] using hdup m hm

/-- **Kept, unless a marker exposed is clobbered.** -/
theorem Outcome.keeps_iff {t' : Files.Tree Path} (h : Outcome cur dest fault t r u)
    (hs : Stamped r u t') (hdir : dest.dir ≠ .cur) :
    Keeps cur dest t t' ↔ (Exposed cur dest fault t → Duplicated cur dest t) := by
  rcases h with ⟨hx, -, hcl⟩ | ⟨hx, ⟨hr, hidle⟩ | ⟨-, hin⟩⟩
  · rw [hcl.keeps_iff hs hdir]
    exact ⟨fun h _ => h, fun h => h hx⟩
  · exact iff_of_true (hidle.keeps hs hr hdir) fun h => absurd h hx
  · exact iff_of_true (hin.keeps hs) fun h => absurd h hx

/-! ## The finalizes -/

/-- A call outside the files. -/
theorem host_trial {o : Op} {r : Resp o} (ho : ∀ o', o ≠ .fs o')
    (h : trialStep C cur fault o s r s') : s'.count = s.count ∧ s'.tree = s.tree := by
  obtain ⟨q, elapsed, hs, hc, -⟩ := h
  have harch : isArchiveCall o = false := by
    cases o with
    | fs o' => exact absurd rfl (ho o')
    | _ => rfl
  refine ⟨by simpa [harch] using hc, ?_⟩
  rw [Trial.tree, fs_of_step hs ho, Trial.meets]
  simp [harch, Env.step]

/-- A call of a stamp. -/
theorem stamp_trial {o : Op} {r : Resp o} (ho : o.stamps) (h : trialStep C cur fault o s r s') :
    (∀ q, s'.tree.ino q = s.tree.ino q) ∧
      ∀ i, (s'.tree.node i).data = (s.tree.node i).data := by
  obtain ⟨q, elapsed, hs, -, -⟩ := h
  cases o with
  | fs o =>
    obtain ⟨w, hs, hw⟩ := step_fs hs
    have htree : s'.tree = w.tree := by rw [Trial.tree, hw]
    rw [htree]
    cases o with
    | setModified i time =>
      simp only [Files.step] at hs
      split at hs
      · cases hs
        exact ⟨fun _ => rfl, fun _ => rfl⟩
      · cases hs
        refine ⟨fun _ => rfl, fun j => ?_⟩
        by_cases hj : j = i
        · subst hj; simp; rfl
        · rw [Files.State.tree_stamp, Files.Tree.node_setNode_of_ne hj]; rfl
    | openRead | fstat | now => cases hs; exact ⟨fun _ => rfl, fun _ => rfl⟩
    | _ => exact ho.elim
  | _ => exact ho.elim

theorem stampInstalled_trial (h : Ends (trialStep C cur fault) (stampInstalled dest r) s () s') :
    Stamped r s.tree s'.tree := by
  have hsame : (∀ q, s'.tree.ino q = s.tree.ino q) ∧
      ∀ i, (s'.tree.node i).data = (s.tree.node i).data := by
    refine h.only (stampInstalled_only dest r) (B := fun s₁ : Trial =>
      (∀ q, s₁.tree.ino q = s.tree.ino q) ∧ ∀ i, (s₁.tree.node i).data = (s.tree.node i).data)
      (fun o r s₁ s₂ ho hs hB => ?_) ⟨fun _ => rfl, fun _ => rfl⟩
    obtain ⟨hino, hdata⟩ := stamp_trial ho hs
    exact ⟨fun q => (hino q).trans (hB.1 q), fun i => (hdata i).trans (hB.2 i)⟩
  refine ⟨hsame.1, hsame.2, fun hr => ?_⟩
  unfold stampInstalled at h
  split at h
  · exact absurd rfl hr
  · rw [(ends_ret.mp h).2]

/-- No `.bak` of the destination bears a time from now on. -/
def Unused (dest : Path) (w : World) : Prop :=
  ∀ n, w.fs.now ≤ n → w.fs.tree.ino (bakPath dest n) = none

theorem archiveAndStamp_keeps_iff {context : String} {r : Except String Unit}
    (h : Ends (trialStep C cur fault) (archiveAndStamp context cur dest) s r s')
    (hcount : s.count = 0) (hdir : dest.dir ≠ .cur) (hbak : Unused dest s.world) :
    Keeps cur dest s.tree s'.tree ↔
      (Exposed cur dest fault s.tree → Duplicated cur dest s.tree) := by
  obtain ⟨installed, s₁, ha, h⟩ := ends_bind.mp h
  obtain ⟨_, s₂, hst, h⟩ := ends_bind.mp h
  obtain ⟨_, s₃, hu, h⟩ := h
  obtain ⟨-, rfl⟩ := h
  have hout := archive_outcome ha hcount hdir hbak
  rw [(host_trial (by simp) hu).2]
  exact hout.keeps_iff (stampInstalled_trial hst) hdir

/-- Where the two trees agree on the claim, the destination and what has
been moved aside from it. -/
structure Agree (cur : String) (dest : Path) (t t' : Files.Tree Path) : Prop where
  ino : ∀ q, q = curPath cur ∨ q = dest ∨ (∃ n, q = bakPath dest n) → t'.ino q = t.ino q
  node : ∀ q i, q = curPath cur ∨ q = dest ∨ (∃ n, q = bakPath dest n) → t.ino q = some i →
    t'.node i = t.node i

namespace Agree

variable {t' : Files.Tree Path}

theorem symm (h : Agree cur dest t u) : Agree cur dest u t where
  ino q hq := (h.ino q hq).symm
  node q i hq hi := (h.node q i hq ((h.ino q hq).symm.trans hi)).symm

theorem holds (h : Agree cur dest t u) {q : Path} {data : Files.Bytes}
    (hq : q = curPath cur ∨ q = dest ∨ ∃ n, q = bakPath dest n) (hh : Holds t q data) :
    Holds u q data := by
  obtain ⟨j, hj, hd⟩ := hh
  exact ⟨j, (h.ino q hq).trans hj, by rw [h.node q j hq hj, hd]⟩

theorem keeps (h : Agree cur dest t u) (hk : Keeps cur dest u t') : Keeps cur dest t t' := by
  have hc : u.ino (curPath cur) = t.ino (curPath cur) := h.ino _ (.inl rfl)
  have hd : u.ino dest = t.ino dest := h.ino _ (.inr (.inl rfl))
  have hdn : ∀ m, t.ino dest = some m → u.node m = t.node m := fun m => h.node _ m (.inr (.inl rfl))
  refine ⟨?_, fun c hc' hin => ?_, fun m hm => ?_, fun m hm hno => ?_⟩
  · have hmarker := hk.marker
    rwa [Moved, hc, hd] at hmarker
  · rw [hk.bytes c (hc.trans hc') hin, h.node _ c (.inl rfl) hc']
  · rw [← hdn m hm]
    exact hk.old m (hd.trans hm)
  · rw [hk.mtime m (hd.trans hm) (by rwa [Installed, hc]), hdn m hm]

theorem exposed (h : Agree cur dest t u) (hx : Exposed cur dest fault t) :
    Exposed cur dest fault u := by
  have hleads : u.leads dest = t.leads dest :=
    Files.Tree.leads_congr (h.ino _ (.inr (.inl rfl))) fun i hi => by
      rw [h.node _ i (.inr (.inl rfl)) hi]
  have hbarred : u.barred (curPath cur) dest = t.barred (curPath cur) dest :=
    Files.Tree.barred_congr (h.ino _ (.inl rfl)) (h.ino _ (.inr (.inl rfl))) fun i hi =>
      hi.elim (h.node _ i (.inl rfl)) (h.node _ i (.inr (.inl rfl)))
  unfold Exposed Unpreserved at hx ⊢
  rwa [h.ino _ (.inl rfl), h.ino _ (.inr (.inl rfl)), hleads, hbarred]

theorem duplicated (h : Agree cur dest t u) (hx : Duplicated cur dest t) :
    Duplicated cur dest u := by
  intro m hm
  have hm : t.ino dest = some m := (h.ino _ (.inr (.inl rfl))).symm.trans hm
  rw [h.node _ m (.inr (.inl rfl)) hm]
  rcases hx m hm with hh | ⟨n, hh⟩
  · exact .inl (h.holds (.inl rfl) hh)
  · exact .inr ⟨n, h.holds (.inr (.inr ⟨n, rfl⟩)) hh⟩

end Agree

/-- The sidecar of an error is no `.bak`. -/
theorem errPath_ne_bakPath (n : ℕ) :
    (⟨.error, cur ++ ".err"⟩ : Path) ≠ bakPath ⟨.error, cur⟩ n := by
  intro h
  have hname : cur ++ ".err" = cur ++ s!".{n / 1000000}.bak" := by
    simpa [bakPath, toString, String.append_assoc] using congrArg Files.Path.name h
  have hlast := congrArg (fun s => s.toList.reverse.head?) hname
  simp [toString, String.toList_append] at hlast

/-- Writing the sidecar leaves claim and markers alone. -/
theorem agree_of_sidecar {reason : Files.Bytes} {r : Except Errno Unit}
    (h : trialStep C cur fault (.fs (.write ⟨.error, cur ++ ".err"⟩ reason)) s r s') :
    s'.count = s.count ∧ Agree cur ⟨.error, cur⟩ s.tree s'.tree := by
  obtain ⟨q, elapsed, hs, hc, -⟩ := h
  refine ⟨hc, ?_⟩
  obtain ⟨w, hs, hw⟩ := step_fs hs
  have htree : s'.tree = w.tree := by rw [Trial.tree, hw]
  rw [htree]
  have hne : ∀ q : Path, q = curPath cur ∨ q = ⟨.error, cur⟩ ∨
      (∃ n, q = bakPath ⟨.error, cur⟩ n) → q ≠ ⟨.error, cur ++ ".err"⟩ := by
    rintro q (rfl | rfl | ⟨n, rfl⟩) he
    · cases he
    · have hlen := congrArg (fun p => p.name.length) he
      simp at hlen
    · exact errPath_ne_bakPath n he.symm
  have hpaths : ∀ q : Path, q ≠ ⟨.error, cur ++ ".err"⟩ →
      q ∉ (Files.Op.write ⟨.error, cur ++ ".err"⟩ reason : Files.Op Dir String).paths := fun q hq =>
    fun hmem => hq (List.mem_singleton.mp hmem)
  refine ⟨fun q hq => ?_, fun q i hq hi => ?_⟩
  · have hino := Files.ino_of_step hs (hpaths q (hne q hq))
    exact hino
  have hnode := Files.node_of_write hs (d := q) (i := i) hi (hne q hq)
  exact hnode

theorem finalizeDone_keeps_iff {w : World} {r : Except String Unit}
    (h : Ends (trialStep C cur fault) (finalizeDone cur) ⟨w, 0⟩ r s')
    (hbak : Unused ⟨.done, cur⟩ w) :
    Keeps cur ⟨.done, cur⟩ w.fs.tree s'.tree ↔
      (Exposed cur ⟨.done, cur⟩ fault w.fs.tree → Duplicated cur ⟨.done, cur⟩ w.fs.tree) := by
  obtain ⟨_, s₁, hl, h⟩ := h
  have hnow := now_trial hl
  obtain ⟨hc, ht⟩ := host_trial (by simp) hl
  have ht : s₁.tree = w.fs.tree := ht
  rw [← ht]
  refine archiveAndStamp_keeps_iff h hc (by simp) fun n hn => ?_
  show s₁.tree.ino _ = none
  rw [ht]
  exact hbak n (hnow.trans hn)

theorem finalizeError_keeps_iff {w : World} {reason : String} {r : Except String Unit}
    (h : Ends (trialStep C cur fault) (finalizeError cur reason) ⟨w, 0⟩ r s')
    (hbak : Unused ⟨.error, cur⟩ w) :
    Keeps cur ⟨.error, cur⟩ w.fs.tree s'.tree ↔
      (Exposed cur ⟨.error, cur⟩ fault w.fs.tree → Duplicated cur ⟨.error, cur⟩ w.fs.tree) := by
  obtain ⟨_, s₁, hl, _, s₂, he, h⟩ := h
  have hnow := (now_trial hl).trans (now_trial he)
  obtain ⟨hc, ht⟩ := host_trial (by simp) hl
  have ht : s₁.tree = w.fs.tree := ht
  obtain ⟨hc₂, hagree⟩ := agree_of_sidecar he
  rw [ht] at hagree
  have hiff := archiveAndStamp_keeps_iff h (hc₂.trans hc) (by simp) fun n hn =>
    (hagree.ino _ (.inr (.inr ⟨n, rfl⟩))).trans (hbak n (hnow.trans hn))
  exact ⟨fun hk hx => hagree.symm.duplicated (hiff.mp (hagree.symm.keeps hk) (hagree.exposed hx)),
    fun hi => hagree.keeps (hiff.mpr fun hx => hagree.duplicated (hi (hagree.symm.exposed hx)))⟩

/-- **A finalize keeps the archive, unless `preserve_existing` fails.**
Whatever stands at the claim's path and at the destination, and whichever
archive call fails or finds the claim gone, a finalize that returns has
kept the marker, the bytes and the time it must, if and only if it is not
the case that claim and marker both stood, the one could be renamed over
the other, `preserve_existing` left the marker where it was, and the
marker's bytes stood nowhere else. -/
theorem finalize_keeps_iff {w : World} {r : Except String Unit} (reason : String) :
    (Unused ⟨.done, cur⟩ w → Ends (trialStep C cur fault) (finalizeDone cur) ⟨w, 0⟩ r s' →
      (Keeps cur ⟨.done, cur⟩ w.fs.tree s'.tree ↔
        (Exposed cur ⟨.done, cur⟩ fault w.fs.tree →
          Duplicated cur ⟨.done, cur⟩ w.fs.tree))) ∧
    (Unused ⟨.error, cur⟩ w →
      Ends (trialStep C cur fault) (finalizeError cur reason) ⟨w, 0⟩ r s' →
      (Keeps cur ⟨.error, cur⟩ w.fs.tree s'.tree ↔
        (Exposed cur ⟨.error, cur⟩ fault w.fs.tree →
          Duplicated cur ⟨.error, cur⟩ w.fs.tree))) :=
  ⟨fun hbak h => finalizeDone_keeps_iff h hbak, fun hbak h => finalizeError_keeps_iff h hbak⟩

/-! ## A marker lost -/

/-- The answers of a host where nothing else fails. -/
def trialExec (cur : String) (fault : Fault) (o : Op) (s : Trial) : Option (Resp o × Trial) :=
  let q : Oracle o := match o with
    | .fs o' => ⟨isArchiveCall (.fs o') && decide (fault = .fails s.count), 0, none⟩
    | .sched _ => ({} : Answers).sched
    | .lima _ => ({} : Answers).lima
    | .hub _ => ({} : Answers).hub
  (step sampleCodec 0 o q (s.meets cur fault o 0)).map fun x =>
    (x.1, ⟨x.2, if isArchiveCall o then s.count + 1 else s.count⟩)

theorem trialStep_of_exec (cur : String) (fault : Fault) (o : Op) (s : Trial) (r : Resp o)
    (s' : Trial) (h : trialExec cur fault o s = some (r, s')) :
    trialStep sampleCodec cur fault o s r s' := by
  obtain ⟨⟨r', w⟩, hs, heq⟩ := Option.map_eq_some_iff.mp h
  cases heq
  refine ⟨_, 0, hs, rfl, fun ho => ?_⟩
  cases o with
  | fs o => simp [oracleFails, ho]
  | _ => cases ho

/-- A job's claim, of byte 1, and a marker of it, of byte 0. -/
def twiceWorld (dir : Dir) : World :=
  .sample [(curPath "42.job", ⟨.regular, [1], 5⟩), (⟨dir, "42.job"⟩, ⟨.regular, [0], 4⟩)] 9

theorem twiceWorld_ino {dir : Dir} (hdir : dir ≠ .cur) (n : ℕ) :
    (twiceWorld dir).fs.tree.ino (bakPath ⟨dir, "42.job"⟩ n) = none := by
  have hcur : bakPath ⟨dir, "42.job"⟩ n ≠ curPath "42.job" := fun h =>
    hdir (congrArg Files.Path.dir h)
  rw [show (twiceWorld dir).fs.tree = (Files.Tree.empty.create (curPath "42.job")
    ⟨.regular, [1], 5⟩).create ⟨dir, "42.job"⟩ ⟨.regular, [0], 4⟩ from rfl,
    Files.Tree.ino_create_of_ne (bakPath_ne n), Files.Tree.ino_create_of_ne hcur]
  rfl

/-- With no fault both finalizes keep claim and marker. -/
theorem finalize_keeps_twice :
    (∃ r s', Ends (trialStep sampleCodec "42.job" .none) (finalizeDone "42.job")
        ⟨twiceWorld .done, 0⟩ r s' ∧
      Keeps "42.job" ⟨.done, "42.job"⟩ (twiceWorld .done).fs.tree s'.tree) ∧
    ∃ r s', Ends (trialStep sampleCodec "42.job" .none) (finalizeError "42.job" "late")
        ⟨twiceWorld .error, 0⟩ r s' ∧
      Keeps "42.job" ⟨.error, "42.job"⟩ (twiceWorld .error).fs.tree s'.tree := by
  -- the markers are seen
  have hno : ∀ {d : Path} {t : Files.Tree Path}, t.leads d = true →
      ¬ Exposed "42.job" d .none t := by
    rintro d t hl ⟨-, -, -, hu⟩
    rw [Unpreserved, if_pos hl] at hu
    rcases hu with he | he <;> cases he
  constructor
  · have h : (run (trialExec "42.job" .none) (finalizeDone "42.job")
        ⟨twiceWorld .done, 0⟩).isSome := by decide
    obtain ⟨⟨r, s'⟩, h⟩ := Option.isSome_iff_exists.mp h
    have hends := ends_of_run (trialStep_of_exec _ _) h
    exact ⟨r, s', hends, ((finalize_keeps_iff "late").1
      (fun n _ => twiceWorld_ino (by decide) n) hends).mpr
        fun hx => absurd hx (hno (by decide))⟩
  · have h : (run (trialExec "42.job" .none) (finalizeError "42.job" "late")
        ⟨twiceWorld .error, 0⟩).isSome := by decide
    obtain ⟨⟨r, s'⟩, h⟩ := Option.isSome_iff_exists.mp h
    have hends := ends_of_run (trialStep_of_exec _ _) h
    exact ⟨r, s', hends, ((finalize_keeps_iff _).2
      (fun n _ => twiceWorld_ino (by decide) n) hends).mpr
        fun hx => absurd hx (hno (by decide))⟩

/-- **A marker can be lost**: where the look at it fails, the claim is
renamed over it. -/
theorem look_fails_marker_lost :
    ∃ r s', Unused ⟨.done, "42.job"⟩ (twiceWorld .done) ∧
      Ends (trialStep sampleCodec "42.job" (.fails 1)) (finalizeDone "42.job")
        ⟨twiceWorld .done, 0⟩ r s' ∧
      ¬ Keeps "42.job" ⟨.done, "42.job"⟩ (twiceWorld .done).fs.tree s'.tree := by
  have h : (run (trialExec "42.job" (.fails 1)) (finalizeDone "42.job")
      ⟨twiceWorld .done, 0⟩).isSome := by decide
  obtain ⟨⟨r, s'⟩, h⟩ := Option.isSome_iff_exists.mp h
  have hends := ends_of_run (trialStep_of_exec _ _) h
  have hfree : ∀ n, (twiceWorld .done).fs.tree.ino (bakPath ⟨.done, "42.job"⟩ n) = none :=
    twiceWorld_ino (by decide)
  refine ⟨r, s', fun n _ => hfree n, hends, fun hk => ?_⟩
  have hdup := (finalizeDone_keeps_iff hends fun n _ => hfree n).mp hk
    ⟨by decide, by decide, by decide, .inl rfl⟩ 1 rfl
  rcases hdup with ⟨j, hj, hdata⟩ | ⟨n, j, hj, -⟩
  · cases hj
    cases hdata
  · rw [hfree] at hj
    cases hj

end Archive

end GhaConsumer
