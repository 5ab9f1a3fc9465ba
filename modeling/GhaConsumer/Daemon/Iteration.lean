import GhaConsumer.Control.Listing
import GhaConsumer.Daemon.Shape
import GhaConsumer.Host.Looking
import GhaConsumer.Spool.Sidecar

/-!
# The daemon — one turn of the dispatch loop

What one turn does to the spool, from the name the watcher sends to the
entry's end, with files at rest and nothing failing. Claim and finalize
each move one file and leave the others (`Moves`); which of them a turn
makes is a matter of what `prepare` returns, and so every entry is kept:
it goes to one place, or was not there to go (`iteration_conserves`).
-/

namespace GhaConsumer

namespace Daemon

open Interleave Alone

variable {C : Codec} {cfg : Config} {ok : (o : Op) → Oracle o → Prop} {w w₁ w' : World}
variable {name cur : String} {p p' q dest : Path} {side : List Path}

/-! ## Files left alone -/

/-- The file at a path, with its time. -/
def entry (w : World) (p : Path) : Option Files.Node :=
  (w.fs.tree.ino p).map w.fs.tree.node

/-- What stood at a path stands there as it was. -/
def Kept (w w' : World) (p : Path) : Prop :=
  w'.fs.tree.ino p = w.fs.tree.ino p ∧ entry w' p = entry w p

theorem Kept.trans (h : Kept w w₁ p) (h' : Kept w₁ w' p) : Kept w w' p :=
  ⟨h'.1.trans h.1, h'.2.trans h.2⟩

theorem kept_of_tree (h : w'.fs.tree = w.fs.tree) : Kept w w' p := by
  unfold Kept entry
  rw [h]
  exact ⟨rfl, rfl⟩

theorem Kept.contents (h : Kept w w' p) : w'.contents p = w.contents p := by
  have hof : ∀ u : World, u.contents p = (entry u p).map fun n => (n.kind, n.data) := by
    intro u
    unfold World.contents entry
    rw [Option.map_map]
    rfl
  rw [hof, hof, h.2]

theorem kept_of_absent (h : w.fs.tree.ino p = none) (h' : w'.fs.tree.ino p = none) :
    Kept w w' p := by
  unfold Kept entry
  rw [h, h']
  exact ⟨rfl, rfl⟩

/-- A file with the contents of a regular file is one. -/
theorem regular_of_contents (h : w'.contents p = w.contents p)
    (hreg : ∀ i, w.fs.tree.ino p = some i → (w.fs.tree.node i).kind = .regular) :
    ∀ i, w'.fs.tree.ino p = some i → (w'.fs.tree.node i).kind = .regular := by
  intro i hi
  unfold World.contents at h
  rw [hi, Option.map_some] at h
  obtain ⟨j, hj, heq⟩ := Option.map_eq_some_iff.mp h.symm
  exact (congrArg Prod.fst heq).symm.trans (hreg j hj)

/-- The file at `p` has moved to `p'`, with its bytes, and all else but
the files at `side` is as it was. -/
structure Moves (p p' : Path) (side : List Path) (w w' : World) : Prop where
  ino : w'.fs.tree.ino p' = w.fs.tree.ino p
  contents : w'.contents p' = w.contents p
  gone : w'.fs.tree.ino p = none
  others : ∀ q, q ≠ p → q ≠ p' → q ∉ side → Kept w w' q

theorem Moves.tree (h : Moves p p' side w w₁) (ht : w'.fs.tree = w₁.fs.tree) :
    Moves p p' side w w' where
  ino := (kept_of_tree ht).1.trans h.ino
  contents := (kept_of_tree ht).contents.trans h.contents
  gone := (kept_of_tree ht).1.trans h.gone
  others q hq hq' hs := (h.others q hq hq' hs).trans (kept_of_tree ht)

/-- What came before may have changed the files at `side`. -/
theorem Moves.after (h : Moves p p' [] w₁ w') (hk : ∀ q, q ∉ side → Kept w w₁ q)
    (hp : p ∉ side) : Moves p p' side w w' where
  ino := h.ino.trans (hk p hp).1
  contents := h.contents.trans (hk p hp).contents
  gone := h.gone
  others q hq hq' hs := (hk q hs).trans (h.others q hq hq' (List.not_mem_nil))

/-- A file moved twice has moved, where nothing stood half way. -/
theorem Moves.trans {p'' : Path} (h : Moves p p' [] w w₁) (h' : Moves p' p'' side w₁ w')
    (hp' : w.fs.tree.ino p' = none) (hne : p ≠ p') (hne' : p ≠ p'') (hs : p ∉ side) :
    Moves p p'' side w w' where
  ino := h'.ino.trans h.ino
  contents := h'.contents.trans h.contents
  gone := (h'.others p hne hne' hs).1.trans h.gone
  others q hq hq'' hqs := by
    by_cases hq' : q = p'
    · subst hq'
      exact kept_of_absent hp' h'.gone
    · exact (h.others q hq hq' (List.not_mem_nil)).trans (h'.others q hq' hq'' hqs)

theorem moves_move (hp : (w.fs.tree.ino p).isSome) (hne : p ≠ p')
    (h : w'.fs.tree = w.fs.tree.move p p') : Moves p p' [] w w' := by
  obtain ⟨i, hi⟩ := Option.isSome_iff_exists.mp hp
  have hto : w'.fs.tree.ino p' = w.fs.tree.ino p := by
    rw [h, Files.Tree.ino_move_to hi, hi]
  have hnode : w'.fs.tree.node = w.fs.tree.node := by rw [h, Files.Tree.node_move]
  refine ⟨hto, ?_, by rw [h, Files.Tree.ino_move_from hne], fun q hq hq' _ => ?_⟩
  · unfold World.contents
    rw [hto, hnode]
  · have hsame : w'.fs.tree.ino q = w.fs.tree.ino q := by
      rw [h, Files.Tree.ino_move_of_ne hq hq']
    refine ⟨hsame, ?_⟩
    unfold entry
    rw [hsame, hnode]

/-- A stamp changes the time of the file it names. -/
theorem stamp_keeps (h : Ends (hostStep C ok) (stampMtimeNow p) w () w') (hq : q ≠ p) :
    Kept w w' q := by
  obtain ⟨r₁, w₁, h₁, h⟩ := ends_step.mp h
  have ht₁ := read_tree (o := .fs (.openRead p)) trivial h₁
  rcases r₁ with e | i
  · obtain ⟨-, rfl⟩ := h
    exact kept_of_tree ht₁
  have hi : w.fs.tree.ino p = some i := by
    obtain ⟨o, now, f, -, -, hs, -⟩ := fs_host h₁
    exact (Files.openRead_ok hs).1
  obtain ⟨r₂, w₂, h₂, h⟩ := ends_step.mp h
  have ht₂ := (read_tree (o := .fs (.fstat i)) trivial h₂).trans ht₁
  rcases r₂ with e | md
  · obtain ⟨-, rfl⟩ := h
    exact kept_of_tree ht₂
  dsimp only at h
  split at h
  · obtain ⟨-, rfl⟩ := h
    exact kept_of_tree ht₂
  · obtain ⟨now, w₃, h₃, h⟩ := ends_step.mp h
    have ht₃ := (read_tree (o := .fs .now) trivial h₃).trans ht₂
    obtain ⟨r₄, w₄, h₄, -, rfl⟩ := ends_step.mp h
    obtain ⟨o, t, f, -, -, hs, rfl⟩ := fs_host h₄
    simp only [Files.step] at hs
    split at hs <;> cases hs
    · exact kept_of_tree ht₃
    · refine ⟨congrArg (·.ino q) ht₃, ?_⟩
      show ((w₃.fs.tree.setNode i _).ino q).map (w₃.fs.tree.setNode i _).node = entry w q
      rw [ht₃, Files.Tree.ino_setNode]
      unfold entry
      cases hj : w.fs.tree.ino q with
      | none => rfl
      | some j =>
        have hij : j ≠ i := by
          rintro rfl
          exact hq (w.fs.tree.path_unique hj hi)
        rw [Option.map_some, Option.map_some, Files.Tree.node_setNode_of_ne hij]

/-- A file moved and then stamped has moved. -/
theorem Moves.stamp (h : Moves p p' side w w₁)
    (hs : Ends (hostStep C ok) (stampMtimeNow p') w₁ () w') : Moves p p' side w w' where
  ino := (stampMtimeNow_alone hs p').1.trans h.ino
  contents := (stampMtimeNow_alone hs p').2.trans h.contents
  gone := (stampMtimeNow_alone hs p).1.trans h.gone
  others q hq hq' hside := (h.others q hq hq' hside).trans (stamp_keeps hs hq')

/-- Removing a file leaves the others. -/
theorem removeFile_leaves {r : Except Files.Errno Unit}
    (h : hostStep C Faultless (.fs (.removeFile p)) w r w')
    (hreg : ∀ i, w.fs.tree.ino p = some i → (w.fs.tree.node i).kind = .regular) :
    w'.fs.tree.ino p = none ∧ ∀ q, q ≠ p → Kept w w' q := by
  obtain ⟨o, now, f, ho, -, hs, rfl⟩ := fs_host h
  have ho : o.fails = false := ho
  simp only [Files.step, ho, Bool.false_eq_true, if_false] at hs
  split at hs
  · rename_i hnone
    cases hs
    exact ⟨hnone, fun q _ => kept_of_tree rfl⟩
  · rename_i i hi
    rw [if_neg (by rw [hreg i hi]; simp)] at hs
    cases hs
    refine ⟨Files.Tree.ino_unlink_self, fun q hq => ?_⟩
    have hsame : (w.fs.tree.unlink p).ino q = w.fs.tree.ino q := Files.Tree.ino_unlink_of_ne hq
    refine ⟨hsame, ?_⟩
    show ((w.fs.tree.unlink p).ino q).map _ = _
    rw [hsame]
    rfl

/-- A write leaves the files of other paths. -/
theorem write_keeps {data : Files.Bytes} {r : Except Files.Errno Unit}
    (h : hostStep C ok (.fs (.write p data)) w r w') (hq : q ≠ p) : Kept w w' q := by
  have hsame : w'.fs.tree.ino q = w.fs.tree.ino q := ino_host h (by simpa [Files.Op.paths] using hq)
  refine ⟨hsame, ?_⟩
  unfold entry
  rw [hsame]
  obtain ⟨o, now, f, -, -, hs, rfl⟩ := fs_host h
  cases hi : w.fs.tree.ino q with
  | none => rfl
  | some i =>
    have hnode := Files.node_of_write (s := { w.fs with now := now }) hs hi hq
    exact congrArg some hnode

/-! ## The claim -/

/-- **What `try_claim` does**, with regular files and nothing failing:
where the entry has a claim or a marker it removes the copy in `new/`, and
otherwise moves the file to `cur/`, if there is one. -/
theorem tryClaim_leaves {r : Except String (Option String)} (hplain : w.fs.tree.Plain)
    (h : Ends (hostStep C Faultless) (tryClaim name) w r w') :
    if Listing.occupied name w.fs.tree then
      r = .ok none ∧ w'.fs.tree.ino ⟨.new, name⟩ = none ∧ ∀ p, p ≠ ⟨.new, name⟩ → Kept w w' p
    else if w.fs.tree.ino ⟨.new, name⟩ = none then r = .ok none ∧ ∀ p, Kept w w' p
    else r = .ok (some name) ∧ Moves ⟨.new, name⟩ (curPath name) [] w w' := by
  obtain ⟨b, w₁, h₁, h⟩ := ends_bind.mp h
  obtain ⟨rfl, n, rfl⟩ := (looks_isArchived name).ends h₁
  unfold Listing.occupied
  cases harch : archived name w.fs.tree with
  | true =>
    rw [harch] at h
    obtain ⟨_, w₂, h₂, rfl, rfl⟩ := h
    obtain ⟨hgone, hothers⟩ := removeFile_leaves h₂ (hplain _)
    rw [Bool.or_true, if_pos rfl]
    exact ⟨rfl, hgone, fun p hp => hothers p hp⟩
  | false =>
    rw [harch] at h
    obtain ⟨⟨⟩, w₂, h₂, h⟩ := ends_bind.mp h
    have hstamp : ∀ p, w₂.fs.tree.ino p = w.fs.tree.ino p ∧ w₂.contents p = w.contents p := by
      intro p
      have hp := stampMtimeNow_alone h₂ p
      exact hp
    have hkept : ∀ p, p ≠ ⟨.new, name⟩ → Kept w w₂ p := by
      intro p hp
      have hp := stamp_keeps h₂ hp
      exact hp
    rw [Bool.or_false, hplain.leads]
    obtain ⟨r', w₃, h₃, h⟩ := ends_step.mp h
    rcases renameNoClobber_tree h₃ with ⟨rfl, hp, hp', ht⟩ | ⟨rfl, ht, hp, hp'⟩ | ⟨rfl, ht, hp⟩ |
      ⟨-, -, hfail⟩
    · rw [(hstamp _).1] at hp hp'
      -- the claim is made, and no marker has come since
      have hmoved := moves_move ((hstamp _).1.symm ▸ hp) (by simp) ht
      have hmoves : Moves ⟨.new, name⟩ (curPath name) [] w w₃ :=
        ⟨hmoved.ino.trans (hstamp _).1, hmoved.contents.trans (hstamp _).2, hmoved.gone,
          fun q hq hq' hs => (hkept q hq).trans (hmoved.others q hq hq' hs)⟩
      have harch' : archived name w₃.fs.tree = false := by
        rw [archived, leads_of_contents
          (hmoves.others ⟨.done, name⟩ (by simp) (by simp) (by simp)).contents,
          leads_of_contents (hmoves.others ⟨.error, name⟩ (by simp) (by simp) (by simp)).contents]
        exact harch
      obtain ⟨b, w₄, h₄, h⟩ := ends_bind.mp h
      obtain ⟨rfl, n', rfl⟩ := (looks_isArchived name).ends h₄
      rw [harch'] at h
      obtain ⟨rfl, rfl⟩ := h
      have hnew : w.fs.tree.ino ⟨.new, name⟩ ≠ none := Option.isSome_iff_ne_none.mp hp
      rw [hp', if_neg (by simp), if_neg hnew]
      exact ⟨rfl, hmoves.tree rfl⟩
    · rw [(hstamp _).1] at hp'
      obtain ⟨_, w₄, h₄, rfl, rfl⟩ := h
      obtain ⟨hgone, hothers⟩ := removeFile_leaves h₄
        (ht ▸ regular_of_contents (hstamp _).2 (hplain _))
      rw [if_pos hp']
      exact ⟨rfl, hgone, fun p hp =>
        ((hkept p hp).trans (kept_of_tree ht)).trans (hothers p hp)⟩
    · rw [(hstamp _).1] at hp
      obtain ⟨rfl, rfl⟩ := h
      have hall : ∀ p, Kept w w₂ p := by
        intro p
        by_cases hp' : p = ⟨.new, name⟩
        · subst hp'
          exact kept_of_absent hp ((hstamp _).1.trans hp)
        · exact hkept p hp'
      have hend : ∀ p, Kept w w' p := fun p => (hall p).trans (kept_of_tree ht)
      split
      · exact ⟨rfl, (hend _).1.trans hp, fun p _ => hend p⟩
      · exact ⟨rfl, hend⟩
    · exact absurd hfail not_mayFail_faultless

/-! ## The finalize -/

/-- Where the archive has no such name, the claim moves there. -/
theorem archiveAndStamp_moves {context : String} {r : Except String Unit}
    (hdest : curPath cur ≠ dest) (hclaim : (w.fs.tree.ino (curPath cur)).isSome)
    (hfree : w.fs.tree.ino dest = none)
    (h : Ends (hostStep C Faultless) (archiveAndStamp context cur dest) w r w') :
    Moves (curPath cur) dest [] w w' := by
  obtain ⟨installed, w₁, h₁, h⟩ := ends_bind.mp h
  obtain ⟨r₁, u, k₁, k⟩ := ends_step.mp h₁
  rcases renameNoClobber_tree k₁ with ⟨rfl, hp, -, ht⟩ | ⟨-, -, -, hp'⟩ | ⟨-, -, hp⟩ | ⟨-, -, hfail⟩
  · obtain ⟨rfl, rfl⟩ := k
    obtain ⟨⟨⟩, w₂, h₂, h⟩ := ends_bind.mp h
    obtain ⟨_, w₃, h₃, -, rfl⟩ := ends_step.mp h
    obtain ⟨-, -, -, -, hunlock⟩ := sched_host h₃
    exact ((moves_move hp hdest ht).stamp h₂).tree hunlock
  · rw [hfree] at hp'
    cases hp'
  · rw [hp] at hclaim
    cases hclaim
  · exact absurd hfail not_mayFail_faultless

theorem finalizeDone_moves {r : Except String Unit}
    (hclaim : (w.fs.tree.ino (curPath cur)).isSome)
    (hfree : w.fs.tree.ino ⟨.done, cur⟩ = none)
    (h : Ends (hostStep C Faultless) (finalizeDone cur) w r w') :
    Moves (curPath cur) ⟨.done, cur⟩ [] w w' := by
  obtain ⟨_, w₁, hlock, h⟩ := ends_step.mp h
  obtain ⟨-, -, -, -, ht⟩ := sched_host hlock
  have hkept : ∀ q, Kept w w₁ q := fun q => kept_of_tree ht
  have hmoves := archiveAndStamp_moves (by simp) ((hkept _).1 ▸ hclaim) ((hkept _).1.trans hfree) h
  exact hmoves.after (fun q _ => hkept q) (by simp)

theorem error_ne_sidecar : (⟨.error, name⟩ : Path) ≠ Sidecar.sidecar name :=
  fun heq => by simpa using heq.symm

/-- The claim moves to `error/`, with its reason beside it. -/
theorem finalizeError_moves {reason : String} {r : Except String Unit}
    (hclaim : (w.fs.tree.ino (curPath cur)).isSome)
    (hfree : w.fs.tree.ino ⟨.error, cur⟩ = none)
    (hreg : ∀ i, w.fs.tree.ino (Sidecar.sidecar cur) = some i →
      (w.fs.tree.node i).kind = .regular)
    (h : Ends (hostStep C Faultless) (finalizeError cur reason) w r w') :
    w'.contents (Sidecar.sidecar cur) = some (.regular, reason.toUTF8.toList) ∧
      Moves (curPath cur) ⟨.error, cur⟩ [Sidecar.sidecar cur] w w' := by
  obtain ⟨_, w₁, hlock, h⟩ := ends_step.mp h
  obtain ⟨-, -, -, -, ht⟩ := sched_host hlock
  obtain ⟨r₂, w₂, hwrite, h⟩ := ends_step.mp h
  obtain ⟨hreason, -⟩ := Sidecar.write_sidecar hwrite (fun q hq => hq) (by rwa [ht])
  have hkept : ∀ q, q ∉ [Sidecar.sidecar cur] → Kept w w₂ q := by
    intro q hq
    exact (kept_of_tree ht).trans (write_keeps hwrite (by simpa using hq))
  have hcur := (hkept (curPath cur) (by simp)).1
  have hdest := (hkept ⟨.error, cur⟩ (by simpa using error_ne_sidecar)).1
  have hmoves := archiveAndStamp_moves (by simp) (hcur ▸ hclaim) (hdest.trans hfree) h
  refine ⟨?_, hmoves.after hkept (by simp)⟩
  rw [(hmoves.others _ (by simp) (by simp) (by simp)).contents, hreason]

/-! ## One turn -/

/-- The job a call starts a worker for. -/
def spawns : Op → List (String × WorkflowJob)
  | .sched (.spawnJob cur event) => [(cur, event)]
  | _ => []

/-- The host to itself with nothing failing, and the workers started. -/
def turnStep (C : Codec) : Alone.Step Resp (World × List (String × WorkflowJob)) :=
  fun o s r s' => hostStep C Faultless o s.1 r s'.1 ∧ s'.2 = s.2 ++ spawns o

abbrev Turn := World × List (String × WorkflowJob)

/-- **One turn of the dispatch loop**: a name comes from the watcher, a
permit is waited for, and the entry is dealt with. -/
def Iterates (cfg : Config) (name : String) (s s' : Turn) : Prop :=
  ∃ s₁ s₂ s₃, Ends (turnStep cfg.codec) receive s (some (.permit name)) s₁ ∧
    Relation.ReflTransGen (fun u u' =>
      Ends (turnStep cfg.codec) (awaitPermit name) u (some (.permit name)) u') s₁ s₂ ∧
    Ends (turnStep cfg.codec) (awaitPermit name) s₂ (some (.prepare name)) s₃ ∧
    Ends (turnStep cfg.codec) (dispatchOne cfg name) s₃ (some .dispatch) s'

/-- The directories an entry may be in. -/
def places : List Dir := [.new, .cur, .done, .error]

/-- What a turn is about: the entry in its places, and the sidecar. -/
def Own (name : String) (p : Path) : Prop :=
  (∃ d ∈ places, p = ⟨d, name⟩) ∨ p = Sidecar.sidecar name

/-- The entry is in one place alone, with the bytes it had in `new/`. -/
structure EndsIn (name : String) (d : Dir) (w w' : World) : Prop where
  there : w'.fs.tree.ino ⟨d, name⟩ = w.fs.tree.ino ⟨.new, name⟩
  contents : w'.contents ⟨d, name⟩ = w.contents ⟨.new, name⟩
  nowhere : ∀ d' ∈ places, d' ≠ d → w'.fs.tree.ino ⟨d', name⟩ = none

/-- **Where the entry ends**, by what `prepare` makes of it. -/
def Fate (name : String) (w w' : World) (spawned : List (String × WorkflowJob)) : Prepared → Prop
  | .run cur event => cur = name ∧ EndsIn name .cur w w' ∧ spawned = [(name, event)] ∧
      Kept w w' (Sidecar.sidecar name)
  | .drop cur _ => cur = name ∧ EndsIn name .done w w' ∧ spawned = [] ∧
      Kept w w' (Sidecar.sidecar name)
  | .reject cur reason => cur = name ∧ EndsIn name .error w w' ∧ spawned = [] ∧
      w'.contents (Sidecar.sidecar name) = some (.regular, reason.toUTF8.toList)
  | .skip => False

/-- **What one turn does to the spool.** -/
structure Conserves (cfg : Config) (name : String) (w w' : World)
    (spawned : List (String × WorkflowJob)) : Prop where
  frame : ∀ p, ¬ Own name p → Kept w w' p
  unparsed : parseSpoolFilename name = none → spawned = [] ∧ ∀ p, Kept w w' p
  present : (parseSpoolFilename name).isSome → Listing.occupied name w.fs.tree = true →
    spawned = [] ∧ w'.fs.tree.ino ⟨.new, name⟩ = none ∧ ∀ p, p ≠ ⟨.new, name⟩ → Kept w w' p
  absent : (parseSpoolFilename name).isSome → Listing.occupied name w.fs.tree = false →
    w.fs.tree.ino ⟨.new, name⟩ = none → spawned = [] ∧ ∀ p, Kept w w' p
  taken : (parseSpoolFilename name).isSome → Listing.occupied name w.fs.tree = false →
    w.fs.tree.ino ⟨.new, name⟩ ≠ none →
      Fate name w w' spawned (Listing.prepareOn cfg name w.fs.tree)

/-! ## What a turn starts -/

/-- A program that starts no worker runs as it does on the host. -/
theorem ends_quiet {α : Type} {m : Prog Resp α} {a : α} {s s' : Turn}
    (hm : m.Only fun o => spawns o = []) :
    Ends (turnStep C) m s a s' ↔ Ends (hostStep C Faultless) m s.1 a s'.1 ∧ s'.2 = s.2 := by
  induction m generalizing s with
  | ret b =>
    rw [ends_ret, ends_ret, Prod.ext_iff, and_assoc]
  | call o k ih =>
    constructor
    · rintro ⟨r, s₁, ⟨hs, hspawned⟩, hk⟩
      obtain ⟨hk, heq⟩ := (ih r (hm.2 r)).mp hk
      refine ⟨⟨r, s₁.1, hs, hk⟩, ?_⟩
      rw [heq, hspawned, hm.1, List.append_nil]
    · rintro ⟨⟨r, w₁, hs, hk⟩, heq⟩
      refine ⟨r, (w₁, s.2), ⟨hs, ?_⟩, (ih r (hm.2 r)).mpr ⟨hk, heq⟩⟩
      rw [hm.1, List.append_nil]

theorem quiet_fs {o : Op} (ho : o.answers) : spawns o = [] := by
  cases o with
  | fs o => rfl
  | _ => exact ho.elim

theorem quiet_finalizes {o : Op} (ho : o.finalizes name) : spawns o = [] := by
  cases o with
  | sched o =>
    cases o with
    | spawnJob => exact ho.elim
    | _ => rfl
  | _ => rfl

/-! ## The wait -/

theorem receive_alone {r : Option Task} {s s' : Turn} (h : Ends (turnStep C) receive s r s') :
    s'.1.fs.tree = s.1.fs.tree ∧ s'.2 = s.2 := by
  have hquiet : receive.Only fun o => spawns o = [] := .step rfl fun _ => trivial
  obtain ⟨hr, hspawned⟩ := (ends_quiet hquiet).mp h
  obtain ⟨_, w₁, h₁, -, heq⟩ := ends_step.mp hr
  obtain ⟨-, -, -, -, ht⟩ := sched_host h₁
  exact ⟨heq ▸ ht, hspawned⟩

theorem awaitPermit_alone {r : Option Task} {s s' : Turn}
    (h : Ends (turnStep C) (awaitPermit name) s r s') :
    s'.1.fs.tree = s.1.fs.tree ∧ s'.2 = s.2 := by
  have hquiet : (awaitPermit name).Only fun o => spawns o = [] :=
    (acquirePermit_only (φ := fun o => spawns o = []) rfl rfl rfl rfl).bind fun _ => trivial
  have hsched : (awaitPermit name).Only fun o => ∃ o', o = .sched o' :=
    (acquirePermit_only ⟨_, rfl⟩ ⟨_, rfl⟩ ⟨_, rfl⟩ ⟨_, rfl⟩).bind fun _ => trivial
  obtain ⟨hr, hspawned⟩ := (ends_quiet hquiet).mp h
  refine ⟨hr.only hsched (B := fun u => u.fs.tree = s.1.fs.tree) ?_ rfl, hspawned⟩
  rintro o r u u' ⟨o', rfl⟩ hu htree
  obtain ⟨-, -, -, -, ht⟩ := sched_host hu
  exact ht.trans htree

/-- The rounds of the wait leave the files alone, one by one. -/
theorem waits_alone {s s' : Turn} (h : Relation.ReflTransGen (fun u u' =>
      Ends (turnStep C) (awaitPermit name) u (some (.permit name)) u') s s') :
    s'.1.fs.tree = s.1.fs.tree ∧ s'.2 = s.2 := by
  induction h with
  | refl => exact ⟨rfl, rfl⟩
  | tail _ hround ih =>
    obtain ⟨ht, hs⟩ := awaitPermit_alone hround
    exact ⟨ht.trans ih.1, hs.trans ih.2⟩

/-! ## `prepare` -/

theorem free_of_occupied (hplain : w.fs.tree.Plain)
    (h : Listing.occupied name w.fs.tree = false) :
    ∀ d ∈ places, d ≠ .new → w.fs.tree.ino ⟨d, name⟩ = none := by
  have hnone : ∀ d : Dir, (w.fs.tree.ino ⟨d, name⟩).isSome = false →
      w.fs.tree.ino ⟨d, name⟩ = none := by
    intro d hd
    simpa using hd
  simp only [Listing.occupied, archived, hplain.leads, Bool.or_eq_false_iff] at h
  obtain ⟨hcur, hdone, herror⟩ := h
  intro d hd hne
  simp only [places, List.mem_cons, List.not_mem_nil, or_false] at hd
  rcases hd with rfl | rfl | rfl | rfl
  · exact absurd rfl hne
  · exact hnone _ hcur
  · exact hnone _ hdone
  · exact hnone _ herror

/-- After the claim `prepare` only reads. -/
theorem prepareClaim_tree {id : JobId} {r : Prepared}
    (h : Ends (hostStep cfg.codec Faultless) (prepareClaim cfg name id cur) w r w') :
    w'.fs.tree = w.fs.tree := by
  unfold prepareClaim at h
  split at h
  · rw [h.2]
  · obtain ⟨e, w₁, h₁, h⟩ := ends_bind.mp h
    obtain ⟨-, n, rfl⟩ := (looks_readSpoolFileAt (curPath cur)).ends h₁
    cases e with
    | error e => rw [h.2]; rfl
    | ok eb => rw [h.2]; rfl

/-- `prepare` leaves what its claim leaves. -/
theorem prepare_claims {r : Prepared} (hid : (parseSpoolFilename name).isSome)
    (h : Ends (hostStep cfg.codec Faultless) (prepare cfg name) w r w') :
    ∃ claim w₁, Ends (hostStep cfg.codec Faultless) (tryClaim name) w claim w₁ ∧
      w'.fs.tree = w₁.fs.tree ∧ (claim = .ok none → r = .skip) := by
  obtain ⟨id, hid⟩ := Option.isSome_iff_exists.mp hid
  unfold prepare at h
  rw [hid] at h
  obtain ⟨claim, w₁, h₁, h⟩ := ends_bind.mp h
  refine ⟨claim, w₁, h₁, ?_⟩
  rcases claim with e | _ | cur
  · exact ⟨congrArg (·.fs.tree) h.2, fun _ => h.1⟩
  · exact ⟨congrArg (·.fs.tree) h.2, fun _ => h.1⟩
  · exact ⟨prepareClaim_tree h, fun hclaim => by cases hclaim⟩

/-- An entry that can be claimed is, and what `prepare` returns names the
claim. -/
theorem prepareOn_claims {t : Files.Tree Path} (hplain : t.Plain)
    (hid : (parseSpoolFilename name).isSome)
    (hocc : Listing.occupied name t = false) (hnew : t.ino ⟨.new, name⟩ ≠ none) :
    match Listing.prepareOn cfg name t with
    | .run cur _ | .drop cur _ | .reject cur _ => cur = name
    | .skip => False := by
  obtain ⟨id, hid⟩ := Option.isSome_iff_exists.mp hid
  simp only [Listing.occupied, hplain.leads, Bool.or_eq_false_iff] at hocc
  have hskip : ¬(archived name t || (t.ino ⟨.new, name⟩).isNone ||
      (t.ino (curPath name)).isSome) = true := by
    rw [hocc.1, hocc.2, Bool.or_false, Bool.false_or, Option.isNone_iff_eq_none]
    exact hnew
  unfold Listing.prepareOn
  rw [hid]
  simp only [if_neg hskip]
  by_cases hname : name ≠ jobFileName id
  · rw [if_pos hname]
  · rw [if_neg hname]
    cases readResult cfg.codec ⟨.new, name⟩ t with
    | error e => rfl
    | ok eb =>
      dsimp only
      cases classifyValidatedEntry cfg.codec id eb.1 eb.2 cfg.webhookSecret cfg.allowedRepos
        cfg.runnerLabel cfg.runnerLabels <;> rfl

/-! ## The whole turn -/

variable {d : Dir}

/-- The entry moved from `new/` to a free place is in that place alone. -/
theorem Moves.endsIn (h : Moves ⟨.new, name⟩ ⟨d, name⟩ side w w') (hplain : w.fs.tree.Plain)
    (hside : side ⊆ [Sidecar.sidecar name])
    (hocc : Listing.occupied name w.fs.tree = false) : EndsIn name d w w' where
  there := h.ino
  contents := h.contents
  nowhere d' hd' hne := by
    by_cases hnew : d' = .new
    · subst hnew
      exact h.gone
    · have hnot : (⟨d', name⟩ : Path) ∉ side := fun hmem => by
        obtain rfl : d' = .error := congrArg (·.dir) (List.mem_singleton.mp (hside hmem))
        exact error_ne_sidecar (List.mem_singleton.mp (hside hmem))
      have hkept := h.others ⟨d', name⟩ (by simpa using hnew) (by simpa using hne) hnot
      exact hkept.1.trans (free_of_occupied hplain hocc d' hd' hnew)

/-- And nothing else has changed. -/
theorem Moves.frame (h : Moves ⟨.new, name⟩ ⟨d, name⟩ side w w') (hd : d ∈ places)
    (hside : side ⊆ [Sidecar.sidecar name]) (hp : ¬ Own name p) : Kept w w' p := by
  refine h.others p (fun heq => hp (.inl ⟨.new, by simp [places], heq⟩))
    (fun heq => hp (.inl ⟨d, hd, heq⟩)) fun hmem => hp (.inr ?_)
  exact List.mem_singleton.mp (hside hmem)

theorem release_tree {u u' : World} (h : hostStep C ok (.sched .release) u () u') :
    u'.fs.tree = u.fs.tree := by
  obtain ⟨-, -, -, -, ht⟩ := sched_host h
  exact ht

/-- What the dispatcher does with an entry it has claimed. -/
theorem dispatchPrepared_ends {prepared : Prepared} {s s' : Turn}
    (hmoved : Moves ⟨.new, name⟩ (curPath name) [] w s.1)
    (hnew : w.fs.tree.ino ⟨.new, name⟩ ≠ none)
    (hocc : Listing.occupied name w.fs.tree = false)
    (hcur : match prepared with
      | .run cur _ | .drop cur _ | .reject cur _ => cur = name
      | .skip => False)
    (hplain : w.fs.tree.Plain) (hs : s.2 = [])
    (h : Ends (turnStep C) (dispatchPrepared prepared) s () s') :
    Fate name w s'.1 s'.2 prepared ∧ ∀ p, ¬ Own name p → Kept w s'.1 p := by
  have hclaim : (s.1.fs.tree.ino (curPath name)).isSome := by
    rw [hmoved.ino, Option.isSome_iff_ne_none]
    exact hnew
  have hcurFree := free_of_occupied hplain hocc .cur (by simp [places]) (by simp)
  have hfree : ∀ d ∈ places, d ≠ .new → d ≠ .cur → s.1.fs.tree.ino ⟨d, name⟩ = none := by
    intro d hd hne hne'
    have hkept := hmoved.others ⟨d, name⟩ (by simpa using hne) (by simpa using hne') (by simp)
    exact hkept.1.trans (free_of_occupied hplain hocc d hd hne)
  cases prepared with
  | run cur event =>
    obtain rfl : cur = name := hcur
    obtain ⟨_, s₁, ⟨hu, hspawned⟩, -, rfl⟩ := ends_step.mp h
    obtain ⟨-, -, -, -, ht⟩ := sched_host hu
    have hmoves := hmoved.tree ht
    have hspawn : s'.2 = [(cur, event)] := by rw [hspawned, hs]; rfl
    exact ⟨⟨rfl, hmoves.endsIn hplain (List.nil_subset _) hocc, hspawn,
        hmoves.others _ (by simp) (by simp) (by simp)⟩,
      fun p hp => hmoves.frame (by simp [places]) (List.nil_subset _) hp⟩
  | drop cur reason =>
    obtain rfl : cur = name := hcur
    have hquiet : (dispatchPrepared (.drop cur reason)).Only fun o => spawns o = [] :=
      ((finalizeDone_only cur).mono fun o ho => quiet_finalizes ho).bind fun _ =>
        .step rfl fun _ => trivial
    obtain ⟨h, hspawned⟩ := (ends_quiet hquiet).mp h
    obtain ⟨r, w₁, h₁, h⟩ := ends_bind.mp h
    obtain ⟨_, w₂, hu, -, heq⟩ := ends_step.mp h
    have hfinal := finalizeDone_moves hclaim (hfree .done (by simp [places]) (by simp) (by simp)) h₁
    have hmoves := (hmoved.trans hfinal hcurFree (by simp) (by simp) (by simp)).tree
      (heq ▸ release_tree hu)
    exact ⟨⟨rfl, hmoves.endsIn hplain (List.nil_subset _) hocc, hspawned.trans hs,
        hmoves.others _ (by simp) (by simp) (by simp)⟩,
      fun p hp => hmoves.frame (by simp [places]) (List.nil_subset _) hp⟩
  | reject cur reason =>
    obtain rfl : cur = name := hcur
    have hquiet : (dispatchPrepared (.reject cur reason)).Only fun o => spawns o = [] :=
      ((finalizeError_only cur reason).mono fun o ho => quiet_finalizes ho).bind fun _ =>
        .step rfl fun _ => trivial
    obtain ⟨h, hspawned⟩ := (ends_quiet hquiet).mp h
    obtain ⟨r, w₁, h₁, h⟩ := ends_bind.mp h
    obtain ⟨_, w₂, hu, -, heq⟩ := ends_step.mp h
    -- the claim has not touched the sidecar
    have hsidecar := hmoved.others (Sidecar.sidecar cur) (by simp) (by simp) (by simp)
    obtain ⟨hreason, hfinal⟩ := finalizeError_moves hclaim
      (hfree .error (by simp [places]) (by simp) (by simp))
        (regular_of_contents hsidecar.contents (hplain _)) h₁
    have ht : s'.1.fs.tree = w₁.fs.tree := heq ▸ release_tree hu
    have hmoves := (hmoved.trans hfinal hcurFree (by simp) (by simp) (by simp)).tree ht
    exact ⟨⟨rfl, hmoves.endsIn hplain (List.Subset.refl _) hocc, hspawned.trans hs,
        (kept_of_tree ht).contents.trans hreason⟩,
      fun p hp => hmoves.frame (by simp [places]) (List.Subset.refl _) hp⟩
  | skip => exact hcur.elim

/-- The dispatcher at an entry, with a permit. -/
theorem dispatchOne_conserves {r : Option Task} {s s' : Turn} (hw : s.1.fs.tree = w.fs.tree)
    (hplain : w.fs.tree.Plain) (hs : s.2 = [])
    (h : Ends (turnStep cfg.codec) (dispatchOne cfg name) s r s') :
    Conserves cfg name w s'.1 s'.2 := by
  have hquiet : (prepare cfg name).Only fun o => spawns o = [] :=
    (Listing.prepare_answers cfg name).mono fun _ ho => quiet_fs ho
  obtain ⟨prepared, s₁, h₁, h⟩ := ends_bind.mp h
  obtain ⟨⟨⟩, s₂, h₂, -, rfl⟩ := ends_bind.mp h
  obtain ⟨h₁, hspawned⟩ := (ends_quiet hquiet).mp h₁
  have hspawned := hspawned.trans hs
  have hbase : ∀ p, Kept w s.1 p := fun p => kept_of_tree hw
  -- nothing is done to an entry skipped
  have hskip : prepared = .skip → s'.2 = [] ∧ s'.1.fs.tree = s₁.1.fs.tree := by
    rintro rfl
    obtain ⟨_, s₃, ⟨hu, hnone⟩, -, rfl⟩ := ends_step.mp h₂
    exact ⟨by rw [hnone, hspawned]; rfl, release_tree hu⟩
  cases hid : parseSpoolFilename name with
  | none =>
    unfold prepare at h₁
    rw [hid] at h₁
    obtain ⟨hnone, htree⟩ := hskip h₁.1
    have hall : ∀ p, Kept w s'.1 p := fun p =>
      (hbase p).trans (kept_of_tree (htree.trans (congrArg (·.fs.tree) h₁.2)))
    have hnot : ¬ (parseSpoolFilename name).isSome := by simp [hid]
    exact ⟨fun p _ => hall p, fun _ => ⟨hnone, hall⟩, fun h => absurd h hnot,
      fun h => absurd h hnot, fun h => absurd h hnot⟩
  | some id =>
    have hsome : (parseSpoolFilename name).isSome := by simp [hid]
    obtain ⟨claim, w₁, hclaim, htree, hclaimed⟩ := prepare_claims hsome h₁
    have hprepared := Listing.prepare_alone h₁
    have hleaves := tryClaim_leaves (hw ▸ hplain) hclaim
    rw [hw] at hprepared hleaves
    have hnone : parseSpoolFilename name ≠ none := by simp [hid]
    by_cases hocc : Listing.occupied name w.fs.tree = true
    · rw [if_pos hocc] at hleaves
      obtain ⟨rfl, hgone, hothers⟩ := hleaves
      obtain ⟨hspawn, hend⟩ := hskip (hclaimed rfl)
      have hall : ∀ p, p ≠ ⟨.new, name⟩ → Kept w s'.1 p := fun p hp =>
        ((hbase p).trans (hothers p hp)).trans (kept_of_tree (hend.trans htree))
      refine ⟨fun p hp => hall p fun heq => hp (.inl ⟨.new, by simp [places], heq⟩),
        fun h => absurd h hnone, fun _ _ => ⟨hspawn, ?_, hall⟩,
        fun _ h => absurd h (by simp [hocc]), fun _ h => absurd h (by simp [hocc])⟩
      rw [hend, htree, hgone]
    · rw [if_neg hocc] at hleaves
      have hocc : Listing.occupied name w.fs.tree = false := by simpa using hocc
      by_cases hnew : w.fs.tree.ino ⟨.new, name⟩ = none
      · rw [if_pos hnew] at hleaves
        obtain ⟨rfl, hothers⟩ := hleaves
        obtain ⟨hspawn, hend⟩ := hskip (hclaimed rfl)
        have hall : ∀ p, Kept w s'.1 p := fun p =>
          ((hbase p).trans (hothers p)).trans (kept_of_tree (hend.trans htree))
        exact ⟨fun p _ => hall p, fun h => absurd h hnone, fun _ h => absurd h (by simp [hocc]),
          fun _ _ _ => ⟨hspawn, hall⟩, fun _ _ h => absurd hnew h⟩
      · rw [if_neg hnew] at hleaves
        have hmoved : Moves ⟨.new, name⟩ (curPath name) [] w s₁.1 :=
          (hleaves.2.tree htree).after (fun q _ => hbase q) List.not_mem_nil
        obtain ⟨hfate, hframe⟩ := dispatchPrepared_ends hmoved hnew hocc
          (hprepared ▸ prepareOn_claims hplain hsome hocc hnew) hplain hspawned h₂
        exact ⟨hframe, fun h => absurd h hnone, fun _ h => absurd h (by simp [hocc]),
          fun _ _ h => absurd h hnew, fun _ _ _ => hprepared ▸ hfate⟩

/-! ## A turn comes to its end -/

/-- The calls that are answered wherever nothing fails and the turn has
its permit and its lock. -/
def Op.ready : Op → Prop
  | .sched .unlockArchive | .sched .release | .sched (.spawnJob ..) => True
  | o => o.answers

theorem exists_turn {α : Type} {m : Prog Resp α} (hm : m.Only Op.ready) (s : Turn) :
    ∃ a s', Ends (turnStep C) m s a s' := by
  refine exists_ends hm (fun o s ho => ?_) s
  have hhost : ∃ r w', hostStep C Faultless o s.1 r w' := by
    cases o with
    | fs o => exact exists_host ho s.1
    | sched o =>
      cases o with
      | unlockArchive | release | spawnJob => exact ⟨_, _, ⟨"", 0⟩, 0, trivial, rfl⟩
      | _ => exact ho.elim
    | _ => exact ho.elim
  obtain ⟨r, w', h⟩ := hhost
  exact ⟨r, (w', s.2 ++ spawns o), h, rfl⟩

theorem Op.answers.ready {o : Op} (ho : o.answers) : Op.ready o := by
  cases o with
  | fs o => exact ho
  | _ => exact ho.elim

theorem archive_answers (cur : String) (dest : Path) : (archive cur dest).Only Op.answers := by
  refine .step trivial fun r => ?_
  have hpreserve : (preserveExisting dest).Only Op.answers := by
    refine .step trivial fun r => ?_
    split
    · refine .step trivial fun now => .step trivial fun r => ?_
      split <;> trivial
    · trivial
  split
  · trivial
  · trivial
  · refine hpreserve.bind fun bak => ?_
    split
    · refine .step trivial fun r => ?_
      split <;> trivial
    · refine .step trivial fun r => ?_
      split
      · trivial
      · exact .step trivial fun _ => trivial
  · trivial

theorem archiveAndStamp_ready (context cur : String) (dest : Path) :
    (archiveAndStamp context cur dest).Only Op.ready := by
  have hstamp : ∀ o, o.stamps → Op.ready o := by
    intro o ho
    unfold Op.stamps at ho
    split at ho <;> trivial
  refine ((archive_answers cur dest).mono fun _ ho => Op.answers.ready ho).bind fun r => ?_
  exact ((stampInstalled_only dest r).mono hstamp).bind fun _ => .step trivial fun _ => trivial

/-- A call of the runtime that starts no worker. -/
theorem turn_sched {o : Sched.Op} {r : Sched.Resp o} {q : Sched.Oracle} {x : Sched.State}
    {s : Turn} (h : Sched.step 0 o q s.1.sched = some (r, x)) (ho : spawns (.sched o) = []) :
    turnStep C (.sched o) s r ({ s.1 with sched := x }, s.2) := by
  refine ⟨host_sched h trivial, ?_⟩
  rw [ho, List.append_nil]

theorem lockArchive_ends {s : Turn} (h : s.1.sched.archiveLock = none) :
    ∃ s', turnStep C (.sched .lockArchive) s () s' := by
  have hstep : Sched.step 0 .lockArchive ⟨"", 0⟩ s.1.sched =
      some ((), { s.1.sched with archiveLock := some 0 }) := if_pos h
  exact ⟨_, turn_sched hstep rfl⟩

theorem dispatchPrepared_exists (prepared : Prepared) {s : Turn}
    (h : s.1.sched.archiveLock = none) :
    ∃ s', Ends (turnStep C) (dispatchPrepared prepared) s () s' := by
  have hrelease : (sched .release).Only Op.ready := .step trivial fun _ => trivial
  obtain ⟨s₁, h₁⟩ := lockArchive_ends (C := C) h
  cases prepared with
  | run cur event =>
    obtain ⟨⟨⟩, s', hends⟩ := exists_turn (C := C) (m := dispatchPrepared (.run cur event))
      (.step trivial fun _ => trivial) s
    exact ⟨s', hends⟩
  | drop cur reason =>
    obtain ⟨r, s₂, h₂⟩ := exists_turn (C := C) (archiveAndStamp_ready "move to done/" cur ⟨.done, cur⟩) s₁
    obtain ⟨⟨⟩, s', h'⟩ := exists_turn (C := C) hrelease s₂
    exact ⟨s', ends_bind.mpr ⟨r, s₂, ⟨(), s₁, h₁, h₂⟩, h'⟩⟩
  | reject cur reason =>
    have hrest : (do
        let _ ← fs (.write ⟨.error, cur ++ ".err"⟩ reason.toUTF8.toList)
        archiveAndStamp "move to error/" cur ⟨.error, cur⟩ : Prog Resp (Except String Unit)).Only
          Op.ready := .step trivial fun _ => archiveAndStamp_ready _ cur _
    obtain ⟨r, s₂, h₂⟩ := exists_turn (C := C) hrest s₁
    obtain ⟨⟨⟩, s', h'⟩ := exists_turn (C := C) hrelease s₂
    exact ⟨s', ends_bind.mpr ⟨r, s₂, ⟨(), s₁, h₁, h₂⟩, h'⟩⟩
  | skip =>
    obtain ⟨⟨⟩, s', hends⟩ := exists_turn (C := C) (m := dispatchPrepared .skip) hrelease s
    exact ⟨s', hends⟩

/-- `prepare` leaves the runtime alone. -/
theorem answers_sched {α : Type} {m : Prog Resp α} {a : α} (hm : m.Only Op.answers)
    (h : Ends (hostStep C ok) m w a w') : w'.sched = w.sched := by
  refine h.only hm (B := fun u => u.sched = w.sched) (fun o r u u' ho hu hB => ?_) rfl
  cases o with
  | fs o =>
    obtain ⟨q, now, f, -, -, -, rfl⟩ := fs_host hu
    exact hB
  | _ => exact ho.elim

/-- Where the loop is not paused, and a permit and the lock are free, a
turn comes to its end. -/
theorem exists_iterates (cfg : Config) (name : String) (hpaused : w.sched.paused = false)
    (hpermit : w.sched.holders.length < w.sched.capacity) (hlock : w.sched.archiveLock = none) :
    ∃ s', Iterates cfg name (w, []) s' := by
  have hrecv : Sched.step 0 .recv ⟨name, 0⟩ w.sched = some (name, w.sched) := rfl
  have hwait : Sched.step 0 .waitUnpaused ⟨"", 0⟩ w.sched = some ((), w.sched) :=
    if_neg (by simp [hpaused])
  have hacquire : Sched.step 0 .acquire ⟨"", 0⟩ w.sched =
      some ((), { w.sched with holders := 0 :: w.sched.holders }) := if_pos hpermit
  have hlook : Sched.step 0 .isPaused ⟨"", 0⟩ { w.sched with holders := 0 :: w.sched.holders } =
      some (false, { w.sched with holders := 0 :: w.sched.holders }) := by
    rw [← hpaused]
    rfl
  let w₁ : World := { w with sched := { w.sched with holders := 0 :: w.sched.holders } }
  obtain ⟨prepared, w₂, h₂⟩ := Listing.prepare_ends cfg name w₁
  have hanswers := Listing.prepare_answers cfg name
  have hlock₂ : w₂.sched.archiveLock = none := by
    rw [answers_sched hanswers h₂]
    exact hlock
  obtain ⟨s', h'⟩ := dispatchPrepared_exists (C := cfg.codec) prepared (s := (w₂, [])) hlock₂
  refine ⟨s', (w, []), (w, []), (w₁, []), ?_, .refl, ?_, ?_⟩
  · exact ⟨name, (w, []), turn_sched hrecv rfl, rfl, rfl⟩
  · exact ⟨(), (w, []), turn_sched hwait rfl, (), (w₁, []), turn_sched hacquire rfl, false,
      (w₁, []), turn_sched hlook rfl, rfl, rfl⟩
  · have hquiet : (prepare cfg name).Only fun o => spawns o = [] :=
      hanswers.mono fun _ ho => quiet_fs ho
    exact ends_bind.mpr ⟨prepared, (w₂, []), (ends_quiet hquiet).mpr ⟨h₂, rfl⟩,
      ends_bind.mpr ⟨(), s', h', rfl, rfl⟩⟩

/-- **One turn of the dispatch loop conserves the entry.** With regular
files at rest, and nothing failing, whatever name comes: a turn comes to
its end where it can have a permit, and every turn leaves all but the
name's own files as they were, and has the entry in one place. -/
theorem iteration_conserves (cfg : Config) (name : String)
    (hrest : ∀ p i, w.fs.tree.ino p = some i → (w.fs.tree.node i).kind = .regular) :
    (w.sched.paused = false → w.sched.holders.length < w.sched.capacity →
      w.sched.archiveLock = none → ∃ s', Iterates cfg name (w, []) s') ∧
    ∀ s', Iterates cfg name (w, []) s' → Conserves cfg name w s'.1 s'.2 := by
  refine ⟨exists_iterates cfg name, fun s' h => ?_⟩
  obtain ⟨s₁, s₂, s₃, hreceive, hwaits, hawait, hdispatch⟩ := h
  obtain ⟨ht₁, hs₁⟩ := receive_alone hreceive
  obtain ⟨ht₂, hs₂⟩ := waits_alone hwaits
  obtain ⟨ht₃, hs₃⟩ := awaitPermit_alone hawait
  exact dispatchOne_conserves (ht₃.trans (ht₂.trans ht₁)) hrest (hs₃.trans (hs₂.trans hs₁))
    hdispatch

/-- A delivery ends in `cur/` with its worker, and one of an archived id
is gone. -/
theorem iteration_conserves_two :
    (∃ s', Iterates sampleConfig "42.job" (Listing.sampleWorld, []) s') ∧
      (∀ s', Iterates sampleConfig "42.job" (Listing.sampleWorld, []) s' →
        EndsIn "42.job" .cur Listing.sampleWorld s'.1 ∧ s'.2 = [("42.job", sampleJob)]) ∧
      ∀ s', Iterates sampleConfig "7.job" (Listing.sampleWorld, []) s' →
        s'.1.fs.tree.ino ⟨.new, "7.job"⟩ = none ∧ s'.2 = [] := by
  obtain ⟨hends, hrun⟩ := iteration_conserves sampleConfig "42.job" Listing.sample_plain
  obtain ⟨-, hpresent⟩ := iteration_conserves sampleConfig "7.job" Listing.sample_plain
  have hprepared : Listing.prepareOn sampleConfig "42.job" Listing.sampleWorld.fs.tree =
      .run "42.job" sampleJob := by decide +kernel
  refine ⟨hends rfl (by decide) rfl, fun s' h => ?_, fun s' h => ?_⟩
  · have hfate := (hrun s' h).taken (by decide +kernel) (by decide +kernel) (by decide +kernel)
    rw [hprepared] at hfate
    exact ⟨hfate.2.1, hfate.2.2.1⟩
  · obtain ⟨hnone, hgone, -⟩ := (hpresent s' h).present (by decide +kernel) (by decide +kernel)
    exact ⟨hgone, hnone⟩

end Daemon

end GhaConsumer
