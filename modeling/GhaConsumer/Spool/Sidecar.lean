import GhaConsumer.Host.Looking
import GhaConsumer.Spool.Archive
import GhaConsumer.Spool.Read

/-!
# Spool — the reason beside a record

`finalize_error` writes its reason beside the record before it knows
whether it will install one. What each call of the spool leaves in the
archive is told first, then how the reasons fare over any sequence of
calls: where every `finalize_error` finds its claim and its renames do
not fail, a reason stands only beside the record that was installed with
it (`matched_of_run`).
-/

namespace GhaConsumer

namespace Sidecar

open Interleave Alone

variable {C : Codec} {cfg : Config} {ok : (o : Op) → Oracle o → Prop} {w w' s s' : World}
variable {cur name reason : String} {dest p p' : Path} {t t' : Files.Tree Path}

/-! ## Sequences of calls -/

/-- The calls of the spool. -/
inductive SpoolCall where
  | tryClaim (name : String)
  | writeSyntheticClaim (job : JobStatus) (fullName : String)
  | finalizeDone (cur : String)
  | finalizeError (cur reason : String)
  deriving DecidableEq

/-- What a call does; who made it looks at its result. -/
def SpoolCall.run (cfg : Config) : SpoolCall → Prog Resp Unit
  | .tryClaim name => GhaConsumer.tryClaim name >>= fun _ => pure ()
  | .writeSyntheticClaim job fullName =>
    GhaConsumer.writeSyntheticClaim cfg job fullName >>= fun _ => pure ()
  | .finalizeDone cur => GhaConsumer.finalizeDone cur >>= fun _ => pure ()
  | .finalizeError cur reason => GhaConsumer.finalizeError cur reason >>= fun _ => pure ()

/-- These calls on files do not fail; any other may. -/
def Succeed (sure : Files.Op Dir String → Prop) : (o : Op) → Oracle o → Prop
  | .fs o, q => sure o → q.fails = false
  | _, _ => True

/-- The write of a sidecar. -/
def WritesSidecar : Files.Op Dir String → Prop
  | .write .. => True
  | _ => False

/-- A call by itself, in which the sidecar is written. -/
def Does (cfg : Config) (c : SpoolCall) (w w' : World) : Prop :=
  Ends (hostStep cfg.codec (Succeed WritesSidecar)) (c.run cfg) w () w'

/-- The claim a finalize is to install, and where. -/
def SpoolCall.archives : SpoolCall → Option (String × Path)
  | .finalizeDone cur => some (cur, ⟨.done, cur⟩)
  | .finalizeError cur _ => some (cur, ⟨.error, cur⟩)
  | _ => none

/-- The file that was the claim is in its place in the archive. -/
def Installs (cur : String) (dest : Path) (w w' : World) : Prop :=
  ∃ i, w.fs.tree.ino (curPath cur) = some i ∧ w'.fs.tree.ino dest = some i

/-- With whose reason a file was installed. -/
abbrev Credit := Files.Ino → Option String

/-- A `finalize_error` has the credit for the file it installs. -/
def SpoolCall.credit (w w' : World) (credit : Credit) : SpoolCall → Credit
  | .finalizeError cur reason =>
    match w.fs.tree.ino (curPath cur) with
    | none => credit
    | some i =>
      if w'.fs.tree.ino ⟨.error, cur⟩ = some i then Function.update credit i (some reason)
      else credit
  | _ => credit

/-- A run: calls one after another, each as `S` says, and in between what
the outside does. -/
inductive Run (S : SpoolCall → World → World → Prop) (w₀ : World) : Credit → World → Prop
  | start : Run S w₀ (fun _ => none) w₀
  | outside {credit : Credit} {w : World} (e : Env) : Run S w₀ credit w →
      Run S w₀ credit (e.step w)
  | call {credit : Credit} {w w' : World} (c : SpoolCall) : Run S w₀ credit w → S c w w' →
      Run S w₀ (c.credit w w' credit) w'

/-! ## What is promised -/

/-- Where a record's reason stands. -/
abbrev sidecar (name : String) : Path := ⟨.error, name ++ ".err"⟩

/-- **A reason stands beside its record**: the record installed with it. -/
def Matched (credit : Credit) (w : World) : Prop :=
  ∀ name, (w.fs.tree.ino (sidecar name)).isSome → ∃ i reason,
    w.fs.tree.ino ⟨.error, name⟩ = some i ∧ credit i = some reason ∧
      w.contents (sidecar name) = some (.regular, reason.toUTF8.toList)

/-- The archive is as it was. -/
def Untouched (w w' : World) : Prop :=
  ∀ p : Path, p.dir = .done ∨ p.dir = .error → w'.fs.tree.ino p = w.fs.tree.ino p ∧
    ∀ i, w.fs.tree.ino p = some i → w'.fs.tree.node i = w.fs.tree.node i

/-- **What is promised of every run** from a spool with nothing in `error/`. -/
def Truthful (S : SpoolCall → World → World → Prop) : Prop :=
  ∀ w₀ credit w, (∀ name, w₀.fs.tree.ino ⟨.error, name⟩ = none) → Run S w₀ credit w →
    Matched credit w ∧
      ∀ c w' cur dest, S c w w' → c.archives = some (cur, dest) → ¬ Installs cur dest w w' →
        Untouched w w'

/-! ## The condition -/

/-- The name is neither a sidecar's nor that of a marker put aside. -/
def Plain (name : String) : Prop := (∀ s, name ≠ s ++ ".err") ∧ ∀ s, name ≠ s ++ ".bak"

/-- The write of a sidecar, and the rename of a claim onto a marker. -/
def MovesClaim (cur : String) : Files.Op Dir String → Prop
  | .write .. => True
  | .rename p _ => p = curPath cur
  | _ => False

/-- The write of a sidecar, and the rename of a marker back to its place. -/
def PutsBack (cur : String) : Files.Op Dir String → Prop
  | .write .. => True
  | .rename p q => p ≠ curPath cur ∧ q = ⟨.done, cur⟩
  | _ => False

/-- The write of a sidecar, and the calls that install a claim. -/
def InstallsClaim (cur : String) : Files.Op Dir String → Prop
  | .write .. | .renameNoClobber .. => True
  | .rename p _ => p = curPath cur
  | _ => False

/-- **The condition on a call.** A `finalize_error` finds its claim, under
a plain name, and no rename of it fails, nor could a directory make it
fail; where a `finalize_done` fails to install its claim over a marker,
the marker goes back and nothing was lost where it stood meanwhile. -/
def Meets (cfg : Config) (c : SpoolCall) (w w' : World) : Prop :=
  match c with
  | .finalizeDone cur =>
    Ends (hostStep cfg.codec (Succeed (MovesClaim cur))) (c.run cfg) w () w' ∨
      (∀ n, w.fs.tree.ino (bakPath ⟨.done, cur⟩ n) = none) ∧
        Ends (hostStep cfg.codec (Succeed (PutsBack cur))) (c.run cfg) w () w'
  | .finalizeError cur _ => Plain cur ∧ (w.fs.tree.ino (curPath cur)).isSome ∧
      w.fs.tree.barred (curPath cur) ⟨.error, cur⟩ = false ∧
      Ends (hostStep cfg.codec (Succeed (InstallsClaim cur))) (c.run cfg) w () w'
  | c => Does cfg c w w'

/-! ## What an archive comes to -/

/-- The claim is the marker, and any marker before it is kept under
another name. -/
structure Placed (cur : String) (dest : Path) (t t' : Files.Tree Path) : Prop where
  claim : ∃ c, t.ino (curPath cur) = some c ∧ t'.ino dest = some c
  others : ∀ p, p ≠ curPath cur → p ≠ dest → (∀ n, p ≠ bakPath dest n) → t'.ino p = t.ino p
  stays : ∀ p, p ≠ curPath cur → (t.ino p).isSome → (t'.ino p).isSome
  node : t'.node = t.node

theorem placed_move (h : (t.ino (curPath cur)).isSome) :
    Placed cur dest t (t.move (curPath cur) dest) := by
  obtain ⟨c, hc⟩ := Option.isSome_iff_exists.mp h
  refine ⟨⟨c, hc, Files.Tree.ino_move_to hc⟩, fun p hp hd _ => Files.Tree.ino_move_of_ne hp hd,
    fun p hp hsome => ?_, Files.Tree.node_move⟩
  by_cases hd : p = dest
  · rw [hd, Files.Tree.ino_move_to hc]
    rfl
  · rwa [Files.Tree.ino_move_of_ne hp hd]

/-- What was at the marker's place is under another name, and the claim
in its place. -/
theorem placed_over {n : ℕ} (hdir : dest.dir ≠ .cur) (hc : (t.ino (curPath cur)).isSome)
    (hm : (t.ino dest).isSome) :
    Placed cur dest t ((t.move dest (bakPath dest n)).move (curPath cur) dest) := by
  obtain ⟨c, hc⟩ := Option.isSome_iff_exists.mp hc
  obtain ⟨m, hm⟩ := Option.isSome_iff_exists.mp hm
  have hcd : curPath cur ≠ dest := fun heq => hdir (congrArg Files.Path.dir heq).symm
  have hcb : curPath cur ≠ bakPath dest n := fun heq => hdir (congrArg Files.Path.dir heq).symm
  have hc₁ : (t.move dest (bakPath dest n)).ino (curPath cur) = some c := by
    rw [Files.Tree.ino_move_of_ne hcd hcb, hc]
  refine ⟨⟨c, hc, Files.Tree.ino_move_to hc₁⟩, fun p hp hd hb => ?_, fun p hp hsome => ?_, ?_⟩
  · rw [Files.Tree.ino_move_of_ne hp hd, Files.Tree.ino_move_of_ne hd (hb n)]
  · by_cases hd : p = dest
    · rw [hd, Files.Tree.ino_move_to hc₁]
      rfl
    · rw [Files.Tree.ino_move_of_ne hp hd]
      by_cases hb : p = bakPath dest n
      · rw [hb, Files.Tree.ino_move_to hm]
        rfl
      · rwa [Files.Tree.ino_move_of_ne hd hb]
  · rw [Files.Tree.node_move, Files.Tree.node_move]

theorem preserveExisting_ends {bak : Option Path}
    (h : Ends (hostStep C ok) (preserveExisting dest) w bak w') :
    (bak = none ∧ w'.fs.tree = w.fs.tree) ∨
      ∃ n, bak = some (bakPath dest n) ∧ (w.fs.tree.ino dest).isSome ∧
        w'.fs.tree = w.fs.tree.move dest (bakPath dest n) := by
  obtain ⟨r₁, w₁, h₁, h⟩ := ends_step.mp h
  have ht₁ := read_tree (o := .fs (.tryExists dest)) trivial h₁
  cases r₁ with
  | false =>
    obtain ⟨rfl, rfl⟩ := h
    exact .inl ⟨rfl, ht₁⟩
  | true =>
    obtain ⟨now, w₂, h₂, h⟩ := ends_step.mp h
    have ht₂ := read_tree (o := .fs .now) trivial h₂
    obtain ⟨r₃, w₃, h₃, h⟩ := ends_step.mp h
    rcases rename_tree h₃ with ⟨rfl, hsome, ht₃⟩ | ⟨⟨e, rfl⟩, ht₃, -⟩
    · obtain ⟨rfl, rfl⟩ := h
      rw [ht₂, ht₁] at hsome ht₃
      exact .inr ⟨now, rfl, hsome, ht₃⟩
    · obtain ⟨rfl, rfl⟩ := h
      exact .inl ⟨rfl, by rw [ht₃, ht₂, ht₁]⟩

/-- **What an archive comes to**: nothing, where there is no claim, a
rename fails or a directory bars it; the claim in its place; or a marker
put aside, where the claim could not be put in its place. -/
theorem archive_ends {r : Except String Bool} (hdir : dest.dir ≠ .cur)
    (h : Ends (hostStep C ok) (archive cur dest) w r w') :
    (r ≠ .ok true ∧ w'.fs.tree = w.fs.tree ∧ (w.fs.tree.ino (curPath cur) = none ∨
      MayFail ok (.renameNoClobber (curPath cur) dest) ∨
      w.fs.tree.barred (curPath cur) dest = true ∨ MayFail ok (.rename (curPath cur) dest))) ∨
    (r = .ok true ∧ Placed cur dest w.fs.tree w'.fs.tree) ∨
    (r ≠ .ok true ∧ MayFail ok (.rename (curPath cur) dest) ∧ ∃ n,
      w'.fs.tree = (w.fs.tree.move dest (bakPath dest n)).move (bakPath dest n) dest ∨
      MayFail ok (.rename (bakPath dest n) dest)) := by
  have hdest : curPath cur ≠ dest := fun heq => hdir (congrArg Files.Path.dir heq).symm
  obtain ⟨r₁, w₁, h₁, h⟩ := ends_step.mp h
  rcases renameNoClobber_tree h₁ with ⟨rfl, hsome, -, ht⟩ | ⟨rfl, ht, hsome, hmark⟩ |
    ⟨rfl, ht, hnone⟩ | ⟨rfl, ht, hfail⟩
  · obtain ⟨rfl, rfl⟩ := h
    exact .inr (.inl ⟨rfl, ht ▸ placed_move hsome⟩)
  · obtain ⟨bak, w₂, h₂, h⟩ := ends_bind.mp h
    rcases preserveExisting_ends h₂ with ⟨rfl, ht₂⟩ | ⟨n, rfl, -, ht₂⟩
    · obtain ⟨r₃, w₃, h₃, h⟩ := ends_step.mp h
      rw [ht] at ht₂
      rcases rename_tree h₃ with ⟨rfl, -, ht₃⟩ | ⟨⟨e, rfl⟩, ht₃, hwhy⟩
      · obtain ⟨rfl, rfl⟩ := h
        rw [ht₂] at ht₃
        exact .inr (.inl ⟨rfl, ht₃ ▸ placed_move hsome⟩)
      · obtain ⟨rfl, rfl⟩ := h
        rw [ht₂] at ht₃ hwhy
        exact .inl ⟨by simp, ht₃, hwhy.imp_right .inr⟩
    · obtain ⟨r₃, w₃, h₃, h⟩ := ends_step.mp h
      rw [ht] at ht₂
      have hclaim : (w₂.fs.tree.ino (curPath cur)).isSome := by
        have hcb : curPath cur ≠ bakPath dest n :=
          fun heq => hdir (congrArg Files.Path.dir heq).symm
        rwa [ht₂, Files.Tree.ino_move_of_ne hdest hcb]
      rcases rename_tree h₃ with ⟨rfl, -, ht₃⟩ | ⟨⟨e, rfl⟩, ht₃, hwhy⟩
      · obtain ⟨rfl, rfl⟩ := h
        rw [ht₂] at ht₃
        exact .inr (.inl ⟨rfl, ht₃ ▸ placed_over hdir hsome hmark⟩)
      · -- the marker is put back
        obtain ⟨r₄, w₄, h₄, h⟩ := ends_step.mp h
        obtain ⟨rfl, rfl⟩ := h
        obtain ⟨m, hm⟩ := Option.isSome_iff_exists.mp hmark
        have hfree : w₂.fs.tree.ino dest = none := by
          rw [ht₂, Files.Tree.ino_move_from (Archive.bakPath_ne n).symm]
        have hfail : MayFail ok (.rename (curPath cur) dest) := by
          rcases hwhy with hn | hbar | hfail
          · rw [hn] at hclaim
            cases hclaim
          · rw [Files.Tree.barred_of_free hfree] at hbar
            cases hbar
          · exact hfail
        refine .inr (.inr ⟨by simp, hfail, n, ?_⟩)
        rw [ht₂] at ht₃
        rcases rename_tree h₄ with ⟨rfl, -, ht₄⟩ | ⟨-, -, hwhy₄⟩
        · exact .inl (by rw [ht₄, ht₃])
        · refine .inr ?_
          rcases hwhy₄ with hn | hbar | hfail₄
          · rw [ht₃, Files.Tree.ino_move_to hm] at hn
            cases hn
          · rw [ht₃, Files.Tree.barred_of_free (ht₂ ▸ hfree)] at hbar
            cases hbar
          · exact hfail₄
  · obtain ⟨rfl, rfl⟩ := h
    exact .inl ⟨by simp, ht, .inl hnone⟩
  · obtain ⟨rfl, rfl⟩ := h
    exact .inl ⟨by simp, ht, .inr (.inl hfail)⟩

/-! ## Where the archive is not touched -/

/-- `error/` is as it was, but for times. -/
def Same (w w' : World) : Prop :=
  ∀ p : Path, p.dir = .error →
    w'.fs.tree.ino p = w.fs.tree.ino p ∧ w'.contents p = w.contents p

theorem Same.trans (h : Same w s) (h' : Same s w') : Same w w' :=
  fun p hp => ⟨(h' p hp).1.trans (h p hp).1, (h' p hp).2.trans (h p hp).2⟩

theorem same_of_tree (h : w'.fs.tree = w.fs.tree) : Same w w' := by
  intro p _
  unfold World.contents
  rw [h]
  exact ⟨rfl, rfl⟩

/-- The calls on files that name no path in `error/` and write to no file. -/
def Spares : Op → Prop
  | .fs o => (∀ p ∈ o.paths, p.dir ≠ .error) ∧ ∀ (s : FileState) i, ¬ o.Rewrites s i
  | _ => False

theorem same_host {o : Op} {r : Resp o} (ho : Spares o) (h : hostStep C ok o w r w') :
    Same w w' := by
  cases o with
  | fs o =>
    intro p hdir
    have hmem : p ∉ o.paths := fun hmem => ho.1 p hmem hdir
    exact ⟨ino_host h hmem, contents_host h hmem fun i _ => ho.2 w.fs i⟩
  | _ => exact ho.elim

theorem same_of_only {α : Type} {m : Prog Resp α} {a : α} (hm : m.Only Spares)
    (h : Ends (hostStep C ok) m w a w') : Same w w' :=
  h.only hm (B := Same w) (fun _ _ _ _ ho hs hB => hB.trans (same_host ho hs)) (same_of_tree rfl)

theorem spares_of_stamps {o : Op} (h : o.stamps) : Spares o := by
  cases o with
  | fs o =>
    obtain ⟨hpaths, hrw⟩ := Op.stamps.paths h
    exact ⟨by simp [hpaths], hrw⟩
  | _ => exact h.elim

/-- A claim is made in `cur/`. -/
theorem same_tryClaim {r : Except String (Option String)}
    (h : Ends (hostStep C ok) (tryClaim name) w r w') : Same w w' := by
  refine same_of_only ((tryClaim_only name).mono fun o ho => ?_) h
  cases o with
  | fs o =>
    cases o with
    | removeFile p =>
      refine ⟨fun p' hp' => ?_, fun _ _ => id⟩
      rw [List.mem_singleton.mp hp']
      rcases ho with rfl | rfl <;> simp
    | renameNoClobber p p' =>
      obtain ⟨rfl, rfl⟩ := ho
      refine ⟨fun q hq => ?_, fun _ _ => id⟩
      rcases List.mem_pair.mp hq with rfl | rfl <;> simp
    | tryExists p => exact ⟨by simp [Files.Op.paths], fun _ _ => id⟩
    | _ => exact spares_of_stamps ho
  | _ => exact ho.elim

/-- What is written to the file just created is written to no other. -/
theorem same_writeAll {i : Files.Ino} {data : Files.Bytes} {r : Except Files.Errno Unit}
    (h : hostStep C ok (.fs (.writeAll i data)) w r w') (hp : p.dir ≠ .error)
    (hi : w.fs.tree.ino p = some i) : Same w w' := by
  intro p' hdir
  have hmem : p' ∉ (Files.Op.writeAll i data : Files.Op Dir String).paths := by
    simp [Files.Op.paths]
  refine ⟨ino_host h hmem, contents_host h hmem fun j hj hrw => ?_⟩
  obtain rfl : j = i := hrw
  have hpp : p' = p := w.fs.tree.path_unique hj hi
  rw [hpp] at hdir
  exact hp hdir

theorem createNew_ino {i : Files.Ino} (h : hostStep C ok (.fs (.createNew p)) w (.ok i) w') :
    w'.fs.tree.ino p = some i := by
  obtain ⟨q, now, f, -, -, hs, rfl⟩ := fs_host h
  simp only [Files.step] at hs
  split at hs
  · cases hs
  · split at hs <;> cases hs
    exact Files.Tree.ino_create_self

/-- A synthetic claim is made in `cur/`. -/
theorem same_writeSyntheticClaim {job : JobStatus} {fullName : String}
    {r : Except String (Option String)}
    (h : Ends (hostStep C ok) (writeSyntheticClaim cfg job fullName) w r w') : Same w w' := by
  have hone : ∀ {o : Files.Op Dir String}, o.paths = [] → (∀ (s : FileState) i, ¬ o.Rewrites s i) →
      Spares (.fs o) := fun hp hw => ⟨by simp [hp], hw⟩
  obtain ⟨there, w₁, h₁, h⟩ := ends_step.mp h
  have hs₁ := same_host (hone rfl fun _ _ => id) h₁
  cases there with
  | true =>
    obtain ⟨rfl, rfl⟩ := h
    exact hs₁
  | false =>
    obtain ⟨nonce, w₂, h₂, h⟩ := ends_step.mp h
    have hs₂ := hs₁.trans (same_host (hone rfl fun _ _ => id) h₂)
    obtain ⟨written, w₃, h₃, h⟩ := ends_bind.mp h
    have hs₃ : Same w₂ w₃ := by
      obtain ⟨file, u₁, k₁, k⟩ := ends_step.mp h₃
      have ht₁ : Same w₂ u₁ := by
        refine same_host (o := .fs (.createNew _)) ⟨fun p hp => ?_, fun _ _ => id⟩ k₁
        rw [List.mem_singleton.mp hp]
        simp
      rcases file with e | i
      · obtain ⟨rfl, rfl⟩ := k
        exact ht₁
      · obtain ⟨r₂, u₂, k₂, k⟩ := ends_step.mp k
        have ht₂ := ht₁.trans (same_writeAll k₂ (by simp) (createNew_ino k₁))
        rcases r₂ with e | _
        · obtain ⟨rfl, rfl⟩ := k
          exact ht₂
        · obtain ⟨r₃, u₃, k₃, rfl, rfl⟩ := k
          exact ht₂.trans (same_host (hone rfl fun _ _ => id) k₃)
    refine (hs₂.trans hs₃).trans (same_of_only ?_ h)
    have hname : ∀ n p, p ∈ [curPath n] → p.dir ≠ Dir.error := by
      intro n p hp
      rw [List.mem_singleton.mp hp]
      simp
    rcases written with e | _
    · trivial
    · refine .step ⟨fun p hp => ?_, fun _ _ => id⟩ fun r => ?_
      · rcases List.mem_pair.mp hp with rfl | rfl <;> simp
      · split
        · exact ((stampMtimeNow_only _).mono fun o ho => spares_of_stamps ho).bind fun _ => trivial
        · exact .step ⟨hname _, fun _ _ => id⟩ fun _ => trivial
        · exact .step ⟨hname _, fun _ _ => id⟩ fun _ => trivial

/-- The outside puts files into `new/`. -/
theorem same_outside (e : Env) : Same w (e.step w) := by
  intro p hp
  have hino := Env.ino_step (w := w) e (p := p) (by simp [hp])
  refine ⟨hino, ?_⟩
  unfold World.contents
  rw [hino]
  cases hi : w.fs.tree.ino p with
  | none => rfl
  | some i =>
    cases e with
    | deliver name file =>
      have hne : i ≠ w.fs.tree.next := Nat.ne_of_lt (Files.Tree.lt_next_of_ino hi)
      simp only [Env.step, Files.State.tree_create, Option.map_some,
        Files.Tree.node_create_of_ne hne]
    | _ => rfl

/-! ## Finalizes -/

/-- The rest of a finalize: what it archives, and then times alone. -/
theorem archiveAndStamp_ends {context : String} {r : Except String Unit}
    (h : Ends (hostStep C ok) (archiveAndStamp context cur dest) w r w') :
    ∃ installed u, Ends (hostStep C ok) (archive cur dest) w installed u ∧
      (installed ≠ .ok true → w'.fs.tree = u.fs.tree) ∧
      ∀ p, w'.fs.tree.ino p = u.fs.tree.ino p ∧ w'.contents p = u.contents p := by
  obtain ⟨installed, u, h₁, h⟩ := ends_bind.mp h
  obtain ⟨⟨⟩, w₁, h₂, h⟩ := ends_bind.mp h
  obtain ⟨_, w₂, h₃, -, rfl⟩ := ends_step.mp h
  obtain ⟨-, -, -, -, hunlock⟩ := sched_host h₃
  refine ⟨installed, u, h₁, fun hnot => ?_, fun p => ?_⟩
  · rw [hunlock]
    rcases installed with e | installed
    · rw [h₂.2]
    · cases installed with
      | false => rw [h₂.2]
      | true => exact absurd rfl hnot
  · have hstamp : w₁.fs.tree.ino p = u.fs.tree.ino p ∧ w₁.contents p = u.contents p := by
      rcases installed with e | installed
      · rw [h₂.2]
        exact ⟨rfl, rfl⟩
      · cases installed with
        | false =>
          rw [h₂.2]
          exact ⟨rfl, rfl⟩
        | true => exact stampMtimeNow_alone h₂ p
    unfold World.contents at hstamp ⊢
    rw [hunlock]
    exact hstamp

/-- What stands at a path where nothing was moved. -/
theorem contents_of_ino (h : w'.fs.tree.ino p = w.fs.tree.ino p)
    (hnode : w'.fs.tree.node = w.fs.tree.node) : w'.contents p = w.contents p := by
  unfold World.contents
  rw [h, hnode]

theorem untouched_of_tree (h : w'.fs.tree = w.fs.tree) : Untouched w w' := by
  intro p _
  rw [h]
  exact ⟨rfl, fun _ _ => rfl⟩

/-- A marker put aside under a name of its own and put back. -/
theorem untouched_putBack {n : ℕ} (hfree : w.fs.tree.ino (bakPath dest n) = none)
    (h : w'.fs.tree = (w.fs.tree.move dest (bakPath dest n)).move (bakPath dest n) dest) :
    ∀ p, w'.fs.tree.ino p = w.fs.tree.ino p ∧ w'.fs.tree.node = w.fs.tree.node := by
  intro p
  refine ⟨?_, by rw [h, Files.Tree.node_move, Files.Tree.node_move]⟩
  rw [h]
  cases hm : w.fs.tree.ino dest with
  | none =>
    rw [Files.Tree.move_of_none hm, Files.Tree.move_of_none hfree]
  | some m =>
    have haside : (w.fs.tree.move dest (bakPath dest n)).ino (bakPath dest n) = some m :=
      Files.Tree.ino_move_to hm
    by_cases hd : p = dest
    · rw [hd, Files.Tree.ino_move_to haside, hm]
    · by_cases hb : p = bakPath dest n
      · rw [hb, Files.Tree.ino_move_from (Archive.bakPath_ne n), hfree]
      · rw [Files.Tree.ino_move_of_ne hb hd, Files.Tree.ino_move_of_ne hd hb]

/-- **A `finalize_done` that meets the condition** installs its claim or
leaves the archive as it was, and leaves `error/` alone. -/
theorem finalizeDone_meets (h : Meets cfg (.finalizeDone cur) w w') :
    Same w w' ∧ (Installs cur ⟨.done, cur⟩ w w' ∨ Untouched w w') := by
  -- either way it is a finalize whose marker goes back
  obtain ⟨ok, hend, hback⟩ : ∃ ok, Ends (hostStep cfg.codec ok)
      (SpoolCall.run cfg (.finalizeDone cur)) w () w' ∧
        (MayFail ok (.rename (curPath cur) ⟨.done, cur⟩) → ∀ n,
          w.fs.tree.ino (bakPath ⟨.done, cur⟩ n) = none ∧
            ¬ MayFail ok (.rename (bakPath ⟨.done, cur⟩ n) ⟨.done, cur⟩)) := by
    rcases h with h | ⟨hfree, h⟩
    · refine ⟨_, h, fun ⟨q, hq, hf⟩ => ?_⟩
      rw [hq rfl] at hf
      cases hf
    · refine ⟨_, h, fun _ n => ⟨hfree n, fun ⟨q, hq, hf⟩ => ?_⟩⟩
      rw [hq ⟨by simp [bakPath], rfl⟩] at hf
      cases hf
  obtain ⟨r, u, hend, -, rfl⟩ := ends_bind.mp hend
  obtain ⟨_, w₁, hlock, hend⟩ := ends_step.mp hend
  obtain ⟨-, -, -, -, htree⟩ := sched_host hlock
  obtain ⟨installed, v, harch, hnot, hstamp⟩ := archiveAndStamp_ends hend
  have hsame : Same v w' := fun p _ => hstamp p
  rcases archive_ends (by simp) harch with ⟨hr, ht, -⟩ | ⟨-, hplaced⟩ | ⟨hr, hfail, n, hmoves⟩
  · have hut : w'.fs.tree = w.fs.tree := by rw [hnot hr, ht, htree]
    exact ⟨same_of_tree hut, .inr (untouched_of_tree hut)⟩
  · rw [htree] at hplaced
    obtain ⟨c, hc, hd⟩ := hplaced.claim
    refine ⟨Same.trans (fun p hp => ?_) hsame, .inl ⟨c, hc, by rw [(hstamp _).1, hd]⟩⟩
    have hino : v.fs.tree.ino p = w.fs.tree.ino p :=
      hplaced.others p (fun heq => by rw [heq] at hp; cases hp)
        (fun heq => by rw [heq] at hp; cases hp) fun n heq => by rw [heq] at hp; cases hp
    exact ⟨hino, contents_of_ino hino hplaced.node⟩
  · obtain ⟨hfree, hput⟩ := hback hfail n
    have hvt := hmoves.resolve_right hput
    rw [htree] at hvt
    have hut := untouched_putBack hfree ((hnot hr).trans hvt)
    exact ⟨fun p _ => ⟨(hut p).1, contents_of_ino (hut p).1 (hut p).2⟩,
      .inr fun p _ => ⟨(hut p).1, fun i _ => by rw [(hut p).2]⟩⟩

theorem write_sidecar {data : Files.Bytes} {r : Except Files.Errno Unit}
    (h : hostStep C ok (.fs (.write p data)) w r w')
    (hok : ∀ q, ok (.fs (.write p data)) q → q.fails = false)
    (hreg : ∀ i, w.fs.tree.ino p = some i → (w.fs.tree.node i).kind = .regular) :
    w'.contents p = some (.regular, data) ∧
      ∀ p', p' ≠ p → w'.fs.tree.ino p' = w.fs.tree.ino p' ∧ w'.contents p' = w.contents p' := by
  have hothers : ∀ p', p' ≠ p →
      w'.fs.tree.ino p' = w.fs.tree.ino p' ∧ w'.contents p' = w.contents p' := by
    intro p' hne
    have hmem : p' ∉ (Files.Op.write p data : Files.Op Dir String).paths := by
      simpa [Files.Op.paths] using hne
    exact ⟨ino_host h hmem, contents_host h hmem fun i hi hrw =>
      hne (w.fs.tree.path_unique hi hrw)⟩
  refine ⟨?_, hothers⟩
  obtain ⟨q, now, f, hq, -, hs, rfl⟩ := fs_host h
  simp only [Files.step, hok q hq, Bool.false_eq_true, if_false] at hs
  split at hs
  · cases hs
    simp only [World.contents, Files.State.tree_create, Files.Tree.ino_create_self,
      Option.map_some, Files.Tree.node_create_self]
  · rename_i i hi
    have hi : w.fs.tree.ino p = some i := hi
    rw [if_neg (by rw [hreg i hi]; simp)] at hs
    cases hs
    simp only [World.contents, Files.State.tree_overwrite, Files.Tree.ino_setNode, hi,
      Option.map_some, Files.Tree.node_setNode_self, hreg i hi]

/-- What a `finalize_error` that meets the condition leaves. -/
structure Recorded (cur reason : String) (w w' : World) : Prop where
  installs : Installs cur ⟨.error, cur⟩ w w'
  reason : w'.contents (sidecar cur) = some (.regular, reason.toUTF8.toList)
  others : ∀ p : Path, p.dir = .error → p ≠ sidecar cur → p ≠ ⟨.error, cur⟩ →
    (∀ n, p ≠ bakPath ⟨.error, cur⟩ n) →
      w'.fs.tree.ino p = w.fs.tree.ino p ∧ w'.contents p = w.contents p

/-- **A `finalize_error` that meets the condition** installs its claim,
with its reason beside it. -/
theorem finalizeError_meets (h : Meets cfg (.finalizeError cur reason) w w')
    (hreg : ∀ i, w.fs.tree.ino (sidecar cur) = some i → (w.fs.tree.node i).kind = .regular) :
    Recorded cur reason w w' := by
  obtain ⟨hplain, hclaim, hunbarred, hend⟩ := h
  obtain ⟨r, u, hend, -, rfl⟩ := ends_bind.mp hend
  obtain ⟨_, w₁, hlock, hend⟩ := ends_step.mp hend
  obtain ⟨-, -, -, -, htree⟩ := sched_host hlock
  obtain ⟨r₂, w₂, hwrite, hend⟩ := ends_step.mp hend
  obtain ⟨hreason, hothers⟩ := write_sidecar hwrite (fun q hq => hq trivial) (by rwa [htree])
  obtain ⟨installed, v, harch, -, hstamp⟩ := archiveAndStamp_ends hend
  have hcur : w₂.fs.tree.ino (curPath cur) = w.fs.tree.ino (curPath cur) := by
    rw [(hothers _ (by simp)).1, htree]
  -- the claim is there, no rename fails and no directory is in the way
  have hcd : w₂.fs.tree.barred (curPath cur) ⟨.error, cur⟩ = false := by
    have htell : ∀ p, p ≠ sidecar cur → w₂.contents p = w.contents p := fun p hp =>
      (hothers p hp).2.trans (by unfold World.contents; rw [htree])
    rw [← hunbarred]
    exact barred_of_contents (htell _ (by simp))
      (htell _ fun heq => hplain.1 cur (congrArg Files.Path.name heq))
  have hsure : ∀ o, InstallsClaim cur o → ¬ MayFail (Succeed (InstallsClaim cur)) o := by
    rintro o ho ⟨q, hq, hf⟩
    rw [hq ho] at hf
    cases hf
  rcases archive_ends (by simp) harch with ⟨-, -, hwhy⟩ | ⟨-, hplaced⟩ | ⟨-, hfail, -⟩
  · rcases hwhy with hnone | hfail | hbar | hfail
    · rw [hcur] at hnone
      rw [hnone] at hclaim
      cases hclaim
    · exact absurd hfail (hsure _ trivial)
    · rw [hcd] at hbar
      cases hbar
    · exact absurd hfail (hsure _ rfl)
  · obtain ⟨c, hc, hd⟩ := hplaced.claim
    refine ⟨⟨c, hcur ▸ hc, by rw [(hstamp _).1, hd]⟩, ?_, fun p hdir hs hdest hbak => ?_⟩
    · have hself : v.fs.tree.ino (sidecar cur) = w₂.fs.tree.ino (sidecar cur) :=
        hplaced.others _ (by simp) (fun heq => by simp at heq) Archive.errPath_ne_bakPath
      rw [(hstamp _).2, contents_of_ino hself hplaced.node, hreason]
    · have hself : v.fs.tree.ino p = w₂.fs.tree.ino p :=
        hplaced.others p (fun heq => by rw [heq] at hdir; cases hdir) hdest hbak
      have hcontents : w₁.contents p = w.contents p := by
        unfold World.contents
        rw [htree]
      rw [(hstamp p).1, hself, (hothers p hs).1, htree, (hstamp p).2,
        contents_of_ino hself hplaced.node, (hothers p hs).2]
      exact ⟨rfl, hcontents⟩
  · exact absurd hfail (hsure _ rfl)

/-! ## Names -/

theorem sidecar_injective {a b : String} (h : sidecar a = sidecar b) : a = b := by
  have hname : (a ++ ".err").toList = (b ++ ".err").toList :=
    congrArg (fun p : Path => p.name.toList) h
  rw [String.toList_append, String.toList_append] at hname
  exact String.toList_injective (List.append_cancel_right hname)

/-- The name of a marker put aside. -/
theorem bakPath_name (dest : Path) (n : ℕ) : ∃ s, (bakPath dest n).name = s ++ ".bak" :=
  ⟨s!"{dest.name}.{n / 1000000}", rfl⟩

theorem sidecar_ne_bakPath (n : ℕ) : sidecar name ≠ bakPath dest n := by
  intro h
  obtain ⟨s, hs⟩ := bakPath_name dest n
  have hname : name ++ ".err" = s ++ ".bak" := (congrArg Files.Path.name h).trans hs
  have hlast := congrArg (fun s => s.toList.reverse.head?) hname
  simp [String.toList_append] at hlast

theorem Plain.ne_bakPath (h : Plain name) (n : ℕ) : (⟨.error, name⟩ : Path) ≠ bakPath dest n := by
  intro heq
  obtain ⟨s, hs⟩ := bakPath_name dest n
  exact h.2 s ((congrArg Files.Path.name heq).trans hs)

/-! ## Runs -/

/-- The invariant: reasons match, and belong to plain names. -/
structure Inv (credit : Credit) (w : World) : Prop where
  matched : Matched credit w
  plain : ∀ name, (w.fs.tree.ino (sidecar name)).isSome → Plain name

theorem Inv.same {credit : Credit} (hi : Inv credit w) (h : Same w w') : Inv credit w' := by
  have hsome : ∀ name, (w'.fs.tree.ino (sidecar name)).isSome →
      (w.fs.tree.ino (sidecar name)).isSome := by
    intro name hn
    rwa [(h (sidecar name) rfl).1] at hn
  refine ⟨fun name hn => ?_, fun name hn => hi.plain name (hsome name hn)⟩
  obtain ⟨i, reason, hrec, hcredit, hreason⟩ := hi.matched name (hsome name hn)
  exact ⟨i, reason, (h _ rfl).1.trans hrec, hcredit, (h _ rfl).2.trans hreason⟩

/-- Every sidecar is a file. -/
theorem Inv.regular {credit : Credit} (hi : Inv credit w) (i : Files.Ino)
    (h : w.fs.tree.ino (sidecar name) = some i) : (w.fs.tree.node i).kind = .regular := by
  obtain ⟨-, reason, -, -, hreason⟩ := hi.matched name (by rw [h]; rfl)
  unfold World.contents at hreason
  rw [h] at hreason
  exact (Prod.mk.inj (Option.some.inj hreason)).1

/-- A record is made, and those of other names stay as they are. -/
theorem Inv.recorded {credit : Credit} (hi : Inv credit w) (hplain : Plain cur)
    (h : Recorded cur reason w w') :
    Inv ((SpoolCall.finalizeError cur reason).credit w w' credit) w' := by
  obtain ⟨c, hc, hd⟩ := h.installs
  have hcredit : (SpoolCall.finalizeError cur reason).credit w w' credit =
      Function.update credit c (some reason) := by
    simp only [SpoolCall.credit, hc, hd, if_true]
  rw [hcredit]
  -- the sidecar of another name is as it was
  have hother : ∀ name, name ≠ cur →
      w'.fs.tree.ino (sidecar name) = w.fs.tree.ino (sidecar name) ∧
        w'.contents (sidecar name) = w.contents (sidecar name) := by
    intro name hne
    exact h.others _ rfl (fun heq => hne (sidecar_injective heq))
      (fun heq => hplain.1 name (congrArg Files.Path.name heq).symm) sidecar_ne_bakPath
  constructor
  · intro name hn
    by_cases hname : name = cur
    · subst hname
      exact ⟨c, reason, hd, Function.update_self .., h.reason⟩
    · obtain ⟨hino, hcontents⟩ := hother name hname
      rw [hino] at hn
      obtain ⟨i, reason', hrec, hcred, hreason⟩ := hi.matched name hn
      have hnamed := hi.plain name hn
      have hic : i ≠ c := by
        rintro rfl
        cases w.fs.tree.path_unique hrec hc
      refine ⟨i, reason', ?_, by rw [Function.update_of_ne hic, hcred], hcontents.trans hreason⟩
      have hino : w'.fs.tree.ino ⟨.error, name⟩ = w.fs.tree.ino ⟨.error, name⟩ :=
        (h.others _ rfl (fun heq => hnamed.1 cur (congrArg Files.Path.name heq))
          (fun heq => hname (congrArg Files.Path.name heq)) hnamed.ne_bakPath).1
      exact hino.trans hrec
  · intro name hn
    by_cases hname : name = cur
    · exact hname ▸ hplain
    · rw [(hother name hname).1] at hn
      exact hi.plain name hn

theorem Inv.call {credit : Credit} {c : SpoolCall} (hi : Inv credit w) (h : Meets cfg c w w') :
    Inv (c.credit w w' credit) w' := by
  cases c with
  | tryClaim name =>
    obtain ⟨r, u, hend, -, rfl⟩ := ends_bind.mp h
    exact hi.same (same_tryClaim hend)
  | writeSyntheticClaim job fullName =>
    obtain ⟨r, u, hend, -, rfl⟩ := ends_bind.mp h
    exact hi.same (same_writeSyntheticClaim hend)
  | finalizeDone cur => exact hi.same (finalizeDone_meets h).1
  | finalizeError cur reason => exact hi.recorded h.1 (finalizeError_meets h hi.regular)

theorem inv_of_run {credit : Credit} {w₀ : World} (hw : ∀ name, w₀.fs.tree.ino ⟨.error, name⟩ = none)
    (h : Run (Meets cfg) w₀ credit w) : Inv credit w := by
  induction h with
  | start =>
    constructor <;> intro name hn <;> rw [hw] at hn <;> cases hn
  | outside e _ ih => exact ih.same (same_outside e)
  | call c _ hc ih => exact ih.call hc

/-- A call that meets the condition is a call with its sidecar written. -/
theorem Meets.does {c : SpoolCall} (h : Meets cfg c w w') : Does cfg c w w' := by
  have hmono : ∀ {sure : Files.Op Dir String → Prop}, (∀ o, WritesSidecar o → sure o) →
      ∀ o q, Succeed sure o q → Succeed WritesSidecar o q := by
    intro sure hsure o q hq
    cases o with
    | fs o => exact fun ho => hq (hsure o ho)
    | _ => trivial
  have hwrite : ∀ {sure : Files.Op Dir String → Prop}, (∀ p data, sure (.write p data)) →
      ∀ o, WritesSidecar o → sure o := by
    intro sure hsure o ho
    cases o with
    | write p data => exact hsure p data
    | _ => exact ho.elim
  cases c with
  | tryClaim | writeSyntheticClaim => exact h
  | finalizeDone cur =>
    rcases h with h | ⟨-, h⟩
    · exact ends_mono h (hmono (hwrite fun _ _ => trivial))
    · exact ends_mono h (hmono (hwrite fun _ _ => trivial))
  | finalizeError cur reason => exact ends_mono h.2.2.2 (hmono (hwrite fun _ _ => trivial))

/-- **Where every call meets the condition, what is promised holds**: a
reason stands only beside the record installed with it, and a finalize
that installs nothing leaves the archive as it was. -/
theorem truthful_of_meets (cfg : Config) :
    (∀ c w w', Meets cfg c w w' → Does cfg c w w') ∧ Truthful (Meets cfg) := by
  refine ⟨fun c w w' => Meets.does, fun w₀ credit w hw hrun => ?_⟩
  have hi := inv_of_run hw hrun
  refine ⟨hi.matched, fun c w' cur dest h harch hnot => ?_⟩
  cases c with
  | tryClaim | writeSyntheticClaim => cases harch
  | finalizeDone cur =>
    cases harch
    exact (finalizeDone_meets h).2.resolve_left hnot
  | finalizeError cur reason =>
    cases harch
    exact absurd (finalizeError_meets h hi.regular).installs hnot

/-- Job 42 is claimed. -/
def claimedWorld : World := .sample [(curPath "42.job", ⟨.regular, [10], 0⟩)] 9000000000

theorem claimedWorld_empty (name : String) : claimedWorld.fs.tree.ino ⟨.error, name⟩ = none :=
  Files.Tree.ino_create_of_ne (by simp)

theorem plain_sample : Plain "42.job" := by
  constructor <;> intro s h <;>
    simpa [String.toList_append] using congrArg (fun x => x.toList.getLast?) h

/-- A claim given up with its reason. -/
theorem truthful_of_meets_sample :
    ∃ credit w, Run (Meets sampleConfig) claimedWorld credit w ∧
      w.contents (sidecar "42.job") = some (.regular, "stale claim".toUTF8.toList) ∧
        Matched credit w := by
  have h : (run sampleExec (SpoolCall.run sampleConfig (.finalizeError "42.job" "stale claim"))
      claimedWorld).map (fun x => x.2.contents (sidecar "42.job")) =
      some (some (.regular, "stale claim".toUTF8.toList)) := by decide +kernel
  obtain ⟨⟨⟨⟩, w⟩, hrun, hreason⟩ := Option.map_eq_some_iff.mp h
  have hok : ∀ o q, Faultless o q → Succeed (InstallsClaim "42.job") o q := by
    intro o q hq
    cases o with
    | fs o => exact fun _ => hq
    | _ => trivial
  have hmeets : Meets sampleConfig (.finalizeError "42.job" "stale claim") claimedWorld w :=
    ⟨plain_sample, by decide +kernel, by decide +kernel,
      ends_mono (ends_of_run hostStep_of_exec hrun) hok⟩
  have hr := Run.start.call _ hmeets
  exact ⟨_, w, hr, hreason,
    ((truthful_of_meets sampleConfig).2 claimedWorld _ w claimedWorld_empty hr).1⟩

/-! ## A reason without a record -/

/-- **Too late, and written all the same**: the job is done, and a second
finalize finds no claim to install. Its reason stands in `error/`, beside
no record. -/
theorem late_reason :
    (∃ w₁ w₂, Does sampleConfig (.finalizeDone "42.job") claimedWorld w₁ ∧
      Does sampleConfig (.finalizeError "42.job" "stale claim") w₁ w₂ ∧
      w₂.contents (sidecar "42.job") = some (.regular, "stale claim".toUTF8.toList) ∧
      w₂.fs.tree.ino ⟨.error, "42.job"⟩ = none) ∧
    ¬ Truthful (Does sampleConfig) := by
  have hfirst : (run sampleExec (SpoolCall.run sampleConfig (.finalizeDone "42.job"))
      claimedWorld).isSome = true := by decide +kernel
  have hsecond : ((run sampleExec (SpoolCall.run sampleConfig (.finalizeDone "42.job"))
      claimedWorld).bind fun x => (run sampleExec (SpoolCall.run sampleConfig
        (.finalizeError "42.job" "stale claim")) x.2).map fun y =>
          (y.2.contents (sidecar "42.job"), y.2.fs.tree.ino ⟨.error, "42.job"⟩)) =
      some (some (.regular, "stale claim".toUTF8.toList), none) := by decide +kernel
  obtain ⟨⟨⟨⟩, w₁⟩, hrun₁⟩ := Option.isSome_iff_exists.mp hfirst
  rw [hrun₁, Option.bind_some] at hsecond
  obtain ⟨⟨⟨⟩, w₂⟩, hrun₂, hleft⟩ := Option.map_eq_some_iff.mp hsecond
  obtain ⟨hreason, hnone⟩ := Prod.mk.inj hleft
  have hok : ∀ o q, Faultless o q → Succeed WritesSidecar o q := by
    intro o q hq
    cases o with
    | fs o => exact fun _ => hq
    | _ => trivial
  have hdone : Does sampleConfig (.finalizeDone "42.job") claimedWorld w₁ :=
    ends_mono (ends_of_run hostStep_of_exec hrun₁) hok
  have herror : Does sampleConfig (.finalizeError "42.job" "stale claim") w₁ w₂ :=
    ends_mono (ends_of_run hostStep_of_exec hrun₂) hok
  refine ⟨⟨w₁, w₂, hdone, herror, hreason, hnone⟩, fun h => ?_⟩
  obtain ⟨hmatched, -⟩ := h claimedWorld _ w₂ claimedWorld_empty
    ((Run.start.call _ hdone).call _ herror)
  have hthere : (w₂.fs.tree.ino (sidecar "42.job")).isSome := by
    unfold World.contents at hreason
    cases hi : w₂.fs.tree.ino (sidecar "42.job") with
    | none =>
      rw [hi] at hreason
      cases hreason
    | some i => rfl
  obtain ⟨i, reason, hrec, -⟩ := hmatched "42.job" hthere
  rw [hnone] at hrec
  cases hrec

end Sidecar

end GhaConsumer
