import GhaConsumer.Interleave.Lasting
import GhaConsumer.Warmer.Trust

/-!
# Warmer — scratch directories

Warms of one tip may overlap: coalescing lapses after its period. Each
has a scratch directory of its own, named by the attempt.
-/

namespace GhaConsumer

namespace Warm

open Interleave Text
open Warmer (WarmCandidate)
open Conf (warmSlug)

/-! ## Names -/

/-- What follows the last `c` of a list. -/
theorem eq_of_last {α : Type} {c : α} {x x' y y' : List α} (hy : c ∉ y) (hy' : c ∉ y')
    (h : x ++ c :: y = x' ++ c :: y') : y = y' := by
  rcases List.append_eq_append_iff.mp h with ⟨z, -, hz⟩ | ⟨z, -, hz⟩
  · cases z with
    | nil => exact (List.cons.inj hz).2
    | cons d z =>
      obtain ⟨rfl, rfl⟩ := List.cons.inj hz
      exact absurd (List.mem_append_right z List.mem_cons_self) hy
  · cases z with
    | nil => exact (List.cons.inj hz).2.symm
    | cons d z =>
      obtain ⟨rfl, rfl⟩ := List.cons.inj hz
      exact absurd (List.mem_append_right z List.mem_cons_self) hy'

/-- **Different attempts have different names**, whatever they are for. -/
theorem warmSlug_attempt {owner repo sha owner' repo' sha' : String} {a a' : UInt64}
    (h : warmSlug owner repo sha a = warmSlug owner' repo' sha' a') : a = a' := by
  have hdigits : ∀ a : UInt64, '-' ∉ Nat.toDigits 10 a.toNat := by
    intro a hmem
    have hdigit := Nat.isDigit_of_mem_toDigits (by decide) (by decide) hmem
    cases hdigit
  have hlast : ∀ (owner repo sha : String) (a : UInt64), ∃ x,
      (warmSlug owner repo sha a).toList = x ++ '-' :: Nat.toDigits 10 a.toNat := by
    intro owner repo sha a
    have hdash : "-".toList = ['-'] := by decide
    unfold warmSlug
    simp only [String.toList_append, Nat.toString_eq_ofList_toDigits, String.toList_ofList, hdash]
    exact ⟨_, List.append_assoc _ ['-'] _⟩
  obtain ⟨x, hx⟩ := hlast owner repo sha a
  obtain ⟨x', hx'⟩ := hlast owner' repo' sha' a'
  have heq := eq_of_last (hdigits a) (hdigits a') (hx.symm.trans ((congrArg String.toList h).trans hx'))
  have hnat := congrArg (fun ds => Nat.ofDigitChars 10 ds 0) heq
  simp only [Nat.ofDigitChars_ten_toDigits] at hnat
  exact UInt64.toNat_inj.mp hnat

section Paths

variable {w : Conf.Warmer} {cand cand' : WarmCandidate} {a a' : UInt64} {p q : OsPath}

/-- The directory all scratch directories are in. -/
def parentDir (w : Conf.Warmer) : OsPath := w.stateDir.join "warm"

theorem sep_not_mem_slug (owner repo sha : String) (a : UInt64) :
    OsPath.sep ∉ OsPath.ofString (warmSlug owner repo sha a) := fun hmem =>
  ((Conf.inName_warmSlug owner repo sha a).1 '/'
    ((mem_bytes_iff (c := '/') (by decide)).mp hmem)).slash rfl

/-- The name of an attempt, as a step of a path. -/
theorem slug_ends (owner repo sha : String) (a : UInt64) :
    OsPath.ofString (warmSlug owner repo sha a) ≠ [] ∧
      (OsPath.ofString (warmSlug owner repo sha a)).getLast? ≠ some OsPath.sep := by
  refine ⟨fun hnil => ?_, fun hlast => ?_⟩
  · have hempty : warmSlug owner repo sha a = "" := bytes_injective (hnil.trans (by decide))
    exact (Conf.inName_warmSlug owner repo sha a).2 (by rw [hempty]; rfl)
  · exact sep_not_mem_slug owner repo sha a (List.mem_of_getLast? hlast)

theorem root_eq (w : Conf.Warmer) (cand : WarmCandidate) (a : UInt64) :
    (scratch w cand a).root = parentDir w ++
      OsPath.sep :: OsPath.ofString (warmSlug cand.owner cand.repo cand.headSha a) := by
  obtain ⟨hname, hne⟩ := Conf.inName_warmSlug cand.owner cand.repo cand.headSha a
  have hrel := (Conf.inner_of_inName hname hne).2
  have hends : parentDir w ≠ [] ∧ (parentDir w).getLast? ≠ some OsPath.sep :=
    OsPath.join_ends (by decide) (by decide)
  unfold scratch
  rw [← parentDir, OsPath.join_eq hrel hends.1 hends.2]

/-- What is in the directory is a step further. -/
theorem root_join (w : Conf.Warmer) (cand : WarmCandidate) (a : UInt64) {s : String}
    (hrel : OsPath.isAbsolute (OsPath.ofString s) = false) :
    (scratch w cand a).root.join s =
      (scratch w cand a).root ++ OsPath.sep :: OsPath.ofString s := by
  have hends : (scratch w cand a).root ≠ [] ∧
      (scratch w cand a).root.getLast? ≠ some OsPath.sep := by
    obtain ⟨hne, hlast⟩ := slug_ends cand.owner cand.repo cand.headSha a
    have hends := OsPath.join_ends (p := parentDir w) hne hlast
    simp only [scratch]
    rwa [parentDir] at hends
  rw [OsPath.join_eq hrel hends.1 hends.2]

theorem home_eq (w : Conf.Warmer) (cand : WarmCandidate) (a : UInt64) :
    (scratch w cand a).home = (scratch w cand a).root ++ OsPath.sep :: OsPath.ofString "home" :=
  root_join w cand a (by decide)

theorem netrc_eq (w : Conf.Warmer) (cand : WarmCandidate) (a : UInt64) :
    (scratch w cand a).netrc = (scratch w cand a).root ++ OsPath.sep :: OsPath.ofString "netrc" :=
  root_join w cand a (by decide)

theorem rootsDir_eq (w : Conf.Warmer) (cand : WarmCandidate) (a : UInt64) :
    (scratch w cand a).rootsDir =
      (scratch w cand a).root ++ OsPath.sep :: OsPath.ofString "roots" :=
  root_join w cand a (by decide)

/-- The private configuration's place. -/
theorem nixConf_eq (w : Conf.Warmer) (cand : WarmCandidate) (a : UInt64) :
    (scratch w cand a).nixConfDir =
        (scratch w cand a).root ++ OsPath.sep :: OsPath.ofString "home/.config/nix" ∧
      (scratch w cand a).nixConfDir.join "nix.conf" =
        (scratch w cand a).root ++ OsPath.sep :: OsPath.ofString "home/.config/nix/nix.conf" := by
  have hstep : ∀ (xs : List UInt8) (s t u : String), OsPath.isAbsolute (OsPath.ofString t) = false →
      OsPath.ofString s ≠ [] → (OsPath.ofString s).getLast? ≠ some OsPath.sep →
      OsPath.ofString u = OsPath.ofString s ++ OsPath.sep :: OsPath.ofString t →
      OsPath.join (xs ++ OsPath.sep :: OsPath.ofString s) t = xs ++ OsPath.sep :: OsPath.ofString u := by
    intro xs s t u hrel hne hlast hu
    rw [OsPath.join_eq hrel (by simp), hu, List.append_assoc, List.cons_append]
    have hcons : xs ++ OsPath.sep :: OsPath.ofString s = (xs ++ [OsPath.sep]) ++ OsPath.ofString s := by
      rw [List.append_assoc, List.cons_append, List.nil_append]
    rw [hcons, List.getLast?_append_of_ne_nil _ hne]
    exact hlast
  have hdir : (scratch w cand a).nixConfDir =
      (scratch w cand a).root ++ OsPath.sep :: OsPath.ofString "home/.config/nix" := by
    unfold WarmWorkdir.nixConfDir
    rw [home_eq, hstep _ "home" ".config" "home/.config" (by decide) (by decide) (by decide)
      (by decide), hstep _ "home/.config" "nix" "home/.config/nix" (by decide) (by decide)
      (by decide) (by decide)]
  refine ⟨hdir, ?_⟩
  rw [hdir, hstep _ "home/.config/nix" "nix.conf" "home/.config/nix/nix.conf" (by decide)
    (by decide) (by decide) (by decide)]

/-- **Scratch directories that have a path in common are of one attempt.** -/
theorem attempt_of_under (h : OsPath.under (scratch w cand a).root p = true)
    (h' : OsPath.under (scratch w cand' a').root p = true) : a = a' := by
  rw [root_eq] at h h'
  have hname := OsPath.name_unique (sep_not_mem_slug _ _ _ _) (sep_not_mem_slug _ _ _ _) h h'
  exact warmSlug_attempt (bytes_injective hname)

/-- The path is one to the directory they are all in. -/
def Above (w : Conf.Warmer) (p : OsPath) : Prop := OsPath.under p (parentDir w) = true

/-- A path to something in a scratch directory is in it, or above. -/
theorem under_or_above (h : OsPath.under (scratch w cand a).root p = true)
    (hq : OsPath.under q p = true) : OsPath.under (scratch w cand a).root q = true ∨ Above w q := by
  rcases OsPath.under_total h hq with hin | hup
  · exact .inl hin
  · rw [root_eq] at hup
    rcases OsPath.under_name (sep_not_mem_slug _ _ _ _) hup with rfl | hup
    · rw [← root_eq]
      exact .inl (OsPath.under_refl _)
    · exact .inr hup

/-- Nothing in a scratch directory is above it. -/
theorem not_above (h : OsPath.under (scratch w cand a).root p = true) : ¬ Above w p := by
  intro hup
  have hle := OsPath.length_le_of_under (OsPath.under_trans h hup)
  rw [root_eq] at hle
  simp only [List.length_append, List.length_cons] at hle
  omega

end Paths

/-! ## Whose a directory is -/

/-- The thread has drawn the directory's name. -/
def Owns (w : Conf.Warmer) (allowed : List String) (t : Tid) (root : OsPath) (τ : List Line) : Prop :=
  ∃ event cand a x σ, .did t event .nextAttempt a x :: σ <:+ τ ∧
    parseCandidate event allowed = some cand ∧ root = (scratch w cand a).root

variable {w : Conf.Warmer} {allowed : List String} {c₀ c c' : Pool}
variable {Meets : Shared Resp WorkflowJob World → Line → Prop}

theorem Owns.suffix {t : Tid} {root : OsPath} {τ σ : List Line} (h : Owns w allowed t root σ)
    (hsuf : σ <:+ τ) : Owns w allowed t root τ := by
  obtain ⟨event, cand, a, x, ρ, hline, hparse, hroot⟩ := h
  exact ⟨event, cand, a, x, ρ, hline.trans hsuf, hparse, hroot⟩

/-- A child changes what it writes. -/
theorem Scribble.changed {e : Scribble} {x x' : World} (h : e.apply x = some x') :
    e.writer ∈ x.running ∧ x'.running = x.running ∧ x'.attempts = x.attempts ∧
      x'.scribbles = e :: x.scribbles ∧
        ∀ p, x'.disk p ≠ x.disk p → ∃ n, (p, n) ∈ e.writes := by
  unfold Scribble.apply at h
  split at h
  · rename_i hwriter
    cases h
    refine ⟨hwriter, rfl, rfl, rfl, fun p hne => ?_⟩
    cases hlook : e.writes.lookup p with
    | none =>
      refine absurd ?_ hne
      show (e.writes.lookup p).getD (x.disk p) = x.disk p
      rw [hlook]
      rfl
    | some n =>
      obtain ⟨l, l', heq, -⟩ := List.lookup_eq_some_iff.mp hlook
      exact ⟨n, heq ▸ List.mem_append_right l List.mem_cons_self⟩
  · cases h

theorem Owns.not_above {t : Tid} {root p : OsPath} {τ : List Line} (h : Owns w allowed t root τ)
    (hup : OsPath.under root p = true) : ¬ Above w p := by
  obtain ⟨event, cand, a, x, ρ, -, -, rfl⟩ := h
  exact Warm.not_above hup

/-- An attempt counted stays counted. -/
theorem lasting_attempts (n : ℕ) : (machine w allowed).Lasting fun x => n ≤ x.attempts where
  step {t o q r x x'} h hn := by
    have h : step w t o q x = some (r, x') := h
    have hsame : x'.attempts = x.attempts ∨ x'.attempts = x.attempts + 1 := by
      cases o with
      | gate o =>
        obtain ⟨⟨r', g⟩, -, heq⟩ := Option.map_eq_some_iff.mp h
        cases heq
        exact .inl rfl
      | nextAttempt =>
        cases h
        exact .inr rfl
      | spawn child =>
        cases q with
        | error e =>
          cases h
          exact .inl rfl
        | ok pid =>
          simp only [step] at h
          split at h
          · cases h
          · cases h
            exact .inl rfl
      | wait pid =>
        cases q <;> cases h <;> exact .inl rfl
      | _ =>
        cases h
        exact .inl rfl
    show n ≤ x'.attempts
    omega
  leave hn := hn
  crash h := by cases h
  env {e x x'} h hn := by
    have hsame := (Scribble.changed h).2.2.1
    show n ≤ x'.attempts
    omega

/-- What a child has written stays written. -/
theorem lasting_scribbles (σ : List Scribble) :
    (machine w allowed).Lasting fun x => σ <:+ x.scribbles where
  step {t o q r x x'} h hσ := by
    have h : step w t o q x = some (r, x') := h
    have hsame : x'.scribbles = x.scribbles := by
      cases o with
      | gate o =>
        obtain ⟨⟨r', g⟩, -, heq⟩ := Option.map_eq_some_iff.mp h
        cases heq
        rfl
      | spawn child =>
        cases q with
        | error e =>
          cases h
          rfl
        | ok pid =>
          simp only [step] at h
          split at h
          · cases h
          · cases h
            rfl
      | wait pid => cases q <;> cases h <;> rfl
      | _ =>
        cases h
        rfl
    show σ <:+ x'.scribbles
    rwa [hsame]
  leave hσ := hσ
  crash h := by cases h
  env {e x x'} h hσ := by
    have hmore := (Scribble.changed h).2.2.2.1
    show σ <:+ x'.scribbles
    rw [hmore]
    exact hσ.trans (List.suffix_cons e _)

theorem childrenInside_of_step {e : Option Line} (hs : (machine w allowed).Step c e c')
    (h : c'.world.ChildrenInside) : c.world.ChildrenInside :=
  fun y hy => h y (((lasting_scribbles c.world.scribbles).next hs (List.suffix_refl _)).subset hy)

/-- Each attempt is counted when it is drawn. -/
theorem counted (h₀ : Start w allowed c₀) (hr : (machine w allowed).Run Meets c₀ c) {t : Tid}
    {event : WorkflowJob} {a : UInt64} {x : World} {σ : List Line}
    (hsuf : .did t event .nextAttempt a x :: σ <:+ c.trace) :
    x.attempts < c.world.attempts ∧ a = UInt64.ofNat x.attempts := by
  obtain ⟨c₁, c₂, -, rfl, -, hstep, hrest⟩ := hr.since h₀.trace hsuf
  cases hstep with
  | call hat hq hnew =>
    cases hq
    exact ⟨(lasting_attempts _).run hrest (Nat.le_refl _), rfl⟩

/-- Of two draws the earlier has the smaller count. -/
theorem counted_lt (h₀ : Start w allowed c₀) (hr : (machine w allowed).Run Meets c₀ c) {t u : Tid}
    {event event' : WorkflowJob} {a a' : UInt64} {x x' : World} {σ σ' : List Line}
    (hsuf : .did t event .nextAttempt a x :: σ <:+ c.trace)
    (hsuf' : .did u event' .nextAttempt a' x' :: σ' <:+ σ) : x'.attempts < x.attempts := by
  obtain ⟨c₁, c₂, hr₁, rfl, rfl, -, -⟩ := hr.since h₀.trace hsuf
  exact (counted h₀ hr₁ hsuf').1

/-- **No two warms share a directory**, as long as the counter has not come
round. -/
theorem owns_unique (h₀ : Start w allowed c₀) (hr : (machine w allowed).Run Meets c₀ c)
    (hcount : c.world.attempts ≤ 2 ^ 64) {t u : Tid} {root root' p : OsPath}
    (ht : Owns w allowed t root c.trace) (hu : Owns w allowed u root' c.trace)
    (hp : OsPath.under root p = true) (hp' : OsPath.under root' p = true) : t = u ∧ root = root' := by
  obtain ⟨event, cand, a, x, σ, hline, hparse, rfl⟩ := ht
  obtain ⟨event', cand', a', x', σ', hline', hparse', rfl⟩ := hu
  obtain ⟨hlt, ha⟩ := counted h₀ hr hline
  obtain ⟨hlt', ha'⟩ := counted h₀ hr hline'
  have hattempt : a = a' := attempt_of_under hp hp'
  have hcounts : x.attempts = x'.attempts := by
    have hnat := congrArg UInt64.toNat (ha.symm.trans (hattempt.trans ha'))
    simp only [UInt64.toNat_ofNat'] at hnat
    omega
  -- the draws are one line, or one is before the other
  have hapart : ∀ {v v' : Tid} {k k' : WorkflowJob} {b b' : UInt64} {y y' : World}
      {ρ ρ' : List Line}, .did v k .nextAttempt b y :: ρ <:+ c.trace → y.attempts = y'.attempts →
      ¬ .did v' k' .nextAttempt b' y' :: ρ' <:+ ρ := by
    intro v v' k k' b b' y y' ρ ρ' h heq h'
    exact absurd heq (Nat.ne_of_gt (counted_lt h₀ hr h h'))
  rcases List.suffix_or_suffix_of_suffix hline hline' with hin | hin
  · rcases List.suffix_cons_iff.mp hin with heq | hin
    · cases heq
      obtain rfl : cand = cand' := Option.some.inj (hparse.symm.trans hparse')
      exact ⟨rfl, rfl⟩
    · exact absurd hin (hapart hline' hcounts.symm)
  · rcases List.suffix_cons_iff.mp hin with heq | hin
    · cases heq
      obtain rfl : cand = cand' := Option.some.inj (hparse.symm.trans hparse')
      exact ⟨rfl, rfl⟩
    · exact absurd hin (hapart hline hcounts)

/-! ## What a call does to the disk -/

/-- A removal, whatever it comes to. -/
theorem Disk.remove_cases {disk : Disk} {d : OsPath} {q : Option Fault} {P : Disk → Prop}
    (hkeep : P disk) (hremove : ∀ reached, P (disk.remove d reached)) :
    P (disk.step (.removeDirAll d) q).2 := by
  cases q with
  | none =>
    simp only [Disk.step]
    split
    · exact hkeep
    · exact hremove _
  | some f => exact hremove _

/-- A call changes what it is about; a directory made on the way to it was
not there. -/
theorem Disk.changed {disk : Disk} {o : Fs} {q : Option Fault} {p : OsPath}
    (h : (disk.step o q).2 p ≠ disk p) :
    (∃ d, o = .createDirAll d ∧ OsPath.under p d = true ∧ disk p = none) ∨
      (∃ d, o = .removeDirAll d ∧ OsPath.under d p = true) ∨
      o = .createDir p ∨ (∃ m, o = .createNew p m) ∨ ∃ b, o = .writeAll p b := by
  have hmkdirs : ∀ {d : OsPath} {reached : OsPath → Bool}, disk.mkdirs d reached p ≠ disk p →
      OsPath.under p d = true ∧ disk p = none := by
    intro d reached h
    unfold Disk.mkdirs at h
    split at h
    · rename_i hcond
      simp only [Bool.and_eq_true, Option.isNone_iff_eq_none] at hcond
      exact ⟨hcond.1.1, hcond.2⟩
    · exact absurd rfl h
  have hremove : ∀ {d : OsPath} {reached : OsPath → Bool}, disk.remove d reached p ≠ disk p →
      OsPath.under d p = true := by
    intro d reached h
    unfold Disk.remove at h
    split at h
    · rename_i hcond
      exact (Bool.and_eq_true_iff.mp hcond).1
    · exact absurd rfl h
  have hupdate : ∀ {d : OsPath} {n : Option Node}, Function.update disk d n p ≠ disk p → d = p := by
    intro d n h
    by_contra hne
    exact h (Function.update_of_ne (Ne.symm hne) ..)
  cases o with
  | createDirAll d =>
    cases q with
    | none =>
      change disk.mkdirs d (fun _ => true) p ≠ disk p at h
      obtain ⟨hup, hnone⟩ := hmkdirs h
      exact .inl ⟨d, rfl, hup, hnone⟩
    | some f =>
      -- a call that fails may still have made some of the directories
      change disk.mkdirs d f.reached p ≠ disk p at h
      obtain ⟨hup, hnone⟩ := hmkdirs h
      exact .inl ⟨d, rfl, hup, hnone⟩
  | removeDirAll d =>
    refine .inr (.inl ⟨d, rfl, ?_⟩)
    exact Disk.remove_cases (P := fun disk' => disk' p ≠ disk p → OsPath.under d p = true)
      (fun hne => absurd rfl hne) (fun _ => hremove) h
  | setPermissions d m => cases q <;> exact absurd rfl h
  | writeAll d b =>
    cases q with
    | none =>
      obtain rfl := hupdate h
      exact .inr (.inr (.inr (.inr ⟨b, rfl⟩)))
    | some f =>
      obtain rfl := hupdate h
      exact .inr (.inr (.inr (.inr ⟨b, rfl⟩)))
  | createDir d =>
    cases q with
    | none =>
      simp only [Disk.step] at h
      split at h
      · exact absurd rfl h
      · obtain rfl := hupdate h
        exact .inr (.inr (.inl rfl))
    | some f => exact absurd rfl h
  | createNew d m =>
    cases q with
    | none =>
      simp only [Disk.step] at h
      split at h
      · exact absurd rfl h
      · obtain rfl := hupdate h
        exact .inr (.inr (.inr (.inl ⟨m, rfl⟩)))
    | some f => exact absurd rfl h

/-- A removal makes nothing. -/
theorem Disk.removed {disk : Disk} {d p : OsPath} {q : Option Fault} (hp : disk p = none) :
    (disk.step (.removeDirAll d) q).2 p = none := by
  refine Disk.remove_cases (P := fun disk' => disk' p = none) hp fun reached => ?_
  unfold Disk.remove
  split
  · rfl
  · exact hp

/-- One that succeeds leaves nothing of the directory. -/
theorem Disk.gone {disk : Disk} {d p : OsPath} {q : Option Fault} (hup : OsPath.under d p = true)
    (hok : (disk.step (.removeDirAll d) q).1 = .ok ()) :
    (disk.step (.removeDirAll d) q).2 p = none := by
  cases q with
  | none =>
    simp only [Disk.step] at hok ⊢
    split at hok
    · cases hok
    · rename_i hthere
      rw [if_neg hthere]
      simp [Disk.remove, hup]
  | some f => cases hok

/-- The parent is made with what is above it. -/
theorem parent_changed {disk : Disk} {o : Fs} {q : Option Fault} {p : OsPath}
    (ho : o = .createDirAll (parentDir w) ∨ o = .setPermissions (parentDir w) 0o700)
    (hne : (disk.step o q).2 p ≠ disk p) : Above w p ∧ disk p = none := by
  rcases ho with rfl | rfl
  · rcases Disk.changed hne with ⟨d, hd, hup, hnone⟩ | ⟨d, hd, -⟩ | hd | ⟨m, hd⟩ | ⟨b, hd⟩ <;> cases hd
    exact ⟨hup, hnone⟩
  · cases q <;> exact absurd rfl hne

section Layout

variable {cand : WarmCandidate} {s : Trip} {o : Fs} {p : OsPath}

/-- The path a call is about. -/
def Fs.path : Fs → OsPath
  | .createDirAll p | .createDir p | .setPermissions p _ | .removeDirAll p | .createNew p _
  | .writeAll p _ => p

/-- The two files a warm is configured by. -/
def Config (w : Conf.Warmer) (cand : WarmCandidate) (s : Trip) (p : OsPath) : Prop :=
  p = (scratch w cand s.attempt).netrc ∨ p = (scratch w cand s.attempt).nixConfDir.join "nix.conf"

theorem under_config (h : Config w cand s p) :
    OsPath.under (scratch w cand s.attempt).root p = true := by
  rcases h with rfl | rfl
  · rw [netrc_eq]
    exact OsPath.under_sep _ _
  · rw [(nixConf_eq w cand s.attempt).2]
    exact OsPath.under_sep _ _

/-- A layout is about what is in its directory, and removes nothing. -/
theorem layout_inside (h : o ∈ layout w cand s) :
    OsPath.under (scratch w cand s.attempt).root o.path = true ∧ ∀ d, o ≠ .removeDirAll d := by
  have hself := OsPath.under_refl (scratch w cand s.attempt).root
  have hnetrc := under_config (w := w) (s := s) (.inl (Eq.refl (scratch w cand s.attempt).netrc))
  have hroots : OsPath.under (scratch w cand s.attempt).root (scratch w cand s.attempt).rootsDir =
      true := by
    rw [rootsDir_eq]
    exact OsPath.under_sep _ _
  have hdir : OsPath.under (scratch w cand s.attempt).root (scratch w cand s.attempt).nixConfDir =
      true := by
    rw [(nixConf_eq w cand s.attempt).1]
    exact OsPath.under_sep _ _
  have hconf := under_config (w := w) (s := s)
    (.inr (Eq.refl ((scratch w cand s.attempt).nixConfDir.join "nix.conf")))
  simp only [layout] at h
  generalize (scratch w cand s.attempt).netrc = netrc at h hnetrc
  generalize (scratch w cand s.attempt).rootsDir = roots at h hroots
  generalize (scratch w cand s.attempt).nixConfDir.join "nix.conf" = conf at h hconf
  generalize (scratch w cand s.attempt).nixConfDir = dir at h hdir
  generalize (scratch w cand s.attempt).root = root at *
  simp only [List.mem_cons, List.not_mem_nil, or_false] at h
  rcases h with rfl | rfl | rfl | rfl | rfl | rfl | rfl | rfl | rfl | rfl
  · exact ⟨hself, by simp⟩
  · exact ⟨hself, by simp⟩
  · exact ⟨hdir, by simp⟩
  · exact ⟨hdir, by simp⟩
  · exact ⟨hroots, by simp⟩
  · exact ⟨hroots, by simp⟩
  · exact ⟨hnetrc, by simp⟩
  · exact ⟨hnetrc, by simp⟩
  · exact ⟨hconf, by simp⟩
  · exact ⟨hconf, by simp⟩

/-- So it changes that, or makes a directory above. -/
theorem layout_changed (h : o ∈ layout w cand s) {disk : Disk} {q : Option Fault}
    (hp : (disk.step o q).2 p ≠ disk p) :
    OsPath.under (scratch w cand s.attempt).root p = true ∨ (Above w p ∧ disk p = none) := by
  obtain ⟨hin, hkeeps⟩ := layout_inside h
  rcases Disk.changed hp with ⟨d, rfl, hup, hnone⟩ | ⟨d, rfl, -⟩ | rfl | ⟨m, rfl⟩ | ⟨b, rfl⟩
  · exact (under_or_above hin hup).imp id fun habove => ⟨habove, hnone⟩
  · exact absurd rfl (hkeeps d)
  · exact .inl hin
  · exact .inl hin
  · exact .inl hin

/-- What is written, and where. -/
theorem layout_writes {b : List UInt8} (h : .writeAll p b ∈ layout w cand s) :
    (p = (scratch w cand s.attempt).netrc ∧ b = bytes (netrcContents s.token)) ∨
      (p = (scratch w cand s.attempt).nixConfDir.join "nix.conf" ∧
        b = bytes (w.nixConf (warmSlug cand.owner cand.repo cand.headSha s.attempt))) := by
  simpa [layout] using h

/-- The two files are two. -/
theorem netrc_ne_nixConf : (scratch w cand s.attempt).netrc ≠
    (scratch w cand s.attempt).nixConfDir.join "nix.conf" := by
  rw [netrc_eq, (nixConf_eq w cand s.attempt).2]
  intro heq
  have hlength := congrArg List.length (List.append_cancel_left heq)
  revert hlength
  decide

end Layout

/-! ## What the phases say of the disk and the children -/

section Phase

variable {cand : WarmCandidate} {phase phase' : Phase} {root : OsPath} {e : Event Resp}

/-- The attempt a warm is at. -/
def Phase.trip : Phase → Option Trip
  | .named s | .laying s _ _ | .inside s _ _ | .spoiled s => some s
  | _ => none

/-- The directory may be there. -/
def Phase.Occupies (w : Conf.Warmer) (cand : WarmCandidate) (root : OsPath) : Phase → Prop
  | .laying s _ _ | .inside s _ _ | .spoiled s => root = (scratch w cand s.attempt).root
  | _ => False

/-- The children that may be running. -/
def Phase.pids : Phase → List Pid
  | .inside _ _ pids => pids
  | _ => []

/-- What has been written is there. -/
def Phase.Written (w : Conf.Warmer) (cand : WarmCandidate) (disk : Disk) : Phase → Prop
  | .laying s done _ => ∀ p b, .writeAll p b ∈ done → .writeAll p b ∈ layout w cand s →
    disk p = some (.file b)
  | .inside s _ _ => ∀ p b, .writeAll p b ∈ layout w cand s → disk p = some (.file b)
  | _ => True

/-- A directory stays occupied up to a call that removes it. -/
theorem occupies_step (h : phase.Occupies w cand root) (hs : Step w cand phase e phase') :
    phase'.Occupies w cand root ∨ ∃ r, e = ⟨.fs (.removeDirAll root), r⟩ := by
  cases hs with
  | @lay s o done todo =>
    refine .inl ?_
    cases todo <;> exact h
  | unlay | leave =>
    obtain rfl : root = _ := h
    exact .inr ⟨_, rfl⟩
  | _ => first | exact .inl h | exact h.elim

/-- The directory has been asked for. -/
def Asked (root : OsPath) (ρ : Interleave.History Resp) : Prop :=
  ∃ r, (⟨.fs (.createDir root), r⟩ : Event Resp) ∈ ρ

/-- A directory that is occupied and removed was asked for before. -/
theorem asked_of_removal {ρ : Interleave.History Resp} {o : Fs} {r : Except String Unit}
    (hshows : phase.Shows w cand ρ) (h : phase.Occupies w cand root) (ho : o = .removeDirAll root)
    (hs : Step w cand phase ⟨.fs o, r⟩ phase') : Asked root ρ := by
  cases hs with
  | @unlay s =>
    have hspoiled : Ordered (spoiling w cand s) ρ := hshows
    have hroot : root = (scratch w cand s.attempt).root := h
    obtain ⟨e, he, r, rfl⟩ := hspoiled.mem
    rw [hroot]
    exact ⟨r, he⟩
  | @leave s =>
    have hlaid : Ordered (laidOut w cand s) ρ := hshows
    have hroot : root = (scratch w cand s.attempt).root := h
    obtain ⟨e, he, r, rfl⟩ := (ordered_of_laidOut hlaid).mem
    rw [hroot]
    exact ⟨r, he⟩
  | @lay s o done todo hlayout | @spoil s o done todo e hlayout =>
    have hmem : o ∈ layout w cand s := by
      rw [hlayout]
      exact List.mem_append_right _ List.mem_cons_self
    exact absurd ho ((layout_inside hmem).2 root)
  | parent | orphan | clean => exact h.elim
  | drop ho => simp at ho

/-- Each call of a warm on the disk: the parent's, its directory's removal,
or one of the layout. -/
theorem fs_step {o : Fs} {r : Except String Unit} (hs : Step w cand phase ⟨.fs o, r⟩ phase') :
    (o = .createDirAll (parentDir w) ∨ o = .setPermissions (parentDir w) 0o700) ∨
      ∃ s, phase.trip = some s ∧ (o = .removeDirAll (scratch w cand s.attempt).root ∨
        (o ∈ layout w cand s ∧ phase'.Occupies w cand (scratch w cand s.attempt).root)) := by
  cases hs with
  | parent h | orphan h => exact .inl h
  | @clean s => exact .inr ⟨s, rfl, .inl rfl⟩
  | @unlay s | @leave s => exact .inr ⟨s, rfl, .inl rfl⟩
  | @lay s o done todo hlayout =>
    refine .inr ⟨s, rfl, .inr ⟨?_, ?_⟩⟩
    · rw [hlayout]
      exact List.mem_append_right _ List.mem_cons_self
    · cases todo <;> rfl
  | @spoil s o done todo e hlayout =>
    refine .inr ⟨s, rfl, .inr ⟨?_, rfl⟩⟩
    rw [hlayout]
    exact List.mem_append_right _ List.mem_cons_self
  | drop h => simp at h

/-- A child is started inside, in the home there, and stays there. -/
theorem spawn_step {child : Child} {r : Except String Pid}
    (hs : Step w cand phase ⟨.spawn child, r⟩ phase') :
    ∃ s stage pids stage', phase = .inside s stage pids ∧
      phase' = .inside s stage' (alsoRunning pids r) ∧
        child.cwd = (scratch w cand s.attempt).home := by
  cases hs with
  | @seed s => exact ⟨s, _, _, _, rfl, rfl, by simp only [seedInputs, command]⟩
  | @look s => exact ⟨s, _, _, _, rfl, rfl, by simp only [showClosure, command]⟩
  | @filter s => exact ⟨s, _, _, _, rfl, rfl, by simp only [filterClosure, command]⟩
  | @build s => exact ⟨s, _, _, _, rfl, rfl, by simp only [build, command]⟩
  | @copy s => exact ⟨s, _, _, _, rfl, rfl, by simp only [copy, command]⟩
  | drop h => simp at h

/-- The child is one of those in the directory. -/
def Phase.Houses (w : Conf.Warmer) (cand : WarmCandidate) (root : OsPath) (pid : Pid)
    (phase : Phase) : Prop :=
  phase.Occupies w cand root ∧ pid ∈ phase.pids

/-- The child has been seen to end, or been made to. -/
def Gone (pid : Pid) (e : Event Resp) : Prop :=
  (∃ status, e = ⟨.wait pid, .exited status⟩) ∨
    e.1 = .killGroup pid ∨ e.1 = .reap pid ∨ e.1 = .dropChild pid

/-- A child stays until it is gone: the directory is not left before. -/
theorem houses_step {pid : Pid} (h : phase.Houses w cand root pid)
    (hs : Step w cand phase e phase') (hgone : ¬ Gone pid e) :
    phase'.Houses w cand root pid := by
  obtain ⟨hroot, hpid⟩ := h
  have hwithout : ∀ {pid' : Pid} {pids : List Pid}, pid ∈ pids → (pid = pid' → Gone pid e) →
      pid ∈ without pid' pids := by
    intro pid' pids hmem hsame
    refine List.mem_filter.mpr ⟨hmem, ?_⟩
    by_cases heq : pid = pid'
    · exact absurd (hsame heq) hgone
    · simpa using heq
  cases hs with
  | take | untaken | unwaited => exact ⟨hroot, hpid⟩
  | @filter s target nix pids r =>
    refine ⟨hroot, ?_⟩
    cases r with
    | error => exact hpid
    | ok jq => exact List.mem_cons_of_mem jq hpid
  | pass | check | built | ended =>
    exact ⟨hroot, hwithout hpid fun heq => heq ▸ .inl ⟨_, rfl⟩⟩
  | drop h => exact ⟨hroot, hwithout hpid fun heq => heq ▸ .inr h⟩
  | _ => cases hpid

/-- A call that writes leaves what it has written. -/
theorem step_write {disk : Disk} {p : OsPath} {b : List UInt8} {q : Option Fault}
    (hok : (disk.step (.writeAll p b) q).1 = .ok ()) :
    (disk.step (.writeAll p b) q).2 p = some (.file b) := by
  cases q with
  | none => exact Function.update_self ..
  | some f => cases hok

/-- A call that succeeds overwrites nothing, unless it writes. -/
theorem step_kept {disk : Disk} {o : Fs} {q : Option Fault} {p : OsPath} {n : Node}
    (hok : (disk.step o q).1 = .ok ()) (hp : disk p = some n) (hwrite : ∀ b, o ≠ .writeAll p b)
    (hremove : ∀ d, o ≠ .removeDirAll d) : (disk.step o q).2 p = some n := by
  by_contra hne
  rw [← hp] at hne
  rcases Disk.changed hne with ⟨d, -, -, hnone⟩ | ⟨d, rfl, -⟩ | rfl | ⟨m, rfl⟩ | ⟨b, rfl⟩
  · rw [hp] at hnone
    cases hnone
  · exact hremove d rfl
  · cases q with
    | none => simp [Disk.step, hp] at hok
    | some f => cases hok
  · cases q with
    | none => simp [Disk.step, hp] at hok
    | some f => cases hok
  · exact hwrite b rfl

/-- What has been written stays there as the layout goes on. -/
theorem written_fs {o : Fs} {q : Option Fault} {disk : Disk} (h : phase.Written w cand disk)
    (hs : Step w cand phase ⟨.fs o, (disk.step o q).1⟩ phase') :
    phase'.Written w cand (disk.step o q).2 := by
  generalize hr : (disk.step o q).1 = r at hs
  cases hs with
  | @clean s => exact fun p b hmem => by cases hmem
  | @lay s o done todo hlayout =>
    have hmem : ∀ {o' : Fs}, o' ∈ done ++ [o] → o' ∈ layout w cand s := by
      intro o' ho'
      rw [hlayout]
      rcases List.mem_append.mp ho' with ho' | ho'
      · exact List.mem_append_left _ ho'
      · rw [List.mem_singleton.mp ho']
        exact List.mem_append_right _ List.mem_cons_self
    have hall : ∀ p b, .writeAll p b ∈ done ++ [o] → (disk.step o q).2 p = some (.file b) := by
      intro p b hin
      by_cases hwrite : ∃ b', o = .writeAll p b'
      · -- each of the two files is written one text
        obtain ⟨b', rfl⟩ := hwrite
        have hb : b' = b := by
          rcases layout_writes (hmem hin) with ⟨hp, rfl⟩ | ⟨hp, rfl⟩ <;>
            rcases layout_writes (hmem (List.mem_append_right done List.mem_cons_self)) with
              ⟨hp', rfl⟩ | ⟨hp', rfl⟩
          · rfl
          · exact absurd (hp.symm.trans hp') netrc_ne_nixConf
          · exact absurd (hp'.symm.trans hp) netrc_ne_nixConf
          · rfl
        rw [← hb]
        exact step_write hr
      · rcases List.mem_append.mp hin with hin' | hin'
        · exact step_kept hr (h p b hin' (hmem (List.mem_append_left _ hin')))
            (fun b' hb' => hwrite ⟨b', hb'⟩)
            (layout_inside (hmem (List.mem_append_right done List.mem_cons_self))).2
        · exact absurd ⟨b, (List.mem_singleton.mp hin').symm⟩ hwrite
    cases todo with
    | nil =>
      intro p b hin
      refine hall p b ?_
      rwa [hlayout] at hin
    | cons o' todo => exact fun p b hin _ => hall p b hin
  | drop ho => simp at ho
  | _ => trivial

/-- Other calls leave it. -/
theorem written_step {disk : Disk} (h : phase.Written w cand disk) (hs : Step w cand phase e phase')
    (he : ∀ o r, e ≠ ⟨.fs o, r⟩) : phase'.Written w cand disk := by
  cases hs with
  | parent | orphan | clean | lay | spoil | unlay | leave => exact absurd rfl (he _ _)
  | _ => exact h

/-- It is there as long as nobody touches the two files. -/
theorem Phase.Written.frame {disk disk' : Disk} (h : phase.Written w cand disk)
    (hsame : ∀ s, phase.trip = some s → ∀ p, Config w cand s p → disk' p = disk p) :
    phase.Written w cand disk' := by
  cases phase with
  | laying s done todo =>
    intro p b hin hlayout
    rw [hsame s rfl p ((layout_writes hlayout).imp And.left And.left)]
    exact h p b hin hlayout
  | inside s stage pids =>
    intro p b hlayout
    rw [hsame s rfl p ((layout_writes hlayout).imp And.left And.left)]
    exact h p b hlayout
  | _ => trivial

end Phase

end Warm

end GhaConsumer
