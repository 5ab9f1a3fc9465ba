import GhaConsumer.Host.Alone
import GhaConsumer.Spool.Calls

/-!
# Spool — reading a claim

What the functions of `spool.rs` that read return on files that stay as
they are, where the disk does not fail, and what `try_claim` comes to
there.
-/

namespace GhaConsumer

open Interleave Alone
open Files (Bytes)

/-- What `read_spool_file` makes of a file. -/
def readNode (C : Codec) (name : String) (n : Files.Node) : Except String (Envelope × Bytes) :=
  if n.kind ≠ .regular then .error s!"{name} is not a regular file"
  else if n.data.length > maxFileBytes then
    .error (s!"spool file {name} is {n.data.length} bytes; " ++ s!"exceeds {maxFileBytes} byte cap")
  else splitSpoolFile C name n.data

/-- What it makes of a path. -/
def readResult (C : Codec) (p : Path) (t : Files.Tree Path) : Except String (Envelope × Bytes) :=
  match Files.opened t p with
  | .error e => .error s!"open {p.name}: {errnoText e}"
  | .ok i => readNode C p.name (t.node i)

variable {C : Codec}

theorem looks_readSpoolFileAt (p : Path) : Looks C (readSpoolFileAt C p) (readResult C p) := by
  refine (looks_openRead.bind (b := fun r t => match r with
    | .error e => .error s!"open {p.name}: {errnoText e}"
    | .ok i => readNode C p.name (t.node i)) fun r => ?_).congr fun t => ?_
  · rcases r with e | i
    · exact Looks.ret _
    refine (looks_fstat.bind (b := fun r t => match r with
      | .error e => .error s!"fstat {p.name}: {errnoText e}"
      | .ok md =>
        if md.kind ≠ .regular then .error s!"{p.name} is not a regular file"
        else if md.len > maxFileBytes then
          .error (s!"spool file {p.name} is {md.len} bytes; " ++
            s!"exceeds {maxFileBytes} byte cap")
        else splitSpoolFile C p.name ((t.node i).data.take (maxFileBytes + 1)))
      fun r => ?_).congr fun t => ?_
    · rcases r with e | md
      · exact Looks.ret _
      dsimp only
      split
      · exact Looks.ret _
      · split
        · exact Looks.ret _
        · refine (looks_read.bind (b := fun r _ => match r with
            | .error e => .error s!"read {p.name}: {errnoText e}"
            | .ok bytes => splitSpoolFile C p.name bytes) fun r => ?_).congr fun t => rfl
          rcases r with e | bytes <;> exact Looks.ret _
    · -- the whole file is read, for the bound is past its end
      have hlen : (t.node i).meta.len = (t.node i).data.length := rfl
      simp only [readNode, hlen]
      by_cases hmax : (t.node i).data.length > maxFileBytes
      · simp only [if_pos hmax]
        rfl
      · rw [List.take_of_length_le (by omega)]
        rfl
  · unfold readResult
    cases Files.opened t p <;> rfl

theorem readResult_of_none {p : Path} {t : Files.Tree Path} (h : t.ino p = none) :
    readResult C p t = .error s!"open {p.name}: {errnoText .notFound}" := by
  simp only [readResult, Files.opened, h]

/-- A file that is no link is read. -/
theorem readResult_of_some {p : Path} {t : Files.Tree Path} {i : Files.Ino} (h : t.ino p = some i)
    (hk : (t.node i).kind.isLink = false) : readResult C p t = readNode C p.name (t.node i) := by
  simp only [readResult, Files.opened, h, hk, Bool.false_eq_true, if_false]

/-- What is no regular file is not read. -/
theorem readResult_of_special {p : Path} {t : Files.Tree Path} {i : Files.Ino}
    (h : t.ino p = some i) (hk : (t.node i).kind ≠ .regular) :
    ∃ e, readResult C p t = .error e := by
  cases hlink : (t.node i).kind.isLink with
  | true =>
    refine ⟨s!"open {p.name}: {errnoText .other}", ?_⟩
    simp only [readResult, Files.opened, h, hlink, if_true]
  | false =>
    refine ⟨s!"{p.name} is not a regular file", ?_⟩
    rw [readResult_of_some h hlink, readNode, if_pos hk]

/-- Only the contents matter. -/
theorem readResult_congr {p p' : Path} {w w' : World} (hname : p.name = p'.name)
    (h : w'.contents p' = w.contents p) :
    readResult C p' w'.fs.tree = readResult C p w.fs.tree := by
  unfold World.contents at h
  unfold readResult Files.opened
  cases hi : w.fs.tree.ino p with
  | none =>
    rw [hi, Option.map_none, Option.map_eq_none_iff] at h
    rw [h, hname]
  | some i =>
    rw [hi, Option.map_some, Option.map_eq_some_iff] at h
    obtain ⟨j, hj, heq⟩ := h
    obtain ⟨hkind, hdata⟩ := Prod.mk.inj heq
    simp only [hj, hkind]
    cases (w.fs.tree.node i).kind.isLink with
    | true => simp only [if_true, hname]
    | false => simp only [Bool.false_eq_true, if_false, readNode, hkind, hdata, hname]

/-! ## Claiming -/

/-- There is a marker. -/
def archived (name : String) (t : Files.Tree Path) : Bool :=
  t.leads ⟨.done, name⟩ || t.leads ⟨.error, name⟩

theorem looks_isArchived (name : String) : Looks C (isArchived name) (archived name) := by
  refine (looks_tryExists.bind (b := fun r t => r || t.leads ⟨.error, name⟩)
    fun r => ?_).congr fun t => rfl
  cases r
  · exact looks_tryExists.congr fun t => rfl
  · exact Looks.ret true

variable {ok : (o : Op) → Oracle o → Prop} {w w' : World} {name : String}

/-- A stamp moves nothing, and rewrites nothing. -/
theorem stampMtimeNow_alone {p : Path} (h : Ends (hostStep C ok) (stampMtimeNow p) w () w') :
    ∀ q, w'.fs.tree.ino q = w.fs.tree.ino q ∧ w'.contents q = w.contents q := by
  refine h.only (stampMtimeNow_only p) (B := fun w₁ : World =>
    ∀ q, w₁.fs.tree.ino q = w.fs.tree.ino q ∧ w₁.contents q = w.contents q)
    (fun o r w₁ w₂ ho hs hB q => ?_) fun q => ⟨rfl, rfl⟩
  cases o with
  | fs o =>
    obtain ⟨hpaths, hrw⟩ := Op.stamps.paths ho
    exact ⟨(ino_host hs (by simp [hpaths])).trans (hB q).1,
      (contents_host hs (by simp [hpaths]) fun _ _ => hrw _ _).trans (hB q).2⟩
  | _ => exact ho.elim

/-- A rename that nothing disturbs. -/
theorem renameNoClobber_host {p p' : Path} {r : Except Files.Errno Unit}
    (h : hostStep C Faultless (.fs (.renameNoClobber p p')) w r w') :
    w.fs.tree.ino p = none ∧ r = .error .notFound ∨
      (w.fs.tree.ino p).isSome ∧ (w.fs.tree.ino p').isSome ∧ r = .error .alreadyExists ∨
      (w.fs.tree.ino p).isSome ∧ w.fs.tree.ino p' = none ∧ r = .ok () ∧
        w'.contents p' = w.contents p := by
  rcases renameNoClobber_tree h with ⟨rfl, hp, hp', ht⟩ | ⟨rfl, -, hp, hp'⟩ | ⟨rfl, -, hp⟩ |
    ⟨-, -, hfail⟩
  · refine .inr (.inr ⟨hp, hp', rfl, ?_⟩)
    obtain ⟨i, hi⟩ := Option.isSome_iff_exists.mp hp
    unfold World.contents
    rw [ht, Files.Tree.ino_move_to hi, Files.Tree.node_move, hi]
  · exact .inr (.inl ⟨hp, hp', rfl⟩)
  · exact .inl ⟨hp, rfl⟩
  · exact absurd hfail not_mayFail_faultless

/-- **What a claim comes to**: nothing where there is a marker, no file or
a claim already, and otherwise the file, as it was. -/
theorem tryClaim_alone {r : Except String (Option String)}
    (h : Ends (hostStep C Faultless) (tryClaim name) w r w') :
    if archived name w.fs.tree || (w.fs.tree.ino ⟨.new, name⟩).isNone ||
        (w.fs.tree.ino (curPath name)).isSome then r = .ok none
    else r = .ok (some name) ∧ w'.contents (curPath name) = w.contents ⟨.new, name⟩ := by
  obtain ⟨b, w₁, h₁, h⟩ := ends_bind.mp h
  obtain ⟨rfl, n, rfl⟩ := (looks_isArchived name).ends h₁
  cases harch : archived name w.fs.tree with
  | true =>
    rw [harch] at h
    obtain ⟨_, _, -, rfl, rfl⟩ := h
    simp
  | false =>
    rw [harch] at h
    obtain ⟨_, w₂, h₂, h⟩ := ends_bind.mp h
    have hstamp := stampMtimeNow_alone h₂
    have hino : ∀ q, w₂.fs.tree.ino q = w.fs.tree.ino q := fun q => (hstamp q).1
    obtain ⟨r', w₃, h₃, h⟩ := ends_step.mp h
    rcases renameNoClobber_host h₃ with ⟨hp, rfl⟩ | ⟨hp, hp', rfl⟩ | ⟨hp, hp', rfl, hc⟩
    · obtain ⟨rfl, rfl⟩ := h
      rw [hino] at hp
      simp [hp]
    · obtain ⟨_, _, -, rfl, rfl⟩ := h
      rw [hino] at hp'
      simp [hp']
    · rw [hino] at hp hp'
      have hnew : (w.fs.tree.ino ⟨.new, name⟩).isNone = false := by
        rw [← Option.not_isSome, hp]
        rfl
      simp only [hp', hnew]
      -- no marker has come since
      obtain ⟨b, w₄, h₄, h⟩ := ends_bind.mp h
      obtain ⟨rfl, n', rfl⟩ := (looks_isArchived name).ends h₄
      have harch' : archived name w₃.fs.tree = false := by
        have hsame : ∀ d : Dir, d ≠ .new → d ≠ .cur →
            w₃.fs.tree.leads ⟨d, name⟩ = w.fs.tree.leads ⟨d, name⟩ := by
          intro d hn hc
          refine leads_of_contents ?_
          rw [contents_host h₃ (by simp [Files.Op.paths, hn, hc]) fun _ _ h => h]
          exact (hstamp _).2
        rw [archived, hsame .done (by simp) (by simp), hsame .error (by simp) (by simp)]
        exact harch
      rw [harch'] at h
      obtain ⟨rfl, rfl⟩ := h
      simpa using hc.trans (hstamp _).2

/-- A claim made has found no marker since. -/
theorem tryClaim_confirmed {cur : String}
    (h : Ends (hostStep C Faultless) (tryClaim name) w (.ok (some cur)) w') :
    cur = name ∧ archived name w'.fs.tree = false := by
  obtain ⟨b, w₁, -, h⟩ := ends_bind.mp h
  cases b with
  | true =>
    obtain ⟨_, _, -, hr, -⟩ := h
    cases hr
  | false =>
    obtain ⟨_, w₂, -, h⟩ := ends_bind.mp h
    obtain ⟨r, w₃, -, h⟩ := ends_step.mp h
    rcases r with (_ | _ | _) | _
    · cases h.1
    · obtain ⟨_, _, -, hr, -⟩ := h
      cases hr
    · cases h.1
    · obtain ⟨b, w₄, h₄, h⟩ := ends_bind.mp h
      obtain ⟨rfl, n, rfl⟩ := (looks_isArchived name).ends h₄
      cases harch : archived name w₃.fs.tree with
      | true =>
        rw [harch] at h
        obtain ⟨_, _, -, hr, -⟩ := h
        cases hr
      | false =>
        rw [harch] at h
        obtain ⟨hr, rfl⟩ := h
        cases hr
        exact ⟨rfl, harch⟩

end GhaConsumer
