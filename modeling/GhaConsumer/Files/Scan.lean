import GhaConsumer.Files.Frame

/-!
# Directories being read

A directory read owes its reader the entries that stood when it began and
have stood since, whatever else comes and goes: a file that stays where it
is stays owed until the read returns it (`State.Owes.step`). And it
returns none but those that stood at some time (`State.Vouched.step`).
-/

namespace Files

variable {Dir Name : Type} [DecidableEq Dir] [DecidableEq Name]
variable {s s' : State Dir Name} {o : Op Dir Name} {q : Oracle Name} {r : Resp o} {t u : ℕ}
variable {p p' : Path Dir Name} {i : Ino} {kind : Kind} {sc : Scan Dir Name}

namespace Scan

/-- The read must still return the entry `p`, and as a file of this kind. -/
structure Owes (sc : Scan Dir Name) (p : Path Dir Name) (kind : Kind) : Prop where
  dir : sc.dir = p.dir
  owed : p.name ∈ sc.owed
  kind : ∀ e ∈ sc.offered, e.name = p.name → e.kind = kind

/-- Another entry that goes does not matter. -/
theorem Owes.removed (h : sc.Owes p kind) (hp : p' ≠ p) : (sc.removed p').Owes p kind := by
  unfold Scan.removed
  split
  · rename_i hdir
    have hname : p.name ≠ p'.name := by
      intro heq
      refine hp ?_
      cases p
      cases p'
      cases heq
      cases hdir.symm.trans h.dir
      rfl
    exact ⟨h.dir, List.mem_filter.mpr ⟨h.owed, decide_eq_true hname⟩, h.kind⟩
  · exact h

omit [DecidableEq Name] in
/-- Nor does another that comes. -/
theorem Owes.added {k : Kind} (h : sc.Owes p kind) (hp : p' ≠ p) : (sc.added p' k).Owes p kind := by
  unfold Scan.added
  split
  · rename_i hdir
    refine ⟨h.dir, h.owed, fun e he hname => ?_⟩
    rcases List.mem_cons.mp he with rfl | he
    · refine absurd ?_ hp
      cases p
      cases p'
      cases hname
      cases hdir.symm.trans h.dir
      rfl
    · exact h.kind e he hname
  · exact h

omit [DecidableEq Dir] in
/-- Nor that another is returned. -/
theorem Owes.returned {e : DirEntry Name} (h : sc.Owes p kind) (he : e.name ≠ p.name) :
    (sc.returned e).Owes p kind :=
  ⟨h.dir, List.mem_filter.mpr ⟨h.owed, decide_eq_true he.symm⟩,
    fun e' he' => h.kind e' (List.mem_of_mem_erase he')⟩

end Scan

namespace State

/-- Thread `t`'s read must still return the entry `p`. -/
def Owes (s : State Dir Name) (t : ℕ) (p : Path Dir Name) (kind : Kind) : Prop :=
  ∃ sc, s.scan t = some sc ∧ sc.Owes p kind

/-- A read told of a change that is not about `p` still owes it. -/
theorem Owes.tell {f : Scan Dir Name → Scan Dir Name} (h : s.Owes u p kind)
    (hf : ∀ sc : Scan Dir Name, sc.Owes p kind → (f sc).Owes p kind) : (s.tell f).Owes u p kind := by
  obtain ⟨sc, hsc, howes⟩ := h
  exact ⟨f sc, by simp only [State.tell, hsc, Option.map_some], hf sc howes⟩

theorem Owes.setScan {c : Option (Scan Dir Name)} (h : s.Owes u p kind) (hu : u ≠ t) :
    (s.setScan t c).Owes u p kind := by
  obtain ⟨sc, hsc, howes⟩ := h
  exact ⟨sc, (Function.update_of_ne hu ..).trans hsc, howes⟩

theorem Owes.create {n : Node} (h : s.Owes u p kind) (hp : p' ≠ p) :
    (s.create p' n).Owes u p kind := by
  have htree : ({ s with tree := s.tree.create p' n } : State Dir Name).Owes u p kind := h
  exact htree.tell fun sc hsc => (hsc.removed hp).added hp

theorem Owes.unlink (h : s.Owes u p kind) (hp : p' ≠ p) : (s.unlink p').Owes u p kind := by
  have htree : ({ s with tree := s.tree.unlink p' } : State Dir Name).Owes u p kind := h
  exact htree.tell fun sc hsc => hsc.removed hp

theorem Owes.move {a b : Path Dir Name} (h : s.Owes u p kind) (ha : a ≠ p) (hb : b ≠ p) :
    (s.move a b).Owes u p kind := by
  unfold State.move
  split
  · exact h
  · have htree : ({ s with tree := s.tree.move a b } : State Dir Name).Owes u p kind := h
    exact htree.tell fun sc hsc => ((hsc.removed ha).removed hb).added hb

end State

/-- A directory just opened owes every entry it has. -/
theorem owes_openDir {d : Dir} (h : step t (.openDir d) q s = some (.ok (), s')) (hp : p.dir = d)
    (hi : s.tree.ino p = some i) : s'.Owes t p (s.tree.node i).kind := by
  subst hp
  simp only [step] at h
  split at h <;> cases h
  refine ⟨_, State.scan_setScan_self, rfl, ?_, fun e he hname => ?_⟩
  · exact List.mem_map.mpr ⟨⟨p.name, (s.tree.node i).kind⟩, mem_list.mpr ⟨i, hi, rfl⟩, rfl⟩
  · obtain ⟨j, hj, hk⟩ := mem_list.mp he
    rw [hname, show (⟨p.dir, p.name⟩ : Path Dir Name) = p from rfl, hi] at hj
    rw [hk, ← Option.some.inj hj]

/-- What a call does to another's read, or to its own where it does not
read. -/
inductive Tells (s : State Dir Name) (o : Op Dir Name) (r : Resp o) (u : ℕ)
    (s' : State Dir Name) : Prop
  | same : s'.scan u = s.scan u → Tells s o r u s'
  | create (p : Path Dir Name) (n : Node) :
      s' = s.create p n → s.tree.ino p = none → Tells s o r u s'
  | unlink (p : Path Dir Name) : s' = s.unlink p → Tells s o r u s'
  | move (a b : Path Dir Name) : moved o r = some (a, b) → s' = s.move a b → Tells s o r u s'

/-- A call that reads a directory. -/
def Op.scans : Op Dir Name → Prop
  | .openDir _ | .nextEntry => True
  | _ => False

theorem tells_of_step (h : step t o q s = some (r, s')) (hu : u = t → ¬ o.scans) :
    Tells s o r u s' := by
  -- a read belongs to its thread: no call of another thread moves it on
  have hset : ∀ c, o.scans → (s.setScan t c).scan u = s.scan u :=
    fun c ho => Function.update_of_ne (fun hut => hu hut ho) ..
  cases o with
  | openDir d =>
    simp only [step] at h
    split at h <;> cases h <;> exact .same (hset _ trivial)
  | nextEntry =>
    simp only [step] at h
    split at h
    · cases h; exact .same rfl
    · split at h
      · cases h; exact .same rfl
      · split at h
        · split at h <;> cases h; exact .same rfl
        · split at h <;> cases h; exact .same (hset _ trivial)
  | tryExists | openRead | fstat | read | syncAll | fileType | now =>
    simp only [step, Option.some.injEq, Prod.mk.injEq] at h
    obtain ⟨-, rfl⟩ := h
    exact .same rfl
  | lstat =>
    simp only [step] at h
    split at h
    · cases h; exact .same rfl
    · split at h <;> cases h <;> exact .same rfl
  | renameNoClobber a b =>
    rcases r with e | ⟨⟨⟩⟩
    · rw [renameNoClobber_error h]; exact .same rfl
    · exact .move a b rfl (renameNoClobber_ok h).2.2
  | rename a b =>
    rcases r with e | ⟨⟨⟩⟩
    · rw [rename_error h]; exact .same rfl
    · exact .move a b rfl (rename_ok h).2
  | removeFile a =>
    rcases r with e | ⟨⟨⟩⟩
    · rw [removeFile_error h]; exact .same rfl
    · exact .unlink a (removeFile_ok h).2
  | setModified | writeAll =>
    simp only [step] at h
    split at h <;> cases h <;> exact .same rfl
  | createNew a =>
    simp only [step] at h
    split at h
    · cases h; exact .same rfl
    · split at h <;> cases h
      · exact .same rfl
      · rename_i hp
        exact .create a _ rfl hp
  | write a data =>
    simp only [step] at h
    split at h
    · cases h; exact .same rfl
    · split at h
      · rename_i hp
        cases h
        exact .create a _ rfl hp
      · split at h <;> cases h <;> exact .same rfl

/-- What a read returns next, of an entry it owes. -/
theorem owes_nextEntry {r : Except Errno (Option (DirEntry Name))}
    (h : step t .nextEntry q s = some (r, s')) (howes : s.Owes t p kind) :
    s'.Owes t p kind ∧ r ≠ .ok none ∨ r = .ok (some ⟨p.name, kind⟩) := by
  obtain ⟨sc, hsc, howes⟩ := howes
  simp only [step, hsc] at h
  split at h
  · cases h
    exact .inl ⟨⟨sc, hsc, howes⟩, by simp⟩
  · split at h
    · split at h <;> cases h
      rename_i hnone
      exact absurd howes.owed (by rw [hnone]; exact List.not_mem_nil)
    · rename_i e _
      split at h <;> cases h
      rename_i he
      by_cases hname : e.name = p.name
      · right
        rw [← hname, ← howes.kind e he hname]
      · exact .inl ⟨⟨_, State.scan_setScan_self, howes.returned hname⟩, by simp⟩

/-- **A file that stays is owed until it is returned**, whoever calls
what. -/
theorem State.Owes.step (howes : s.Owes u p kind) (h : Files.step t o q s = some (r, s'))
    (hi : s.tree.ino p = some i) (hi' : s'.tree.ino p = some i) (hm : ∀ a, moved o r ≠ some (a, p))
    (hopen : u = t → ∀ d, o ≠ .openDir d) :
    s'.Owes u p kind ∧ (u = t → (⟨o, r⟩ : (o : Op Dir Name) × Resp o) ≠ ⟨.nextEntry, .ok none⟩) ∨
      u = t ∧ (⟨o, r⟩ : (o : Op Dir Name) × Resp o) = ⟨.nextEntry, .ok (some ⟨p.name, kind⟩)⟩ := by
  -- a call of the reader itself may return the entry; every other call only tells the read of a
  -- change
  by_cases hread : u = t ∧ o.scans
  · obtain ⟨rfl, hscans⟩ := hread
    cases o with
    | openDir d => exact absurd rfl (hopen rfl d)
    | nextEntry =>
      rcases owes_nextEntry h howes with ⟨howes, hr⟩ | hr
      · exact .inl ⟨howes, fun _ heq => hr (by cases heq; rfl)⟩
      · exact .inr ⟨rfl, by rw [hr]⟩
    | _ => exact hscans.elim
  · have hquiet : u = t → ¬ o.scans := fun hu hs => hread ⟨hu, hs⟩
    refine .inl ⟨?_, fun hu heq => hquiet hu (by cases heq; trivial)⟩
    cases tells_of_step h hquiet with
    | same hsame =>
      obtain ⟨sc, hsc, howes⟩ := howes
      exact ⟨sc, hsame.trans hsc, howes⟩
    | create a n hs hfree =>
      subst hs
      refine howes.create ?_
      rintro rfl
      rw [hfree] at hi
      cases hi
    | unlink a hs =>
      subst hs
      refine howes.unlink ?_
      rintro rfl
      rw [State.tree_unlink, Tree.ino_unlink_self] at hi'
      cases hi'
    | move a b hmoved hs =>
      subst hs
      have hb : b ≠ p := by
        rintro rfl
        exact hm a hmoved
      refine howes.move ?_ hb
      rintro rfl
      rw [State.tree_move, Tree.ino_move_from hb.symm] at hi'
      cases hi'

/-! ## What a read may return -/

/-- There is a file of this kind at `p`. -/
def State.Has (s : State Dir Name) (p : Path Dir Name) (kind : Kind) : Prop :=
  ∃ i, s.tree.ino p = some i ∧ (s.tree.node i).kind = kind

section Vouched

variable {φ ψ : DirEntry Name → Prop} {d : Dir} {e : DirEntry Name}

namespace Scan

/-- Every entry the read of `d` may return satisfies `φ`. -/
structure Vouched (sc : Scan Dir Name) (d : Dir) (φ : DirEntry Name → Prop) : Prop where
  dir : sc.dir = d
  offered : ∀ e ∈ sc.offered, φ e

theorem Vouched.removed (h : sc.Vouched d φ) : (sc.removed p).Vouched d φ := by
  unfold Scan.removed
  split
  · exact ⟨h.dir, h.offered⟩
  · exact h

omit [DecidableEq Name] in
theorem Vouched.added (h : sc.Vouched d φ) (hp : p.dir = d → φ ⟨p.name, kind⟩) :
    (sc.added p kind).Vouched d φ := by
  unfold Scan.added
  split
  · rename_i hdir
    exact ⟨h.dir, List.forall_mem_cons.mpr ⟨hp (hdir.symm.trans h.dir), h.offered⟩⟩
  · exact h

omit [DecidableEq Dir] in
theorem Vouched.returned (h : sc.Vouched d φ) : (sc.returned e).Vouched d φ :=
  ⟨h.dir, fun e' he' => h.offered e' (List.mem_of_mem_erase he')⟩

end Scan

namespace State

/-- Every entry thread `u`'s read may return is one of `d`, and satisfies
`φ`. -/
def Vouched (s : State Dir Name) (u : ℕ) (d : Dir) (φ : DirEntry Name → Prop) : Prop :=
  ∀ sc, s.scan u = some sc → sc.Vouched d φ

theorem Vouched.mono (h : s.Vouched u d φ) (hφ : ∀ e, φ e → ψ e) : s.Vouched u d ψ :=
  fun sc hsc => ⟨(h sc hsc).dir, fun e he => hφ e ((h sc hsc).offered e he)⟩

/-- A read told of a change. -/
theorem Vouched.tell {f : Scan Dir Name → Scan Dir Name} (h : s.Vouched u d φ)
    (hf : ∀ sc : Scan Dir Name, sc.Vouched d φ → (f sc).Vouched d φ) :
    (s.tell f).Vouched u d φ := by
  intro sc hsc
  obtain ⟨sc', hsc', rfl⟩ := Option.map_eq_some_iff.mp hsc
  exact hf sc' (h sc' hsc')

end State

/-- What a directory just opened may return is there. -/
theorem vouched_openDir (h : step t (.openDir d) q s = some (.ok (), s'))
    (hφ : ∀ e : DirEntry Name, s.Has ⟨d, e.name⟩ e.kind → φ e) : s'.Vouched t d φ := by
  simp only [step] at h
  split at h <;> cases h
  intro sc hsc
  rw [State.scan_setScan_self] at hsc
  cases hsc
  refine ⟨rfl, fun e he => hφ e ?_⟩
  obtain ⟨i, hi, hk⟩ := mem_list.mp he
  exact ⟨i, hi, hk.symm⟩

/-- What a read returns was vouched for. -/
theorem vouched_nextEntry (hs : s.Vouched t d φ)
    (h : step t .nextEntry q s = some (.ok (some e), s')) : φ e := by
  simp only [step] at h
  split at h
  · cases h
  · rename_i sc hsc
    split at h
    · cases h
    · split at h
      · split at h <;> cases h
      · split at h <;> cases h
        rename_i he
        exact (hs sc hsc).offered _ he

/-- **What a read may return was there when it began or has come since**,
whoever calls what. -/
theorem State.Vouched.step (hs : s.Vouched u d φ) (h : Files.step t o q s = some (r, s'))
    (hopen : u = t → ∀ d', o ≠ .openDir d')
    (hφ : ∀ e : DirEntry Name, s'.Has ⟨d, e.name⟩ e.kind → φ e) : s'.Vouched u d φ := by
  by_cases hread : u = t ∧ o.scans
  · obtain ⟨rfl, hscans⟩ := hread
    cases o with
    | openDir d' => exact absurd rfl (hopen rfl d')
    | nextEntry =>
      simp only [Files.step] at h
      split at h
      · cases h
        exact hs
      · rename_i sc hsc
        split at h
        · cases h
          exact hs
        · split at h
          · split at h <;> cases h
            exact hs
          · split at h <;> cases h
            intro sc' hsc'
            rw [State.scan_setScan_self] at hsc'
            cases hsc'
            exact (hs sc hsc).returned
    | _ => exact hscans.elim
  · cases tells_of_step h fun hu hscans => hread ⟨hu, hscans⟩ with
    | same hsame => exact fun sc hsc => hs sc (hsame ▸ hsc)
    | create a n heq hfree =>
      subst heq
      have htree : ({ s with tree := s.tree.create a n } : State Dir Name).Vouched u d φ := hs
      refine htree.tell fun sc hsc => hsc.removed.added fun hdir => hφ _ ⟨s.tree.next, ?_, ?_⟩
      · rw [← hdir]
        exact Tree.ino_create_self
      · exact congrArg Node.kind Tree.node_create_self
    | unlink a heq =>
      subst heq
      have htree : ({ s with tree := s.tree.unlink a } : State Dir Name).Vouched u d φ := hs
      exact htree.tell fun sc hsc => hsc.removed
    | move a b hmoved heq =>
      subst heq
      unfold State.move at hφ ⊢
      split
      · exact hs
      · rename_i i hi
        rw [hi] at hφ
        have htree : ({ s with tree := s.tree.move a b } : State Dir Name).Vouched u d φ := hs
        refine htree.tell fun sc hsc => hsc.removed.removed.added fun hdir => hφ _ ⟨i, ?_, ?_⟩
        · rw [← hdir]
          exact Tree.ino_move_to hi
        · show ((s.tree.move a b).node i).kind = (s.tree.node i).kind
          rw [Tree.node_move]

end Vouched

end Files
