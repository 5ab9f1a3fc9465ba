import GhaConsumer.Files.System

/-!
# What a call leaves alone

Every call changes the tree in one of five ways (`Change`). What a call
leaves alone, and what a file it moved keeps, are read off from that.
-/

namespace Files

variable {Dir Name : Type} [DecidableEq Dir] [DecidableEq Name]
variable {s s' : State Dir Name} {o : Op Dir Name} {q : Oracle Name} {r : Resp o} {t : ℕ}
variable {p p' d : Path Dir Name} {i : Ino} {n : Node}

/-! ## States -/

namespace State

@[simp] theorem tree_create : (s.create p n).tree = s.tree.create p n := rfl

@[simp] theorem tree_unlink : (s.unlink p).tree = s.tree.unlink p := rfl

@[simp] theorem tree_move : (s.move p p').tree = s.tree.move p p' := by
  unfold move
  split
  · rename_i h
    rw [Tree.move_of_none h]
  · rfl

@[simp] theorem tree_overwrite {data : Bytes} : (s.overwrite i data).tree =
    s.tree.setNode i { s.tree.node i with data := data, mtime := s.now } := rfl

@[simp] theorem tree_stamp {time : ℕ} : (s.stamp i time).tree =
    s.tree.setNode i { s.tree.node i with mtime := time } := rfl

@[simp] theorem tree_setScan {c : Option (Scan Dir Name)} : (s.setScan t c).tree = s.tree := rfl

@[simp] theorem scan_setScan_self {c : Option (Scan Dir Name)} : (s.setScan t c).scan t = c :=
  Function.update_self ..

@[simp] theorem now_create : (s.create p n).now = s.now := rfl

@[simp] theorem now_unlink : (s.unlink p).now = s.now := rfl

@[simp] theorem now_move : (s.move p p').now = s.now := by
  unfold move
  split <;> rfl

@[simp] theorem now_overwrite {data : Bytes} : (s.overwrite i data).now = s.now := rfl

@[simp] theorem now_stamp {time : ℕ} : (s.stamp i time).now = s.now := rfl

@[simp] theorem now_setScan {c : Option (Scan Dir Name)} : (s.setScan t c).now = s.now := rfl

end State

/-! ## Listings -/

theorem mem_list {e : DirEntry Name} {d : Dir} :
    e ∈ s.list d ↔ ∃ i, s.tree.ino ⟨d, e.name⟩ = some i ∧ e.kind = (s.tree.node i).kind := by
  unfold State.list
  rw [List.mem_filterMap]
  constructor
  · rintro ⟨⟨p, i⟩, hmem, he⟩
    split at he <;> cases he
    rename_i hd
    exact ⟨i, by subst hd; exact AList.mem_lookup_iff.mpr hmem, rfl⟩
  · rintro ⟨i, hi, hk⟩
    refine ⟨⟨⟨d, e.name⟩, i⟩, AList.mem_lookup_iff.mp hi, ?_⟩
    rw [if_pos rfl, ← hk]

/-- The entries of a directory each have a name of their own. -/
theorem nodup_list (d : Dir) : ((s.list d).map (·.name)).Nodup := by
  have hkeys := List.NodupKeys.pairwise_ne s.tree.entries.nodupKeys
  rw [List.Nodup, List.pairwise_map]
  refine List.pairwise_filterMap.mpr (hkeys.imp fun {a b} hne e he e' he' hname => ?_)
  split at he <;> cases he
  split at he' <;> cases he'
  rename_i hd hd'
  have hpath : a.1 = b.1 := by
    rcases ha : a.1 with ⟨da, na⟩
    rcases hb : b.1 with ⟨db, nb⟩
    rw [ha] at hd hname
    rw [hb] at hd' hname
    simp_all
  exact hne hpath

/-! ## Changes -/

/-- The file whose contents a call replaces in state `s`. -/
def Op.Rewrites (s : State Dir Name) (i : Ino) : Op Dir Name → Prop
  | .writeAll j _ => i = j
  | .write p _ => s.tree.ino p = some i
  | _ => False

/-- The paths a call may bind or unbind. -/
def Op.paths : Op Dir Name → List (Path Dir Name)
  | .renameNoClobber p q | .rename p q => [p, q]
  | .removeFile p | .createNew p | .write p _ => [p]
  | _ => []

/-- The file a call has moved: from where, and to where. -/
def moved : (o : Op Dir Name) → Resp o → Option (Path Dir Name × Path Dir Name)
  | .renameNoClobber p p', .ok () => some (p, p')
  | .rename p p', .ok () => some (p, p')
  | _, _ => none

/-- What a call may do to the tree. -/
inductive Change (s : State Dir Name) : (o : Op Dir Name) → Resp o → State Dir Name → Prop
  | same {o : Op Dir Name} {r : Resp o} {s' : State Dir Name} :
      moved o r = none → s'.tree = s.tree → s'.now = s.now → Change s o r s'
  | create {o : Op Dir Name} {r : Resp o} {p : Path Dir Name} {n : Node} :
      moved o r = none → p ∈ o.paths → s.tree.ino p = none → Change s o r (s.create p n)
  | unlink (p : Path Dir Name) (r : Except Errno Unit) : Change s (.removeFile p) r (s.unlink p)
  | move {o : Op Dir Name} {r : Resp o} {p p' : Path Dir Name} {i : Ino} :
      moved o r = some (p, p') → s.tree.ino p = some i → Change s o r (s.move p p')
  | overwrite {o : Op Dir Name} {r : Resp o} {i : Ino} {data : Bytes} :
      moved o r = none → o.Rewrites s i → Change s o r (s.overwrite i data)
  | stamp (i : Ino) (time : ℕ) (r : Except Errno Unit) :
      Change s (.setModified i time) r (s.stamp i time)

omit [DecidableEq Dir] [DecidableEq Name] in
theorem mem_paths_of_moved (h : moved o r = some (p, p')) : p ∈ o.paths ∧ p' ∈ o.paths := by
  unfold moved at h
  split at h <;> cases h <;> simp [Op.paths]

/-- **Every call is one of the changes.** -/
theorem change_of_step (h : step t o q s = some (r, s')) : Change s o r s' := by
  -- a call that fails, or does not find what it is about, changes nothing
  cases o with
  | tryExists | openRead | fstat | read | syncAll | fileType | now =>
    simp only [step, Option.some.injEq, Prod.mk.injEq] at h
    obtain ⟨-, rfl⟩ := h
    exact .same rfl rfl rfl
  | renameNoClobber p p' =>
    simp only [step] at h
    split at h
    · cases h; exact .same rfl rfl rfl
    · split at h <;> cases h
      · exact .same rfl rfl rfl
      · exact .same rfl rfl rfl
      · rename_i i hp _
        exact .move rfl hp
  | rename p p' =>
    simp only [step] at h
    split at h
    · cases h; exact .same rfl rfl rfl
    · split at h
      · cases h; exact .same rfl rfl rfl
      · rename_i hp
        split at h
        · cases h; exact .same rfl rfl rfl
        · cases h
          cases hi : s.tree.ino p with
          | none => rw [hi] at hp; exact absurd rfl hp
          | some i => exact .move rfl hi
  | removeFile p =>
    simp only [step] at h
    split at h
    · cases h; exact .same rfl rfl rfl
    · split at h
      · cases h; exact .same rfl rfl rfl
      · split at h <;> cases h
        · exact .same rfl rfl rfl
        · exact .unlink p _
  | lstat p =>
    simp only [step] at h
    split at h
    · cases h; exact .same rfl rfl rfl
    · split at h <;> cases h <;> exact .same rfl rfl rfl
  | setModified i time =>
    simp only [step] at h
    split at h
    · cases h; exact .same rfl rfl rfl
    · cases h; exact .stamp i time _
  | createNew p =>
    simp only [step] at h
    split at h
    · cases h; exact .same rfl rfl rfl
    · split at h <;> cases h
      · exact .same rfl rfl rfl
      · rename_i hp
        exact .create rfl (List.mem_singleton.mpr rfl) hp
  | writeAll i data =>
    simp only [step] at h
    split at h <;> cases h <;> exact .overwrite rfl rfl
  | write p data =>
    simp only [step] at h
    split at h
    · cases h; exact .same rfl rfl rfl
    · split at h
      · rename_i hp
        cases h
        exact .create rfl (List.mem_singleton.mpr rfl) hp
      · rename_i i hp
        split at h <;> cases h
        · exact .same rfl rfl rfl
        · exact .overwrite rfl hp
  | openDir d =>
    simp only [step] at h
    split at h <;> cases h <;> exact .same rfl rfl rfl
  | nextEntry =>
    simp only [step] at h
    split at h
    · cases h; exact .same rfl rfl rfl
    · split at h
      · cases h; exact .same rfl rfl rfl
      · split at h
        · split at h <;> cases h
          exact .same rfl rfl rfl
        · split at h <;> cases h
          exact .same rfl rfl rfl

/-! ## Frames -/

/-- No call moves the clock. -/
theorem now_of_step (h : step t o q s = some (r, s')) : s'.now = s.now := by
  cases change_of_step h with
  | same _ _ hnow => exact hnow
  | _ => simp

theorem next_le_of_step (h : step t o q s = some (r, s')) : s.tree.next ≤ s'.tree.next := by
  cases change_of_step h with
  | same _ ht => rw [ht]
  | create => simp
  | _ => simp

/-- A path a call does not name is as it was. -/
theorem ino_of_step (h : step t o q s = some (r, s')) (hd : d ∉ o.paths) :
    s'.tree.ino d = s.tree.ino d := by
  cases change_of_step h with
  | same _ ht => rw [ht]
  | create _ hp => exact Tree.ino_create_of_ne fun hdp => hd (hdp ▸ hp)
  | unlink p => exact Tree.ino_unlink_of_ne fun hdp => hd (by simp [Op.paths, hdp])
  | move hm =>
    obtain ⟨hp, hp'⟩ := mem_paths_of_moved hm
    rw [State.tree_move, Tree.ino_move_of_ne (ne_of_mem_of_not_mem hp hd).symm
      (ne_of_mem_of_not_mem hp' hd).symm]
  | overwrite | stamp => simp

/-- A file a call does not rewrite keeps its contents and its kind. -/
theorem data_of_step (h : step t o q s = some (r, s')) (hi : i < s.tree.next)
    (hw : ¬ o.Rewrites s i) :
    (s'.tree.node i).data = (s.tree.node i).data ∧
      (s'.tree.node i).kind = (s.tree.node i).kind := by
  cases change_of_step h with
  | same _ ht => rw [ht]; exact ⟨rfl, rfl⟩
  | create => rw [State.tree_create, Tree.node_create_of_ne (Nat.ne_of_lt hi)]; exact ⟨rfl, rfl⟩
  | unlink => exact ⟨rfl, rfl⟩
  | move => rw [State.tree_move, Tree.node_move]; exact ⟨rfl, rfl⟩
  | @overwrite _ _ j data _ ho =>
    have hne : i ≠ j := by rintro rfl; exact hw ho
    rw [State.tree_overwrite, Tree.node_setNode_of_ne hne]
    exact ⟨rfl, rfl⟩
  | stamp j time =>
    by_cases hij : i = j
    · subst hij; simp
    · rw [State.tree_stamp, Tree.node_setNode_of_ne hij]; exact ⟨rfl, rfl⟩

/-- No call changes the kind of a file there is. -/
theorem kind_of_step (h : step t o q s = some (r, s')) (hi : i < s.tree.next) :
    (s'.tree.node i).kind = (s.tree.node i).kind := by
  cases change_of_step h with
  | same _ ht => rw [ht]
  | create => rw [State.tree_create, Tree.node_create_of_ne (Nat.ne_of_lt hi)]
  | unlink => rfl
  | move => rw [State.tree_move, Tree.node_move]
  | @overwrite _ _ j data =>
    by_cases hij : i = j
    · subst hij; simp
    · rw [State.tree_overwrite, Tree.node_setNode_of_ne hij]
  | stamp j time =>
    by_cases hij : i = j
    · subst hij; simp
    · rw [State.tree_stamp, Tree.node_setNode_of_ne hij]

/-- A file stays where it is unless it is moved or removed. -/
theorem ino_of_not_moved (h : step t o q s = some (r, s')) (hm : moved o r = none)
    (hrm : o ≠ .removeFile d) (hi : s.tree.ino d = some i) : s'.tree.ino d = some i := by
  cases change_of_step h with
  | same _ ht => rw [ht]; exact hi
  | @create _ _ p n _ _ hp =>
    have hne : d ≠ p := by rintro rfl; rw [hp] at hi; cases hi
    rw [State.tree_create, Tree.ino_create_of_ne hne]
    exact hi
  | unlink p =>
    have hne : d ≠ p := fun hdp => hrm (by rw [hdp])
    rw [State.tree_unlink, Tree.ino_unlink_of_ne hne]
    exact hi
  | move hm' => rw [hm] at hm'; cases hm'
  | overwrite | stamp => exact hi

/-! ## Renames -/

/-- A file moved was there, and is the one change. -/
theorem state_of_moved (h : step t o q s = some (r, s')) (hm : moved o r = some (p, p')) :
    (∃ i, s.tree.ino p = some i) ∧ s' = s.move p p' := by
  cases change_of_step h with
  | same hn | create hn | overwrite hn => rw [hn] at hm; cases hm
  | unlink | stamp => cases hm
  | move hm' hp =>
    rw [hm'] at hm
    cases hm
    exact ⟨⟨_, hp⟩, rfl⟩

/-- A rename that succeeded moved a file, and where it must not clobber,
to a free path. -/
theorem renameNoClobber_ok {s' : State Dir Name}
    (h : step t (.renameNoClobber p p') q s = some (.ok (), s')) :
    (∃ i, s.tree.ino p = some i) ∧ s.tree.ino p' = none ∧ s' = s.move p p' := by
  simp only [step] at h
  split at h
  · cases h
  · split at h <;> cases h
    rename_i i hp hp'
    exact ⟨⟨i, hp⟩, hp', rfl⟩

theorem rename_ok {s' : State Dir Name} (h : step t (.rename p p') q s = some (.ok (), s')) :
    (∃ i, s.tree.ino p = some i) ∧ s' = s.move p p' := by
  simp only [step] at h
  split at h
  · cases h
  · split at h
    · cases h
    · rename_i hp
      split at h <;> cases h
      exact ⟨Option.ne_none_iff_exists'.mp (by simpa using hp), rfl⟩

/-- A rename that failed changed nothing. -/
theorem renameNoClobber_error {e : Errno} {s' : State Dir Name}
    (h : step t (.renameNoClobber p p') q s = some (.error e, s')) : s' = s := by
  simp only [step] at h
  split at h
  · cases h; rfl
  · split at h <;> cases h <;> rfl

theorem rename_error {e : Errno} {s' : State Dir Name}
    (h : step t (.rename p p') q s = some (.error e, s')) : s' = s := by
  simp only [step] at h
  split at h
  · cases h; rfl
  · split at h
    · cases h; rfl
    · split at h <;> cases h; rfl

/-- A file removed was there. -/
theorem removeFile_ok {s' : State Dir Name}
    (h : step t (.removeFile p) q s = some (.ok (), s')) :
    (∃ i, s.tree.ino p = some i) ∧ s' = s.unlink p := by
  simp only [step] at h
  split at h
  · cases h
  · split at h
    · cases h
    · rename_i i hp
      split at h <;> cases h
      exact ⟨⟨i, hp⟩, rfl⟩

theorem removeFile_error {e : Errno} {s' : State Dir Name}
    (h : step t (.removeFile p) q s = some (.error e, s')) : s' = s := by
  simp only [step] at h
  split at h
  · cases h; rfl
  · split at h
    · cases h; rfl
    · split at h <;> cases h; rfl

/-! ## Writes -/

/-- A write that succeeded created the file or replaced its bytes. -/
theorem write_ok {data : Bytes} (h : step t (.write p data) q s = some (.ok (), s')) :
    (s.tree.ino p = none ∧ s' = s.create p ⟨.regular, data, s.now⟩) ∨
      ∃ i, s.tree.ino p = some i ∧ s' = s.overwrite i data := by
  simp only [step] at h
  split at h
  · cases h
  · split at h
    · rename_i hp
      cases h
      exact .inl ⟨hp, rfl⟩
    · rename_i i hp
      split at h <;> cases h
      exact .inr ⟨i, hp, rfl⟩

theorem write_error {data : Bytes} {e : Errno}
    (h : step t (.write p data) q s = some (.error e, s')) : s' = s := by
  simp only [step] at h
  split at h
  · cases h; rfl
  · split at h
    · cases h
    · split at h <;> cases h; rfl

/-- Writing a file leaves the files at other paths alone. -/
theorem node_of_write {data : Bytes} {r : Except Errno Unit}
    (h : step t (.write p data) q s = some (r, s')) (hi : s.tree.ino d = some i) (hd : d ≠ p) :
    s'.tree.node i = s.tree.node i := by
  rcases r with e | ⟨⟨⟩⟩
  · rw [write_error h]
  · rcases write_ok h with ⟨-, rfl⟩ | ⟨j, hj, rfl⟩
    · exact Tree.node_create_of_ne (Nat.ne_of_lt (Tree.lt_next_of_ino hi))
    · exact Tree.node_setNode_of_ne fun he => hd (Tree.path_unique (he ▸ hi) hj)

/-! ## Looks -/

/-- A file that is no link is opened. -/
theorem opened_of_some (h : s.tree.ino p = some i) (hk : (s.tree.node i).kind.isLink = false) :
    opened s.tree p = .ok i := by
  simp only [opened, h, hk, Bool.false_eq_true, if_false]

/-- What is opened is the file at the path, and no link. -/
theorem opened_ok (h : opened s.tree p = .ok i) :
    s.tree.ino p = some i ∧ (s.tree.node i).kind.isLink = false := by
  unfold opened at h
  split at h
  · cases h
  · rename_i j hj
    split at h <;> cases h
    rename_i hk
    exact ⟨hj, by simpa using hk⟩

/-- A regular file is opened. -/
theorem not_regular_of_opened {e : Errno} (h : opened s.tree p = .error e)
    (hi : s.tree.ino p = some i) : (s.tree.node i).kind ≠ .regular := by
  intro hreg
  rw [opened_of_some hi (by rw [hreg]; rfl)] at h
  cases h

theorem openRead_ok (h : step t (.openRead p) q s = some (.ok i, s')) :
    s.tree.ino p = some i ∧ (s.tree.node i).kind.isLink = false := by
  simp only [step, Option.some.injEq, Prod.mk.injEq] at h
  obtain ⟨h, -⟩ := h
  split at h
  · cases h
  · exact opened_ok h

/-- What `lstat` tells is true of the file then at the path. -/
theorem lstat_ok {md : Meta} (h : step t (.lstat p) q s = some (.ok md, s')) :
    ∃ i, s.tree.ino p = some i ∧ md = (s.tree.node i).meta := by
  simp only [step] at h
  split at h
  · cases h
  · split at h <;> cases h
    rename_i i hi
    exact ⟨i, hi, rfl⟩

end Files
