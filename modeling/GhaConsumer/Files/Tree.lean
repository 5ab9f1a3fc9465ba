import Mathlib.Data.List.AList
import Mathlib.Data.Nat.Notation

/-!
# A tree of files

Paths lead to inodes and inodes hold the files, so that renaming moves a
file without touching what it holds and a file opened before stays the
same file wherever it goes. No file has two paths. The type of paths is
a parameter.
-/

namespace Files

abbrev Bytes := List UInt8

/-- The name of a file that outlives its path. -/
abbrev Ino := ℕ

/-- What is no regular file. -/
inductive Special where
  | directory
  /-- A symbolic link, and whether there is anything where it leads. -/
  | link (leads : Bool)
  /-- A FIFO, a socket or a device. -/
  | device
  deriving DecidableEq, Repr

inductive Kind where
  | regular
  | other (special : Special)
  deriving DecidableEq, Repr

def Kind.isLink : Kind → Bool
  | .other (.link _) => true
  | _ => false

/-- What is at a path. The bytes of a directory stand for its entries. -/
structure Node where
  kind : Kind
  data : Bytes
  /-- The time of its last modification, in nanoseconds. -/
  mtime : ℕ
  deriving DecidableEq, Repr

/-- Whether `n` cannot be renamed to where `m` is: a directory replaces
none but an empty directory, and nothing else replaces a directory. -/
def Node.barred (n m : Node) : Bool :=
  match n.kind, m.kind with
  | .other .directory, .other .directory => !m.data.isEmpty
  | .other .directory, _ | _, .other .directory => true
  | _, _ => false

/-- Paths to inodes, inodes to files. -/
structure Tree (Path : Type) [DecidableEq Path] where
  entries : AList fun _ : Path => Ino
  node : Ino → Node
  /-- No inode so far is `next` or later. -/
  next : Ino
  old : ∀ p i, entries.lookup p = some i → i < next
  unique : ∀ p q i, entries.lookup p = some i → entries.lookup q = some i → p = q

namespace Tree

variable {Path : Type} [DecidableEq Path] {t : Tree Path} {p q r : Path} {i : Ino} {n : Node}

/-- The file a path leads to. -/
def ino (t : Tree Path) (p : Path) : Option Ino := t.entries.lookup p

/-- Whether a call that follows links finds anything at a path. -/
def leads (t : Tree Path) (p : Path) : Bool :=
  (t.ino p).any fun i => (t.node i).kind ≠ .other (.link false)

/-- What is at `p` cannot be renamed to `q`. -/
def barred (t : Tree Path) (p q : Path) : Bool :=
  (t.ino p).any fun i => (t.ino q).any fun j => (t.node i).barred (t.node j)

/-- Where there is nothing, nothing is found. -/
theorem leads_of_none (h : t.ino p = none) : t.leads p = false := by
  rw [leads, h]
  rfl

/-- Only the file at the path matters. -/
theorem leads_congr {t' : Tree Path} (hi : t'.ino p = t.ino p)
    (hn : ∀ i, t.ino p = some i → (t'.node i).kind = (t.node i).kind) : t'.leads p = t.leads p := by
  unfold leads
  rw [hi]
  cases h : t.ino p with
  | none => rfl
  | some i =>
    rw [Option.any_some, Option.any_some, hn i h]

/-- Nothing is barred from a free path. -/
theorem barred_of_free (h : t.ino q = none) : t.barred p q = false := by
  unfold barred
  rw [h]
  cases t.ino p <;> rfl

/-- Only the files at the two paths matter. -/
theorem barred_congr {t' : Tree Path} (hp : t'.ino p = t.ino p) (hq : t'.ino q = t.ino q)
    (hn : ∀ i, t.ino p = some i ∨ t.ino q = some i → t'.node i = t.node i) :
    t'.barred p q = t.barred p q := by
  unfold barred
  rw [hp, hq]
  cases hi : t.ino p with
  | none => rfl
  | some i =>
    cases hj : t.ino q with
    | none => rfl
    | some j =>
      rw [Option.any_some, Option.any_some, Option.any_some, Option.any_some, hn i (.inl hi),
        hn j (.inr hj)]

/-- What is found is there. -/
theorem isSome_of_leads (h : t.leads p = true) : (t.ino p).isSome = true := by
  cases hi : t.ino p with
  | none =>
    rw [leads_of_none hi] at h
    cases h
  | some i => rfl

/-- A regular file is found. -/
theorem leads_of_regular (h : t.ino p = some i) (hk : (t.node i).kind = .regular) :
    t.leads p = true := by
  rw [leads, h, Option.any_some, hk]
  rfl

/-- Only regular files. -/
def Plain (t : Tree Path) : Prop := ∀ p i, t.ino p = some i → (t.node i).kind = .regular

/-- Where all files are regular, what is there is found. -/
theorem Plain.leads (h : t.Plain) : t.leads p = (t.ino p).isSome := by
  cases hi : t.ino p with
  | none => rw [leads_of_none hi]; rfl
  | some i => rw [leads_of_regular hi (h p i hi)]; rfl

theorem lt_next_of_ino (h : t.ino p = some i) : i < t.next := t.old p i h

/-- No file has two paths. -/
theorem path_unique (h : t.ino p = some i) (h' : t.ino q = some i) : p = q := t.unique p q i h h'

/-- No files. -/
def empty : Tree Path where
  entries := ∅
  node _ := ⟨.regular, [], 0⟩
  next := 0
  old p i h := by rw [AList.lookup_empty] at h; cases h
  unique p q i h := by rw [AList.lookup_empty] at h; cases h

/-- A new file at `p`, whatever was there. -/
def create (t : Tree Path) (p : Path) (n : Node) : Tree Path where
  entries := t.entries.insert p t.next
  node := Function.update t.node t.next n
  next := t.next + 1
  old q i h := by
    by_cases hq : q = p
    · subst hq
      rw [AList.lookup_insert] at h
      cases h
      exact Nat.lt_succ_self _
    · rw [AList.lookup_insert_ne hq] at h
      exact Nat.lt_succ_of_lt (t.old q i h)
  unique q q' i h h' := by
    by_cases hq : q = p <;> by_cases hq' : q' = p
    · rw [hq, hq']
    · subst hq
      rw [AList.lookup_insert] at h
      rw [AList.lookup_insert_ne hq'] at h'
      cases h
      exact absurd (t.old q' _ h') (Nat.lt_irrefl _)
    · subst hq'
      rw [AList.lookup_insert] at h'
      rw [AList.lookup_insert_ne hq] at h
      cases h'
      exact absurd (t.old q _ h) (Nat.lt_irrefl _)
    · rw [AList.lookup_insert_ne hq] at h
      rw [AList.lookup_insert_ne hq'] at h'
      exact t.unique q q' i h h'

/-- Nothing at `p` any more. -/
def unlink (t : Tree Path) (p : Path) : Tree Path :=
  have sub : ∀ q i, (t.entries.erase p).lookup q = some i → t.entries.lookup q = some i := by
    intro q i h
    by_cases hq : q = p
    · subst hq
      rw [AList.lookup_erase] at h
      cases h
    · rwa [AList.lookup_erase_ne hq] at h
  { t with
    entries := t.entries.erase p
    old := fun q i h => t.old q i (sub q i h)
    unique := fun q q' i h h' => t.unique q q' i (sub q i h) (sub q' i h') }

/-- The file at `p`, if there is one, moves to `q` in place of what was
there. -/
def move (t : Tree Path) (p q : Path) : Tree Path :=
  match hp : t.entries.lookup p with
  | none => t
  | some i =>
    have sub : ∀ r j, ((t.entries.erase p).insert q i).lookup r = some j →
        (r = q ∧ j = i) ∨ (r ≠ q ∧ r ≠ p ∧ t.entries.lookup r = some j) := by
      intro r j h
      by_cases hr : r = q
      · subst hr
        rw [AList.lookup_insert] at h
        exact .inl ⟨rfl, (Option.some.inj h).symm⟩
      · rw [AList.lookup_insert_ne hr] at h
        by_cases hrp : r = p
        · subst hrp
          rw [AList.lookup_erase] at h
          cases h
        · rw [AList.lookup_erase_ne hrp] at h
          exact .inr ⟨hr, hrp, h⟩
    { t with
      entries := (t.entries.erase p).insert q i
      old := fun r j h => by
        rcases sub r j h with ⟨-, rfl⟩ | ⟨-, -, h⟩
        · exact t.old p j hp
        · exact t.old r j h
      unique := fun r r' j h h' => by
        rcases sub r j h with ⟨hr, hj⟩ | ⟨-, hrp, hr⟩ <;>
          rcases sub r' j h' with ⟨hr', hj'⟩ | ⟨-, hrp', hr'⟩
        · rw [hr, hr']
        · exact absurd (t.unique r' p j hr' (hj ▸ hp)) hrp'
        · exact absurd (t.unique r p j hr (hj' ▸ hp)) hrp
        · exact t.unique r r' j hr hr' }

/-- Change what inode `i` holds. -/
def setNode (t : Tree Path) (i : Ino) (n : Node) : Tree Path :=
  { t with node := Function.update t.node i n }

/-! ## What each change leaves where -/

@[simp] theorem ino_create_self : (t.create p n).ino p = some t.next := AList.lookup_insert _

/-- A new file leaves the others where they are. -/
theorem ino_create_of_ne (h : r ≠ p) : (t.create p n).ino r = t.ino r := AList.lookup_insert_ne h

@[simp] theorem node_create_self : (t.create p n).node t.next = n := Function.update_self ..

theorem node_create_of_ne (h : i ≠ t.next) : (t.create p n).node i = t.node i :=
  Function.update_of_ne h ..

@[simp] theorem next_create : (t.create p n).next = t.next + 1 := rfl

@[simp] theorem ino_unlink_self : (t.unlink p).ino p = none := AList.lookup_erase _ _

theorem ino_unlink_of_ne (h : r ≠ p) : (t.unlink p).ino r = t.ino r := AList.lookup_erase_ne h

@[simp] theorem node_unlink : (t.unlink p).node = t.node := rfl

@[simp] theorem next_unlink : (t.unlink p).next = t.next := rfl

/-- A move of nothing does nothing. -/
theorem move_of_none (h : t.ino p = none) : t.move p q = t := by
  unfold move
  split
  · rfl
  · rename_i i hp
    rw [ino, hp] at h
    cases h

theorem ino_move_to (h : t.ino p = some i) : (t.move p q).ino q = some i := by
  unfold move
  split
  · rename_i hp
    rw [ino, hp] at h
    cases h
  · rename_i j hp
    rw [ino, hp] at h
    cases h
    exact AList.lookup_insert _

/-- A move leaves the others where they are. -/
theorem ino_move_of_ne (hp : r ≠ p) (hq : r ≠ q) : (t.move p q).ino r = t.ino r := by
  unfold move
  split
  · rfl
  · exact (AList.lookup_insert_ne hq).trans (AList.lookup_erase_ne hp)

theorem ino_move_from (h : p ≠ q) : (t.move p q).ino p = none := by
  unfold move
  split
  · assumption
  · exact (AList.lookup_insert_ne h).trans (AList.lookup_erase _ _)

/-- A file is after a move where it was, or the one moved. -/
theorem ino_of_move (h : (t.move p q).ino r = some i) :
    (r = q ∧ t.ino p = some i) ∨ t.ino r = some i := by
  cases hp : t.ino p with
  | none =>
    rw [move_of_none hp] at h
    exact .inr h
  | some j =>
    by_cases hq : r = q
    · subst hq
      rw [ino_move_to hp] at h
      cases h
      exact .inl ⟨rfl, rfl⟩
    · by_cases hrp : r = p
      · subst hrp
        rw [ino_move_from hq] at h
        cases h
      · rw [ino_move_of_ne hrp hq] at h
        exact .inr h

/-- And all of them as they are. -/
@[simp] theorem node_move : (t.move p q).node = t.node := by
  unfold move
  split <;> rfl

@[simp] theorem next_move : (t.move p q).next = t.next := by
  unfold move
  split <;> rfl

@[simp] theorem ino_setNode : (t.setNode i n).ino p = t.ino p := rfl

@[simp] theorem node_setNode_self : (t.setNode i n).node i = n := Function.update_self ..

theorem node_setNode_of_ne {j : Ino} (h : j ≠ i) : (t.setNode i n).node j = t.node j :=
  Function.update_of_ne h ..

@[simp] theorem next_setNode : (t.setNode i n).next = t.next := rfl

end Tree

end Files
