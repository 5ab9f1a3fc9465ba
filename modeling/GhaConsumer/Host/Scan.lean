import GhaConsumer.Host.Alone
import GhaConsumer.Files.Frame

/-!
# Reading a directory at rest

One program that reads a directory nobody changes is given each name
there once, in any order (`ReadUpTo`): what it has read and what is still
to come are together the names of the directory, and any name to come may
be the next.
-/

namespace GhaConsumer

open Interleave Alone

/-- The names in a directory. -/
def World.names (w : World) (d : Dir) : List String := (w.fs.list d).map (·.name)

variable {C : Codec} {ok : (o : Op) → Oracle o → Prop} {w s s' : World} {d : Dir}
variable {seen rest : List String} {name : String}

theorem World.nodup_names (w : World) (d : Dir) : (w.names d).Nodup := Files.nodup_list d

theorem World.mem_names : name ∈ w.names d ↔ ∃ i, w.fs.tree.ino ⟨d, name⟩ = some i := by
  unfold World.names
  rw [List.mem_map]
  constructor
  · rintro ⟨e, he, rfl⟩
    obtain ⟨i, hi, -⟩ := Files.mem_list.mp he
    exact ⟨i, hi⟩
  · rintro ⟨i, hi⟩
    exact ⟨⟨name, (w.fs.tree.node i).kind⟩, Files.mem_list.mpr ⟨i, hi, rfl⟩, rfl⟩

/-- The directory `d` has been read up to `seen`, and the rest of its
names are to come, each as the entry it is. -/
structure ReadUpTo (w : World) (d : Dir) (seen : List String) (s : World) : Prop where
  tree : s.fs.tree = w.fs.tree
  rest : ∃ sc, s.fs.scan 0 = some sc ∧ (seen ++ sc.offered.map (·.name)).Perm (w.names d) ∧
    (∀ n, n ∈ sc.owed ↔ n ∈ sc.offered.map (·.name)) ∧ ∀ e ∈ sc.offered, e ∈ w.fs.list d

/-- A look at an entry does not disturb the reading. -/
theorem ReadUpTo.later (h : ReadUpTo w d seen s) (n : ℕ) : ReadUpTo w d seen (s.later n) :=
  ⟨h.tree, h.rest⟩

theorem readUpTo_openDir {r : Except Files.Errno Unit}
    (hok : ∀ q, ok (.fs (.openDir d)) q → q.fails = false) (htree : s.fs.tree = w.fs.tree)
    (h : hostStep C ok (.fs (.openDir d)) s r s') : r = .ok () ∧ ReadUpTo w d [] s' := by
  obtain ⟨q, now, f, hq, -, hs, rfl⟩ := fs_host h
  have hq : q.fails = false := hok q hq
  simp only [Files.step, hq, Bool.false_eq_true, if_false, Option.some.injEq, Prod.mk.injEq] at hs
  obtain ⟨rfl, rfl⟩ := hs
  have hlist : s.fs.list d = w.fs.list d := by
    unfold Files.State.list
    rw [htree]
  refine ⟨rfl, htree, ⟨d, (s.fs.list d).map (·.name), s.fs.list d⟩,
    Files.State.scan_setScan_self, ?_, fun n => Iff.rfl, fun e he => hlist ▸ he⟩
  rw [List.nil_append, hlist]
  exact .refl _

/-- After an entry is given, the others are to come. -/
theorem ReadUpTo.returned (h : ReadUpTo w d seen s) {sc : Files.Scan Dir String}
    (hsc : s.fs.scan 0 = some sc) {e : Files.DirEntry String} (he : e ∈ sc.offered) (now : ℕ) :
    ReadUpTo w d (seen ++ [e.name])
      { s with fs := { s.fs with now := now }.setScan 0 (some (sc.returned e)) } := by
  obtain ⟨sc', hsc', hperm, howed, hlist⟩ := h.rest
  obtain rfl : sc = sc' := Option.some.inj (hsc.symm.trans hsc')
  have herase : (sc.offered.map (·.name)).Perm (e.name :: (sc.offered.erase e).map (·.name)) :=
    (List.perm_cons_erase he).map _
  -- no two entries have one name, so none of the rest has this one
  have hnodup : (e.name :: (sc.offered.erase e).map (·.name)).Nodup :=
    herase.nodup_iff.mp ((hperm.nodup_iff.mpr (w.nodup_names d)).of_append_right)
  refine ⟨h.tree, sc.returned e, Files.State.scan_setScan_self, ?_, fun n => ?_,
    fun e' he' => hlist e' (List.mem_of_mem_erase he')⟩
  · rw [List.append_assoc]
    exact (List.Perm.append_left _ herase.symm).trans hperm
  · show n ∈ sc.owed.filter (· ≠ e.name) ↔ n ∈ (sc.offered.erase e).map (·.name)
    rw [List.mem_filter, howed, herase.mem_iff, List.mem_cons, decide_eq_true_eq]
    constructor
    · rintro ⟨rfl | hn, hne⟩
      · exact absurd rfl hne
      · exact hn
    · intro hn
      exact ⟨.inr hn, fun heq => (List.nodup_cons.mp hnodup).1 (heq ▸ hn)⟩

/-- A directory read returns a name to come, or there is none. -/
theorem ReadUpTo.nextEntry (h : ReadUpTo w d seen s)
    {r : Except Files.Errno (Option (Files.DirEntry String))}
    (hok : ∀ q, ok (.fs .nextEntry) q → q.fails = false)
    (hnext : hostStep C ok (.fs .nextEntry) s r s') :
    r = .ok none ∧ seen.Perm (w.names d) ∧ s'.fs.tree = w.fs.tree ∨
      ∃ e, r = .ok (some e) ∧ e ∈ w.fs.list d ∧ ReadUpTo w d (seen ++ [e.name]) s' := by
  obtain ⟨sc, hscan, hperm, howed, hlist⟩ := h.rest
  obtain ⟨q, now, f, hq, -, hs, rfl⟩ := fs_host hnext
  have hq : q.fails = false := hok q hq
  simp only [Files.step, hscan, hq, Bool.false_eq_true, if_false] at hs
  split at hs
  · split at hs <;> cases hs
    rename_i hnone
    refine .inl ⟨rfl, ?_, h.tree⟩
    have hoff : sc.offered = [] := by
      cases hoff : sc.offered with
      | nil => rfl
      | cons e es =>
        have howes : e.name ∈ sc.owed := (howed e.name).mpr (by simp [hoff])
        rw [hnone] at howes
        cases howes
    rw [hoff, List.map_nil, List.append_nil] at hperm
    exact hperm
  · rename_i e _
    split at hs <;> cases hs
    rename_i he
    exact .inr ⟨e, rfl, hlist e he, h.returned hscan he now⟩

/-- Any name to come may be the next. -/
theorem ReadUpTo.exists_next (h : ReadUpTo w d seen s)
    (hok : ∀ e, ok (.fs .nextEntry) ⟨false, 0, e⟩)
    (hperm : (seen ++ name :: rest).Perm (w.names d)) :
    ∃ e s', e.name = name ∧ hostStep C ok (.fs .nextEntry) s (.ok (some e)) s' ∧
      ReadUpTo w d (seen ++ [name]) s' := by
  obtain ⟨sc, hscan, hperm', -, -⟩ := h.rest
  have hmem : name ∈ sc.offered.map (·.name) :=
    ((List.perm_append_left_iff seen).mp (hperm'.trans hperm.symm)).mem_iff.mpr List.mem_cons_self
  obtain ⟨e, he, rfl⟩ := List.mem_map.mp hmem
  refine ⟨e, _, rfl, ⟨⟨false, 0, some e⟩, 0, hok _, ?_⟩, h.returned hscan he (s.fs.now + 0)⟩
  have hstep : Files.step 0 .nextEntry ⟨false, 0, some e⟩ (s.later 0).fs =
      some (.ok (some e), (s.later 0).fs.setScan 0 (some (sc.returned e))) := by
    have hscan' : (s.later 0).fs.scan 0 = some sc := hscan
    simp only [Files.step, hscan', Bool.false_eq_true, if_false, if_pos he]
  show (Files.step 0 .nextEntry ⟨false, 0, some e⟩ (s.later 0).fs).map _ = _
  rw [hstep]
  rfl

/-- With every name read, the end comes. -/
theorem ReadUpTo.exists_end (h : ReadUpTo w d seen s)
    (hok : ∀ e, ok (.fs .nextEntry) ⟨false, 0, e⟩) (hperm : seen.Perm (w.names d)) :
    ∃ s', hostStep C ok (.fs .nextEntry) s (.ok none) s' ∧ s'.fs.tree = w.fs.tree := by
  obtain ⟨sc, hscan, hperm', howed, -⟩ := h.rest
  have hoff : sc.offered.map (·.name) = [] := by
    have hlen := (hperm'.trans hperm.symm).length_eq
    rw [List.length_append] at hlen
    exact List.eq_nil_of_length_eq_zero (by omega)
  have hnone : sc.owed = [] := by
    refine List.eq_nil_iff_forall_not_mem.mpr fun n hn => ?_
    rw [howed, hoff] at hn
    cases hn
  refine ⟨s.later 0, ⟨⟨false, 0, none⟩, 0, hok _, ?_⟩, h.tree⟩
  have hstep : Files.step 0 .nextEntry ⟨false, 0, none⟩ (s.later 0).fs =
      some (.ok none, (s.later 0).fs) := by
    have hscan' : (s.later 0).fs.scan 0 = some sc := hscan
    simp only [Files.step, hscan', Bool.false_eq_true, if_false, hnone, if_true]
  show (Files.step 0 .nextEntry ⟨false, 0, none⟩ (s.later 0).fs).map _ = _
  rw [hstep]
  rfl

end GhaConsumer
