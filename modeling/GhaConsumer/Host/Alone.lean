import GhaConsumer.Host.World
import GhaConsumer.Interleave.Alone

/-!
# The host to one program

A function of the daemon by itself on the host: time passes between its
calls, and every call answers as the host may, within what `ok` allows.
-/

namespace GhaConsumer

open Interleave Alone

/-- One call on a host to itself. -/
def hostStep (C : Codec) (ok : (o : Op) → Oracle o → Prop) : Alone.Step Resp World :=
  fun o w r w' => ∃ (q : Oracle o) (elapsed : ℕ),
    ok o q ∧ step C 0 o q (Env.step (.tick elapsed) w) = some (r, w')

/-- Every answer the host may give. -/
def AnyAnswer : (o : Op) → Oracle o → Prop := fun _ _ => True

/-- No call on files fails. -/
def Faultless : (o : Op) → Oracle o → Prop
  | .fs _, q => q.fails = false
  | _, _ => True

/-- What stands at a path: the kind of file, and its bytes. -/
def World.contents (w : World) (p : Path) : Option (Files.Kind × Files.Bytes) :=
  (w.fs.tree.ino p).map fun i => ((w.fs.tree.node i).kind, (w.fs.tree.node i).data)

variable {C : Codec} {ok : (o : Op) → Oracle o → Prop} {w w' : World}
variable {o : Files.Op Dir String} {r : Files.Resp o} {p : Path}

/-- Where more answers are allowed a program may still end so. -/
theorem ends_mono {α : Type} {m : Prog Resp α} {a : α} {ok' : (o : Op) → Oracle o → Prop}
    (h : Ends (hostStep C ok) m w a w') (hok : ∀ o q, ok o q → ok' o q) :
    Ends (hostStep C ok') m w a w' :=
  h.mono fun _ _ _ _ ⟨q, n, hq, hs⟩ => ⟨q, n, hok _ q hq, hs⟩

/-- A call on files is one of the files', some time later. -/
theorem fs_host (h : hostStep C ok (.fs o) w r w') :
    ∃ (q : Files.Oracle String) (now : ℕ) (s : FileState), ok (.fs o) q ∧ w.fs.now ≤ now ∧
      Files.step 0 o q { w.fs with now := now } = some (r, s) ∧ w' = { w with fs := s } := by
  obtain ⟨q, elapsed, hok, hs⟩ := h
  obtain ⟨s, hstep, rfl⟩ := step_fs hs
  exact ⟨q, w.fs.now + elapsed, s, hok, Nat.le_add_right _ _, hstep, rfl⟩

/-- A call of the runtime is one of the runtime's, some time later. -/
theorem sched_host {o : Sched.Op} {r : Sched.Resp o} (h : hostStep C ok (.sched o) w r w') :
    ∃ (q : Sched.Oracle) (s : Sched.State), Sched.step 0 o q w.sched = some (r, s) ∧
      w'.sched = s ∧ w'.fs.tree = w.fs.tree := by
  obtain ⟨q, elapsed, -, hs⟩ := h
  obtain ⟨s, hstep, rfl⟩ := step_sched hs
  exact ⟨q, s, hstep, rfl, rfl⟩

/-- And what the runtime may answer, the host may. -/
theorem host_sched {o : Sched.Op} {r : Sched.Resp o} {q : Sched.Oracle} {s : Sched.State}
    (h : Sched.step 0 o q w.sched = some (r, s)) (hok : ok (.sched o) q) :
    hostStep C ok (.sched o) w r { w with sched := s } := by
  refine ⟨q, 0, hok, ?_⟩
  show (Sched.step 0 o q w.sched).map _ = _
  rw [h]
  rfl

/-- A call on GitHub leaves the host alone. -/
theorem hub_host {o : Hub.Op} {r : Hub.Resp o} (h : hostStep C ok (.hub o) w r w') :
    w'.sched = w.sched ∧ w'.fs.tree = w.fs.tree := by
  obtain ⟨q, elapsed, -, hs⟩ := h
  obtain ⟨⟨r', s⟩, -, heq⟩ := Option.map_eq_some_iff.mp hs
  cases heq
  exact ⟨rfl, rfl⟩

/-- Which file is at a path the call does not name. -/
theorem ino_host (h : hostStep C ok (.fs o) w r w') (hp : p ∉ o.paths) :
    w'.fs.tree.ino p = w.fs.tree.ino p := by
  obtain ⟨q, now, s, -, -, hs, rfl⟩ := fs_host h
  exact Files.ino_of_step (s := { w.fs with now := now }) hs hp

/-- What stands at a path the call neither names nor rewrites. -/
theorem contents_host (h : hostStep C ok (.fs o) w r w') (hp : p ∉ o.paths)
    (hw : ∀ i, w.fs.tree.ino p = some i → ¬ o.Rewrites w.fs i) : w'.contents p = w.contents p := by
  have hino := ino_host h hp
  obtain ⟨q, now, s, -, -, hs, rfl⟩ := fs_host h
  unfold World.contents
  rw [hino]
  cases hi : w.fs.tree.ino p with
  | none => rfl
  | some i =>
    have hnot : ¬ o.Rewrites { w.fs with now := now } i := by
      intro hr
      cases o with
      | writeAll | write => exact hw i hi hr
      | _ => exact hr
    obtain ⟨hdata, hkind⟩ := Files.data_of_step hs (Files.Tree.lt_next_of_ino hi) hnot
    simp only [Option.map_some, hdata, hkind]

/-- Whether a path leads to anything shows in what stands there. -/
theorem leads_of_contents (h : w'.contents p = w.contents p) :
    w'.fs.tree.leads p = w.fs.tree.leads p := by
  have hof : ∀ u : World, u.fs.tree.leads p =
      (u.contents p).any fun x => x.1 ≠ .other (.link false) := fun u => by
    unfold World.contents Files.Tree.leads
    rw [Option.any_map]
  rw [hof, hof, h]

/-- So does whether a directory bars a rename. -/
theorem barred_of_contents {p' : Path} (h : w'.contents p = w.contents p)
    (h' : w'.contents p' = w.contents p') :
    w'.fs.tree.barred p p' = w.fs.tree.barred p p' := by
  have hof : ∀ u : World, u.fs.tree.barred p p' = (u.contents p).any fun x =>
      (u.contents p').any fun y => Files.Node.barred ⟨x.1, x.2, 0⟩ ⟨y.1, y.2, 0⟩ := fun u => by
    unfold World.contents Files.Tree.barred
    simp only [Option.any_map]
    rfl
  rw [hof, hof, h, h']

/-! ## Renames -/

/-- A call of this kind may fail. -/
def MayFail (ok : (o : Op) → Oracle o → Prop) (o : Files.Op Dir String) : Prop :=
  ∃ q : Files.Oracle String, ok (.fs o) q ∧ q.fails = true

theorem not_mayFail_faultless {o : Files.Op Dir String} : ¬ MayFail Faultless o := by
  rintro ⟨q, hq, hf⟩
  have hq : q.fails = false := hq
  rw [hq] at hf
  cases hf

/-- What a rename comes to. -/
theorem rename_tree {p p' : Path} {r : Except Files.Errno Unit}
    (h : hostStep C ok (.fs (.rename p p')) w r w') :
    (r = .ok () ∧ (w.fs.tree.ino p).isSome ∧ w'.fs.tree = w.fs.tree.move p p') ∨
      ((∃ e, r = .error e) ∧ w'.fs.tree = w.fs.tree ∧ (w.fs.tree.ino p = none ∨
        w.fs.tree.barred p p' = true ∨ MayFail ok (.rename p p'))) := by
  obtain ⟨q, now, f, hq, -, hs, rfl⟩ := fs_host h
  simp only [Files.step] at hs
  split at hs
  · rename_i hfails
    cases hs
    exact .inr ⟨⟨_, rfl⟩, rfl, .inr (.inr ⟨q, hq, hfails⟩)⟩
  · split at hs
    · rename_i hnone
      cases hs
      exact .inr ⟨⟨_, rfl⟩, rfl, .inl (Option.isNone_iff_eq_none.mp hnone)⟩
    · rename_i hsome
      split at hs <;> cases hs
      · rename_i hbarred
        exact .inr ⟨⟨_, rfl⟩, rfl, .inr (.inl hbarred)⟩
      · exact .inl ⟨rfl, Option.isSome_iff_ne_none.mpr fun hn => hsome (by rw [hn]; rfl),
          Files.State.tree_move⟩

/-- What an exclusive rename comes to. -/
theorem renameNoClobber_tree {p p' : Path} {r : Except Files.Errno Unit}
    (h : hostStep C ok (.fs (.renameNoClobber p p')) w r w') :
    (r = .ok () ∧ (w.fs.tree.ino p).isSome ∧ w.fs.tree.ino p' = none ∧
      w'.fs.tree = w.fs.tree.move p p') ∨
    (r = .error .alreadyExists ∧ w'.fs.tree = w.fs.tree ∧ (w.fs.tree.ino p).isSome ∧
      (w.fs.tree.ino p').isSome) ∨
    (r = .error .notFound ∧ w'.fs.tree = w.fs.tree ∧ w.fs.tree.ino p = none) ∨
    (r = .error .other ∧ w'.fs.tree = w.fs.tree ∧ MayFail ok (.renameNoClobber p p')) := by
  obtain ⟨q, now, f, hq, -, hs, rfl⟩ := fs_host h
  simp only [Files.step] at hs
  split at hs
  · rename_i hfails
    cases hs
    exact .inr (.inr (.inr ⟨rfl, rfl, q, hq, hfails⟩))
  · split at hs <;> cases hs
    · rename_i hp
      exact .inr (.inr (.inl ⟨rfl, rfl, hp⟩))
    · rename_i i j hp hp'
      have hp : w.fs.tree.ino p = some i := hp
      have hp' : w.fs.tree.ino p' = some j := hp'
      exact .inr (.inl ⟨rfl, rfl, by rw [hp]; rfl, by rw [hp']; rfl⟩)
    · rename_i i hp hp'
      have hp : w.fs.tree.ino p = some i := hp
      exact .inl ⟨rfl, by rw [hp]; rfl, hp', Files.State.tree_move⟩

/-! ## Looks -/

/-- Some time later. -/
def World.later (w : World) (n : ℕ) : World := Env.step (.tick n) w

@[simp] theorem later_tree (n : ℕ) : (w.later n).fs.tree = w.fs.tree := rfl

@[simp] theorem later_contents (n : ℕ) : (w.later n).contents p = w.contents p := rfl

@[simp] theorem later_later (m n : ℕ) : (w.later m).later n = w.later (m + n) := by
  unfold World.later Env.step
  simp only [Nat.add_assoc]

/-- Where no call on files fails, the program returns what `a` says of the
tree, and leaves all as it is. -/
structure Looks {α : Type} (C : Codec) (m : Prog Resp α) (a : Files.Tree Path → α) : Prop where
  ends : ∀ {w r w'}, Ends (hostStep C Faultless) m w r w' →
    r = a w.fs.tree ∧ ∃ n, w' = w.later n
  total : ∀ w, ∃ n, Ends (hostStep C Faultless) m w (a w.fs.tree) (w.later n)

variable {α β : Type} {m : Prog Resp α}

theorem Looks.ret (x : α) : Looks C (.ret x) fun _ => x where
  ends h := ⟨h.1, 0, h.2⟩
  total _ := ⟨0, rfl, rfl⟩

theorem Looks.bind {a : Files.Tree Path → α} {f : α → Prog Resp β} {b : α → Files.Tree Path → β}
    (hm : Looks C m a) (hf : ∀ x, Looks C (f x) (b x)) : Looks C (m >>= f) fun t => b (a t) t where
  ends h := by
    obtain ⟨x, w₁, h₁, h₂⟩ := ends_bind.mp h
    obtain ⟨rfl, n, rfl⟩ := hm.ends h₁
    obtain ⟨hr, n', rfl⟩ := (hf _).ends h₂
    exact ⟨hr, n + n', later_later n n'⟩
  total w := by
    obtain ⟨n, h₁⟩ := hm.total w
    obtain ⟨n', h₂⟩ := (hf (a w.fs.tree)).total (w.later n)
    rw [later_later] at h₂
    exact ⟨n + n', ends_bind.mpr ⟨_, _, h₁, h₂⟩⟩

theorem Looks.congr {a b : Files.Tree Path → α} (hm : Looks C m a) (h : ∀ t, a t = b t) :
    Looks C m b := by
  rwa [show a = b from funext h] at hm

/-- A call that answers what it sees. -/
theorem Looks.fs {a : Files.Tree Path → Files.Resp o}
    (ha : ∀ (q : Files.Oracle String) (s : FileState), q.fails = false →
      Files.step 0 o q s = some (a s.tree, s)) :
    Looks C (Prog.op (Op.fs o) : Prog Resp (Files.Resp o)) a where
  ends h := by
    obtain ⟨r, w₁, ⟨q, n, hq, hs⟩, rfl, rfl⟩ := h
    obtain ⟨s, hstep, hw⟩ := step_fs hs
    have hstep : Files.step 0 o q (World.later _ n).fs = some (_, s) := hstep
    rw [ha q _ hq, Option.some.injEq, Prod.mk.injEq] at hstep
    obtain ⟨rfl, rfl⟩ := hstep
    exact ⟨rfl, n, hw⟩
  total w := by
    refine ⟨0, a w.fs.tree, w.later 0, ⟨⟨false, 0, none⟩, 0, rfl, ?_⟩, rfl, rfl⟩
    show (Files.step 0 o ⟨false, 0, none⟩ (w.later 0).fs).map _ = _
    rw [ha _ _ rfl]
    rfl

theorem looks_tryExists :
    Looks C (Prog.op (Op.fs (.tryExists p)) : Prog Resp Bool) fun t => t.leads p :=
  Looks.fs (o := .tryExists p) (a := fun t => t.leads p) fun q s hq => by simp [Files.step, hq]

theorem looks_openRead :
    Looks C (Prog.op (Op.fs (.openRead p)) : Prog Resp (Except Files.Errno Files.Ino))
      fun t => Files.opened t p :=
  Looks.fs (o := .openRead p) (a := fun t => Files.opened t p)
    fun q s hq => by simp [Files.step, hq]

theorem looks_lstat :
    Looks C (Prog.op (Op.fs (.lstat p)) : Prog Resp (Except Files.Errno Files.Meta)) fun t =>
      match t.ino p with | none => .error .notFound | some i => .ok (t.node i).meta :=
  Looks.fs (o := .lstat p)
    (a := fun t => match t.ino p with | none => .error .notFound | some i => .ok (t.node i).meta)
    fun q s hq => by cases h : s.tree.ino p <;> simp [Files.step, hq, h]

theorem looks_fstat {i : Files.Ino} :
    Looks C (Prog.op (Op.fs (.fstat i)) : Prog Resp (Except Files.Errno Files.Meta))
      fun t => .ok (t.node i).meta :=
  Looks.fs (o := .fstat i) (a := fun t => .ok (t.node i).meta)
    fun q s hq => by simp [Files.step, hq]

theorem looks_read {i : Files.Ino} {limit : ℕ} :
    Looks C (Prog.op (Op.fs (.read i limit)) : Prog Resp (Except Files.Errno Files.Bytes))
      fun t => .ok ((t.node i).data.take limit) :=
  Looks.fs (o := .read i limit) (a := fun t => .ok ((t.node i).data.take limit))
    fun q s hq => by simp [Files.step, hq]

/-! ## Answers -/

/-- The calls on files that are answered wherever nothing fails. -/
def Op.answers : Op → Prop
  | .fs .nextEntry => False
  | .fs _ => True
  | _ => False

theorem exists_host {o : Op} (ho : o.answers) (w : World) :
    ∃ r w', hostStep C Faultless o w r w' := by
  cases o with
  | fs o =>
    have hans : ∃ x, Files.step 0 o ⟨false, 0, none⟩ (w.later 0).fs = some x := by
      cases o with
      | nextEntry => exact ho.elim
      | renameNoClobber p p' =>
        simp only [Files.step, Bool.false_eq_true, if_false]
        split <;> exact ⟨_, rfl⟩
      | lstat | createNew =>
        simp only [Files.step, Bool.false_eq_true, if_false]
        split <;> exact ⟨_, rfl⟩
      | rename | removeFile | write =>
        simp only [Files.step, Bool.false_eq_true, if_false]
        split
        · exact ⟨_, rfl⟩
        · split <;> exact ⟨_, rfl⟩
      | _ => exact ⟨_, rfl⟩
    obtain ⟨⟨r, s⟩, hs⟩ := hans
    refine ⟨r, { w.later 0 with fs := s }, ⟨false, 0, none⟩, 0, rfl, ?_⟩
    show (Files.step 0 o ⟨false, 0, none⟩ (w.later 0).fs).map _ = _
    rw [hs]
    rfl
  | _ => exact ho.elim

end GhaConsumer
