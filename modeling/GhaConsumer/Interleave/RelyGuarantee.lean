import GhaConsumer.Interleave.Pool

/-!
# Rely and guarantee

A protocol says what every thread may assume of the others and must
promise them: an invariant of the shared part, a relation each step of
a thread (or of the outside world) keeps to, what a thread may count on
when it starts a task, and what stays true while it is at the task.
`Safe` says that a program keeps the promises at each of its calls,
whatever the others do in between; `Triple` is the rule of pre- and
postconditions over it. `Sound.run` is the theorem the whole rests on:
where every task's body keeps the promises, every pool reached keeps the
protocol, and every step taken is a good one.
-/

namespace Interleave

open Relation

variable {Op : Type} {Resp : Op → Type} {Task World : Type}

/-- What the threads of a pool promise each other. -/
structure Protocol (M : Machine Resp Task World) where
  /-- The condition on the runs considered. -/
  Meets : Shared Resp Task World → Entry Resp Task World → Prop
  /-- Holds of every shared part reached. -/
  inv : Shared Resp Task World → Prop
  /-- What a step of a thread, or of the outside world (`none`), may do. -/
  guar : Option Tid → Shared Resp Task World → Shared Resp Task World → Prop
  /-- Holds when a thread starts a task. -/
  pre : Tid → Task → Shared Resp Task World → Prop
  /-- Holds as long as a thread is at a task. -/
  hold : Tid → Task → Shared Resp Task World → Prop := fun _ _ _ => True
  /-- Holds when a thread ends. -/
  fin : Tid → Task → Shared Resp Task World → Prop
  /-- What the protocol says of each step taken. -/
  good : Shared Resp Task World → Entry Resp Task World → Prop

namespace Protocol

variable {M : Machine Resp Task World} (P : Protocol M)
variable {α β : Type} {t : Tid} {k : Task}

/-- What the others may have done while thread `t` stood still. -/
def Rely (t : Tid) : Shared Resp Task World → Shared Resp Task World → Prop :=
  ReflTransGen fun x y => P.inv x ∧ P.inv y ∧ ∃ a, a ≠ some t ∧ P.guar a x y

/-- An assertion of thread `t` the others cannot break. -/
def Stable (t : Tid) (A : Shared Resp Task World → Prop) : Prop :=
  ∀ a x y, a ≠ some t → P.inv x → P.inv y → P.guar a x y → A x → A y

variable {P}
variable {A A' : Shared Resp Task World → Prop} {x y z : Shared Resp Task World}

theorem Stable.rely (hA : P.Stable t A) (h : P.Rely t x z) (hx : A x) : A z := by
  induction h with
  | refl => exact hx
  | tail _ hs ih =>
    obtain ⟨hy, hz, a, ha, hg⟩ := hs
    exact hA a _ _ ha hy hz hg ih

theorem Rely.inv (h : P.Rely t x z) (hx : P.inv x) : P.inv z := by
  cases h with
  | refl => exact hx
  | tail _ hs => exact hs.2.1

theorem Stable.and (hA : P.Stable t A) (hA' : P.Stable t A') :
    P.Stable t fun x => A x ∧ A' x :=
  fun a x y ha hx hy hg h => ⟨hA a x y ha hx hy hg h.1, hA' a x y ha hx hy hg h.2⟩

theorem Stable.true : P.Stable t fun _ => True := fun _ _ _ _ _ _ _ _ => trivial

theorem Stable.const {p : Prop} : P.Stable t fun _ => p := fun _ _ _ _ _ _ _ h => h

theorem Stable.imp {p : Prop} (hA : p → P.Stable t A) : P.Stable t fun x => p → A x :=
  fun a x y ha hx hy hg h hp => hA hp a x y ha hx hy hg (h hp)

theorem Stable.exists {ι : Type} {A : ι → Shared Resp Task World → Prop}
    (hA : ∀ i, P.Stable t (A i)) : P.Stable t fun x => ∃ i, A i x :=
  fun a x y ha hx hy hg ⟨i, hi⟩ => ⟨i, hA i a x y ha hx hy hg hi⟩

variable (P) in
/-- The promises of one call: the step is a good one, keeps the
invariant, the guarantee and what holds at the task, and hands a thread
it starts what that thread's task counts on. -/
def Kept (t : Tid) (k : Task) (o : Op) (r : Resp o) (x y : Shared Resp Task World) : Prop :=
  P.good x (.did t k o r x.world) ∧ P.inv y ∧ P.guar (some t) x y ∧
    P.hold t k y ∧ ∀ u k', M.forks o r = some (u, k') → P.pre u k' y

variable (P) in
/-- The call `o` of thread `t`, made where `A` holds, keeps the promises
and leaves `B`. -/
def Does (t : Tid) (k : Task) (A : Shared Resp Task World → Prop) (o : Op)
    (B : Resp o → Shared Resp Task World → Prop) : Prop :=
  ∀ x q r w, P.inv x → A x → M.step t o q x.world = some (r, w) →
    P.Meets x (.did t k o r x.world) → (∀ u k', M.forks o r = some (u, k') → x.next ≤ u) →
    P.Kept t k o r x (x.called M t k o r w) ∧ B r (x.called M t k o r w)

theorem Does.pre {o : Op} {B : Resp o → Shared Resp Task World → Prop} (h : P.Does t k A o B)
    (hA : ∀ x, P.inv x → A' x → A x) : P.Does t k A' o B :=
  fun x q r w hx hA' => h x q r w hx (hA x hx hA')

variable (P) in
/-- From `x` on, the program keeps the promises at every call and what it
returns satisfies `Q`, whatever the others do in between. -/
def Safe (t : Tid) (k : Task) (Q : α → Shared Resp Task World → Prop) :
    Prog Resp α → Shared Resp Task World → Prop
  | .ret a, x => Q a x
  | .call o f, x => ∀ q r w, M.step t o q x.world = some (r, w) →
      P.Meets x (.did t k o r x.world) → (∀ u k', M.forks o r = some (u, k') → x.next ≤ u) →
      P.Kept t k o r x (x.called M t k o r w) ∧
        ∀ z, P.Rely t (x.called M t k o r w) z → Safe t k Q (f r) z

variable (P) in
/-- The rule of pre- and postconditions over `Safe`. -/
def Triple (t : Tid) (k : Task) (A : Shared Resp Task World → Prop) (p : Prog Resp α)
    (Q : α → Shared Resp Task World → Prop) : Prop :=
  ∀ x, P.inv x → A x → P.Safe t k Q p x

/-! ## Rules -/

variable {Q Q' : α → Shared Resp Task World → Prop} {p : Prog Resp α}

theorem Triple.ret {a : α} (h : ∀ x, P.inv x → A x → Q a x) : P.Triple t k A (.ret a) Q := h

theorem Triple.call {o : Op} {f : Resp o → Prog Resp α}
    {B : Resp o → Shared Resp Task World → Prop} (ho : P.Does t k A o B)
    (hB : ∀ r, P.Stable t (B r)) (hf : ∀ r, P.Triple t k (B r) (f r) Q) :
    P.Triple t k A (.call o f) Q := by
  intro x hx hA q r w hq hm hn
  obtain ⟨hk, hb⟩ := ho x q r w hx hA hq hm hn
  exact ⟨hk, fun z hz => hf r z (hz.inv hk.2.1) ((hB r).rely hz hb)⟩

/-- One call, and the rest. -/
theorem Triple.step {o : Op} {f : Resp o → Prog Resp α}
    {B : Resp o → Shared Resp Task World → Prop} (ho : P.Does t k A o B)
    (hB : ∀ r, P.Stable t (B r)) (hf : ∀ r, P.Triple t k (B r) (f r) Q) :
    P.Triple t k A (Prog.op o >>= f) Q :=
  Triple.call ho hB hf

/-- One call by itself. -/
theorem Triple.op {o : Op} {B : Resp o → Shared Resp Task World → Prop} (ho : P.Does t k A o B)
    (hB : ∀ r, P.Stable t (B r)) : P.Triple t k A (Prog.op o) B :=
  Triple.call ho hB fun _ => Triple.ret fun _ _ h => h

theorem Safe.mono (h : P.Safe t k Q p x) (hx : P.inv x)
    (hQ : ∀ a y, P.inv y → Q a y → Q' a y) : P.Safe t k Q' p x := by
  induction p generalizing x with
  | ret a => exact hQ a x hx h
  | call o f ih =>
    intro q r w hq hm hn
    obtain ⟨hk, hz⟩ := h q r w hq hm hn
    exact ⟨hk, fun z hz' => ih r (hz z hz') (hz'.inv hk.2.1)⟩

theorem Triple.conseq (h : P.Triple t k A p Q) (hA : ∀ x, P.inv x → A' x → A x)
    (hQ : ∀ a x, P.inv x → Q a x → Q' a x) : P.Triple t k A' p Q' :=
  fun x hx hA' => (h x hx (hA x hx hA')).mono hx hQ

theorem Triple.pre (h : P.Triple t k A p Q) (hA : ∀ x, P.inv x → A' x → A x) :
    P.Triple t k A' p Q :=
  h.conseq hA fun _ _ _ hq => hq

theorem Safe.bind {f : α → Prog Resp β} {R : β → Shared Resp Task World → Prop}
    (h : P.Safe t k Q p x) (hx : P.inv x) (hf : ∀ a, P.Triple t k (Q a) (f a) R) :
    P.Safe t k R (p >>= f) x := by
  induction p generalizing x with
  | ret a => exact hf a x hx h
  | call o g ih =>
    intro q r w hq hm hn
    obtain ⟨hk, hz⟩ := h q r w hq hm hn
    exact ⟨hk, fun z hz' => ih r (hz z hz') (hz'.inv hk.2.1)⟩

theorem Triple.bind {f : α → Prog Resp β} {R : β → Shared Resp Task World → Prop}
    (h : P.Triple t k A p Q) (hf : ∀ a, P.Triple t k (Q a) (f a) R) :
    P.Triple t k A (p >>= f) R :=
  fun x hx hA => (h x hx hA).bind hx hf

/-- What a program returns whatever the answers is known after it. -/
theorem Triple.returns {ρ : α → Prop} (h : P.Triple t k A p Q) (hp : p.Returns ρ) :
    P.Triple t k A p fun a x => ρ a ∧ Q a x := by
  intro x hx hA
  have hs := h x hx hA
  clear h hA
  induction p generalizing x with
  | ret a => exact ⟨hp, hs⟩
  | call o f ih =>
    intro q r w hq hm hn
    obtain ⟨hk, hz⟩ := hs q r w hq hm hn
    exact ⟨hk, fun z hz' => ih r (hp r) z (hz'.inv hk.2.1) (hz z hz')⟩

/-- A precondition may be split into its cases. -/
theorem Triple.exists {ι : Type} {A : ι → Shared Resp Task World → Prop}
    (h : ∀ i, P.Triple t k (A i) p Q) : P.Triple t k (fun x => ∃ i, A i x) p Q :=
  fun x hx ⟨i, hi⟩ => h i x hx hi

/-- A pure part of the precondition is a hypothesis. -/
theorem Triple.pure_and {φ : Prop} (h : φ → P.Triple t k A p Q) :
    P.Triple t k (fun x => φ ∧ A x) p Q :=
  fun x hx hA => h hA.1 x hx hA.2

/-- **Framing.** A program all of whose calls keep the promises and leave
a stable assertion alone leaves it alone, whatever it returns. -/
theorem Triple.only {φ : Op → Prop} (hp : p.Only φ) (hA : P.Stable t A)
    (hφ : ∀ o, φ o → P.Does t k A o fun _ => A) : P.Triple t k A p fun _ => A := by
  induction p with
  | ret a => exact Triple.ret fun _ _ h => h
  | call o f ih => exact Triple.call (hφ o hp.1) (fun _ => hA) fun r => ih r (hp.2 r)

/-- A loop over what a call returns keeps its invariant. -/
theorem Triple.whileSome {ε ι σ : Type} {stop : ε} {next : Prog Resp (Except ε (Option ι))}
    {f : σ → ι → Prog Resp σ} {I : σ → Shared Resp Task World → Prop}
    {J : σ → Except ε (Option ι) → Shared Resp Task World → Prop}
    {Q : Except ε σ → Shared Resp Task World → Prop}
    (hnext : ∀ s, P.Triple t k (I s) next (J s))
    (hf : ∀ s x, P.Triple t k (J s (.ok (some x))) (f s x) I)
    (hdone : ∀ s y, P.inv y → J s (.ok none) y → Q (.ok s) y)
    (herror : ∀ s e y, P.inv y → J s (.error e) y → Q (.error e) y)
    (hstop : ∀ s y, P.inv y → I s y → Q (.error stop) y) (fuel : ℕ) (s : σ) :
    P.Triple t k (I s) (Prog.whileSome stop next f fuel s) Q := by
  induction fuel generalizing s with
  | zero => exact Triple.ret (hstop s)
  | succ fuel ih =>
    refine (hnext s).bind fun r => ?_
    rcases r with e | _ | x
    · exact Triple.ret (herror s e)
    · exact Triple.ret (hdone s)
    · exact (hf s x).bind fun s' => ih s'

/-! ## Soundness -/

variable (P) in
/-- What a body must leave: the next task's precondition, or the end. -/
def post (t : Tid) (k : Task) : Option Task → Shared Resp Task World → Prop
  | some k' => P.pre t k'
  | none => P.fin t k

variable (P) in
/-- The obligations of a protocol. -/
structure Sound : Prop where
  pre_stable : ∀ t k, P.Stable t (P.pre t k)
  hold_stable : ∀ t k, P.Stable t (P.hold t k)
  hold_of_pre : ∀ t k x, P.inv x → P.pre t k x → P.hold t k x
  body : ∀ t k, P.Triple t k (P.pre t k) (M.body k) (P.post t k)
  exit : ∀ t k x, P.inv x → P.fin t k x → P.Meets x (.ended t k x.world) →
    P.good x (.ended t k x.world) ∧ P.inv (x.ended t k (M.leave t x.world)) ∧
      P.guar (some t) x (x.ended t k (M.leave t x.world))
  crash : ∀ t k x w, P.inv x → M.crash t x.world = some w → P.Meets x (.ended t k x.world) →
    P.good x (.ended t k x.world) ∧ P.inv (x.ended t k w) ∧ P.guar (some t) x (x.ended t k w)
  env : ∀ e x w, P.inv x → M.env e x.world = some w →
    P.inv { x with world := w } ∧ P.guar none x { x with world := w }

variable (P) in
/-- The pool keeps the protocol: the invariant holds, and every thread
is safe from here on. -/
structure Holds (c : Config Resp Task World) : Prop where
  inv : P.inv c.toShared
  old : ∀ t k p, c.threads t = some (k, p) → t < c.next
  hold : ∀ t k p, c.threads t = some (k, p) → P.hold t k c.toShared
  safe : ∀ t k p, c.threads t = some (k, p) →
    ∀ z, P.Rely t c.toShared z → P.Safe t k (P.post t k) p z

variable {c₀ c c' : Config Resp Task World} {e : Option (Entry Resp Task World)}

/-- Each thread's safety outlives a step of anyone else's. -/
theorem Holds.others (h : P.Holds c) {u : Tid} {p : Prog Resp (Option Task)}
    {y : Shared Resp Task World} {a : Option Tid} (hu : c.threads u = some (k, p))
    (ha : a ≠ some u) (hy : P.inv y) (hg : P.guar a c.toShared y) :
    ∀ z, P.Rely u y z → P.Safe u k (P.post u k) p z :=
  fun z hz => h.safe u k p hu z (ReflTransGen.head ⟨h.inv, hy, a, ha, hg⟩ hz)

/-- A thread whose task's precondition holds is safe at the start of the
task. -/
theorem Sound.start (hP : P.Sound) (hx : P.inv x) (hpre : P.pre t k x) :
    ∀ z, P.Rely t x z → P.Safe t k (P.post t k) (M.body k) z :=
  fun z hz => hP.body t k z (hz.inv hx) ((hP.pre_stable t k).rely hz hpre)

/-- A pool of threads at the start of their tasks keeps the protocol. -/
theorem Sound.init (hP : P.Sound) (hinv : P.inv c₀.toShared)
    (hth : ∀ t k p, c₀.threads t = some (k, p) →
      t < c₀.next ∧ p = M.body k ∧ P.pre t k c₀.toShared) : P.Holds c₀ where
  inv := hinv
  old t k p h := (hth t k p h).1
  hold t k p h := hP.hold_of_pre t k _ hinv (hth t k p h).2.2
  safe t k p h := by
    obtain ⟨-, rfl, hpre⟩ := hth t k p h
    exact hP.start hinv hpre

/-- The pool keeps the protocol when a thread is gone. -/
theorem Sound.drop (hP : P.Sound) (h : P.Holds c) {y : Shared Resp Task World} (hy : P.inv y)
    (hg : P.guar (some t) c.toShared y) (hn : y.next = c.next) :
    P.Holds { toShared := y, threads := Function.update c.threads t none } := by
  have hth : ∀ u k p, Function.update c.threads t none u = some (k, p) →
      u ≠ t ∧ c.threads u = some (k, p) := by
    intro u k p hu
    rcases eq_or_ne u t with rfl | hut
    · simp only [Function.update_self] at hu; cases hu
    · exact ⟨hut, by rwa [Function.update_of_ne hut] at hu⟩
  refine ⟨hy, fun u k p hu => ?_, fun u k p hu => ?_, fun u k p hu => ?_⟩
  · rw [hn]; exact h.old u k p (hth u k p hu).2
  · obtain ⟨hut, hu⟩ := hth u k p hu
    exact hP.hold_stable u k (some t) _ _ (fun heq => hut (Option.some.inj heq).symm) h.inv hy hg
      (h.hold u k p hu)
  · obtain ⟨hut, hu⟩ := hth u k p hu
    exact h.others hu (fun heq => hut (Option.some.inj heq).symm) hy hg

/-- **One step keeps the protocol**, and is a good one. -/
theorem Sound.step (hP : P.Sound) (h : P.Holds c) (hs : M.Step c e c')
    (hm : ∀ x, e = some x → P.Meets c.toShared x) :
    P.Holds c' ∧ ∀ x, e = some x → P.good c.toShared x := by
  cases hs with
  | @call t k o f q r w hat hq hnew =>
    obtain ⟨⟨hgood, hinv, hguar, hhold, hfork⟩, hsafe⟩ :=
      h.safe t k _ hat _ .refl q r w hq (hm _ rfl) hnew
    refine ⟨⟨hinv, fun u k' p hu => ?_, fun u k' p hu => ?_, fun u k' p hu => ?_⟩,
      fun x hx => by cases hx; exact hgood⟩
    · -- a name in use stays below `next`, and the new one is just below it
      have hnext := c.toShared.next_le_called (t := t) (k := k) (w := w) hnew
      rcases M.threadsCalled_cases hu with ⟨hf, -⟩ | ⟨rfl, -, -⟩ | ⟨-, hu⟩
      · exact Shared.lt_next_of_forks hf
      · exact Nat.lt_of_lt_of_le (h.old _ _ _ hat) hnext
      · exact Nat.lt_of_lt_of_le (h.old u k' p hu) hnext
    · rcases M.threadsCalled_cases hu with ⟨hf, -⟩ | ⟨rfl, rfl, -⟩ | ⟨hut, hu⟩
      · exact hP.hold_of_pre _ _ _ hinv (hfork _ _ hf)
      · exact hhold
      · exact hP.hold_stable u k' (some t) _ _ (fun heq => hut (Option.some.inj heq).symm) h.inv
          hinv hguar (h.hold u k' p hu)
    · rcases M.threadsCalled_cases hu with ⟨hf, rfl⟩ | ⟨rfl, rfl, rfl⟩ | ⟨hut, hu⟩
      · exact hP.start hinv (hfork _ _ hf)
      · exact hsafe
      · exact h.others hu (fun heq => hut (Option.some.inj heq).symm) hinv hguar
  | @again t k k' hat =>
    have hpre := h.safe t k _ hat _ .refl
    refine ⟨⟨h.inv, fun u k'' p hu => ?_, fun u k'' p hu => ?_, fun u k'' p hu => ?_⟩,
      fun x hx => by cases hx⟩
    · rcases eq_or_ne u t with rfl | hut
      · exact h.old u _ _ hat
      · simp only [Function.update_of_ne hut] at hu; exact h.old u k'' p hu
    · rcases eq_or_ne u t with rfl | hut
      · simp only [Function.update_self] at hu
        cases hu
        exact hP.hold_of_pre _ _ _ h.inv hpre
      · simp only [Function.update_of_ne hut] at hu; exact h.hold u k'' p hu
    · rcases eq_or_ne u t with rfl | hut
      · simp only [Function.update_self] at hu
        cases hu
        exact hP.start h.inv hpre
      · simp only [Function.update_of_ne hut] at hu
        exact h.safe u k'' p hu
  | @exit t k hat =>
    obtain ⟨hgood, hinv, hguar⟩ := hP.exit t k _ h.inv (h.safe t k _ hat _ .refl) (hm _ rfl)
    exact ⟨hP.drop h hinv hguar rfl, fun x hx => by cases hx; exact hgood⟩
  | @crash t k p w hat hw =>
    obtain ⟨hgood, hinv, hguar⟩ := hP.crash t k _ w h.inv hw (hm _ rfl)
    exact ⟨hP.drop h hinv hguar rfl, fun x hx => by cases hx; exact hgood⟩
  | @env e w hw =>
    obtain ⟨hinv, hguar⟩ := hP.env e _ w h.inv hw
    refine ⟨⟨hinv, h.old, fun u k p hu => ?_, fun u k p hu => ?_⟩, fun x hx => by cases hx⟩
    · exact hP.hold_stable u k none _ _ (by simp) h.inv hinv hguar (h.hold u k p hu)
    · exact h.others hu (by simp) hinv hguar

/-- **Every run keeps the protocol.** -/
theorem Sound.run (hP : P.Sound) (h₀ : P.Holds c₀) (hr : M.Run P.Meets c₀ c) : P.Holds c := by
  induction hr with
  | start => exact h₀
  | step _ hs hm ih => exact (hP.step ih hs hm).1

end Protocol

end Interleave
