import GhaConsumer.Interleave.Local

/-!
# Monitors

A monitor is an abstract machine over a thread's calls and their answers:
what a task is for, said as states and the calls in order at each. `Obeys`
says that a program makes no call out of order, `Monitor.Triple` is the
rule of pre- and postconditions over it, and `Monitor.Sound.run` carries it
to pools: in every run each thread's calls are a run of its monitor,
whatever it calls next is in order too, and a thread that has ended has
left the monitor where it may.
-/

namespace Interleave

variable {Op : Type} {Resp : Op → Type} {Task World σ α β : Type}

/-! ## Calls in order -/

/-- There are calls like these in the history, the latest first. -/
def Ordered : List (Event Resp → Prop) → History Resp → Prop
  | [], _ => True
  | P :: Ps, τ => ∃ e σ, e :: σ <:+ τ ∧ P e ∧ Ordered Ps σ

namespace Ordered

variable {Ps : List (Event Resp → Prop)} {P : Event Resp → Prop} {e : Event Resp}
variable {τ ρ : History Resp}

theorem suffix (h : Ordered Ps ρ) (hsuf : ρ <:+ τ) : Ordered Ps τ := by
  cases Ps with
  | nil => trivial
  | cons P Ps =>
    obtain ⟨e, υ, hυ, hP, hrest⟩ := h
    exact ⟨e, υ, hυ.trans hsuf, hP, hrest⟩

/-- Later calls do not matter. -/
theorem cons (h : Ordered Ps τ) (e : Event Resp) : Ordered Ps (e :: τ) :=
  h.suffix (List.suffix_cons e τ)

/-- One more call of those asked for. -/
theorem push (h : Ordered Ps τ) (he : P e) : Ordered (P :: Ps) (e :: τ) :=
  ⟨e, τ, List.suffix_refl _, he, h⟩

/-- The earlier ones alone. -/
theorem tail (h : Ordered (P :: Ps) τ) : Ordered Ps τ := by
  obtain ⟨e, ρ, hsuf, -, hrest⟩ := h
  exact hrest.suffix ((List.suffix_cons e ρ).trans hsuf)

/-- Only the earliest ones. -/
theorem right {Qs : List (Event Resp → Prop)} (h : Ordered (Qs ++ Ps) τ) : Ordered Ps τ := by
  induction Qs with
  | nil => exact h
  | cons Q Qs ih => exact ih h.tail

/-- The latest one is among them. -/
theorem mem (h : Ordered (P :: Ps) τ) : ∃ e ∈ τ, P e := by
  obtain ⟨e, ρ, hsuf, he, -⟩ := h
  exact ⟨e, hsuf.subset List.mem_cons_self, he⟩

end Ordered

/-! ## Monitors -/

/-- An abstract machine for the threads of a pool. -/
structure Monitor (Resp : Op → Type) (Task σ : Type) where
  /-- Where a thread begins. -/
  init : σ
  /-- What a call at a task may lead to, where the call is in order. -/
  next : Task → σ → Event Resp → σ → Prop
  /-- Where a task may begin. -/
  pre : Task → σ → Prop
  /-- Where a thread at the task may end. -/
  fin : Task → σ → Prop

namespace Monitor

variable (m : Monitor Resp Task σ)

/-! ## Programs -/

/-- From `s` on every call of the program is in order, and what it returns
satisfies `Q`. -/
def Obeys (k : Task) (Q : α → σ → Prop) : Prog Resp α → σ → Prop
  | .ret a, s => Q a s
  | .call o f, s => ∀ r, ∃ s', m.next k s ⟨o, r⟩ s' ∧ Obeys k Q (f r) s'

/-- The rule of pre- and postconditions over `Obeys`. -/
def Triple (k : Task) (A : σ → Prop) (p : Prog Resp α) (Q : α → σ → Prop) : Prop :=
  ∀ s, A s → m.Obeys k Q p s

variable {m}
variable {k : Task} {A A' : σ → Prop} {p : Prog Resp α} {Q Q' : α → σ → Prop} {s s' : σ} {o : Op}

theorem Triple.ret {a : α} (h : ∀ s, A s → Q a s) : m.Triple k A (.ret a) Q := h

/-- One call, and the rest. -/
theorem Triple.step {f : Resp o → Prog Resp α} {B : Resp o → σ → Prop}
    (ho : ∀ s r, A s → ∃ s', m.next k s ⟨o, r⟩ s' ∧ B r s')
    (hf : ∀ r, m.Triple k (B r) (f r) Q) : m.Triple k A (Prog.op o >>= f) Q := by
  intro s hA r
  obtain ⟨s', hs, hB⟩ := ho s r hA
  exact ⟨s', hs, hf r s' hB⟩

theorem Obeys.mono (h : m.Obeys k Q p s) (hQ : ∀ a s, Q a s → Q' a s) : m.Obeys k Q' p s := by
  induction p generalizing s with
  | ret a => exact hQ a s h
  | call o f ih =>
    intro r
    obtain ⟨s', hs, h⟩ := h r
    exact ⟨s', hs, ih r h⟩

theorem Triple.conseq (h : m.Triple k A p Q) (hA : ∀ s, A' s → A s)
    (hQ : ∀ a s, Q a s → Q' a s) : m.Triple k A' p Q' :=
  fun s hs => (h s (hA s hs)).mono hQ

theorem Triple.pre (h : m.Triple k A p Q) (hA : ∀ s, A' s → A s) : m.Triple k A' p Q :=
  h.conseq hA fun _ _ hq => hq

theorem Triple.post (h : m.Triple k A p Q) (hQ : ∀ a s, Q a s → Q' a s) : m.Triple k A p Q' :=
  h.conseq (fun _ ha => ha) hQ

theorem Obeys.bind {f : α → Prog Resp β} {R : β → σ → Prop} (h : m.Obeys k Q p s)
    (hf : ∀ a, m.Triple k (Q a) (f a) R) : m.Obeys k R (p >>= f) s := by
  induction p generalizing s with
  | ret a => exact hf a s h
  | call o g ih =>
    intro r
    obtain ⟨s', hs, h⟩ := h r
    exact ⟨s', hs, ih r h⟩

theorem Triple.bind {f : α → Prog Resp β} {R : β → σ → Prop} (h : m.Triple k A p Q)
    (hf : ∀ a, m.Triple k (Q a) (f a) R) : m.Triple k A (p >>= f) R :=
  fun s hA => (h s hA).bind hf

/-- A program all of whose calls are in order where `A` holds, and keep
it. -/
theorem Triple.only {φ : Op → Prop} (hp : p.Only φ)
    (hφ : ∀ o r s, φ o → A s → ∃ s', m.next k s ⟨o, r⟩ s' ∧ A s') :
    m.Triple k A p fun _ => A := by
  induction p with
  | ret a => exact Triple.ret fun _ h => h
  | call o f ih =>
    intro s hA r
    obtain ⟨s', hs, hA'⟩ := hφ o r s hp.1 hA
    exact ⟨s', hs, ih r (hp.2 r) s' hA'⟩

/-- A loop over what a call returns keeps what its parts keep. -/
theorem Triple.whileSome {ε ι δ : Type} {stop : ε} {next : Prog Resp (Except ε (Option ι))}
    {f : δ → ι → Prog Resp δ} (hnext : m.Triple k A next fun _ => A)
    (hf : ∀ d x, m.Triple k A (f d x) fun _ => A) (fuel : ℕ) (d : δ) :
    m.Triple k A (Prog.whileSome stop next f fuel d) fun _ => A := by
  induction fuel generalizing d with
  | zero => exact Triple.ret fun _ h => h
  | succ fuel ih =>
    refine hnext.bind fun r => ?_
    rcases r with e | _ | x
    · exact Triple.ret fun _ h => h
    · exact Triple.ret fun _ h => h
    · exact (hf d x).bind ih

/-- What a program returns whatever the answers is known after it. -/
theorem Triple.and_returns {ρ : α → Prop} (h : m.Triple k A p Q) (hr : p.Returns ρ) :
    m.Triple k A p fun a s => ρ a ∧ Q a s := by
  intro s hA
  have hs := h s hA
  clear h hA
  induction p generalizing s with
  | ret a => exact ⟨hr, hs⟩
  | call o f ih =>
    intro r
    obtain ⟨s', hn, h⟩ := hs r
    exact ⟨s', hn, ih r (hr r) s' h⟩

section Lower

variable {Op' : Type} {Resp' : Op' → Type} {impl : (o : Op') → Prog Resp (Resp' o)}

/-- Two parts in another interface. -/
theorem Triple.lowerBind {p : Prog Resp' β} {f : β → Prog Resp' α} {B : β → σ → Prop}
    (hp : m.Triple k A (p.lower impl) B) (hf : ∀ b, m.Triple k (B b) ((f b).lower impl) Q) :
    m.Triple k A ((p >>= f).lower impl) Q := by
  rw [Prog.lower_bind]
  exact hp.bind hf

/-- A program over calls each of which, carried out, keeps `A`. -/
theorem Triple.lower_only {φ : Op' → Prop} {p : Prog Resp' α} (hp : p.Only φ)
    (himpl : ∀ o, φ o → m.Triple k A (impl o) fun _ => A) :
    m.Triple k A (p.lower impl) fun _ => A := by
  induction p with
  | ret a => exact Triple.ret fun _ h => h
  | call o f ih => exact (himpl o hp.1).bind fun r => ih r (hp.2 r)

end Lower

/-! ## Histories -/

variable (m) in
/-- The calls of thread `t` are in order, and may have led to `s`. -/
def At (t : Tid) : List (Entry Resp Task World) → σ → Prop
  | [], s => s = m.init
  | .did u k o r _ :: τ, s =>
    if u = t then ∃ s₁, At t τ s₁ ∧ m.next k s₁ ⟨o, r⟩ s else At t τ s
  | .ended .. :: τ, s => At t τ s

variable {t u : Tid} {r : Resp o} {w : World} {τ ρ : List (Entry Resp Task World)}

theorem at_did : m.At t (.did t k o r w :: τ) s ↔ ∃ s₁, m.At t τ s₁ ∧ m.next k s₁ ⟨o, r⟩ s := by
  rw [At, if_pos rfl]

theorem at_did_of_ne (h : u ≠ t) : m.At t (.did u k o r w :: τ) s ↔ m.At t τ s := by
  rw [At, if_neg h]

/-- A thread without lines is where it began. -/
theorem at_init (h : ∀ e ∈ τ, e.tid ≠ t) : m.At t τ m.init := by
  induction τ with
  | nil => rfl
  | cons e τ ih =>
    have hτ := ih fun e' he' => h e' (List.mem_cons_of_mem _ he')
    cases e with
    | did u k o r w => exact (at_did_of_ne (h (.did u k o r w) List.mem_cons_self)).mpr hτ
    | ended u k w => exact hτ

/-- What was in order was in order at every point. -/
theorem at_of_suffix (h : ∃ s, m.At t τ s) (hsuf : ρ <:+ τ) : ∃ s, m.At t ρ s := by
  induction τ with
  | nil => rwa [List.eq_nil_of_suffix_nil hsuf]
  | cons e τ ih =>
    rcases List.suffix_cons_iff.mp hsuf with rfl | hsuf
    · exact h
    · refine ih ?_ hsuf
      cases e with
      | ended u k w => exact h
      | did u k o r w =>
        obtain ⟨s, hs⟩ := h
        by_cases hut : u = t
        · subst hut
          obtain ⟨s₁, hs₁, -⟩ := at_did.mp hs
          exact ⟨s₁, hs₁⟩
        · exact ⟨s, (at_did_of_ne hut).mp hs⟩

/-- Each call led from one state to the next. -/
theorem next_of_line (h : ∃ s, m.At t τ s) (hsuf : .did t k o r w :: ρ <:+ τ) :
    ∃ s s', m.At t ρ s ∧ m.next k s ⟨o, r⟩ s' := by
  obtain ⟨s', hs'⟩ := at_of_suffix h hsuf
  obtain ⟨s, hs, hn⟩ := at_did.mp hs'
  exact ⟨s, s', hs, hn⟩

/-- What holds where a thread begins and is kept by each of its calls at
the tasks in `K`, given its calls so far, holds wherever those have led. -/
theorem At.induction_tasks {K : Task → Prop} {I : History Resp → σ → Prop} (hs : m.At t τ s)
    (hK : ∀ k (o : Op) (r : Resp o) w, .did t k o r w ∈ τ → K k) (h₀ : I [] m.init)
    (hstep : ∀ k ρ s e s', K k → I ρ s → m.next k s e s' → I (e :: ρ) s') :
    I (Entry.own t τ) s := by
  induction τ generalizing s with
  | nil =>
    obtain rfl : s = m.init := hs
    exact h₀
  | cons e τ ih =>
    have hτ : ∀ k (o : Op) (r : Resp o) w, .did t k o r w ∈ τ → K k :=
      fun k o r w he => hK k o r w (List.mem_cons_of_mem _ he)
    cases e with
    | ended u k w => exact ih hs hτ
    | did u k o r w =>
      by_cases hut : u = t
      · subst hut
        obtain ⟨s₁, hs₁, hn⟩ := at_did.mp hs
        rw [Entry.own_did]
        exact hstep k _ s₁ _ s (hK k o r w List.mem_cons_self) (ih hs₁ hτ) hn
      · rw [Entry.own_did_of_ne hut]
        exact ih ((at_did_of_ne hut).mp hs) hτ

/-- The same for a thread at any tasks. -/
theorem At.induction {I : History Resp → σ → Prop} (hs : m.At t τ s) (h₀ : I [] m.init)
    (hstep : ∀ k ρ s e s', I ρ s → m.next k s e s' → I (e :: ρ) s') : I (Entry.own t τ) s :=
  hs.induction_tasks (K := fun _ => True) (fun _ _ _ _ _ => trivial) h₀
    fun k ρ s e s' _ => hstep k ρ s e s'

/-! ## Pools -/

variable (m) in
/-- A body returns where the next task may begin, or the thread may end. -/
def post (k : Task) : Option Task → σ → Prop
  | some k' => m.pre k'
  | none => m.fin k

variable (m) in
/-- The obligations: every body obeys, a thread starts where its task may
begin, and none is killed where it may not end. -/
structure Sound (M : Machine Resp Task World) : Prop where
  body : ∀ k, m.Triple k (m.pre k) (M.body k) (m.post k)
  forks : ∀ {o : Op} {r : Resp o} {u k}, M.forks o r = some (u, k) → m.pre k m.init
  crash : ∀ {t w w'}, M.crash t w = some w' → ∀ k s, m.fin k s

variable {M : Machine Resp Task World} {c₀ c c' : Config Resp Task World}
variable {Meets : Shared Resp Task World → Entry Resp Task World → Prop}

variable (m M) in
/-- Nothing has happened yet, and every thread is at the start of its
task, where it may begin. -/
structure Start (c : Config Resp Task World) : Prop where
  trace : c.trace = []
  fresh : ∀ t k p, c.threads t = some (k, p) → t < c.next ∧ p = M.body k ∧ m.pre k m.init

variable (m) in
/-- The pool keeps to the monitor. -/
structure Holds (c : Config Resp Task World) : Prop where
  old : ∀ e ∈ c.trace, e.tid < c.next
  /-- Every thread's calls so far are in order, and those to come. -/
  thread : ∀ t k p, c.threads t = some (k, p) →
    t < c.next ∧ ∃ s, m.At t c.trace s ∧ m.Obeys k (m.post k) p s
  accepted : ∀ t, ∃ s, m.At t c.trace s
  ended : ∀ t k w τ, .ended t k w :: τ <:+ c.trace → ∃ s, m.At t τ s ∧ m.fin k s

theorem Start.holds (hm : m.Sound M) (h : m.Start M c) : m.Holds c := by
  refine ⟨fun e he => ?_, fun t k p ht => ?_, fun t => ?_, fun t k w τ hsuf => ?_⟩
  · rw [h.trace] at he
    cases he
  · obtain ⟨hlt, rfl, hpre⟩ := h.fresh t k p ht
    rw [h.trace]
    exact ⟨hlt, m.init, rfl, hm.body k _ hpre⟩
  · rw [h.trace]
    exact ⟨m.init, rfl⟩
  · rw [h.trace] at hsuf
    cases List.eq_nil_of_suffix_nil hsuf

/-- A thread that ends where it may leaves the others as they are. -/
theorem Holds.drop (h : m.Holds c) {p : Prog Resp (Option Task)}
    (hat : c.threads t = some (k, p)) (hfin : ∃ s, m.At t c.trace s ∧ m.fin k s) :
    m.Holds { toShared := c.toShared.ended t k w, threads := Function.update c.threads t none } := by
  refine ⟨List.forall_mem_cons.mpr ⟨(h.thread t k _ hat).1, h.old⟩, fun u k' p hu => ?_,
    h.accepted, fun u k' w' τ hsuf => ?_⟩
  · rcases eq_or_ne u t with rfl | hut
    · simp only [Function.update_self] at hu
      cases hu
    · simp only [Function.update_of_ne hut] at hu
      exact h.thread u k' p hu
  · rcases List.suffix_cons_iff.mp hsuf with heq | hsuf
    · cases heq
      exact hfin
    · exact h.ended u k' w' τ hsuf

/-- One step keeps to the monitor. -/
theorem Sound.step {e : Option (Entry Resp Task World)} (hm : m.Sound M) (h : m.Holds c)
    (hs : M.Step c e c') : m.Holds c' := by
  cases hs with
  | @call t k o f q r w hat hq hnew =>
    obtain ⟨hlt, s, hst, hobeys⟩ := h.thread t k _ hat
    obtain ⟨s', hn, hrest⟩ := hobeys r
    have hnext := c.toShared.next_le_called (t := t) (k := k) (w := w) hnew
    have hself : m.At t (c.toShared.called M t k o r w).trace s' := at_did.mpr ⟨s, hst, hn⟩
    have hothers : ∀ u su, u ≠ t → m.At u c.trace su →
        m.At u (c.toShared.called M t k o r w).trace su :=
      fun u su hut hu => (at_did_of_ne hut.symm).mpr hu
    refine ⟨List.forall_mem_cons.mpr ⟨?_, fun e he => ?_⟩, fun u k' p hu => ?_, fun u => ?_,
      fun u k' w' τ hsuf => ?_⟩
    · exact Nat.lt_of_lt_of_le hlt hnext
    · exact Nat.lt_of_lt_of_le (h.old e he) hnext
    · rcases M.threadsCalled_cases hu with ⟨hf, rfl⟩ | ⟨rfl, rfl, rfl⟩ | ⟨hut, hu⟩
      · -- a thread just started has no line yet
        have hle := hnew u k' hf
        have hut : u ≠ t := fun heq => Nat.not_le.mpr hlt (heq ▸ hle)
        have hinit : m.At u c.trace m.init := at_init fun e he heq =>
          Nat.not_le.mpr (h.old e he) (heq ▸ hle)
        exact ⟨Shared.lt_next_of_forks hf, m.init, hothers u _ hut hinit,
          hm.body k' _ (hm.forks hf)⟩
      · exact ⟨Nat.lt_of_lt_of_le hlt hnext, s', hself, hrest⟩
      · obtain ⟨hlt', su, hsu, hou⟩ := h.thread u k' p hu
        exact ⟨Nat.lt_of_lt_of_le hlt' hnext, su, hothers u su hut hsu, hou⟩
    · by_cases hut : u = t
      · exact ⟨s', hut ▸ hself⟩
      · obtain ⟨su, hsu⟩ := h.accepted u
        exact ⟨su, hothers u su hut hsu⟩
    · rcases List.suffix_cons_iff.mp hsuf with heq | hsuf
      · cases heq
      · exact h.ended u k' w' τ hsuf
  | @again t k k' hat =>
    obtain ⟨hlt, s, hst, hpre⟩ := h.thread t k _ hat
    refine ⟨h.old, fun u k'' p hu => ?_, h.accepted, h.ended⟩
    rcases eq_or_ne u t with rfl | hut
    · simp only [Function.update_self] at hu
      cases hu
      exact ⟨hlt, s, hst, hm.body k' s hpre⟩
    · simp only [Function.update_of_ne hut] at hu
      exact h.thread u k'' p hu
  | @exit t k hat =>
    obtain ⟨-, s, hst, hfin⟩ := h.thread t k _ hat
    exact h.drop hat ⟨s, hst, hfin⟩
  | @crash t k p w hat hw =>
    obtain ⟨-, s, hst, -⟩ := h.thread t k _ hat
    exact h.drop hat ⟨s, hst, hm.crash hw k s⟩
  | @env e w hw => exact ⟨h.old, h.thread, h.accepted, h.ended⟩

/-- **Every run keeps to the monitor.** -/
theorem Sound.run (hm : m.Sound M) (h₀ : m.Start M c₀) (hr : M.Run Meets c₀ c) : m.Holds c := by
  induction hr with
  | start => exact h₀.holds hm
  | step _ hs _ ih => exact hm.step ih hs

/-! ## Threads of one task -/

section Single

/-- The tasks a thread has been at, where one in `P` is the only one of
its thread. -/
def single (P : Task → Prop) : Monitor Resp Task (List Task) where
  init := []
  next k s _ s' := (P k → ∀ k' ∈ s, k' = k) ∧ s' = k :: s
  pre k s := P k → ∀ k' ∈ s, k' = k
  fin k s := P k → ∀ k' ∈ s, k' = k

variable {P : Task → Prop}

theorem sound_single (hnext : ∀ k, (M.body k).Returns fun next => ∀ k', next = some k' → ¬ P k')
    (hcrash : ∀ t w, M.crash t w = none) : (single P : Monitor Resp Task _).Sound M where
  body k := by
    have hkeep : (single P : Monitor Resp Task _).Triple k (fun s => P k → ∀ k' ∈ s, k' = k)
        (M.body k) fun _ s => P k → ∀ k' ∈ s, k' = k :=
      .only (Prog.only_true _) fun o r s _ hs =>
        ⟨k :: s, ⟨hs, rfl⟩, fun hk => List.forall_mem_cons.mpr ⟨rfl, hs hk⟩⟩
    refine (hkeep.and_returns (hnext k)).post fun next s hs => ?_
    cases next with
    | none => exact hs.2
    | some k' => exact fun hk' => absurd hk' (hs.1 k' rfl)
  forks _ _ _ hk' := by cases hk'
  crash {t w w'} h := by
    rw [hcrash] at h
    cases h

theorem mem_of_single {s : List Task} (hs : (single P : Monitor Resp Task _).At t τ s) {k' : Task}
    (he : .did t k' o r w ∈ τ) : k' ∈ s := by
  induction τ generalizing s with
  | nil => cases he
  | cons e τ ih =>
    cases e with
    | ended u k w => exact ih hs (by simpa using he)
    | did u k o' r' w' =>
      by_cases hut : u = t
      · subst hut
        obtain ⟨s₁, hs₁, -, rfl⟩ := at_did.mp hs
        rcases List.mem_cons.mp he with heq | he
        · cases heq
          exact List.mem_cons_self
        · exact List.mem_cons_of_mem _ (ih hs₁ he)
      · refine ih ((at_did_of_ne hut).mp hs) ((List.mem_cons.mp he).resolve_left fun heq => ?_)
        cases heq
        exact hut rfl

end Single

end Monitor

end Interleave
