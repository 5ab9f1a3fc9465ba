import GhaConsumer.Interleave.Local

/-!
# One machine carried out by another

A machine may know as one call what another machine carries out as a
program. `Carrier` says how the calls, the worlds and the tasks of the two
correspond: each call of the abstract machine is one call of the other
that does the same, or is silent, changing nothing the abstract machine
knows of. Then every run of the concrete machine is one of the abstract
machine, the silent calls taken when they are over (`Carrier.Sound.run`).
The history is the same but for the silent calls.
-/

namespace Interleave

variable {Op Op' : Type} {Resp : Op → Type} {Resp' : Op' → Type}
variable {Task Task' World World' : Type}

/-- The calls, worlds and tasks of an abstract machine in a concrete one. -/
structure Carrier (Resp : Op → Type) (Task World : Type) (Resp' : Op' → Type)
    (Task' World' : Type) where
  impl : (o : Op') → Prog Resp (Resp' o)
  view : World → World'
  /-- A task is one of the abstract machine's, or has nothing to do. -/
  task : Task → Option Task'
  code : Task' → Prog Resp' Unit
  /-- What a call shows as. -/
  shown : Event Resp → Option (Event Resp')
  silent : Op' → Bool

namespace Carrier

variable (K : Carrier Resp Task World Resp' Task' World')
variable (A : Machine Resp' Task' World') (C : Machine Resp Task World)

/-- A call nobody is told of. -/
def Quiet (o : Op) : Prop :=
  (∀ r, K.shown ⟨o, r⟩ = none) ∧
    ∀ {t q x r x'}, C.step t o q x = some (r, x') → K.view x' = K.view x

/-- The call is carried out by one call, which does the same. -/
def Atomic (o : Op') : Prop :=
  ∃ (c : Op) (h : Resp c → Resp' o), K.impl o = .call c (fun r => .ret (h r)) ∧
    (∀ r, K.shown ⟨c, r⟩ = some ⟨o, h r⟩) ∧
      ∀ {t q x r x'}, C.step t c q x = some (r, x') →
        ∃ q', A.step t o q' (K.view x) = some (h r, K.view x')

/-- The call may have any answer at any time, and is carried out quietly. -/
def Local (o : Op') : Prop :=
  (∀ t r w, ∃ q, A.step t o q w = some (r, w)) ∧ (K.impl o).Only (K.Quiet C)

/-- The body of a task. -/
def body (k' : Task') : Prog Resp' (Option Task') := K.code k' >>= fun _ => .ret none

/-- The concrete machine carries out the abstract one, and starts no
threads. -/
structure Sound : Prop where
  atomic : ∀ o, K.silent o = false → K.Atomic A C o
  silent : ∀ o, K.silent o = true → K.Local A C o
  body : ∀ {k k'}, K.task k = some k' → A.body k' = K.body k' ∧
    C.body k = (K.code k').lower K.impl >>= fun _ => .ret none
  idle : ∀ {k}, K.task k = none → C.body k = .ret none
  forks : ∀ {o r}, C.forks o r = none
  forks' : ∀ {o r}, A.forks o r = none
  env : ∀ {e x x'}, C.env e x = some x' → K.view x' = K.view x
  leave : ∀ t x, K.view (C.leave t x) = A.leave t (K.view x)
  crash : ∀ t x, C.crash t x = none
  /-- A thread with nothing to give back has nothing after what others do. -/
  stranger : ∀ {t u o q r w w'}, t ≠ u → A.step u o q w = some (r, w') →
    A.leave t w = w → A.leave t w' = w'
  stranger_leave : ∀ {t u w}, t ≠ u → A.leave t w = w → A.leave t (A.leave u w) = A.leave u w

/-- The line of the abstract history a line shows as. -/
def line : Entry Resp Task World → Option (Entry Resp' Task' World')
  | .did t k o r x => (K.task k).bind fun k' =>
    (K.shown ⟨o, r⟩).map fun e => .did t k' e.1 e.2 (K.view x)
  | .ended t k x => (K.task k).map fun k' => .ended t k' (K.view x)

/-- The line is of a call that is not silent, or an end. -/
def heard : Entry Resp' Task' World' → Bool
  | .did _ _ o _ _ => !K.silent o
  | .ended .. => true

/-- The concrete program is where the abstract one is: before a call, or
in the midst of a silent one. -/
inductive Matches : Prog Resp (Option Task) → Prog Resp' (Option Task') → Prop
  | before (p : Prog Resp' Unit) :
      Matches (p.lower K.impl >>= fun _ => .ret none) (p >>= fun _ => .ret none)
  | within {o : Op'} (s : Prog Resp (Resp' o)) (f : Resp' o → Prog Resp' Unit)
      (ho : K.silent o = true) (hs : s.Only (K.Quiet C)) :
      Matches ((s >>= fun r => (f r).lower K.impl) >>= fun _ => .ret none)
        (.call o f >>= fun _ => .ret none)

/-- What holds between a concrete pool and the abstract one. -/
structure Related (c : Config Resp Task World) (a : Config Resp' Task' World') : Prop where
  world : a.world = K.view c.world
  trace : a.trace.filter K.heard = c.trace.filterMap K.line
  idle : ∀ {t k p}, c.threads t = some (k, p) → K.task k = none →
    p = .ret none ∧ A.leave t a.world = a.world
  busy : ∀ {t k p k'}, c.threads t = some (k, p) → K.task k = some k' →
    ∃ p', a.threads t = some (k', p') ∧ K.Matches C p p'

/-- The thread is at a call that is to be made, or at its end. -/
inductive Ready : Prog Resp (Option Task) → Prog Resp' (Option Task') → Prop
  | finished : Ready (.ret none) (.ret none)
  | before {o : Op'} (f : Resp' o → Prog Resp' Unit) (ho : K.silent o = false) :
      Ready ((Prog.call o f).lower K.impl >>= fun _ => .ret none)
        (.call o f >>= fun _ => .ret none)
  | within {o : Op'} {c : Op} (g : Resp c → Prog Resp (Resp' o)) (f : Resp' o → Prog Resp' Unit)
      (ho : K.silent o = true) (hs : (Prog.call c g).Only (K.Quiet C)) :
      Ready ((.call c g >>= fun r => (f r).lower K.impl) >>= fun _ => .ret none)
        (.call o f >>= fun _ => .ret none)

variable {K A C}
variable {c c' c₀ : Config Resp Task World} {a a₀ : Config Resp' Task' World'}
variable {Meets : Shared Resp Task World → Entry Resp Task World → Prop}
variable {Meets' : Shared Resp' Task' World' → Entry Resp' Task' World' → Prop}
variable {t : Tid} {k : Task} {k' : Task'}

/-! ## Silent calls -/

/-- The abstract pool after a call. -/
def advance (a : Config Resp' Task' World') (t : Tid) (k' : Task') (o : Op') (r : Resp' o)
    (w : World') (p : Prog Resp' (Option Task')) : Config Resp' Task' World' where
  world := w
  next := a.next
  trace := .did t k' o r a.world :: a.trace
  threads := Function.update a.threads t (some (k', p))

/-- A call, where no thread is started. -/
theorem step_advance (hK : K.Sound A C) {o : Op'} {f : Resp' o → Prog Resp' (Option Task')}
    {q : A.Oracle o} {r : Resp' o} {w : World'} (hat : a.threads t = some (k', .call o f))
    (hq : A.step t o q a.world = some (r, w)) :
    A.Step a (some (.did t k' o r a.world)) (advance a t k' o r w (f r)) := by
  have hstep := Machine.Step.call hat hq fun u k hf => by rw [hK.forks'] at hf; cases hf
  simp only [Shared.called, Machine.threadsCalled, hK.forks'] at hstep
  exact hstep

variable (K A Meets') in
/-- The abstract pool has caught up: only silent calls have been taken, all
of them of one thread, which is here now. -/
structure CaughtUp (t : Tid) (k' : Task') (p : Prog Resp' (Option Task'))
    (a a₁ : Config Resp' Task' World') : Prop where
  run : A.Run Meets' a a₁
  world : a₁.world = a.world
  trace : a₁.trace.filter K.heard = a.trace.filter K.heard
  threads : a₁.threads = Function.update a.threads t (some (k', p))

/-- One silent call first. -/
theorem CaughtUp.silently (hK : K.Sound A C)
    (hsilent : ∀ s x, K.heard x = false → Meets' s x) {o : Op'} (ho : K.silent o = true)
    {f : Resp' o → Prog Resp' (Option Task')} {r : Resp' o} {p : Prog Resp' (Option Task')}
    {a₁ : Config Resp' Task' World'} (hat : a.threads t = some (k', .call o f))
    (h : CaughtUp K A Meets' t k' p (advance a t k' o r a.world (f r)) a₁) :
    CaughtUp K A Meets' t k' p a a₁ := by
  obtain ⟨q, hq⟩ := (hK.silent o ho).1 t r a.world
  have hheard : K.heard (.did t k' o r a.world) = false := by rw [heard, ho]; rfl
  refine ⟨(Machine.Run.start.step (step_advance hK hat hq) fun x hx => ?_).trans h.run,
    h.world, ?_, ?_⟩
  · cases hx
    exact hsilent _ _ hheard
  · rw [h.trace, advance, List.filter_cons_of_neg (by rw [hheard]; exact Bool.false_ne_true)]
  · rw [h.threads]
    exact Function.update_idem ..

theorem CaughtUp.refl {p : Prog Resp' (Option Task')} (hat : a.threads t = some (k', p)) :
    CaughtUp K A Meets' t k' p a a :=
  ⟨.start, rfl, rfl, by rw [← hat, Function.update_eq_self]⟩

/-- Before a call, the thread is made ready by the silent calls that are
carried out by nothing. -/
theorem ready_of_before (hK : K.Sound A C) (hsilent : ∀ s x, K.heard x = false → Meets' s x)
    (p : Prog Resp' Unit) (hat : a.threads t = some (k', p >>= fun _ => .ret none)) :
    ∃ p' a₁, CaughtUp K A Meets' t k' p' a a₁ ∧
      K.Ready C (p.lower K.impl >>= fun _ => .ret none) p' := by
  induction p generalizing a with
  | ret => exact ⟨_, a, .refl hat, .finished⟩
  | call o f ih =>
    cases ho : K.silent o with
    | false => exact ⟨_, a, .refl hat, .before f ho⟩
    | true =>
      have hquiet := (hK.silent o ho).2
      rw [Prog.lower_call]
      cases hs : K.impl o with
      | ret r =>
        -- the call is over as soon as it begins
        obtain ⟨p', a₁, hcaught, hready⟩ := ih r (a := advance a t k' o r a.world _)
          (Function.update_self ..)
        exact ⟨p', a₁, hcaught.silently hK hsilent ho hat, hready⟩
      | call d g =>
        rw [hs] at hquiet
        exact ⟨_, a, .refl hat, .within g f ho hquiet⟩

/-- A thread is made ready, where its program is matched. -/
theorem ready_of_matches (hK : K.Sound A C) (hsilent : ∀ s x, K.heard x = false → Meets' s x)
    {p : Prog Resp (Option Task)} {p' : Prog Resp' (Option Task')} (h : K.Matches C p p')
    (hat : a.threads t = some (k', p')) :
    ∃ p'' a₁, CaughtUp K A Meets' t k' p'' a a₁ ∧ K.Ready C p p'' := by
  cases h with
  | before p => exact ready_of_before hK hsilent p hat
  | within s f ho hs =>
    cases s with
    | ret r =>
      obtain ⟨p'', a₁, hcaught, hready⟩ := ready_of_before hK hsilent (f r)
        (a := advance a t k' _ r a.world _) (Function.update_self ..)
      exact ⟨p'', a₁, hcaught.silently hK hsilent ho hat, hready⟩
    | call d g => exact ⟨_, a, .refl hat, .within g f ho hs⟩

/-- Catching up keeps the pools related. -/
theorem Related.caughtUp (h : Related K A C c a) {p : Prog Resp (Option Task)}
    {p' : Prog Resp' (Option Task')} {a₁ : Config Resp' Task' World'}
    (hc : c.threads t = some (k, p)) (hk : K.task k = some k') (hm : K.Matches C p p')
    (hcaught : CaughtUp K A Meets' t k' p' a a₁) : Related K A C c a₁ := by
  refine ⟨hcaught.world.trans h.world, hcaught.trace.trans h.trace, fun hu hidle => ?_,
    fun {u l q l'} hu hl => ?_⟩
  · rw [hcaught.world]
    exact h.idle hu hidle
  · rw [hcaught.threads]
    by_cases hut : u = t
    · subst hut
      cases hc.symm.trans hu
      obtain rfl : k' = l' := Option.some.inj (hk.symm.trans hl)
      exact ⟨p', Function.update_self .., hm⟩
    · rw [Function.update_of_ne hut]
      exact h.busy hu hl

theorem Ready.matches {p : Prog Resp (Option Task)} {p' : Prog Resp' (Option Task')}
    (h : K.Ready C p p') : K.Matches C p p' := by
  cases h with
  | finished => exact .before (.ret ())
  | before f ho => exact .before (.call _ f)
  | within g f ho hs => exact .within (.call _ g) f ho hs

/-- A program that has returned has returned none, and the abstract one has
as well. -/
theorem Ready.returned (hK : K.Sound A C) {r : Option Task} {p' : Prog Resp' (Option Task')}
    (h : K.Ready C (.ret r) p') : r = none ∧ p' = .ret none := by
  generalize hp : Prog.ret r = p at h
  cases h with
  | finished =>
    cases hp
    exact ⟨rfl, rfl⟩
  | @before o f ho =>
    obtain ⟨d, g, himpl, -⟩ := hK.atomic o ho
    rw [Prog.lower_call, himpl] at hp
    cases hp
  | within => cases hp

/-! ## Runs -/

/-- One thread has moved, in both pools. -/
theorem Related.moved (h : Related K A C c a) {p : Prog Resp (Option Task)}
    {p' : Prog Resp' (Option Task')} {a' : Config Resp' Task' World'} (hk : K.task k = some k')
    (hworld : a'.world = K.view c'.world)
    (htrace : a'.trace.filter K.heard = c'.trace.filterMap K.line)
    (hthreads : c'.threads = Function.update c.threads t (some (k, p)))
    (hthreads' : a'.threads = Function.update a.threads t (some (k', p')))
    (hm : K.Matches C p p')
    (hstranger : ∀ u, u ≠ t → A.leave u a.world = a.world → A.leave u a'.world = a'.world) :
    Related K A C c' a' := by
  refine ⟨hworld, htrace, fun {u l q} hu hidle => ?_, fun {u l q l'} hu hl => ?_⟩
  · rw [hthreads] at hu
    by_cases hut : u = t
    · subst hut
      rw [Function.update_self] at hu
      cases hu
      rw [hk] at hidle
      cases hidle
    · rw [Function.update_of_ne hut] at hu
      obtain ⟨hret, hleave⟩ := h.idle hu hidle
      exact ⟨hret, hstranger u hut hleave⟩
  · rw [hthreads] at hu
    rw [hthreads']
    by_cases hut : u = t
    · subst hut
      rw [Function.update_self] at hu
      cases hu
      obtain rfl : k' = l' := Option.some.inj (hk.symm.trans hl)
      exact ⟨p', Function.update_self .., hm⟩
    · rw [Function.update_of_ne hut] at hu ⊢
      exact h.busy hu hl

/-- One thread has ended, in both pools or only here. -/
theorem Related.ended (h : Related K A C c a) {a' : Config Resp' Task' World'}
    (hworld : a'.world = K.view c'.world)
    (htrace : a'.trace.filter K.heard = c'.trace.filterMap K.line)
    (hthreads : c'.threads = Function.update c.threads t none)
    (hthreads' : ∀ u, u ≠ t → a'.threads u = a.threads u)
    (hstranger : ∀ u, u ≠ t → A.leave u a.world = a.world → A.leave u a'.world = a'.world) :
    Related K A C c' a' := by
  have hother : ∀ {u l q}, c'.threads u = some (l, q) → u ≠ t ∧ c.threads u = some (l, q) := by
    intro u l q hu
    rw [hthreads] at hu
    by_cases hut : u = t
    · subst hut
      rw [Function.update_self] at hu
      cases hu
    · rw [Function.update_of_ne hut] at hu
      exact ⟨hut, hu⟩
  refine ⟨hworld, htrace, fun hu hidle => ?_, fun hu hl => ?_⟩
  · obtain ⟨hut, hu⟩ := hother hu
    obtain ⟨hret, hleave⟩ := h.idle hu hidle
    exact ⟨hret, hstranger _ hut hleave⟩
  · obtain ⟨hut, hu⟩ := hother hu
    rw [hthreads' _ hut]
    exact h.busy hu hl

variable (K Meets Meets') in
/-- The condition of the abstract runs: it holds of silent calls, and of
what is heard where the other condition holds. -/
structure Asks : Prop where
  silent : ∀ s x, K.heard x = false → Meets' s x
  heard : ∀ s x s' x', s'.world = K.view s.world →
    s'.trace.filter K.heard = s.trace.filterMap K.line → Meets s x → K.line x = some x' →
      Meets' s' x'

/-- A call is made in both pools, or here alone. -/
theorem Related.call (hK : K.Sound A C) (hasks : K.Asks Meets Meets') (h : Related K A C c a)
    {o : Op} {f : Resp o → Prog Resp (Option Task)} {q : C.Oracle o} {r : Resp o} {x : World}
    (hat : c.threads t = some (k, .call o f)) (hq : C.step t o q c.world = some (r, x))
    (hm : Meets c.toShared (.did t k o r c.world)) (hworld : c'.world = x)
    (htrace : c'.trace = .did t k o r c.world :: c.trace)
    (hthreads : c'.threads = Function.update c.threads t (some (k, f r))) :
    ∃ a', A.Run Meets' a a' ∧ Related K A C c' a' := by
  cases hk : K.task k with
  | none =>
    obtain ⟨hret, -⟩ := h.idle hat hk
    cases hret
  | some k' =>
    obtain ⟨p', hat', hmatch⟩ := h.busy hat hk
    obtain ⟨p'', a₁, hcaught, hready⟩ := ready_of_matches hK hasks.silent hmatch hat'
    have h₁ := h.caughtUp hat hk hready.matches hcaught
    have hat₁ : a₁.threads t = some (k', p'') := by
      rw [hcaught.threads]
      exact Function.update_self ..
    generalize hp : Prog.call o f = p at hready
    -- the call is the abstract one's, made in both pools, or a part of one that is not over yet
    cases hready with
    | finished => cases hp
    | @before o' f' ho =>
      obtain ⟨d, g, himpl, hshown, hdoes⟩ := hK.atomic o' ho
      rw [Prog.lower_call, himpl] at hp
      cases hp
      obtain ⟨q', hq'⟩ := hdoes hq
      rw [← h₁.world] at hq'
      have hline : K.line (.did t k o r c.world) = some (.did t k' o' (g r) a₁.world) := by
        rw [line, hk, hshown, h₁.world]
        rfl
      have hheard : K.heard (.did t k' o' (g r) a₁.world) = true := by rw [heard, ho]; rfl
      refine ⟨advance a₁ t k' o' (g r) (K.view x) (f' (g r) >>= fun _ => .ret none),
        hcaught.run.step (step_advance hK hat₁ hq') fun y hy => ?_,
        h₁.moved hk ?_ ?_ hthreads rfl (.before (f' (g r))) fun u hut hleave =>
          hK.stranger hut hq' hleave⟩
      · cases hy
        exact hasks.heard _ _ _ _ h₁.world h₁.trace hm hline
      · rw [hworld]
        rfl
      · rw [htrace, advance, List.filter_cons_of_pos hheard, List.filterMap_cons_some hline,
          h₁.trace]
    | @within o' d g f' ho hs =>
      cases hp
      have hline : K.line (.did t k o r c.world) = none := by
        rw [line, hk, hs.1.1]
        rfl
      refine ⟨a₁, hcaught.run, h₁.moved hk ?_ ?_ hthreads ?_ (.within (g r) f' ho (hs.2 r))
        fun u hut hleave => hleave⟩
      · rw [hworld, hs.1.2 hq]
        exact h₁.world
      · rw [htrace, List.filterMap_cons_none hline]
        exact h₁.trace
      · rw [← hat₁, Function.update_eq_self]

/-- An end, in both pools or of a task that had nothing to do. -/
theorem Related.exit (hK : K.Sound A C) (hasks : K.Asks Meets Meets') (h : Related K A C c a)
    (hat : c.threads t = some (k, .ret none)) (hm : Meets c.toShared (.ended t k c.world))
    (hworld : c'.world = C.leave t c.world) (htrace : c'.trace = .ended t k c.world :: c.trace)
    (hthreads : c'.threads = Function.update c.threads t none) :
    ∃ a', A.Run Meets' a a' ∧ Related K A C c' a' := by
  cases hk : K.task k with
  | none =>
    obtain ⟨-, hleave⟩ := h.idle hat hk
    have hline : K.line (.ended t k c.world) = none := by rw [line, hk]; rfl
    refine ⟨a, .start, h.ended ?_ ?_ hthreads (fun _ _ => rfl) fun _ _ hu => hu⟩
    · rw [hworld, hK.leave, ← h.world, hleave]
    · rw [htrace, List.filterMap_cons_none hline]
      exact h.trace
  | some k' =>
    obtain ⟨p', hat', hmatch⟩ := h.busy hat hk
    obtain ⟨p'', a₁, hcaught, hready⟩ := ready_of_matches hK hasks.silent hmatch hat'
    have h₁ := h.caughtUp hat hk hready.matches hcaught
    obtain ⟨-, rfl⟩ := hready.returned hK
    have hat₁ : a₁.threads t = some (k', .ret none) := by
      rw [hcaught.threads]
      exact Function.update_self ..
    have hline : K.line (.ended t k c.world) = some (.ended t k' a₁.world) := by
      rw [line, hk, h₁.world]
      rfl
    refine ⟨_, hcaught.run.step (.exit hat₁) fun y hy => ?_, h₁.ended ?_ ?_ hthreads
      (fun u hut => Function.update_of_ne hut ..) fun u hut => hK.stranger_leave hut⟩
    · cases hy
      exact hasks.heard _ _ _ _ h₁.world h₁.trace hm hline
    · rw [hworld, hK.leave, ← h₁.world]
      rfl
    · rw [htrace, List.filterMap_cons_some hline, ← h₁.trace]
      exact List.filter_cons_of_pos rfl

/-- One step is a few of the abstract machine, or none. -/
theorem Related.step (hK : K.Sound A C) (hasks : K.Asks Meets Meets') (h : Related K A C c a)
    {e : Option (Entry Resp Task World)} (hs : C.Step c e c')
    (hm : ∀ x, e = some x → Meets c.toShared x) :
    ∃ a', A.Run Meets' a a' ∧ Related K A C c' a' := by
  cases hs with
  | call hat hq hnew =>
    refine h.call hK hasks hat hq (hm _ rfl) rfl rfl ?_
    simp only [Machine.threadsCalled, hK.forks]
  | @again t k l hat =>
    cases hk : K.task k with
    | none =>
      obtain ⟨hret, -⟩ := h.idle hat hk
      cases hret
    | some k' =>
      obtain ⟨p', hat', hmatch⟩ := h.busy hat hk
      obtain ⟨p'', a₁, -, hready⟩ := ready_of_matches hK hasks.silent hmatch hat'
      cases (hready.returned hK).1
  | exit hat => exact h.exit hK hasks hat (hm _ rfl) rfl rfl rfl
  | @crash t k p x hat hw =>
    rw [hK.crash] at hw
    cases hw
  | env hw =>
    exact ⟨a, .start, h.world.trans (hK.env hw).symm, h.trace, h.idle, h.busy⟩

/-- **Every run is one of the abstract machine**, with the same history but
for the silent calls. -/
theorem Sound.run (hK : K.Sound A C) (hasks : K.Asks Meets Meets') (h₀ : Related K A C c₀ a₀)
    (hr : C.Run Meets c₀ c) : ∃ a, A.Run Meets' a₀ a ∧ Related K A C c a := by
  induction hr with
  | start => exact ⟨a₀, .start, h₀⟩
  | step _ hs hm ih =>
    obtain ⟨a, ha, hrelated⟩ := ih
    obtain ⟨a', ha', hrelated'⟩ := hrelated.step hK hasks hs hm
    exact ⟨a', ha.trans ha', hrelated'⟩

variable (K A) in
/-- The abstract pool a concrete one starts as. -/
def start (c : Config Resp Task World) : Config Resp' Task' World' where
  world := K.view c.world
  next := c.next
  trace := []
  threads t := (c.threads t).bind fun kp => (K.task kp.1).map fun k' => (k', A.body k')

/-- Pools at their start are related. -/
theorem Sound.start (hK : K.Sound A C) (htrace : c₀.trace = [])
    (hfresh : ∀ t k p, c₀.threads t = some (k, p) → p = C.body k)
    (hleave : ∀ t, A.leave t (K.view c₀.world) = K.view c₀.world) :
    Related K A C c₀ (K.start A c₀) := by
  refine ⟨rfl, by rw [htrace]; rfl, fun {t k p} ht hk => ⟨?_, hleave t⟩,
    fun {t k p k'} ht hk => ⟨A.body k', ?_, ?_⟩⟩
  · rw [hfresh t k p ht, hK.idle hk]
  · simp only [Carrier.start, ht, Option.bind_some, hk, Option.map_some]
  · rw [hfresh t k p ht, (hK.body hk).1, (hK.body hk).2]
    exact .before (K.code k')

/-! ## Histories -/

/-- What is heard of a thread in the abstract history is what shows of it
in the concrete one. -/
theorem Related.heard_iff (h : Related K A C c a) {e : Event Resp'} (he : K.silent e.1 = false) :
    e ∈ Entry.own t a.trace ↔ ∃ k k' o r x, .did t k o r x ∈ c.trace ∧ K.task k = some k' ∧
      K.shown ⟨o, r⟩ = some e := by
  obtain ⟨o', r'⟩ := e
  constructor
  · intro hmem
    obtain ⟨k', w, σ, hsuf⟩ := Entry.exists_of_own hmem
    have hheard : .did t k' o' r' w ∈ a.trace.filter K.heard :=
      List.mem_filter.mpr ⟨hsuf.subset List.mem_cons_self, by rw [heard, he]; rfl⟩
    rw [h.trace] at hheard
    obtain ⟨y, hy, hline⟩ := List.mem_filterMap.mp hheard
    cases y with
    | ended u k x =>
      obtain ⟨l, -, heq⟩ := Option.map_eq_some_iff.mp hline
      cases heq
    | did u k o r x =>
      obtain ⟨l, hk, hline⟩ := Option.bind_eq_some_iff.mp hline
      obtain ⟨⟨o₁, r₁⟩, hshown, heq⟩ := Option.map_eq_some_iff.mp hline
      cases heq
      exact ⟨k, k', o, r, x, hy, hk, hshown⟩
  · rintro ⟨k, k', o, r, x, hmem, hk, hshown⟩
    have hline : K.line (.did t k o r x) = some (.did t k' o' r' (K.view x)) := by
      rw [line, hk, hshown]
      rfl
    have hheard := List.mem_filterMap.mpr ⟨_, hmem, hline⟩
    rw [← h.trace] at hheard
    exact Entry.mem_own (List.mem_filter.mp hheard).1

end Carrier

end Interleave
