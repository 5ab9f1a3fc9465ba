import GhaConsumer.Warmer.Model
import GhaConsumer.Interleave.Local

/-!
# Warmer — one warm per tip and period

A mark is known again by its instant alone. That this is enough rests on
what stands in the map: a mark that is replaced was cleared by its owner
or is at least `ttl` older than the next one, so a task that still has
its clear before it finds its own mark there, or none with its instant
(`Marks`). From this come the guarantees of the coalescer over every run
(`coalescing`).
-/

namespace GhaConsumer

namespace Warmer

open Interleave Trace Entry

abbrev Line := Entry Resp WarmCandidate World

abbrev Own := History Resp

/-! ## A task by itself -/

/-- The task has not tried to mark. -/
def Unmarked (τ : Own) : Prop := ∀ key now r, ⟨.checkAndMark key now, r⟩ ∉ τ

/-- The task has not cleared. -/
def Uncleared (τ : Own) : Prop := ∀ key marked, ⟨.clear key marked, ()⟩ ∉ τ

/-- The task has a permit, and the job is the tip of the default branch. -/
def Confirmed (cand : WarmCandidate) (τ : Own) : Prop :=
  ⟨.tryAcquire, true⟩ ∈ τ ∧ ⟨.defaultBranch cand.owner cand.repo, .ok cand.headBranch⟩ ∈ τ ∧
    ∃ tip, ⟨.branchTip cand.owner cand.repo cand.headBranch, .ok tip⟩ ∈ τ ∧
      eqIgnoreAsciiCase tip cand.headSha = true

/-- A task marks once, and only what it has confirmed; it clears once,
and only what it has marked. -/
def Good (cand : WarmCandidate) (τ : Own) : Event Resp → Prop
  | ⟨.checkAndMark key _, _⟩ => key = cand.coalesceKey ∧ Confirmed cand τ ∧ Unmarked τ
  | ⟨.clear key marked, _⟩ => ⟨.checkAndMark key marked, true⟩ ∈ τ ∧ Uncleared τ
  | _ => True

/-- The task has neither marked nor cleared. -/
def Quiet (τ : Own) : Prop := Unmarked τ ∧ Uncleared τ

variable {cand : WarmCandidate} {τ : Own} {t : Tid} {key : CoalesceKey}

theorem Quiet.nil : Quiet [] := ⟨fun _ _ _ h => (by cases h), fun _ _ h => (by cases h)⟩

/-- Any other call leaves it at that. -/
theorem Quiet.cons {e : Event Resp} (h : Quiet τ) (hmark : ∀ key now r, ⟨.checkAndMark key now, r⟩ ≠ e)
    (hclear : ∀ key marked, ⟨.clear key marked, ()⟩ ≠ e) : Quiet (e :: τ) := by
  refine ⟨fun key now r hmem => ?_, fun key marked hmem => ?_⟩
  · rcases List.mem_cons.mp hmem with heq | hmem
    · exact hmark key now r heq
    · exact h.1 key now r hmem
  · rcases List.mem_cons.mp hmem with heq | hmem
    · exact hclear key marked heq
    · exact h.2 key marked hmem

theorem warmOnce_triple (defaultBranch : String) :
    Triple (Good cand) (fun τ => Confirmed cand τ ∧ Quiet τ) (warmOnce cand defaultBranch)
      fun _ _ => True := by
  refine .step (B := fun _ τ => Confirmed cand τ ∧ Quiet τ) (fun τ r h => ⟨trivial, ?_⟩)
    fun marked => ?_
  · obtain ⟨⟨hpermit, hbranch, tip, htip, heq⟩, hquiet⟩ := h
    exact ⟨⟨List.mem_cons_of_mem _ hpermit, List.mem_cons_of_mem _ hbranch, tip,
      List.mem_cons_of_mem _ htip, heq⟩,
      hquiet.cons (fun _ _ _ h => by cases h) fun _ _ h => by cases h⟩
  refine .step (B := fun r τ => ⟨.checkAndMark cand.coalesceKey marked, r⟩ ∈ τ ∧ Uncleared τ)
    (fun τ r h => ⟨⟨rfl, h.1, h.2.1⟩, List.mem_cons_self, fun key m hmem => ?_⟩) fun fresh => ?_
  · rcases List.mem_cons.mp hmem with heq | hmem
    · cases heq
    · exact h.2.2 key m hmem
  cases fresh with
  | false => exact Triple.ret fun _ _ => trivial
  | true =>
    refine .step (B := fun _ τ => ⟨.checkAndMark cand.coalesceKey marked, true⟩ ∈ τ ∧ Uncleared τ)
      (fun τ r h => ⟨trivial, List.mem_cons_of_mem _ h.1, fun key m hmem => ?_⟩) fun warmed => ?_
    · rcases List.mem_cons.mp hmem with heq | hmem
      · cases heq
      · exact h.2 key m hmem
    cases warmed with
    | true => exact Triple.ret fun _ _ => trivial
    | false => exact Triple.op fun τ _ h => ⟨h, trivial⟩

theorem confirm_triple :
    Triple (Good cand) (fun τ => ⟨.tryAcquire, true⟩ ∈ τ ∧ Quiet τ) (confirm cand)
      fun r τ => r.isSome = true → Confirmed cand τ ∧ Quiet τ := by
  refine .step (B := fun r τ => ⟨.defaultBranch cand.owner cand.repo, r⟩ ∈ τ ∧
      ⟨.tryAcquire, true⟩ ∈ τ ∧ Quiet τ)
    (fun τ r h => ⟨trivial, List.mem_cons_self, List.mem_cons_of_mem _ h.1,
      h.2.cons (fun _ _ _ h => by cases h) fun _ _ h => by cases h⟩) fun r => ?_
  cases r with
  | error e => exact Triple.ret fun _ _ h => by cases h
  | ok defaultBranch =>
    by_cases hbranch : cand.headBranch ≠ defaultBranch
    · simp only [if_pos hbranch]
      exact Triple.ret fun _ _ h => by cases h
    · simp only [if_neg hbranch]
      obtain rfl := not_not.mp hbranch
      refine .step (B := fun r τ => ⟨.branchTip cand.owner cand.repo cand.headBranch, r⟩ ∈ τ ∧
          ⟨.defaultBranch cand.owner cand.repo, .ok cand.headBranch⟩ ∈ τ ∧
          ⟨.tryAcquire, true⟩ ∈ τ ∧ Quiet τ)
        (fun τ r h => ⟨trivial, List.mem_cons_self, List.mem_cons_of_mem _ h.1,
          List.mem_cons_of_mem _ h.2.1,
          h.2.2.cons (fun _ _ _ h => by cases h) fun _ _ h => by cases h⟩) fun r => ?_
      cases r with
      | error e => exact Triple.ret fun _ _ h => by cases h
      | ok tip =>
        by_cases htip : eqIgnoreAsciiCase tip cand.headSha = true
        · simp only [if_pos htip]
          exact Triple.ret fun _ h _ => ⟨⟨h.2.2.1, h.2.1, tip, h.1, htip⟩, h.2.2.2⟩
        · simp only [if_neg htip]
          exact Triple.ret fun _ _ h => by cases h

theorem runCandidate_triple :
    Triple (Good cand) (fun τ => τ = []) (runCandidate cand) fun _ _ => True := by
  refine .step (B := fun r τ => r = true → ⟨.tryAcquire, true⟩ ∈ τ ∧ Quiet τ)
    (fun τ r h => ⟨trivial, ?_⟩) fun permit => ?_
  · subst h
    rintro rfl
    exact ⟨List.mem_cons_self,
      Quiet.nil.cons (fun _ _ _ h => by cases h) fun _ _ h => by cases h⟩
  cases permit with
  | false => exact Triple.ret fun _ _ => trivial
  | true =>
    refine ((confirm_triple).pre fun τ h => h rfl).bind fun r => ?_
    cases r with
    | none => exact Triple.ret fun _ _ => trivial
    | some defaultBranch => exact (warmOnce_triple defaultBranch).pre fun τ h => h rfl

variable {ttl : Duration} {capacity : ℕ}

variable (ttl capacity) in
/-- The tasks' habits. -/
@[reducible] def habits : Habits (machine ttl capacity) where
  good _ := Good
  pre _ _ τ := τ = []

theorem sound_habits : (habits ttl capacity).Sound :=
  ⟨fun _ _ => runCandidate_triple.bind fun _ => Triple.ret fun _ _ => trivial, fun h => by cases h⟩

/-! ## Lines about a mark -/

/-- The clock reading of a `check_and_mark`. -/
def reading : Line → Option Instant
  | .did _ _ (.checkAndMark _ now) _ _ => some now
  | _ => none

/-- Who marks the key with this line, and when. -/
def marks (key : CoalesceKey) : Line → Option (Tid × Instant)
  | .did t _ (.checkAndMark k now) r _ => if r = true ∧ k = key then some (t, now) else none
  | _ => none

/-- The line is a clear of the key that finds its mark. -/
def clears (key : CoalesceKey) : Line → Bool
  | .did _ _ (.clear k marked) _ w => k = key && w.seen key = some marked
  | _ => false

/-- The latest mark of the key. -/
def lastMark (key : CoalesceKey) (τ : List Line) : Option (Tid × Instant) := τ.findSome? (marks key)

/-- The marks of the key since it was last cleared, the latest first. -/
def standing (key : CoalesceKey) : List Line → List (Tid × Instant)
  | [] => []
  | e :: τ =>
    match marks key e with
    | some m => m :: standing key τ
    | none => if clears key e then [] else standing key τ

/-- **The assumption**: the tasks take the lock in the order of their
clock readings. -/
def InOrder (s : Shared Resp WarmCandidate World) (x : Line) : Prop :=
  ∀ now ∈ reading x, ∀ e ∈ s.trace, ∀ i ∈ reading e, i ≤ now

instance (s : Shared Resp WarmCandidate World) (x : Line) : Decidable (InOrder s x) :=
  inferInstanceAs (Decidable (∀ now ∈ reading x, ∀ e ∈ s.trace, ∀ i ∈ reading e, i ≤ now))

/-- The clock has been seen at or after `i`. -/
def Reached (i : Instant) (τ : List Line) : Prop := ∃ e ∈ τ, ∃ now, reading e = some now ∧ i ≤ now

variable {e : Line} {σ σ' : List Line} {i : Instant} {m : Tid × Instant}

theorem Reached.cons (h : Reached i σ) : Reached i (e :: σ) := by
  obtain ⟨x, hx, h⟩ := h
  exact ⟨x, List.mem_cons_of_mem _ hx, h⟩

theorem reading_of_marks (h : marks key e = some m) : reading e = some m.2 := by
  unfold marks at h
  split at h
  · split at h
    · cases h
      rfl
    · cases h
  · cases h

theorem reached_of_lastMark (h : lastMark key σ = some m) : Reached m.2 σ := by
  obtain ⟨x, hx, hm⟩ := List.exists_of_findSome?_eq_some h
  exact ⟨x, hx, m.2, reading_of_marks hm, Nat.le_refl _⟩

/-- What stands is headed by the latest mark. -/
theorem lastMark_of_standing (h : (standing key σ).head? = some m) : lastMark key σ = some m := by
  induction σ with
  | nil => cases h
  | cons x σ ih =>
    unfold standing at h
    unfold lastMark at ih ⊢
    rw [List.findSome?_cons]
    split at h
    · rename_i m' hm
      rw [hm]
      exact h
    · rename_i hm
      rw [hm]
      split at h
      · cases h
      · exact ih h

/-- A mark stands while nothing clears it. -/
theorem mem_standing (h : m ∈ standing key σ) (hclear : ∀ x ∈ σ', clears key x = false) :
    m ∈ standing key (σ' ++ σ) := by
  induction σ' with
  | nil => exact h
  | cons x σ' ih =>
    have hrest := ih fun y hy => hclear y (List.mem_cons_of_mem _ hy)
    rw [List.cons_append, standing]
    split
    · exact List.mem_cons_of_mem _ hrest
    · rw [hclear x List.mem_cons_self]
      exact hrest

/-! ## The invariant -/

/-- What stands in the map, and why, for one key. -/
structure Marks (ttl : Duration) (key : CoalesceKey) (seen : Option Instant) (τ : List Line) :
    Prop where
  /-- Marks that stand are `ttl` apart. -/
  chain : (standing key τ).Pairwise fun later earlier => earlier.2 + ttl ≤ later.2
  /-- What the map holds is the latest mark that stands. -/
  held : ∀ i, seen = some i → ∃ t, (standing key τ).head? = some (t, i)
  /-- A mark that stands is in the map, or `ttl` is over. -/
  kept : ∀ m, (standing key τ).head? = some m → seen = some m.2 ∨ Reached (m.2 + ttl) τ
  /-- A mark that does not stand was cleared by its owner. -/
  gone : ∀ m, lastMark key τ = some m → standing key τ = [] → ¬ Uncleared (own m.1 τ)
  /-- A task that has not cleared yet has the latest mark, or the latest
  is `ttl` younger. -/
  pending : ∀ t i, ⟨.checkAndMark key i, true⟩ ∈ own t τ → Uncleared (own t τ) →
    ∃ m, lastMark key τ = some m ∧ (m = (t, i) ∨ i + ttl ≤ m.2)

theorem Marks.nil : Marks ttl key none [] where
  chain := List.Pairwise.nil
  held _ h := by cases h
  kept _ h := by cases h
  gone _ h := by cases h
  pending _ _ h := by cases h

/-- Whoever still has a clear before it clears the latest mark, which is
its own. -/
theorem Marks.own_of_clear {seen : Option Instant} (h : Marks ttl key seen σ) (httl : 0 < ttl)
    (hmark : ⟨.checkAndMark key i, true⟩ ∈ own t σ) (hun : Uncleared (own t σ))
    (hseen : seen = some i) : lastMark key σ = some (t, i) := by
  obtain ⟨u, hhead⟩ := h.held i hseen
  have hlast := lastMark_of_standing hhead
  obtain ⟨m, hm, rfl | hlate⟩ := h.pending t i hmark hun
  · exact hm
  · -- a later mark would have another instant
    obtain rfl : (u, i) = m := Option.some.inj (hlast.symm.trans hm)
    exact absurd hlate (Nat.not_le.mpr (Nat.lt_add_of_pos_right httl))

/-- A thread's calls, with one line more. -/
theorem own_cons (t : Tid) (e : Line) (σ : List Line) :
    own t (e :: σ) = own t σ ∨
      ∃ k o r w, e = .did t k o r w ∧ own t (e :: σ) = ⟨o, r⟩ :: own t σ := by
  cases e with
  | ended u k w => exact .inl rfl
  | did u k o r w =>
    by_cases hu : u = t
    · subst hu
      exact .inr ⟨k, o, r, w, rfl, own_did⟩
    · exact .inl (own_did_of_ne hu)

theorem uncleared_of_cons (h : Uncleared (own t (e :: σ))) : Uncleared (own t σ) := by
  intro k m hmem
  rcases own_cons t e σ with heq | ⟨_, _, _, _, -, heq⟩
  · exact h k m (heq ▸ hmem)
  · exact h k m (heq ▸ List.mem_cons_of_mem _ hmem)

theorem marked_of_cons (hmarks : marks key e = none)
    (h : ⟨.checkAndMark key i, true⟩ ∈ own t (e :: σ)) : ⟨.checkAndMark key i, true⟩ ∈ own t σ := by
  rcases own_cons t e σ with heq | ⟨k, o, r, w, rfl, heq⟩
  · exact heq ▸ h
  · rw [heq] at h
    rcases List.mem_cons.mp h with hev | h
    · cases hev
      simp [marks] at hmarks
    · exact h

/-- A line that neither marks nor clears the key, and at most loses what
has expired. -/
theorem Marks.skip {seen seen' : Option Instant} (h : Marks ttl key seen σ)
    (hmarks : marks key e = none) (hclears : clears key e = false)
    (hseen : seen' = seen ∨ seen' = none ∧ ∀ i, seen = some i → Reached (i + ttl) (e :: σ)) :
    Marks ttl key seen' (e :: σ) := by
  have hstand : standing key (e :: σ) = standing key σ := by
    rw [standing, hmarks, hclears]
    rfl
  have hlast : lastMark key (e :: σ) = lastMark key σ := by
    unfold lastMark
    rw [List.findSome?_cons, hmarks]
  refine ⟨?_, fun i hi => ?_, fun m hm => ?_, fun m hm hnil hun => ?_, fun t i hmark hun => ?_⟩
  · rw [hstand]
    exact h.chain
  · rw [hstand]
    rcases hseen with rfl | ⟨rfl, -⟩
    · exact h.held i hi
    · cases hi
  · rw [hstand] at hm
    rcases h.kept m hm with hin | hout
    · rcases hseen with rfl | ⟨rfl, hexp⟩
      · exact .inl hin
      · exact .inr (hexp m.2 hin)
    · exact .inr hout.cons
  · rw [hstand] at hnil
    rw [hlast] at hm
    exact h.gone m hm hnil (uncleared_of_cons hun)
  · rw [hlast]
    exact h.pending t i (marked_of_cons hmarks hmark) (uncleared_of_cons hun)

/-- Where a key is marked, whatever stood before is `ttl` over. -/
theorem Marks.mark {seen : Option Instant} (h : Marks ttl key seen σ) {k : WarmCandidate}
    {now : Instant} {w : World} (hexp : ∀ i, seen = some i → i + ttl ≤ now)
    (horder : ∀ i, Reached i σ → i ≤ now) (hun : Unmarked (own t σ)) :
    Marks ttl key (some now) (.did t k (.checkAndMark key now) true w :: σ) := by
  have hmarks : marks key (.did t k (.checkAndMark key now) true w : Line) = some (t, now) :=
    if_pos ⟨rfl, rfl⟩
  have hstand : standing key (.did t k (.checkAndMark key now) true w :: σ) =
      (t, now) :: standing key σ := by
    rw [standing, hmarks]
  have hlast : lastMark key (.did t k (.checkAndMark key now) true w :: σ) = some (t, now) :=
    lastMark_of_standing (by rw [hstand]; rfl)
  have hover : ∀ m, (standing key σ).head? = some m → m.2 + ttl ≤ now := by
    intro m hm
    rcases h.kept m hm with hin | hout
    · exact hexp m.2 hin
    · exact horder _ hout
  refine ⟨?_, fun i hi => ?_, fun m hm => ?_, fun m _ hnil => ?_, fun u i hmark hclear => ?_⟩
  · rw [hstand, List.pairwise_cons]
    refine ⟨fun m hm => ?_, h.chain⟩
    have hchain := h.chain
    cases hs : standing key σ with
    | nil =>
      rw [hs] at hm
      cases hm
    | cons m₀ ms =>
      have hfirst : m₀.2 + ttl ≤ now := hover m₀ (by rw [hs]; rfl)
      rw [hs] at hm hchain
      rcases List.mem_cons.mp hm with rfl | hm
      · exact hfirst
      · have hprev : m.2 + ttl ≤ m₀.2 := (List.pairwise_cons.mp hchain).1 m hm
        exact hprev.trans ((Nat.le_add_right _ _).trans hfirst)
  · cases hi
    exact ⟨t, by rw [hstand]; rfl⟩
  · rw [hstand] at hm
    cases hm
    exact .inl rfl
  · rw [hstand] at hnil
    cases hnil
  · refine ⟨(t, now), hlast, ?_⟩
    by_cases hu : t = u
    · -- its only mark is this one
      subst hu
      rw [own_did] at hmark
      rcases List.mem_cons.mp hmark with hev | hmark
      · cases hev
        exact .inl rfl
      · exact absurd hmark (hun key i true)
    · rw [own_did_of_ne hu] at hmark
      have hclear' := uncleared_of_cons hclear
      obtain ⟨m, hm, hor⟩ := h.pending u i hmark hclear'
      right
      rcases hor with rfl | hlate
      · cases hs : standing key σ with
        | nil => exact absurd hclear' (h.gone (u, i) hm hs)
        | cons m₀ ms =>
          have hhead : (standing key σ).head? = some m₀ := by rw [hs]; rfl
          obtain rfl : (u, i) = m₀ := Option.some.inj (hm.symm.trans (lastMark_of_standing hhead))
          exact hover (u, i) hhead
      · exact hlate.trans (horder _ (reached_of_lastMark hm))

/-- Where a clear finds its mark, nothing stands any more. -/
theorem Marks.clear {seen : Option Instant} (h : Marks ttl key seen σ) (httl : 0 < ttl)
    {k : WarmCandidate} {w : World} (hmark : ⟨.checkAndMark key i, true⟩ ∈ own t σ)
    (hun : Uncleared (own t σ)) (hseen : seen = some i) (hw : w.seen key = some i) :
    Marks ttl key none (.did t k (.clear key i) () w :: σ) := by
  have hmarks : marks key (.did t k (.clear key i) () w : Line) = none := rfl
  have hclears : clears key (.did t k (.clear key i) () w : Line) = true := by
    simp [clears, hw]
  have hstand : standing key (.did t k (.clear key i) () w :: σ) = [] := by
    rw [standing, hmarks, hclears]
    rfl
  have hlast : lastMark key (.did t k (.clear key i) () w :: σ) = some (t, i) :=
    h.own_of_clear httl hmark hun hseen
  refine ⟨?_, fun _ h => (by cases h), fun m hm => ?_, fun m hm _ hcl => ?_, fun u i' hmk hcl => ?_⟩
  · rw [hstand]
    exact List.Pairwise.nil
  · rw [hstand] at hm
    cases hm
  · obtain rfl : (t, i) = m := Option.some.inj (hlast.symm.trans hm)
    exact hcl key i (by rw [own_did]; exact List.mem_cons_self)
  · exact h.pending u i' (marked_of_cons hmarks hmk) (uncleared_of_cons hcl)

/-! ## What a call does to the map -/

/-- What a line does to the mark of a key. -/
inductive Moves (ttl : Duration) (key : CoalesceKey) (w w' : World) : Line → Prop
  | mark {t : Tid} {k : WarmCandidate} {now : Instant} (now_in : w'.seen key = some now)
      (expired : ∀ i, w.seen key = some i → i + ttl ≤ now) :
      Moves ttl key w w' (.did t k (.checkAndMark key now) true w)
  | clear {t : Tid} {k : WarmCandidate} {i : Instant} (found : w.seen key = some i)
      (now_out : w'.seen key = none) : Moves ttl key w w' (.did t k (.clear key i) () w)
  | skip {e : Line} (marks : marks key e = none) (clears : clears key e = false)
      (lost : w'.seen key = w.seen key ∨ w'.seen key = none ∧
        ∀ i, w.seen key = some i → ∃ now, reading e = some now ∧ i + ttl ≤ now) :
      Moves ttl key w w' e

/-- What `retain` drops has expired. -/
theorem retain_cases (httl : 0 < ttl) (seen : Seen) (key : CoalesceKey) (now : Instant) :
    seen.retain ttl now key = seen key ∧ (∀ i, seen key = some i → now - i < ttl) ∨
      seen.retain ttl now key = none ∧ ∀ i, seen key = some i → i + ttl ≤ now := by
  unfold Seen.retain
  cases hseen : seen key with
  | none => exact .inl ⟨rfl, fun _ h => by cases h⟩
  | some i =>
    by_cases hfresh : now - i < ttl
    · left
      refine ⟨by simp [hfresh], fun j hj => ?_⟩
      cases hj
      exact hfresh
    · right
      have hle : ttl ≤ now - i := Nat.le_of_not_lt hfresh
      refine ⟨by simp [hle], fun j hj => ?_⟩
      cases hj
      have hpos : 0 < now - i := Nat.lt_of_lt_of_le httl hle
      calc i + ttl ≤ i + (now - i) := Nat.add_le_add_left hle i
        _ = now := Nat.add_sub_cancel' (Nat.le_of_lt (Nat.lt_of_sub_pos hpos))

theorem moves_of_step (httl : 0 < ttl) {k : WarmCandidate} {o : Op} {q : Oracle o} {r : Resp o}
    {w w' : World} (h : step ttl capacity t o q w = some (r, w')) (key : CoalesceKey) :
    Moves ttl key w w' (.did t k o r w) := by
  cases o with
  | tryAcquire =>
    simp only [step] at h
    split at h
    · cases h
      exact .skip rfl rfl (.inl rfl)
    · cases h
      exact .skip rfl rfl (.inl rfl)
  | defaultBranch _ _ | branchTip _ _ _ | now | runWarm _ _ =>
    cases h
    exact .skip rfl rfl (.inl rfl)
  | clear key₀ marked =>
    cases h
    by_cases hfound : w.seen key₀ = some marked
    · by_cases hkey : key = key₀
      · subst hkey
        exact .clear hfound (by simp only [Seen.clear, if_pos hfound, Function.update_self])
      · refine .skip rfl (by simp [clears, Ne.symm hkey]) (.inl ?_)
        simp only [Seen.clear, if_pos hfound, Function.update_of_ne hkey]
    · refine .skip rfl ?_ (.inl (by simp only [Seen.clear, if_neg hfound]))
      by_cases hkey : key₀ = key
      · subst hkey
        simp [clears, hfound]
      · simp [clears, hkey]
  | checkAndMark key₀ now =>
    have h : some ((w.seen.checkAndMark ttl key₀ now).1,
        { w with seen := (w.seen.checkAndMark ttl key₀ now).2 }) = some (r, w') := h
    have hlost := retain_cases httl w.seen key now
    by_cases hheld : (w.seen.retain ttl now key₀).isSome = true
    · -- another mark of the key is fresh: only what has expired goes
      have hmark : w.seen.checkAndMark ttl key₀ now = (false, w.seen.retain ttl now) :=
        if_pos hheld
      rw [hmark] at h
      cases h
      refine .skip (by simp [marks]) rfl ?_
      rcases hlost with ⟨hsame, -⟩ | ⟨hnone, hexp⟩
      · exact .inl hsame
      · exact .inr ⟨hnone, fun i hi => ⟨now, rfl, hexp i hi⟩⟩
    · have hmark : w.seen.checkAndMark ttl key₀ now =
          (true, Function.update (w.seen.retain ttl now) key₀ (some now)) := if_neg hheld
      rw [hmark] at h
      cases h
      by_cases hkey : key = key₀
      · subst hkey
        refine .mark (Function.update_self ..) fun i hi => ?_
        rcases hlost with ⟨hsame, -⟩ | ⟨-, hexp⟩
        · rw [hsame, hi] at hheld
          exact absurd rfl hheld
        · exact hexp i hi
      · refine .skip (by simp [marks, Ne.symm hkey]) rfl ?_
        simp only [Function.update_of_ne hkey]
        rcases hlost with ⟨hsame, -⟩ | ⟨hnone, hexp⟩
        · exact .inl hsame
        · exact .inr ⟨hnone, fun i hi => ⟨now, rfl, hexp i hi⟩⟩

/-! ## Runs -/

abbrev Pool := Interleave.Config Resp WarmCandidate World

/-- Nothing has happened, nothing is marked, and every task is at its
start. -/
structure Start (c : Pool) : Prop where
  trace : c.trace = []
  seen : c.world.seen = fun _ => none
  fresh : ∀ t k p, c.threads t = some (k, p) → t < c.next ∧ p = runCandidate k >>= fun _ => pure none

variable {c₀ c c' : Pool}

variable (ttl) in
/-- What is known of the marks at every point of a run. -/
structure Holds (c : Pool) : Prop where
  marks : ∀ key, Marks ttl key (c.world.seen key) c.trace
  /-- Marks without a clear between them are `ttl` apart. -/
  apart : ∀ key τ, τ <:+ c.trace →
    (standing key τ).Pairwise fun later earlier => earlier.2 + ttl ≤ later.2
  /-- A clear that finds its mark finds the latest, its own. -/
  owns : ∀ t k key i r w τ, .did t k (.clear key i) r w :: τ <:+ c.trace → w.seen key = some i →
    lastMark key τ = some (t, i)

theorem Start.habits (h : Start c) : (habits ttl capacity).Start c :=
  ⟨h.trace, fun t k p ht => ⟨(h.fresh t k p ht).1, (h.fresh t k p ht).2, rfl⟩⟩

theorem Start.holds (h : Start c) : Holds ttl c := by
  have hnil : ∀ {α : Type} (x : α) (τ : List α), x :: τ <:+ [] → False := fun x τ hs => by
    cases List.eq_nil_of_suffix_nil hs
  refine ⟨fun key => ?_, fun key τ hs => ?_, fun t k key i r w τ hs => ?_⟩
  · rw [h.trace, h.seen]
    exact Marks.nil
  · rw [h.trace] at hs
    rw [List.eq_nil_of_suffix_nil hs]
    exact List.Pairwise.nil
  · rw [h.trace] at hs
    exact (hnil _ _ hs).elim

/-- A line keeps what is known of a key. -/
theorem Marks.step {w w' : World} (h : Marks ttl key (w.seen key) σ) (httl : 0 < ttl)
    (hmove : Moves ttl key w w' e) (horder : ∀ now, reading e = some now → ∀ i, Reached i σ → i ≤ now)
    (hgood : ∀ t k o r, e = .did t k o r w → Good k (own t σ) ⟨o, r⟩) :
    Marks ttl key (w'.seen key) (e :: σ) := by
  cases hmove with
  | @mark t k now hin hexp =>
    rw [hin]
    exact h.mark hexp (horder now rfl) (hgood t k _ _ rfl).2.2
  | @clear t k i hfound hout =>
    obtain ⟨hmark, hun⟩ := hgood t k _ _ rfl
    rw [hout]
    exact h.clear httl hmark hun hfound hfound
  | skip hmarks hclears hlost =>
    refine h.skip hmarks hclears (hlost.imp id fun ⟨hnone, hexp⟩ => ⟨hnone, fun i hi => ?_⟩)
    obtain ⟨now, hread, hle⟩ := hexp i hi
    exact ⟨e, List.mem_cons_self, now, hread, hle⟩

/-- A line more. -/
theorem Holds.line (h : Holds ttl c) (httl : 0 < ttl) {s : Shared Resp WarmCandidate World}
    {w' : World} (htrace : s.trace = e :: c.trace) (hworld : s.world = w')
    (hbefore : e.before = c.world)
    (hmove : ∀ key, Moves ttl key c.world w' e) (horder : InOrder c.toShared e)
    (hgood : ∀ t k o r, e = .did t k o r c.world → Good k (own t c.trace) ⟨o, r⟩)
    {threads : Tid → Option (WarmCandidate × Prog Resp (Option WarmCandidate))} :
    Holds ttl { toShared := s, threads := threads } := by
  have hreached : ∀ now, reading e = some now → ∀ i, Reached i c.trace → i ≤ now := by
    rintro now hnow i ⟨x, hx, j, hj, hij⟩
    exact hij.trans (horder now hnow x hx j hj)
  have hmarks : ∀ key, Marks ttl key (w'.seen key) (e :: c.trace) := fun key =>
    (h.marks key).step httl (hmove key) hreached hgood
  refine ⟨fun key => ?_, fun key τ hs => ?_, fun t k key i r w τ hs hw => ?_⟩
  · show Marks ttl key (s.world.seen key) s.trace
    rw [htrace, hworld]
    exact hmarks key
  · have hs : τ <:+ s.trace := hs
    rw [htrace] at hs
    rcases List.suffix_cons_iff.mp hs with rfl | hs
    · exact (hmarks key).chain
    · exact h.apart key τ hs
  · have hs : .did t k (.clear key i) r w :: τ <:+ s.trace := hs
    rw [htrace] at hs
    rcases List.suffix_cons_iff.mp hs with heq | hs
    · obtain ⟨he, rfl⟩ := List.cons.inj heq
      rw [← he] at hbefore
      obtain rfl : w = c.world := hbefore
      obtain ⟨hmark, hun⟩ := hgood t k _ r he.symm
      exact (h.marks key).own_of_clear httl hmark hun hw
    · exact h.owns t k key i r w τ hs hw

/-- One step keeps what is known. -/
theorem Holds.step (h : Holds ttl c) (httl : 0 < ttl) {x : Option Line}
    (hs : (machine ttl capacity).Step c x c') (horder : ∀ e, x = some e → InOrder c.toShared e)
    (hhabits : (habits ttl capacity).Holds c') : Holds ttl c' := by
  have hended : ∀ t k (w : World), w.seen = c.world.seen → ∀ threads,
      InOrder c.toShared (.ended t k c.world) →
      Holds ttl { toShared := c.toShared.ended t k w, threads := threads } := by
    intro t k w hseen threads hin
    refine h.line httl rfl rfl rfl (fun key => ?_) hin fun _ _ _ _ he => by cases he
    exact .skip rfl rfl (.inl (congrFun hseen key))
  cases hs with
  | @call t k o f q r w hat hq hnew =>
    refine h.line httl rfl rfl rfl (fun key => moves_of_step httl hq key) (horder _ rfl) ?_
    rintro t' k' o' r' he
    cases he
    exact hhabits.line t k o r c.world c.trace (List.suffix_refl _)
  | @again t k k' hat => exact ⟨h.marks, h.apart, h.owns⟩
  | @exit t k hat => exact hended t k (leave t c.world) rfl _ (horder _ rfl)
  | @crash t k p w hat hw =>
    cases hw
    exact hended t k (leave t c.world) rfl _ (horder _ rfl)
  | @env e w hw => cases e

/-- **At every point of every run** what is known of the marks holds. -/
theorem holds_of_run (httl : 0 < ttl) (h₀ : Start c₀)
    (hr : (machine ttl capacity).Run InOrder c₀ c) : Holds ttl c := by
  induction hr with
  | start => exact h₀.holds
  | step hr hs hm ih =>
    exact ih.step httl hs hm (sound_habits.run h₀.habits (hr.step hs hm))

/-- A task that never tries to mark leaves the map alone. -/
theorem seen_of_unmarked (h₀ : Start c₀) (hr : (machine ttl capacity).Run InOrder c₀ c)
    (hun : Unmarked (own t c.trace)) {k : WarmCandidate} {o : Op} {r : Resp o} {w w' : World}
    {q : Oracle o} (hline : .did t k o r w ∈ c.trace)
    (hq : step ttl capacity t o q w = some (r, w')) : w'.seen = w.seen := by
  obtain ⟨τ₁, τ₂, htrace⟩ := List.append_of_mem hline
  have hsuf : .did t k o r w :: τ₂ <:+ c.trace := ⟨τ₁, htrace.symm⟩
  have hgood := sound_habits.line h₀.habits hr hsuf
  have hmine : own t (.did t k o r w :: τ₂) <:+ own t c.trace := by
    rw [htrace, own_append]
    exact List.suffix_append _ _
  cases o with
  | tryAcquire =>
    simp only [step] at hq
    split at hq
    · cases hq
      rfl
    · cases hq
      rfl
  | defaultBranch _ _ | branchTip _ _ _ | now | runWarm _ _ =>
    cases hq
    rfl
  | checkAndMark key now =>
    rw [own_did] at hmine
    exact absurd (hmine.subset List.mem_cons_self) (hun key now r)
  | clear key marked =>
    rw [own_did] at hmine
    exact absurd (hmine.subset (List.mem_cons_of_mem _ hgood.1)) (hun key marked true)

/-! ## The guarantees -/

variable (ttl capacity) in
/-- What the coalescer guarantees of a history. -/
structure Coalesces (c : Pool) : Prop where
  /-- Two marks of a key, with no clear of it between them that found its
  mark, are `ttl` apart. -/
  apart : ∀ {t k t' k' key now now' w w' between τ},
    .did t k (.checkAndMark key now) true w ::
      (between ++ .did t' k' (.checkAndMark key now') true w' :: τ) <:+ c.trace →
    (∀ x ∈ between, clears key x = false) → now' + ttl ≤ now
  /-- A mark that a clear removes is the clearing task's own, and the
  latest of its key. -/
  owns : ∀ {t k key i r w w' τ q}, .did t k (.clear key i) r w :: τ <:+ c.trace →
    step ttl capacity t (.clear key i) q w = some (r, w') →
    ∀ key' i', w.seen key' = some i' → w'.seen key' ≠ some i' → lastMark key' τ = some (t, i')
  /-- A task marks only with a permit and a confirmed tip. -/
  confirmed : ∀ {t k key now r w τ}, .did t k (.checkAndMark key now) r w :: τ <:+ c.trace →
    Confirmed k (own t τ)
  /-- Up to that a task's calls, and its end, leave the map alone. -/
  unmarked : ∀ {t}, Unmarked (own t c.trace) →
    (∀ {k o r w w'} {q : Oracle o}, .did t k o r w ∈ c.trace →
      step ttl capacity t o q w = some (r, w') → w'.seen = w.seen) ∧
    ∀ w, (leave t w).seen = w.seen
  /-- After a `check_and_mark` no mark is `ttl` old. -/
  young : ∀ {t k key now r w w' q}, .did t k (.checkAndMark key now) r w ∈ c.trace →
    step ttl capacity t (.checkAndMark key now) q w = some (r, w') →
    ∀ key' i, w'.seen key' = some i → now - i < ttl

/-- What is left after a `check_and_mark` is young. -/
theorem young_of_checkAndMark (httl : 0 < ttl) {seen : Seen} {key₀ : CoalesceKey} {now : Instant}
    (h : (seen.checkAndMark ttl key₀ now).2 key = some i) : now - i < ttl := by
  have hretain : seen.retain ttl now key = some i → now - i < ttl := by
    intro h
    rcases retain_cases httl seen key now with ⟨hsame, hyoung⟩ | ⟨hnone, -⟩
    · exact hyoung i (hsame ▸ h)
    · rw [hnone] at h
      cases h
  unfold Seen.checkAndMark at h
  dsimp only at h
  split at h
  · exact hretain h
  · have h : Function.update (seen.retain ttl now) key₀ (some now) key = some i := h
    by_cases hkey : key = key₀
    · subst hkey
      rw [Function.update_self] at h
      cases h
      rw [Nat.sub_self]
      exact httl
    · rw [Function.update_of_ne hkey] at h
      exact hretain h

/-- **One warm per tip and period.** In every run of tasks for any
candidates, each of which takes the lock in the order of the clock: marks
of a key are `ttl` apart unless one was cleared between them; a clear
removes nothing but its own mark; a task that stops before marking leaves
the map as it is; and no mark outlives `ttl` past the next
`check_and_mark`. -/
theorem coalescing (httl : 0 < ttl) (h₀ : Start c₀)
    (hr : (machine ttl capacity).Run InOrder c₀ c) : Coalesces ttl capacity c := by
  have hholds := holds_of_run httl h₀ hr
  refine ⟨fun {t k t' k' key now now' w w' between τ} hsuf hclear => ?_,
    fun {t k key i r w w' τ q} hsuf hq key' i' hin hout => ?_, fun hsuf => ?_,
    fun hun => ⟨fun hline hq => seen_of_unmarked h₀ hr hun hline hq, fun _ => rfl⟩,
    fun hline hq key' i hin => ?_⟩
  · have hchain := hholds.apart key _ hsuf
    have hlater : standing key (.did t k (.checkAndMark key now) true w ::
        (between ++ .did t' k' (.checkAndMark key now') true w' :: τ)) =
        (t, now) :: standing key (between ++ .did t' k' (.checkAndMark key now') true w' :: τ) := by
      rw [standing, marks, if_pos ⟨rfl, rfl⟩]
    have hearlier : (t', now') ∈ standing key (.did t' k' (.checkAndMark key now') true w' :: τ) := by
      rw [standing, marks, if_pos ⟨rfl, rfl⟩]
      exact List.mem_cons_self
    rw [hlater] at hchain
    exact (List.pairwise_cons.mp hchain).1 (t', now') (mem_standing hearlier hclear)
  · cases hq
    by_cases hfound : w.seen key = some i
    · simp only [Seen.clear, if_pos hfound] at hout
      by_cases hkey : key' = key
      · subst hkey
        obtain rfl : i = i' := Option.some.inj (hfound.symm.trans hin)
        exact hholds.owns t k key' i _ w τ hsuf hfound
      · rw [Function.update_of_ne hkey] at hout
        exact absurd hin hout
    · simp only [Seen.clear, if_neg hfound] at hout
      exact absurd hin hout
  · exact (sound_habits.line h₀.habits hr hsuf).2.1
  · cases hq
    exact young_of_checkAndMark httl hin

/-- Two tasks for one tip, the second with nothing to do but wait. -/
def tip : WarmCandidate := ⟨"o", "r", 1, "main", "abc"⟩

def twoTasks : Pool where
  world := ⟨fun _ => none, []⟩
  next := 2
  trace := []
  threads t := if t < 2 then some (tip, runCandidate tip >>= fun _ => pure none) else none

theorem start_twoTasks : Start twoTasks := by
  refine ⟨rfl, rfl, fun t k p ht => ?_⟩
  by_cases hlt : t < 2
  · have ht : some (tip, runCandidate tip >>= fun _ => pure none) = some (k, p) :=
      (if_pos hlt).symm.trans ht
    cases ht
    exact ⟨hlt, rfl⟩
  · have ht : none = some (k, p) := (if_neg hlt).symm.trans ht
    cases ht

/-- The answers: the tip is confirmed, the clock reads `now`, and the warm
fails before any build. -/
def answers (now : Instant) : (o : Op) → Oracle o
  | .tryAcquire => ()
  | .defaultBranch .. => .ok "main"
  | .branchTip .. => .ok "ABC"
  | .now => now
  | .checkAndMark .. => ()
  | .runWarm .. => false
  | .clear .. => ()

/-- One task marks at 0 and is slow; the other marks at 10, when the first
mark has expired; then the first clears. -/
def slowClear : List (machine 10 2).Move :=
  List.replicate 5 (.call 0 (answers 0)) ++ List.replicate 5 (.call 1 (answers 10)) ++
    List.replicate 2 (.call 0 (answers 10))

/-- The slow task's clear leaves the newer mark. -/
theorem coalesces_twoTasks : ∃ c, (machine 10 2).Run InOrder twoTasks c ∧
    c.trace.length = 12 ∧ c.world.seen tip.coalesceKey = some 10 ∧ Coalesces 10 2 c := by
  have hrun : ((machine 10 2).follow (fun s x => decide (InOrder s x)) slowClear twoTasks).map
      (fun c => (c.trace.length, c.world.seen tip.coalesceKey)) = some (12, some 10) := by
    decide +kernel
  obtain ⟨c, hc, hview⟩ := Option.map_eq_some_iff.mp hrun
  obtain ⟨hlength, hseen⟩ := Prod.mk.inj hview
  have hin : (machine 10 2).Run InOrder twoTasks c :=
    (Machine.run_of_follow hc).mono fun _ _ h => of_decide_eq_true h
  exact ⟨c, hin, hlength, hseen, coalescing (by decide) start_twoTasks hin⟩

end Warmer

end GhaConsumer
