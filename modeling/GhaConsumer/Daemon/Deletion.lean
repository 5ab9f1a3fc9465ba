import GhaConsumer.Daemon.Lima
import GhaConsumer.Host.Sample
import GhaConsumer.Interleave.Alone

/-!
# Daemon — what `delete` proves

`Lima::delete` promises success only where the VM is gone. Its caller
archives a claim on the strength of it. But the listing that settles a
failed command is read row by row, and a row that cannot be read is left
out: where it is the VM's own, the VM that still stands counts as gone
(`deleteVm_sound_iff`).
-/

namespace GhaConsumer

namespace Lima

open Interleave Alone

variable {C : Codec} {name : String} {outcome : Outcome} {listing : Captured}
variable {r : Except String Unit}

/-! ## What is known -/

/-- Every row can be read, and none is the VM's. -/
structure ShowsGone (C : Codec) (name : String) (stdout : Files.Bytes) : Prop where
  readable : ∀ line ∈ splitLines stdout, (C.decodeInstance line).isSome
  absent : ∀ row ∈ parseListJson C stdout, row.name ≠ name

/-- A row cannot be read. -/
def Unreadable (C : Codec) (stdout : Files.Bytes) : Prop :=
  ∃ line ∈ splitLines stdout, C.decodeInstance line = none

/-- What `delete` should return, by how the command ended and what the
listing says. -/
structure Sound (C : Codec) (name : String) (outcome : Outcome) (listing : Captured)
    (r : Except String Unit) : Prop where
  /-- Success is shown by the command or by the listing. -/
  ok : r = .ok () → exitedOk outcome = true ∨
    ∃ status stdout stderr, listing = .ok (status, stdout, stderr) ∧ status.success = true ∧
      ShowsGone C name stdout
  /-- A listing that cannot be read shows nothing. -/
  error : exitedOk outcome = false → ∀ status stdout stderr,
    listing = .ok (status, stdout, stderr) → Unreadable C stdout → ∃ e, r = .error e

/-- The listing does not name the VM, but cannot all be read. -/
def Misread (C : Codec) (name : String) (listing : Captured) : Prop :=
  ∃ status stdout stderr, listing = .ok (status, stdout, stderr) ∧ status.success = true ∧
    Unreadable C stdout ∧ ∀ row ∈ parseListJson C stdout, row.name ≠ name

/-! ## What it returns -/

/-- The two commands are answered so. -/
def answering (outcome : Outcome) (listing : Captured) :
    (o : GhaConsumer.Op) → Unit → Option (GhaConsumer.Resp o × Unit)
  | .lima (.delete _), _ => some (outcome, ())
  | .lima .list, _ => some (listing, ())
  | _, _ => none

/-- What `instance_exists` returns, by the listing. -/
def existsIn (C : Codec) (name : String) : Captured → Except String Bool
  | .error e => .error s!"re-list to confirm delete of {name}: {e}"
  | .ok (status, stdout, stderr) =>
    if status.success then .ok ((parseListJson C stdout).any fun i => i.name == name)
    else
      let e := s!"limactl list exited {status.text}: {stderr}"
      .error s!"re-list to confirm delete of {name}: {e}"

/-- What `delete` returns, by the two answers. -/
def deleteResult (C : Codec) (name : String) (outcome : Outcome) (listing : Captured) :
    Except String Unit :=
  if exitedOk outcome then .ok ()
  else match existsIn C name listing with
    | .error e => .error e
    | .ok true => .error (survived name outcome)
    | .ok false => .ok ()

theorem run_instanceExists :
    run (answering outcome listing) (instanceExists C name) () =
      some (existsIn C name listing, ()) := by
  unfold existsIn
  rcases listing with e | ⟨status, stdout, stderr⟩
  · rfl
  · by_cases hs : status.success = true
    · simp [instanceExists, listInstances, run, Prog.op, answering, hs, List.any_map,
        Function.comp_def]
    · simp [instanceExists, listInstances, run, Prog.op, answering, hs]

/-- **What `delete` returns**: the listing is asked where the command did
not succeed, however it failed. -/
theorem run_deleteVm :
    run (answering outcome listing) (deleteVm C name) () =
      some (deleteResult C name outcome listing, ()) := by
  unfold deleteVm deleteResult
  rw [run_bind]
  show run _ (if exitedOk outcome = true then _ else _) () = _
  by_cases hok : exitedOk outcome = true
  · rw [if_pos hok, if_pos hok]
    rfl
  · rw [if_neg hok, if_neg hok, run_bind, run_instanceExists]
    cases existsIn C name listing with
    | error e => rfl
    | ok b => cases b <;> rfl

/-! ## When it is sound -/

theorem showsGone_of_readable {stdout : Files.Bytes} (hread : ¬ Unreadable C stdout)
    (h : ∀ row ∈ parseListJson C stdout, row.name ≠ name) : ShowsGone C name stdout := by
  refine ⟨fun line hline => ?_, h⟩
  by_contra hnone
  exact hread ⟨line, hline, Option.not_isSome_iff_eq_none.mp hnone⟩

theorem existsIn_eq_false : existsIn C name listing = .ok false ↔
    ∃ status stdout stderr, listing = .ok (status, stdout, stderr) ∧ status.success = true ∧
      ∀ row ∈ parseListJson C stdout, row.name ≠ name := by
  unfold existsIn
  rcases listing with e | ⟨status, stdout, stderr⟩
  · exact ⟨nofun, nofun⟩
  · by_cases hs : status.success = true
    · simp only [if_pos hs, Except.ok.injEq, Prod.mk.injEq, List.any_eq_false, beq_iff_eq]
      constructor
      · intro h
        exact ⟨status, stdout, stderr, ⟨rfl, rfl, rfl⟩, hs, h⟩
      · rintro ⟨_, _, _, ⟨rfl, rfl, rfl⟩, -, h⟩
        exact h
    · simp only [if_neg hs, Except.ok.injEq, Prod.mk.injEq]
      constructor
      · exact nofun
      · rintro ⟨_, _, _, ⟨rfl, rfl, rfl⟩, h, -⟩
        exact absurd h hs

/-- Success without the command's own is the listing's. -/
theorem deleteResult_eq_ok : deleteResult C name outcome listing = .ok () ↔
    exitedOk outcome = true ∨ existsIn C name listing = .ok false := by
  unfold deleteResult
  by_cases hok : exitedOk outcome = true
  · rw [if_pos hok]
    exact ⟨fun _ => .inl hok, fun _ => rfl⟩
  · rw [if_neg hok]
    rcases existsIn C name listing with e | _ | _
    · exact ⟨nofun, fun h => absurd (h.resolve_left hok) nofun⟩
    · exact ⟨fun _ => .inr rfl, fun _ => rfl⟩
    · exact ⟨nofun, fun h => absurd (h.resolve_left hok) nofun⟩

/-- **When `delete` keeps its promise**: if and only if the command
succeeded, or the listing is not one that leaves the VM out and cannot all
be read. -/
theorem deleteVm_sound_iff (C : Codec) (name : String) (outcome : Outcome) (listing : Captured) :
    ∃ r, run (answering outcome listing) (deleteVm C name) () = some (r, ()) ∧
      (Sound C name outcome listing r ↔
        exitedOk outcome = true ∨ ¬ Misread C name listing) := by
  refine ⟨_, run_deleteVm, fun hs => ?_, fun h => ⟨fun hok => ?_, fun hfail => ?_⟩⟩
  · by_contra hnot
    obtain ⟨hfail, hmis⟩ := not_or.mp hnot
    obtain ⟨status, stdout, stderr, rfl, hst, hun, habs⟩ := not_not.mp hmis
    have hok : deleteResult C name outcome (.ok (status, stdout, stderr)) = .ok () :=
      deleteResult_eq_ok.mpr (.inr (existsIn_eq_false.mpr ⟨_, _, _, rfl, hst, habs⟩))
    obtain ⟨e, he⟩ := hs.error (Bool.eq_false_iff.mpr hfail) _ _ _ rfl hun
    rw [hok] at he
    cases he
  · rcases deleteResult_eq_ok.mp hok with hexit | hex
    · exact .inl hexit
    · by_cases hexit : exitedOk outcome = true
      · exact .inl hexit
      obtain ⟨status, stdout, stderr, rfl, hst, habs⟩ := existsIn_eq_false.mp hex
      refine .inr ⟨status, stdout, stderr, rfl, hst, showsGone_of_readable (fun hun => ?_) habs⟩
      exact h.resolve_left hexit ⟨_, _, _, rfl, hst, hun, habs⟩
  · intro status stdout stderr hl hun
    have hfail' : ¬ exitedOk outcome = true := Bool.eq_false_iff.mp hfail
    cases hr : deleteResult C name outcome listing with
    | error e => exact ⟨e, rfl⟩
    | ok u =>
      -- success could only be the listing's, which is misread
      have hex := (deleteResult_eq_ok.mp hr).resolve_left hfail'
      obtain ⟨status', stdout', stderr', hl', hst, habs⟩ := existsIn_eq_false.mp hex
      rw [hl] at hl'
      cases hl'
      exact absurd ⟨_, _, _, hl, hst, hun, habs⟩ (h.resolve_left hfail')

/-! ## A VM that still stands -/

/-- A codec that does not read a row cut off after its brace. -/
def strictCodec : Codec :=
  { sampleCodec with
    decodeInstance := fun line => if line = "\x7b".toUTF8.toList then none
      else sampleCodec.decodeInstance line }

/-- **Unknown is not gone**: the command times out, the listing is cut
off, and `delete` succeeds. -/
theorem deleteVm_misreads :
    ∃ r, run (answering (.error "limactl delete timed out after 60s")
        (.ok (⟨true, "exit status: 0"⟩, "\x7b\n".toUTF8.toList, "")))
        (deleteVm strictCodec (vmName 42)) () = some (r, ()) ∧
      ¬ Sound strictCodec (vmName 42) (.error "limactl delete timed out after 60s")
        (.ok (⟨true, "exit status: 0"⟩, "\x7b\n".toUTF8.toList, "")) r := by
  refine ⟨.ok (), by decide +kernel, fun hs => ?_⟩
  have hun : Unreadable strictCodec "\x7b\n".toUTF8.toList :=
    ⟨"\x7b".toUTF8.toList, by decide +kernel, by decide +kernel⟩
  obtain ⟨e, he⟩ := hs.error rfl _ _ _ rfl hun
  cases he

end Lima

end GhaConsumer
