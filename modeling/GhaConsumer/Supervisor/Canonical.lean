import GhaConsumer.Supervisor.Model
import GhaConsumer.Text.Utf8

/-!
# Which names are a job's

A job's id is written in decimal in its spool file's name and in hex in
its VM's. `prepare` reads the first back and goes on with the spelling
the spooler writes and no other; the GC takes for its own the VM names
that are some id's. So accepted file names and managed VM names are two
spellings of the ids, one for one (`codecs_agree`).
-/

namespace GhaConsumer

open Interleave

variable {name : String} {id : JobId}

/-! ## File names -/

/-- The id of a file name that `prepare` goes on with. -/
def acceptedId (name : String) : Option JobId :=
  (parseSpoolFilename name).filter fun id => name = jobFileName id

theorem acceptedId_eq_some : acceptedId name = some id ↔ name = jobFileName id := by
  unfold acceptedId
  rw [Option.filter_eq_some_iff, decide_eq_true_iff]
  constructor
  · exact fun h => h.2
  · rintro rfl
    exact ⟨parseSpoolFilename_jobFileName id, rfl⟩

/-- Any other name is skipped, or rejected once claimed. -/
theorem prepare_of_not_accepted (cfg : Config) (h : acceptedId name = none) :
    (prepare cfg name).Returns fun r => r = .skip ∨ ∃ cur reason, r = .reject cur reason := by
  unfold prepare
  split
  · exact .inl rfl
  · rename_i id hparse
    have hne : name ≠ jobFileName id := by
      intro heq
      rw [acceptedId_eq_some.mpr heq] at h
      cases h
    refine (Prog.returns_true _).bind fun r _ => ?_
    split
    · rename_i cur
      unfold prepareClaim
      rw [if_pos hne]
      exact .inr ⟨cur, _, rfl⟩
    · exact .inl rfl

/-! ## VM names -/

theorem isLowerHex_iff {c : Char} : isLowerHex c = true ↔
    (48 ≤ c.toNat ∧ c.toNat ≤ 57) ∨ (97 ≤ c.toNat ∧ c.toNat ≤ 102) := by
  unfold isLowerHex
  rw [Bool.or_eq_true, Bool.and_eq_true, Bool.and_eq_true, decide_eq_true_iff, decide_eq_true_iff,
    decide_eq_true_iff, decide_eq_true_iff]
  exact Iff.rfl

theorem ascii_of_isLowerHex {c : Char} (h : isLowerHex c = true) : Text.Ascii c := by
  rcases isLowerHex_iff.mp h with h | h
  · exact Nat.lt_of_le_of_lt h.2 (by omega)
  · exact Nat.lt_of_le_of_lt h.2 (by omega)

/-- The byte is a lowercase hex digit. -/
def isHexByte (b : UInt8) : Bool :=
  (48 ≤ b.toNat && b.toNat ≤ 57) || (97 ≤ b.toNat && b.toNat ≤ 102)

theorem isHexByte_of_ascii {c : Char} (h : Text.Ascii c) :
    isHexByte (UInt8.ofNat c.toNat) = isLowerHex c := by
  rw [Bool.eq_iff_iff, isLowerHex_iff, isHexByte, Text.toNat_of_ascii h]
  simp

/-- `is_managed_vm_name` as it is written, on bytes. -/
def isManagedVmBytes (name : List UInt8) : Bool :=
  match List.isPrefixOf? (Text.bytes vmNamePrefix) name with
  | none => false
  | some suffix => suffix.length == 16 && suffix.all isHexByte

theorem ascii_vmNamePrefix : ∀ c ∈ vmNamePrefix.toList, Text.Ascii c :=
  List.all_iff_forall_prop.mp (by decide)

theorem bytes_vmNamePrefix : Text.bytes vmNamePrefix = Text.asciiBytes vmNamePrefix.toList := by
  have h := Text.bytes_ofList ascii_vmNamePrefix
  rwa [String.ofList_toList] at h

/-- Read by bytes or by characters, the managed names are the same. -/
theorem isManagedVmBytes_bytes (name : String) :
    isManagedVmBytes (Text.bytes name) = isManagedVmName name := by
  rw [Bool.eq_iff_iff]
  constructor
  · intro h
    unfold isManagedVmBytes at h
    split at h
    · cases h
    · rename_i suffix hpre
      obtain ⟨hlen, hhex⟩ := Bool.and_eq_true_iff.mp h
      have hbytes := List.isPrefixOf?_eq_some_iff_append_eq.mp hpre
      -- no byte is beyond ASCII, so no character is
      have hascii : ∀ c ∈ name.toList, Text.Ascii c := by
        have hall : (Text.bytes name).all (fun b => b.toNat < 128) = true := by
          rw [← hbytes, List.all_append, Bool.and_eq_true_iff, bytes_vmNamePrefix]
          refine ⟨by decide, List.all_eq_true.mpr fun b hb => ?_⟩
          have hb := List.all_eq_true.mp hhex b hb
          simp only [isHexByte, Bool.or_eq_true, Bool.and_eq_true, decide_eq_true_eq] at hb ⊢
          omega
        exact fun c hc => ((Text.all_bytes_iff (fun b hb => of_decide_eq_true hb) name).mp hall c hc).1
      have hname := Text.bytes_ofList hascii
      rw [String.ofList_toList, ← hbytes, bytes_vmNamePrefix] at hname
      obtain ⟨pre, cs, hsplit, hpre', hcs⟩ := List.map_eq_append_iff.mp hname.symm
      rw [hsplit] at hascii
      have hpre'' : pre = vmNamePrefix.toList :=
        Text.asciiBytes_inj (fun c hc => hascii c (List.mem_append_left _ hc)) ascii_vmNamePrefix hpre'
      have hstrip : List.isPrefixOf? vmNamePrefix.toList name.toList = some cs := by
        rw [List.isPrefixOf?_eq_some_iff_append_eq, hsplit, hpre'']
      unfold isManagedVmName
      rw [hstrip]
      refine Bool.and_eq_true_iff.mpr ⟨?_, List.all_eq_true.mpr fun c hc => ?_⟩
      · rw [← hcs, List.length_map] at hlen
        exact hlen
      · rw [← isHexByte_of_ascii (hascii c (List.mem_append_right _ hc))]
        refine List.all_eq_true.mp hhex _ ?_
        rw [← hcs]
        exact List.mem_map_of_mem hc
  · intro h
    obtain ⟨id, rfl⟩ := isManagedVmName_iff.mp h
    have hhex := hexPad_isLowerHex 16 id.toNat
    have hascii : ∀ c ∈ vmNamePrefix.toList ++ hexPad 16 id.toNat, Text.Ascii c := by
      intro c hc
      rcases List.mem_append.mp hc with hc | hc
      · exact ascii_vmNamePrefix c hc
      · exact ascii_of_isLowerHex (hhex c hc)
    have hstrip : List.isPrefixOf? (Text.bytes vmNamePrefix) (Text.bytes (vmName id)) =
        some (Text.asciiBytes (hexPad 16 id.toNat)) := by
      rw [List.isPrefixOf?_eq_some_iff_append_eq, vmName, Text.bytes_ofList hascii,
        bytes_vmNamePrefix, Text.asciiBytes_append]
    unfold isManagedVmBytes
    rw [hstrip]
    refine Bool.and_eq_true_iff.mpr ⟨by simp [Text.asciiBytes], List.all_eq_true.mpr fun b hb => ?_⟩
    obtain ⟨c, hc, rfl⟩ := List.mem_map.mp hb
    rw [isHexByte_of_ascii (ascii_of_isLowerHex (hhex c hc))]
    exact hhex c hc

/-! ## Both -/

/-- **The codecs of ids agree.** VM names are one to an id, and the
managed names are those; the canonical file name of an id reads back as
it, and the names `prepare` goes on with are those, any other being
skipped or rejected. So two accepted names never share a VM, and every
managed name is that of exactly one accepted name. -/
theorem codecs_agree (cfg : Config) :
    Function.Injective vmName ∧
      (∀ vm, isManagedVmName vm = true ↔ ∃ id, vm = vmName id) ∧
      (∀ id, parseSpoolFilename (jobFileName id) = some id) ∧
      (∀ name id, acceptedId name = some id ↔ name = jobFileName id) ∧
      (∀ name, acceptedId name = none →
        (prepare cfg name).Returns fun r => r = .skip ∨ ∃ cur reason, r = .reject cur reason) ∧
      (∀ name name' id id', acceptedId name = some id → acceptedId name' = some id' →
        name ≠ name' → vmName id ≠ vmName id') ∧
      ∀ vm, isManagedVmName vm = true → ∃! name, (acceptedId name).map vmName = some vm := by
  refine ⟨fun _ _ => vmName_injective, fun _ => isManagedVmName_iff, parseSpoolFilename_jobFileName,
    fun _ _ => acceptedId_eq_some, fun _ => prepare_of_not_accepted cfg,
    fun name name' id id' h h' hne hvm => ?_, fun vm hvm => ?_⟩
  · obtain rfl := vmName_injective hvm
    exact hne ((acceptedId_eq_some.mp h).trans (acceptedId_eq_some.mp h').symm)
  · obtain ⟨id, rfl⟩ := isManagedVmName_iff.mp hvm
    refine ⟨jobFileName id, congrArg (Option.map vmName) (acceptedId_eq_some.mpr rfl),
      fun name hname => ?_⟩
    obtain ⟨id', hid', heq⟩ := Option.map_eq_some_iff.mp hname
    obtain rfl := vmName_injective heq
    exact acceptedId_eq_some.mp hid'

end GhaConsumer
