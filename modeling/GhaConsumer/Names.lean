import Mathlib.Algebra.Group.Nat.Defs
import Mathlib.Data.List.Infix
import Mathlib.Data.Nat.Notation

/-!
# Names

A job's id has two spellings: the spool file `<id>.job`, in decimal, and
the VM (and runner) `gha-<id>`, in sixteen lowercase hex digits. The file
name is read back with `str::parse`, which takes more than the canonical
spelling: a leading `+` and leading zeros.
-/

namespace GhaConsumer

/-- A workflow job's id, a `u64`. -/
abbrev JobId := UInt64

/-! ## Spool files -/

/-- The number written in decimal, after the digits read as `acc`. -/
def parseDigits (acc : ℕ) : List Char → Option ℕ
  | [] => some acc
  | c :: cs => if c.isDigit then parseDigits (10 * acc + (c.toNat - '0'.toNat)) cs else none

/-- `str::parse::<u64>`: an optional `+`, at least one digit, no
overflow. -/
def parseU64 (cs : List Char) : Option UInt64 :=
  let digits := match cs with
    | '+' :: ds => ds
    | ds => ds
  if digits = [] then none
  else (parseDigits 0 digits).bind fun n =>
    if h : n < 2 ^ 64 then some (UInt64.ofNatLT n h) else none

/-- `parse_spool_filename`. -/
def parseSpoolFilename (name : String) : Option JobId :=
  (List.isSuffixOf? ".job".toList name.toList).bind parseU64

/-- `format!("{id}.job")`. -/
def jobFileName (id : JobId) : String := toString id.toNat ++ ".job"

theorem parseDigits_append (acc : ℕ) (cs ds : List Char) :
    parseDigits acc (cs ++ ds) = (parseDigits acc cs).bind fun n => parseDigits n ds := by
  induction cs generalizing acc with
  | nil => rfl
  | cons c cs ih =>
    simp only [List.cons_append, parseDigits]
    split
    · exact ih _
    · rfl

theorem parseDigits_digitChar {acc d : ℕ} (h : d < 10) :
    parseDigits acc [Nat.digitChar d] = some (10 * acc + d) := by
  have hd : ∀ d < 10, (Nat.digitChar d).isDigit = true ∧
      (Nat.digitChar d).toNat - '0'.toNat = d := by decide
  simp only [parseDigits, (hd d h).1, if_true, (hd d h).2]

/-- A number's own digits read back. -/
theorem parseDigits_toDigits (n : ℕ) : parseDigits 0 (Nat.toDigits 10 n) = some n := by
  induction n using Nat.strongRecOn with
  | ind n ih =>
    rcases Nat.lt_or_ge n 10 with h | h
    · rw [Nat.toDigits_of_lt_base h, parseDigits_digitChar h]
      simp
    · rw [Nat.toDigits_of_base_le (by omega) h, parseDigits_append, ih (n / 10) (by omega),
        Option.bind_some, parseDigits_digitChar (by omega)]
      congr 1
      omega

theorem parseU64_toDigits (id : UInt64) : parseU64 (Nat.toDigits 10 id.toNat) = some id := by
  have hplus : ∀ ds, Nat.toDigits 10 id.toNat ≠ '+' :: ds := by
    intro ds h
    have := Nat.isDigit_of_mem_toDigits (b := 10) (n := id.toNat) (c := '+') (by omega) (by omega)
      (by simp [h])
    simp at this
  simp only [parseU64, if_neg Nat.toDigits_ne_nil, parseDigits_toDigits, Option.bind_some,
    dif_pos id.toNat_lt]
  rfl

/-- The canonical name of a job's file is accepted as that job's. -/
theorem parseSpoolFilename_jobFileName (id : JobId) :
    parseSpoolFilename (jobFileName id) = some id := by
  have hsuf : List.isSuffixOf? ".job".toList (jobFileName id).toList
      = some (Nat.toDigits 10 id.toNat) := by
    rw [List.isSuffixOf?_eq_some_iff_append_eq, jobFileName, String.toList_append]
    simp
  rw [parseSpoolFilename, hsuf, Option.bind_some, parseU64_toDigits]

/-- A hidden file is no job's. -/
theorem parseSpoolFilename_of_dot {name : String} {cs : List Char}
    (h : name.toList = '.' :: cs) : parseSpoolFilename name = none := by
  unfold parseSpoolFilename
  cases hsuf : List.isSuffixOf? ".job".toList name.toList with
  | none => rfl
  | some ds =>
    have happ := List.isSuffixOf?_eq_some_iff_append_eq.mp hsuf
    cases ds with
    | nil => rfl
    | cons d ds =>
      rw [h, List.cons_append] at happ
      obtain ⟨rfl, -⟩ := List.cons.inj happ
      rfl

/-! ## VMs -/

/-- `VM_NAME_PREFIX`. -/
def vmNamePrefix : String := "gha-"

/-- The last `k` hex digits of `n`, padded with zeros. -/
def hexPad : ℕ → ℕ → List Char
  | 0, _ => []
  | k + 1, n => hexPad k (n / 16) ++ [Nat.digitChar (n % 16)]

/-- `vm_name`: `format!("gha-{job_id:016x}")`. -/
def vmName (id : JobId) : String := String.ofList (vmNamePrefix.toList ++ hexPad 16 id.toNat)

/-- A lowercase hex digit. -/
def isLowerHex (c : Char) : Bool := ('0' ≤ c && c ≤ '9') || ('a' ≤ c && c ≤ 'f')

/-- `is_managed_vm_name`. The suffix is measured in bytes in the source;
where all of them are hex digits, bytes are characters. -/
def isManagedVmName (name : String) : Bool :=
  match List.isPrefixOf? vmNamePrefix.toList name.toList with
  | none => false
  | some suffix => suffix.length == 16 && suffix.all isLowerHex

@[simp] theorem length_hexPad (k n : ℕ) : (hexPad k n).length = k := by
  induction k generalizing n with
  | zero => rfl
  | succ k ih => simp [hexPad, ih]

theorem hexPad_isLowerHex (k n : ℕ) : ∀ c ∈ hexPad k n, isLowerHex c = true := by
  induction k generalizing n with
  | zero => simp [hexPad]
  | succ k ih =>
    have hd : ∀ d < 16, isLowerHex (Nat.digitChar d) = true := by decide
    intro c hc
    rcases List.mem_append.mp hc with hc | hc
    · exact ih _ c hc
    · rw [List.mem_singleton.mp hc]
      exact hd _ (Nat.mod_lt _ (by omega))

/-- Below `16 ^ k`, the digits say which number it is. -/
theorem hexPad_inj {k m n : ℕ} (hm : m < 16 ^ k) (hn : n < 16 ^ k) (h : hexPad k m = hexPad k n) :
    m = n := by
  induction k generalizing m n with
  | zero => omega
  | succ k ih =>
    have hd : ∀ d < 16, ∀ e < 16, Nat.digitChar d = Nat.digitChar e → d = e := by decide
    have hlen : (hexPad k (m / 16)).length = (hexPad k (n / 16)).length := by simp
    obtain ⟨hhi, hlo⟩ := List.append_inj h hlen
    have hq := ih (by rw [Nat.pow_succ] at hm; omega) (by rw [Nat.pow_succ] at hn; omega) hhi
    have hr := hd _ (Nat.mod_lt m (by omega)) _ (Nat.mod_lt n (by omega)) (by simpa using hlo)
    omega

theorem vmName_injective {a b : JobId} (h : vmName a = vmName b) : a = b := by
  have hcs := List.append_cancel_left (String.ofList_injective h)
  exact UInt64.toNat_inj.mp (hexPad_inj (k := 16) a.toNat_lt b.toNat_lt hcs)

theorem isManagedVmName_vmName (id : JobId) : isManagedVmName (vmName id) = true := by
  have hpre : List.isPrefixOf? vmNamePrefix.toList (vmName id).toList
      = some (hexPad 16 id.toNat) := by
    rw [List.isPrefixOf?_eq_some_iff_append_eq, vmName, String.toList_ofList]
  simp only [isManagedVmName, hpre, length_hexPad, beq_self_eq_true, Bool.true_and,
    List.all_eq_true]
  exact hexPad_isLowerHex 16 _

theorem exists_digitChar {c : Char} (h : isLowerHex c = true) : ∃ d < 16, Nat.digitChar d = c := by
  have hdec : ∀ m < 10, Nat.digitChar m = Char.ofNat (m + 48) := by decide
  have halpha : ∀ m < 6, Nat.digitChar (m + 10) = Char.ofNat (m + 97) := by decide
  rcases Bool.or_eq_true_iff.mp h with h | h
  · obtain ⟨hlo, hhi⟩ := Bool.and_eq_true_iff.mp h
    have hlo : 48 ≤ c.toNat := of_decide_eq_true hlo
    have hhi : c.toNat ≤ 57 := of_decide_eq_true hhi
    refine ⟨c.toNat - 48, by omega, ?_⟩
    rw [hdec _ (by omega), Nat.sub_add_cancel hlo, Char.ofNat_toNat]
  · obtain ⟨hlo, hhi⟩ := Bool.and_eq_true_iff.mp h
    have hlo : 97 ≤ c.toNat := of_decide_eq_true hlo
    have hhi : c.toNat ≤ 102 := of_decide_eq_true hhi
    refine ⟨c.toNat - 97 + 10, by omega, ?_⟩
    rw [halpha _ (by omega), Nat.sub_add_cancel hlo, Char.ofNat_toNat]

/-- Any hex digits are a number's. -/
theorem exists_hexPad {cs : List Char} (h : ∀ c ∈ cs, isLowerHex c = true) :
    ∃ n < 16 ^ cs.length, hexPad cs.length n = cs := by
  induction cs using List.reverseRecOn with
  | nil => exact ⟨0, by simp, rfl⟩
  | append_singleton cs c ih =>
    obtain ⟨n, hn, hcs⟩ := ih fun c' hc' => h c' (List.mem_append_left _ hc')
    obtain ⟨d, hd, hc⟩ := exists_digitChar (h c (List.mem_append_right _ (List.mem_singleton_self c)))
    have hlen : (cs ++ [c]).length = cs.length + 1 := by simp
    rw [hlen]
    refine ⟨16 * n + d, by rw [Nat.pow_succ]; omega, ?_⟩
    have hhi : (16 * n + d) / 16 = n := by omega
    have hlo : (16 * n + d) % 16 = d := by omega
    rw [hexPad, hhi, hlo, hcs, hc]

/-- **The managed names are the names of ids.** -/
theorem isManagedVmName_iff {name : String} :
    isManagedVmName name = true ↔ ∃ id, name = vmName id := by
  constructor
  · intro h
    unfold isManagedVmName at h
    split at h
    · cases h
    · rename_i suffix hpre
      obtain ⟨hlen, hhex⟩ := Bool.and_eq_true_iff.mp h
      have hlen : suffix.length = 16 := by simpa using hlen
      obtain ⟨n, hn, hsuffix⟩ := exists_hexPad (List.all_eq_true.mp hhex)
      rw [hlen] at hn hsuffix
      refine ⟨UInt64.ofNatLT n hn, ?_⟩
      rw [vmName, UInt64.toNat_ofNatLT, hsuffix, List.isPrefixOf?_eq_some_iff_append_eq.mp hpre,
        String.ofList_toList]
  · rintro ⟨id, rfl⟩
    exact isManagedVmName_vmName id

end GhaConsumer
