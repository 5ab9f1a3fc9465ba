import Mathlib.Data.Bool.AllAny
import Mathlib.Data.List.Infix
import Mathlib.Data.Nat.Notation

/-!
# The bytes of a text

A text is its UTF-8 bytes, and an ASCII character is one of them. A
character beyond ASCII is written in bytes beyond ASCII only, so that a
test of bytes that no such byte passes is a test of characters.
-/

namespace Text

/-- The bytes of a text. -/
def bytes (s : String) : List UInt8 := s.toUTF8.data.toList

/-- The text of these bytes, if they are one's. -/
def ofBytes? (bs : List UInt8) : Option String := String.fromUTF8? ⟨bs.toArray⟩

theorem ofBytes?_bytes (s : String) : ofBytes? (bytes s) = some s := by
  have heq : (⟨(bytes s).toArray⟩ : ByteArray) = s.toByteArray := by simp [bytes]
  unfold ofBytes? String.fromUTF8?
  rw [heq, dif_pos s.isValidUTF8]
  rfl

theorem bytes_injective : Function.Injective bytes := by
  intro s s' h
  have hs := ofBytes?_bytes s
  rw [h, ofBytes?_bytes] at hs
  exact (Option.some.inj hs).symm

theorem bytes_eq (s : String) : bytes s = s.toList.flatMap String.utf8EncodeChar := by
  unfold bytes
  rw [String.toUTF8_eq_toByteArray, ← String.utf8Encode_toList]
  simp [List.utf8Encode]

@[simp] theorem bytes_append (s s' : String) : bytes (s ++ s') = bytes s ++ bytes s' := by
  simp [bytes_eq]

/-! ## ASCII -/

/-- The character is a byte. -/
def Ascii (c : Char) : Prop := c.toNat < 128

instance : DecidablePred Ascii := fun c => inferInstanceAs (Decidable (c.toNat < 128))

variable {c : Char} {cs : List Char}

theorem utf8EncodeChar_of_ascii (h : Ascii c) :
    String.utf8EncodeChar c = [UInt8.ofNat c.toNat] := by
  have hle : c.val.toNat ≤ 127 := Nat.le_of_lt_succ h
  unfold String.utf8EncodeChar
  exact if_pos hle

/-- A character beyond ASCII is written in two bytes or more, all beyond
ASCII. -/
theorem utf8EncodeChar_of_not_ascii (h : ¬ Ascii c) :
    2 ≤ (String.utf8EncodeChar c).length ∧ ∀ b ∈ String.utf8EncodeChar c, 128 ≤ b.toNat := by
  have hle : ¬ c.val.toNat ≤ 127 := fun hle => h (Nat.lt_succ_of_le hle)
  unfold String.utf8EncodeChar
  simp only [if_neg hle]
  split
  · simp only [List.length_cons, List.forall_mem_cons, UInt8.toNat_ofNat']
    exact ⟨by omega, by omega, by omega, by simp⟩
  · split
    · simp only [List.length_cons, List.forall_mem_cons, UInt8.toNat_ofNat']
      exact ⟨by omega, by omega, by omega, by omega, by simp⟩
    · simp only [List.length_cons, List.forall_mem_cons, UInt8.toNat_ofNat']
      exact ⟨by omega, by omega, by omega, by omega, by omega, by simp⟩

/-- The bytes of ASCII characters. -/
def asciiBytes (cs : List Char) : List UInt8 := cs.map fun c => UInt8.ofNat c.toNat

@[simp] theorem asciiBytes_append (cs ds : List Char) :
    asciiBytes (cs ++ ds) = asciiBytes cs ++ asciiBytes ds := List.map_append

theorem toNat_of_ascii (h : Ascii c) : (UInt8.ofNat c.toNat).toNat = c.toNat := by
  have h : c.toNat < 128 := h
  rw [UInt8.toNat_ofNat', Nat.mod_eq_of_lt (by omega)]

theorem asciiBytes_inj {ds : List Char} (hc : ∀ c ∈ cs, Ascii c) (hd : ∀ c ∈ ds, Ascii c)
    (h : asciiBytes cs = asciiBytes ds) : cs = ds := by
  induction cs generalizing ds with
  | nil =>
    cases ds with
    | nil => rfl
    | cons d ds => cases h
  | cons c cs ih =>
    cases ds with
    | nil => cases h
    | cons d ds =>
      obtain ⟨hc₁, hc⟩ := List.forall_mem_cons.mp hc
      obtain ⟨hd₁, hd⟩ := List.forall_mem_cons.mp hd
      obtain ⟨hbyte, hrest⟩ := List.cons.inj h
      have hnat := congrArg UInt8.toNat hbyte
      rw [toNat_of_ascii hc₁, toNat_of_ascii hd₁] at hnat
      rw [Char.toNat_inj.mp hnat, ih hc hd hrest]

theorem bytes_ofList (h : ∀ c ∈ cs, Ascii c) : bytes (String.ofList cs) = asciiBytes cs := by
  rw [bytes_eq, String.toList_ofList]
  induction cs with
  | nil => rfl
  | cons c cs ih =>
    obtain ⟨hc, hcs⟩ := List.forall_mem_cons.mp h
    rw [List.flatMap_cons, utf8EncodeChar_of_ascii hc, ih hcs]
    rfl

/-- A test of bytes that only ASCII passes is a test of characters. -/
theorem all_bytes_iff {P : UInt8 → Bool} (hP : ∀ b, P b = true → b.toNat < 128) (s : String) :
    (bytes s).all P = true ↔ ∀ c ∈ s.toList, Ascii c ∧ P (UInt8.ofNat c.toNat) = true := by
  rw [bytes_eq, List.all_eq_true]
  constructor
  · intro h c hc
    have hbytes : ∀ b ∈ String.utf8EncodeChar c, P b = true := fun b hb =>
      h b (List.mem_flatMap.mpr ⟨c, hc, hb⟩)
    have hascii : Ascii c := by
      by_contra hnot
      obtain ⟨b, hb⟩ := List.exists_mem_of_ne_nil _ (String.utf8EncodeChar_ne_nil (c := c))
      have hlt := hP b (hbytes b hb)
      have hge := (utf8EncodeChar_of_not_ascii hnot).2 b hb
      omega
    refine ⟨hascii, hbytes _ ?_⟩
    rw [utf8EncodeChar_of_ascii hascii]
    exact List.mem_singleton_self _
  · intro h b hb
    obtain ⟨c, hc, hb⟩ := List.mem_flatMap.mp hb
    obtain ⟨hascii, hPc⟩ := h c hc
    rw [utf8EncodeChar_of_ascii hascii, List.mem_singleton] at hb
    rw [hb]
    exact hPc

/-- An ASCII character's byte is there when the character is. -/
theorem mem_bytes_iff {s : String} (h : Ascii c) :
    UInt8.ofNat c.toNat ∈ bytes s ↔ c ∈ s.toList := by
  rw [bytes_eq, List.mem_flatMap]
  constructor
  · rintro ⟨d, hd, hmem⟩
    by_cases hascii : Ascii d
    · rw [utf8EncodeChar_of_ascii hascii, List.mem_singleton] at hmem
      have hnat := congrArg UInt8.toNat hmem
      rw [toNat_of_ascii h, toNat_of_ascii hascii] at hnat
      rwa [Char.toNat_inj.mp hnat]
    · have hge := (utf8EncodeChar_of_not_ascii hascii).2 _ hmem
      rw [toNat_of_ascii h] at hge
      have h : c.toNat < 128 := h
      omega
  · intro hc
    exact ⟨c, hc, by rw [utf8EncodeChar_of_ascii h]; exact List.mem_singleton_self _⟩

/-! ## Bytes that are no text -/

/-- The prefix of a text that ends before an ASCII character is a text. -/
theorem exists_bytes_of_append {cs : List Char} {bs rest : List UInt8} {b : UInt8}
    (hb : b.toNat < 128) (h : cs.flatMap String.utf8EncodeChar = bs ++ b :: rest) :
    ∃ ds : List Char, ds.flatMap String.utf8EncodeChar = bs := by
  induction cs generalizing bs with
  | nil => simp at h
  | cons c cs ih =>
    rw [List.flatMap_cons] at h
    rcases List.append_eq_append_iff.mp h with ⟨mid, hbs, hrest⟩ | ⟨mid, hc, hrest⟩
    · obtain ⟨ds, hds⟩ := ih hrest
      exact ⟨c :: ds, by rw [List.flatMap_cons, hds, hbs]⟩
    · cases mid with
      | nil => exact ⟨[c], by rw [List.flatMap_singleton, hc, List.append_nil]⟩
      | cons b' mid =>
        -- `b` is one of the character's bytes: it is the only one
        obtain rfl : b = b' := (List.cons.inj hrest).1
        have hascii : Ascii c := by
          by_contra hnot
          have hge := (utf8EncodeChar_of_not_ascii hnot).2 b (by rw [hc]; simp)
          omega
        have hlen := congrArg List.length hc
        rw [utf8EncodeChar_of_ascii hascii, List.length_append] at hlen
        simp only [List.length_cons, List.length_nil] at hlen
        exact ⟨[], (List.eq_nil_of_length_eq_zero (by omega)).symm⟩

theorem bytes_of_ofBytes? {bs : List UInt8} {s : String} (h : ofBytes? bs = some s) :
    bytes s = bs := by
  unfold ofBytes? String.fromUTF8? at h
  split at h
  · cases h
    rfl
  · cases h

theorem isSome_ofBytes?_iff {bs : List UInt8} :
    (ofBytes? bs).isSome ↔ ∃ s, bytes s = bs := by
  constructor
  · intro h
    obtain ⟨s, hs⟩ := Option.isSome_iff_exists.mp h
    exact ⟨s, bytes_of_ofBytes? hs⟩
  · rintro ⟨s, rfl⟩
    rw [ofBytes?_bytes]
    rfl

/-- Bytes are a text together with ASCII that follows them, or not at
all. -/
theorem isSome_append_ascii {bs : List UInt8} {cs : List Char} (hne : cs ≠ [])
    (hascii : ∀ c ∈ cs, Ascii c) :
    (ofBytes? (bs ++ asciiBytes cs)).isSome ↔ (ofBytes? bs).isSome := by
  rw [isSome_ofBytes?_iff, isSome_ofBytes?_iff]
  constructor
  · rintro ⟨s, hs⟩
    obtain ⟨c, cs, rfl⟩ := List.exists_cons_of_ne_nil hne
    rw [bytes_eq] at hs
    have hc : Ascii c := hascii c List.mem_cons_self
    have hlt : (UInt8.ofNat c.toNat).toNat < 128 := by
      rw [toNat_of_ascii hc]
      exact hc
    obtain ⟨ds, hds⟩ := exists_bytes_of_append hlt hs
    exact ⟨String.ofList ds, by rw [bytes_eq, String.toList_ofList, hds]⟩
  · rintro ⟨s, rfl⟩
    exact ⟨s ++ String.ofList cs, by rw [bytes_append, bytes_ofList hascii]⟩

/-- A byte that may follow the first of a character of three or four. -/
def secondOk (b c : UInt8) : Bool :=
  let b := b.toNat
  let c := c.toNat
  if b = 0xe0 then 0xa0 ≤ c && c ≤ 0xbf
  else if b = 0xed then 0x80 ≤ c && c ≤ 0x9f
  else if b = 0xf0 then 0x90 ≤ c && c ≤ 0xbf
  else if b = 0xf4 then 0x80 ≤ c && c ≤ 0x8f
  else 0xe1 ≤ b && b ≤ 0xf3 && 0x80 ≤ c && c ≤ 0xbf

/-- How many bytes after the first belong to a character that breaks
off. -/
def brokenTail (b : UInt8) : List UInt8 → ℕ
  | c :: rest =>
    if secondOk b c then
      match rest with
      | d :: _ => if 0xf0 ≤ b.toNat && 0x80 ≤ d.toNat && d.toNat ≤ 0xbf then 2 else 1
      | [] => 1
    else 0
  | [] => 0

/-- The character the bytes begin with, and how many bytes it takes. -/
def firstChar (bs : List UInt8) : Option (Char × ℕ) :=
  [1, 2, 3, 4].findSome? fun k =>
    (ofBytes? (bs.take k)).bind fun s => s.toList.head?.map fun c => (c, k)

/-- Each piece that is no character's, replaced by U+FFFD. -/
def replaced : List UInt8 → List Char
  | [] => []
  | b :: rest =>
    match firstChar (b :: rest) with
    | some (c, k) => c :: replaced (rest.drop (k - 1))
    | none => Char.ofNat 0xfffd :: replaced (rest.drop (brokenTail b rest))
termination_by bs => bs.length
decreasing_by all_goals simp only [List.length_drop, List.length_cons]; omega

/-- `String::from_utf8_lossy`. -/
def lossy (bs : List UInt8) : String := (ofBytes? bs).getD (String.ofList (replaced bs))

theorem lossy_of_ofBytes? {bs : List UInt8} {s : String} (h : ofBytes? bs = some s) :
    lossy bs = s := by
  unfold lossy
  rw [h]
  rfl

/-- What is printed are the bytes themselves when and only when they are a
text. -/
theorem bytes_lossy_iff {bs : List UInt8} : bytes (lossy bs) = bs ↔ (ofBytes? bs).isSome := by
  constructor
  · exact fun h => isSome_ofBytes?_iff.mpr ⟨_, h⟩
  · intro h
    obtain ⟨s, hs⟩ := Option.isSome_iff_exists.mp h
    rw [lossy_of_ofBytes? hs]
    exact bytes_of_ofBytes? hs

end Text
