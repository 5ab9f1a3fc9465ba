import GhaConsumer.Text.Utf8

/-!
# Percent-encoding

Some bytes are written as the characters they are, and every other as `%`
and two hex digits. Whatever is kept, as long as it is ASCII and not `%`
itself, what is written reads back (`decode_encode`).
-/

namespace Text

namespace Percent

/-! ## Hex digits -/

/-- An uppercase hex digit. -/
def upperHex (d : ℕ) : Char := Char.ofNat (if d < 10 then d + 48 else d + 55)

/-- What a hex digit of either case stands for. -/
def hexValue (b : UInt8) : Option ℕ :=
  let n := b.toNat
  if 48 ≤ n ∧ n ≤ 57 then some (n - 48)
  else if 65 ≤ n ∧ n ≤ 70 then some (n - 55)
  else if 97 ≤ n ∧ n ≤ 102 then some (n - 87)
  else none

theorem upperHex_ascii : ∀ d < 16, Ascii (upperHex d) := by decide

theorem hexValue_upperHex :
    ∀ d < 16, hexValue (UInt8.ofNat (upperHex d).toNat) = some d := by decide

/-! ## Encoding -/

/-- `%` and the two digits of a byte. -/
def escape (b : UInt8) : List Char :=
  ['%', upperHex (b.toNat / 16), upperHex (b.toNat % 16)]

variable (keep : UInt8 → Bool)

def encodeByte (b : UInt8) : List Char :=
  if keep b then [Char.ofNat b.toNat] else escape b

def encode (bs : List UInt8) : List Char := bs.flatMap (encodeByte keep)

/-- Text made of kept characters and escapes. -/
inductive Encoded : List Char → Prop
  | nil : Encoded []
  | kept {c : Char} {cs : List Char} (hascii : Ascii c) (hc : keep (UInt8.ofNat c.toNat) = true) :
      Encoded cs → Encoded (c :: cs)
  | escaped {hi lo : ℕ} {cs : List Char} (hhi : hi < 16) (hlo : lo < 16) :
      Encoded cs → Encoded ('%' :: upperHex hi :: upperHex lo :: cs)

variable {keep}

theorem Encoded.ascii {cs : List Char} (h : Encoded keep cs) : ∀ c ∈ cs, Ascii c := by
  induction h with
  | nil => exact fun c hc => absurd hc List.not_mem_nil
  | kept hascii _ _ ih => exact List.forall_mem_cons.mpr ⟨hascii, ih⟩
  | escaped hhi hlo _ ih =>
    exact List.forall_mem_cons.mpr ⟨by decide, List.forall_mem_cons.mpr ⟨upperHex_ascii _ hhi,
      List.forall_mem_cons.mpr ⟨upperHex_ascii _ hlo, ih⟩⟩⟩

/-- A character is kept, `%` or a hex digit. -/
theorem Encoded.mem {cs : List Char} (h : Encoded keep cs) {c : Char} (hc : c ∈ cs) :
    keep (UInt8.ofNat c.toNat) = true ∨ c = '%' ∨ ∃ d < 16, c = upperHex d := by
  induction h with
  | nil => cases hc
  | kept _ hkeep _ ih =>
    rcases List.mem_cons.mp hc with rfl | hc
    · exact .inl hkeep
    · exact ih hc
  | escaped hhi hlo _ ih =>
    simp only [List.mem_cons] at hc
    rcases hc with rfl | rfl | rfl | hc
    · exact .inr (.inl rfl)
    · exact .inr (.inr ⟨_, hhi, rfl⟩)
    · exact .inr (.inr ⟨_, hlo, rfl⟩)
    · exact ih hc

/-- Only ASCII is kept. -/
def KeepsAscii (keep : UInt8 → Bool) : Prop := ∀ b, keep b = true → b.toNat < 128

theorem ofNat_byte {b : UInt8} (h : b.toNat < 128) :
    Ascii (Char.ofNat b.toNat) ∧ UInt8.ofNat (Char.ofNat b.toNat).toNat = b := by
  have hnat : ∀ n < 128, (Char.ofNat n).toNat = n := by decide
  have hnat := hnat b.toNat h
  unfold Ascii
  rw [hnat]
  exact ⟨h, UInt8.ofNat_toNat⟩

theorem encoded_encode (hkeep : KeepsAscii keep) (bs : List UInt8) :
    Encoded keep (encode keep bs) := by
  induction bs with
  | nil => exact .nil
  | cons b bs ih =>
    have hb := b.toNat_lt
    unfold encode
    rw [List.flatMap_cons, encodeByte]
    split
    · rename_i hk
      obtain ⟨hascii, hbyte⟩ := ofNat_byte (hkeep b hk)
      exact .kept hascii (by rw [hbyte]; exact hk) ih
    · exact .escaped (by omega) (by omega) ih

/-! ## Decoding -/

/-- Each `%` followed by two hex digits is the byte they stand for. -/
def decode : List UInt8 → List UInt8
  | b :: hi :: lo :: rest =>
    if b = 37 then
      match hexValue hi, hexValue lo with
      | some h, some l => UInt8.ofNat (16 * h + l) :: decode rest
      | _, _ => b :: decode (hi :: lo :: rest)
    else b :: decode (hi :: lo :: rest)
  | b :: rest => b :: decode rest
  | [] => []

theorem decode_escape (b : UInt8) (rest : List UInt8) :
    decode (asciiBytes (escape b) ++ rest) = b :: decode rest := by
  have hb := b.toNat_lt
  have hhi := hexValue_upperHex (b.toNat / 16) (by omega)
  have hlo := hexValue_upperHex (b.toNat % 16) (by omega)
  have hpercent : UInt8.ofNat '%'.toNat = 37 := by decide
  unfold escape asciiBytes
  simp only [List.map_cons, List.map_nil, List.cons_append, List.nil_append]
  rw [decode, if_pos hpercent]
  simp only [hhi, hlo]
  rw [Nat.div_add_mod b.toNat 16, UInt8.ofNat_toNat]

theorem decode_kept {b : UInt8} (h : b ≠ 37) (rest : List UInt8) :
    decode (b :: rest) = b :: decode rest := by
  match rest with
  | [] | [_] => rfl
  | _ :: _ :: _ => rw [decode, if_neg h]

/-- **What is encoded reads back.** -/
theorem decode_encode (hkeep : KeepsAscii keep) (hpercent : keep 37 = false) (bs : List UInt8) :
    decode (asciiBytes (encode keep bs)) = bs := by
  induction bs with
  | nil => rfl
  | cons b bs ih =>
    have hencode : encode keep (b :: bs) = encodeByte keep b ++ encode keep bs := rfl
    rw [hencode, asciiBytes_append, encodeByte]
    split
    · rename_i hk
      have hne : b ≠ 37 := by
        rintro rfl
        rw [hpercent] at hk
        cases hk
      have hbyte : asciiBytes [Char.ofNat b.toNat] = [b] := by
        simp only [asciiBytes, List.map_cons, List.map_nil, (ofNat_byte (hkeep b hk)).2]
      rw [hbyte, List.singleton_append, decode_kept hne, ih]
    · rw [decode_escape, ih]

/-- A text, percent-decoded: the text its bytes then are. -/
def decodeText (s : String) : Option String := ofBytes? (decode (bytes s))

def encodeText (keep : UInt8 → Bool) (s : String) : String :=
  String.ofList (encode keep (bytes s))

theorem decodeText_encodeText (hkeep : KeepsAscii keep) (hpercent : keep 37 = false) (s : String) :
    decodeText (encodeText keep s) = some s := by
  unfold decodeText encodeText
  rw [bytes_ofList (encoded_encode hkeep _).ascii, decode_encode hkeep hpercent]
  exact ofBytes?_bytes s

/-- Text without `%` reads as it stands. -/
theorem decode_of_not_mem {bs : List UInt8} (h : (37 : UInt8) ∉ bs) : decode bs = bs := by
  induction bs with
  | nil => rfl
  | cons b bs ih =>
    obtain ⟨hne, hbs⟩ := not_or.mp (mt List.mem_cons.mpr h)
    rw [decode_kept (Ne.symm hne), ih hbs]

end Percent

end Text
