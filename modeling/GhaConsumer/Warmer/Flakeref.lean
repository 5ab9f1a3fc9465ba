import GhaConsumer.Text.Url

/-!
# Warmer — the flakeref

A warm fetches the repository at a branch and a commit, both spelled out
in the query of one URL. The branch is whatever GitHub says it is, so it
is percent-encoded: none of its characters can end the value it is in,
and it reads back from the query as it was.
-/

namespace GhaConsumer

namespace Warmer

open Text

/-! ## Encoding -/

/-- The bytes `encode_path_segment` leaves as they are:
`A-Z a-z 0-9 - . _ ~`. -/
def isUnreserved (b : UInt8) : Bool :=
  (65 ≤ b.toNat && b.toNat ≤ 90) || (97 ≤ b.toNat && b.toNat ≤ 122) ||
    (48 ≤ b.toNat && b.toNat ≤ 57) || b == 45 || b == 46 || b == 95 || b == 126

/-- `encode_path_segment`. -/
def encodePathSegment (s : String) : String := Percent.encodeText isUnreserved s

def isAsciiHexdigit (b : UInt8) : Bool :=
  (48 ≤ b.toNat && b.toNat ≤ 57) || (65 ≤ b.toNat && b.toNat ≤ 70) ||
    (97 ≤ b.toNat && b.toNat ≤ 102)

/-- Exactly 40 hex digits. -/
def isCommitSha (s : String) : Bool :=
  (bytes s).length == 40 && (bytes s).all isAsciiHexdigit

/-- `build_flakeref`. -/
def buildFlakeref (owner repo branch sha : String) : String :=
  "git+https://github.com/" ++ owner ++ "/" ++ repo ++ "?ref=" ++ encodePathSegment branch ++
    "&rev=" ++ sha

variable {owner repo branch sha : String}

theorem keepsAscii_unreserved : Percent.KeepsAscii isUnreserved := by
  intro b hb
  by_contra hge
  have hne : ∀ n : UInt8, n.toNat < 128 → (b == n) = false := by
    intro n hn
    rw [beq_eq_false_iff_ne]
    rintro rfl
    exact hge hn
  unfold isUnreserved at hb
  rw [hne 45 (by decide), hne 46 (by decide), hne 95 (by decide), hne 126 (by decide)] at hb
  simp only [Bool.or_false, Bool.or_eq_true, Bool.and_eq_true, decide_eq_true_eq] at hb
  omega

theorem isUnreserved_percent : isUnreserved 37 = false := by decide

theorem encoded_encodePathSegment (s : String) :
    Percent.Encoded isUnreserved (encodePathSegment s).toList := by
  unfold encodePathSegment Percent.encodeText
  rw [String.toList_ofList]
  exact Percent.encoded_encode keepsAscii_unreserved _

theorem decodeText_encodePathSegment (s : String) :
    Percent.decodeText (encodePathSegment s) = some s :=
  Percent.decodeText_encodeText keepsAscii_unreserved isUnreserved_percent s

theorem encodePathSegment_injective : Function.Injective encodePathSegment := by
  intro s s' h
  have hs := decodeText_encodePathSegment s
  rw [h, decodeText_encodePathSegment] at hs
  exact (Option.some.inj hs).symm

/-! ## The query -/

/-- The characters that mean something in a query. -/
def separators : List Char := ['&', '=', '?', '#']

theorem not_mem_encodePathSegment {c : Char} (hc : c ∈ separators) (s : String) :
    c ∉ (encodePathSegment s).toList := by
  intro hmem
  have hkeep : ∀ d ∈ separators, isUnreserved (UInt8.ofNat d.toNat) = false ∧ d ≠ '%' ∧
      ∀ n < 16, d ≠ Percent.upperHex n := List.all_iff_forall_prop.mp (by decide)
  obtain ⟨hkept, hpercent, hdigit⟩ := hkeep c hc
  rcases (encoded_encodePathSegment s).mem hmem with h | h | ⟨n, hn, h⟩
  · rw [hkept] at h
    cases h
  · exact hpercent h
  · exact hdigit n hn h

theorem ascii_of_hexdigit (b : UInt8) (h : isAsciiHexdigit b = true) : b.toNat < 128 := by
  simp only [isAsciiHexdigit, Bool.or_eq_true, Bool.and_eq_true, decide_eq_true_eq] at h
  omega

theorem not_mem_sha (h : isCommitSha sha = true) {c : Char} (hc : c ∈ '%' :: separators) :
    c ∉ sha.toList := by
  intro hmem
  have hno : ∀ d ∈ '%' :: separators, isAsciiHexdigit (UInt8.ofNat d.toNat) = false :=
    List.all_iff_forall_prop.mp (by decide)
  have hall := (all_bytes_iff ascii_of_hexdigit sha).mp (Bool.and_eq_true_iff.mp h).2
  have hdigit := (hall c hmem).2
  rw [hno c hc] at hdigit
  cases hdigit

/-- A commit reads as it stands. -/
theorem decodeText_sha (h : isCommitSha sha = true) : Percent.decodeText sha = some sha := by
  have hpercent : (37 : UInt8) ∉ bytes sha := by
    intro hmem
    have hdigit := List.all_eq_true.mp (Bool.and_eq_true_iff.mp h).2 37 hmem
    cases hdigit
  unfold Percent.decodeText
  rw [Percent.decode_of_not_mem hpercent, ofBytes?_bytes]

/-- What a flakeref pins. -/
def pins (branch sha : String) : List (String × String) :=
  [("ref", encodePathSegment branch), ("rev", sha)]

theorem buildFlakeref_toList (owner repo branch sha : String) :
    (buildFlakeref owner repo branch sha).toList =
      ("git+https://github.com/" ++ owner ++ "/" ++ repo).toList ++
        '?' :: List.intercalate ['&'] ((pins branch sha).map Url.spell) := by
  have href : "?ref=".toList = '?' :: ("ref".toList ++ ['=']) := by decide
  have hrev : "&rev=".toList = '&' :: ("rev".toList ++ ['=']) := by decide
  unfold buildFlakeref pins
  generalize encodePathSegment branch = value
  simp only [Url.spell, List.map_cons, List.map_nil, List.intercalate_cons_cons,
    List.intercalate_singleton, String.toList_append, href, hrev, List.append_assoc,
    List.cons_append, List.nil_append]

/-- Nothing in a pin's name or value separates. -/
theorem not_mem_pins (hsha : isCommitSha sha = true) {p : String × String}
    (hp : p ∈ pins branch sha) {c : Char} (hc : c ∈ separators) :
    c ∉ p.1.toList ∧ c ∉ p.2.toList := by
  have hname : ∀ d ∈ separators, d ∉ "ref".toList ∧ d ∉ "rev".toList :=
    List.all_iff_forall_prop.mp (by decide)
  rcases List.mem_cons.mp hp with rfl | hp
  · exact ⟨(hname c hc).1, not_mem_encodePathSegment hc branch⟩
  · rw [List.mem_singleton.mp hp]
    exact ⟨(hname c hc).2, not_mem_sha hsha (List.mem_cons_of_mem _ hc)⟩

/-- The mark of a query or a fragment is nowhere in a flakeref's query. -/
theorem not_mem_query (hsha : isCommitSha sha = true) {c : Char} (hc : c ∈ ['?', '#']) :
    c ∉ List.intercalate ['&'] ((pins branch sha).map Url.spell) := by
  have hmark : ∀ d ∈ ['?', '#'], d ≠ '&' ∧ d ≠ '=' ∧ d ∈ separators :=
    List.all_iff_forall_prop.mp (by decide)
  obtain ⟨hamp, heq, hsep⟩ := hmark c hc
  refine Url.not_mem_intercalate hamp fun l hl => ?_
  obtain ⟨p, hp, rfl⟩ := List.mem_map.mp hl
  exact Url.not_mem_spell heq (not_mem_pins hsha hp hsep)

/-- **The branch is encoded so that it reads back, and a flakeref's query
is read as the branch and the commit it was built from.** -/
theorem flakeref_pinned :
    (∀ s, Percent.Encoded isUnreserved (encodePathSegment s).toList ∧
      Percent.decodeText (encodePathSegment s) = some s) ∧
    Function.Injective encodePathSegment ∧
    ∀ owner repo branch sha, isCommitSha sha = true →
      (∀ c ∈ ['?', '#', '&'], c ∉ owner.toList ∧ c ∉ repo.toList) →
      ∃ q, Url.query (buildFlakeref owner repo branch sha) = some q ∧
        Url.parameters q = [[some "ref", some branch], [some "rev", some sha]] := by
  refine ⟨fun s => ⟨encoded_encodePathSegment s, decodeText_encodePathSegment s⟩,
    encodePathSegment_injective, fun owner repo branch sha hsha hname => ?_⟩
  have hpre : ∀ c ∈ ['?', '#'],
      c ∉ ("git+https://github.com/" ++ owner ++ "/" ++ repo).toList := by
    intro c hc
    have hfixed : ∀ d ∈ ['?', '#'], d ∉ "git+https://github.com/".toList ∧ d ∉ "/".toList :=
      List.all_iff_forall_prop.mp (by decide)
    obtain ⟨hscheme, hslash⟩ := hfixed c hc
    obtain ⟨howner, hrepo⟩ := hname c (List.mem_append_left ['&'] hc)
    simp only [String.toList_append, List.mem_append, not_or]
    exact ⟨⟨⟨hscheme, howner⟩, hslash⟩, hrepo⟩
  refine ⟨List.intercalate ['&'] ((pins branch sha).map Url.spell),
    Url.query_append (buildFlakeref_toList owner repo branch sha) (hpre '?' (by simp))
      (hpre '#' (by simp)) (not_mem_query hsha (by simp)), ?_⟩
  have hsep : ∀ d ∈ ['&', '='], d ∈ separators := List.all_iff_forall_prop.mp (by decide)
  have hne : pins branch sha ≠ [] := List.cons_ne_nil _ _
  rw [Url.parameters_spell hne fun p hp c hc => not_mem_pins hsha hp (hsep c hc)]
  have href : Percent.decodeText "ref" = some "ref" ∧ Percent.decodeText "rev" = some "rev" := by
    decide
  simp only [pins, List.map_cons, List.map_nil, href.1, href.2, decodeText_encodePathSegment,
    decodeText_sha hsha]

theorem flakeref_pinned_release :
    ∃ q, Url.query (buildFlakeref "o" "r" "release/1.0"
        "0123456789abcdef0123456789abcdef01234567") = some q ∧
      Url.parameters q = [[some "ref", some "release/1.0"],
        [some "rev", some "0123456789abcdef0123456789abcdef01234567"]] :=
  flakeref_pinned.2.2 "o" "r" "release/1.0" "0123456789abcdef0123456789abcdef01234567"
    (by decide +kernel) (List.all_iff_forall_prop.mp (by decide))

end Warmer

end GhaConsumer
