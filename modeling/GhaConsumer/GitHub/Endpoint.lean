import GhaConsumer.Runner.Model
import GhaConsumer.Text.Url

/-!
# GitHub — which endpoint a request reaches

The URLs of the requests a job makes are spelled out from the two halves
of its repository's name. `split_full_name` lets through letters, digits
and `._-`, so that no half ends the path or a segment of it; but a half
that is `.` or `..` is a segment of its own kind, which the client takes
out before it asks. Those two aside the request reaches the endpoint it
names (`reaches_iff`).
-/

namespace GhaConsumer

namespace Endpoint

open Text

/-! ## URLs -/

/-- The URL of `generate_jit_config`. -/
def generateJitConfigUrl (api owner repo : String) : String :=
  api ++ "/repos/" ++ owner ++ "/" ++ repo ++ "/actions/runners/generate-jitconfig"

/-- The URL of `runner_status`. -/
def runnerStatusUrl (api owner repo : String) (runnerId : ℕ) : String :=
  api ++ "/repos/" ++ owner ++ "/" ++ repo ++ "/actions/runners/" ++ toString runnerId

/-- The URL of `delete_runner`. -/
def deleteRunnerUrl (api owner repo : String) (runnerId : ℕ) : String :=
  api ++ "/repos/" ++ owner ++ "/" ++ repo ++ "/actions/runners/" ++ toString runnerId

/-- The requests of `run_job`. -/
inductive Request where
  | generateJitConfig
  | runnerStatus (runnerId : ℕ)
  | deleteRunner (runnerId : ℕ)
  deriving DecidableEq

def Request.url (api owner repo : String) : Request → String
  | .generateJitConfig => generateJitConfigUrl api owner repo
  | .runnerStatus id => runnerStatusUrl api owner repo id
  | .deleteRunner id => deleteRunnerUrl api owner repo id

/-- What follows the repository in the path. -/
def Request.suffix : Request → List Url.Segment
  | .generateJitConfig =>
    ["actions".toList, "runners".toList, "generate-jitconfig".toList]
  | .runnerStatus id | .deleteRunner id =>
    ["actions".toList, "runners".toList, (toString id).toList]

/-- The path a request's URL spells out under its base: `repos`, the
owner, the repository and what follows, in that order. -/
def Request.spelled (owner repo : String) (q : Request) : List Url.Segment :=
  "repos".toList :: owner.toList :: repo.toList :: q.suffix

/-- An API's base URL, as far as the path is concerned: no query and no
fragment. -/
structure ApiBase where
  scheme : List Char
  authority : List Char
  path : List Char
  scheme_plain : ':' ∉ scheme
  authority_plain : ∀ c ∈ authority, Url.isSeparator c = false ∧ Url.endsPath c = false
  path_plain : ∀ c ∈ path, Url.endsPath c = false
  path_rooted : path = [] ∨ ∃ rest, path = '/' :: rest

namespace ApiBase

variable (b : ApiBase)

def text : String := String.ofList (b.scheme ++ "://".toList ++ b.authority ++ b.path)

/-- The directory the base stands for. -/
def dirs : List Url.Segment := Url.walk (b.path.splitOnP Url.isSeparator).tail

/-- `https://api.github.com`. -/
def github : ApiBase where
  scheme := "https".toList
  authority := "api.github.com".toList
  path := []
  scheme_plain := by decide
  authority_plain := List.all_iff_forall_prop.mp (by decide)
  path_plain := by simp
  path_rooted := .inl rfl

end ApiBase

/-- The request reaches the endpoint it names, once the client has taken
out the dot segments. -/
def Reaches (b : ApiBase) (owner repo : String) (q : Request) : Prop :=
  Url.segments (q.url b.text owner repo) = b.dirs ++ q.spelled owner repo

instance (b : ApiBase) (owner repo : String) (q : Request) :
    Decidable (Reaches b owner repo q) :=
  inferInstanceAs (Decidable (_ = _))

/-- Half of a repository's name that is not a dot segment. -/
def NoDots (half : String) : Prop := half ≠ "." ∧ half ≠ ".."

/-! ## Halves of names -/

variable {full owner repo : String}

theorem safe_of_splitFullName (h : splitFullName full = .ok (owner, repo)) :
    isSafeRepoSegment owner = true ∧ isSafeRepoSegment repo = true := by
  unfold splitFullName at h
  split at h
  · cases h
  · split at h
    · cases h
    · split at h
      · cases h
      · rename_i hsafe
        cases h
        simpa using hsafe

/-- The characters of a safe half. -/
def Safe (c : Char) : Prop := (c.isAlphanum || c == '.' || c == '_' || c == '-') = true

instance : DecidablePred Safe := fun c =>
  inferInstanceAs (Decidable ((c.isAlphanum || c == '.' || c == '_' || c == '-') = true))

theorem safe_of_half {half : String} (h : isSafeRepoSegment half = true) :
    ∀ c ∈ half.toList, Safe c :=
  List.all_eq_true.mp (Bool.and_eq_true_iff.mp h).2

theorem safe_of_number (n : ℕ) : ∀ c ∈ (toString n).toList, Safe c ∧ c ≠ '.' := by
  intro c hc
  rw [Nat.toString_eq_ofList_toDigits, String.toList_ofList] at hc
  have hdigit := Nat.isDigit_of_mem_toDigits (by decide) (by decide) hc
  constructor
  · simp [Safe, Char.isAlphanum, hdigit]
  · rintro rfl
    cases hdigit

/-- The characters that mean something in a URL's path. -/
def Meaningful (c : Char) : Prop := c = '%' ∨ Url.isSeparator c = true ∨ Url.endsPath c = true

/-- What a safe half is made of means nothing in a URL. -/
theorem not_meaningful_of_safe {c : Char} (h : Safe c) : ¬ Meaningful c := by
  have hno : ∀ d ∈ ['%', '/', '\\', '?', '#'], ¬ Safe d := List.all_iff_forall_prop.mp (by decide)
  have hne : ∀ d ∈ ['%', '/', '\\', '?', '#'], c ≠ d := by
    rintro d hd rfl
    exact hno c hd h
  rintro (h | h | h)
  · exact hne '%' (by simp) h
  · rcases Bool.or_eq_true_iff.mp h with h | h
    · exact hne '/' (by simp) (beq_iff_eq.mp h)
    · exact hne '\\' (by simp) (beq_iff_eq.mp h)
  · rcases Bool.or_eq_true_iff.mp h with h | h
    · exact hne '?' (by simp) (beq_iff_eq.mp h)
    · exact hne '#' (by simp) (beq_iff_eq.mp h)

/-- A text of one path segment. -/
structure OnePiece (s : Url.Segment) : Prop where
  separator : ∀ c ∈ s, Url.isSeparator c = false
  ends : ∀ c ∈ s, Url.endsPath c = false

variable {s : Url.Segment}

theorem onePiece_of_safe (h : ∀ c ∈ s, Safe c) : OnePiece s where
  separator c hc := eq_false_of_ne_true fun hsep =>
    not_meaningful_of_safe (h c hc) (.inr (.inl hsep))
  ends c hc := eq_false_of_ne_true fun hend =>
    not_meaningful_of_safe (h c hc) (.inr (.inr hend))

theorem plain_of_safe (h : ∀ c ∈ s, Safe c) : Url.Plain s ↔ s ≠ ['.'] ∧ s ≠ ['.', '.'] :=
  Url.plain_iff fun hmem => not_meaningful_of_safe (h _ hmem) (.inl rfl)

theorem noDots_iff {half : String} :
    NoDots half ↔ half.toList ≠ ['.'] ∧ half.toList ≠ ['.', '.'] := by
  have hdot : half.toList = ['.'] ↔ half = "." := by rw [← String.toList_inj]; rfl
  have hdots : half.toList = ['.', '.'] ↔ half = ".." := by rw [← String.toList_inj]; rfl
  rw [NoDots, Ne, Ne, Ne, Ne, hdot, hdots]

/-! ## Paths -/

/-- The text of segments, each after a slash. -/
def slashed (segs : List Url.Segment) : List Char := segs.flatMap fun s => '/' :: s

theorem splitOnP_slashed {segs : List Url.Segment} (h : ∀ s ∈ segs, OnePiece s) (pre : List Char) :
    (pre ++ slashed segs).splitOnP Url.isSeparator = pre.splitOnP Url.isSeparator ++ segs := by
  induction segs generalizing pre with
  | nil => simp [slashed]
  | cons s segs ih =>
    obtain ⟨hs, hsegs⟩ := List.forall_mem_cons.mp h
    have htext : pre ++ slashed (s :: segs) = pre ++ '/' :: (s ++ slashed segs) := by
      simp [slashed]
    rw [htext, List.splitOnP_append_cons _ _ (by decide), ih hsegs,
      List.splitOnP_eq_singleton hs.separator]
    rfl

theorem afterScheme_append {scheme : List Char} (h : ':' ∉ scheme) (rest : List Char) :
    Url.afterScheme (scheme ++ "://".toList ++ rest) = rest := by
  induction scheme with
  | nil => rfl
  | cons c scheme ih =>
    rw [List.mem_cons, not_or] at h
    obtain ⟨hc, hscheme⟩ := h
    have hstep : Url.afterScheme (c :: (scheme ++ "://".toList ++ rest)) =
        Url.afterScheme (scheme ++ "://".toList ++ rest) := by
      rw [Url.afterScheme]
      rintro rest' rfl
      exact absurd rfl hc
    exact hstep.trans (ih hscheme)

/-- The path of a URL under a base. -/
theorem path_base (b : ApiBase) {segs : List Url.Segment} (h : ∀ s ∈ segs, OnePiece s)
    (hne : segs ≠ []) {url : String} (hurl : url.toList = b.text.toList ++ slashed segs) :
    Url.path url = b.path ++ slashed segs := by
  have hrooted : ∃ rest, b.path ++ slashed segs = '/' :: rest := by
    obtain ⟨s, segs, rfl⟩ := List.exists_cons_of_ne_nil hne
    rcases b.path_rooted with hpath | ⟨rest, hpath⟩
    · exact ⟨_, by rw [hpath]; rfl⟩
    · exact ⟨_, by rw [hpath]; rfl⟩
  have hends : ∀ c ∈ b.path ++ slashed segs, Url.endsPath c = false := by
    intro c hc
    rcases List.mem_append.mp hc with hc | hc
    · exact b.path_plain c hc
    · obtain ⟨s, hs, hc⟩ := List.mem_flatMap.mp hc
      rcases List.mem_cons.mp hc with rfl | hc
      · rfl
      · exact (h s hs).ends c hc
  have hafter : Url.afterScheme url.toList = b.authority ++ (b.path ++ slashed segs) := by
    rw [hurl, ApiBase.text, String.toList_ofList, List.append_assoc, List.append_assoc,
      afterScheme_append b.scheme_plain]
  unfold Url.path
  rw [hafter, List.dropWhile_append_of_pos fun c hc => by simp [b.authority_plain c hc]]
  obtain ⟨rest, hrest⟩ := hrooted
  rw [hrest] at hends ⊢
  rw [List.dropWhile_cons_of_neg (by decide), List.takeWhile_eq_self_iff]
  intro c hc
  rw [hends c hc]
  rfl

/-- Where a URL under a base leads. -/
theorem segments_base (b : ApiBase) {segs : List Url.Segment} (h : ∀ s ∈ segs, OnePiece s)
    (hne : segs ≠ []) {url : String} (hurl : url.toList = b.text.toList ++ slashed segs) :
    Url.segments url =
      Url.removeDots ((b.path.splitOnP Url.isSeparator).tail ++ segs) := by
  rw [Url.segments, path_base b h hne hurl, splitOnP_slashed h,
    List.tail_append_of_ne_nil (List.splitOnP_ne_nil _ _)]

/-! ## Endpoints -/

theorem url_spelled (q : Request) (api owner repo : String) :
    (q.url api owner repo).toList = api.toList ++ slashed (q.spelled owner repo) := by
  cases q <;>
    simp [Request.url, generateJitConfigUrl, runnerStatusUrl, deleteRunnerUrl, Request.spelled,
      Request.suffix, slashed]

/-- What a request names itself is safe, and no dot segment. -/
theorem safe_of_suffix (q : Request) :
    ∀ s ∈ "repos".toList :: q.suffix, (∀ c ∈ s, Safe c) ∧ Url.Plain s := by
  have hsafe : ∀ s ∈ ["repos", "actions", "runners", "generate-jitconfig"],
      (s.toList.all fun c => Safe c) = true ∧ Url.Plain s.toList := by decide
  have hfixed : ∀ s ∈ ["repos", "actions", "runners", "generate-jitconfig"],
      (∀ c ∈ s.toList, Safe c) ∧ Url.Plain s.toList := fun s hs =>
    ⟨List.all_iff_forall_prop.mp (hsafe s hs).1, (hsafe s hs).2⟩
  have hnumber : ∀ n : ℕ, (∀ c ∈ (toString n).toList, Safe c) ∧ Url.Plain (toString n).toList := by
    intro n
    have hsafe : ∀ c ∈ (toString n).toList, Safe c := fun c hc => (safe_of_number n c hc).1
    have hdot : '.' ∉ (toString n).toList := fun hmem => (safe_of_number n '.' hmem).2 rfl
    refine ⟨hsafe, (plain_of_safe hsafe).mpr ⟨?_, ?_⟩⟩
    · intro heq
      exact hdot (heq ▸ List.mem_cons_self)
    · intro heq
      exact hdot (heq ▸ List.mem_cons_self)
  intro s hs
  cases q <;> simp only [Request.suffix, List.mem_cons, List.not_mem_nil, or_false] at hs
  case generateJitConfig =>
    rcases hs with rfl | rfl | rfl | rfl
    · exact hfixed "repos" (by simp)
    · exact hfixed "actions" (by simp)
    · exact hfixed "runners" (by simp)
    · exact hfixed "generate-jitconfig" (by simp)
  all_goals
    rcases hs with rfl | rfl | rfl | rfl
    · exact hfixed "repos" (by simp)
    · exact hfixed "actions" (by simp)
    · exact hfixed "runners" (by simp)
    · exact hnumber _

theorem mem_spelled {q : Request} :
    s ∈ q.spelled owner repo ↔
      s = owner.toList ∨ s = repo.toList ∨ s ∈ "repos".toList :: q.suffix := by
  simp only [Request.spelled, List.mem_cons]
  tauto

theorem safe_of_spelled (h : splitFullName full = .ok (owner, repo)) (q : Request) :
    ∀ s ∈ q.spelled owner repo, ∀ c ∈ s, Safe c := by
  obtain ⟨howner, hrepo⟩ := safe_of_splitFullName h
  intro s hs
  rcases mem_spelled.mp hs with rfl | rfl | hs
  · exact safe_of_half howner
  · exact safe_of_half hrepo
  · exact (safe_of_suffix q s hs).1

/-- The segments of a request's URL, before and after the dot segments
are taken out. -/
theorem segments_url (b : ApiBase) (h : splitFullName full = .ok (owner, repo)) (q : Request) :
    Url.segments (q.url b.text owner repo) =
      Url.removeDots ((b.path.splitOnP Url.isSeparator).tail ++ q.spelled owner repo) :=
  segments_base b (fun s hs => onePiece_of_safe (safe_of_spelled h q s hs)) (List.cons_ne_nil _ _)
    (url_spelled q _ _ _)

/-- **A request reaches the endpoint it names when and only when neither
half of the name is a dot segment.** -/
theorem reaches_iff (b : ApiBase) (h : splitFullName full = .ok (owner, repo)) (q : Request) :
    Reaches b owner repo q ↔ NoDots owner ∧ NoDots repo := by
  obtain ⟨howner, hrepo⟩ := safe_of_splitFullName h
  unfold Reaches
  rw [segments_url b h q, noDots_iff, noDots_iff, ← plain_of_safe (safe_of_half howner),
    ← plain_of_safe (safe_of_half hrepo)]
  constructor
  · intro hreaches
    have hplain : ∀ s ∈ q.spelled owner repo, Url.Plain s := fun s hs =>
      Url.mem_removeDots (hreaches ▸ List.mem_append_right _ hs)
    exact ⟨hplain _ (mem_spelled.mpr (.inl rfl)), hplain _ (mem_spelled.mpr (.inr (.inl rfl)))⟩
  · rintro ⟨howner, hrepo⟩
    refine Url.removeDots_append (fun s hs => ?_) (List.cons_ne_nil _ _)
    rcases mem_spelled.mp hs with rfl | rfl | hs
    · exact howner
    · exact hrepo
    · exact (safe_of_suffix q s hs).2

theorem reaches_iff_octo :
    splitFullName "octo/cat" = .ok ("octo", "cat") ∧
      (Reaches .github "octo" "cat" .generateJitConfig ↔ NoDots "octo" ∧ NoDots "cat") :=
  have h : splitFullName "octo/cat" = .ok ("octo", "cat") := by decide +kernel
  ⟨h, reaches_iff .github h .generateJitConfig⟩

/-- The name `../x` is accepted, and the request for its runner is asked
of the endpoint of no repository. -/
theorem not_reaches_dots :
    splitFullName "../x" = .ok ("..", "x") ∧
      Url.segments (generateJitConfigUrl ApiBase.github.text ".." "x") =
        ["x".toList, "actions".toList, "runners".toList, "generate-jitconfig".toList] ∧
      ¬ Reaches .github ".." "x" .generateJitConfig := by
  decide +kernel

end Endpoint

end GhaConsumer
