import GhaConsumer.Text.Lines
import GhaConsumer.Text.OsPath
import GhaConsumer.Gc.Image
import GhaConsumer.Host.Sample

/-!
# Warmer — the private nix.conf

What startup checks before the warmer may run, and the `nix.conf` each
warm writes for its children: eight settings, a line each. The keys are
checked to be one line where they are resolved. The substituters and the
state directory are not, and they are spliced in as they are.
-/

namespace GhaConsumer

namespace Conf

open Text

/-! ## The host -/

structure Metadata where
  isFile : Bool
  isDir : Bool
  isSymlink : Bool
  uid : UInt32
  mode : UInt32
  deriving DecidableEq

/-- What startup asks of the system, with the texts of its errors. -/
structure Host where
  euid : UInt32
  /-- An open that follows no symlink, and the metadata of what it opened. -/
  openNoFollow : OsPath → Except String (Except String Metadata)
  symlinkMetadata : OsPath → Except String Metadata
  canonicalize : OsPath → Except String OsPath
  readToString : OsPath → Except String String

/-- An error with its contexts, the outermost first. -/
abbrev Checked (α : Type) := Except (List String) α

def bailIf (c : Prop) [Decidable c] (message : String) : Checked Unit :=
  if c then .error [message] else .ok ()

def withContext {α : Type} (context : String) : Checked α → Checked α
  | .ok a => .ok a
  | .error e => .error (context :: e)

/-- An error of the system's, in a context. -/
def ask {α : Type} (context : String) : Except String α → Checked α
  | .ok a => .ok a
  | .error e => .error [context, e]

/-- `{:04o}`. -/
def octal (n : ℕ) : String :=
  let digits := Nat.toDigits 8 n
  String.ofList (List.replicate (4 - digits.length) '0' ++ digits)

variable (h : Host)

/-! ## Trusted paths -/

/-- `require_owned_by_us`. -/
def requireOwnedByUs (p : OsPath) (md : Metadata) : Checked Unit :=
  bailIf (md.uid ≠ h.euid)
    s!"{p.display} is owned by uid {md.uid} but this process runs as uid {h.euid}"

/-- `require_owned_by_us_or_root`. -/
def requireOwnedByUsOrRoot (p : OsPath) (md : Metadata) : Checked Unit :=
  bailIf (md.uid ≠ h.euid ∧ md.uid ≠ 0)
    s!"{p.display} is owned by uid {md.uid}; expected root (0) or this process's uid {h.euid}"

/-- `executable_by`. -/
def executableBy (ownerUid euid mode : UInt32) : Bool :=
  if ownerUid = euid then mode &&& 0o100 != 0 else mode &&& 0o001 != 0

/-- The metadata of a file that is opened without following symlinks. -/
def fstat (p : OsPath) : Checked Metadata := do
  let opened ← ask s!"open {p.display}" (h.openNoFollow p)
  ask s!"fstat {p.display}" opened

/-- `verify_trusted_path`. -/
def verifyTrustedPath (p : OsPath) (requireExec : Bool) : Checked Unit := do
  bailIf (!p.isAbsolute)
    s!"{p.display} must be an absolute path; bare names trigger PATH lookup"
  let md ← fstat h p
  bailIf (!md.isFile) s!"{p.display} is not a regular file"
  requireOwnedByUsOrRoot h p md
  bailIf (md.mode &&& 0o022 ≠ 0)
    (s!"{p.display} mode {octal (md.mode &&& 0o777).toNat} permits group/world write; a trusted " ++
      "target must be owner-writable only")
  bailIf (requireExec && !executableBy md.uid h.euid md.mode)
    (s!"{p.display} (mode {octal (md.mode &&& 0o777).toNat}, owner uid {md.uid}) is not " ++
      s!"executable by this daemon (uid {h.euid}); a trusted binary must be " ++
      "owner-executable if we own it, else world-executable")

/-- `verify_trusted_executable`. -/
def verifyTrustedExecutable (p : OsPath) : Checked Unit := verifyTrustedPath h p true

/-- `verify_trusted_file`. -/
def verifyTrustedFile (p : OsPath) : Checked Unit := verifyTrustedPath h p false

/-- `verify_trusted_dir`. -/
def verifyTrustedDir (p : OsPath) : Checked Unit := do
  bailIf (!p.isAbsolute) s!"{p.display} must be an absolute path"
  let md ← ask s!"stat {p.display}" (h.symlinkMetadata p)
  bailIf md.isSymlink s!"{p.display} is a symlink; point at the real directory"
  bailIf (!md.isDir) s!"{p.display} is not a directory"
  requireOwnedByUsOrRoot h p md
  bailIf (md.mode &&& 0o022 ≠ 0)
    (s!"{p.display} mode {octal (md.mode &&& 0o777).toNat} permits group/world write; a trusted " ++
      "directory must not be writable by group or other")

/-- `verify_owner_only_file`. -/
def verifyOwnerOnlyFile (p : OsPath) : Checked Unit := do
  bailIf (!p.isAbsolute)
    s!"{p.display} must be an absolute path; bare names trigger PATH lookup"
  let md ← fstat h p
  bailIf (!md.isFile) s!"{p.display} is not a regular file"
  requireOwnedByUs h p md
  bailIf (md.mode &&& 0o077 ≠ 0)
    (s!"{p.display} mode {octal (md.mode &&& 0o777).toNat} permits group/world access; a " ++
      "signing key must be owner-only (0600)")

/-- `reject_path_separator`. -/
def rejectPathSeparator (dir : OsPath) (name : String) : Checked Unit :=
  bailIf (':' ∈ dir.display.toList)
    (s!"{name} {dir.display} contains ':', which would split the warmer's child PATH into " ++
      "unvalidated search entries; use a colon-free path")

/-- `require_canonical_under`. -/
def requireCanonicalUnder (p base : OsPath) : Checked OsPath := do
  let real ← ask s!"canonicalize {p.display}" (h.canonicalize p)
  let realPrefix ← ask s!"canonicalize {base.display}" (h.canonicalize base)
  bailIf (!real.startsWith realPrefix)
    s!"{p.display} resolves to {real.display}, which is not under {realPrefix.display}"
  return real

/-- `validate_cache_key_name`. -/
def validateCacheKeyName (C : Codec) (name : String) : Checked Unit :=
  bailIf (name = "" ∨ "..".toList <:+: name.toList ∨
      ¬ (bytes name).all fun b => (48 ≤ b.toNat && b.toNat ≤ 57) || (65 ≤ b.toNat && b.toNat ≤ 90) ||
        (97 ≤ b.toNat && b.toNat ≤ 122) || b == 46 || b == 95 || b == 45)
    (s!"GHA_CACHE_KEY_NAME {C.debugStr name} must be a non-empty [A-Za-z0-9._-] name with no " ++
      "'..'")

/-! ## Startup -/

/-- What the configuration says of the warmer. -/
structure Settings where
  cacheWarmEnabled : Bool
  stateDir : OsPath
  nixBin : Option OsPath
  warmCacheBase : Option OsPath
  macCacheDir : Option OsPath
  warmToolsDir : Option OsPath
  warmCacheKeyName : String
  warmMaxConcurrency : ℕ
  warmCoalesceTtlSecs : UInt64
  warmTimeoutSecs : UInt64
  warmSubstituters : String
  warmTrustedPublicKeys : String
  deriving DecidableEq

/-- An option that must be set. -/
def require (name : String) : Option OsPath → Checked OsPath
  | some p => .ok p
  | none => .error [s!"{name} is required when CACHE_WARM_ENABLED"]

/-- What `validate_cache_warm` checks of the tools the warmer runs: the
`nix` it pins. -/
def validateNixBin (nixBin : OsPath) : Checked OsPath := do
  withContext s!"NIX_BIN {nixBin.display}" (verifyTrustedExecutable h nixBin)
  let nixReal ← withContext
    (s!"NIX_BIN {nixBin.display} must resolve to a path under /nix/store (content-addressed, " ++
      "immutable); the warmer pins this binary's directory onto its child PATH " ++
      "and requires an unswappable store path")
    (requireCanonicalUnder h nixBin (.ofString "/nix/store"))
  match nixReal.parent with
  | some binDir => rejectPathSeparator binDir "NIX_BIN directory"
  | none => pure ()
  return nixReal

/-- The cache base and the two keys in it. -/
def validateCacheBase (C : Codec) (cacheBase : OsPath) (keyName : String) : Checked Unit := do
  withContext s!"WARM_CACHE_BASE {cacheBase.display}" (verifyTrustedDir h cacheBase)
  validateCacheKeyName C keyName
  let keysDir := cacheBase.join "keys"
  withContext s!"cache keys dir {keysDir.display}" (verifyTrustedDir h keysDir)
  let pubkey := keysDir.join s!"{keyName}.public"
  withContext s!"cache public key {pubkey.display}" (verifyTrustedFile h pubkey)
  let secret := keysDir.join s!"{keyName}.secret"
  withContext s!"cache signing key {secret.display}" (verifyOwnerOnlyFile h secret)

/-- The scripts, and what they source. -/
def validateScripts (macCacheDir : OsPath) : Checked Unit := do
  withContext s!"MAC_CACHE_DIR {macCacheDir.display}" (verifyTrustedDir h macCacheDir)
  ["warm-cache.sh", "warm-flake-inputs.sh"].forM fun script => do
    let p := macCacheDir.join script
    withContext s!"warm script {p.display}" (verifyTrustedExecutable h p)
  let common := macCacheDir.join "common.sh"
  withContext s!"common.sh {common.display}" (verifyTrustedFile h common)

/-- The directory of `jq`. -/
def validateToolsDir (toolsDir : OsPath) : Checked Unit := do
  withContext s!"WARM_TOOLS_DIR {toolsDir.display}" (verifyTrustedDir h toolsDir)
  rejectPathSeparator toolsDir "WARM_TOOLS_DIR"
  let jq := toolsDir.join "jq"
  withContext s!"jq {jq.display}" (verifyTrustedExecutable h jq)

/-- `Config::validate_cache_warm`: the settings with `nix` where it really
is. -/
def validateCacheWarm (C : Codec) (c : Settings) : Checked Settings :=
  if !c.cacheWarmEnabled then .ok c
  else do
    bailIf (c.warmMaxConcurrency = 0) "WARM_MAX_CONCURRENCY must be >= 1 when CACHE_WARM_ENABLED"
    bailIf (c.warmTimeoutSecs = 0) "WARM_TIMEOUT_SECS must be >= 1 when CACHE_WARM_ENABLED"
    bailIf (!c.stateDir.isAbsolute)
      ("STATE_DIR must be an absolute path when CACHE_WARM_ENABLED (it is interpolated " ++
        "into the warmer's private nix.conf netrc-file, which nix rejects if relative)")
    let nixBin ← require "NIX_BIN" c.nixBin
    let cacheBase ← require "WARM_CACHE_BASE" c.warmCacheBase
    let macCacheDir ← require "MAC_CACHE_DIR" c.macCacheDir
    let toolsDir ← require "WARM_TOOLS_DIR" c.warmToolsDir
    let nixReal ← validateNixBin h nixBin
    validateCacheBase h C cacheBase c.warmCacheKeyName
    validateScripts h macCacheDir
    validateToolsDir h toolsDir
    return { c with nixBin := some nixReal }

/-- The well-known key of `cache.nixos.org`. -/
def cacheNixosOrgKey : String := "cache.nixos.org-1:6NCHdD59X431o0gWypbMrAURkbJ16ZPMQFGspcDShjY="

/-- The keys that were set or, without any, the cache's and the well-known
one. -/
def trustedPublicKeys (configured : String) (macPubkeyFile : OsPath) : Checked String :=
  if trim configured.toList ≠ [] then .ok (String.ofList (trim configured.toList))
  else do
    let raw ← ask s!"read cache public key {macPubkeyFile.display}" (h.readToString macPubkeyFile)
    let mac := trim raw.toList
    bailIf (mac = []) s!"cache public key {macPubkeyFile.display} is empty"
    return String.ofList mac ++ " " ++ cacheNixosOrgKey

/-- `resolve_trusted_public_keys`. -/
def resolveTrustedPublicKeys (configured : String) (macPubkeyFile : OsPath) : Checked String := do
  let resolved ← trustedPublicKeys h configured macPubkeyFile
  bailIf ('\n' ∈ resolved.toList ∨ '\r' ∈ resolved.toList)
    ("trusted-public-keys contains a newline; a cache public key must be a single " ++
      s!"line (`name:base64`). Check {macPubkeyFile.display} (or the WARM_TRUSTED_PUBLIC_KEYS " ++
      "override).")
  return resolved

/-- A warmer, less the client and the repositories it is for. -/
structure Warmer where
  coalesceTtlSecs : UInt64
  permits : ℕ
  nixBin : OsPath
  warmFlakeInputsSh : OsPath
  warmCacheSh : OsPath
  cacheBase : OsPath
  keyName : String
  toolsDir : OsPath
  stateDir : OsPath
  substituters : String
  trustedPublicKeys : String
  timeoutSecs : UInt64
  deriving DecidableEq

/-- `Warmer::new`. -/
def Warmer.new (c : Settings) : Checked Warmer := do
  let nixBin ← require "NIX_BIN" c.nixBin
  let macCacheDir ← require "MAC_CACHE_DIR" c.macCacheDir
  let cacheBase ← require "WARM_CACHE_BASE" c.warmCacheBase
  let toolsDir ← require "WARM_TOOLS_DIR" c.warmToolsDir
  let pubkey := (cacheBase.join "keys").join s!"{c.warmCacheKeyName}.public"
  let trustedPublicKeys ← resolveTrustedPublicKeys h c.warmTrustedPublicKeys pubkey
  return {
    coalesceTtlSecs := c.warmCoalesceTtlSecs
    permits := max c.warmMaxConcurrency 1
    nixBin := nixBin
    warmFlakeInputsSh := macCacheDir.join "warm-flake-inputs.sh"
    warmCacheSh := macCacheDir.join "warm-cache.sh"
    cacheBase := cacheBase
    keyName := c.warmCacheKeyName
    toolsDir := toolsDir
    stateDir := c.stateDir
    substituters := c.warmSubstituters
    trustedPublicKeys := trustedPublicKeys
    timeoutSecs := max c.warmTimeoutSecs 1 }

/-! ## The file -/

/-- A character of a name that is safe in a directory's, or `_`. -/
def slugChar (c : Char) : Char :=
  if c.isAlphanum || c == '.' || c == '_' || c == '-' then c else '_'

/-- `warm_slug`. -/
def warmSlug (owner repo sha : String) (attempt : UInt64) : String :=
  let safe (s : String) : String := String.ofList (s.toList.map slugChar)
  safe owner ++ "-" ++ safe repo ++ "-" ++ safe sha ++ "-" ++ toString attempt.toNat

/-- `nix_conf_contents`. -/
def nixConfContents (netrcPath : OsPath) (substituters trustedPublicKeys : String) : String :=
  "netrc-file = " ++ netrcPath.display ++ "\n" ++
  "accept-flake-config = false\n" ++
  "flake-registry = \n" ++
  "allow-import-from-derivation = false\n" ++
  "require-sigs = true\n" ++
  "substituters = " ++ substituters ++ "\n" ++
  "trusted-public-keys = " ++ trustedPublicKeys ++ "\n" ++
  "experimental-features = nix-command flakes\n"

/-- Where `run_warm` puts an attempt's netrc. -/
def Warmer.netrcPath (w : Warmer) (slug : String) : OsPath :=
  ((w.stateDir.join "warm").join slug).join "netrc"

/-- The `nix.conf` of an attempt. -/
def Warmer.nixConf (w : Warmer) (slug : String) : String :=
  nixConfContents (w.netrcPath slug) w.substituters w.trustedPublicKeys

/-! ## What startup accepts -/

/-- Startup accepts the settings, and has the warmer it built from them.
The keys are read after the checks, from a host that may have changed. -/
def Accepts (C : Codec) (h h' : Host) (c : Settings) (w : Warmer) : Prop :=
  ∃ c', validateCacheWarm h C c = .ok c' ∧ Warmer.new h' c' = .ok w

variable {h} {h' : Host} {C : Codec} {c c' : Settings} {w : Warmer}

theorem exists_of_bind {α β : Type} {x : Checked α} {f : α → Checked β} {b : β}
    (hb : (x >>= f) = .ok b) : ∃ a, x = .ok a ∧ f a = .ok b := by
  cases x with
  | error e => cases hb
  | ok a => exact ⟨a, rfl, hb⟩

theorem bailIf_ok {p : Prop} [Decidable p] {message : String} {u : Unit}
    (hok : bailIf p message = .ok u) : ¬ p := by
  unfold bailIf at hok
  split at hok
  · cases hok
  · assumption

/-- The checks change nothing but where `nix` is. -/
theorem validateCacheWarm_eq (hok : validateCacheWarm h C c = .ok c') :
    ∃ nixBin, c' = { c with nixBin } := by
  unfold validateCacheWarm at hok
  split at hok
  · cases hok
    exact ⟨c.nixBin, rfl⟩
  · iterate 11 obtain ⟨_, -, hok⟩ := exists_of_bind hok
    cases hok
    exact ⟨_, rfl⟩

/-- The keys are one line. -/
theorem resolveTrustedPublicKeys_ok {configured keys : String} {file : OsPath}
    (hok : resolveTrustedPublicKeys h configured file = .ok keys) : '\n' ∉ keys.toList := by
  obtain ⟨resolved, -, hok⟩ := exists_of_bind hok
  obtain ⟨u, hcheck, hok⟩ := exists_of_bind hok
  cases hok
  exact fun hmem => bailIf_ok hcheck (.inl hmem)

/-- A warmer has the substituters and the state directory as they were
given, and keys on one line. -/
theorem kept_of_accepts (hw : Accepts C h h' c w) :
    w.stateDir = c.stateDir ∧ w.substituters = c.warmSubstituters ∧
      '\n' ∉ w.trustedPublicKeys.toList := by
  obtain ⟨c', hvalid, hnew⟩ := hw
  obtain ⟨nixBin, rfl⟩ := validateCacheWarm_eq hvalid
  unfold Warmer.new at hnew
  iterate 4 obtain ⟨_, -, hnew⟩ := exists_of_bind hnew
  obtain ⟨keys, hkeys, hnew⟩ := exists_of_bind hnew
  cases hnew
  exact ⟨rfl, rfl, resolveTrustedPublicKeys_ok hkeys⟩

/-! ## The lines -/

/-- The eight settings, with the values they are meant to have. -/
def pinned (netrc : OsPath) (substituters trustedPublicKeys : String) :
    List (String × List UInt8) :=
  [("netrc-file", netrc), ("accept-flake-config", bytes "false"), ("flake-registry", []),
    ("allow-import-from-derivation", bytes "false"), ("require-sigs", bytes "true"),
    ("substituters", bytes substituters), ("trusted-public-keys", bytes trustedPublicKeys),
    ("experimental-features", bytes "nix-command flakes")]

/-- `name = value`. -/
def line (setting : String × List UInt8) : List UInt8 :=
  bytes setting.1 ++ bytes " = " ++ setting.2

/-- The byte a line ends with. -/
def newline : UInt8 := 10

/-- Split at its line ends, the file is the eight settings, a line each,
and nothing after. -/
def Hardened (w : Warmer) (slug : String) : Prop :=
  (bytes (w.nixConf slug)).splitOn newline =
    (pinned (w.netrcPath slug) w.substituters w.trustedPublicKeys).map line ++ [[]]

instance (w : Warmer) (slug : String) : Decidable (Hardened w slug) :=
  inferInstanceAs (Decidable (_ = _))

variable {netrc : OsPath} {substituters keys : String}

/-- The file is lines of the settings, with the netrc's path as it is
printed. -/
theorem bytes_nixConfContents :
    bytes (nixConfContents netrc substituters keys) =
      unlines newline ((pinned (bytes netrc.display) substituters keys).map line) := by
  have hnames : "netrc-file = " = "netrc-file" ++ " = " ∧
      "accept-flake-config = false\n" = "accept-flake-config" ++ " = " ++ "false" ++ "\n" ∧
      "flake-registry = \n" = "flake-registry" ++ " = " ++ "" ++ "\n" ∧
      "allow-import-from-derivation = false\n" =
        "allow-import-from-derivation" ++ " = " ++ "false" ++ "\n" ∧
      "require-sigs = true\n" = "require-sigs" ++ " = " ++ "true" ++ "\n" ∧
      "substituters = " = "substituters" ++ " = " ∧
      "trusted-public-keys = " = "trusted-public-keys" ++ " = " ∧
      "experimental-features = nix-command flakes\n" =
        "experimental-features" ++ " = " ++ "nix-command flakes" ++ "\n" := by decide
  obtain ⟨hnetrc, haccept, hregistry, hifd, hsigs, hsubs, hkeys, hfeatures⟩ := hnames
  have hempty : bytes "" = [] := by decide
  have hend : bytes "\n" = [newline] := by decide
  unfold nixConfContents
  rw [hnetrc, haccept, hregistry, hifd, hsigs, hsubs, hkeys, hfeatures]
  simp only [pinned, unlines, line, List.map_cons, List.map_nil, List.flatMap_cons,
    List.flatMap_nil, bytes_append, hend, hempty, List.append_assoc, List.append_nil]

/-- Only the first of the lines has the netrc's path. -/
theorem unlines_pinned_inj {netrc netrc' : OsPath} :
    unlines newline ((pinned netrc substituters keys).map line) =
      unlines newline ((pinned netrc' substituters keys).map line) ↔ netrc = netrc' := by
  constructor
  · intro h
    simp only [pinned, unlines, line, List.map_cons, List.flatMap_cons, List.append_assoc] at h
    exact List.append_cancel_right (List.append_cancel_left (List.append_cancel_left h))
  · rintro rfl
    rfl

theorem newline_not_mem_bytes {s : String} : newline ∉ bytes s ↔ '\n' ∉ s.toList :=
  not_congr (mem_bytes_iff (c := '\n') (by decide))

/-- A line ends early where a value that is spliced in has a line end. -/
theorem newline_not_mem_pinned :
    (∀ l ∈ (pinned netrc substituters keys).map line, newline ∉ l) ↔
      newline ∉ netrc ∧ '\n' ∉ substituters.toList ∧ '\n' ∉ keys.toList := by
  have hfixed : ∀ s ∈ ["netrc-file", "accept-flake-config", "flake-registry",
      "allow-import-from-derivation", "require-sigs", "substituters", "trusted-public-keys",
      "experimental-features", " = ", "false", "true", "nix-command flakes"],
      newline ∉ bytes s := by decide
  simp only [List.forall_mem_cons] at hfixed
  simp only [pinned, line, List.map_cons, List.map_nil, List.forall_mem_cons, List.mem_append,
    not_or, hfixed, newline_not_mem_bytes]
  simp

/-- The file is as it is meant to be when what is spliced in is printed as
it is, and ends no line. -/
theorem splitOn_nixConfContents_iff :
    (bytes (nixConfContents netrc substituters keys)).splitOn newline =
        (pinned netrc substituters keys).map line ++ [[]] ↔
      bytes netrc.display = netrc ∧
        newline ∉ netrc ∧ '\n' ∉ substituters.toList ∧ '\n' ∉ keys.toList := by
  rw [splitOn_eq_iff, bytes_nixConfContents, unlines_pinned_inj, newline_not_mem_pinned]

/-! ## The path -/

/-- Text that neither ends a line nor is the end of a path. -/
structure Inner (cs : List Char) : Prop where
  ne_nil : cs ≠ []
  ascii : ∀ c ∈ cs, Ascii c
  newline : '\n' ∉ cs

theorem Inner.append {cs ds : List Char} (hc : Inner cs) (hd : Inner ds) : Inner (cs ++ ds) where
  ne_nil := List.append_ne_nil_of_left_ne_nil hc.ne_nil ds
  ascii := by
    intro c hmem
    rcases List.mem_append.mp hmem with hmem | hmem
    · exact hc.ascii c hmem
    · exact hd.ascii c hmem
  newline := by
    rw [List.mem_append, not_or]
    exact ⟨hc.newline, hd.newline⟩

/-- A name is joined to a path after a separator, if it needs one. -/
theorem exists_join (p : OsPath) {name : String} (hname : Inner name.toList)
    (hrel : (OsPath.ofString name).isAbsolute = false) :
    ∃ cs, Inner cs ∧ p.join name = p ++ asciiBytes cs := by
  have hbytes : OsPath.ofString name = asciiBytes name.toList := by
    rw [OsPath.ofString, ← bytes_ofList hname.ascii, String.ofList_toList]
  unfold OsPath.join
  rw [if_neg (by rw [hrel]; exact Bool.false_ne_true), hbytes]
  split
  · exact ⟨name.toList, hname, rfl⟩
  · have hslash : Inner ['/'] :=
      ⟨by decide, List.forall_mem_singleton.mpr (by decide), by decide⟩
    exact ⟨['/'] ++ name.toList, hslash.append hname, rfl⟩

/-- A character that may stand in a directory's name. -/
structure InName (c : Char) : Prop where
  ascii : Ascii c
  newline : c ≠ '\n'
  slash : c ≠ '/'

theorem inName_of_isAlphanum {c : Char} (h : c.isAlphanum = true) : InName c := by
  have hrange : c.toNat < 128 ∧ 48 ≤ c.toNat := by
    have h : ((decide ('A'.val ≤ c.val ∧ c.val ≤ 'Z'.val) ||
        decide ('a'.val ≤ c.val) && decide (c.val ≤ 'z'.val)) ||
        decide ('0'.val ≤ c.val) && decide (c.val ≤ '9'.val)) = true := h
    simp only [Bool.or_eq_true, Bool.and_eq_true, decide_eq_true_eq, UInt32.le_iff_toNat_le] at h
    have hval : c.val.toNat = c.toNat := rfl
    have hbounds : ('A'.val.toNat = 65 ∧ 'Z'.val.toNat = 90) ∧
        ('a'.val.toNat = 97 ∧ 'z'.val.toNat = 122) ∧ '0'.val.toNat = 48 ∧ '9'.val.toNat = 57 := by
      decide
    omega
  have hne : ∀ d : Char, d.toNat < 48 → c ≠ d := by
    rintro d hd rfl
    omega
  exact ⟨hrange.1, hne '\n' (by decide), hne '/' (by decide)⟩

theorem inName_slugChar (c : Char) : InName (slugChar c) := by
  have hmarks : ∀ d ∈ ['.', '_', '-'], Ascii d ∧ d ≠ '\n' ∧ d ≠ '/' :=
    List.all_iff_forall_prop.mp (by decide)
  have hmark : ∀ d ∈ ['.', '_', '-'], InName d := fun d hd =>
    ⟨(hmarks d hd).1, (hmarks d hd).2.1, (hmarks d hd).2.2⟩
  unfold slugChar
  split
  · rename_i hsafe
    simp only [Bool.or_eq_true, beq_iff_eq] at hsafe
    rcases hsafe with ((h | rfl) | rfl) | rfl
    · exact inName_of_isAlphanum h
    · exact hmark '.' (by simp)
    · exact hmark '_' (by simp)
    · exact hmark '-' (by simp)
  · exact hmark '_' (by simp)

theorem inName_warmSlug (owner repo sha : String) (attempt : UInt64) :
    (∀ c ∈ (warmSlug owner repo sha attempt).toList, InName c) ∧
      (warmSlug owner repo sha attempt).toList ≠ [] := by
  have hdash : ∀ c ∈ "-".toList, InName c := by
    have hmark := inName_slugChar '-'
    simpa [slugChar] using hmark
  have hsafe : ∀ s : String, ∀ c ∈ (String.ofList (s.toList.map slugChar)).toList, InName c := by
    intro s c hc
    rw [String.toList_ofList] at hc
    obtain ⟨d, -, rfl⟩ := List.mem_map.mp hc
    exact inName_slugChar d
  have hnumber : ∀ c ∈ (toString attempt.toNat).toList, InName c := by
    intro c hc
    rw [Nat.toString_eq_ofList_toDigits, String.toList_ofList] at hc
    have hdigit := Nat.isDigit_of_mem_toDigits (by decide) (by decide) hc
    exact inName_of_isAlphanum (by rw [Char.isAlphanum, hdigit, Bool.or_true])
  unfold warmSlug
  simp only [String.toList_append]
  constructor
  · simp only [List.forall_mem_append]
    exact ⟨⟨⟨⟨⟨⟨hsafe owner, hdash⟩, hsafe repo⟩, hdash⟩, hsafe sha⟩, hdash⟩, hnumber⟩
  · simp

/-- A name of such characters is one component. -/
theorem inner_of_inName {name : String} (hname : ∀ c ∈ name.toList, InName c)
    (hne : name.toList ≠ []) :
    Inner name.toList ∧ (OsPath.ofString name).isAbsolute = false := by
  refine ⟨⟨hne, fun c hc => (hname c hc).ascii, fun hmem => (hname _ hmem).newline rfl⟩, ?_⟩
  have hslash : OsPath.sep ∉ bytes name := fun hmem =>
    (hname '/' ((mem_bytes_iff (c := '/') (by decide)).mp hmem)).slash rfl
  unfold OsPath.isAbsolute OsPath.ofString
  rw [beq_eq_false_iff_ne]
  intro hhead
  exact hslash (List.mem_of_mem_head? hhead)

/-- The netrc is under the state directory, at a path that adds nothing a
line could end at. -/
theorem exists_netrcPath (w : Warmer) (owner repo sha : String) (attempt : UInt64) :
    ∃ cs, Inner cs ∧
      w.netrcPath (warmSlug owner repo sha attempt) = w.stateDir ++ asciiBytes cs := by
  have hfixed : ∀ name ∈ ["warm", "netrc"], Inner name.toList ∧
      (OsPath.ofString name).isAbsolute = false := by
    intro name hmem
    have hall : ∀ name ∈ ["warm", "netrc"], name.toList.all Char.isAlphanum = true := by decide
    have hname : ∀ c ∈ name.toList, c.isAlphanum = true := List.all_eq_true.mp (hall name hmem)
    refine inner_of_inName (fun c hc => inName_of_isAlphanum (hname c hc)) ?_
    rcases List.mem_cons.mp hmem with rfl | hmem
    · decide
    · rw [List.mem_singleton.mp hmem]
      decide
  obtain ⟨hslug, hne⟩ := inName_warmSlug owner repo sha attempt
  obtain ⟨hinner, hrel⟩ := inner_of_inName hslug hne
  obtain ⟨warm, hwarm, hjoin⟩ := exists_join w.stateDir (hfixed "warm" (by simp)).1
    (hfixed "warm" (by simp)).2
  obtain ⟨dir, hdir, hjoin'⟩ := exists_join (w.stateDir.join "warm") hinner hrel
  obtain ⟨file, hfile, hjoin''⟩ := exists_join
    ((w.stateDir.join "warm").join (warmSlug owner repo sha attempt))
    (hfixed "netrc" (by simp)).1 (hfixed "netrc" (by simp)).2
  refine ⟨warm ++ dir ++ file, (hwarm.append hdir).append hfile, ?_⟩
  unfold Warmer.netrcPath
  rw [hjoin'', hjoin', hjoin]
  simp only [asciiBytes_append, List.append_assoc]

/-- **The file is the eight settings and nothing else when and only when
neither the substituters nor the state directory has a line end, and the
state directory is text.** -/
theorem hardened_iff (hw : Accepts C h h' c w) (owner repo sha : String) (attempt : UInt64) :
    Hardened w (warmSlug owner repo sha attempt) ↔
      '\n' ∉ c.warmSubstituters.toList ∧ newline ∉ c.stateDir ∧ (ofBytes? c.stateDir).isSome := by
  obtain ⟨hdir, hsubs, hkeys⟩ := kept_of_accepts hw
  obtain ⟨cs, hcs, hpath⟩ := exists_netrcPath w owner repo sha attempt
  rw [hdir] at hpath
  have hnewline : newline ∉ asciiBytes cs := by
    rw [← bytes_ofList hcs.ascii, newline_not_mem_bytes, String.toList_ofList]
    exact hcs.newline
  have hnetrc : newline ∉ w.netrcPath (warmSlug owner repo sha attempt) ↔
      newline ∉ c.stateDir := by
    rw [hpath, List.mem_append, not_or]
    exact and_iff_left hnewline
  have hprinted : bytes (w.netrcPath (warmSlug owner repo sha attempt)).display =
      w.netrcPath (warmSlug owner repo sha attempt) ↔ (ofBytes? c.stateDir).isSome := by
    rw [OsPath.display, bytes_lossy_iff, hpath, isSome_append_ascii hcs.ne_nil hcs.ascii]
  have hlines : Hardened w (warmSlug owner repo sha attempt) ↔ _ := splitOn_nixConfContents_iff
  rw [hlines, hprinted, hnetrc, hsubs]
  exact ⟨fun ⟨htext, hline, hsubs, _⟩ => ⟨hsubs, hline, htext⟩,
    fun ⟨hsubs, hline, htext⟩ => ⟨htext, hline, hsubs, hkeys⟩⟩

/-- A host where every file is ours alone. -/
def sampleHost : Host where
  euid := 501
  openNoFollow _ := .ok (.ok ⟨true, false, false, 501, 0o700⟩)
  symlinkMetadata _ := .ok ⟨false, true, false, 501, 0o755⟩
  canonicalize p := .ok p
  readToString _ := .ok "mac-cache-1:AAAA\n"

def sampleSettings (substituters : String) : Settings where
  cacheWarmEnabled := true
  stateDir := .ofString "/state"
  nixBin := some (.ofString "/nix/store/x-nix/bin/nix")
  warmCacheBase := some (.ofString "/cache")
  macCacheDir := some (.ofString "/mac-cache")
  warmToolsDir := some (.ofString "/tools")
  warmCacheKeyName := "mac-cache-1"
  warmMaxConcurrency := 1
  warmCoalesceTtlSecs := 600
  warmTimeoutSecs := 1800
  warmSubstituters := substituters
  warmTrustedPublicKeys := ""

def sampleWarmer (substituters : String) : Warmer where
  coalesceTtlSecs := 600
  permits := 1
  nixBin := .ofString "/nix/store/x-nix/bin/nix"
  warmFlakeInputsSh := .ofString "/mac-cache/warm-flake-inputs.sh"
  warmCacheSh := .ofString "/mac-cache/warm-cache.sh"
  cacheBase := .ofString "/cache"
  keyName := "mac-cache-1"
  toolsDir := .ofString "/tools"
  stateDir := .ofString "/state"
  substituters := substituters
  trustedPublicKeys := "mac-cache-1:AAAA " ++ cacheNixosOrgKey
  timeoutSecs := 1800

theorem hardened_iff_default :
    Accepts sampleCodec sampleHost sampleHost (sampleSettings "https://cache.nixos.org")
        (sampleWarmer "https://cache.nixos.org") ∧
      (Hardened (sampleWarmer "https://cache.nixos.org") (warmSlug "o" "r" "0123" 7) ↔
        '\n' ∉ "https://cache.nixos.org".toList ∧ newline ∉ OsPath.ofString "/state" ∧
          (ofBytes? (OsPath.ofString "/state")).isSome) :=
  have haccepts : Accepts sampleCodec sampleHost sampleHost
      (sampleSettings "https://cache.nixos.org") (sampleWarmer "https://cache.nixos.org") :=
    ⟨sampleSettings "https://cache.nixos.org", by decide +kernel, by decide +kernel⟩
  ⟨haccepts, hardened_iff haccepts "o" "r" "0123" 7⟩

/-- Substituters on two lines are accepted, and the second line sets
`require-sigs` once more. -/
theorem not_hardened_two_lines :
    Accepts sampleCodec sampleHost sampleHost (sampleSettings "x\nrequire-sigs = false")
        (sampleWarmer "x\nrequire-sigs = false") ∧
      bytes "require-sigs = false" ∈
        (bytes ((sampleWarmer "x\nrequire-sigs = false").nixConf
          (warmSlug "o" "r" "0123" 7))).splitOn newline ∧
      ¬ Hardened (sampleWarmer "x\nrequire-sigs = false") (warmSlug "o" "r" "0123" 7) :=
  ⟨⟨sampleSettings "x\nrequire-sigs = false", by decide +kernel, by decide +kernel⟩,
    by decide +kernel, by decide +kernel⟩

end Conf

end GhaConsumer
