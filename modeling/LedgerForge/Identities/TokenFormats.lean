import LedgerForge.Library.Framing
import LedgerForge.Library.Results

/-! # Token formats

A standard token is an encrypted text in base64. A token that keeps the format of its text shows a masked copy of it in front
of the standard token, set off by colons, and is told by its first characters.
-/

namespace LedgerForge.Identities

open Framing List Char

structure Gcm where
  encrypt : Bytes → List Char → Bytes
  decrypt : Bytes → Bytes → Except String (List Char)

/-- What the libraries compute: the keyed hash, the cipher of a key and base64, whose alphabet has no colon. -/
structure TokenLibraries where
  hmac : Bytes → List Char → Fin 32 → UInt8
  newGCM : Bytes → Except String Gcm
  encode : Bytes → List Char
  decode : List Char → Except String Bytes
  newGCM_ok : ∀ key, key.length = 32 → ∃ gcm, newGCM key = .ok gcm ∧
    ∀ nonce value, nonce.length = 12 → gcm.decrypt nonce (gcm.encrypt nonce value) = .ok value
  decode_encode : ∀ data, decode (encode data) = .ok data
  colon_notMem_encode : ∀ data, ':' ∉ encode data
  decode_colon : ∀ text data, ':' ∈ text → decode text ≠ .ok data

inductive TokenizationMode
  | standard
  | formatPreserving
deriving DecidableEq

def formatRune (seedByte : UInt8) (char : Char) : Char :=
  if 'A' ≤ char ∧ char ≤ 'Z' then ofNat ('A'.toNat+seedByte.toNat % 26)
  else if 'a' ≤ char ∧ char ≤ 'z' then ofNat ('a'.toNat+seedByte.toNat % 26)
  else if '0' ≤ char ∧ char ≤ '9' then ofNat ('0'.toNat+seedByte.toNat % 10)
  else char

def generateTokenWithFormat (seed : Fin 32 → UInt8) (originalValue : List Char) : List Char :=
  originalValue.mapIdx fun i char => formatRune (seed (Fin.ofNat 32 i)) char

/-- At most so many parts of a text, the last one unsplit. -/
def splitN (sep : Char) : ℕ → List Char → List (List Char)
  | 0, _ => []
  | 1, text => [text]
  | n+2, text => match text.dropWhile (· ≠ sep) with
    | [] => [text]
    | _ :: rest => text.takeWhile (· ≠ sep) :: splitN sep (n+1) rest

variable (lib : TokenLibraries) (key : Bytes) (nonce : { b : Bytes // b.length = 12 }) (value token : List Char)

def ensureEnabled : Except String Unit :=
  if key.length = 32 then .ok ()
  else .error "tokenization is disabled: LEDGERFORGE_TOKENIZATION_SECRET or tokenization_secret in your ledgerforge.json file must be set to a 32-byte value"

def tokenize : Except String (List Char) := do
  ensureEnabled key
  let gcm ← lib.newGCM key
  .ok (lib.encode (nonce.val ++ gcm.encrypt nonce.val value))

def formatPreservingTokenize : Except String (List Char) := do
  let visibleToken := generateTokenWithFormat (lib.hmac key value) value
  let standardToken ← tokenize lib key nonce value
  .ok ("FPT:".toList ++ visibleToken ++ ":".toList ++ standardToken)

def tokenizeWithMode : TokenizationMode → Except String (List Char)
  | .formatPreserving => do
    ensureEnabled key
    formatPreservingTokenize lib key nonce value
  | .standard => tokenize lib key nonce value

def standardDetokenize : Except String (List Char) := do
  let data ← lib.decode token
  let gcm ← lib.newGCM key
  if data.length < 12 then .error "token too short" else gcm.decrypt (data.take 12) (data.drop 12)

def formatPreservingDetokenize : Except String (List Char) :=
  if ¬ "FPT:".toList <+: token then .error "not a format-preserving token"
  else match splitN ':' 3 token with
    | [_,_,standardToken] => standardDetokenize lib key standardToken
    | _ => .error "invalid format-preserving token format"

def detokenize : Except String (List Char) :=
  if "FPT:".toList <+: token then formatPreservingDetokenize lib key token else standardDetokenize lib key token

/-- A token is made, is recognised for what it is and gives the text back. -/
def RoundTrips (mode : TokenizationMode) : Prop :=
  ∃ token, tokenizeWithMode lib key nonce value mode = .ok token ∧ detokenize lib key token = .ok value ∧
    ("FPT:".toList <+: token ↔ mode = .formatPreserving)

variable {lib key nonce value token}

theorem formatRune_eq_colon {b : UInt8} {c : Char} : formatRune b c = ':' ↔ c = ':' := by
  have hletter : ∀ n < 26, ofNat ('A'.toNat+n) ≠ ':' ∧ ofNat ('a'.toNat+n) ≠ ':' := by decide
  have hdigit : ∀ n < 10, ofNat ('0'.toNat+n) ≠ ':' := by decide
  unfold formatRune
  split_ifs with hupper hlower hnumber
  · exact iff_of_false (hletter _ (Nat.mod_lt _ (by decide))).1 fun h => absurd (h ▸ hupper) (by decide)
  · exact iff_of_false (hletter _ (Nat.mod_lt _ (by decide))).2 fun h => absurd (h ▸ hlower) (by decide)
  · exact iff_of_false (hdigit _ (Nat.mod_lt _ (by decide))) fun h => absurd (h ▸ hnumber) (by decide)
  · rfl

theorem colon_mem_generateTokenWithFormat (seed : Fin 32 → UInt8) : ':' ∈ generateTokenWithFormat seed value ↔ ':' ∈ value := by
  simp only [generateTokenWithFormat,mem_mapIdx,formatRune_eq_colon]
  exact mem_iff_getElem.symm

theorem splitN_append {sep : Char} {n : ℕ} {part rest : List Char} (h : sep ∉ part) :
    splitN sep (n+2) (part ++ sep :: rest) = part :: splitN sep (n+1) rest := by
  have hpart : ∀ c ∈ part, decide (c ≠ sep) = true := fun c hc => decide_eq_true fun he => h (he ▸ hc)
  rw [splitN,dropWhile_append_of_pos hpart,takeWhile_append_of_pos hpart]
  simp

theorem exists_tokenize (hkey : key.length = 32) : ∃ t, tokenize lib key nonce value = .ok t ∧ ':' ∉ t ∧
    standardDetokenize lib key t = .ok value := by
  obtain ⟨gcm,hgcm,hdecrypt⟩ := lib.newGCM_ok key hkey
  refine ⟨lib.encode (nonce.val ++ gcm.encrypt nonce.val value),?_,lib.colon_notMem_encode _,?_⟩
  · rw [tokenize,ensureEnabled,if_pos hkey,hgcm]
    rfl
  · rw [standardDetokenize,lib.decode_encode,ok_bind,hgcm,ok_bind,if_neg (by simp [nonce.property]),take_left' nonce.property,
      drop_left' nonce.property]
    exact hdecrypt nonce.val value nonce.property

theorem RoundTrips.enabled {mode : TokenizationMode} (h : RoundTrips lib key nonce value mode) : key.length = 32 := by
  obtain ⟨_,h,-⟩ := h
  have henabled : ∃ u, ensureEnabled key = .ok u := by
    cases mode with
    | standard => exact (bind_ok h).imp fun _ hu => hu.1
    | formatPreserving => exact (bind_ok h).imp fun _ hu => hu.1
  by_contra hkey
  rw [ensureEnabled,if_neg hkey] at henabled
  exact nomatch henabled

theorem roundTrips_standard (hkey : key.length = 32) : RoundTrips lib key nonce value .standard := by
  obtain ⟨t,ht,hcolon,hback⟩ := exists_tokenize hkey
  have hplain : ¬ "FPT:".toList <+: t := fun h => hcolon (h.subset (by decide))
  exact ⟨t,ht,by rw [detokenize,if_neg hplain,hback],iff_of_false hplain nofun⟩

theorem formatPreservingDetokenize_iff {visible t : List Char} (ht : standardDetokenize lib key t = .ok value) :
    formatPreservingDetokenize lib key ("FPT:".toList ++ visible ++ ":".toList ++ t) = .ok value ↔ ':' ∉ visible := by
  have hparts : "FPT:".toList ++ visible ++ ":".toList ++ t = "FPT".toList ++ ':' :: (visible ++ ':' :: t) := by simp
  rw [formatPreservingDetokenize,hparts,splitN_append (by decide)]
  by_cases hcolon : ':' ∈ visible
  · -- the text's own colon ends the second part, and what follows is no base64
    obtain ⟨a,b,rfl,ha⟩ := eq_append_cons_of_mem hcolon
    rw [append_assoc,cons_append,splitN_append ha]
    refine iff_of_false (fun h => ?_) (not_not.mpr hcolon)
    obtain ⟨data,hdata,-⟩ := bind_ok h
    exact lib.decode_colon _ data (by simp) hdata
  · rw [splitN_append hcolon]
    exact iff_of_true ht hcolon

theorem roundTrips_formatPreserving_iff (hkey : key.length = 32) : RoundTrips lib key nonce value .formatPreserving ↔ ':' ∉ value := by
  obtain ⟨t,ht,-,hback⟩ := exists_tokenize hkey
  set token := "FPT:".toList ++ generateTokenWithFormat (lib.hmac key value) value ++ ":".toList ++ t with htoken
  have hmade : tokenizeWithMode lib key nonce value .formatPreserving = .ok token := by
    rw [tokenizeWithMode,ensureEnabled,if_pos hkey,ok_bind,formatPreservingTokenize,ht,ok_bind]
  have hmark : "FPT:".toList <+: token := by simp [htoken]
  have hread : detokenize lib key token = .ok value ↔ ':' ∉ value := by
    rw [detokenize,if_pos hmark,formatPreservingDetokenize_iff hback,colon_mem_generateTokenWithFormat]
  rw [← hread]
  constructor
  · rintro ⟨token',hmade',hvalue,-⟩
    rwa [Except.ok.inj (hmade.symm.trans hmade')]
  · exact fun hvalue => ⟨token,hmade,hvalue,iff_of_true hmark rfl⟩

end LedgerForge.Identities
