import LiteServer.Http.Headers
import Mathlib.Data.List.TakeWhile

/-!
# Origins

`normalize_origin` and `origin_matches_host`: which authority an `Origin` or `Referer` header names,
and whether it is that of a `Host` header. Both take more than the grammar has: what follows the
bracket of an IPv6 literal is ignored, a port may begin with a plus, and a text whose port is no
number is taken as a host.

The grammar itself is `IsAuthority` and `IsUrl`. On texts of the grammar the two functions
compute what it says; outside of it, they may take a text for an origin that it is not.

## Main results

* `splitHostPort_of_isAuthority`, `normalizeOrigin_of_isUrl` — the functions on the grammar
* `originMatchesHost_iff` — on the grammar, origins match when hosts and effective ports agree
-/

namespace LiteServer.Http

/-! ### The functions -/

/-- An origin in lower case, without the default port. -/
structure NormalizedOrigin where
  scheme : Text
  host : Text
  port : Option ℕ
  deriving DecidableEq

/-- `to_ascii_lowercase`. -/
def lower (text : Text) : Text := text.map Char.toLower

/-- The number that digits write. -/
def decimal (digits : Text) : ℕ := digits.foldl (fun n d => 10 * n + (d.toNat - 48)) 0

/-- `str::parse::<u16>`. -/
def parseU16 (text : Text) : Option ℕ :=
  let digits := if text.head? = some '+' then text.tail else text
  if digits ≠ [] ∧ digits.all Char.isDigit ∧ decimal digits < 65536 then some (decimal digits)
  else none

/-- `rsplit_once(':')`. -/
def rsplitColon (text : Text) : Option (Text × Text) :=
  match text.reverse.dropWhile (· ≠ ':') with
  | [] => none
  | _ :: host => some (host.reverse, (text.reverse.takeWhile (· ≠ ':')).reverse)

/-- `split_host_port`. -/
def splitHostPort (authority : Text) : Option (Text × Option ℕ) :=
  if ']' ∈ authority then
    if authority.head? ≠ some '[' then none
    else
      let after := (authority.dropWhile (· ≠ ']')).tail
      some (authority.takeWhile (· ≠ ']') ++ [']'],
        if after.head? = some ':' then parseU16 after.tail else none)
  else
    match (rsplitColon authority).filter fun hp => hp.1 ≠ [] with
    | some (host, port) =>
      match parseU16 port with
      | some p => some (host, some p)
      | none => some (authority, none)
    | none => some (authority, none)

/-- The port of a scheme. -/
def defaultPort (scheme : Text) : Option ℕ :=
  if scheme = "https".toList then some 443 else if scheme = "http".toList then some 80 else none

/-- `split_once("://")`. -/
def splitScheme : Text → Option (Text × Text)
  | ':' :: '/' :: '/' :: rest => some ([], rest)
  | c :: text => (splitScheme text).map fun parts => (c :: parts.1, parts.2)
  | [] => none

/-- A character of a scheme. -/
def isSchemeChar (c : Char) : Bool := c.isAlphanum || c = '+' || c = '-' || c = '.'

/-- Where the authority of a URL ends. -/
def endsAuthority (c : Char) : Bool := c = '/' || c = '?' || c = '#'

/-- `normalize_origin`. -/
def normalizeOrigin (raw : Text) : Option NormalizedOrigin :=
  let raw := trim raw
  if raw = [] ∨ lower raw = "null".toList then none
  else
    (splitScheme raw).bind fun parts =>
      let scheme := lower parts.1
      if scheme = [] ∨ scheme.all isSchemeChar = false then none
      else
        (splitHostPort (parts.2.takeWhile fun c => !endsAuthority c)).bind fun hp =>
          if hp.1 = [] then none
          else some ⟨scheme, lower hp.1, hp.2.filter fun p => some p ≠ defaultPort scheme⟩

/-- `origin_matches_host`. -/
def originMatchesHost (announced host : Text) : Bool :=
  match normalizeOrigin announced, splitHostPort (trim host) with
  | some origin, some (hostName, hostPort) =>
    lower origin.host = lower hostName &&
      match origin.port, hostPort with
      | none, none => true
      | some a, some b => a = b
      | none, some p => defaultPort origin.scheme = some p
      | some p, none => defaultPort origin.scheme = some p
  | _, _ => false

/-! ### The grammar -/

/-- A character of a host name. -/
def isHostChar (c : Char) : Bool :=
  isPrintable c && !isSpace c && !endsAuthority c && c ≠ ':' && c ≠ '[' && c ≠ ']' && c ≠ '@'

/-- The text after a host: nothing, or a colon and a number. -/
inductive IsPort : Text → Option ℕ → Prop
  | absent : IsPort [] none
  | digits {ds : Text} : ds ≠ [] → (∀ d ∈ ds, d.isDigit = true) → decimal ds < 65536 →
      IsPort (':' :: ds) (some (decimal ds))

/-- The text is a host name or a bracketed literal, with or without a port. -/
inductive IsAuthority : Text → Text → Option ℕ → Prop
  | name {host tail : Text} {port : Option ℕ} : host ≠ [] → (∀ c ∈ host, isHostChar c = true) →
      IsPort tail port → IsAuthority (host ++ tail) host port
  | literal {x tail : Text} {port : Option ℕ} : (∀ c ∈ x, isHostChar c = true ∨ c = ':') →
      IsPort tail port → IsAuthority ('[' :: (x ++ ']' :: tail)) ('[' :: (x ++ [']'])) port

/-- The text is a URL of a scheme with an authority; the rest is its path, query and fragment. -/
structure IsUrl (text scheme host : Text) (port : Option ℕ) (rest : Text) : Prop where
  scheme_ne : scheme ≠ []
  scheme_chars : ∀ c ∈ scheme, isSchemeChar c = true
  parts : ∃ authority, text = scheme ++ ':' :: '/' :: '/' :: (authority ++ rest) ∧
    IsAuthority authority host port
  rest_head : ∀ c ∈ rest.head?, endsAuthority c = true

/-- The port of an authority, as a scheme has it. -/
def effectivePort (scheme : Text) (port : Option ℕ) : Option ℕ :=
  port.or (defaultPort (lower scheme))

/-- The text is a URL of the given authority. -/
def NamesWith (rest announced own : Text) : Prop :=
  ∃ scheme host port host' port', IsUrl announced scheme host port rest ∧
    IsAuthority own host' port' ∧ lower host = lower host' ∧
    effectivePort scheme port = effectivePort scheme port'

/-- The text is a URL of the given authority, with any path. -/
def Names (announced own : Text) : Prop := ∃ rest, NamesWith rest announced own

/-- The text is no URL: what stands before a `://` is no scheme. The null origin is such a text. -/
def NoUrl (text : Text) : Prop :=
  ∀ scheme rest, trim text = scheme ++ ':' :: '/' :: '/' :: rest →
    scheme = [] ∨ ∃ c ∈ scheme, isSchemeChar c = false

/-! ### Characters -/

variable {c : Char}

theorem isHostChar_iff (h : isHostChar c = true) :
    isPrintable c = true ∧
    isSpace c = false ∧ endsAuthority c = false ∧ c ≠ ':' ∧ c ≠ '[' ∧ c ≠ ']' := by
  simp only [isHostChar, Bool.and_eq_true, Bool.not_eq_true', decide_eq_true_eq] at h
  obtain ⟨⟨⟨⟨⟨⟨hprint, hspace⟩, hends⟩, hcolon⟩, hopen⟩, hclose⟩, -⟩ := h
  exact ⟨hprint, hspace, hends, hcolon, hopen, hclose⟩

theorem code_of_isDigit (h : c.isDigit = true) : 48 ≤ c.toNat ∧ c.toNat ≤ 57 := by
  simp only [Char.isDigit, Bool.and_eq_true, decide_eq_true_eq] at h
  exact h

/-- A letter in lower case is what it was, or a small letter. -/
theorem toLower_cases (c : Char) :
    c.toLower = c ∨ 97 ≤ c.toLower.toNat ∧ c.toLower.toNat ≤ 122 := by
  by_cases h : c.val ≥ 'A'.val ∧ c.val ≤ 'Z'.val
  · have hcode : c.toLower.toNat = (c.val.toNat + 32) % 2 ^ 32 := congrArg Char.toNat (dif_pos h)
    obtain ⟨hlow, hhigh⟩ := h
    change 65 ≤ c.val.toNat at hlow
    change c.val.toNat ≤ 90 at hhigh
    right
    omega
  · exact .inl (dif_neg h)

theorem toLower_toLower (c : Char) : c.toLower.toLower = c.toLower := by
  rcases toLower_cases c with hsame | ⟨hlow, -⟩
  · rw [hsame, hsame]
  · generalize c.toLower = d at hlow
    have hsmall : ¬ (d.val ≥ 'A'.val ∧ d.val ≤ 'Z'.val) := by
      rintro ⟨-, hhigh⟩
      change d.toNat ≤ 90 at hhigh
      omega
    exact dif_neg hsmall

theorem ne_of_code {d : Char} (h : c.toNat ≠ d.toNat) : c ≠ d := by
  rintro rfl
  exact h rfl

/-- What a digit is not. -/
theorem isDigit_iff (h : c.isDigit = true) :
    isPrintable c = true ∧
    isSpace c = false ∧ endsAuthority c = false ∧ c ≠ ':' ∧ c ≠ '[' ∧ c ≠ ']' ∧ c ≠ '+' := by
  obtain ⟨hlow, hhigh⟩ := code_of_isDigit h
  have hne : ∀ d : Char, d.toNat < 48 ∨ 57 < d.toNat → c ≠ d := fun d hd =>
    ne_of_code (by omega)
  refine ⟨?_, ?_, ?_, hne ':' (by decide), hne '[' (by decide), hne ']' (by decide),
    hne '+' (by decide)⟩
  · simp only [isPrintable, Bool.and_eq_true, decide_eq_true_eq]
    omega
  · exact isSpace_of_code (by omega) (by omega)
  · simp [endsAuthority, hne '/' (by decide), hne '?' (by decide), hne '#' (by decide)]

/-! ### The functions on the grammar -/

variable {port : Option ℕ}

/-- A port has no bracket, ends no authority, and has one colon, in front. -/
theorem IsPort.chars {tail : Text} (h : IsPort tail port) :
    ∀ c ∈ tail, isPrintable c = true ∧ isSpace c = false ∧ endsAuthority c = false ∧
      c ≠ '[' ∧ c ≠ ']' := by
  cases h with
  | absent => simp
  | digits _ hds _ =>
    intro c hc
    rcases List.mem_cons.mp hc with rfl | hc
    · decide
    · obtain ⟨hprint, hspace, hends, -, hopen, hclose, -⟩ := isDigit_iff (hds c hc)
      exact ⟨hprint, hspace, hends, hopen, hclose⟩

theorem parseU16_digits {ds : Text} (hne : ds ≠ []) (hds : ∀ d ∈ ds, d.isDigit = true)
    (hlt : decimal ds < 65536) : parseU16 ds = some (decimal ds) := by
  have hplus : ds.head? ≠ some '+' := by
    intro hhead
    exact (isDigit_iff (hds '+' (List.mem_of_head? hhead))).2.2.2.2.2.2 rfl
  have hall : ds.all Char.isDigit = true := List.all_eq_true.mpr hds
  simp only [parseU16, if_neg hplus]
  exact if_pos ⟨hne, hall, hlt⟩

variable {host text : Text}

/-- The characters of an authority. -/
theorem IsAuthority.chars (h : IsAuthority text host port) :
    ∀ c ∈ text, isPrintable c = true ∧ isSpace c = false ∧ endsAuthority c = false := by
  cases h with
  | name _ hhost hport =>
    intro c hc
    rcases List.mem_append.mp hc with hc | hc
    · obtain ⟨hprint, hspace, hends, -⟩ := isHostChar_iff (hhost c hc)
      exact ⟨hprint, hspace, hends⟩
    · obtain ⟨hprint, hspace, hends, -⟩ := hport.chars c hc
      exact ⟨hprint, hspace, hends⟩
  | literal hx hport =>
    intro c hc
    rcases List.mem_cons.mp hc with rfl | hc
    · decide
    · rcases List.mem_append.mp hc with hc | hc
      · rcases hx c hc with hhost | rfl
        · obtain ⟨hprint, hspace, hends, -⟩ := isHostChar_iff hhost
          exact ⟨hprint, hspace, hends⟩
        · decide
      · rcases List.mem_cons.mp hc with rfl | hc
        · decide
        · obtain ⟨hprint, hspace, hends, -⟩ := hport.chars c hc
          exact ⟨hprint, hspace, hends⟩

theorem IsAuthority.trim (h : IsAuthority text host port) : LiteServer.trim text = text :=
  trim_eq_self fun c hc => (h.chars c hc).2.1

theorem IsAuthority.host_ne_nil (h : IsAuthority text host port) : host ≠ [] := by
  cases h with
  | name hne _ _ => exact hne
  | literal _ _ => exact List.cons_ne_nil _ _

/-- Up to the first character that is not in the front part. -/
theorem takeWhile_append_cons {p : Char → Bool} {x : Text} (rest : Text) (hx : ∀ d ∈ x, p d = true)
    (hc : p c = false) :
    (x ++ c :: rest).takeWhile p = x ∧
      (x ++ c :: rest).dropWhile p = c :: rest := by
  constructor
  · rw [List.takeWhile_append_of_pos hx, List.takeWhile_cons_of_neg (by simp [hc]),
      List.append_nil]
  · rw [List.dropWhile_append_of_pos hx, List.dropWhile_cons_of_neg (by simp [hc])]

theorem rsplitColon_name (hhost : ∀ c ∈ host, c ≠ ':') : rsplitColon host = none := by
  have hdrop : host.reverse.dropWhile (· ≠ ':') = [] :=
    List.dropWhile_eq_nil_iff.mpr fun c hc => by simpa using hhost c (List.mem_reverse.mp hc)
  rw [rsplitColon, hdrop]

theorem rsplitColon_port (host : Text) {ds : Text} (hds : ∀ c ∈ ds, c ≠ ':') :
    rsplitColon (host ++ ':' :: ds) = some (host, ds) := by
  have hrev : (host ++ ':' :: ds).reverse = ds.reverse ++ ':' :: host.reverse := by simp
  obtain ⟨htake, hdrop⟩ := takeWhile_append_cons (p := (· ≠ ':')) (c := ':')
    host.reverse (fun c hc => by simpa using hds c (List.mem_reverse.mp hc)) (by simp)
  rw [rsplitColon, hrev, hdrop, htake]
  simp

/-- **`split_host_port` on the grammar.** -/
theorem splitHostPort_of_isAuthority (h : IsAuthority text host port) :
    splitHostPort text = some (host, port) := by
  cases h with
  | @name _ tail _ hne hhost hport =>
    have hclose : ']' ∉ host ++ tail := by
      intro hmem
      rcases List.mem_append.mp hmem with hmem | hmem
      · exact (isHostChar_iff (hhost _ hmem)).2.2.2.2.2 rfl
      · exact (hport.chars _ hmem).2.2.2.2 rfl
    have hcolon : ∀ c ∈ host, c ≠ ':' := fun c hc => (isHostChar_iff (hhost c hc)).2.2.2.1
    rw [splitHostPort, if_neg hclose]
    cases hport with
    | absent =>
      rw [List.append_nil, rsplitColon_name hcolon]
      rfl
    | @digits ds hds hdigits hlt =>
      rw [rsplitColon_port host fun c hc => (isDigit_iff (hdigits c hc)).2.2.2.1,
        Option.filter_some, if_pos (by simpa using hne)]
      simp only [parseU16_digits hds hdigits hlt]
  | @literal x tail _ hx hport =>
    have hmem : ']' ∈ '[' :: (x ++ ']' :: tail) := by simp
    have hopen : ∀ c ∈ '[' :: x, decide (c ≠ ']') = true := by
      intro c hc
      rcases List.mem_cons.mp hc with rfl | hc
      · decide
      · rcases hx c hc with hhost | rfl
        · simpa using (isHostChar_iff hhost).2.2.2.2.2
        · decide
    obtain ⟨htake, hdrop⟩ := takeWhile_append_cons (c := ']') tail hopen
      (by simp)
    rw [List.cons_append] at htake hdrop
    rw [splitHostPort, if_pos hmem, if_neg (by simp)]
    simp only [htake, hdrop]
    cases hport with
    | absent => rfl
    | digits hds hdigits hlt =>
      simp [parseU16_digits hds hdigits hlt]

variable {scheme : Text}

theorem splitScheme_append (h : ∀ c ∈ scheme, c ≠ ':') (rest : Text) :
    splitScheme (scheme ++ ':' :: '/' :: '/' :: rest) = some (scheme, rest) := by
  induction scheme with
  | nil => rfl
  | cons c scheme ih =>
    have hc : c ≠ ':' := h c List.mem_cons_self
    rw [List.cons_append, splitScheme]
    · rw [ih fun d hd => h d (List.mem_cons_of_mem c hd), Option.map_some]
    · rintro rest' heq -
      exact hc heq

theorem splitScheme_eq_some (h : splitScheme text = some (scheme, rest)) :
    text = scheme ++ ':' :: '/' :: '/' :: rest := by
  fun_induction splitScheme text generalizing scheme with
  | case1 rest' =>
    cases h
    rfl
  | case2 c text _ ih =>
    obtain ⟨⟨front, rest'⟩, hparts, heq⟩ := Option.map_eq_some_iff.mp h
    cases heq
    rw [ih hparts, List.cons_append]
  | case3 => cases h

/-- A character that has a small letter becomes one. -/
theorem toLower_eq_or_isAlphanum (c : Char) : c.toLower = c ∨ c.toLower.isAlphanum = true := by
  rcases toLower_cases c with hsame | ⟨hlow, hhigh⟩
  · exact .inl hsame
  · have hsmall :
        (decide (c.toLower.val ≥ 'a'.val) && decide (c.toLower.val ≤ 'z'.val)) = true := by
      simp only [Bool.and_eq_true, decide_eq_true_eq]
      exact ⟨hlow, hhigh⟩
    exact .inr (Bool.or_eq_true_iff.mpr (.inl (Bool.or_eq_true_iff.mpr (.inr hsmall))))

theorem isSchemeChar_toLower (h : isSchemeChar c = true) : isSchemeChar c.toLower = true := by
  rcases toLower_eq_or_isAlphanum c with hsame | halnum
  · rw [hsame]
    exact h
  · simp [isSchemeChar, halnum]

theorem isSchemeChar_of_toLower (h : isSchemeChar c.toLower = true) : isSchemeChar c = true := by
  by_cases hupper : c.val ≥ 'A'.val ∧ c.val ≤ 'Z'.val
  · have hletter : c.isUpper = true := decide_eq_true hupper
    have halnum : c.isAlphanum = true :=
      Bool.or_eq_true_iff.mpr (.inl (Bool.or_eq_true_iff.mpr (.inl hletter)))
    simp [isSchemeChar, halnum]
  · have hsame : c.toLower = c := dif_neg hupper
    rwa [hsame] at h

theorem isSchemeChar_ne_colon (h : isSchemeChar c = true) : c ≠ ':' := by
  rintro rfl
  exact absurd h (by decide)

theorem isSchemeChar_printable (h : isSchemeChar c = true) :
    isPrintable c = true ∧ isSpace c = false := by
  simp only [isSchemeChar, Bool.or_eq_true, decide_eq_true_eq] at h
  rcases h with ((halnum | rfl) | rfl) | rfl
  · have hcode := code_of_isAlphanum halnum
    constructor
    · simp only [isPrintable, Bool.and_eq_true, decide_eq_true_eq]
      omega
    · exact isSpace_of_code (by omega) (by omega)
  · decide
  · decide
  · decide

variable {rest : Text}

/-- The part of a URL before its path is printable. -/
theorem IsUrl.front (h : IsUrl text scheme host port rest) :
    ∃ x, text = x ++ rest ∧ x ≠ [] ∧
      ∀ c ∈ x, isPrintable c = true ∧ isSpace c = false := by
  obtain ⟨-, hchars, ⟨authority, htext, hauth⟩, -⟩ := h
  refine ⟨scheme ++ ':' :: '/' :: '/' :: authority, by simp [htext], by simp, fun c hc => ?_⟩
  rcases List.mem_append.mp hc with hc | hc
  · exact isSchemeChar_printable (hchars c hc)
  · simp only [List.mem_cons] at hc
    rcases hc with rfl | rfl | rfl | hc
    · decide
    · decide
    · decide
    · obtain ⟨hprint, hspace, -⟩ := hauth.chars c hc
      exact ⟨hprint, hspace⟩

/-- Trimming cuts a URL in its path only. -/
theorem IsUrl.trim (h : IsUrl text scheme host port rest) :
    ∃ rest', IsUrl (LiteServer.trim text) scheme host port rest' := by
  obtain ⟨x, htext, hne, hx⟩ := h.front
  obtain ⟨hscheme, hchars, ⟨authority, hparts, hauth⟩, hrest⟩ := h
  have hfront : x = scheme ++ ':' :: '/' :: '/' :: authority := by
    refine List.append_cancel_right (htext.symm.trans ?_)
    simp [hparts]
  obtain ⟨cut, hcut⟩ : ∃ cut, rest = rest.rdropWhile isSpace ++ cut := by
    refine ⟨rest.rtakeWhile isSpace, ?_⟩
    rw [List.rdropWhile, List.rtakeWhile, ← List.reverse_append, List.takeWhile_append_dropWhile,
      List.reverse_reverse]
  refine ⟨rest.rdropWhile isSpace, hscheme, hchars,
    ⟨authority, ?_, hauth⟩, fun c hc => hrest c ?_⟩
  · rw [htext, trim_append_left (fun c hc => (hx c hc).2) hne, hfront]
    simp
  · rw [hcut, List.head?_append, Option.mem_def.mp hc]
    rfl

/-- **`normalize_origin` on the grammar.** -/
theorem normalizeOrigin_of_isUrl (h : IsUrl text scheme host port rest) :
    normalizeOrigin text = some ⟨lower scheme, lower host,
      port.filter fun p => some p ≠ defaultPort (lower scheme)⟩ := by
  obtain ⟨rest', hne, hchars, ⟨authority, htext, hauth⟩, hrest⟩ := h.trim
  have hnull : ¬ (trim text = [] ∨ lower (trim text) = "null".toList) := by
    rintro (hnil | hnull)
    · rw [hnil] at htext
      simp at htext
    · -- the colon of the text is none of the characters of `null`
      have hmem : ':' ∈ lower (trim text) := List.mem_map.mpr ⟨':', by rw [htext]; simp, by decide⟩
      rw [hnull] at hmem
      exact absurd hmem (by decide)
  have hscheme : ¬ (lower scheme = [] ∨ (lower scheme).all isSchemeChar = false) := by
    rintro (hnil | hall)
    · exact hne (List.map_eq_nil_iff.mp hnil)
    · have htrue : (lower scheme).all isSchemeChar = true := by
        rw [List.all_eq_true]
        intro c hc
        obtain ⟨d, hd, rfl⟩ := List.mem_map.mp hc
        exact isSchemeChar_toLower (hchars d hd)
      rw [htrue] at hall
      cases hall
  have htake : (authority ++ rest').takeWhile (fun c => !endsAuthority c) = authority := by
    rw [List.takeWhile_append_of_pos fun c hc => by simp [(hauth.chars c hc).2.2]]
    cases rest' with
    | nil => simp
    | cons c rest' => rw [List.takeWhile_cons_of_neg (by simp [hrest c rfl]), List.append_nil]
  simp only [normalizeOrigin, if_neg hnull]
  rw [htext, splitScheme_append fun c hc => isSchemeChar_ne_colon (hchars c hc), Option.bind_some]
  simp only [if_neg hscheme, htake]
  rw [splitHostPort_of_isAuthority hauth, Option.bind_some, if_neg hauth.host_ne_nil]

/-- **`normalize_origin` off the grammar.** -/
theorem normalizeOrigin_of_noUrl (h : NoUrl text) : normalizeOrigin text = none := by
  simp only [normalizeOrigin]
  split
  · rfl
  · rw [Option.bind_eq_none_iff]
    rintro ⟨front, rest⟩ hparts
    have hscheme : lower front = [] ∨ (lower front).all isSchemeChar = false := by
      rcases h front rest (splitScheme_eq_some hparts) with rfl | ⟨c, hc, hno⟩
      · exact .inl rfl
      · refine .inr (List.all_eq_false.mpr ⟨c.toLower, List.mem_map_of_mem hc, ?_⟩)
        intro hlower
        rw [isSchemeChar_of_toLower hlower] at hno
        cases hno
    exact if_pos hscheme

/-- Ports agree as the code compares them exactly when the effective ports do. -/
theorem ports_agree_iff (scheme : Text) (port port' : Option ℕ) :
    (match port.filter fun p => some p ≠ defaultPort scheme, port' with
      | none, none => true
      | some a, some b => decide (a = b)
      | none, some p => decide (defaultPort scheme = some p)
      | some p, none => decide (defaultPort scheme = some p)) = true ↔
    port.or (defaultPort scheme) = port'.or (defaultPort scheme) := by
  cases port with
  | none => cases port' <;> simp
  | some p =>
    by_cases hp : some p = defaultPort scheme
    · have hfilter : (some p).filter (fun p => some p ≠ defaultPort scheme) = none := by
        rw [Option.filter_some, if_neg (by simp [hp])]
      rw [hfilter, ← hp]
      cases port' <;> simp
    · have hfilter : (some p).filter (fun p => some p ≠ defaultPort scheme) = some p := by
        simp [hp]
      rw [hfilter]
      cases port' with
      | none => simp [eq_comm]
      | some q => simp

theorem lower_lower (text : Text) : lower (lower text) = lower text := by
  rw [lower, lower, List.map_map]
  refine List.map_congr_left fun c _ => ?_
  exact toLower_toLower c

variable {announced : Text}

/-- **Origins match when hosts and effective ports agree.** -/
theorem originMatchesHost_iff {own host' : Text} {port' : Option ℕ}
    (h : IsUrl announced scheme host port rest) (hown : IsAuthority own host' port') :
    originMatchesHost announced own = true ↔
      lower host = lower host' ∧ effectivePort scheme port = effectivePort scheme port' := by
  rw [originMatchesHost, normalizeOrigin_of_isUrl h, hown.trim,
    splitHostPort_of_isAuthority hown]
  simp only [Bool.and_eq_true, decide_eq_true_eq, lower_lower]
  exact and_congr_right fun _ => ports_agree_iff (lower scheme) port port'

theorem NamesWith.originMatchesHost {own : Text} (h : NamesWith rest announced own) :
    Http.originMatchesHost announced own = true := by
  obtain ⟨scheme, host, port, host', port', hurl, hauth, hsame⟩ := h
  exact (originMatchesHost_iff hurl hauth).mpr hsame

end LiteServer.Http
