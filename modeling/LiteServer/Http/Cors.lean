import LiteServer.Http.Origin
import Mathlib.Data.List.Infix
import Mathlib.Data.List.SplitOn
import Mathlib.Data.List.Forall2

/-!
# Cross-origin requests

Which origins a policy accepts. An entry of the list of a policy is a star, an origin, or a wildcard
for the subdomains of a domain, and it may leave out the scheme or the port. An origin is read by
`normalize_origin`, and so is an entry without wildcard; a wildcard has a reading of its own, which
shares the split of host and port.

What the entries are for is in `Entry.Accepts`, which speaks of schemes, of hosts, of the labels of
a domain and of effective ports, and `Entry.Writes` says how an entry is spelled. The two readings
of the code agree with them on every spelling.

## Main results

* `matchesSpecific_iff` — one entry
* `resolveAcao_exact` — a list without star accepts what its entries accept, and the value it
  answers with is the same origin
-/

namespace LiteServer.Http

/-! ### The functions -/

/-- The origin as text. -/
def NormalizedOrigin.canonical (o : NormalizedOrigin) : Text :=
  o.scheme ++ ':' :: '/' :: '/' :: (o.host ++
    match o.port with
    | some p => ':' :: Nat.toDigits 10 p
    | none => [])

/-- The value of `Access-Control-Allow-Origin`. -/
inductive AcaoValue
  | star
  | origin (text : Text)
  deriving DecidableEq

/-- An entry for the subdomains of a domain. -/
structure WildcardOrigin where
  /-- A star is any scheme. -/
  scheme : Text
  /-- With the dot in front. -/
  suffix : Text
  port : Option ℕ

/-- `parse_wildcard`. -/
def parseWildcard (pattern : Text) : Option WildcardOrigin :=
  let parts := ((splitScheme pattern).map fun parts => (lower parts.1, parts.2)).getD
    (['*'], pattern)
  (splitHostPort parts.2).bind fun hp =>
    ("*.".toList.isPrefixOf? hp.1).bind fun suffix =>
      if suffix = [] ∨ '*' ∈ suffix then none else some ⟨parts.1, '.' :: lower suffix, hp.2⟩

/-- The entry admits the port of the origin. -/
def WildcardOrigin.matchesPort (w : WildcardOrigin) (o : NormalizedOrigin) : Bool :=
  match w.port with
  | none => w.scheme = ['*'] || o.port.isNone
  | some patternPort =>
    match o.port with
    | some p => p = patternPort
    | none => defaultPort o.scheme = some patternPort

/-- The entry admits the origin. -/
def WildcardOrigin.matches (w : WildcardOrigin) (o : NormalizedOrigin) : Bool :=
  if w.scheme ≠ ['*'] ∧ w.scheme ≠ o.scheme then false
  else if w.matchesPort o = false then false
  else w.suffix.isSuffixOf o.host && w.suffix.length < o.host.length

/-- An entry other than a star admits the origin. -/
def matchesSpecific (pattern : Text) (origin : NormalizedOrigin) : Bool :=
  match if "*.".toList <:+: pattern then parseWildcard pattern else none with
  | some w => w.matches origin
  | none => normalizeOrigin pattern = some origin

/-- `resolve_acao`. -/
def resolveAcao (origin : NormalizedOrigin) (allowOrigins : List Text) : Option AcaoValue :=
  if allowOrigins.any fun entry =>
      trim entry ≠ [] && trim entry ≠ ['*'] && matchesSpecific (trim entry) origin then
    some (.origin origin.canonical)
  else if allowOrigins.any fun entry => trim entry = ['*'] then some .star
  else none

/-! ### What an entry is for -/

/-- A character of a host name or of an address. -/
def isNameChar (c : Char) : Bool := c.isAlphanum || c = '-' || c = '_' || c = '.'

/-- A host name or an address in dotted form. -/
structure IsName (host : Text) : Prop where
  ne_nil : host ≠ []
  chars : ∀ c ∈ host, isNameChar c = true
  head : host.head? ≠ some '.'

/-- A host: a name or an address. -/
inductive IsHost : Text → Prop
  | name {host : Text} : IsName host → IsHost host
  /-- A bracketed literal. -/
  | literal {x : Text} : (∀ c ∈ x, isNameChar c = true ∨ c = ':') → IsHost ('[' :: (x ++ [']']))

/-- The scheme of an origin. -/
structure IsScheme (scheme : Text) : Prop where
  ne_nil : scheme ≠ []
  chars : ∀ c ∈ scheme, isSchemeChar c = true

/-- The text is an origin: a scheme, a host, and a port if any. -/
structure IsOrigin (text scheme host : Text) (port : Option ℕ) : Prop where
  isScheme : IsScheme scheme
  isHost : IsHost host
  parts : ∃ tail, text = scheme ++ ':' :: '/' :: '/' :: (host ++ tail) ∧ IsPort tail port

/-- An entry of a list, other than a star. -/
inductive Entry
  | plain (scheme host : Text) (port : Option ℕ)
  | wildcard (scheme : Option Text) (domain : Text) (port : Option ℕ)

/-- How an entry is spelled. -/
inductive Entry.Writes : Entry → Text → Prop
  | plain {text scheme host : Text} {port : Option ℕ} : IsOrigin text scheme host port →
      Entry.Writes (.plain scheme host port) text
  | bare {domain tail : Text} {port : Option ℕ} : IsName domain → IsPort tail port →
      Entry.Writes (.wildcard none domain port) ('*' :: '.' :: (domain ++ tail))
  | under {scheme domain tail : Text} {port : Option ℕ} : IsScheme scheme → IsName domain →
      IsPort tail port →
      Entry.Writes (.wildcard (some scheme) domain port)
        (scheme ++ ':' :: '/' :: '/' :: '*' :: '.' :: (domain ++ tail))

/-- The labels of the domain are the last ones of the host, and the host has more. -/
def IsSubdomain (host domain : Text) : Prop :=
  ∃ front, front ≠ [] ∧ (lower host).splitOn '.' = front ++ (lower domain).splitOn '.'

/-- The origins that an entry is for. -/
def Entry.Accepts (scheme host : Text) (port : Option ℕ) : Entry → Prop
  | .plain s h p =>
    lower s = lower scheme ∧ lower h = lower host ∧ effectivePort s p = effectivePort scheme port
  | .wildcard s domain p =>
    IsSubdomain host domain ∧ (∀ t ∈ s, lower t = lower scheme) ∧
    match p with
    | some p => effectivePort scheme port = some p
    | none => s.isSome = true → effectivePort scheme port = defaultPort (lower scheme)

/-! ### Texts of the grammar -/

theorem isHostChar_of_isNameChar {c : Char} (h : isNameChar c = true) :
    isHostChar c = true ∧ c ≠ '*' := by
  simp only [isNameChar, Bool.or_eq_true, decide_eq_true_eq] at h
  rcases h with ((halnum | rfl) | rfl) | rfl
  · have hcodes := codes_of_isAlphanum halnum
    have hne : ∀ d : Char, (d.toNat < 48 ∨ 57 < d.toNat ∧ d.toNat < 65 ∨
        90 < d.toNat ∧ d.toNat < 97) → c ≠ d := fun d hd => ne_of_code (by omega)
    have hprint : isPrintable c = true := by
      simp only [isPrintable, Bool.and_eq_true, decide_eq_true_eq]
      omega
    have hspace : isSpace c = false := isSpace_of_code (by omega) (by omega)
    refine ⟨?_, hne '*' (by decide)⟩
    simp [isHostChar, hprint, hspace, endsAuthority, hne '/' (by decide), hne '?' (by decide),
      hne '#' (by decide), hne ':' (by decide), hne '[' (by decide), hne ']' (by decide),
      hne '@' (by decide)]
  · decide
  · decide
  · decide

theorem isNameChar_toLower {c : Char} (h : isNameChar c = true) : isNameChar c.toLower = true := by
  rcases toLower_eq_or_isAlphanum c with hsame | halnum
  · rw [hsame]
    exact h
  · simp [isNameChar, halnum]

section

variable {text scheme host domain tail : Text} {port : Option ℕ}

theorem IsHost.isAuthority (h : IsHost host) (hport : IsPort tail port) :
    IsAuthority (host ++ tail) host port := by
  cases h with
  | name h =>
    exact .name h.ne_nil (fun c hc => (isHostChar_of_isNameChar (h.chars c hc)).1) hport
  | @literal x h =>
    rw [List.cons_append, List.append_assoc, List.singleton_append]
    exact .literal (fun c hc => (h c hc).imp_left fun hname => (isHostChar_of_isNameChar hname).1)
      hport

theorem IsOrigin.isUrl (h : IsOrigin text scheme host port) : IsUrl text scheme host port [] := by
  obtain ⟨tail, htext, hport⟩ := h.parts
  refine ⟨h.isScheme.ne_nil, h.isScheme.chars,
    ⟨host ++ tail, by rw [List.append_nil, htext], h.isHost.isAuthority hport⟩, ?_⟩
  intro c hc
  cases hc

theorem IsUrl.trim_eq_self (h : IsUrl text scheme host port []) : LiteServer.trim text = text := by
  obtain ⟨x, htext, -, hx⟩ := h.front
  rw [List.append_nil] at htext
  exact LiteServer.trim_eq_self fun c hc => (hx c (htext ▸ hc)).2

/-- The value that an origin is read as. -/
def normalized (scheme host : Text) (port : Option ℕ) : NormalizedOrigin :=
  ⟨lower scheme, lower host, port.filter fun p => some p ≠ defaultPort (lower scheme)⟩

theorem IsOrigin.normalize (h : IsOrigin text scheme host port) :
    normalizeOrigin text = some (normalized scheme host port) :=
  normalizeOrigin_of_isUrl h.isUrl

theorem IsPort.star_not_mem (h : IsPort tail port) : '*' ∉ tail := by
  cases h with
  | absent => exact List.not_mem_nil
  | digits _ hds _ =>
    intro hmem
    rcases List.mem_cons.mp hmem with heq | hmem
    · exact absurd heq (by decide)
    · exact absurd (hds _ hmem) (by decide)

theorem IsName.star_not_mem (h : IsName host) : '*' ∉ host := fun hmem =>
  (isHostChar_of_isNameChar (h.chars _ hmem)).2 rfl

theorem IsHost.star_not_mem (h : IsHost host) : '*' ∉ host := by
  cases h with
  | name h => exact h.star_not_mem
  | literal h =>
    intro hmem
    simp only [List.mem_cons, List.mem_append, List.not_mem_nil, or_false] at hmem
    rcases hmem with heq | hmem | heq
    · exact absurd heq (by decide)
    · rcases h _ hmem with hname | heq
      · exact (isHostChar_of_isNameChar hname).2 rfl
      · exact absurd heq (by decide)
    · exact absurd heq (by decide)

theorem IsScheme.star_not_mem (h : IsScheme scheme) : '*' ∉ scheme := fun hmem =>
  absurd (h.chars _ hmem) (by decide)

theorem IsOrigin.star_not_mem (h : IsOrigin text scheme host port) : '*' ∉ text := by
  obtain ⟨tail, rfl, hport⟩ := h.parts
  simp only [List.mem_append, List.mem_cons, not_or]
  exact ⟨h.isScheme.star_not_mem, by decide, by decide, by decide, h.isHost.star_not_mem,
    hport.star_not_mem⟩

/-! ### Ports -/

/-- The default port is left out and put in again. -/
theorem or_filter_default (port d : Option ℕ) :
    (port.filter fun p => some p ≠ d).or d = port.or d := by
  cases port with
  | none => rfl
  | some p =>
    by_cases hp : some p = d
    · simp [Option.filter_some, hp.symm]
    · simp [Option.filter_some, hp]

theorem filter_default_eq_none (port d : Option ℕ) :
    (port.filter fun p => some p ≠ d) = none ↔ port.or d = d := by
  cases port with
  | none => simp
  | some p => simp [Option.filter_some]

theorem filter_default_inj (port port' d : Option ℕ) :
    (port.filter fun p => some p ≠ d) = (port'.filter fun p => some p ≠ d) ↔
      port.or d = port'.or d := by
  constructor
  · intro h
    rw [← or_filter_default port, h, or_filter_default]
  · intro h
    by_cases hd : port.or d = d
    · rw [(filter_default_eq_none port d).mpr hd, (filter_default_eq_none port' d).mpr (h ▸ hd)]
    · -- both are written out, and not the default
      cases port with
      | none => exact absurd rfl hd
      | some p =>
        cases port' with
        | none => exact absurd h hd
        | some q =>
          cases h
          rfl

/-! ### Domains -/

theorem intercalate_append {front labels : List Text} (hfront : front ≠ [])
    (hlabels : labels ≠ []) :
    ['.'].intercalate (front ++ labels) =
      ['.'].intercalate front ++ '.' :: ['.'].intercalate labels := by
  induction front with
  | nil => exact absurd rfl hfront
  | cons a front ih =>
    cases front with
    | nil =>
      cases labels with
      | nil => exact absurd rfl hlabels
      | cons b labels => simp [List.intercalate]
    | cons b front =>
      have hrest := ih (List.cons_ne_nil _ _)
      simp only [List.intercalate, List.cons_append, List.intersperse_cons_cons,
        List.flatten_cons] at hrest ⊢
      rw [hrest]
      simp

/-- A text ends in a dot and the domain exactly when the labels of the domain are its last ones. -/
theorem endsWith_iff {host domain : Text} (hhead : host.head? ≠ some '.') :
    (('.' :: domain).isSuffixOf host && decide (('.' :: domain).length < host.length)) = true ↔
      ∃ front, front ≠ [] ∧ host.splitOn '.' = front ++ domain.splitOn '.' := by
  rw [Bool.and_eq_true, decide_eq_true_eq, List.isSuffixOf_iff_suffix]
  constructor
  · rintro ⟨⟨x, rfl⟩, -⟩
    exact ⟨x.splitOn '.', List.splitOn_ne_nil _ _, List.splitOn_append_cons_self _ _⟩
  · rintro ⟨front, hfront, hlabels⟩
    have hhost : host = ['.'].intercalate front ++ '.' :: domain := by
      calc host = ['.'].intercalate (host.splitOn '.') := (List.intercalate_splitOn _).symm
        _ = ['.'].intercalate front ++ '.' :: ['.'].intercalate (domain.splitOn '.') := by
          rw [hlabels, intercalate_append hfront (List.splitOn_ne_nil _ _)]
        _ = _ := by rw [List.intercalate_splitOn]
    refine ⟨⟨_, hhost.symm⟩, ?_⟩
    have hne : ['.'].intercalate front ≠ [] := by
      intro hnil
      rw [hnil, List.nil_append] at hhost
      exact hhead (hhost ▸ rfl)
    rw [hhost, List.length_append]
    exact Nat.lt_add_of_pos_left (List.length_pos_of_ne_nil hne)

theorem lower_head {host : Text} (h : host.head? ≠ some '.') : (lower host).head? ≠ some '.' := by
  intro hlower
  rw [lower, List.head?_map, Option.map_eq_some_iff] at hlower
  obtain ⟨c, hc, hdot⟩ := hlower
  rcases toLower_cases c with hsame | ⟨hlow, -⟩
  · exact h (hc.trans (congrArg some (hsame.symm.trans hdot)))
  · rw [hdot] at hlow
    exact absurd hlow (by decide)

theorem IsHost.head (h : IsHost host) : host.head? ≠ some '.' := by
  cases h with
  | name h => exact h.head
  | literal _ =>
    intro hhead
    cases hhead

/-! ### Entries -/

theorem infix_mem {pattern : Text} (h : "*.".toList <:+: pattern) : '*' ∈ pattern :=
  h.subset (by decide)

/-- An origin as an entry. -/
theorem matchesSpecific_plain {text s h : Text} {p : Option ℕ} (hentry : IsOrigin text s h p) :
    matchesSpecific text (normalized scheme host port) = true ↔
      Entry.Accepts scheme host port (.plain s h p) := by
  rw [matchesSpecific, if_neg fun hinfix => hentry.star_not_mem (infix_mem hinfix)]
  simp only [hentry.normalize, decide_eq_true_eq, Option.some.injEq, normalized,
    NormalizedOrigin.mk.injEq, Entry.Accepts, effectivePort]
  refine and_congr_right fun hscheme => and_congr_right fun _ => ?_
  rw [hscheme]
  exact filter_default_inj p port _

theorem splitScheme_eq_none {text : Text} (h : '/' ∉ text) : splitScheme text = none := by
  rw [Option.eq_none_iff_forall_ne_some]
  rintro ⟨front, rest⟩ hparts
  rw [splitScheme_eq_some hparts] at h
  simp at h

/-- A wildcard behind its scheme has the form of an authority. -/
theorem isAuthority_wildcard (hname : IsName domain) (hport : IsPort tail port) :
    IsAuthority ('*' :: '.' :: (domain ++ tail)) ('*' :: '.' :: domain) port := by
  refine @IsAuthority.name ('*' :: '.' :: domain) tail port (List.cons_ne_nil _ _) ?_ hport
  intro c hc
  simp only [List.mem_cons] at hc
  rcases hc with rfl | rfl | hc
  · decide
  · decide
  · exact (isHostChar_of_isNameChar (hname.chars c hc)).1

theorem parseWildcard_of_parts {pattern s : Text} (hname : IsName domain)
    (hport : IsPort tail port)
    (hparts : ((splitScheme pattern).map fun parts => (lower parts.1, parts.2)).getD
      (['*'], pattern) = (s, '*' :: '.' :: (domain ++ tail))) :
    parseWildcard pattern = some ⟨s, '.' :: lower domain, port⟩ := by
  have hne : ¬ (domain = [] ∨ '*' ∈ domain) := not_or.mpr ⟨hname.ne_nil, hname.star_not_mem⟩
  simp only [parseWildcard, hparts, splitHostPort_of_isAuthority (isAuthority_wildcard hname hport),
    Option.bind_some]
  exact if_neg hne

theorem matchesPort_iff (scheme host : Text) (port : Option ℕ) (w : WildcardOrigin) :
    w.matchesPort (normalized scheme host port) = true ↔
      match w.port with
      | some p => effectivePort scheme port = some p
      | none => w.scheme ≠ ['*'] → effectivePort scheme port = defaultPort (lower scheme) := by
  rw [WildcardOrigin.matchesPort, effectivePort, normalized]
  cases w.port with
  | none =>
    simp only [Bool.or_eq_true, decide_eq_true_eq, Option.isNone_iff_eq_none,
      filter_default_eq_none]
    exact or_iff_not_imp_left
  | some p =>
    rw [← or_filter_default port]
    cases port.filter fun p => some p ≠ defaultPort (lower scheme) with
    | none => simp
    | some q => simp

/-- A wildcard with its scheme, or a star for it. -/
theorem wildcard_matches_iff (s : Option Text) (p : Option ℕ) (hs : ∀ t ∈ s, '*' ∉ lower t)
    (hhost : IsHost host) :
    (WildcardOrigin.mk ((s.map lower).getD ['*']) ('.' :: lower domain) p).matches
        (normalized scheme host port) = true ↔
      Entry.Accepts scheme host port (.wildcard s domain p) := by
  have hstar : (s.map lower).getD ['*'] ≠ ['*'] ↔ s.isSome = true := by
    cases s with
    | none => simp
    | some t =>
      refine iff_of_true (fun heq => hs t rfl ?_) rfl
      rw [Option.map_some, Option.getD_some] at heq
      rw [heq]
      exact List.mem_singleton_self _
  have hscheme : ¬ ((s.map lower).getD ['*'] ≠ ['*'] ∧ (s.map lower).getD ['*'] ≠ lower scheme) ↔
      ∀ t ∈ s, lower t = lower scheme := by
    rw [hstar, not_and, not_not]
    cases s with
    | none => simp
    | some t => simp
  have hsub : ((('.' :: lower domain).isSuffixOf (lower host) &&
      decide (('.' :: lower domain).length < (lower host).length)) = true ↔
      IsSubdomain host domain) := endsWith_iff (lower_head hhost.head)
  have hport := matchesPort_iff scheme host port ⟨(s.map lower).getD ['*'],
    '.' :: lower domain, p⟩
  simp only [hstar] at hport
  have haccepts : Entry.Accepts scheme host port (.wildcard s domain p) ↔ IsSubdomain host domain ∧
      ¬ ((s.map lower).getD ['*'] ≠ ['*'] ∧ (s.map lower).getD ['*'] ≠ lower scheme) ∧
      (WildcardOrigin.mk ((s.map lower).getD ['*']) ('.' :: lower domain) p).matchesPort
        (normalized scheme host port) = true := by
    rw [hscheme, hport]
    cases p <;> exact Iff.rfl
  rw [haccepts, ← hsub, WildcardOrigin.matches]
  split
  · rename_i hother
    exact iff_of_false Bool.false_ne_true fun h => h.2.1 hother
  · rename_i hsame
    split
    · rename_i hfalse
      exact iff_of_false Bool.false_ne_true fun h => absurd (h.2.2.symm.trans hfalse) (by decide)
    · rename_i htrue
      exact (and_iff_left ⟨hsame, (Bool.not_eq_false _).mp htrue⟩).symm

theorem star_not_mem_lower {t : Text} (h : IsScheme t) : '*' ∉ lower t := by
  intro hmem
  obtain ⟨c, hc, heq⟩ := List.mem_map.mp hmem
  exact absurd (heq ▸ isSchemeChar_toLower (h.chars c hc)) (by decide)

/-- **One entry**: it matches the origins that it is for. -/
theorem matchesSpecific_iff {entry : Entry} (hentry : entry.Writes text) (hhost : IsHost host) :
    matchesSpecific text (normalized scheme host port) = true ↔ entry.Accepts scheme host port := by
  cases hentry with
  | plain horigin => exact matchesSpecific_plain horigin
  | @bare domain tail p hname hport =>
    have hslash : '/' ∉ '*' :: '.' :: (domain ++ tail) := by
      simp only [List.mem_cons, List.mem_append, not_or]
      refine ⟨by decide, by decide, fun hmem => ?_, fun hmem => ?_⟩
      · exact absurd (hname.chars _ hmem) (by decide)
      · exact absurd (hport.chars _ hmem).2.2.1 (by decide)
    have hparse : parseWildcard ('*' :: '.' :: (domain ++ tail)) =
        some ⟨['*'], '.' :: lower domain, p⟩ :=
      parseWildcard_of_parts hname hport (by rw [splitScheme_eq_none hslash]; rfl)
    have hinfix : "*.".toList <:+: '*' :: '.' :: (domain ++ tail) :=
      (List.prefix_append ['*', '.'] (domain ++ tail)).isInfix
    rw [matchesSpecific, if_pos hinfix, hparse]
    exact wildcard_matches_iff none p (by simp) hhost
  | @under s domain tail p hscheme hname hport =>
    have hparse : parseWildcard (s ++ ':' :: '/' :: '/' :: '*' :: '.' :: (domain ++ tail)) =
        some ⟨lower s, '.' :: lower domain, p⟩ :=
      parseWildcard_of_parts hname hport (by
        rw [splitScheme_append fun c hc => isSchemeChar_ne_colon (hscheme.chars c hc)]
        rfl)
    have hinfix : "*.".toList <:+: s ++ ':' :: '/' :: '/' :: '*' :: '.' :: (domain ++ tail) :=
      ⟨s ++ [':', '/', '/'], domain ++ tail, by simp⟩
    rw [matchesSpecific, if_pos hinfix, hparse]
    exact wildcard_matches_iff (some s) p (by simpa using star_not_mem_lower hscheme) hhost

/-! ### Lists of entries -/

theorem Entry.Writes.trim {entry : Entry} (h : entry.Writes text) :
    LiteServer.trim text = text := by
  cases h with
  | plain horigin => exact horigin.isUrl.trim_eq_self
  | bare hname hport => exact (isAuthority_wildcard hname hport).trim
  | @under s domain tail p hscheme hname hport =>
    have hurl : IsUrl (s ++ ':' :: '/' :: '/' :: '*' :: '.' :: (domain ++ tail)) s
        ('*' :: '.' :: domain) p [] := by
      refine ⟨hscheme.ne_nil, hscheme.chars, ⟨_, ?_, isAuthority_wildcard hname hport⟩, ?_⟩
      · rw [List.append_nil]
      · intro c hc
        cases hc
    exact hurl.trim_eq_self

/-- An entry is longer than a star. -/
theorem Entry.Writes.length {entry : Entry} (h : entry.Writes text) : 1 < text.length := by
  cases h with
  | plain horigin =>
    obtain ⟨tail, rfl, -⟩ := horigin.parts
    simp only [List.length_append, List.length_cons]
    omega
  | bare _ _ =>
    simp only [List.length_append, List.length_cons]
    omega
  | under _ _ _ =>
    simp only [List.length_append, List.length_cons]
    omega

theorem Entry.Writes.ne {entry : Entry} (h : entry.Writes text) : text ≠ [] ∧ text ≠ ['*'] :=
  ⟨fun heq => absurd (heq ▸ h.length) (by decide), fun heq => absurd (heq ▸ h.length) (by decide)⟩

variable {entries : List Entry} {allowOrigins : List Text}

theorem any_matchesSpecific (h : List.Forall₂ Entry.Writes entries allowOrigins)
    (hhost : IsHost host) :
    (allowOrigins.any fun entry => trim entry ≠ [] && trim entry ≠ ['*'] &&
      matchesSpecific (trim entry) (normalized scheme host port)) = true ↔
      ∃ entry ∈ entries, entry.Accepts scheme host port := by
  induction h with
  | nil => simp
  | cons hentry _ ih =>
    rw [List.any_cons, Bool.or_eq_true, ih, List.exists_mem_cons_iff, hentry.trim]
    simp [hentry.ne, matchesSpecific_iff hentry hhost]

theorem any_star (h : List.Forall₂ Entry.Writes entries allowOrigins) :
    (allowOrigins.any fun entry => trim entry = ['*']) = false := by
  induction h with
  | nil => rfl
  | cons hentry _ ih =>
    rw [List.any_cons, ih, hentry.trim, decide_eq_false hentry.ne.2, Bool.or_false]

/-- A list of entries without star. -/
theorem resolveAcao_of_writes (scheme : Text) (port : Option ℕ)
    (h : List.Forall₂ Entry.Writes entries allowOrigins) (hhost : IsHost host) :
    (resolveAcao (normalized scheme host port) allowOrigins =
        some (.origin (normalized scheme host port).canonical) ∧
      ∃ entry ∈ entries, entry.Accepts scheme host port) ∨
    (resolveAcao (normalized scheme host port) allowOrigins = none ∧
      ¬ ∃ entry ∈ entries, entry.Accepts scheme host port) := by
  rw [resolveAcao]
  split
  · rename_i hsome
    exact .inl ⟨rfl, (any_matchesSpecific h hhost).mp hsome⟩
  · rename_i hnone
    rw [any_star h]
    exact .inr ⟨rfl, fun haccepts => hnone ((any_matchesSpecific h hhost).mpr haccepts)⟩

theorem IsPort.lt {p : ℕ} (h : IsPort tail port) (hp : port = some p) : p < 65536 := by
  cases h with
  | absent => cases hp
  | digits _ _ hlt =>
    cases hp
    exact hlt

theorem IsScheme.lower (h : IsScheme scheme) : IsScheme (Http.lower scheme) := by
  refine ⟨fun hnil => h.ne_nil (List.map_eq_nil_iff.mp hnil), fun c hc => ?_⟩
  obtain ⟨d, hd, rfl⟩ := List.mem_map.mp hc
  exact isSchemeChar_toLower (h.chars d hd)

theorem IsHost.lower (h : IsHost host) : IsHost (Http.lower host) := by
  cases h with
  | name h =>
    refine .name ⟨fun hnil => h.ne_nil (List.map_eq_nil_iff.mp hnil), fun c hc => ?_,
      lower_head h.head⟩
    obtain ⟨d, hd, rfl⟩ := List.mem_map.mp hc
    exact isNameChar_toLower (h.chars d hd)
  | @literal x h =>
    have hlower : Http.lower ('[' :: (x ++ [']'])) = '[' :: (Http.lower x ++ [']']) := by
      simp [Http.lower]
    rw [hlower]
    refine .literal fun c hc => ?_
    obtain ⟨d, hd, rfl⟩ := List.mem_map.mp hc
    rcases h d hd with hname | rfl
    · exact .inl (isNameChar_toLower hname)
    · exact .inr (by decide)

/-- The text that is answered with. -/
theorem isOrigin_canonical (h : IsOrigin text scheme host port) :
    IsOrigin (normalized scheme host port).canonical (lower scheme) (lower host)
      (normalized scheme host port).port := by
  obtain ⟨tail, -, hport⟩ := h.parts
  refine ⟨h.isScheme.lower, h.isHost.lower, ⟨_, rfl, ?_⟩⟩
  cases hfilter : (normalized scheme host port).port with
  | none => exact .absent
  | some p =>
    obtain ⟨hp, -⟩ := Option.filter_eq_some_iff.mp hfilter
    have hlt : p < 65536 := hport.lt hp
    have hdecimal : decimal (Nat.toDigits 10 p) = p := Nat.ofDigitChars_ten_toDigits
    have hdigits := @IsPort.digits (Nat.toDigits 10 p) Nat.toDigits_ne_nil
      (fun d hd => Nat.isDigit_of_mem_toDigits (by decide) (by decide) hd)
      (hdecimal.symm ▸ hlt)
    rwa [hdecimal] at hdigits

end

/-- **Matching of origins is exact**: a list of entries without star accepts an origin exactly when
one of the entries is for it, and what is answered is the same origin. -/
theorem resolveAcao_exact (entries : List Entry) (allowOrigins : List Text)
    (hentries : List.Forall₂ Entry.Writes entries allowOrigins) (text scheme host : Text)
    (port : Option ℕ) (htext : IsOrigin text scheme host port) :
    ∃ origin, normalizeOrigin text = some origin ∧
      ((resolveAcao origin allowOrigins).isSome = true ↔
        ∃ entry ∈ entries, entry.Accepts scheme host port) ∧
      ∀ value, resolveAcao origin allowOrigins = some value →
        ∃ echoed echoedPort, value = .origin echoed ∧
          IsOrigin echoed (lower scheme) (lower host) echoedPort ∧
          effectivePort (lower scheme) echoedPort = effectivePort scheme port := by
  refine ⟨normalized scheme host port, htext.normalize, ?_⟩
  have hecho : effectivePort (lower scheme) (normalized scheme host port).port =
      effectivePort scheme port := by
    rw [effectivePort, lower_lower, normalized, or_filter_default, effectivePort]
  rcases resolveAcao_of_writes scheme port hentries htext.isHost with
    ⟨hsome, haccepts⟩ | ⟨hnone, hnot⟩
  · rw [hsome]
    refine ⟨iff_of_true rfl haccepts, fun value hvalue => ?_⟩
    cases hvalue
    exact ⟨_, _, rfl, isOrigin_canonical htext, hecho⟩
  · rw [hnone]
    exact ⟨iff_of_false (by simp) hnot, fun value hvalue => nomatch hvalue⟩

/-- A port that is the default one for the scheme, in an entry and not in the origin. -/
theorem resolveAcao_exact_wildcard :
    (resolveAcao ⟨"https".toList, "app.example.com".toList, none⟩
      ["https://*.Example.com:443".toList]).isSome = true := by
  have hscheme : IsScheme "https".toList := ⟨by decide, List.all_eq_true.mp (by decide)⟩
  have hentry : Entry.Writes (.wildcard (some "https".toList) "Example.com".toList (some 443))
      "https://*.Example.com:443".toList :=
    .under hscheme ⟨by decide, List.all_eq_true.mp (by decide), by decide⟩
      (@IsPort.digits "443".toList (by decide) (List.all_eq_true.mp (by decide)) (by decide))
  have horigin : IsOrigin "https://app.example.com".toList "https".toList
      "app.example.com".toList none :=
    ⟨hscheme, .name ⟨by decide, List.all_eq_true.mp (by decide), by decide⟩, [], rfl, .absent⟩
  obtain ⟨origin, hnorm, hiff, -⟩ := resolveAcao_exact _ _ (.cons hentry .nil) _ _ _ _ horigin
  have heq : origin = ⟨"https".toList, "app.example.com".toList, none⟩ :=
    Option.some.inj (hnorm.symm.trans (by decide))
  rw [← heq, hiff]
  refine ⟨_, List.mem_singleton_self _, ⟨["app".toList], by decide, by decide⟩, ?_, rfl⟩
  intro t ht
  cases ht
  rfl

end LiteServer.Http
