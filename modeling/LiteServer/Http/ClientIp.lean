import LiteServer.Http.Headers
import Mathlib.Data.List.Basic

/-!
# The address of the client

`http_client_ip`: the peer of the connection, unless the peer is a trusted proxy; then the last
address of `X-Forwarded-For` that is not trusted, else `X-Real-IP`, else the peer.

A proxy adds the address it has seen to the end of the last `X-Forwarded-For` header (`forward`),
and the walk begins there. What the client wrote in front of it does not matter, unless it makes the
whole value unreadable: a value with a byte that is not visible ASCII is dropped, the address of the
proxy with it, and the walk begins in what the client sent.

The notation of addresses and the membership in networks are the standard library's (`IpLib`).

## Main results

* `resolve_endsIn` — the walk stops at the address the proxy added
* `client_ip_iff` — an untrusted peer is the client; behind a trusted peer the result is the true
  address exactly when the last header is readable, or the client told the truth
-/

namespace LiteServer.Http

/-- Addresses, their notation, and networks. -/
structure IpLib where
  Addr : Type
  Net : Type
  contains : Net → Addr → Bool
  /-- `str::parse::<IpAddr>`. -/
  parse : Text → Option Addr
  /-- `IpAddr::to_string`. -/
  display : Addr → Text
  parse_display : ∀ a, parse (display a) = some a
  parse_nil : parse [] = none
  display_chars : ∀ a, ∀ c ∈ display a, c.isAlphanum = true ∨ c = '.' ∨ c = ':'

/-! ### The walk -/

section

variable (L : IpLib)

/-- The address is in a trusted network. -/
def isTrusted (ip : L.Addr) (trusted : List L.Net) : Bool := trusted.any (L.contains · ip)

/-- `merge_xff`. -/
def mergeXff (values : List Text) : Option Text :=
  let joined := (values.map trim).filter (· ≠ [])
  if joined = [] then none else some ([',', ' '].intercalate joined)

/-- The segments of a header. -/
def segments (xff : Text) : List Text := ((xff.splitOn ',').map trim).filter (· ≠ [])

/-- How the walk over the proxies ends. -/
inductive Walk (α : Type)
  | client (ip : α)
  | invalid
  | allTrusted

/-- The loop of `walk_xff`, on the segments from right to left. -/
def walk (trusted : List L.Net) : List Text → Walk L.Addr
  | [] => .allTrusted
  | seg :: segs =>
    match L.parse seg with
    | some ip => if isTrusted L ip trusted then walk trusted segs else .client ip
    | none => .invalid

/-- `walk_xff`. -/
def walkXff (xff : Text) (trusted : List L.Net) : Option L.Addr :=
  match walk L trusted (segments xff).reverse with
  | .client ip => some ip
  | .invalid => none
  | .allTrusted => (segments xff).findSome? L.parse

/-- `resolve_from_headers`. -/
def resolveFromHeaders (xff xRealIp : Option Text) (trusted : List L.Net) : Option L.Addr :=
  (((xff.map trim).filter (· ≠ [])).bind fun s => walkXff L s trusted).orElse fun _ =>
    ((xRealIp.map trim).filter (· ≠ [])).bind L.parse

/-- `extract_client_ip`. -/
def extractClientIp (xff xRealIp : Option Text) (peer : Option L.Addr) (trusted : List L.Net) :
    Option L.Addr :=
  match peer with
  | some p =>
    if !isTrusted L p trusted then some p
    else (resolveFromHeaders L xff xRealIp trusted).or (some p)
  | none => resolveFromHeaders L xff xRealIp trusted

/-! ### Headers -/

/-- The header with the chain of proxies. -/
def xForwardedFor : String := "x-forwarded-for"

/-- The header with one address. -/
def xRealIp : String := "x-real-ip"

/-- All values of a header that can be read, merged. -/
def headerAll (headers : HeaderMap) (name : String) : Option Text :=
  mergeXff ((headers.getAll name).filterMap toStr)

/-- The first value of a header, if it can be read and is not empty. -/
def headerFirst (headers : HeaderMap) (name : String) : Option Text :=
  ((headers.get name).bind toStr).filter (· ≠ [])

/-- `http_client_ip`; without any source, the empty text. -/
def httpClientIp (headers : HeaderMap) (peer : Option L.Addr) (trusted : List L.Net) : Text :=
  ((extractClientIp L (headerAll headers xForwardedFor) (headerFirst headers xRealIp) peer
    trusted).map L.display).getD []

/-! ### The proxy -/

/-- The proxy adds an address to the last header of a name, or adds the header. -/
def addToLast (name : String) (addr : Bytes) : HeaderMap → HeaderMap
  | [] => [(name, addr)]
  | h :: headers =>
    if h.1 = name ∧ ∀ h' ∈ headers, h'.1 ≠ name then
      (name, h.2 ++ asciiBytes [',', ' '] ++ addr) :: headers
    else h :: addToLast name addr headers

/-- What a trusted proxy sends on for a client. -/
def forward (client : L.Addr) (headers : HeaderMap) : HeaderMap :=
  addToLast xForwardedFor (asciiBytes (L.display client)) headers

end

/-! ### The headers behind the proxy -/

theorem getAll_cons_self (name : String) (v : Bytes) (headers : HeaderMap) :
    HeaderMap.getAll ((name, v) :: headers) name = v :: headers.getAll name := by
  simp [HeaderMap.getAll]

variable {name : String}

theorem getAll_cons_ne {h : String × Bytes} (hne : h.1 ≠ name) (headers : HeaderMap) :
    HeaderMap.getAll (h :: headers) name = headers.getAll name := by
  simp [HeaderMap.getAll, hne]

theorem getAll_addToLast_ne {other : String} (hne : name ≠ other) (addr : Bytes)
    (headers : HeaderMap) : (addToLast name addr headers).getAll other = headers.getAll other := by
  induction headers with
  | nil => exact getAll_cons_ne hne []
  | cons h headers ih =>
    rw [addToLast]
    split
    · rename_i hlast
      rw [getAll_cons_ne hne, getAll_cons_ne (by rw [hlast.1]; exact hne)]
    · by_cases ho : h.1 = other
      · subst ho
        rw [getAll_cons_self h.1 h.2, getAll_cons_self h.1 h.2, ih]
      · rw [getAll_cons_ne ho, getAll_cons_ne ho, ih]

/-- Without such a header there is one more, else its last value is longer. -/
theorem getAll_addToLast (name : String) (addr : Bytes) (headers : HeaderMap) :
    (addToLast name addr headers).getAll name =
      (headers.getAll name).dropLast ++ [(match (headers.getAll name).getLast? with
        | some v => v ++ asciiBytes [',', ' '] ++ addr
        | none => addr)] := by
  induction headers with
  | nil => simp [addToLast, HeaderMap.getAll]
  | cons h headers ih =>
    obtain ⟨n, v⟩ := h
    rw [addToLast]
    split
    · rename_i hlast
      obtain ⟨rfl, hnone⟩ := hlast
      have hrest : HeaderMap.getAll headers n = [] := by
        simpa [HeaderMap.getAll] using fun h' hh => hnone h' hh
      rw [getAll_cons_self, getAll_cons_self, hrest]
      rfl
    · rename_i hnot
      by_cases hn : n = name
      · subst hn
        have hrest : HeaderMap.getAll headers n ≠ [] := by
          intro hnil
          refine hnot ⟨rfl, fun h' hh heq => ?_⟩
          have hmem : h'.2 ∈ HeaderMap.getAll headers n :=
            List.mem_map.mpr ⟨h', List.mem_filter.mpr ⟨hh, by simpa using heq⟩, rfl⟩
          rw [hnil] at hmem
          cases hmem
        rw [getAll_cons_self, getAll_cons_self, ih, List.dropLast_cons_of_ne_nil hrest,
          List.getLast?_cons_of_ne_nil hrest, List.cons_append]
      · rw [getAll_cons_ne hn, getAll_cons_ne hn, ih]

/-! ### The last segment -/

section

variable {L : IpLib}

variable {a : L.Addr}

theorem display_char {c : Char} (hc : c ∈ L.display a) :
    isPrintable c = true ∧ isSpace c = false ∧ c ≠ ',' := by
  rcases L.display_chars a c hc with halnum | rfl | rfl
  · have hcode := code_of_isAlphanum halnum
    refine ⟨?_, ?_, ?_⟩
    · simp only [isPrintable, Bool.and_eq_true, decide_eq_true_eq]
      omega
    · exact isSpace_of_code (by omega) (by omega)
    · rintro rfl
      exact absurd hcode.1 (by decide)
  · decide
  · decide

theorem display_ne_nil (a : L.Addr) : L.display a ≠ [] := by
  intro hnil
  have hparse := L.parse_display a
  rw [hnil, L.parse_nil] at hparse
  cases hparse

theorem trim_display (a : L.Addr) : trim (L.display a) = L.display a :=
  trim_eq_self fun _ hc => (display_char hc).2.1

/-- The text is an address, or ends in a comma, a space and an address. -/
def EndsInAddr (text addr : Text) : Prop := text = addr ∨ ∃ x, text = x ++ ',' :: ' ' :: addr

variable {text : Text}

theorem EndsInAddr.trim (h : EndsInAddr text (L.display a)) :
    EndsInAddr (LiteServer.trim text) (L.display a) := by
  rcases h with rfl | ⟨x, rfl⟩
  · exact .inl (trim_display a)
  · have hsplit : x ++ ',' :: ' ' :: L.display a = (x ++ [',', ' ']) ++ L.display a := by simp
    rw [hsplit, trim_append (fun _ hc => (display_char hc).2.1) (display_ne_nil a),
      List.dropWhile_append]
    split
    · exact .inr ⟨[], rfl⟩
    · exact .inr ⟨x.dropWhile isSpace, by simp⟩

theorem EndsInAddr.ne_nil (h : EndsInAddr text (L.display a)) : text ≠ [] := by
  rcases h with rfl | ⟨x, rfl⟩
  · exact display_ne_nil a
  · simp

/-- The last of the joined values is the end of the whole. -/
theorem EndsInAddr.intercalate {addr : Text} (h : EndsInAddr text addr) (texts : List Text) :
    EndsInAddr ([',', ' '].intercalate (texts ++ [text])) addr := by
  induction texts with
  | nil => simpa using h
  | cons t texts ih =>
    obtain ⟨u, us, hus⟩ : ∃ u us, texts ++ [text] = u :: us :=
      List.exists_cons_of_ne_nil (by simp)
    rw [hus] at ih
    rw [List.cons_append, hus, List.intercalate_cons_cons]
    rcases ih with heq | ⟨x, heq⟩
    · exact .inr ⟨t, by rw [heq]; simp⟩
    · exact .inr ⟨t ++ [',', ' '] ++ x, by rw [heq]; simp⟩

/-- The walk begins at the address at the end. -/
theorem EndsInAddr.segments (h : EndsInAddr text (L.display a)) :
    ∃ segs, Http.segments text = segs ++ [L.display a] := by
  have hcomma : ∀ c ∈ L.display a, (c == ',') = false := fun c hc => by
    simpa using (display_char hc).2.2
  have hne : decide (L.display a ≠ []) = true := by simpa using display_ne_nil a
  rcases h with rfl | ⟨x, rfl⟩
  · refine ⟨[], ?_⟩
    rw [Http.segments, List.splitOn_eq_splitOnP, List.splitOnP_eq_singleton hcomma,
      List.map_singleton, trim_display, List.filter_singleton, hne]
    rfl
  · have hspace : ∀ c ∈ ' ' :: L.display a, (c == ',') = false := by
      intro c hc
      rcases List.mem_cons.mp hc with rfl | hc
      · rfl
      · exact hcomma c hc
    have htrim : LiteServer.trim (' ' :: L.display a) = L.display a :=
      trim_append (x := [' ']) (fun _ hc => (display_char hc).2.1) (display_ne_nil a)
    refine ⟨((x.splitOn ',').map LiteServer.trim).filter (· ≠ []), ?_⟩
    rw [Http.segments, List.splitOn_eq_splitOnP, List.splitOnP_append_cons x _ rfl,
      List.splitOnP_eq_singleton hspace, List.map_append, List.filter_append, List.map_singleton,
      htrim, List.filter_singleton, hne]
    rfl

variable {trusted : List L.Net}

theorem walkXff_endsIn (h : EndsInAddr text (L.display a)) (ha : isTrusted L a trusted = false) :
    walkXff L text trusted = some a := by
  obtain ⟨segs, hsegs⟩ := h.segments
  rw [walkXff, hsegs, List.reverse_append, List.reverse_singleton, List.singleton_append, walk,
    L.parse_display]
  simp [ha]

/-- **The walk stops at the address the proxy added.** -/
theorem resolve_endsIn {values : List Text} (h : EndsInAddr text (L.display a))
    (ha : isTrusted L a trusted = false) (xri : Option Text) :
    resolveFromHeaders L (mergeXff (values ++ [text])) xri trusted = some a := by
  have hkept : ((values ++ [text]).map trim).filter (· ≠ []) =
      (values.map trim).filter (· ≠ []) ++ [trim text] := by
    have hne : decide (trim text ≠ []) = true := by simpa using h.trim.ne_nil
    rw [List.map_append, List.filter_append, List.map_singleton, List.filter_singleton, hne]
    rfl
  have hmerged := h.trim.intercalate ((values.map trim).filter (· ≠ []))
  have hne : (values.map trim).filter (· ≠ []) ++ [trim text] ≠ [] := by simp
  have htrim := hmerged.trim
  rw [resolveFromHeaders, mergeXff]
  simp only [hkept, if_neg hne, Option.map_some]
  rw [Option.filter_some, if_pos (by simpa using htrim.ne_nil), Option.bind_some,
    walkXff_endsIn htrim ha]
  rfl

/-! ### The result -/

/-- The last `X-Forwarded-For` header, if there is one, is a text. -/
def LastReadable (headers : HeaderMap) : Prop :=
  ∀ v ∈ (headers.getAll xForwardedFor).getLast?, v.all isVisible = true

instance (headers : HeaderMap) : Decidable (LastReadable headers) :=
  inferInstanceAs (Decidable (∀ v ∈ (headers.getAll xForwardedFor).getLast?, _ = true))

theorem filterMap_toStr_singleton (v : Bytes) : [v].filterMap toStr = (toStr v).toList := by
  cases h : toStr v <;> simp [h]

theorem toStr_display (a : L.Addr) : toStr (asciiBytes (L.display a)) = some (L.display a) :=
  toStr_asciiBytes fun _ hc => (display_char hc).1

/-- The address comes through at the end of the last text, if the last header is one. -/
theorem headerAll_forward (a : L.Addr) (headers : HeaderMap) :
    (LastReadable headers → ∃ values text, EndsInAddr text (L.display a) ∧
      headerAll (forward L a headers) xForwardedFor = mergeXff (values ++ [text])) ∧
    (¬ LastReadable headers → headerAll (forward L a headers) xForwardedFor =
      headerAll headers xForwardedFor) := by
  have hall := getAll_addToLast xForwardedFor (asciiBytes (L.display a)) headers
  have hsep : toStr (asciiBytes [',', ' ']) = some [',', ' '] := by decide
  rw [headerAll, forward, hall]
  cases hlast : (headers.getAll xForwardedFor).getLast? with
  | none =>
    refine ⟨fun _ => ⟨(headers.getAll xForwardedFor).dropLast.filterMap toStr, L.display a,
      .inl rfl, ?_⟩, fun hnot => ?_⟩
    · rw [List.filterMap_append, filterMap_toStr_singleton, toStr_display]
      rfl
    · exact absurd (by simp [LastReadable, hlast]) hnot
  | some v =>
    have hvalues : headers.getAll xForwardedFor =
        (headers.getAll xForwardedFor).dropLast ++ [v] :=
      (List.dropLast_append_getLast? v hlast).symm
    have hbytes : toStr (v ++ asciiBytes [',', ' '] ++ asciiBytes (L.display a)) =
        (toStr v).map (· ++ ',' :: ' ' :: L.display a) := by
      rw [toStr_append, toStr_append, hsep, toStr_display]
      cases toStr v <;> simp
    constructor
    · intro hreadable
      have hv : toStr v = some (latin1 v) := if_pos (hreadable v hlast)
      refine ⟨(headers.getAll xForwardedFor).dropLast.filterMap toStr,
        latin1 v ++ ',' :: ' ' :: L.display a, .inr ⟨_, rfl⟩, ?_⟩
      rw [List.filterMap_append, filterMap_toStr_singleton, hbytes, hv]
      rfl
    · intro hnot
      have hv : toStr v = none := by
        refine if_neg fun hvis => hnot fun w hw => ?_
        rw [hlast] at hw
        obtain rfl := Option.some.inj hw
        exact hvis
      have hboth : (headers.getAll xForwardedFor).filterMap toStr =
          (headers.getAll xForwardedFor).dropLast.filterMap toStr := by
        conv_lhs => rw [hvalues]
        rw [List.filterMap_append, filterMap_toStr_singleton, hv]
        simp
      rw [headerAll, hboth, List.filterMap_append, filterMap_toStr_singleton, hbytes, hv]
      simp

theorem headerFirst_forward (a : L.Addr) (headers : HeaderMap) :
    headerFirst (forward L a headers) xRealIp = headerFirst headers xRealIp := by
  rw [headerFirst, headerFirst, HeaderMap.get, HeaderMap.get, forward,
    getAll_addToLast_ne (by decide)]

theorem display_injective : Function.Injective L.display := fun a b h =>
  Option.some.inj (by rw [← L.parse_display a, h, L.parse_display])

/-- What the headers of a client resolve to when nothing is added to them. -/
def ownClaim (L : IpLib) (headers : HeaderMap) (trusted : List L.Net) : Option L.Addr :=
  resolveFromHeaders L (headerAll headers xForwardedFor) (headerFirst headers xRealIp) trusted

/-- **Whose address it is.** The peer's, for every header content, when the peer is not trusted.
Behind a trusted peer that adds the address of its client, the client's, exactly when the last
`X-Forwarded-For` header of the client is visible ASCII or the client's headers resolve to its own
address. -/
theorem client_ip_iff {trusted : List L.Net} {client : L.Addr}
    (hclient : isTrusted L client trusted = false) (peer : L.Addr) (headers : HeaderMap) :
    (isTrusted L peer trusted = false →
      httpClientIp L headers (some peer) trusted = L.display peer) ∧
    (isTrusted L peer trusted = true →
      (httpClientIp L (forward L client headers) (some peer) trusted = L.display client ↔
        LastReadable headers ∨ ownClaim L headers trusted = some client)) := by
  refine ⟨fun hpeer => ?_, fun hpeer => ?_⟩
  · rw [httpClientIp, extractClientIp, hpeer]
    rfl
  · obtain ⟨hread, hdrop⟩ := headerAll_forward client headers
    rw [httpClientIp, extractClientIp, hpeer, headerFirst_forward]
    by_cases hlast : LastReadable headers
    · obtain ⟨values, text, htext, hvalues⟩ := hread hlast
      rw [hvalues]
      simp [resolve_endsIn htext hclient, hlast]
    · rw [hdrop hlast]
      simp only [hlast]
      change (((ownClaim L headers trusted).or (some peer)).map L.display).getD [] = _ ↔ _
      cases hown : ownClaim L headers trusted with
      | some ip => simp [display_injective.eq_iff]
      | none =>
        have hne : L.display peer ≠ L.display client := by
          intro heq
          rw [display_injective heq, hclient] at hpeer
          cases hpeer
        simp [hne]

end

/-- The texts of the four addresses below. -/
def fourTexts : List Text :=
  ["10.0.0.1".toList, "9.9.9.9".toList, "1.2.3.4".toList, "::1".toList]

theorem fourTexts_chars : ∀ text ∈ fourTexts, ∀ c ∈ text,
    c.isAlphanum = true ∨ c = '.' ∨ c = ':' := by
  have hall : fourTexts.all (fun text =>
      text.all fun c => c.isAlphanum || decide (c = '.') || decide (c = ':')) = true := by decide
  intro text htext c hc
  have hchar := List.all_eq_true.mp (List.all_eq_true.mp hall text htext) c hc
  simpa [or_assoc] using hchar

/-- Four addresses, and networks of one address each. -/
def fourAddrs : IpLib where
  Addr := Fin 4
  Net := Fin 4
  contains net a := net = a
  parse text := [("10.0.0.1".toList, 0), ("9.9.9.9".toList, 1), ("1.2.3.4".toList, 2),
    ("::1".toList, 3)].lookup text
  display a := fourTexts.get a
  parse_display := by decide
  parse_nil := by decide
  display_chars a := fourTexts_chars _ (List.get_mem fourTexts a)

/-- A client that names another address, behind a proxy. -/
theorem readable_claim_ignored :
    httpClientIp fourAddrs (forward fourAddrs (1 : Fin 4)
      [(xForwardedFor, asciiBytes "1.2.3.4".toList), (xRealIp, asciiBytes "1.2.3.4".toList)])
      (some (0 : Fin 4)) [(0 : Fin 4)] = "9.9.9.9".toList := by
  have hclient : isTrusted fourAddrs (1 : Fin 4) [(0 : Fin 4)] = false := by decide
  exact ((client_ip_iff hclient (0 : Fin 4) _).2 (by decide)).mpr (.inl (by decide))

/-- The client's last header has the byte 255: the address of the proxy is dropped with it, and the
result is what the client has put into `X-Real-IP`. -/
theorem unreadable_claim_believed :
    httpClientIp fourAddrs (forward fourAddrs (1 : Fin 4)
      [(xForwardedFor, [255]), (xRealIp, asciiBytes "1.2.3.4".toList)])
      (some (0 : Fin 4)) [(0 : Fin 4)] = "1.2.3.4".toList := by
  decide

end LiteServer.Http
