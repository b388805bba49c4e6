import LiteServer.Http.CrossSite
import LiteServer.Http.Range

/-!
# Resumed downloads

A download looks at its file three times, by path: `metadata` for the size, `content_hash` for the
entity tag, and `open` for the bytes. The file may be replaced by a rename in between. A client
that is cut off goes on with a `Range` from the byte it has reached, and an `If-Range` with the tag
it was given; with a tag that is not the current one it gets the whole file again and starts anew.

The tag pins the content that was hashed, not the one that is sent: a replacement between the two
sends other bytes under the tag, and one between `metadata` and the hash a wrong length. Downloads
are intact in the runs in which the file is replaced between requests only (`resumed_intact`): then
what a request has taken so far is that of the file, and the client has one content (`Sound`).
-/

namespace LiteServer.Download

open Http

/-! ### The handler -/

/-- `make_etag`. -/
def makeEtag (contentHash : Text) : Text := '"' :: (contentHash ++ ['"'])

/-- `if_range_allows`. -/
def ifRangeAllows (ifRange : Option Text) (etag : Text) : Bool :=
  match ifRange with
  | none => true
  | some value => trim value = etag

/-- What is sent, and the headers about it. -/
structure DownloadResponse where
  status : ℕ
  etag : Text
  contentLength : ℕ
  /-- First and last byte, and the size of the whole. -/
  contentRange : Option (ℕ × ℕ × ℕ)
  /-- The first byte of the body in the file. -/
  start : ℕ
  body : Bytes

/-- `download_version_impl` with a source that has a tag, from the size and the tag that were
taken before and the file that is opened now; `none` is the answer 416. -/
def downloadVersionImpl (range ifRange : Option Text) (size : ℕ) (hash : Text) (opened : Bytes) :
    Option DownloadResponse :=
  let etag := makeEtag hash
  let byteRange := if ifRangeAllows ifRange etag then parseRange range size else .full
  match byteRange with
  | .full => some ⟨200, etag, size, none, 0, opened.take size⟩
  | .single start stop =>
    let len := stop - start + 1
    some ⟨206, etag, len, some (start, stop, size), start, (opened.drop start).take len⟩
  | .unsatisfiable => none

/-! ### A client -/

/-- The tag a client was given, and the bytes it has. -/
structure Client where
  etag : Text
  received : Bytes
deriving DecidableEq

/-- `Range: bytes=n-`. -/
def resumeRange (n : ℕ) : Text := "bytes=".toList ++ (Nat.toDigits 10 n ++ ['-'])

/-- The headers of the next request. -/
def requestHeaders : Option Client → Option Text × Option Text
  | none => (none, none)
  | some client => (some (resumeRange client.received.length), some client.etag)

/-- A client appends a partial body to what it has and starts anew with a whole one. The connection
breaks after `cut` bytes. -/
def receive (client : Option Client) (r : DownloadResponse) (cut : ℕ) : Client :=
  let kept := if r.status = 206 then (client.map Client.received).getD [] else []
  ⟨r.etag, kept ++ r.body.take cut⟩

/-! ### Runs -/

/-- How far a request has got. -/
inductive Phase
  | idle
  | measured (size : ℕ)
  /-- The content that was hashed. -/
  | hashed (size : ℕ) (content : Bytes)
  deriving DecidableEq

/-- The file, the request under way and the client. -/
structure State where
  file : Bytes
  phase : Phase := .idle
  client : Option Client := none

/-- What happens to the file and to the requests of the client. -/
inductive Event
  /-- The file is replaced. -/
  | replace (content : Bytes)
  | metadata
  | hash
  /-- The file is opened and sent, and the connection breaks after so many bytes. -/
  | send (cut : ℕ)

section

variable (digest : Bytes → Text)

/-- The response of a request whose file is opened in this state. -/
def State.response (s : State) (size : ℕ) (content : Bytes) : Option DownloadResponse :=
  let headers := requestHeaders s.client
  downloadVersionImpl headers.1 headers.2 size (digest content) s.file

/-- One event. -/
def State.step (s : State) : Event → State
  | .replace content => { s with file := content }
  | .metadata => match s.phase with
    | .idle => { s with phase := .measured s.file.length }
    | _ => s
  | .hash => match s.phase with
    | .measured size => { s with phase := .hashed size s.file }
    | _ => s
  | .send cut => match s.phase with
    | .hashed size content => match s.response digest size content with
      | some r => { s with phase := .idle, client := some (receive s.client r cut) }
      | none => { s with phase := .idle }
    | _ => s

/-- The events of a run, in turn. -/
def State.run (s : State) (events : List Event) : State := events.foldl (State.step digest) s

/-! ### What a run is to keep -/

/-- The headers describe a content. -/
def DownloadResponse.Describes (r : DownloadResponse) (content : Bytes) : Prop :=
  r.etag = makeEtag (digest content) ∧
    match r.contentRange with
    | none => r.contentLength = content.length
    | some (start, stop, size) =>
      start ≤ stop ∧ stop < size ∧ size = content.length ∧ r.contentLength = stop - start + 1

/-- The bytes of a client are those of one content with its tag, as far as they go. -/
def Client.Intact (client : Client) : Prop :=
  ∃ content, client.etag = makeEtag (digest content) ∧ client.received <+: content

/-- After every event, the client is intact, and the headers that were sent are those of the
content with the tag. -/
def Intact (s : State) (events : List Event) : Prop :=
  ∀ before event after, events = before ++ event :: after →
    (∀ client, ((s.run digest before).step digest event).client = some client →
      client.Intact digest) ∧
    ∀ cut size content r, event = .send cut → (s.run digest before).phase = .hashed size content →
      (s.run digest before).response digest size content = some r →
        ∃ content', r.Describes digest content'

/-- The file is replaced only while no request is under way. -/
def BetweenRequests (s : State) (events : List Event) : Prop :=
  ∀ before content after, events = before ++ .replace content :: after →
    (s.run digest before).phase = .idle

end

/-! ### Responses -/

variable {digest : Bytes → Text} {s : State} {client : Client} {size n cut : ℕ}
  {content opened : Bytes} {r : DownloadResponse}

theorem makeEtag_inj {h h' : Text} (heq : makeEtag h = makeEtag h') : h = h' :=
  List.append_cancel_right (List.cons.inj heq).2

theorem trim_makeEtag (h : Text) : trim (makeEtag h) = makeEtag h := by
  have hquote : isSpace '"' = false := by decide
  have hdrop : (makeEtag h).dropWhile isSpace = makeEtag h :=
    List.dropWhile_cons_of_neg (by simp [hquote])
  rw [trim, hdrop, makeEtag, ← List.cons_append,
    List.rdropWhile_concat_neg _ _ _ (by simp [hquote])]

theorem isNumber_toDigits (n : ℕ) : IsNumber (Nat.toDigits 10 n) :=
  ⟨Nat.toDigits_ne_nil, fun _ hc => Nat.isDigit_of_mem_toDigits (by decide) (by decide) hc⟩

/-- A resumed request that is answered in part is answered from where it asked. -/
theorem parseRange_resumeRange {start stop : ℕ}
    (h : parseRange (some (resumeRange n)) size = .single start stop) :
    start = n ∧ stop = size - 1 ∧ n < size := by
  have hnumber := isNumber_toDigits n
  have hspec : IsSpec (Nat.toDigits 10 n) [] (.openEnd (decimal (Nat.toDigits 10 n))) :=
    .openEnd hnumber
  have htrim : trim (resumeRange n) = resumeRange n := by
    refine trim_eq_self fun c hc => ?_
    obtain hc | hc := List.mem_append.mp hc
    · have hall : "bytes=".toList.all (fun c => !isSpace c) = true := by decide
      simpa using List.all_eq_true.1 hall c hc
    · obtain hc | hc := List.mem_append.mp hc
      · exact isSpace_of_isDigit (hnumber.2 c hc)
      · obtain rfl := List.mem_singleton.mp hc
        decide
  have hscan : scan (trim (resumeRange n)) = some (Nat.toDigits 10 n, []) := by
    rw [htrim]
    exact scan_of_isSpec hspec
  rw [parseRange_of_scan hscan, trim_of_isNumber hnumber, trim_nil] at h
  obtain ⟨hnil, -⟩ | ⟨b, -, hb, -⟩ | ⟨-, hstart, hlt, hstop⟩ := windowOf_eq_single h
  · exact absurd hnil hnumber.1
  · exact absurd (parseU64_nil.symm.trans hb) (Option.some_ne_none _).symm
  · rw [parseU64_of_isNumber hnumber, Option.ite_none_right_eq_some, Option.some.injEq] at hstart
    have hn : decimal (Nat.toDigits 10 n) = n := Nat.ofDigitChars_ten_toDigits
    rw [hn] at hstart
    exact ⟨hstart.2.symm, hstop, hstart.2 ▸ hlt⟩

/-- The two kinds of responses: a whole one, or the rest from where the client is, if its tag is
the current one. -/
theorem response_cases (h : s.response digest size content = some r) :
    (r = ⟨200, makeEtag (digest content), size, none, 0, s.file.take size⟩) ∨
      ∃ client, s.client = some client ∧
        trim client.etag = makeEtag (digest content) ∧ client.received.length < size ∧
        r = ⟨206, makeEtag (digest content), size - client.received.length,
          some (client.received.length, size - 1, size), client.received.length,
          (s.file.drop client.received.length).take (size - client.received.length)⟩ := by
  unfold State.response downloadVersionImpl at h
  cases hclient : s.client with
  | none =>
    left
    simp only [hclient, requestHeaders, ifRangeAllows, if_true, parseRange] at h
    exact (Option.some.inj h).symm
  | some client =>
    simp only [hclient, requestHeaders, ifRangeAllows] at h
    split at h
    · exact .inl (Option.some.inj h).symm
    · rename_i start stop hwindow
      right
      split at hwindow
      · rename_i hallow
        obtain ⟨rfl, rfl, hlt⟩ := parseRange_resumeRange hwindow
        refine ⟨client, rfl, of_decide_eq_true hallow, hlt, ?_⟩
        rw [← Option.some.inj h]
        rw [show size - 1 - client.received.length + 1 = size - client.received.length by omega]
      · exact ByteRange.noConfusion hwindow
    · exact absurd h (Option.some_ne_none _).symm

/-! ### One event -/

/-- What a request has taken so far is that of the file. -/
def State.Fresh (s : State) : Prop :=
  match s.phase with
  | .idle => True
  | .measured size => size = s.file.length
  | .hashed size content => size = s.file.length ∧ content = s.file

/-- The invariant of a run: nothing taken is out of date, and the client is intact. -/
structure Sound (digest : Bytes → Text) (s : State) : Prop where
  fresh : s.Fresh
  client : ∀ client, s.client = some client → client.Intact digest

section

variable (hdigest : Function.Injective digest)

include hdigest

/-- A response with the size and the tag of the file that is opened keeps the client intact, and
describes that file. -/
theorem intact_response (hclient : ∀ client, s.client = some client → client.Intact digest)
    (h : s.response digest s.file.length s.file = some r) (cut : ℕ) :
    (receive s.client r cut).Intact digest ∧ r.Describes digest s.file := by
  rcases response_cases h with rfl | ⟨client, hs, htag, hlt, rfl⟩
  · exact ⟨⟨s.file, rfl, (List.take_prefix _ _).trans (List.take_prefix _ _)⟩, rfl, rfl⟩
  · obtain ⟨whole, hetag, rest, hrest⟩ := hclient client hs
    rw [hetag, trim_makeEtag] at htag
    obtain rfl := hdigest (makeEtag_inj htag)
    have hlen : s.file.length - client.received.length =
        s.file.length - 1 - client.received.length + 1 := by omega
    refine ⟨⟨_, rfl, ?_⟩, rfl, by omega, by omega, rfl, hlen⟩
    rw [hs, ← hrest, List.drop_left]
    exact (List.prefix_append_right_inj _).mpr
      ((List.take_prefix _ _).trans (List.take_prefix _ _))

/-- **One event.** A replacement must find no request under way. -/
theorem Sound.step (h : Sound digest s) {event : Event}
    (hidle : ∀ content, event = .replace content → s.phase = .idle) :
    Sound digest (s.step digest event) := by
  obtain ⟨hfresh, hclient⟩ := h
  cases hphase : s.phase with
  | idle =>
    cases event with
    | metadata =>
      simp only [State.step, hphase]
      exact ⟨rfl, hclient⟩
    | replace content =>
      refine ⟨?_, hclient⟩
      simp only [State.Fresh, State.step, hphase]
    | hash | send cut =>
      simp only [State.step, hphase]
      exact ⟨hfresh, hclient⟩
  | measured size =>
    rw [State.Fresh, hphase] at hfresh
    cases event with
    | replace content => exact absurd (hphase.symm.trans (hidle content rfl)) (by simp)
    | hash =>
      simp only [State.step, hphase]
      exact ⟨⟨hfresh, rfl⟩, hclient⟩
    | metadata | send cut =>
      simp only [State.step, hphase]
      exact ⟨by rw [State.Fresh, hphase]; exact hfresh, hclient⟩
  | hashed size content =>
    rw [State.Fresh, hphase] at hfresh
    obtain ⟨rfl, rfl⟩ := hfresh
    cases event with
    | replace content => exact absurd (hphase.symm.trans (hidle content rfl)) (by simp)
    | send cut =>
      simp only [State.step, hphase]
      split
      · rename_i r hr
        refine ⟨trivial, ?_⟩
        rintro client ⟨rfl⟩
        exact (intact_response hdigest hclient hr cut).1
      · exact ⟨trivial, hclient⟩
    | metadata | hash =>
      simp only [State.step, hphase]
      exact ⟨by rw [State.Fresh, hphase]; exact ⟨rfl, rfl⟩, hclient⟩

/-! ### Whole runs -/

/-- The invariant holds at every point of a run whose replacements are between requests. -/
theorem sound_run {file : Bytes} {events : List Event}
    (hidle : BetweenRequests digest ⟨file, .idle, none⟩ events) :
    ∀ before after, events = before ++ after →
      Sound digest ((State.mk file .idle none).run digest before) := by
  intro before
  induction before using List.reverseRecOn with
  | nil => exact fun _ _ => ⟨trivial, fun _ hnone => absurd hnone (Option.some_ne_none _).symm⟩
  | append_singleton before event ih =>
    intro after hsplit
    rw [List.append_assoc] at hsplit
    rw [State.run, List.foldl_append]
    refine (ih _ hsplit).step hdigest ?_
    rintro content rfl
    exact hidle before content after hsplit

/-- **When resumed downloads are intact.** For every history of replacements, requests and broken
connections in which the file is replaced between requests only: the bytes of the client are always
those of one content with the tag it holds, and the headers describe that content. -/
theorem resumed_intact (file : Bytes) (events : List Event)
    (hidle : BetweenRequests digest ⟨file, .idle, none⟩ events) :
    Intact digest ⟨file, .idle, none⟩ events := by
  have hsound := sound_run hdigest hidle
  intro before event after hsplit
  refine ⟨?_, ?_⟩
  · have hnext := hsound (before ++ [event]) after (by rw [hsplit, List.append_assoc]; rfl)
    rw [State.run, List.foldl_append] at hnext
    exact hnext.client
  · rintro cut size content r rfl hphase hr
    obtain ⟨hfresh, hclient⟩ := hsound before _ hsplit
    rw [State.Fresh, hphase] at hfresh
    obtain ⟨rfl, rfl⟩ := hfresh
    exact ⟨_, (intact_response hdigest hclient hr cut).2⟩

end

/-! ### Two runs -/

/-- A hash without collisions: the bytes as characters. -/
def spell (content : Bytes) : Text := content.map fun byte => Char.ofNat byte.toNat

theorem spell_injective : Function.Injective spell := by
  refine List.map_injective_iff.mpr fun a b hab => ?_
  have hnat := congrArg Char.toNat hab
  rw [toNat_charOfNat, toNat_charOfNat] at hnat
  exact UInt8.toNat_inj.mp hnat

/-- A download that is cut off after one byte and resumed, and one more after a replacement. -/
theorem intact_resumed :
    Intact spell ⟨[1, 2, 3], .idle, none⟩
      [.metadata, .hash, .send 1, .metadata, .hash, .send 9, .replace [7, 8], .metadata, .hash,
        .send 9] := by
  refine resumed_intact spell_injective _ _ fun before content after h => ?_
  simp only [List.cons_eq_append_iff, List.cons.injEq, reduceCtorEq, List.nil_eq_append_iff,
    false_and, and_false, or_false, false_or, exists_const] at h
  obtain ⟨_, rfl, _, rfl, _, rfl, _, rfl, _, rfl, _, rfl, rfl, -⟩ := h
  decide +kernel

/-- A replacement between the hash and the opening: the client holds the first byte of the new
content with the tag of the old one, goes on from there when the old one is back, and ends with
bytes of both. -/
theorem spliced_resume :
    ((State.mk [1, 2, 3] .idle none).run spell
        [.metadata, .hash, .replace [7, 8, 9], .send 1, .replace [1, 2, 3], .metadata, .hash,
          .send 9]).client = some ⟨makeEtag (spell [1, 2, 3]), [7, 2, 3]⟩ ∧
      ¬ Intact spell ⟨[1, 2, 3], .idle, none⟩
        [.metadata, .hash, .replace [7, 8, 9], .send 1, .replace [1, 2, 3], .metadata, .hash,
          .send 9] := by
  have hlast : ((State.mk [1, 2, 3] .idle none).run spell
      [.metadata, .hash, .replace [7, 8, 9], .send 1, .replace [1, 2, 3], .metadata, .hash,
        .send 9]).client = some ⟨makeEtag (spell [1, 2, 3]), [7, 2, 3]⟩ := by
    decide +kernel
  refine ⟨hlast, fun h => ?_⟩
  obtain ⟨hclient, -⟩ := h [.metadata, .hash, .replace [7, 8, 9], .send 1, .replace [1, 2, 3],
    .metadata, .hash] (.send 9) [] rfl
  obtain ⟨content, htag, hprefix⟩ := hclient _ hlast
  obtain rfl := spell_injective (makeEtag_inj htag)
  exact absurd hprefix (by decide)

end LiteServer.Download
